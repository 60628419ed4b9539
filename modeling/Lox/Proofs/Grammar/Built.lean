/-
  Lox.Proofs.Grammar.Built — what the rules of reading are made of: a few steps, one after
  the other, with loops counted around some of them and recovery around others.

  A rule makes the same steps with any bound on the nesting of rules, and goes on with a
  deeper one only where the other is used up (`deepensExpr`, `deepensStmt`); so a bound
  that is not used up may be any other that is deeper (`Deepens.does`). What holds of the
  steps and is kept by putting them together holds of every rule (`builtStmt`). A rule
  never goes back (`Built.onward`), and an error is raised at the next token that is left
  then (`Built.site`).
-/

import Lox.Proofs.Grammar.Progress

namespace Lox.Grammar

variable {α β : Type}

inductive Built : {α : Type} → Parse α → Prop
  | pure {α : Type} (a : α) : Built (pure a : Parse α)
  | outOfFuel {α : Type} : Built (throw .outOfFuel : Parse α)
  | raise {α : Type} (f : SyntaxFault) : Built (raise f : Parse α)
  | report (f : SyntaxFault) : Built (report f)
  | reportAt (t : Token) (f : SyntaxFault) : Built (reportAt t f)
  | checkLoop (t : Token) (f : SyntaxFault) : Built (checkLoop t f)
  | peek : Built peek
  | skip : Built skip
  | acceptAny (terminals : List Terminal) : Built (acceptAny terminals)
  | expectName (role : NameRole) : Built (expectName role)
  | newSlot : Built newSlot
  | bind {α β : Type} {p : Parse α} {f : α → Parse β} : Built p → (∀ a, Built (f a)) → Built (p >>= f)
  | withLoops {α : Type} (before : State → Nat) (after : State → State → Nat) {p : Parse α} :
      Built p → Built (withLoops before after p)
  | recovering {p : Parse Stmt} : Built p → Built (recovering p)

theorem Built.map {p : Parse α} (h : Built p) (f : α → β) : Built (do return f (← p)) := h.bind fun a => .pure (f a)

theorem built_isNext (terminal : Terminal) : Built (isNext terminal) := by
  refine .bind .peek fun t => ?_
  cases t <;> exact .pure _

theorem built_atClose : Built atClose := by
  refine .bind .peek fun t => ?_
  cases t <;> exact .pure _

theorem built_acceptSymbol (symbol : Symbol) : Built (acceptSymbol symbol) := .acceptAny _

theorem built_acceptKeyword (keyword : Keyword) : Built (acceptKeyword keyword) := .acceptAny _

theorem built_expect (symbol : Symbol) (role : SymbolRole) : Built (expect symbol role) := by
  refine (built_acceptSymbol symbol).bind fun t => ?_
  cases t with
  | none => exact .raise _
  | some t => exact .pure t

theorem built_closed {symbol : Symbol} {role : SymbolRole} (a : α) : Built (do
    let _ ← expect symbol role
    return a) :=
  (built_expect symbol role).bind fun _ => .pure a

theorem built_assignment (target : Expr) (equals : Token) (value : Expr) : Built (assignment target equals value) := by
  cases target with
  | ref old => exact .map .newSlot _
  | get object name => exact .pure _
  | _ => exact .map (.reportAt equals .invalidTarget) _

theorem built_superclass : Built superclass := by
  refine (built_acceptSymbol .less).bind fun less => ?_
  cases less with
  | none => exact .pure _
  | some _ => exact .bind (.expectName .superclass) fun name => .map .newSlot _

/-! ## Deeper bounds -/

/-- The second makes the steps of the first, and goes on where the bound of the first is
used up. -/
inductive Deepens : {α : Type} → Parse α → Parse α → Prop
  | same {α : Type} {p : Parse α} : Built p → Deepens p p
  | spent {α : Type} (p : Parse α) : Deepens (throw .outOfFuel) p
  | bind {α β : Type} {p p' : Parse α} {f f' : α → Parse β} :
      Deepens p p' → (∀ a, Deepens (f a) (f' a)) → Deepens (p >>= f) (p' >>= f')
  | withLoops {α : Type} (before : State → Nat) (after : State → State → Nat) {p p' : Parse α} :
      Deepens p p' → Deepens (withLoops before after p) (withLoops before after p')
  | recovering {p p' : Parse Stmt} : Deepens p p' → Deepens (recovering p) (recovering p')

namespace Deepens

variable {p p' : Parse α}

theorem map (h : Deepens p p') (f : α → β) : Deepens (do return f (← p)) (do return f (← p')) :=
  h.bind fun a => .same (.pure (f a))

theorem built (h : Deepens p p') : Built p := by
  induction h with
  | same h => exact h
  | spent _ => exact .outOfFuel
  | bind _ _ ih ihf => exact ih.bind ihf
  | withLoops before after _ ih => exact ih.withLoops before after
  | recovering _ ih => exact ih.recovering

/-- A deeper bound changes nothing unless the bound is used up. -/
theorem does (h : Deepens p p') (s : State) : p' s = p s ∨ ∃ s', p s = .error .outOfFuel s' := by
  induction h generalizing s with
  | same _ => exact Or.inl rfl
  | spent _ => exact Or.inr ⟨s, rfl⟩
  | @bind _ _ p _ f _ _ _ ih ihf =>
    rcases ih s with hp | ⟨s', hp⟩
    · cases hfirst : p s with
      | ok a s₁ =>
        rw [bind_of_ok hfirst, bind_of_ok (hp.trans hfirst)]
        exact ihf a s₁
      | error e s₁ =>
        rw [bind_of_error hfirst, bind_of_error (hp.trans hfirst)]
        exact Or.inl rfl
    · exact Or.inr ⟨s', bind_of_error hp⟩
  | withLoops before after _ ih =>
    unfold Grammar.withLoops
    rcases ih { s with loops := before s } with hp | ⟨s', hp⟩
    · rw [hp]
      exact Or.inl rfl
    · rw [hp]
      exact Or.inr ⟨_, rfl⟩
  | recovering _ ih =>
    unfold Grammar.recovering
    rcases ih s with hp | ⟨s', hp⟩
    · rw [hp]
      exact Or.inl rfl
    · rw [hp]
      exact Or.inr ⟨s', rfl⟩

end Deepens

theorem deepens_ifNext {terminal : Terminal} {yes no yes' no' : Parse α} (hy : Deepens yes yes') (hn : Deepens no no') :
    Deepens (ifNext terminal yes no) (ifNext terminal yes' no') := by
  refine .bind (.same (built_isNext terminal)) fun b => ?_
  cases b with
  | true => exact hy
  | false => exact hn

/-! ## Expressions -/

structure DeepensExpr (n n' : Nat) : Prop where
  expression : ∀ l, Deepens (expression n l) (expression n' l)
  chain : ∀ l left, Deepens (chain n l left) (chain n' l left)
  suffixes : ∀ e, Deepens (suffixes n e) (suffixes n' e)
  arguments : Deepens (arguments n) (arguments n')
  moreArguments : ∀ count, Deepens (moreArguments n count) (moreArguments n' count)
  primary : Deepens (primary n) (primary n')

variable {n n' : Nat}

/-- Each level of expressions, from the levels below it. -/
theorem deepens_expression (ih : DeepensExpr n n') (l : Level) :
    Deepens (expression (n + 1) l) (expression (n' + 1) l) := by
  have hchained : ∀ l l', Deepens (do chain n l (← expression n l')) (do chain n' l (← expression n' l')) := fun l l' =>
    (ih.expression l').bind fun left => ih.chain l left
  cases l with
  | assignment =>
    refine (ih.expression .or_).bind fun target => .bind (.same (built_acceptSymbol .equal)) fun equals => ?_
    cases equals with
    | none => exact .same (.pure _)
    | some equals =>
      exact (ih.expression .assignment).bind fun value => .same (built_assignment target equals value)
  | ternary =>
    refine (ih.expression .equality).bind fun cond => .bind (.same (built_acceptSymbol .question)) fun question => ?_
    cases question with
    | none => exact .same (.pure _)
    | some _ =>
      refine (ih.expression .assignment).bind fun yes => .bind (.same (built_expect .colon _)) fun _ => ?_
      exact (ih.expression .assignment).map _
  | unary =>
    refine .bind (.same (.acceptAny unaryOperators)) fun op => ?_
    cases op with
    | none => exact ih.expression .call
    | some op => exact (ih.expression .unary).map _
  | call => exact ih.primary.bind fun callee => ih.suffixes callee
  | comma => exact hchained .comma _
  | or_ => exact hchained .or_ _
  | and_ => exact hchained .and_ _
  | equality => exact hchained .equality _
  | comparison => exact hchained .comparison _
  | term => exact hchained .term _
  | factor => exact hchained .factor _

theorem deepens_chain (ih : DeepensExpr n n') (l : Level) (left : Expr) :
    Deepens (chain (n + 1) l left) (chain (n' + 1) l left) := by
  refine .bind (.same (.acceptAny l.operators)) fun op => ?_
  cases op with
  | none => exact .same (.pure _)
  | some op => exact (ih.expression l.tighter).bind fun right => ih.chain l _

theorem deepens_suffixes (ih : DeepensExpr n n') (e : Expr) : Deepens (suffixes (n + 1) e) (suffixes (n' + 1) e) := by
  rw [suffixes, suffixes]
  refine .bind (.same (.acceptAny _)) fun t => ?_
  split
  · exact .same (.pure _)
  · exact .bind (.same (.expectName .property)) fun name => ih.suffixes _
  · exact ih.arguments.bind fun args => .bind (.same (built_expect .rightParen _)) fun paren => ih.suffixes _

theorem deepens_arguments (ih : DeepensExpr n n') : Deepens (arguments (n + 1)) (arguments (n' + 1)) := by
  rw [arguments, arguments]
  refine deepens_ifNext (.same (.pure _)) ?_
  exact (ih.expression .assignment).bind fun first => (ih.moreArguments 1).map _

theorem deepens_moreArguments (ih : DeepensExpr n n') (count : Nat) :
    Deepens (moreArguments (n + 1) count) (moreArguments (n' + 1) count) := by
  rw [moreArguments, moreArguments]
  refine .bind (.same (built_acceptSymbol .comma)) fun comma => ?_
  cases comma with
  | none => exact .same (.pure _)
  | some _ =>
    have hnext := (ih.expression .assignment).bind fun next => (ih.moreArguments (count + 1)).map (next :: ·)
    dsimp only
    split
    · exact .bind (.same (.report .tooManyArguments)) fun _ => hnext
    · exact hnext

/-- A primary expression calls on the levels only behind its first token. -/
theorem deepens_primary (ih : DeepensExpr n n') : Deepens (primary (n + 1)) (primary (n' + 1)) := by
  rw [primary, primary]
  refine .bind (.same .peek) fun t => ?_
  split
  · exact .same (.raise _)
  · split
    all_goals first
      | exact .same (.raise _)
      | refine .bind (.same .skip) fun _ => ?_
    all_goals try first
      | exact .same (.pure _)
      | exact .same (.map .newSlot _)
    · refine .same ((built_expect .dot _).bind fun _ => .bind (.expectName .superMethod) fun method => ?_)
      exact .map .newSlot _
    · exact (ih.expression .comma).bind fun inner => .same (built_closed _)

theorem deepensExpr (h : n ≤ n') : DeepensExpr n n' := by
  induction n generalizing n' with
  | zero =>
    exact ⟨fun _ => .spent _, fun _ _ => .spent _, fun _ => .spent _, .spent _, fun _ => .spent _, .spent _⟩
  | succ n ih =>
    obtain ⟨m, rfl⟩ : ∃ m, n' = m + 1 := ⟨n' - 1, by omega⟩
    have hm := ih (Nat.le_of_succ_le_succ h)
    exact ⟨deepens_expression hm, deepens_chain hm, deepens_suffixes hm, deepens_arguments hm,
      deepens_moreArguments hm, deepens_primary hm⟩

/-! ## Parts of statements -/

theorem deepens_comma (h : n ≤ n') : Deepens (expression n .comma) (expression n' .comma) :=
  (deepensExpr h).expression .comma

theorem deepens_optionalUnless (h : n ≤ n') (terminal : Terminal) :
    Deepens (optionalUnless n terminal) (optionalUnless n' terminal) :=
  deepens_ifNext (.same (.pure none)) ((deepens_comma h).map some)

theorem deepens_variable (h : n ≤ n') : Deepens (variable_ n) (variable_ n') := by
  refine .bind (.same (.expectName .variable_)) fun name => .bind (.same (built_acceptSymbol .equal)) fun equals => ?_
  cases equals with
  | none => exact .same (.bind (.pure none) fun init => built_closed _)
  | some _ => exact (deepens_comma h).bind fun value => .same (.bind (.pure (some value)) fun init => built_closed _)

theorem deepens_expressionStatement (h : n ≤ n') : Deepens (expressionStatement n) (expressionStatement n') :=
  (deepens_comma h).bind fun _ => .same (built_closed _)

theorem deepens_moreParameters (h : n ≤ n') (count : Nat) :
    Deepens (moreParameters n count) (moreParameters n' count) := by
  induction n generalizing n' count with
  | zero => exact .spent _
  | succ n ih =>
    obtain ⟨m, rfl⟩ : ∃ m, n' = m + 1 := ⟨n' - 1, by omega⟩
    rw [moreParameters, moreParameters]
    refine .bind (.same (built_acceptSymbol .comma)) fun comma => ?_
    cases comma with
    | none => exact .same (.pure _)
    | some _ =>
      have hnext := Deepens.bind (.same (.expectName .parameter)) fun next =>
        (ih (Nat.le_of_succ_le_succ h) (count + 1)).map (next :: ·)
      dsimp only
      split
      · exact .bind (.same (.report .tooManyParameters)) fun _ => hnext
      · exact hnext

theorem deepens_parameters (h : n ≤ n') : Deepens (parameters n) (parameters n') := by
  refine deepens_ifNext (.same (.pure _)) (.bind (.same (.expectName .parameter)) fun first => ?_)
  exact (deepens_moreParameters h 1).map _

theorem deepens_forInitializer (h : n ≤ n') : Deepens (forInitializer n) (forInitializer n') := by
  refine .bind (.same (built_acceptSymbol .semicolon)) fun semicolon => ?_
  cases semicolon with
  | some _ => exact .same (.pure _)
  | none =>
    refine .bind (.same (built_acceptKeyword .var)) fun var => ?_
    cases var with
    | some _ => exact (deepens_variable h).map _
    | none => exact (deepens_expressionStatement h).map _

/-! ## Statements and declarations -/

/-- A declaration, which is given up if an error is raised in it. -/
def attempt (n : Nat) : Parse Stmt := do
  match ← acceptAny [.keyword .class_, .keyword .fun_, .keyword .var] with
  | some ⟨.keyword .class_, _⟩ => class_ n
  | some ⟨.keyword .fun_, _⟩ => return .fun_ (← routine n .function)
  | some _ => variable_ n
  | none => statement n

theorem declaration_succ (n : Nat) : declaration (n + 1) = recovering (attempt n) := by
  rw [declaration]
  rfl

structure DeepensStmt (n n' : Nat) : Prop where
  bound : n ≤ n'
  declaration : Deepens (declaration n) (declaration n')
  declarations : Deepens (declarations n) (declarations n')
  block : Deepens (block n) (block n')
  routine : ∀ kind, Deepens (routine n kind) (routine n' kind)
  class_ : Deepens (class_ n) (class_ n')
  methods : Deepens (methods n) (methods n')
  statement : Deepens (statement n) (statement n')
  conditional : Deepens (conditional n) (conditional n')
  while_ : Deepens (while_ n) (while_ n')
  for_ : Deepens (for_ n) (for_ n')

theorem deepens_attempt (ih : DeepensStmt n n') : Deepens (attempt n) (attempt n') := by
  refine .bind (.same (.acceptAny _)) fun t => ?_
  split
  · exact ih.class_
  · exact (ih.routine .function).map _
  · exact deepens_variable ih.bound
  · exact ih.statement

theorem deepens_declaration (ih : DeepensStmt n n') : Deepens (declaration (n + 1)) (declaration (n' + 1)) := by
  rw [declaration_succ, declaration_succ]
  exact .recovering (deepens_attempt ih)

theorem deepens_declarations (ih : DeepensStmt n n') : Deepens (declarations (n + 1)) (declarations (n' + 1)) := by
  rw [declarations, declarations]
  refine .bind (.same built_atClose) fun b => ?_
  cases b with
  | true => exact .same (.pure _)
  | false =>
    refine ih.declaration.bind fun r => ?_
    cases r with
    | some stmt => exact ih.declarations.map _
    | none => exact ih.declarations

theorem deepens_block (ih : DeepensStmt n n') : Deepens (block (n + 1)) (block (n' + 1)) := by
  rw [block, block]
  exact ih.declarations.bind fun body => .same (built_closed body)

theorem deepens_routine (ih : DeepensStmt n n') (kind : RoutineKind) :
    Deepens (routine (n + 1) kind) (routine (n' + 1) kind) := by
  rw [routine, routine]
  refine .bind (.same (.expectName _)) fun name => .bind (.same (built_expect .leftParen _)) fun _ => ?_
  refine (deepens_parameters ih.bound).bind fun params => .bind (.same (built_expect .rightParen _)) fun _ => ?_
  exact .bind (.same (built_expect .leftBrace _)) fun _ => .map (.withLoops _ _ ih.block) _

theorem deepens_class (ih : DeepensStmt n n') : Deepens (class_ (n + 1)) (class_ (n' + 1)) := by
  rw [class_, class_]
  refine .bind (.same (.expectName _)) fun name => .bind (.same built_superclass) fun parent => ?_
  refine .bind (.same (built_expect .leftBrace _)) fun _ => ?_
  exact ih.methods.bind fun members => .same (built_closed _)

theorem deepens_methods (ih : DeepensStmt n n') : Deepens (methods (n + 1)) (methods (n' + 1)) := by
  rw [methods, methods]
  refine .bind (.same built_atClose) fun b => ?_
  cases b with
  | true => exact .same (.pure _)
  | false => exact (ih.routine .method).bind fun first => ih.methods.map _

theorem deepens_statement (ih : DeepensStmt n n') : Deepens (statement (n + 1)) (statement (n' + 1)) := by
  have hjump : ∀ (t : Token) f role (s : Stmt), Built (do
      checkLoop t f
      let _ ← expect .semicolon role
      return s) := fun t f role s => .bind (.checkLoop t f) fun _ => built_closed s
  rw [statement, statement]
  refine .bind (.same (.acceptAny _)) fun t => ?_
  cases t with
  | none => exact deepens_expressionStatement ih.bound
  | some t =>
    dsimp only
    split
    · exact (deepens_comma ih.bound).bind fun _ => .same (built_closed _)
    · exact ih.conditional
    · exact ih.while_
    · exact ih.for_
    · exact (deepens_optionalUnless ih.bound _).bind fun _ => .same (built_closed _)
    · exact .same (hjump t _ _ _)
    · exact .same (hjump t _ _ _)
    · exact ih.block.map _

theorem deepens_conditional (ih : DeepensStmt n n') : Deepens (conditional (n + 1)) (conditional (n' + 1)) := by
  rw [conditional, conditional]
  refine .bind (.same (built_expect .leftParen _)) fun _ => (deepens_comma ih.bound).bind fun test => ?_
  refine .bind (.same (built_expect .rightParen _)) fun _ => ih.statement.bind fun yes => ?_
  refine .bind (.same (built_acceptKeyword .else_)) fun t => ?_
  cases t with
  | none => exact .same (.pure _)
  | some _ => exact ih.statement.map _

theorem deepens_while (ih : DeepensStmt n n') : Deepens (while_ (n + 1)) (while_ (n' + 1)) := by
  rw [while_, while_]
  refine .bind (.same (built_expect .leftParen _)) fun _ => (deepens_comma ih.bound).bind fun test => ?_
  exact .bind (.same (built_expect .rightParen _)) fun _ => .map (.withLoops _ _ ih.statement) _

theorem deepens_for (ih : DeepensStmt n n') : Deepens (for_ (n + 1)) (for_ (n' + 1)) := by
  rw [for_, for_]
  refine .bind (.same (built_expect .leftParen _)) fun _ => (deepens_forInitializer ih.bound).bind fun init => ?_
  refine (deepens_optionalUnless ih.bound _).bind fun test => .bind (.same (built_expect .semicolon _)) fun _ => ?_
  refine (deepens_optionalUnless ih.bound _).bind fun step => .bind (.same (built_expect .rightParen _)) fun _ => ?_
  exact .map (.withLoops _ _ ih.statement) _

theorem deepensStmt (h : n ≤ n') : DeepensStmt n n' := by
  induction n generalizing n' with
  | zero =>
    exact ⟨h, .spent _, .spent _, .spent _, fun _ => .spent _, .spent _, .spent _, .spent _, .spent _,
      .spent _, .spent _⟩
  | succ n ih =>
    obtain ⟨m, rfl⟩ : ∃ m, n' = m + 1 := ⟨n' - 1, by omega⟩
    have hm := ih (Nat.le_of_succ_le_succ h)
    exact ⟨h, deepens_declaration hm, deepens_declarations hm, deepens_block hm, deepens_routine hm, deepens_class hm,
      deepens_methods hm, deepens_statement hm, deepens_conditional hm, deepens_while hm, deepens_for hm⟩

/-- With a larger bound a program is read as with the smaller one, where that one suffices. -/
theorem deepens_program (h : n ≤ n') : Deepens (program n) (program n') := by
  induction n generalizing n' with
  | zero => exact .spent _
  | succ n ih =>
    obtain ⟨m, rfl⟩ : ∃ m, n' = m + 1 := ⟨n' - 1, by omega⟩
    have hle := Nat.le_of_succ_le_succ h
    rw [program, program]
    refine .bind (.same .peek) fun t => ?_
    cases t with
    | none => exact .same (.pure _)
    | some t =>
      refine (deepensStmt hle).declaration.bind fun r => ?_
      cases r with
      | some stmt => exact (ih hle).map _
      | none => exact ih hle

/-! ## Rules as steps -/

structure BuiltStmt (n : Nat) : Prop where
  declaration : Built (declaration n)
  declarations : Built (declarations n)
  block : Built (block n)
  routine : ∀ kind, Built (routine n kind)
  class_ : Built (class_ n)
  methods : Built (methods n)
  statement : Built (statement n)
  conditional : Built (conditional n)
  while_ : Built (while_ n)
  for_ : Built (for_ n)

theorem builtStmt (n : Nat) : BuiltStmt n := by
  have h := deepensStmt (Nat.le_refl n)
  exact ⟨h.declaration.built, h.declarations.built, h.block.built, fun kind => (h.routine kind).built, h.class_.built,
    h.methods.built, h.statement.built, h.conditional.built, h.while_.built, h.for_.built⟩

theorem built_attempt (n : Nat) : Built (attempt n) := (deepens_attempt (deepensStmt (Nat.le_refl n))).built

theorem built_program (n : Nat) : Built (program n) := (deepens_program (Nat.le_refl n)).built

theorem built_comma (n : Nat) : Built (expression n .comma) := (deepens_comma (Nat.le_refl n)).built

theorem built_optionalUnless (n : Nat) (terminal : Terminal) : Built (optionalUnless n terminal) :=
  (deepens_optionalUnless (Nat.le_refl n) terminal).built

theorem built_parameters (n : Nat) : Built (parameters n) := (deepens_parameters (Nat.le_refl n)).built

theorem built_forInitializer (n : Nat) : Built (forInitializer n) := (deepens_forInitializer (Nat.le_refl n)).built

/-! ## What rules leave -/

/-- The state in which reading ends, or is given up. -/
def left : EStateM.Result Halt State α → State
  | .ok _ s => s
  | .error _ s => s

/-- A rule never goes back: what it leaves is a tail of what it found, and the last line stays. -/
theorem Built.onward {p : Parse α} (h : Built p) (s : State) :
    (left (p s)).rest <:+ s.rest ∧ (left (p s)).endLine = s.endLine := by
  induction h generalizing s with
  | checkLoop t f =>
    unfold Grammar.checkLoop
    split <;> exact ⟨List.suffix_refl _, rfl⟩
  | skip => exact ⟨List.tail_suffix _, rfl⟩
  | acceptAny terminals =>
    unfold Grammar.acceptAny
    split
    next t rest hr =>
      split
      · exact ⟨hr ▸ List.suffix_cons t rest, rfl⟩
      · exact ⟨List.suffix_refl _, rfl⟩
    next => exact ⟨List.suffix_refl _, rfl⟩
  | expectName role =>
    unfold Grammar.expectName
    split
    next name line rest hr => exact ⟨hr ▸ List.suffix_cons _ rest, rfl⟩
    next => exact ⟨List.suffix_refl _, rfl⟩
  | @bind _ _ p f _ _ ih ihf =>
    have hs := ih s
    cases hp : p s with
    | ok a s₁ =>
      rw [hp] at hs
      rw [bind_of_ok hp]
      exact ⟨(ihf a s₁).1.trans hs.1, (ihf a s₁).2.trans hs.2⟩
    | error e s₁ =>
      rw [hp] at hs
      rw [bind_of_error hp]
      exact hs
  | @withLoops _ before after p _ ih =>
    have hs := ih { s with loops := before s }
    unfold Grammar.withLoops
    split <;> simp_all [left]
  | @recovering p _ ih =>
    have hs := ih s
    unfold Grammar.recovering
    split
    next hp => rw [hp] at hs; exact hs
    next hp => rw [hp] at hs; exact ⟨(resume_suffix _).trans hs.1, hs.2⟩
    next hp => rw [hp] at hs; exact hs
  | _ => exact ⟨List.suffix_refl _, rfl⟩

/-- An error is raised at the next token, and then nothing else is done. -/
theorem Built.site {p : Parse α} (h : Built p) {s s' : State} {d : Diagnostic} (hp : p s = .error (.raised d) s') :
    ∃ f, d = s'.fault f := by
  induction h generalizing s s' with
  | raise f =>
    cases hp
    exact ⟨f, rfl⟩
  | checkLoop t f =>
    unfold Grammar.checkLoop at hp
    split at hp <;> cases hp
  | acceptAny terminals =>
    unfold Grammar.acceptAny at hp
    split at hp
    · split at hp <;> cases hp
    · cases hp
  | expectName role =>
    unfold Grammar.expectName at hp
    split at hp <;> cases hp
    exact ⟨_, rfl⟩
  | @bind _ _ p f _ _ ih ihf =>
    cases hfirst : p s with
    | ok a s₁ => exact ihf a (bind_of_ok hfirst ▸ hp)
    | error e s₁ =>
      rw [bind_of_error hfirst] at hp
      cases hp
      exact ih hfirst
  | @withLoops _ before after p _ ih =>
    unfold Grammar.withLoops at hp
    split at hp <;> cases hp
    next s₁ hbody =>
      obtain ⟨f, hf⟩ := ih hbody
      exact ⟨f, hf⟩
  | @recovering p _ ih =>
    unfold Grammar.recovering at hp
    split at hp <;> cases hp
  | _ => cases hp

end Lox.Grammar
