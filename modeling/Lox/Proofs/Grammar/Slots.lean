/-
  Lox.Proofs.Grammar.Slots — no slot is given to two references, whatever the errors.

  `Numbers xs p f`: where the slots `xs` have been given so far, all of them below the next
  one, `p` leaves what it gives with the slots `f`, again all different and below the next
  one; and if it raises an error, no slot is taken back. Slots that are thrown away are
  left out of `f`: those of an assignment's target, of what is not a target, and of a
  declaration that is given up. So a program that is read, with errors or without, has
  different slots from the first one on (`parse_ranged`).
-/

import Lox.Proofs.Grammar.Programs
import Lox.Proofs.Scope.Shape

namespace Lox

theorem Ranged.sublist {k k' : Int} {xs ys : List Int} (h : Ranged k k' xs) (hs : ys.Sublist xs) : Ranged k k' ys :=
  ⟨h.1, hs.nodup h.2.1, fun x hx => h.2.2 x (hs.subset hx)⟩

namespace Grammar

variable {α β : Type}

/-- If the slots so far are in order, those of what is read are too, and no slot is given back. -/
def Numbers (xs : List Int) (p : Parse α) (slots : α → List Int) : Prop :=
  ∀ k s, Ranged k s.nextSlot xs →
    match p s with
    | .ok a s' => s.nextSlot ≤ s'.nextSlot ∧ Ranged k s'.nextSlot (slots a)
    | .error _ s' => s.nextSlot ≤ s'.nextSlot

variable {xs : List Int} {n : Nat}

/-! ## Sequences of steps -/

theorem numbers_pure {a : α} {slots : α → List Int} (h : (slots a).Sublist xs) : Numbers xs (pure a) slots :=
  fun _ _ hr => ⟨Int.le_refl _, hr.sublist h⟩

theorem numbers_outOfFuel {slots : α → List Int} : Numbers xs (throw .outOfFuel) slots := fun _ _ _ => Int.le_refl _

theorem numbers_raise {f : SyntaxFault} {slots : α → List Int} : Numbers xs (raise f) slots :=
  fun _ _ _ => Int.le_refl _

/-- The slots of two parts follow one another. -/
theorem Numbers.bind {p : Parse α} {f : α → Parse β} {slots : α → List Int} {slots' : β → List Int}
    (h : Numbers xs p slots) (hf : ∀ a, Numbers (slots a) (f a) slots') : Numbers xs (p >>= f) slots' := by
  intro k s hr
  have hp := h k s hr
  cases hps : p s with
  | error e s₁ =>
    rw [hps] at hp
    rw [bind_of_error hps]
    exact hp
  | ok a s₁ =>
    rw [hps] at hp
    rw [bind_of_ok hps]
    have hq := hf a k s₁ hp.2
    split at hq
    next b s₂ hb => exact ⟨Int.le_trans hp.1 hq.1, hq.2⟩
    next e s₂ hb => exact Int.le_trans hp.1 hq

theorem Numbers.map {p : Parse α} {f : α → β} {slots : α → List Int} {slots' : β → List Int} (h : Numbers xs p slots)
    (hf : ∀ a, (slots' (f a)).Sublist (slots a)) : Numbers xs (do return f (← p)) slots' :=
  h.bind fun a => numbers_pure (hf a)

/-! ## Steps -/

/-- A step that takes no slot. -/
theorem numbers_still {p : Parse α}
    (h : ∀ s, (∃ a s', p s = .ok a s' ∧ s'.nextSlot = s.nextSlot) ∨ ∃ e, p s = .error e s) :
    Numbers xs p fun _ => xs := by
  intro k s hr
  rcases h s with ⟨a, s', hp, hs⟩ | ⟨e, hp⟩
  · rw [hp]
    exact ⟨Int.le_of_eq hs.symm, hs.symm ▸ hr⟩
  · simp [hp]

theorem numbers_newSlot : Numbers xs newSlot fun k => xs ++ [k] :=
  fun _ _ hr => ⟨by show _ ≤ _ + (1 : Int); omega, hr.append ranged_single⟩

theorem numbers_peek : Numbers xs peek fun _ => xs := numbers_still fun _ => Or.inl ⟨_, _, rfl, rfl⟩

theorem numbers_skip : Numbers xs skip fun _ => xs := numbers_still fun _ => Or.inl ⟨_, _, rfl, rfl⟩

theorem numbers_report (f : SyntaxFault) : Numbers xs (report f) fun _ => xs :=
  numbers_still fun _ => Or.inl ⟨_, _, rfl, rfl⟩

theorem numbers_reportAt (t : Token) (f : SyntaxFault) : Numbers xs (reportAt t f) fun _ => xs :=
  numbers_still fun _ => Or.inl ⟨_, _, rfl, rfl⟩

theorem numbers_isNext (terminal : Terminal) : Numbers xs (isNext terminal) fun _ => xs := by
  refine numbers_peek.bind fun t => ?_
  cases t <;> exact numbers_pure (List.Sublist.refl _)

theorem numbers_atClose : Numbers xs atClose fun _ => xs := by
  refine numbers_peek.bind fun t => ?_
  cases t <;> exact numbers_pure (List.Sublist.refl _)

theorem numbers_acceptAny (terminals : List Terminal) : Numbers xs (acceptAny terminals) fun _ => xs := by
  refine numbers_still fun s => Or.inl ?_
  unfold acceptAny
  split
  · split <;> exact ⟨_, _, rfl, rfl⟩
  · exact ⟨_, _, rfl, rfl⟩

theorem numbers_expect (symbol : Symbol) (role : SymbolRole) : Numbers xs (expect symbol role) fun _ => xs := by
  refine (numbers_acceptAny _).bind fun t => ?_
  cases t with
  | none => exact numbers_raise
  | some t => exact numbers_pure (List.Sublist.refl _)

theorem numbers_expectName (role : NameRole) : Numbers xs (expectName role) fun _ => xs := by
  refine numbers_still fun s => ?_
  unfold expectName
  split
  · exact Or.inl ⟨_, _, rfl, rfl⟩
  · exact Or.inr ⟨_, rfl⟩

theorem numbers_checkLoop (t : Token) (f : SyntaxFault) : Numbers xs (checkLoop t f) fun _ => xs := by
  refine numbers_still fun s => Or.inl ?_
  unfold checkLoop
  split <;> exact ⟨_, _, rfl, rfl⟩

/-! ## Expressions -/

/-- The slots of what is read come behind those that have been given. -/
abbrev NumbersExpr (xs : List Int) (p : Parse Expr) : Prop := Numbers xs p fun e => xs ++ e.slots

/-- The slot of a target that is assigned to is thrown away, and so is the value for what
is no target. -/
theorem numbers_assignment (target : Expr) (equals : Token) (value : Expr) :
    Numbers ((xs ++ target.slots) ++ value.slots) (assignment target equals value) fun e => xs ++ e.slots := by
  have hdropped : (xs ++ target.slots).Sublist ((xs ++ target.slots) ++ value.slots) := List.sublist_append_left _ _
  cases target with
  | ref old =>
    refine numbers_newSlot.map fun k => ?_
    simp only [Expr.slots, List.append_assoc]
    exact (List.Sublist.refl xs).append (List.sublist_append_right _ _)
  | get object name =>
    refine numbers_pure ?_
    simp only [Expr.slots, List.append_assoc]
    exact List.Sublist.refl _
  | _ => exact (numbers_reportAt _ _).map fun _ => hdropped

structure ExprNumbers (n : Nat) : Prop where
  expression : ∀ xs l, NumbersExpr xs (expression n l)
  chain : ∀ xs l left, Numbers (xs ++ left.slots) (chain n l left) fun e => xs ++ e.slots
  suffixes : ∀ xs e, Numbers (xs ++ e.slots) (suffixes n e) fun e' => xs ++ e'.slots
  arguments : ∀ xs, Numbers xs (arguments n) fun es => xs ++ Expr.slotsAll es
  moreArguments : ∀ xs count, Numbers xs (moreArguments n count) fun es => xs ++ Expr.slotsAll es
  primary : ∀ xs, NumbersExpr xs (primary n)

theorem sublist_nil : (xs ++ []).Sublist xs := by simp

/-- Two parts, one behind the other. -/
theorem sublist_assoc (xs ys zs : List Int) : (xs ++ (ys ++ zs)).Sublist ((xs ++ ys) ++ zs) := by simp

/-- The slots of an expression are new and in order, operand by operand. -/
theorem numbers_expression (ih : ExprNumbers n) (l : Level) : NumbersExpr xs (expression (n + 1) l) := by
  have hchained (l l' : Level) : NumbersExpr xs (do chain n l (← expression n l')) :=
    (ih.expression xs l').bind fun left => ih.chain xs l left
  cases l with
  | assignment =>
    refine (ih.expression xs .or_).bind fun target => (numbers_acceptAny _).bind fun equals => ?_
    cases equals with
    | none => exact numbers_pure (List.Sublist.refl _)
    | some equals => exact (ih.expression _ .assignment).bind fun value => numbers_assignment target equals value
  | ternary =>
    refine (ih.expression xs .equality).bind fun cond => (numbers_acceptAny _).bind fun question => ?_
    cases question with
    | none => exact numbers_pure (List.Sublist.refl _)
    | some _ =>
      refine (ih.expression _ .assignment).bind fun yes => (numbers_expect _ _).bind fun _ => ?_
      refine (ih.expression _ .assignment).map fun no => ?_
      simp only [Expr.slots, List.append_assoc]
      exact List.Sublist.refl _
  | unary =>
    refine (numbers_acceptAny unaryOperators).bind fun op => ?_
    cases op with
    | none => exact ih.expression xs .call
    | some op => exact (ih.expression xs .unary).map fun operand => List.Sublist.refl _
  | call => exact (ih.primary xs).bind fun callee => ih.suffixes xs callee
  | comma => exact hchained .comma _
  | or_ => exact hchained .or_ _
  | and_ => exact hchained .and_ _
  | equality => exact hchained .equality _
  | comparison => exact hchained .comparison _
  | term => exact hchained .term _
  | factor => exact hchained .factor _

theorem numbers_chain (ih : ExprNumbers n) (l : Level) (left : Expr) :
    Numbers (xs ++ left.slots) (chain (n + 1) l left) fun e => xs ++ e.slots := by
  refine (numbers_acceptAny l.operators).bind fun op => ?_
  cases op with
  | none => exact numbers_pure (List.Sublist.refl _)
  | some op =>
    refine (ih.expression _ l.tighter).bind fun right => ?_
    have hnext := ih.chain xs l (l.join left op.lexeme right)
    rw [slots_join, ← List.append_assoc] at hnext
    exact hnext

theorem numbers_suffixes (ih : ExprNumbers n) (e : Expr) :
    Numbers (xs ++ e.slots) (suffixes (n + 1) e) fun e' => xs ++ e'.slots := by
  refine (numbers_acceptAny _).bind fun t => ?_
  have hcall : Numbers (xs ++ e.slots)
      (do
        let args ← arguments n
        let paren ← expect .rightParen .afterArguments
        suffixes n (.call e paren.lexeme args)) fun e' => xs ++ e'.slots := by
    refine (ih.arguments _).bind fun args => (numbers_expect _ _).bind fun paren => ?_
    rw [List.append_assoc]
    exact ih.suffixes xs (.call e paren.lexeme args)
  cases t with
  | none => exact numbers_pure (List.Sublist.refl _)
  | some t =>
    obtain ⟨terminal, line⟩ := t
    cases terminal with
    | symbol symbol =>
      cases symbol with
      | dot => exact (numbers_expectName .property).bind fun name => ih.suffixes xs (.get e name)
      | _ => exact hcall
    | _ => exact hcall

theorem numbers_arguments (ih : ExprNumbers n) : Numbers xs (arguments (n + 1)) fun es => xs ++ Expr.slotsAll es := by
  refine (numbers_isNext _).bind fun b => ?_
  cases b with
  | true => exact numbers_pure sublist_nil
  | false =>
    exact (ih.expression xs .assignment).bind fun first => (ih.moreArguments _ 1).map fun more => sublist_assoc _ _ _

theorem numbers_moreArguments (ih : ExprNumbers n) (count : Nat) :
    Numbers xs (moreArguments (n + 1) count) fun es => xs ++ Expr.slotsAll es := by
  refine (numbers_acceptAny _).bind fun comma => ?_
  cases comma with
  | none => exact numbers_pure sublist_nil
  | some _ =>
    have hnext : Numbers xs
        (do
          let next ← expression n .assignment
          return next :: (← moreArguments n (count + 1))) fun es => xs ++ Expr.slotsAll es :=
      (ih.expression xs .assignment).bind fun next => (ih.moreArguments _ (count + 1)).map fun more =>
        sublist_assoc _ _ _
    by_cases h : mostArguments ≤ count
    · simp only [h, if_true]
      exact (numbers_report .tooManyArguments).bind fun _ => hnext
    · simp only [h, if_false]
      exact hnext

/-- A name takes one slot, and so do `this` and `super`. -/
theorem numbers_primary (ih : ExprNumbers n) : NumbersExpr xs (primary (n + 1)) := by
  refine numbers_peek.bind fun t => ?_
  have hliteral (value : Literal) : NumbersExpr xs (do skip; return .literal value) :=
    numbers_skip.map fun _ => sublist_nil
  cases t with
  | none => exact numbers_raise
  | some t =>
    obtain ⟨terminal, line⟩ := t
    cases terminal with
    | number literal => exact hliteral (.number (Number.read literal))
    | string text => exact hliteral (.string text)
    | ident name => exact numbers_skip.bind fun _ => numbers_newSlot.map fun _ => List.Sublist.refl _
    | keyword k =>
      cases k with
      | false_ => exact hliteral (.bool false)
      | true_ => exact hliteral (.bool true)
      | nil => exact hliteral .nil
      | this => exact numbers_skip.bind fun _ => numbers_newSlot.map fun _ => List.Sublist.refl _
      | super =>
        refine numbers_skip.bind fun _ => (numbers_expect _ _).bind fun _ => (numbers_expectName _).bind fun method =>
          ?_
        exact numbers_newSlot.map fun _ => List.Sublist.refl _
      | _ => exact numbers_raise
    | symbol s =>
      cases s with
      | leftParen =>
        refine numbers_skip.bind fun _ => (ih.expression xs .comma).bind fun inner => ?_
        exact (numbers_expect _ _).map fun _ => List.Sublist.refl _
      | _ => exact numbers_raise

theorem exprNumbers (n : Nat) : ExprNumbers n := by
  induction n with
  | zero =>
    exact ⟨fun _ _ => numbers_outOfFuel, fun _ _ _ => numbers_outOfFuel, fun _ _ => numbers_outOfFuel,
      fun _ => numbers_outOfFuel, fun _ _ => numbers_outOfFuel, fun _ => numbers_outOfFuel⟩
  | succ n ih =>
    exact ⟨fun _ => numbers_expression ih, fun _ => numbers_chain ih, fun _ => numbers_suffixes ih,
      fun _ => numbers_arguments ih, fun _ => numbers_moreArguments ih, fun _ => numbers_primary ih⟩

theorem numbers_comma (n : Nat) : NumbersExpr xs (expression n .comma) := (exprNumbers n).expression xs .comma

/-! ## Simple statements -/

abbrev NumbersStmt (xs : List Int) (p : Parse Stmt) : Prop := Numbers xs p fun s => xs ++ s.slots

abbrev NumbersAll (xs : List Int) (p : Parse (List Stmt)) : Prop := Numbers xs p fun ss => xs ++ Stmt.slotsAll ss

theorem numbers_optionalUnless (n : Nat) (terminal : Terminal) :
    Numbers xs (optionalUnless n terminal) fun e => xs ++ Expr.slotsOpt e := by
  refine (numbers_isNext terminal).bind fun b => ?_
  cases b with
  | true => exact numbers_pure sublist_nil
  | false => exact (numbers_comma n).map fun _ => List.Sublist.refl _

theorem numbers_variable (n : Nat) : NumbersStmt xs (variable_ n) := by
  refine (numbers_expectName .variable_).bind fun name => (numbers_acceptAny _).bind fun equals => ?_
  cases equals with
  | none => exact (numbers_expect _ _).map fun _ => sublist_nil
  | some _ => exact (numbers_comma n).bind fun _ => (numbers_expect _ _).map fun _ => List.Sublist.refl _

theorem numbers_printed (n : Nat) : NumbersStmt xs (printed n) :=
  (numbers_comma n).bind fun _ => (numbers_expect _ _).map fun _ => List.Sublist.refl _

theorem numbers_expressionStatement (n : Nat) : NumbersStmt xs (expressionStatement n) :=
  (numbers_comma n).bind fun _ => (numbers_expect _ _).map fun _ => List.Sublist.refl _

theorem numbers_returned (n : Nat) (keyword : Token) : NumbersStmt xs (returned n keyword) :=
  (numbers_optionalUnless n _).bind fun _ => (numbers_expect _ _).map fun _ => List.Sublist.refl _

theorem numbers_broken (keyword : Token) : NumbersStmt xs (broken keyword) :=
  (numbers_checkLoop keyword _).bind fun _ => (numbers_expect _ _).map fun _ => sublist_nil

theorem numbers_continued (keyword : Token) : NumbersStmt xs (continued keyword) :=
  (numbers_checkLoop keyword _).bind fun _ => (numbers_expect _ _).map fun _ => sublist_nil

/-- Parameters take no slot. -/
theorem numbers_moreParameters (n count : Nat) : Numbers xs (moreParameters n count) fun _ => xs := by
  induction n generalizing count with
  | zero => exact numbers_outOfFuel
  | succ n ih =>
    refine (numbers_acceptAny _).bind fun comma => ?_
    cases comma with
    | none => exact numbers_pure (List.Sublist.refl _)
    | some _ =>
      have hnext : Numbers xs
          (do
            let next ← expectName .parameter
            return next :: (← moreParameters n (count + 1))) fun _ => xs :=
        (numbers_expectName .parameter).bind fun _ => (ih (count + 1)).map fun _ => List.Sublist.refl _
      by_cases h : mostArguments ≤ count
      · simp only [h, if_true]
        exact (numbers_report .tooManyParameters).bind fun _ => hnext
      · simp only [h, if_false]
        exact hnext

theorem numbers_parameters (n : Nat) : Numbers xs (parameters n) fun _ => xs := by
  refine (numbers_isNext _).bind fun b => ?_
  cases b with
  | true => exact numbers_pure (List.Sublist.refl _)
  | false =>
    exact (numbers_expectName .parameter).bind fun _ => (numbers_moreParameters n 1).map fun _ => List.Sublist.refl _

theorem numbers_superclass : Numbers xs superclass fun parent => xs ++ parent.elim [] fun r => [r.slot] := by
  refine (numbers_acceptAny _).bind fun less => ?_
  cases less with
  | none => exact numbers_pure sublist_nil
  | some _ => exact (numbers_expectName .superclass).bind fun _ => numbers_newSlot.map fun _ => List.Sublist.refl _

theorem numbers_forInitializer (n : Nat) : Numbers xs (forInitializer n) fun init => xs ++ Stmt.slotsOpt init := by
  refine (numbers_acceptAny _).bind fun semicolon => ?_
  cases semicolon with
  | some _ => exact numbers_pure sublist_nil
  | none =>
    refine (numbers_acceptAny _).bind fun keyword => ?_
    cases keyword with
    | some _ => exact (numbers_variable n).map fun _ => List.Sublist.refl _
    | none => exact (numbers_expressionStatement n).map fun _ => List.Sublist.refl _

/-! ## Loops and recovery -/

theorem numbers_withLoops {before : State → Nat} {after : State → State → Nat} {p : Parse α} {slots : α → List Int}
    (h : Numbers xs p slots) : Numbers xs (withLoops before after p) slots := by
  intro k s hr
  have hp := h k { s with loops := before s } hr
  unfold withLoops
  cases hps : p { s with loops := before s } with
  | ok a s' =>
    rw [hps] at hp
    exact hp
  | error e s' =>
    rw [hps] at hp
    exact hp

/-- What is given up leaves no reference behind. -/
theorem numbers_recovering {p : Parse Stmt} (h : NumbersStmt xs p) :
    Numbers xs (recovering p) fun s => xs ++ Stmt.slotsOpt s := by
  intro k s hr
  have hp := h k s hr
  unfold recovering
  cases hps : p s with
  | ok stmt s' =>
    rw [hps] at hp
    exact hp
  | error e s' =>
    rw [hps] at hp
    cases e with
    | outOfFuel => exact hp
    | raised error => exact ⟨hp, (hr.mono hp).sublist sublist_nil⟩

/-! ## Statements -/

structure StmtNumbers (n : Nat) : Prop where
  declaration : ∀ xs, Numbers xs (declaration n) fun s => xs ++ Stmt.slotsOpt s
  declarations : ∀ xs, NumbersAll xs (declarations n)
  block : ∀ xs, NumbersAll xs (block n)
  routine : ∀ xs kind, Numbers xs (routine n kind) fun r => xs ++ Stmt.routineSlots r
  class_ : ∀ xs, NumbersStmt xs (class_ n)
  methods : ∀ xs, Numbers xs (methods n) fun rs => xs ++ Stmt.methodSlots rs
  statement : ∀ xs, NumbersStmt xs (statement n)
  conditional : ∀ xs, NumbersStmt xs (conditional n)
  while_ : ∀ xs, NumbersStmt xs (while_ n)
  for_ : ∀ xs, NumbersStmt xs (for_ n)

theorem numbers_declaration (ih : StmtNumbers n) : Numbers xs (declaration (n + 1)) fun s => xs ++ Stmt.slotsOpt s := by
  refine numbers_recovering ((numbers_acceptAny _).bind fun t => ?_)
  cases t with
  | none => exact ih.statement xs
  | some t =>
    obtain ⟨terminal, line⟩ := t
    cases terminal with
    | keyword k =>
      cases k with
      | class_ => exact ih.class_ xs
      | fun_ => exact (ih.routine xs .function).map fun _ => List.Sublist.refl _
      | _ => exact numbers_variable n
    | _ => exact numbers_variable n

/-- A list of declarations, one behind the other. -/
theorem numbers_listed {p : Parse (List Stmt)} (hd : Numbers xs (declaration n) fun s => xs ++ Stmt.slotsOpt s)
    (h : ∀ xs, NumbersAll xs p) :
    NumbersAll xs
      (do
        match ← declaration n with
        | some stmt => return stmt :: (← p)
        | none => p) := by
  refine hd.bind fun stmt => ?_
  cases stmt with
  | some stmt => exact (h _).map fun _ => sublist_assoc _ _ _
  | none =>
    show Numbers (xs ++ []) p _
    rw [List.append_nil]
    exact h xs

theorem numbers_declarations (ih : StmtNumbers n) : NumbersAll xs (declarations (n + 1)) := by
  refine numbers_atClose.bind fun b => ?_
  cases b with
  | true => exact numbers_pure sublist_nil
  | false => exact numbers_listed (ih.declaration xs) ih.declarations

theorem numbers_block (ih : StmtNumbers n) : NumbersAll xs (block (n + 1)) :=
  (ih.declarations xs).bind fun _ => (numbers_expect _ _).map fun _ => List.Sublist.refl _

theorem numbers_routine (ih : StmtNumbers n) (kind : RoutineKind) :
    Numbers xs (routine (n + 1) kind) fun r => xs ++ Stmt.routineSlots r := by
  refine (numbers_expectName _).bind fun name => (numbers_expect _ _).bind fun _ => ?_
  refine (numbers_parameters n).bind fun params => (numbers_expect _ _).bind fun _ => ?_
  exact (numbers_expect _ _).bind fun _ => (numbers_withLoops (ih.block xs)).map fun _ => List.Sublist.refl _

theorem numbers_class (ih : StmtNumbers n) : NumbersStmt xs (class_ (n + 1)) := by
  refine (numbers_expectName .class_).bind fun name => numbers_superclass.bind fun parent => ?_
  refine (numbers_expect _ _).bind fun _ => (ih.methods _).bind fun members => ?_
  exact (numbers_expect _ _).map fun _ => sublist_assoc _ _ _

theorem numbers_methods (ih : StmtNumbers n) : Numbers xs (methods (n + 1)) fun rs => xs ++ Stmt.methodSlots rs := by
  refine numbers_atClose.bind fun b => ?_
  cases b with
  | true => exact numbers_pure sublist_nil
  | false => exact (ih.routine xs .method).bind fun first => (ih.methods _).map fun _ => sublist_assoc _ _ _

/-- The slots of a statement, clause by clause. -/
theorem numbers_statement (ih : StmtNumbers n) : NumbersStmt xs (statement (n + 1)) := by
  refine (numbers_acceptAny statementStarts).bind fun t => ?_
  have hblock : NumbersStmt xs (do return .block (← block n)) := (ih.block xs).map fun _ => List.Sublist.refl _
  cases t with
  | none => exact numbers_expressionStatement n
  | some t =>
    obtain ⟨terminal, line⟩ := t
    cases terminal with
    | keyword k =>
      cases k with
      | print => exact numbers_printed n
      | if_ => exact ih.conditional xs
      | while_ => exact ih.while_ xs
      | for_ => exact ih.for_ xs
      | return_ => exact numbers_returned n _
      | break_ => exact numbers_broken _
      | continue_ => exact numbers_continued _
      | _ => exact hblock
    | _ => exact hblock

theorem numbers_conditional (ih : StmtNumbers n) : NumbersStmt xs (conditional (n + 1)) := by
  refine (numbers_expect _ _).bind fun _ => (numbers_comma n).bind fun test => ?_
  refine (numbers_expect _ _).bind fun _ => (ih.statement _).bind fun yes => ?_
  refine (numbers_acceptAny _).bind fun other => ?_
  cases other with
  | none =>
    refine numbers_pure ?_
    simp only [Stmt.slots, Stmt.slotsOpt, List.append_nil, List.append_assoc]
    exact List.Sublist.refl _
  | some _ =>
    refine (ih.statement _).map fun no => ?_
    simp only [Stmt.slots, Stmt.slotsOpt, List.append_assoc]
    exact List.Sublist.refl _

theorem numbers_while (ih : StmtNumbers n) : NumbersStmt xs (while_ (n + 1)) := by
  refine (numbers_expect _ _).bind fun _ => (numbers_comma n).bind fun test => ?_
  refine (numbers_expect _ _).bind fun _ => (numbers_withLoops (ih.statement _)).map fun body => ?_
  simp only [Stmt.slots, Expr.slotsOpt, Option.elim_none, List.append_nil, List.append_assoc]
  exact List.Sublist.refl _

/-- The step of a `for` loop is read before the body, and stands behind it in the tree. -/
theorem numbers_for (ih : StmtNumbers n) : NumbersStmt xs (for_ (n + 1)) := by
  refine (numbers_expect _ _).bind fun _ => (numbers_forInitializer n).bind fun init => ?_
  refine (numbers_optionalUnless n _).bind fun test => (numbers_expect _ _).bind fun _ => ?_
  refine (numbers_optionalUnless n _).bind fun step => (numbers_expect _ _).bind fun _ => ?_
  refine (numbers_withLoops (ih.statement _)).bind fun body k s hr => ⟨Int.le_refl _, hr.perm ?_⟩
  simp only [List.append_assoc]
  exact List.Perm.append_left _ (slots_forLoop init test step body)

theorem stmtNumbers (n : Nat) : StmtNumbers n := by
  induction n with
  | zero =>
    exact ⟨fun _ => numbers_outOfFuel, fun _ => numbers_outOfFuel, fun _ => numbers_outOfFuel,
      fun _ _ => numbers_outOfFuel, fun _ => numbers_outOfFuel, fun _ => numbers_outOfFuel, fun _ => numbers_outOfFuel,
      fun _ => numbers_outOfFuel, fun _ => numbers_outOfFuel, fun _ => numbers_outOfFuel⟩
  | succ n ih =>
    exact ⟨fun _ => numbers_declaration ih, fun _ => numbers_declarations ih, fun _ => numbers_block ih,
      fun _ => numbers_routine ih, fun _ => numbers_class ih, fun _ => numbers_methods ih, fun _ =>
        numbers_statement ih,
      fun _ => numbers_conditional ih, fun _ => numbers_while ih, fun _ => numbers_for ih⟩

/-! ## Token lists -/

theorem numbers_program (n : Nat) : ∀ xs, NumbersAll xs (program n) := by
  induction n with
  | zero => exact fun _ => numbers_outOfFuel
  | succ n ih =>
    intro xs
    refine numbers_peek.bind fun t => ?_
    cases t with
    | none => exact numbers_pure sublist_nil
    | some _ => exact numbers_listed ((stmtNumbers n).declaration xs) ih

end Grammar

open Grammar

theorem parse_ranged (tokens : Tokens) (k : Int) :
    Ranged k (parse tokens k).nextSlot (Stmt.slotsAll (parse tokens k).program) := by
  have hstart : Ranged k (start tokens k).nextSlot [] := ranged_nil (Int.le_refl k)
  have hread := numbers_program (fuel tokens) [] k (start tokens k) hstart
  unfold parse
  split
  next ss s hs =>
    rw [hs] at hread
    exact hread.2
  next e s he =>
    rw [he] at hread
    exact ranged_nil hread

end Lox
