/-
  Lox.Proofs.Grammar.Shifted — reading takes no notice of lines and of the slot it starts
  with: from the same tokens on other lines and from another slot it gives the same tree,
  shifted, and the same errors at the lines that their tokens have then (`parse_shift`).

  `Shifts g φ p p'`: from a shifted state, `p'` does what `p` does from the state, and gives
  what `p` gives, changed by `φ`. It holds of the steps and is kept by doing one thing
  after the other (`Shifts.bind`), so it holds of the rules, by induction on the bound on
  their nesting, whether they give a tree, report an error or raise one.
-/

import Lox.Proofs.Grammar.Programs
import Lox.Proofs.Tree.Shift

namespace Lox

namespace Grammar

variable {α β γ δ : Type}

def State.shift (g : Shift) (s : State) : State where
  rest := s.rest.map g.token
  endLine := g.line s.endLine
  nextSlot := s.nextSlot + g.slots
  loops := s.loops
  errors := s.errors.map g.diagnostic

def Halt.shift (g : Shift) : Halt → Halt
  | .raised error => .raised (g.diagnostic error)
  | .outOfFuel => .outOfFuel

def shiftResult (g : Shift) (φ : α → β) : EStateM.Result Halt State α → EStateM.Result Halt State β
  | .ok a s => .ok (φ a) (s.shift g)
  | .error e s => .error (e.shift g) (s.shift g)

/-- From a shifted state, the shifted result. -/
def Shifts (g : Shift) (φ : α → β) (p : Parse α) (p' : Parse β) : Prop :=
  ∀ s, p' (s.shift g) = shiftResult g φ (p s)

variable {g : Shift}

/-! ## Sequences of steps -/

theorem shifts_pure {φ : α → β} {a : α} : Shifts g φ (pure a) (pure (φ a)) := fun _ => rfl

theorem shifts_outOfFuel {φ : α → β} : Shifts g φ (throw .outOfFuel) (throw .outOfFuel) := fun _ => rfl

theorem Shifts.bind {φ : α → β} {ψ : γ → δ} {p : Parse α} {p' : Parse β} {f : α → Parse γ} {f' : β → Parse δ}
    (h : Shifts g φ p p') (hf : ∀ a, Shifts g ψ (f a) (f' (φ a))) : Shifts g ψ (p >>= f) (p' >>= f') := by
  intro s
  have hs := h s
  cases hp : p s with
  | ok a s₁ =>
    rw [hp] at hs
    rw [bind_of_ok hp, bind_of_ok hs]
    exact hf a s₁
  | error e s₁ =>
    rw [hp] at hs
    rw [bind_of_error hp, bind_of_error hs]
    rfl

/-- Two steps that are followed by the same. -/
theorem Shifts.map {φ : α → β} {ψ : γ → δ} {p : Parse α} {p' : Parse β} {f : α → γ} {f' : β → δ}
    (h : Shifts g φ p p') (hf : ∀ a, f' (φ a) = ψ (f a)) :
    Shifts g ψ (do return f (← p)) (do return f' (← p')) :=
  h.bind fun a => hf a ▸ shifts_pure

/-! ## Errors and tokens -/

theorem State.shift_fault (s : State) (f : SyntaxFault) : (s.shift g).fault f = g.diagnostic (s.fault f) := by
  obtain ⟨rest, endLine, nextSlot, loops, errors⟩ := s
  cases rest <;> rfl

theorem State.shift_report (s : State) (error : Diagnostic) :
    (s.report error).shift g = (s.shift g).report (g.diagnostic error) := by
  simp [State.shift, State.report]

theorem shifts_raise {φ : α → β} (f : SyntaxFault) : Shifts g φ (raise f) (raise f) := by
  intro s
  show EStateM.Result.error (Halt.raised ((s.shift g).fault f)) (s.shift g) = _
  rw [State.shift_fault]
  rfl

theorem shifts_report (f : SyntaxFault) : Shifts g id (report f) (report f) := by
  intro s
  show EStateM.Result.ok () ((s.shift g).report ((s.shift g).fault f)) = _
  rw [State.shift_fault, ← State.shift_report]
  rfl

theorem shifts_reportAt (t : Token) (f : SyntaxFault) : Shifts g id (reportAt t f) (reportAt (g.token t) f) := by
  intro s
  show EStateM.Result.ok () ((s.shift g).report (g.diagnostic (fault t f))) = _
  rw [← State.shift_report]
  rfl

theorem shifts_peek : Shifts g (Option.map g.token) peek peek := by
  intro s
  show EStateM.Result.ok (s.rest.map g.token).head? (s.shift g) = _
  rw [List.head?_map]
  rfl

theorem shifts_skip : Shifts g id skip skip := by
  intro s
  show EStateM.Result.ok () { s.shift g with rest := (s.rest.map g.token).tail } = _
  rw [← List.map_tail]
  rfl

theorem shifts_isNext (terminal : Terminal) : Shifts g id (isNext terminal) (isNext terminal) := by
  refine shifts_peek.bind fun t => ?_
  cases t <;> exact shifts_pure

theorem shifts_atClose : Shifts g id atClose atClose := by
  refine shifts_peek.bind fun t => ?_
  cases t <;> exact shifts_pure

theorem shifts_acceptAny (terminals : List Terminal) :
    Shifts g (Option.map g.token) (acceptAny terminals) (acceptAny terminals) := by
  intro s
  obtain ⟨rest, endLine, nextSlot, loops, errors⟩ := s
  cases rest with
  | nil => rfl
  | cons t rest =>
    by_cases h : t.terminal ∈ terminals
    · simp [acceptAny, State.shift, Shift.token, shiftResult, h]
    · simp [acceptAny, State.shift, Shift.token, shiftResult, h]

theorem shifts_acceptSymbol (symbol : Symbol) :
    Shifts g (Option.map g.token) (acceptSymbol symbol) (acceptSymbol symbol) :=
  shifts_acceptAny _

theorem shifts_acceptKeyword (keyword : Keyword) :
    Shifts g (Option.map g.token) (acceptKeyword keyword) (acceptKeyword keyword) :=
  shifts_acceptAny _

theorem shifts_expect (symbol : Symbol) (role : SymbolRole) :
    Shifts g g.token (expect symbol role) (expect symbol role) := by
  refine (shifts_acceptSymbol symbol).bind fun t => ?_
  cases t with
  | none => exact shifts_raise _
  | some t => exact shifts_pure

theorem shifts_expectName (role : NameRole) : Shifts g g.lexeme (expectName role) (expectName role) := by
  intro s
  obtain ⟨rest, endLine, nextSlot, loops, errors⟩ := s
  cases rest with
  | nil => rfl
  | cons t rest =>
    obtain ⟨terminal, line⟩ := t
    cases terminal <;> rfl

theorem shifts_newSlot : Shifts g (· + g.slots) newSlot newSlot := by
  intro s
  show EStateM.Result.ok (s.nextSlot + g.slots) { s.shift g with nextSlot := s.nextSlot + g.slots + 1 } = _
  rw [Int.add_right_comm]
  rfl

/-! ## Expressions -/

theorem shifts_assignment (target : Expr) (equals : Token) (value : Expr) :
    Shifts g g.expr (assignment target equals value) (assignment (g.expr target) (g.token equals) (g.expr value)) := by
  cases target with
  | ref old => exact shifts_newSlot.map fun _ => rfl
  | get object name => exact shifts_pure
  | _ => exact (shifts_reportAt equals .invalidTarget).map fun _ => rfl

theorem shift_join (l : Level) (left : Expr) (op : Token) (right : Expr) :
    l.join (g.expr left) (g.token op).lexeme (g.expr right) = g.expr (l.join left op.lexeme right) := by
  cases l <;> rfl

/-- The rules for expressions, with a bound on their nesting. -/
structure ExprShifts (g : Shift) (n : Nat) : Prop where
  expression : ∀ l, Shifts g g.expr (expression n l) (expression n l)
  chain : ∀ l left, Shifts g g.expr (chain n l left) (chain n l (g.expr left))
  suffixes : ∀ e, Shifts g g.expr (suffixes n e) (suffixes n (g.expr e))
  arguments : Shifts g g.exprs (arguments n) (arguments n)
  moreArguments : ∀ count, Shifts g g.exprs (moreArguments n count) (moreArguments n count)
  primary : Shifts g g.expr (primary n) (primary n)

variable {n : Nat}

theorem shifts_chained (ih : ExprShifts g n) (l l' : Level) :
    Shifts g g.expr (do chain n l (← expression n l')) (do chain n l (← expression n l')) :=
  (ih.expression l').bind fun left => ih.chain l left

theorem shifts_expression (ih : ExprShifts g n) (l : Level) :
    Shifts g g.expr (expression (n + 1) l) (expression (n + 1) l) := by
  cases l with
  | assignment =>
    refine (ih.expression .or_).bind fun target => (shifts_acceptSymbol .equal).bind fun equals => ?_
    cases equals with
    | none => exact shifts_pure
    | some equals => exact (ih.expression .assignment).bind fun value => shifts_assignment target equals value
  | ternary =>
    refine (ih.expression .equality).bind fun cond => (shifts_acceptSymbol .question).bind fun question => ?_
    cases question with
    | none => exact shifts_pure
    | some _ =>
      refine (ih.expression .assignment).bind fun yes => (shifts_expect .colon _).bind fun _ => ?_
      exact (ih.expression .assignment).map fun no => rfl
  | unary =>
    refine (shifts_acceptAny unaryOperators).bind fun op => ?_
    cases op with
    | none => exact ih.expression .call
    | some op => exact (ih.expression .unary).map fun operand => rfl
  | call => exact ih.primary.bind fun callee => ih.suffixes callee
  | comma => exact shifts_chained ih .comma _
  | or_ => exact shifts_chained ih .or_ _
  | and_ => exact shifts_chained ih .and_ _
  | equality => exact shifts_chained ih .equality _
  | comparison => exact shifts_chained ih .comparison _
  | term => exact shifts_chained ih .term _
  | factor => exact shifts_chained ih .factor _

theorem shifts_chain (ih : ExprShifts g n) (l : Level) (left : Expr) :
    Shifts g g.expr (chain (n + 1) l left) (chain (n + 1) l (g.expr left)) := by
  refine (shifts_acceptAny l.operators).bind fun op => ?_
  cases op with
  | none => exact shifts_pure
  | some op =>
    refine (ih.expression l.tighter).bind fun right => ?_
    exact shift_join l left op right ▸ ih.chain l (l.join left op.lexeme right)

/-- Calls and properties, behind an expression that is shifted. -/
theorem shifts_suffixes (ih : ExprShifts g n) (e : Expr) :
    Shifts g g.expr (suffixes (n + 1) e) (suffixes (n + 1) (g.expr e)) := by
  refine (shifts_acceptAny _).bind fun t => ?_
  have hcall : Shifts g g.expr
      (do
        let args ← arguments n
        let paren ← expect .rightParen .afterArguments
        suffixes n (.call e paren.lexeme args))
      (do
        let args ← arguments n
        let paren ← expect .rightParen .afterArguments
        suffixes n (.call (g.expr e) paren.lexeme args)) :=
    ih.arguments.bind fun args => (shifts_expect .rightParen _).bind fun paren =>
      ih.suffixes (.call e paren.lexeme args)
  cases t with
  | none => exact shifts_pure
  | some t =>
    obtain ⟨terminal, line⟩ := t
    cases terminal with
    | symbol symbol =>
      cases symbol with
      | dot => exact (shifts_expectName .property).bind fun name => ih.suffixes (.get e name)
      | _ => exact hcall
    | _ => exact hcall

theorem shifts_arguments (ih : ExprShifts g n) : Shifts g g.exprs (arguments (n + 1)) (arguments (n + 1)) := by
  refine (shifts_isNext _).bind fun b => ?_
  cases b with
  | true => exact shifts_pure
  | false => exact (ih.expression .assignment).bind fun first => (ih.moreArguments 1).map fun more => rfl

theorem shifts_moreArguments (ih : ExprShifts g n) (count : Nat) :
    Shifts g g.exprs (moreArguments (n + 1) count) (moreArguments (n + 1) count) := by
  refine (shifts_acceptSymbol .comma).bind fun comma => ?_
  cases comma with
  | none => exact shifts_pure
  | some _ =>
    have hnext : Shifts g g.exprs
        (do
          let next ← expression n .assignment
          return next :: (← moreArguments n (count + 1)))
        (do
          let next ← expression n .assignment
          return next :: (← moreArguments n (count + 1))) :=
      (ih.expression .assignment).bind fun next => (ih.moreArguments (count + 1)).map fun more => rfl
    by_cases h : mostArguments ≤ count
    · simp only [h, if_true]
      exact (shifts_report .tooManyArguments).bind fun _ => hnext
    · simp only [h, if_false]
      exact hnext

/-- A primary expression; a reference takes the next slot, which is shifted too. -/
theorem shifts_primary (ih : ExprShifts g n) : Shifts g g.expr (primary (n + 1)) (primary (n + 1)) := by
  refine shifts_peek.bind fun t => ?_
  cases t with
  | none => exact shifts_raise _
  | some t =>
    obtain ⟨terminal, line⟩ := t
    cases terminal with
    | number literal => exact shifts_skip.map fun _ => rfl
    | string text => exact shifts_skip.map fun _ => rfl
    | ident name => exact shifts_skip.bind fun _ => shifts_newSlot.map fun _ => rfl
    | keyword k =>
      cases k with
      | false_ | true_ | nil => exact shifts_skip.map fun _ => rfl
      | this => exact shifts_skip.bind fun _ => shifts_newSlot.map fun _ => rfl
      | super =>
        refine shifts_skip.bind fun _ => (shifts_expect .dot _).bind fun _ => ?_
        exact (shifts_expectName .superMethod).bind fun method => shifts_newSlot.map fun _ => rfl
      | _ => exact shifts_raise _
    | symbol s =>
      cases s with
      | leftParen =>
        refine shifts_skip.bind fun _ => (ih.expression .comma).bind fun inner => ?_
        exact (shifts_expect .rightParen _).map fun _ => rfl
      | _ => exact shifts_raise _

theorem exprShifts (g : Shift) (n : Nat) : ExprShifts g n := by
  induction n with
  | zero =>
    exact ⟨fun _ => shifts_outOfFuel, fun _ _ => shifts_outOfFuel, fun _ => shifts_outOfFuel, shifts_outOfFuel,
      fun _ => shifts_outOfFuel, shifts_outOfFuel⟩
  | succ n ih =>
    exact ⟨shifts_expression ih, shifts_chain ih, shifts_suffixes ih, shifts_arguments ih, shifts_moreArguments ih,
      shifts_primary ih⟩

theorem shifts_comma (n : Nat) : Shifts g g.expr (expression n .comma) (expression n .comma) :=
  (exprShifts g n).expression .comma

/-! ## Simple statements -/

theorem shifts_optionalUnless (n : Nat) (terminal : Terminal) :
    Shifts g g.exprOpt (optionalUnless n terminal) (optionalUnless n terminal) := by
  refine (shifts_isNext terminal).bind fun b => ?_
  cases b with
  | true => exact shifts_pure
  | false => exact (shifts_comma n).map fun _ => rfl

theorem shifts_variable (n : Nat) : Shifts g g.stmt (variable_ n) (variable_ n) := by
  refine (shifts_expectName .variable_).bind fun name => (shifts_acceptSymbol .equal).bind fun equals => ?_
  cases equals with
  | none => exact (shifts_expect .semicolon _).map fun _ => rfl
  | some _ => exact (shifts_comma n).bind fun _ => (shifts_expect .semicolon _).map fun _ => rfl

theorem shifts_printed (n : Nat) : Shifts g g.stmt (printed n) (printed n) :=
  (shifts_comma n).bind fun _ => (shifts_expect .semicolon _).map fun _ => rfl

theorem shifts_expressionStatement (n : Nat) : Shifts g g.stmt (expressionStatement n) (expressionStatement n) :=
  (shifts_comma n).bind fun _ => (shifts_expect .semicolon _).map fun _ => rfl

theorem shifts_returned (n : Nat) (keyword : Token) :
    Shifts g g.stmt (returned n keyword) (returned n (g.token keyword)) :=
  (shifts_optionalUnless n _).bind fun _ => (shifts_expect .semicolon _).map fun _ => rfl

theorem shifts_checkLoop (t : Token) (f : SyntaxFault) : Shifts g id (checkLoop t f) (checkLoop (g.token t) f) := by
  intro s
  unfold checkLoop
  show (if s.loops = 0 then _ else _) = _
  by_cases h : s.loops = 0
  · rw [if_pos h, if_pos h]
    exact shifts_reportAt t f s
  · rw [if_neg h, if_neg h]
    rfl

theorem shifts_broken (keyword : Token) : Shifts g g.stmt (broken keyword) (broken (g.token keyword)) :=
  (shifts_checkLoop keyword _).bind fun _ => (shifts_expect .semicolon _).map fun _ => rfl

theorem shifts_continued (keyword : Token) : Shifts g g.stmt (continued keyword) (continued (g.token keyword)) :=
  (shifts_checkLoop keyword _).bind fun _ => (shifts_expect .semicolon _).map fun _ => rfl

theorem shifts_moreParameters (n count : Nat) :
    Shifts g (List.map g.lexeme) (moreParameters n count) (moreParameters n count) := by
  induction n generalizing count with
  | zero => exact shifts_outOfFuel
  | succ n ih =>
    refine (shifts_acceptSymbol .comma).bind fun comma => ?_
    cases comma with
    | none => exact shifts_pure
    | some _ =>
      have hnext : Shifts g (List.map g.lexeme)
          (do
            let next ← expectName .parameter
            return next :: (← moreParameters n (count + 1)))
          (do
            let next ← expectName .parameter
            return next :: (← moreParameters n (count + 1))) :=
        (shifts_expectName .parameter).bind fun next => (ih (count + 1)).map fun _ => rfl
      by_cases h : mostArguments ≤ count
      · simp only [h, if_true]
        exact (shifts_report .tooManyParameters).bind fun _ => hnext
      · simp only [h, if_false]
        exact hnext

theorem shifts_parameters (n : Nat) : Shifts g (List.map g.lexeme) (parameters n) (parameters n) := by
  refine (shifts_isNext _).bind fun b => ?_
  cases b with
  | true => exact shifts_pure
  | false => exact (shifts_expectName .parameter).bind fun first => (shifts_moreParameters n 1).map fun _ => rfl

theorem shifts_superclass : Shifts g (Option.map g.reference) superclass superclass := by
  refine (shifts_acceptSymbol .less).bind fun less => ?_
  cases less with
  | none => exact shifts_pure
  | some _ => exact (shifts_expectName .superclass).bind fun name => shifts_newSlot.map fun _ => rfl

theorem shifts_forInitializer (n : Nat) : Shifts g g.stmtOpt (forInitializer n) (forInitializer n) := by
  refine (shifts_acceptSymbol .semicolon).bind fun semicolon => ?_
  cases semicolon with
  | some _ => exact shifts_pure
  | none =>
    refine (shifts_acceptKeyword .var).bind fun keyword => ?_
    cases keyword with
    | some _ => exact (shifts_variable n).map fun _ => rfl
    | none => exact (shifts_expressionStatement n).map fun _ => rfl

theorem shift_forLoop (init : Option Stmt) (test step : Option Expr) (body : Stmt) :
    forLoop (g.stmtOpt init) (g.exprOpt test) (g.exprOpt step) (g.stmt body)
      = g.stmt (forLoop init test step body) := by
  cases init <;> cases test <;> rfl

/-! ## Loops and recovery -/

/-- The count of loops is not shifted. -/
theorem shifts_withLoops {before : State → Nat} {after : State → State → Nat} {φ : α → β} {p : Parse α} {p' : Parse β}
    (h : Shifts g φ p p') (hb : ∀ s, before (s.shift g) = before s)
    (ha : ∀ s s₁, after (s.shift g) (s₁.shift g) = after s s₁) :
    Shifts g φ (withLoops before after p) (withLoops before after p') := by
  intro s
  have hs := h { s with loops := before s }
  have hstart : ({ s with loops := before s } : State).shift g = { s.shift g with loops := before (s.shift g) } := by
    rw [hb]
    rfl
  rw [hstart] at hs
  unfold withLoops
  rw [hs]
  cases p { s with loops := before s } with
  | ok a s₁ =>
    simp only [shiftResult, ha]
    rfl
  | error e s₁ =>
    simp only [shiftResult, ha]
    rfl

theorem shifts_inLoop {φ : α → β} {p : Parse α} {p' : Parse β} (h : Shifts g φ p p') :
    Shifts g φ (inLoop p) (inLoop p') :=
  shifts_withLoops h (fun _ => rfl) fun _ _ => rfl

theorem shifts_inRoutine {φ : α → β} {p : Parse α} {p' : Parse β} (h : Shifts g φ p p') :
    Shifts g φ (inRoutine p) (inRoutine p') :=
  shifts_withLoops h (fun _ => rfl) fun _ _ => rfl

theorem resume_map (ts : List Token) : resume (ts.map g.token) = (resume ts).map g.token := by
  induction ts with
  | nil => rfl
  | cons t ts ih =>
    cases ts with
    | nil => rfl
    | cons next rest =>
      simp only [List.map_cons, resume, Shift.token] at ih ⊢
      split
      · rfl
      · exact ih

/-- An error is reported at the shifted place, and reading goes on at the same token. -/
theorem shifts_recovering {p p' : Parse Stmt} (h : Shifts g g.stmt p p') :
    Shifts g g.stmtOpt (recovering p) (recovering p') := by
  intro s
  unfold recovering
  rw [h s]
  cases p s with
  | ok stmt s₁ => rfl
  | error e s₁ =>
    cases e with
    | outOfFuel => rfl
    | raised error =>
      have hrest : resume (s₁.shift g).rest = (resume s₁.rest).map g.token := resume_map s₁.rest
      simp only [shiftResult, Halt.shift, hrest]
      rw [← State.shift_report]
      rfl

/-! ## Statements -/

structure StmtShifts (g : Shift) (n : Nat) : Prop where
  declaration : Shifts g g.stmtOpt (declaration n) (declaration n)
  declarations : Shifts g g.stmts (declarations n) (declarations n)
  block : Shifts g g.stmts (block n) (block n)
  routine : ∀ kind, Shifts g g.routine (routine n kind) (routine n kind)
  class_ : Shifts g g.stmt (class_ n) (class_ n)
  methods : Shifts g g.routines (methods n) (methods n)
  statement : Shifts g g.stmt (statement n) (statement n)
  conditional : Shifts g g.stmt (conditional n) (conditional n)
  while_ : Shifts g g.stmt (while_ n) (while_ n)
  for_ : Shifts g g.stmt (for_ n) (for_ n)

theorem shifts_declaration (ih : StmtShifts g n) : Shifts g g.stmtOpt (declaration (n + 1)) (declaration (n + 1)) := by
  refine shifts_recovering ((shifts_acceptAny _).bind fun t => ?_)
  cases t with
  | none => exact ih.statement
  | some t =>
    obtain ⟨terminal, line⟩ := t
    cases terminal with
    | keyword k =>
      cases k with
      | class_ => exact ih.class_
      | fun_ => exact (ih.routine .function).map fun _ => rfl
      | _ => exact shifts_variable n
    | _ => exact shifts_variable n

/-- A declaration, and then those that follow it. -/
theorem shifts_listed {p p' : Parse (List Stmt)} (hd : Shifts g g.stmtOpt (declaration n) (declaration n))
    (h : Shifts g g.stmts p p') :
    Shifts g g.stmts
      (do
        match ← declaration n with
        | some stmt => return stmt :: (← p)
        | none => p)
      (do
        match ← declaration n with
        | some stmt => return stmt :: (← p')
        | none => p') := by
  refine hd.bind fun stmt => ?_
  cases stmt with
  | some stmt => exact h.map fun _ => rfl
  | none => exact h

theorem shifts_declarations (ih : StmtShifts g n) : Shifts g g.stmts (declarations (n + 1)) (declarations (n + 1)) := by
  refine shifts_atClose.bind fun b => ?_
  cases b with
  | true => exact shifts_pure
  | false => exact shifts_listed ih.declaration ih.declarations

theorem shifts_block (ih : StmtShifts g n) : Shifts g g.stmts (block (n + 1)) (block (n + 1)) :=
  ih.declarations.bind fun _ => (shifts_expect .rightBrace _).map fun _ => rfl

theorem shifts_routine (ih : StmtShifts g n) (kind : RoutineKind) :
    Shifts g g.routine (routine (n + 1) kind) (routine (n + 1) kind) := by
  refine (shifts_expectName _).bind fun name => (shifts_expect .leftParen _).bind fun _ => ?_
  refine (shifts_parameters n).bind fun params => (shifts_expect .rightParen _).bind fun _ => ?_
  exact (shifts_expect .leftBrace _).bind fun _ => (shifts_inRoutine ih.block).map fun _ => rfl

theorem shifts_class (ih : StmtShifts g n) : Shifts g g.stmt (class_ (n + 1)) (class_ (n + 1)) := by
  refine (shifts_expectName .class_).bind fun name => shifts_superclass.bind fun parent => ?_
  refine (shifts_expect .leftBrace _).bind fun _ => ih.methods.bind fun members => ?_
  exact (shifts_expect .rightBrace _).map fun _ => rfl

theorem shifts_methods (ih : StmtShifts g n) : Shifts g g.routines (methods (n + 1)) (methods (n + 1)) := by
  refine shifts_atClose.bind fun b => ?_
  cases b with
  | true => exact shifts_pure
  | false => exact (ih.routine .method).bind fun first => ih.methods.map fun _ => rfl

theorem shifts_statement (ih : StmtShifts g n) : Shifts g g.stmt (statement (n + 1)) (statement (n + 1)) := by
  refine (shifts_acceptAny statementStarts).bind fun t => ?_
  have hblock : Shifts g g.stmt (do return .block (← block n)) (do return .block (← block n)) :=
    ih.block.map fun _ => rfl
  cases t with
  | none => exact shifts_expressionStatement n
  | some t =>
    obtain ⟨terminal, line⟩ := t
    cases terminal with
    | keyword k =>
      cases k with
      | print => exact shifts_printed n
      | if_ => exact ih.conditional
      | while_ => exact ih.while_
      | for_ => exact ih.for_
      | return_ => exact shifts_returned n ⟨.keyword .return_, line⟩
      | break_ => exact shifts_broken ⟨.keyword .break_, line⟩
      | continue_ => exact shifts_continued ⟨.keyword .continue_, line⟩
      | _ => exact hblock
    | _ => exact hblock

theorem shifts_conditional (ih : StmtShifts g n) : Shifts g g.stmt (conditional (n + 1)) (conditional (n + 1)) := by
  refine (shifts_expect .leftParen _).bind fun _ => (shifts_comma n).bind fun test => ?_
  refine (shifts_expect .rightParen _).bind fun _ => ih.statement.bind fun yes => ?_
  refine (shifts_acceptKeyword .else_).bind fun other => ?_
  cases other with
  | none => exact shifts_pure
  | some _ => exact ih.statement.map fun _ => rfl

theorem shifts_while (ih : StmtShifts g n) : Shifts g g.stmt (while_ (n + 1)) (while_ (n + 1)) := by
  refine (shifts_expect .leftParen _).bind fun _ => (shifts_comma n).bind fun test => ?_
  exact (shifts_expect .rightParen _).bind fun _ => (shifts_inLoop ih.statement).map fun _ => rfl

theorem shifts_for (ih : StmtShifts g n) : Shifts g g.stmt (for_ (n + 1)) (for_ (n + 1)) := by
  refine (shifts_expect .leftParen _).bind fun _ => (shifts_forInitializer n).bind fun init => ?_
  refine (shifts_optionalUnless n _).bind fun test => (shifts_expect .semicolon _).bind fun _ => ?_
  refine (shifts_optionalUnless n _).bind fun step => (shifts_expect .rightParen _).bind fun _ => ?_
  exact (shifts_inLoop ih.statement).map fun body => shift_forLoop init test step body

theorem stmtShifts (g : Shift) (n : Nat) : StmtShifts g n := by
  induction n with
  | zero =>
    exact ⟨shifts_outOfFuel, shifts_outOfFuel, shifts_outOfFuel, fun _ => shifts_outOfFuel, shifts_outOfFuel,
      shifts_outOfFuel, shifts_outOfFuel, shifts_outOfFuel, shifts_outOfFuel, shifts_outOfFuel⟩
  | succ n ih =>
    exact ⟨shifts_declaration ih, shifts_declarations ih, shifts_block ih, shifts_routine ih, shifts_class ih,
      shifts_methods ih, shifts_statement ih, shifts_conditional ih, shifts_while ih, shifts_for ih⟩

/-! ## Token lists -/

theorem shifts_program (n : Nat) : Shifts g g.stmts (program n) (program n) := by
  induction n with
  | zero => exact shifts_outOfFuel
  | succ n ih =>
    refine shifts_peek.bind fun t => ?_
    cases t with
    | none => exact shifts_pure
    | some _ => exact shifts_listed (stmtShifts g n).declaration ih

end Grammar

open Grammar

def Parsed.shift (g : Shift) (p : Parsed) : Parsed :=
  ⟨g.stmts p.program, p.nextSlot + g.slots, p.errors.map g.diagnostic⟩

theorem parse_shift (g : Shift) (tokens : Tokens) (k : Int) :
    parse (g.tokens tokens) (k + g.slots) = (parse tokens k).shift g := by
  have hfuel : fuel (g.tokens tokens) = fuel tokens := by simp [fuel, Tokens.count, Shift.tokens]
  have hstart : start (g.tokens tokens) (k + g.slots) = (start tokens k).shift g := by
    simp [start, State.shift, Shift.tokens]
  unfold parse
  rw [hfuel, hstart, shifts_program (fuel tokens) (start tokens k)]
  cases program (fuel tokens) (start tokens k) with
  | ok ss s => simp [shiftResult, Parsed.shift, State.shift]
  | error e s => simp [shiftResult, Parsed.shift, State.shift, Shift.stmts]

end Lox
