/-
  Lox.Proofs.Grammar.Loops — the misplaced jumps of a text are reported exactly, whatever
  other errors it has (`misplaced_exact`).

  The loops around a call are counted along the calls that lead to it (`Inside`): the body
  of a loop is one more, the body of a routine begins anew. The state has that number, for
  whatever has been read or given up on the way has left it as it was (`calls_loops`). So
  a jump finds no loop exactly where there is none, and its error is one of the program's
  from then on (`comes_reported`), while no other error is about a misplaced jump.
-/

import Lox.Proofs.Grammar.Ends
import Lox.Proofs.Grammar.Misplaced

namespace Lox

open Grammar

namespace Grammar

variable {α β : Type} {n k : Nat} {s s' : State} {c c' run : Call} {e : Diagnostic}

/-! ## The loops around a call -/

/-- The bodies of loops that are read around a call, from those around its caller. The only
statement that the rule of a loop calls is its body, the only block of a routine likewise. -/
def Rule.loopsAround (loops : Nat) : Rule → Rule → Nat
  | .while_ _, .statement _ | .for_ _, .statement _ => loops + 1
  | .routine _ _, .block _ => 0
  | _, _ => loops

/-- A call that a run comes to, and how many bodies of loops are read around it in the innermost
body of a routine, or in the program. -/
inductive Inside (run : Call) : Nat → Call → Prop
  | refl : Inside run 0 run
  | step {k : Nat} {c c' : Call} : Inside run k c → Calls c c' → Inside run (Rule.loopsAround k c.rule c'.rule) c'

theorem Inside.comes (h : Inside run k c) : Comes run c := by
  induction h with
  | refl => exact .refl
  | step _ hcall ih => exact ih.step hcall

theorem Comes.inside (h : Comes run c) : ∃ k, Inside run k c := by
  induction h with
  | refl => exact ⟨0, .refl⟩
  | step _ hcall ih =>
    obtain ⟨k, hk⟩ := ih
    exact ⟨_, hk.step hcall⟩

theorem Jumpless.loops {p : Parse α} {a : α} (h : Jumpless p) (hp : p s = .ok a s') : s'.loops = s.loops :=
  (h s).ok_loops hp

/-- Read or given up, a declaration leaves the loops as they were. -/
theorem declaration_loops {r : Option Stmt} (h : declaration n s = .ok r s') : s'.loops = s.loops :=
  Accounts.ok_loops (accounted ⟨.declaration n, s⟩) h

/-- A call changes the count of loops as its rule says, and in no other way. -/
theorem calls_loops (h : Calls c c') : c'.state.loops = Rule.loopsAround c.state.loops c.rule c'.rule := by
  cases h with
  | program | declarations => rfl
  | programRest _ hd => exact declaration_loops hd
  | class_ h _ | function h _ | statement h | block h _ | conditional h _ | while_ h _ | for_ h _ | broken h _
  | continued h _ => exact (Jumpless.acceptAny _).loops h
  | declaration h | method h => exact Jumpless.atClose.loops h
  | declarationsRest h hd => exact (declaration_loops hd).trans (Jumpless.atClose.loops h)
  | body => rfl
  | methods h₁ h₂ h₃ =>
    have hparent := (Jumpless.superclass.loops h₂).trans ((Jumpless.expectName _).loops h₁)
    exact ((Jumpless.expect _ _).loops h₃).trans hparent
  | methodsRest h hr =>
    exact (Accounts.ok_loops (accounted ⟨.routine _ .method, _⟩) hr).trans (Jumpless.atClose.loops h)
  | yes h₁ h₂ h₃ =>
    have htest := ((jumpless_comma _).loops h₂).trans ((Jumpless.expect _ _).loops h₁)
    exact ((Jumpless.expect _ _).loops h₃).trans htest
  | no h₁ h₂ h₃ h₄ h₅ =>
    have htest := ((jumpless_comma _).loops h₂).trans ((Jumpless.expect _ _).loops h₁)
    have hyes := Accounts.ok_loops (accounted ⟨.statement _, _⟩) h₄
    exact ((Jumpless.acceptAny _).loops h₅).trans (hyes.trans (((Jumpless.expect _ _).loops h₃).trans htest))
  | whileBody h₁ h₂ h₃ =>
    have htest := ((jumpless_comma _).loops h₂).trans ((Jumpless.expect _ _).loops h₁)
    exact congrArg (· + 1) (((Jumpless.expect _ _).loops h₃).trans htest)
  | forBody h₁ h₂ h₃ h₄ h₅ h₆ =>
    have hinit := ((jumpless_forInitializer _).loops h₂).trans ((Jumpless.expect _ _).loops h₁)
    have htest := ((Jumpless.expect _ _).loops h₄).trans (((jumpless_optionalUnless _ _).loops h₃).trans hinit)
    exact congrArg (· + 1) (((Jumpless.expect _ _).loops h₆).trans
      (((jumpless_optionalUnless _ _).loops h₅).trans htest))

/-- The state counts the bodies of loops around the place that is read. -/
theorem inside_loops (h : Inside run k c) (hrun : run.state.loops = 0) : c.state.loops = k := by
  induction h with
  | refl => exact hrun
  | step _ hcall ih => rw [calls_loops hcall, ih]

/-! ## Errors that have been reported -/

/-- An error that has been reported stays so. -/
theorem Built.reported {p : Parse α} (h : Built p) (s : State) (he : e ∈ s.errors) : e ∈ (left (p s)).errors := by
  induction h generalizing s with
  | report f | reportAt t f => exact Array.mem_push.mpr (Or.inl he)
  | checkLoop t f =>
    unfold Grammar.checkLoop
    split
    · exact Array.mem_push.mpr (Or.inl he)
    · exact he
  | acceptAny terminals =>
    unfold Grammar.acceptAny
    split
    · split <;> exact he
    · exact he
  | expectName role =>
    unfold Grammar.expectName
    split <;> exact he
  | @bind _ _ p f _ _ ih ihf =>
    have hs := ih s he
    cases hp : p s with
    | ok a s₁ =>
      rw [hp] at hs
      rw [bind_of_ok hp]
      exact ihf a s₁ hs
    | error halt s₁ =>
      rw [hp] at hs
      rwa [bind_of_error hp]
  | @withLoops _ before after p _ ih =>
    have hs := ih { s with loops := before s } he
    unfold Grammar.withLoops
    split <;> simp_all [left]
  | @recovering p _ ih =>
    have hs := ih s he
    unfold Grammar.recovering
    split
    next hp => rwa [hp] at hs
    next hp =>
      rw [hp] at hs
      exact Array.mem_push.mpr (Or.inl hs)
    next hp => rwa [hp] at hs
  | _ => exact he

theorem left_bind {p : Parse α} {a : α} (hp : p s = .ok a s') (f : α → Parse β) :
    left ((p >>= f) s) = left (f a s') := by
  rw [bind_of_ok hp]

/-- What comes first is not undone by what follows. -/
theorem reported_first {p : Parse α} {f : α → Parse β} (hf : ∀ a, Built (f a)) (he : e ∈ (left (p s)).errors) :
    e ∈ (left ((p >>= f) s)).errors := by
  cases hp : p s with
  | ok a s₁ =>
    rw [hp] at he
    rw [left_bind hp]
    exact (hf a).reported s₁ he
  | error halt s₁ =>
    rw [hp] at he
    rwa [bind_of_error hp]

/-- What follows comes last. -/
theorem reported_after {p : Parse α} {a : α} {f : α → Parse β} (hp : p s = .ok a s') (he : e ∈ (left (f a s')).errors) :
    e ∈ (left ((p >>= f) s)).errors := by
  rwa [left_bind hp]

theorem reported_map {p : Parse α} (f : α → β) (he : e ∈ (left (p s)).errors) :
    e ∈ (left ((do return f (← p) : Parse β) s)).errors :=
  reported_first (fun a => .pure (f a)) he

theorem reported_withLoops {before : State → Nat} {after : State → State → Nat} {p : Parse α}
    (he : e ∈ (left (p { s with loops := before s })).errors) : e ∈ (left (withLoops before after p s)).errors := by
  unfold withLoops
  cases hp : p { s with loops := before s } <;> rwa [hp] at he

theorem reported_recovering {p : Parse Stmt} (he : e ∈ (left (p s)).errors) : e ∈ (left (recovering p s)).errors := by
  unfold recovering
  cases hp : p s with
  | ok stmt s₁ => rwa [hp] at he
  | error halt s₁ =>
    rw [hp] at he
    cases halt with
    | raised d => exact Array.mem_push.mpr (Or.inl he)
    | outOfFuel => exact he

/-! ## What is called has been reported -/

/-- The state that a call leaves, however it ends. -/
def Call.leaves (c : Call) : State :=
  match c.rule with
  | .program n => left (program n c.state)
  | .declaration n => left (declaration n c.state)
  | .declarations n => left (declarations n c.state)
  | .block n => left (block n c.state)
  | .routine n kind => left (routine n kind c.state)
  | .class_ n => left (class_ n c.state)
  | .methods n => left (methods n c.state)
  | .statement n => left (statement n c.state)
  | .conditional n => left (conditional n c.state)
  | .while_ n => left (while_ n c.state)
  | .for_ n => left (for_ n c.state)
  | .broken t => left (broken t c.state)
  | .continued t => left (continued t c.state)

/-- What a rule that is called reports is reported by its caller. -/
theorem calls_reported (h : Calls c c') (he : e ∈ c'.leaves.errors) : e ∈ c.leaves.errors := by
  cases h with
  | @program n s hs =>
    show e ∈ (left (program (n + 1) s)).errors
    obtain ⟨t, rest, hr⟩ := List.exists_cons_of_ne_nil hs
    rw [program, peek_bind, hr]
    refine reported_first (fun r => ?_) he
    cases r with
    | some stmt => exact (built_program n).map _
    | none => exact built_program n
  | @programRest n s s₁ r hs hd =>
    show e ∈ (left (program (n + 1) s)).errors
    obtain ⟨t, rest, hr⟩ := List.exists_cons_of_ne_nil hs
    rw [program, peek_bind, hr]
    refine reported_after hd ?_
    cases r with
    | some stmt => exact reported_map _ he
    | none => exact he
  | @class_ n s s₁ t hr ht =>
    obtain ⟨terminal, line⟩ := t
    subst ht
    exact reported_recovering (reported_after hr he)
  | @function n s s₁ t hr ht =>
    obtain ⟨terminal, line⟩ := t
    subst ht
    exact reported_recovering (reported_after hr (reported_map _ he))
  | statement hr => exact reported_recovering (reported_after hr he)
  | @declaration n s s₁ hb =>
    show e ∈ (left (declarations (n + 1) s)).errors
    rw [declarations]
    refine reported_after hb (reported_first (fun r => ?_) he)
    cases r with
    | some stmt => exact (builtStmt n).declarations.map _
    | none => exact (builtStmt n).declarations
  | @declarationsRest n s s₁ s₂ r hb hd =>
    show e ∈ (left (declarations (n + 1) s)).errors
    rw [declarations]
    refine reported_after hb (reported_after hd ?_)
    cases r with
    | some stmt => exact reported_map _ he
    | none => exact he
  | declarations => exact reported_first (fun body => built_closed body) he
  | body h₁ h₂ h₃ h₄ h₅ =>
    refine reported_after h₁ (reported_after h₂ (reported_after h₃ (reported_after h₄ (reported_after h₅ ?_))))
    exact reported_map _ (reported_withLoops he)
  | methods h₁ h₂ h₃ =>
    exact reported_after h₁ (reported_after h₂ (reported_after h₃ (reported_first (fun _ => built_closed _) he)))
  | @method n s s₁ hb =>
    show e ∈ (left (methods (n + 1) s)).errors
    rw [methods]
    exact reported_after hb (reported_first (fun first => (builtStmt n).methods.map _) he)
  | @methodsRest n s s₁ s₂ r hb hr =>
    show e ∈ (left (methods (n + 1) s)).errors
    rw [methods]
    exact reported_after hb (reported_after hr (reported_map _ he))
  | @block n s s₁ t hr ht =>
    show e ∈ (left (statement (n + 1) s)).errors
    rw [statement]
    refine reported_after hr ?_
    simp only [ht]
    exact reported_map _ he
  | @conditional n s s₁ t hr ht | @while_ n s s₁ t hr ht | @for_ n s s₁ t hr ht | @broken n s s₁ t hr ht
  | @continued n s s₁ t hr ht =>
    show e ∈ (left (statement (n + 1) s)).errors
    rw [statement]
    refine reported_after hr ?_
    simp only [ht]
    exact he
  | @yes n s s₁ s₂ s₃ test t t' h₁ h₂ h₃ =>
    show e ∈ (left (conditional (n + 1) s)).errors
    rw [conditional]
    refine reported_after h₁ (reported_after h₂ (reported_after h₃ (reported_first (fun yes => ?_) he)))
    refine (built_acceptKeyword .else_).bind fun r => ?_
    cases r with
    | none => exact .pure _
    | some _ => exact (builtStmt n).statement.map _
  | @no n s s₁ s₂ s₃ s₄ s₅ test yes t t' t'' h₁ h₂ h₃ h₄ h₅ =>
    show e ∈ (left (conditional (n + 1) s)).errors
    rw [conditional]
    refine reported_after h₁ (reported_after h₂ (reported_after h₃ (reported_after h₄ (reported_after h₅ ?_))))
    exact reported_map _ he
  | whileBody h₁ h₂ h₃ =>
    refine reported_after h₁ (reported_after h₂ (reported_after h₃ ?_))
    exact reported_map _ (reported_withLoops he)
  | forBody h₁ h₂ h₃ h₄ h₅ h₆ =>
    refine reported_after h₁ (reported_after h₂ (reported_after h₃ ?_))
    refine reported_after h₄ (reported_after h₅ (reported_after h₆ ?_))
    exact reported_map _ (reported_withLoops he)

theorem comes_reported (h : Comes c c') (he : e ∈ c'.leaves.errors) : e ∈ c.leaves.errors := by
  induction h with
  | refl => exact he
  | step _ hcall ih => exact ih (calls_reported hcall he)

/-! ## Jumps -/

theorem expect_errors (symbol : Symbol) (role : SymbolRole) (s : State) :
    (left (expect symbol role s)).errors = s.errors := by
  obtain ⟨r, s₁, hr⟩ := acceptAny_ends [.symbol symbol] s
  have hsame : s₁.errors = s.errors := by
    rcases acceptAny_ok.mp hr with ⟨t, rest, -, -, -, rfl⟩ | ⟨-, -, rfl⟩ <;> rfl
  rw [show left (expect symbol role s) = _ from left_bind hr _]
  cases r <;> exact hsame

/-- What the statement of a jump notes, whether or not its semicolon is there. -/
theorem jump_errors (t : Token) (f : SyntaxFault) (role : SymbolRole) (x : Stmt) (s : State) :
    (left ((do
      checkLoop t f
      let _ ← expect .semicolon role
      return x : Parse Stmt) s)).errors = if s.loops = 0 then s.errors.push (fault t f) else s.errors := by
  have hclosed : ∀ s₁ : State, (left ((do
      let _ ← expect .semicolon role
      return x : Parse Stmt) s₁)).errors = s₁.errors := by
    intro s₁
    have hs := expect_errors .semicolon role s₁
    cases hp : expect .semicolon role s₁ with
    | ok t s₂ =>
      rw [hp] at hs
      rw [left_bind hp]
      exact hs
    | error halt s₂ =>
      rw [hp] at hs
      rw [bind_of_error hp]
      exact hs
  rw [left_bind (a := ()) (checkLoop_ok.mpr rfl), hclosed]
  split <;> rfl

theorem misplaces_leaves (h : c.Misplaces e) : e ∈ c.leaves.errors := by
  obtain ⟨rule, s⟩ := c
  cases rule with
  | broken t | continued t =>
    obtain ⟨hl, rfl⟩ := h
    refine (jump_errors t _ _ _ s).symm ▸ ?_
    rw [if_pos hl]
    exact Array.mem_push_self
  | _ => exact h.elim

/-! ## Programs -/

/-- The call that reads a text, with a bound that is enough. -/
def Call.ofText (tokens : Tokens) (firstSlot : Int) (extra : Nat) : Call :=
  ⟨.program (fuel tokens + extra), start tokens firstSlot⟩

theorem parse_errors (tokens : Tokens) (firstSlot : Int) (extra : Nat) :
    (parse tokens firstSlot).errors = (Call.ofText tokens firstSlot extra).leaves.errors.toList := by
  have hdeeper : program (fuel tokens + extra) (start tokens firstSlot) =
      program (fuel tokens) (start tokens firstSlot) :=
    program_deeper (fuel_ready tokens firstSlot 0) (Nat.le_add_right ..)
  show _ = (left (program (fuel tokens + extra) (start tokens firstSlot))).errors.toList
  rw [hdeeper, parse]
  cases program (fuel tokens) (start tokens firstSlot) <;> rfl

end Grammar

/-- The state counts the bodies of loops around every call, and every declaration leaves it as
it was. The statement of a jump notes that it is misplaced if there is none, and the errors
of the text about misplaced jumps are those of such statements. -/
theorem misplaced_exact (tokens : Tokens) (firstSlot : Int) (extra : Nat) :
    (∀ k c, Inside (.ofText tokens firstSlot extra) k c → c.state.loops = k) ∧
    (∀ k t s, Inside (.ofText tokens firstSlot extra) k ⟨.broken t, s⟩ →
      (left (broken t s)).errors = if k = 0 then s.errors.push (fault t .strayBreak) else s.errors) ∧
    (∀ k t s, Inside (.ofText tokens firstSlot extra) k ⟨.continued t, s⟩ →
      (left (continued t s)).errors = if k = 0 then s.errors.push (fault t .strayContinue) else s.errors) ∧
    (∀ e : Diagnostic, e.IsMisplaced → (e ∈ (parse tokens firstSlot).errors ↔
      ∃ t s, Inside (.ofText tokens firstSlot extra) 0 ⟨.broken t, s⟩ ∧ e = fault t .strayBreak ∨
        Inside (.ofText tokens firstSlot extra) 0 ⟨.continued t, s⟩ ∧ e = fault t .strayContinue)) ∧
    ∀ n s r s', declaration n s = .ok r s' → s'.loops = s.loops := by
  have hcount : ∀ {k c}, Inside (.ofText tokens firstSlot extra) k c → c.state.loops = k := fun h => inside_loops h rfl
  refine ⟨fun k c => hcount, fun k t s h => ?_, fun k t s h => ?_, fun e he => ?_, fun n s r s' => declaration_loops⟩
  · rw [← hcount h]
    exact jump_errors t _ _ _ s
  · rw [← hcount h]
    exact jump_errors t _ _ _ s
  · rw [parse_errors tokens firstSlot extra, Array.mem_toList_iff]
    constructor
    · intro hmem
      rcases (accounted (.ofText tokens firstSlot extra)).errors e hmem with hstart | hreports
      · exact absurd hstart (Array.not_mem_empty e)
      · obtain ⟨⟨rule, s⟩, hcomes, hm⟩ := hreports he
        obtain ⟨k, hinside⟩ := hcomes.inside
        have hk := hcount hinside
        cases rule with
        | broken t =>
          obtain ⟨hl, rfl⟩ := hm
          exact ⟨t, s, Or.inl ⟨(hk.symm.trans hl) ▸ hinside, rfl⟩⟩
        | continued t =>
          obtain ⟨hl, rfl⟩ := hm
          exact ⟨t, s, Or.inr ⟨(hk.symm.trans hl) ▸ hinside, rfl⟩⟩
        | _ => exact hm.elim
    · rintro ⟨t, s, ⟨hinside, rfl⟩ | ⟨hinside, rfl⟩⟩
      · exact comes_reported hinside.comes (misplaces_leaves ⟨hcount hinside, rfl⟩)
      · exact comes_reported hinside.comes (misplaces_leaves ⟨hcount hinside, rfl⟩)

/-- A loop whose body begins with an error, and goes on behind it with a jump; then one outside. -/
def recoveredLoop : Tokens where
  items := [⟨.keyword .while_, 1⟩, ⟨.symbol .leftParen, 1⟩, ⟨.ident "a", 1⟩, ⟨.symbol .rightParen, 1⟩,
    ⟨.symbol .leftBrace, 1⟩, ⟨.symbol .rightParen, 1⟩, ⟨.symbol .semicolon, 1⟩, ⟨.keyword .break_, 1⟩,
    ⟨.symbol .semicolon, 1⟩, ⟨.symbol .rightBrace, 1⟩, ⟨.keyword .break_, 2⟩, ⟨.symbol .semicolon, 2⟩]
  endLine := 2

/-- The jump behind the error is still in the loop, the one behind the loop is not. -/
example : (parse recoveredLoop 0).errors =
    [fault ⟨.symbol .rightParen, 1⟩ .noExpression, fault ⟨.keyword .break_, 2⟩ .strayBreak] := by
  decide +kernel

end Lox
