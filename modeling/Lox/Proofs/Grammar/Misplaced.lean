/-
  Lox.Proofs.Grammar.Misplaced — the number of loops around a place, and the errors of a
  `break` or `continue` that no loop encloses, through whatever goes wrong in between.

  `Accounts F p s`: however `p` ends that reads from `s`, as many loops are around as
  before, and an error about a misplaced jump is one of those at `s` or answered for by
  `F`; such an error is never raised. Most rules have none to answer for (`Jumpless`). A call
  accounts for its errors by the jumps that it comes to outside of any loop
  (`accounted`), so that its caller does too.
-/

import Lox.Proofs.Grammar.Calls

namespace Lox

/-- The fault of a jump that no loop encloses. -/
def SyntaxFault.IsMisplaced (f : SyntaxFault) : Prop := f = .strayBreak ∨ f = .strayContinue

def Diagnostic.IsMisplaced (d : Diagnostic) : Prop := ∃ f : SyntaxFault, f.IsMisplaced ∧ d.cause = .grammar f

instance (f : SyntaxFault) : Decidable f.IsMisplaced := inferInstanceAs (Decidable (_ ∨ _))

namespace Grammar

variable {α β : Type} {F G : Diagnostic → Prop} {s s' : State} {n : Nat}

theorem State.fault_cause (s : State) (f : SyntaxFault) : (s.fault f).cause = .grammar f := by
  unfold State.fault
  split <;> rfl

theorem not_misplaced {d : Diagnostic} {f : SyntaxFault} (hd : d.cause = .grammar f) (hf : ¬ f.IsMisplaced) :
    ¬ d.IsMisplaced := by
  rintro ⟨g, hg, hcause⟩
  cases hd.symm.trans hcause
  exact hf hg

theorem acceptAny_ends (terminals : List Terminal) (s : State) : ∃ r s', acceptAny terminals s = .ok r s' := by
  unfold acceptAny
  split
  · split
    · exact ⟨_, _, rfl⟩
    · exact ⟨_, _, rfl⟩
  · exact ⟨_, _, rfl⟩

/-! ## Accounts -/

/-- The part leaves the count of loops as it is, and reports misplaced jumps only as `F` says. -/
structure Accounts (F : Diagnostic → Prop) (p : Parse α) (s : State) : Prop where
  loops : (left (p s)).loops = s.loops
  errors : ∀ e ∈ (left (p s)).errors, e ∈ s.errors ∨ (e.IsMisplaced → F e)
  raised : ∀ d s', p s = .error (.raised d) s' → ¬ d.IsMisplaced

namespace Accounts

variable {p : Parse α}

theorem mono (h : Accounts F p s) (hFG : ∀ e, F e → G e) : Accounts G p s where
  loops := h.loops
  errors e he := (h.errors e he).imp_right fun hF hm => hFG e (hF hm)
  raised := h.raised

theorem ok_loops {a : α} (h : Accounts F p s) (hp : p s = .ok a s') : s'.loops = s.loops := by
  have hs := h.loops
  rwa [hp] at hs

/-- A step that succeeds and leaves the loops and the errors. -/
theorem of_ok {a : α} (hp : p s = .ok a s') (hl : s'.loops = s.loops) (he : s'.errors = s.errors) : Accounts F p s where
  loops := by rwa [hp]
  errors e h := by
    rw [hp] at h
    exact Or.inl (he ▸ h)
  raised d s₁ h := by
    rw [hp] at h
    cases h

theorem pure (a : α) : Accounts F (pure a : Parse α) s := of_ok rfl rfl rfl

theorem outOfFuel : Accounts F (throw .outOfFuel : Parse α) s where
  loops := rfl
  errors _ h := Or.inl h
  raised _ _ h := by cases h

/-- One part after the other accounts for what both of them report. -/
theorem bind {f : α → Parse β} (h : Accounts F p s) (hf : ∀ a s₁, p s = .ok a s₁ → Accounts F (f a) s₁) :
    Accounts F (p >>= f) s := by
  cases hp : p s with
  | ok a s₁ =>
    have hfa := hf a s₁ hp
    have hsame := bind_of_ok (f := f) hp
    refine ⟨?_, fun e he => ?_, fun d s₂ hd => hfa.raised d s₂ (hsame ▸ hd)⟩
    · rw [hsame, hfa.loops, h.ok_loops hp]
    · rw [hsame] at he
      rcases hfa.errors e he with he | he
      · exact h.errors e (by rwa [hp])
      · exact Or.inr he
  | error halt s₁ =>
    have hsame := bind_of_error (f := f) hp
    refine ⟨?_, fun e he => ?_, fun d s₂ hd => ?_⟩
    · have hloops := h.loops
      rw [hp] at hloops
      rwa [hsame]
    · rw [hsame] at he
      exact h.errors e (by rwa [hp])
    · rw [hsame] at hd
      cases hd
      exact h.raised d s₁ hp

theorem map (h : Accounts F p s) (f : α → β) : Accounts F (do return f (← p)) s := h.bind fun a _ _ => pure (f a)

/-- An error is noted. -/
theorem noted {e : Diagnostic} {u : α} (hp : p s = .ok u (s.report e)) (he : e.IsMisplaced → F e) : Accounts F p s where
  loops := by
    rw [hp]
    rfl
  errors d hd := by
    rw [hp] at hd
    rcases Array.mem_push.mp hd with hd | rfl
    · exact Or.inl hd
    · exact Or.inr he
  raised d s₁ h := by
    rw [hp] at h
    cases h

theorem checkLoop {t : Token} {f : SyntaxFault} (h : s.loops = 0 → F (fault t f)) : Accounts F (checkLoop t f) s := by
  by_cases hl : s.loops = 0
  · exact noted (u := ()) (checkLoop_ok.mpr (if_pos hl).symm) fun _ => h hl
  · exact of_ok (a := ()) (checkLoop_ok.mpr (if_neg hl).symm) rfl rfl

/-- The loops are counted and counted back. -/
theorem withLoops {before : State → Nat} {after : State → State → Nat} (h : Accounts F p { s with loops := before s })
    (hback : ∀ s' : State, s'.loops = before s → after s s' = s.loops) : Accounts F (withLoops before after p) s := by
  have hleft : left (Grammar.withLoops before after p s) = { left (p { s with loops := before s }) with
      loops := after s (left (p { s with loops := before s })) } := by
    unfold Grammar.withLoops
    cases p { s with loops := before s } <;> rfl
  refine ⟨?_, fun e he => ?_, fun d s₁ hd => ?_⟩
  · rw [hleft]
    exact hback _ h.loops
  · rw [hleft] at he
    exact h.errors e he
  · unfold Grammar.withLoops at hd
    split at hd
    next => cases hd
    next halt s₂ hp =>
      cases hd
      exact h.raised d s₂ hp

theorem inLoop (h : Accounts F p { s with loops := s.loops + 1 }) : Accounts F (inLoop p) s :=
  h.withLoops fun _ hl => by rw [hl, Nat.add_sub_cancel]

theorem inRoutine (h : Accounts F p { s with loops := 0 }) : Accounts F (inRoutine p) s := h.withLoops fun _ _ => rfl

/-- The error that is caught is noted; it is about something else. -/
theorem recovering {p : Parse Stmt} (h : Accounts F p s) : Accounts F (recovering p) s := by
  have hloops := h.loops
  have herrors := h.errors
  cases hp : p s with
  | ok stmt s₁ =>
    rw [hp] at hloops herrors
    have hr := recovering_ok.mpr (Or.inl ⟨stmt, hp, rfl⟩)
    exact ⟨by rwa [hr], by rwa [hr], fun d s₂ hd => by rw [hr] at hd; cases hd⟩
  | error halt s₁ =>
    rw [hp] at hloops herrors
    cases halt with
    | raised d =>
      have hr := recovering_ok.mpr (Or.inr ⟨d, s₁, hp, rfl, rfl⟩)
      refine ⟨by rwa [hr], fun e he => ?_, fun d' s₂ hd => by rw [hr] at hd; cases hd⟩
      rw [hr] at he
      rcases Array.mem_push.mp he with he | rfl
      · exact herrors e he
      · exact Or.inr fun hm => absurd hm (h.raised e s₁ hp)
    | outOfFuel =>
      have hr : Grammar.recovering p s = .error .outOfFuel s₁ := by
        unfold Grammar.recovering
        rw [hp]
      exact ⟨by rwa [hr], by rwa [hr], fun d s₂ hd => by rw [hr] at hd; cases hd⟩

end Accounts

/-! ## Rules without jumps -/

/-- A rule that has no misplaced jump to answer for. -/
def Jumpless (p : Parse α) : Prop := ∀ s, Accounts (fun _ => False) p s

namespace Jumpless

variable {p : Parse α}

theorem accounts (h : Jumpless p) (F : Diagnostic → Prop) (s : State) : Accounts F p s := (h s).mono fun _ => False.elim

/-- The rule first, and then what follows it. -/
theorem andThen {f : α → Parse β} (h : Jumpless p) (hf : ∀ a s₁, p s = .ok a s₁ → Accounts F (f a) s₁) :
    Accounts F (p >>= f) s := (h.accounts F s).bind hf

theorem pure (a : α) : Jumpless (pure a : Parse α) := fun _ => .pure a

theorem outOfFuel : Jumpless (throw .outOfFuel : Parse α) := fun _ => .outOfFuel

theorem bind {f : α → Parse β} (h : Jumpless p) (hf : ∀ a, Jumpless (f a)) : Jumpless (p >>= f) := fun s =>
  (h s).bind fun a s₁ _ => hf a s₁

theorem map (h : Jumpless p) (f : α → β) : Jumpless (do return f (← p)) := fun s => (h s).map f

theorem raise {f : SyntaxFault} (hf : ¬ f.IsMisplaced) : Jumpless (raise f : Parse α) := fun s => by
  refine ⟨rfl, fun _ he => Or.inl he, fun d s' hd => ?_⟩
  cases hd
  exact not_misplaced (s.fault_cause f) hf

theorem report {f : SyntaxFault} (hf : ¬ f.IsMisplaced) : Jumpless (report f) := fun s =>
  .noted rfl fun hm => not_misplaced (s.fault_cause f) hf hm

theorem reportAt (t : Token) {f : SyntaxFault} (hf : ¬ f.IsMisplaced) : Jumpless (reportAt t f) := fun _ =>
  .noted rfl fun hm => not_misplaced rfl hf hm

theorem peek : Jumpless peek := fun _ => .of_ok rfl rfl rfl

theorem skip : Jumpless skip := fun _ => .of_ok rfl rfl rfl

theorem newSlot : Jumpless newSlot := fun _ => .of_ok rfl rfl rfl

theorem acceptAny (terminals : List Terminal) : Jumpless (acceptAny terminals) := fun s => by
  obtain ⟨r, s', hr⟩ := acceptAny_ends terminals s
  obtain ⟨t, rest, -, -, -, rfl⟩ | ⟨-, -, rfl⟩ := acceptAny_ok.mp hr
  · exact .of_ok hr rfl rfl
  · exact .of_ok hr rfl rfl

theorem expectName (role : NameRole) : Jumpless (expectName role) := fun s => by
  rcases hr : Grammar.expectName role s with ⟨name, s'⟩ | ⟨halt, s'⟩
  · obtain ⟨t, rest, -, -, -, rfl⟩ := expectName_ok.mp hr
    exact .of_ok hr rfl rfl
  · have hraise : Grammar.expectName role s = Grammar.raise (.noName role) s := by
      unfold Grammar.expectName at hr ⊢
      split at hr
      · cases hr
      · rfl
    have hjumpless : Accounts (fun _ => False) (Grammar.raise (.noName role) : Parse Lexeme) s :=
      raise (by simp [SyntaxFault.IsMisplaced]) s
    exact ⟨by rw [hraise]; exact hjumpless.loops, by rw [hraise]; exact hjumpless.errors,
      by rw [hraise]; exact hjumpless.raised⟩

theorem isNext (terminal : Terminal) : Jumpless (isNext terminal) := by
  refine peek.bind fun t => ?_
  cases t <;> exact pure _

theorem atClose : Jumpless atClose := by
  refine peek.bind fun t => ?_
  cases t <;> exact pure _

theorem expect (symbol : Symbol) (role : SymbolRole) : Jumpless (expect symbol role) := by
  refine (acceptAny [.symbol symbol]).bind fun t => ?_
  cases t with
  | none => exact raise (by simp [SyntaxFault.IsMisplaced])
  | some t => exact pure t

theorem closed {symbol : Symbol} {role : SymbolRole} (a : α) : Jumpless (do
    let _ ← Grammar.expect symbol role
    return a) :=
  (expect symbol role).bind fun _ => pure a

theorem ifNext {terminal : Terminal} {yes no : Parse α} (hy : Jumpless yes) (hn : Jumpless no) :
    Jumpless (ifNext terminal yes no) := by
  refine (isNext terminal).bind fun b => ?_
  cases b with
  | true => exact hy
  | false => exact hn

theorem assignment (target : Expr) (equals : Token) (value : Expr) : Jumpless (assignment target equals value) := by
  cases target with
  | ref old => exact newSlot.map _
  | get object name => exact pure _
  | _ => exact (reportAt equals (by simp [SyntaxFault.IsMisplaced])).map _

theorem superclass : Jumpless superclass := by
  refine (acceptAny [.symbol .less]).bind fun less => ?_
  cases less with
  | none => exact pure _
  | some _ => exact (expectName .superclass).bind fun name => newSlot.map _

end Jumpless

/-! ## Expressions -/

structure ExprJumpless (n : Nat) : Prop where
  expression : ∀ l, Jumpless (expression n l)
  chain : ∀ l left, Jumpless (chain n l left)
  suffixes : ∀ e, Jumpless (suffixes n e)
  arguments : Jumpless (arguments n)
  moreArguments : ∀ count, Jumpless (moreArguments n count)
  primary : Jumpless (primary n)

/-- There is no jump in an expression, so none is reported. -/
theorem jumpless_expression (ih : ExprJumpless n) (l : Level) : Jumpless (expression (n + 1) l) := by
  have hchained : ∀ l l', Jumpless (do chain n l (← expression n l')) := fun l l' =>
    (ih.expression l').bind fun left => ih.chain l left
  cases l with
  | assignment =>
    refine (ih.expression .or_).bind fun target => (Jumpless.acceptAny [.symbol .equal]).bind fun equals => ?_
    cases equals with
    | none => exact .pure _
    | some equals => exact (ih.expression .assignment).bind fun value => .assignment target equals value
  | ternary =>
    refine (ih.expression .equality).bind fun cond => (Jumpless.acceptAny [.symbol .question]).bind fun question => ?_
    cases question with
    | none => exact .pure _
    | some _ =>
      refine (ih.expression .assignment).bind fun yes => (Jumpless.expect .colon _).bind fun _ => ?_
      exact (ih.expression .assignment).map _
  | unary =>
    refine (Jumpless.acceptAny unaryOperators).bind fun op => ?_
    cases op with
    | none => exact ih.expression .call
    | some op => exact (ih.expression .unary).map _
  | call => exact ih.primary.bind fun callee => ih.suffixes callee
  | comma => exact hchained .comma _
  | or_ => exact hchained .or_ _
  | and_ => exact hchained .and_ _
  | equality => exact hchained .equality _
  | comparison => exact hchained .comparison _
  | term => exact hchained .term _
  | factor => exact hchained .factor _

theorem jumpless_chain (ih : ExprJumpless n) (l : Level) (left : Expr) : Jumpless (chain (n + 1) l left) := by
  refine (Jumpless.acceptAny l.operators).bind fun op => ?_
  cases op with
  | none => exact .pure _
  | some op => exact (ih.expression l.tighter).bind fun right => ih.chain l _

theorem jumpless_suffixes (ih : ExprJumpless n) (e : Expr) : Jumpless (suffixes (n + 1) e) := by
  rw [suffixes]
  refine (Jumpless.acceptAny _).bind fun t => ?_
  split
  · exact .pure _
  · exact (Jumpless.expectName .property).bind fun name => ih.suffixes _
  · exact ih.arguments.bind fun args => (Jumpless.expect .rightParen _).bind fun paren => ih.suffixes _

theorem jumpless_arguments (ih : ExprJumpless n) : Jumpless (arguments (n + 1)) := by
  rw [arguments]
  refine .ifNext (.pure _) ?_
  exact (ih.expression .assignment).bind fun first => (ih.moreArguments 1).map _

theorem jumpless_moreArguments (ih : ExprJumpless n) (count : Nat) : Jumpless (moreArguments (n + 1) count) := by
  rw [moreArguments]
  refine (Jumpless.acceptAny [.symbol .comma]).bind fun comma => ?_
  cases comma with
  | none => exact .pure _
  | some _ =>
    have hnext := (ih.expression .assignment).bind fun next => (ih.moreArguments (count + 1)).map (next :: ·)
    dsimp only
    split
    · exact (Jumpless.report (by simp [SyntaxFault.IsMisplaced])).bind fun _ => hnext
    · exact hnext

theorem jumpless_primary (ih : ExprJumpless n) : Jumpless (primary (n + 1)) := by
  have hnone : Jumpless (raise .noExpression : Parse Expr) := .raise (by simp [SyntaxFault.IsMisplaced])
  rw [primary]
  refine Jumpless.peek.bind fun t => ?_
  split
  · exact hnone
  · split
    all_goals first
      | exact hnone
      | refine Jumpless.skip.bind fun _ => ?_
    all_goals try first
      | exact .pure _
      | exact Jumpless.newSlot.map _
    · exact (Jumpless.expect .dot _).bind fun _ => (Jumpless.expectName .superMethod).bind fun method =>
      Jumpless.newSlot.map _
    · exact (ih.expression .comma).bind fun inner => .closed _

theorem exprJumpless (n : Nat) : ExprJumpless n := by
  induction n with
  | zero =>
    exact ⟨fun _ => .outOfFuel, fun _ _ => .outOfFuel, fun _ => .outOfFuel, .outOfFuel, fun _ => .outOfFuel, .outOfFuel⟩
  | succ n ih =>
    exact ⟨jumpless_expression ih, jumpless_chain ih, jumpless_suffixes ih, jumpless_arguments ih,
      jumpless_moreArguments ih,
      jumpless_primary ih⟩

/-! ## Parts of statements -/

theorem jumpless_comma (n : Nat) : Jumpless (expression n .comma) := (exprJumpless n).expression .comma

theorem jumpless_optionalUnless (n : Nat) (terminal : Terminal) : Jumpless (optionalUnless n terminal) :=
  .ifNext (.pure none) ((jumpless_comma n).map some)

theorem jumpless_variable (n : Nat) : Jumpless (variable_ n) := by
  refine (Jumpless.expectName .variable_).bind fun name => (Jumpless.acceptAny [.symbol .equal]).bind fun equals => ?_
  cases equals with
  | none => exact (Jumpless.pure none).bind fun init => .closed _
  | some _ => exact (jumpless_comma n).bind fun value => (Jumpless.pure (some value)).bind fun init => .closed _

theorem jumpless_expressionStatement (n : Nat) : Jumpless (expressionStatement n) :=
  (jumpless_comma n).bind fun _ => .closed _

theorem jumpless_moreParameters (n count : Nat) : Jumpless (moreParameters n count) := by
  induction n generalizing count with
  | zero => exact .outOfFuel
  | succ n ih =>
    rw [moreParameters]
    refine (Jumpless.acceptAny [.symbol .comma]).bind fun comma => ?_
    cases comma with
    | none => exact .pure _
    | some _ =>
      have hnext := (Jumpless.expectName .parameter).bind fun next => (ih (count + 1)).map (next :: ·)
      dsimp only
      split
      · exact (Jumpless.report (by simp [SyntaxFault.IsMisplaced])).bind fun _ => hnext
      · exact hnext

theorem jumpless_parameters (n : Nat) : Jumpless (parameters n) :=
  .ifNext (.pure _) ((Jumpless.expectName .parameter).bind fun _ => (jumpless_moreParameters n 1).map _)

theorem jumpless_forInitializer (n : Nat) : Jumpless (forInitializer n) := by
  refine (Jumpless.acceptAny [.symbol .semicolon]).bind fun semicolon => ?_
  cases semicolon with
  | some _ => exact .pure _
  | none =>
    refine (Jumpless.acceptAny [.keyword .var]).bind fun var => ?_
    cases var with
    | some _ => exact (jumpless_variable n).map _
    | none => exact (jumpless_expressionStatement n).map _

/-! ## Calls -/

/-- The jump of the call is misplaced, and its error is this one. -/
def Call.Misplaces : Call → Diagnostic → Prop
  | ⟨.broken t, s⟩, e => s.loops = 0 ∧ e = fault t .strayBreak
  | ⟨.continued t, s⟩, e => s.loops = 0 ∧ e = fault t .strayContinue
  | _, _ => False

/-- The call comes to a misplaced jump with this error. -/
def Call.Reports (c : Call) (e : Diagnostic) : Prop := ∃ c', Comes c c' ∧ c'.Misplaces e

/-- The rule of the call answers for errors of `F` alone. -/
def Call.AccountsFor (c : Call) (F : Diagnostic → Prop) : Prop :=
  match c.rule with
  | .program n => Accounts F (program n) c.state
  | .declaration n => Accounts F (declaration n) c.state
  | .declarations n => Accounts F (declarations n) c.state
  | .block n => Accounts F (block n) c.state
  | .routine n kind => Accounts F (routine n kind) c.state
  | .class_ n => Accounts F (class_ n) c.state
  | .methods n => Accounts F (methods n) c.state
  | .statement n => Accounts F (statement n) c.state
  | .conditional n => Accounts F (conditional n) c.state
  | .while_ n => Accounts F (while_ n) c.state
  | .for_ n => Accounts F (for_ n) c.state
  | .broken t => Accounts F (broken t) c.state
  | .continued t => Accounts F (continued t) c.state

/-- The misplaced jumps that the call notes are those that it comes to. -/
def Call.Accounted (c : Call) : Prop := c.AccountsFor c.Reports

variable {c c' c'' : Call}

theorem Comes.head (h : Calls c c') (h' : Comes c' c'') : Comes c c'' := by
  induction h' with
  | refl => exact .step .refl h
  | step _ hcall ih => exact .step ih hcall

theorem Call.Reports.head {e : Diagnostic} (h : Calls c c') (he : c'.Reports e) : c.Reports e := by
  obtain ⟨d, hd, hm⟩ := he
  exact ⟨d, .head h hd, hm⟩

theorem Call.AccountsFor.mono {F F' : Diagnostic → Prop} (h : c.AccountsFor F) (hF : ∀ e, F e → F' e) :
    c.AccountsFor F' := by
  obtain ⟨rule, s⟩ := c
  cases rule <;> exact Accounts.mono h hF

/-- What is called accounts for its part. -/
theorem Call.Accounted.called (h : Calls c c') (hc : c'.Accounted) : c'.AccountsFor c.Reports :=
  hc.mono fun _ he => he.head h

/-- The calls that the rule makes account for their parts. -/
def Call.PartsAccounted (c : Call) : Prop := ∀ c', Calls c c' → c'.AccountsFor c.Reports

/-- A program accounts for its declarations. -/
theorem accounted_program (parts : Call.PartsAccounted ⟨.program (n + 1), s⟩) :
    Accounts (Call.Reports ⟨.program (n + 1), s⟩) (program (n + 1)) s := by
  rw [program]
  refine Jumpless.peek.andThen fun t s₁ ht => ?_
  cases ht
  cases hr : s.rest with
  | nil => exact .pure _
  | cons t rest =>
    have hs : s.rest ≠ [] := hr ▸ List.cons_ne_nil t rest
    refine Accounts.bind (parts _ (.program hs)) fun r s₂ hd => ?_
    have hrest := parts _ (.programRest hs hd)
    cases r with
    | some stmt => exact hrest.map _
    | none => exact hrest

theorem accounted_declaration (parts : Call.PartsAccounted ⟨.declaration (n + 1), s⟩) :
    Accounts (Call.Reports ⟨.declaration (n + 1), s⟩) (declaration (n + 1)) s := by
  rw [declaration]
  refine .recovering ((Jumpless.acceptAny _).andThen fun r s₁ hr => ?_)
  rcases acceptAny_ok.mp hr with ⟨⟨terminal, line⟩, rest, -, ht, rfl, -⟩ | ⟨-, rfl, -⟩
  · simp only [List.mem_cons, List.not_mem_nil, or_false] at ht
    rcases ht with rfl | rfl | rfl
    · exact parts _ (.class_ hr rfl)
    · exact .map (parts _ (.function hr rfl)) _
    · exact (jumpless_variable n).accounts _ _
  · exact parts _ (.statement hr)

theorem accounted_declarations (parts : Call.PartsAccounted ⟨.declarations (n + 1), s⟩) :
    Accounts (Call.Reports ⟨.declarations (n + 1), s⟩) (declarations (n + 1)) s := by
  rw [declarations]
  refine Jumpless.atClose.andThen fun b s₁ hb => ?_
  cases b with
  | true => exact .pure _
  | false =>
    refine Accounts.bind (parts _ (.declaration hb)) fun r s₂ hd => ?_
    have hrest := parts _ (.declarationsRest hb hd)
    cases r with
    | some stmt => exact hrest.map _
    | none => exact hrest

theorem accounted_block (parts : Call.PartsAccounted ⟨.block (n + 1), s⟩) :
    Accounts (Call.Reports ⟨.block (n + 1), s⟩) (block (n + 1)) s := by
  rw [block]
  exact Accounts.bind (parts _ .declarations) fun body s₁ _ => (Jumpless.closed body).accounts _ _

theorem accounted_routine {kind : RoutineKind} (parts : Call.PartsAccounted ⟨.routine (n + 1) kind, s⟩) :
    Accounts (Call.Reports ⟨.routine (n + 1) kind, s⟩) (routine (n + 1) kind) s := by
  rw [routine]
  refine (Jumpless.expectName _).andThen fun name s₁ h₁ => (Jumpless.expect .leftParen _).andThen fun t s₂ h₂ => ?_
  refine (jumpless_parameters n).andThen fun params s₃ h₃ => (Jumpless.expect .rightParen _).andThen fun t' s₄ h₄ => ?_
  refine (Jumpless.expect .leftBrace _).andThen fun t'' s₅ h₅ => ?_
  exact .map (.inRoutine (parts _ (.body h₁ h₂ h₃ h₄ h₅))) _

theorem accounted_class (parts : Call.PartsAccounted ⟨.class_ (n + 1), s⟩) :
    Accounts (Call.Reports ⟨.class_ (n + 1), s⟩) (class_ (n + 1)) s := by
  rw [class_]
  refine (Jumpless.expectName _).andThen fun name s₁ h₁ => Jumpless.superclass.andThen fun parent s₂ h₂ => ?_
  refine (Jumpless.expect .leftBrace _).andThen fun t s₃ h₃ => ?_
  exact Accounts.bind (parts _ (.methods h₁ h₂ h₃)) fun _ _ _ => (Jumpless.closed _).accounts _ _

theorem accounted_methods (parts : Call.PartsAccounted ⟨.methods (n + 1), s⟩) :
    Accounts (Call.Reports ⟨.methods (n + 1), s⟩) (methods (n + 1)) s := by
  rw [methods]
  refine Jumpless.atClose.andThen fun b s₁ hb => ?_
  cases b with
  | true => exact .pure _
  | false =>
    refine Accounts.bind (parts _ (.method hb)) fun r s₂ hr => ?_
    exact .map (parts _ (.methodsRest hb hr)) _

/-- A statement accounts for the rule that its first word selects. -/
theorem accounted_statement (parts : Call.PartsAccounted ⟨.statement (n + 1), s⟩) :
    Accounts (Call.Reports ⟨.statement (n + 1), s⟩) (statement (n + 1)) s := by
  rw [statement]
  refine (Jumpless.acceptAny _).andThen fun r s₁ hr => ?_
  rcases acceptAny_ok.mp hr with ⟨t, rest, -, ht, rfl, -⟩ | ⟨-, rfl, -⟩
  · simp only [statementStarts, List.mem_cons, List.not_mem_nil, or_false] at ht
    rcases ht with ht | ht | ht | ht | ht | ht | ht | ht
    all_goals simp only [ht]
    · exact (jumpless_comma n).andThen fun _ _ _ => (Jumpless.closed _).accounts _ _
    · exact .map (parts _ (.block hr ht)) _
    · exact parts _ (.conditional hr ht)
    · exact parts _ (.while_ hr ht)
    · exact parts _ (.for_ hr ht)
    · exact (jumpless_optionalUnless n _).andThen fun _ _ _ => (Jumpless.closed _).accounts _ _
    · exact parts _ (.broken hr ht)
    · exact parts _ (.continued hr ht)
  · exact (jumpless_expressionStatement n).accounts _ _

theorem accounted_conditional (parts : Call.PartsAccounted ⟨.conditional (n + 1), s⟩) :
    Accounts (Call.Reports ⟨.conditional (n + 1), s⟩) (conditional (n + 1)) s := by
  rw [conditional]
  refine (Jumpless.expect .leftParen _).andThen fun t s₁ h₁ => (jumpless_comma n).andThen fun test s₂ h₂ => ?_
  refine (Jumpless.expect .rightParen _).andThen fun t' s₃ h₃ => ?_
  refine Accounts.bind (parts _ (.yes h₁ h₂ h₃)) fun yes s₄ h₄ => ?_
  refine (Jumpless.acceptAny [.keyword .else_]).andThen fun r s₅ h₅ => ?_
  cases r with
  | none => exact .pure _
  | some t'' => exact .map (parts _ (.no h₁ h₂ h₃ h₄ h₅)) _

theorem accounted_while (parts : Call.PartsAccounted ⟨.while_ (n + 1), s⟩) :
    Accounts (Call.Reports ⟨.while_ (n + 1), s⟩) (while_ (n + 1)) s := by
  rw [while_]
  refine (Jumpless.expect .leftParen _).andThen fun t s₁ h₁ => (jumpless_comma n).andThen fun test s₂ h₂ => ?_
  refine (Jumpless.expect .rightParen _).andThen fun t' s₃ h₃ => ?_
  exact .map (.inLoop (parts _ (.whileBody h₁ h₂ h₃))) _

theorem accounted_for (parts : Call.PartsAccounted ⟨.for_ (n + 1), s⟩) :
    Accounts (Call.Reports ⟨.for_ (n + 1), s⟩) (for_ (n + 1)) s := by
  rw [for_]
  refine (Jumpless.expect .leftParen _).andThen fun t s₁ h₁ => (jumpless_forInitializer n).andThen fun init s₂ h₂ => ?_
  refine (jumpless_optionalUnless n _).andThen fun test s₃ h₃ =>
    (Jumpless.expect .semicolon _).andThen fun t' s₄ h₄ => ?_
  refine (jumpless_optionalUnless n _).andThen fun step s₅ h₅ =>
    (Jumpless.expect .rightParen _).andThen fun t'' s₆ h₆ => ?_
  exact .map (.inLoop (parts _ (.forBody h₁ h₂ h₃ h₄ h₅ h₆))) _

/-- A jump answers for itself. -/
theorem accounted_broken (t : Token) (s : State) : Accounts (Call.Reports ⟨.broken t, s⟩) (broken t) s :=
  (Accounts.checkLoop fun hl => ⟨_, .refl, hl, rfl⟩).bind fun _ _ _ => (Jumpless.closed _).accounts _ _

theorem accounted_continued (t : Token) (s : State) : Accounts (Call.Reports ⟨.continued t, s⟩) (continued t) s :=
  (Accounts.checkLoop fun hl => ⟨_, .refl, hl, rfl⟩).bind fun _ _ _ => (Jumpless.closed _).accounts _ _

/-- The bound on the nesting of rules below the call. -/
def Rule.bound : Rule → Nat
  | .program n | .declaration n | .declarations n | .block n | .routine n _ | .class_ n | .methods n | .statement n
  | .conditional n | .while_ n | .for_ n => n
  | .broken _ | .continued _ => 0

theorem calls_bound (h : Calls c c') : c'.rule.bound < c.rule.bound := by
  cases h <;> simp [Rule.bound]

/-- Every call accounts for its misplaced jumps, and leaves the loops as they were. -/
theorem accounted (c : Call) : c.Accounted := by
  obtain ⟨m, hm⟩ : ∃ m, c.rule.bound = m := ⟨_, rfl⟩
  induction m using Nat.strongRecOn generalizing c with
  | _ m ih =>
    have hparts : c.PartsAccounted := fun c' h => Call.Accounted.called h (ih _ (hm ▸ calls_bound h) c' rfl)
    obtain ⟨rule, s⟩ := c
    cases rule with
    | broken t => exact accounted_broken t s
    | continued t => exact accounted_continued t s
    | program n => cases n with
      | zero => exact .outOfFuel
      | succ n => exact accounted_program hparts
    | declaration n => cases n with
      | zero => exact .outOfFuel
      | succ n => exact accounted_declaration hparts
    | declarations n => cases n with
      | zero => exact .outOfFuel
      | succ n => exact accounted_declarations hparts
    | block n => cases n with
      | zero => exact .outOfFuel
      | succ n => exact accounted_block hparts
    | routine n kind => cases n with
      | zero => exact .outOfFuel
      | succ n => exact accounted_routine hparts
    | class_ n => cases n with
      | zero => exact .outOfFuel
      | succ n => exact accounted_class hparts
    | methods n => cases n with
      | zero => exact .outOfFuel
      | succ n => exact accounted_methods hparts
    | statement n => cases n with
      | zero => exact .outOfFuel
      | succ n => exact accounted_statement hparts
    | conditional n => cases n with
      | zero => exact .outOfFuel
      | succ n => exact accounted_conditional hparts
    | while_ n => cases n with
      | zero => exact .outOfFuel
      | succ n => exact accounted_while hparts
    | for_ n => cases n with
      | zero => exact .outOfFuel
      | succ n => exact accounted_for hparts

end Grammar

end Lox
