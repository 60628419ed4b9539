/-
  Lox.Proofs.Scope.Heard — what walking an expression does to the accounts of the open scopes.

  Each variable settles the account of its name, unless that one is still pending: then it
  stands in its own initializer, which is an error and no reading (`heard_expr`). Between
  statements no account is pending (`Balanced`), and all variables are read.
-/

import Lox.Proofs.Scope.Ledger

namespace Lox

open Ledger Resolver

variable {ls rest : List Ledger} {l : Ledger} {xs : List String} {vs vs' : List Lexeme} {found : List Diagnostic}
  {r r₁ r' : Resolver}

/-! ## Accounts in order -/

/-- `this` and `super` are never due. -/
def Account.IsQuiet (e : Account) : Prop := IsReserved e.name → e.due = none

/-- All declarations are complete, too. -/
def Account.IsBalanced (e : Account) : Prop := e.pending = false ∧ e.IsQuiet

/-- Neither pending nor due. -/
def Account.IsIdle (e : Account) : Prop := e.pending = false ∧ e.due = none

theorem Account.IsIdle.balanced {e : Account} (h : e.IsIdle) : e.IsBalanced := ⟨h.1, fun _ => h.2⟩

def Everywhere (P : Account → Prop) (ls : List Ledger) : Prop := ∀ l ∈ ls, ∀ e ∈ l, P e

theorem everywhere_cons {P : Account → Prop} : Everywhere P (l :: ls) ↔ (∀ e ∈ l, P e) ∧ Everywhere P ls :=
  List.forall_mem_cons

theorem Everywhere.mono {P Q : Account → Prop} (h : Everywhere P ls) (hpq : ∀ e, P e → Q e) : Everywhere Q ls :=
  fun l hl e he => hpq e (h l hl e he)

theorem forall_settle {P : Account → Prop} (hP : ∀ e, P e → P { e with due := none }) (h : ∀ e ∈ l, P e)
    (xs : List String) : ∀ e ∈ settle xs l, P e := by
  intro e he
  obtain ⟨e₀, he₀, rfl⟩ := List.mem_map.mp he
  by_cases hx : e₀.name ∈ xs
  · simpa [hx] using hP e₀ (h e₀ he₀)
  · simpa [hx] using h e₀ he₀

theorem Everywhere.marks {P : Account → Prop} (hP : ∀ e, P e → P { e with due := none }) (h : Everywhere P ls)
    (xs : List String) : Everywhere P (marks xs ls) := by
  induction ls generalizing xs with
  | nil => exact h
  | cons l rest ih =>
    obtain ⟨hl, hrest⟩ := everywhere_cons.mp h
    exact everywhere_cons.mpr ⟨forall_settle hP hl xs, ih hrest _⟩

abbrev Quiet (r : Resolver) : Prop := Everywhere Account.IsQuiet (ledgers r.scopes)

abbrev Balanced (r : Resolver) : Prop := Everywhere Account.IsBalanced (ledgers r.scopes)

theorem Balanced.quiet (h : Balanced r) : Quiet r := h.mono fun _ he => he.2

namespace Resolver.Heard

theorem quiet (h : Heard xs found r r') (hq : Quiet r) : Quiet r' := by
  unfold Quiet
  rw [h.ledgers]
  exact hq.marks (fun _ _ _ => rfl) xs

theorem balanced (h : Heard xs found r r') (hs : Balanced r) : Balanced r' := by
  unfold Balanced
  rw [h.ledgers]
  exact hs.marks (fun _ he => ⟨he.1, fun _ => rfl⟩) xs

end Resolver.Heard

/-! ## Expressions -/

/-- The names of the variables that read a declaration. -/
def live (ls : List Ledger) (vs : List Lexeme) : List String := (vs.filter fun v => !pendingIn v.text ls).map (·.text)

/-- The errors at the variables whose declaration is still pending. -/
def early (ls : List Ledger) (vs : List Lexeme) : List Diagnostic :=
  (vs.filter fun v => pendingIn v.text ls).map (·.faulty .ownInitializer)

theorem live_append (ls : List Ledger) (vs vs' : List Lexeme) : live ls (vs ++ vs') = live ls vs ++ live ls vs' := by
  simp [live]

theorem early_append (ls : List Ledger) (vs vs' : List Lexeme) :
    early ls (vs ++ vs') = early ls vs ++ early ls vs' := by
  simp [early]

/-- These variables have been resolved. -/
abbrev HeardAll (vs : List Lexeme) (r r' : Resolver) : Prop :=
  Heard (live (ledgers r.scopes) vs) (early (ledgers r.scopes) vs) r r'

namespace HeardAll

theorem trans (h : HeardAll vs r r₁) (h' : HeardAll vs' r₁ r') : HeardAll (vs ++ vs') r r' := by
  have hsame : ∀ x, pendingIn x (ledgers r₁.scopes) = pendingIn x (ledgers r.scopes) := fun x => by
    rw [h.ledgers, pendingIn_marks]
  unfold HeardAll at h h' ⊢
  rw [live_append, early_append]
  have hlive : live (ledgers r₁.scopes) vs' = live (ledgers r.scopes) vs' := by simp only [live, hsame]
  have hearly : early (ledgers r₁.scopes) vs' = early (ledgers r.scopes) vs' := by simp only [early, hsame]
  rw [← hlive, ← hearly]
  exact h.trans h'

end HeardAll

namespace Resolver

/-- A variable that is read is marked in the nearest scope that has it. -/
theorem heard_readVariable (r : Resolver) (target : Reference) : HeardAll [target.name] r (r.readVariable target) := by
  unfold HeardAll readVariable
  rw [isPending_eq]
  cases hp : pendingIn target.name.text (ledgers r.scopes) with
  | true =>
    have hlive : live (ledgers r.scopes) [target.name] = [] := by simp [live, hp]
    have hearly : early (ledgers r.scopes) [target.name] = [target.name.faulty .ownInitializer] := by simp [early, hp]
    rw [hlive, hearly]
    exact ⟨(marks_nil _).symm, noted_report r target.name .ownInitializer⟩
  | false =>
    have hlive : live (ledgers r.scopes) [target.name] = [target.name.text] := by simp [live, hp]
    have hearly : early (ledgers r.scopes) [target.name] = [] := by simp [early, hp]
    rw [hlive, hearly]
    exact heard_read r target

/-- A name that no program declares. -/
theorem heard_keyword (hq : Quiet r) (target : Reference) (h : IsReserved target.name.text) :
    Heard [] [] r (r.read target) := by
  have hread := heard_read r target
  refine ⟨?_, hread.noted⟩
  have hnone := marks_without (x := target.name.text) (fun l hl e he hx => hq l hl e he (hx ▸ h)) [target.name.text]
  rw [hread.ledgers, ← hnone]
  simp

theorem heard_this (hq : Quiet r) {keyword : Reference} (h : keyword.name.text = thisName) :
    Heard [] [] r (r.this keyword) := by
  unfold this
  split
  · exact heard_report r _ rfl
  · exact heard_keyword hq keyword (Or.inl h)

theorem heard_super (hq : Quiet r) {keyword : Reference} (h : keyword.name.text = superName) :
    Heard [] [] r (r.super keyword) := by
  unfold super
  split
  · exact heard_report r _ rfl
  · exact heard_report r _ rfl
  · exact heard_keyword hq keyword (Or.inr h)

mutual

/-- An expression marks the variables that it reads. -/
theorem heard_expr : ∀ (e : Expr), e.Tidy → ∀ {r}, Quiet r → HeardAll e.refs r (expr e r)
  | .literal _, _, r, _ => .refl r
  | .group inner, h, _, hq => heard_expr inner h hq
  | .unary _ operand, h, _, hq => heard_expr operand h hq
  | .binary left _ right, h, _, hq =>
    have hleft := heard_expr left h.1 hq
    HeardAll.trans hleft (heard_expr right h.2 (hleft.quiet hq))
  | .logical left _ right, h, _, hq =>
    have hleft := heard_expr left h.1 hq
    HeardAll.trans hleft (heard_expr right h.2 (hleft.quiet hq))
  | .ternary cond yes no, h, _, hq =>
    have hcond := heard_expr cond h.1 hq
    have hyes := heard_expr yes h.2.1 (hcond.quiet hq)
    HeardAll.trans hcond (HeardAll.trans hyes (heard_expr no h.2.2 (hyes.quiet (hcond.quiet hq))))
  | .ref target, _, r, _ => heard_readVariable r target
  | .assign target value, h, _, hq => (heard_expr value h.2 hq).before (heard_write _ target)
  | .call callee _ args, h, _, hq =>
    have hcallee := heard_expr callee h.1 hq
    HeardAll.trans hcallee (heard_exprs args h.2 (hcallee.quiet hq))
  | .get object _, h, _, hq => heard_expr object h hq
  | .set object _ value, h, _, hq =>
    have hvalue := heard_expr value h.2 hq
    HeardAll.trans hvalue (heard_expr object h.1 (hvalue.quiet hq))
  | .this _, h, _, hq => heard_this hq h
  | .super _ _, h, _, hq => heard_super hq h

theorem heard_exprs : ∀ (es : List Expr), Expr.TidyAll es → ∀ {r}, Quiet r →
    HeardAll (Expr.refsAll es) r (exprs es r)
  | [], _, r, _ => .refl r
  | e :: rest, h, _, hq =>
    have hfirst := heard_expr e h.1 hq
    HeardAll.trans hfirst (heard_exprs rest h.2 (hfirst.quiet hq))

end

theorem heard_exprOpt {e : Option Expr} (h : Expr.TidyOpt e) (hq : Quiet r) :
    HeardAll (Expr.refsOpt e) r (exprOpt e r) := by
  cases e with
  | none => exact .refl r
  | some e => exact heard_expr e (h e rfl) hq

/-- Where no declaration is pending, every variable reads one. -/
theorem live_balanced (h : Everywhere Account.IsBalanced ls) (vs : List Lexeme) :
    live ls vs = vs.map (·.text) ∧ early ls vs = [] := by
  have hnone : ∀ x, pendingIn x ls = false := by
    intro x
    cases ls with
    | nil => rfl
    | cons l rest =>
      have hl := (everywhere_cons.mp h).1
      show (l.find? _).any _ = false
      cases hf : l.find? (·.name = x) with
      | none => rfl
      | some e => exact (hl e (List.mem_of_find?_eq_some hf)).1
  simp [live, early, hnone]

theorem heard_effect {e : Expr} (h : e.Tidy) (hs : Balanced r) : Heard e.reads [] r (expr e r) := by
  have hall := heard_expr e h hs.quiet
  obtain ⟨hlive, hearly⟩ := live_balanced hs e.refs
  unfold HeardAll at hall
  rw [hlive, hearly] at hall
  exact hall

theorem heard_effectOpt {e : Option Expr} (h : Expr.TidyOpt e) (hs : Balanced r) :
    Heard (Expr.readsOpt e) [] r (exprOpt e r) := by
  cases e with
  | none => exact .refl r
  | some e => exact heard_effect (h e rfl) hs

/-- A `return` marks nothing. -/
theorem heard_checkReturn (r : Resolver) (keyword : Lexeme) (hasValue : Bool) :
    Heard [] [] r (r.checkReturn keyword hasValue) := by
  unfold checkReturn
  split
  · exact heard_report r _ rfl
  · split
    · exact heard_report r _ rfl
    · exact .refl r
  · exact .refl r

end Resolver

end Lox
