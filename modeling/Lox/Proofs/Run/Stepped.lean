/-
  Lox.Proofs.Run.Stepped — the step of a loop at the end of its body.

  A statement completes with `continued` only if a `continue` of its own does
  (`contains_of_continued`). So a body that has none either leaves the loop or completes
  normally, and a step that follows it may as well be a part of it (`rounds_stepped`).
-/

import Lox.Execution
import Lox.Proofs.Run.Safe
import Lox.Proofs.Tree.Parts

namespace Lox

open Eval

variable {host : Host} {enter : Enter} {m m' : Machine}

/-! ## Where a `continue` comes from -/

/-- A loop takes in its own. -/
theorem rounds_not_continued {test : Eval Bool} {body : Eval Completion} {step : Eval Value} {n : Nat} :
    rounds test body step n m ≠ .ok .continued m' := by
  induction n generalizing m with
  | zero => exact fun h => by cases h
  | succ n ih =>
    intro h
    obtain ⟨yes, m₁, -, h⟩ := of_bind_ok h
    cases yes with
    | false => cases h
    | true =>
      obtain ⟨left, m₂, -, h⟩ := of_bind_ok h
      cases left with
      | broken | returned => cases h
      | normal | continued =>
        obtain ⟨v, m₃, -, h⟩ := of_bind_ok h
        exact ih h

/-- What always completes normally. -/
theorem normal_not_continued {a : Eval Unit} :
    (do a; return Completion.normal : Eval Completion) m ≠ .ok .continued m' := by
  intro h
  obtain ⟨-, m₁, -, h⟩ := of_bind_ok h
  cases h

mutual

/-- A statement that ends by `continue` contains one that is not in a loop of its own. -/
theorem contains_of_continued (s : Stmt) {room : Nat} {m m' : Machine}
    (h : stmt host enter room s m = .ok .continued m') :
    ∃ keyword, s.Contains false (.continue_ keyword) := by
  obtain ⟨room, rfl⟩ := room_of_stmt h
  cases s with
  | expr =>
    obtain ⟨v, m₁, -, h⟩ := of_bind_ok h
    cases h
  | print_ | var =>
    obtain ⟨v, m₁, -, h⟩ := of_bind_ok h
    exact absurd h normal_not_continued
  | block body =>
    obtain ⟨left, -, h⟩ := of_deeper_ok (show deeper room _ m = _ from h)
    obtain ⟨m₁, m₂, -, h⟩ := of_bind_ok h
    obtain ⟨env, m₃, -, h⟩ := of_bind_ok h
    obtain ⟨m₄, h, -⟩ := of_inside_ok h
    obtain ⟨s, hs, keyword, hc⟩ := contains_of_continued_stmts body h
    exact ⟨keyword, .block hs hc⟩
  | cond c yes no =>
    obtain ⟨t, m₁, -, h⟩ := of_bind_ok h
    cases t with
    | true =>
      obtain ⟨keyword, hc⟩ := contains_of_continued yes h
      exact ⟨keyword, .yes hc⟩
    | false =>
      cases no with
      | none => cases h
      | some no =>
        obtain ⟨keyword, hc⟩ := contains_of_continued no h
        exact ⟨keyword, .no hc⟩
  | loop =>
    obtain ⟨left, -, h⟩ := of_deeper_ok (show deeper room _ m = _ from h)
    exact absurd h rounds_not_continued
  | break_ => cases h
  | continue_ keyword => exact ⟨keyword, .self⟩
  | fun_ =>
    obtain ⟨-, h⟩ := of_needs_ok (show needs 1 room _ m = _ from h)
    obtain ⟨m₁, m₂, -, h⟩ := of_bind_ok h
    obtain ⟨v, m₃, -, h⟩ := of_bind_ok h
    exact absurd h normal_not_continued
  | return_ =>
    obtain ⟨v, m₁, -, h⟩ := of_bind_ok h
    cases (of_needs_ok h).2
  | class_ =>
    obtain ⟨left, -, h⟩ := of_deeper_ok (show deeper room _ m = _ from h)
    exact absurd h normal_not_continued

/-- So does a list of statements. -/
theorem contains_of_continued_stmts (ss : List Stmt) {room : Nat} {m m' : Machine}
    (h : stmts host enter room ss m = .ok .continued m') :
    ∃ s ∈ ss, ∃ keyword, s.Contains false (.continue_ keyword) := by
  cases ss with
  | nil => cases h
  | cons s rest =>
    obtain ⟨left, m₁, hs, h⟩ := of_bind_ok h
    cases left with
    | normal =>
      obtain ⟨t, ht, hc⟩ := contains_of_continued_stmts rest h
      exact ⟨t, List.mem_cons_of_mem _ ht, hc⟩
    | continued => exact ⟨s, List.mem_cons_self .., contains_of_continued s hs⟩
    | broken | returned => cases h

end

/-! ## Steps -/

/-- A body with the step behind it, unless the body leaves the loop. -/
def Eval.stepped (body : Eval Completion) (step : Eval Value) : Eval Completion := do
  match ← body with
  | .normal =>
    let _ ← step
    return .normal
  | left => return left

/-- A step may be moved to the end of a body that is never left by `continue`. -/
theorem rounds_stepped {test : Eval Bool} {body : Eval Completion} {step : Eval Value}
    (h : ∀ m m', body m ≠ .ok .continued m') (n : Nat) :
    rounds test body step n = rounds test (stepped body step) (return .nil) n := by
  induction n with
  | zero => rfl
  | succ n ih =>
    funext m
    unfold rounds
    cases ht : test m with
    | error fault m₁ => rw [bind_error ht, bind_error ht]
    | ok yes m₁ =>
      rw [bind_ok ht, bind_ok ht]
      cases yes with
      | false => rfl
      | true =>
        simp only [if_true]
        cases hb : body m₁ with
        | error fault m₂ =>
          have hstepped : stepped body step m₁ = .error fault m₂ := bind_error hb _
          rw [bind_error hb, bind_error hstepped]
        | ok left m₂ =>
          rw [bind_ok hb]
          cases left with
          | continued => exact absurd hb (h m₁ m₂)
          | broken =>
            have hstepped : stepped body step m₁ = .ok .broken m₂ := bind_ok hb _
            rw [bind_ok hstepped]
          | returned v =>
            have hstepped : stepped body step m₁ = .ok (.returned v) m₂ := bind_ok hb _
            rw [bind_ok hstepped]
          | normal =>
            cases hs : step m₂ with
            | error fault m₃ =>
              have hstepped : stepped body step m₁ = .error fault m₃ := (bind_ok hb _).trans (bind_error hs _)
              exact (bind_error hs _).trans (bind_error hstepped _).symm
            | ok v m₃ =>
              have hstepped : stepped body step m₁ = .ok .normal m₃ := (bind_ok hb _).trans (bind_ok hs _)
              refine (bind_ok hs _).trans (Eq.trans ?_ (bind_ok hstepped _).symm)
              rw [ih]
              rfl

end Lox
