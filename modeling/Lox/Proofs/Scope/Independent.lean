/-
  Lox.Proofs.Scope.Independent — statements are resolved independently of each other
  (`statements_independent`): two lists of statements that are read one after the other
  with one counter of slots have, one behind the other, the errors of the first before
  those of the second, and in the table the distances of both.

  For whatever a statement does to the resolver on its way, behind it the resolver stands
  where it stood (`Framed`), errors or not, and it never looks for a declaration or a scope
  that is not there (`stmt?_eq`).
-/

import Lox.Proofs.Grammar.Piecewise
import Lox.Proofs.Grammar.Slots
import Lox.Proofs.Scope.Shifted

namespace Lox

variable {p q : List Stmt}

theorem distances_apart (h : ∀ x ∈ Stmt.slotsAll p, x ∉ Stmt.slotsAll q) (x : Int) :
    (resolve p).distances[x]? = none ∨ (resolve q).distances[x]? = none := by
  by_cases hx : x ∈ Stmt.slotsAll p
  · exact Or.inr (resolve_outside (h x hx))
  · exact Or.inl (resolve_outside hx)

/-- What is read from any slot on, behind a program. -/
theorem resolve_behind (p : List Stmt) (tokens : Tokens) (k : Int) :
    (resolve (p ++ (parse tokens k).program)).errors = (resolve p).errors ++ (resolve (parse tokens k).program).errors ∧
      ∀ x : Int, (resolve (p ++ (parse tokens k).program)).distances[x]? =
        ((resolve (parse tokens k).program).distances[x]?).or (resolve p).distances[x]? := by
  -- The same is read from slot 0 on, but for its slots.
  rw [(parse_from tokens k).1]
  have happend := resolve_append p (parse tokens 0).program (.bySlots k)
  have hshift := resolve_shift (.bySlots k) (parse tokens 0).program
  refine ⟨by rw [happend.1, hshift.1], fun x => ?_⟩
  have hx : x - k + (Shift.bySlots k).slots = x := Int.sub_add_cancel x k
  have hboth := happend.2 (x - k)
  have hlast := hshift.2 (x - k)
  rw [hx] at hboth hlast
  rw [hboth, hlast]

/-- Statements are resolved independently. For any two token lists, the second read with the
slots behind those of the first, errors come one after the other and the tables are put
together, without a slot in both. For any statement and any state of the resolver, what is
around the statement stays as it was, and no completion and no closing fails. -/
theorem statements_independent :
    (∀ (tokens tokens' : Tokens) (k : Int),
      let p := (parse tokens k).program
      let q := (parse tokens' (parse tokens k).nextSlot).program
      (resolve (p ++ q)).errors = (resolve p).errors ++ (resolve q).errors ∧
      (∀ x : Int, (resolve (p ++ q)).distances[x]? = ((resolve p).distances[x]?).or (resolve q).distances[x]?) ∧
      ∀ x : Int, (resolve p).distances[x]? = none ∨ (resolve q).distances[x]? = none) ∧
    (∀ s r, Resolver.Framed s.slots s.owns r (Resolver.stmt s r)) ∧
    ∀ s r, Resolver.stmt? s r = some (Resolver.stmt s r) := by
  refine ⟨fun tokens tokens' k => ?_, Resolver.framed_stmt, Resolver.stmt?_eq⟩
  intro p q
  have hp : Ranged k (parse tokens k).nextSlot (Stmt.slotsAll p) := parse_ranged tokens k
  have hq : Ranged (parse tokens k).nextSlot _ (Stmt.slotsAll q) := parse_ranged tokens' _
  have hapart := @distances_apart p q fun x hx hx' => by
    have hlow := (hp.2.2 x hx).2
    have hhigh := (hq.2.2 x hx').1
    omega
  have hbehind := resolve_behind p tokens' (parse tokens k).nextSlot
  refine ⟨hbehind.1, fun x => (hbehind.2 x).trans ?_, hapart⟩
  rcases hapart x with h | h
  · rw [h, Option.or_none, Option.none_or]
  · rw [h, Option.or_none, Option.none_or]

end Lox
