/-
  Lox.Proofs.Printed.Unambiguous — programs that are printed alike are the same but for lines
  and slots (`printed_unambiguous`), for all programs that are read from texts, with errors
  or without.

  Printed alike, they are made of the same pieces (`Printed.split_lines`), and what they are
  made of is read back as the program without lines and slots (`Printed.bareStmts_printed`).
-/

import Lox.Proofs.Grammar.Spelled
import Lox.Proofs.Printed.Reading

namespace Lox

variable {p q : List Stmt}

/-- Of numbers that are told apart by their texts each is known from its text. -/
theorem known_of_injective {xs : List Float} (hfinite : ∀ x ∈ xs, Number.IsFinite x)
    (hnumbers : ∀ x ∈ xs, ∀ y ∈ xs, Number.plain x = Number.plain y → x = y) :
    ∃ value : String → Float, ∀ x ∈ xs, Printed.Known value x := by
  refine ⟨fun w => (xs.find? fun x => Number.plain x = w).getD 0, fun x hx => ⟨hfinite x hx, ?_⟩⟩
  cases hfind : xs.find? fun y => Number.plain y = Number.plain x with
  | none => exact absurd (decide_eq_true rfl) (List.find?_eq_none.mp hfind x hx)
  | some y =>
    have hsame : Number.plain y = Number.plain x := by simpa using List.find?_some hfind
    dsimp only
    rw [hfind]
    exact hnumbers y (List.mem_of_find?_eq_some hfind) x hx hsame

/-- Equal printed forms come from trees that are equal up to slots and lines. -/
theorem bareAll_of_printed (hp : Stmt.SpelledAll Grammar.anyNumber p) (hq : Stmt.SpelledAll Grammar.anyNumber q)
    (hfinite : ∀ x ∈ Stmt.numbersAll p ++ Stmt.numbersAll q, Number.IsFinite x)
    (hnumbers : ∀ x ∈ Stmt.numbersAll p ++ Stmt.numbersAll q, ∀ y ∈ Stmt.numbersAll p ++ Stmt.numbersAll q,
      Number.plain x = Number.plain y → x = y)
    (h : printProgram p = printProgram q) : Stmt.bareAll p = Stmt.bareAll q := by
  obtain ⟨value, hknown⟩ := known_of_injective hfinite hnumbers
  obtain ⟨hknown, hknown'⟩ := List.forall_mem_append.mp hknown
  have hspelled := spelled_stmts p hp hknown
  have hspelled' := spelled_stmts q hq hknown'
  have hisFinite : ∀ x, Printed.Known value x → Number.IsFinite x := fun _ hx => hx.1
  have hpieces : Stmt.printedAll p = Stmt.printedAll q := by
    refine Printed.split_lines (Printed.clear_stmts hisFinite p hspelled) (Printed.clear_stmts hisFinite q hspelled') ?_
    rw [← Printed.toList_printProgram, ← Printed.toList_printProgram, h]
  rw [← Printed.bareStmts_printed p hspelled, ← Printed.bareStmts_printed q hspelled', hpieces]

/-- The printed form is unambiguous, as far as the texts of numbers are. -/
theorem printed_unambiguous (a b : String) (k k' : Int)
    (hfinite : ∀ x ∈
      Stmt.numbersAll (parse (tokenize a).1 k).program ++ Stmt.numbersAll (parse (tokenize b).1 k').program,
      Number.IsFinite x)
    (hnumbers : ∀ x ∈
      Stmt.numbersAll (parse (tokenize a).1 k).program ++ Stmt.numbersAll (parse (tokenize b).1 k').program,
      ∀ y ∈ Stmt.numbersAll (parse (tokenize a).1 k).program ++ Stmt.numbersAll (parse (tokenize b).1 k').program,
        Number.plain x = Number.plain y → x = y)
    (h : printProgram (parse (tokenize a).1 k).program = printProgram (parse (tokenize b).1 k').program) :
    Stmt.bareAll (parse (tokenize a).1 k).program = Stmt.bareAll (parse (tokenize b).1 k').program :=
  bareAll_of_printed (parse_spelled (fun _ => tokenize_spelled) k) (parse_spelled (fun _ => tokenize_spelled) k')
    hfinite hnumbers h

/-- A text with an error in it, and one without the part that is given up. -/
theorem printed_unambiguous_recovered :
    Stmt.bareAll (parse (tokenize "print 1 + 2.5; var = 3; print a;").1 0).program =
      Stmt.bareAll (parse (tokenize "print 1\n+ 2.50;\nprint a;").1 7).program := by
  refine printed_unambiguous _ _ 0 7 ?_ ?_ ?_
  · decide +kernel
  · decide +kernel
  · decide +kernel

end Lox
