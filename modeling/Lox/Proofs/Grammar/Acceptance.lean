/-
  Lox.Proofs.Grammar.Acceptance — which token lists are read without an error, and into
  which tree.

  The rules take the first alternative that fits the next token and never go back, and
  the grammar is ambiguous; still they accept exactly the lists that it derives
  (`accepts_iff_derives`). The tree is the one reading of the list (`tree_reads`): its
  tokens are those of the list in order, every operand is a phrase of the level that its
  production names, chains group to the left and assignments to the right, an `else`
  belongs to the nearest `if` without one, and no left operand of an `and` or `or` ends in
  a ternary that no parentheses close.
-/

import Lox.Proofs.Grammar.Ambiguity
import Lox.Proofs.Grammar.Programs

namespace Lox

open Grammar

/-- A list of tokens is read without an error exactly if the grammar derives it, with its
bounds on parameters and arguments and its places for `break` and `continue`. -/
theorem accepts_iff_derives (tokens : Tokens) (firstSlot : Int) :
    (parse tokens firstSlot).errors = [] ↔ Derives .program tokens.items := by
  constructor
  · intro h
    exact derives_program (reads_of_parse h)
  · intro h
    obtain ⟨ss, k', hread⟩ := reads_of_derives h firstSlot
    rw [parse_of_reads hread]

/-- The tree of an accepted list is its one reading, with the slots that reading it takes. -/
theorem tree_reads (tokens : Tokens) (firstSlot : Int) (h : (parse tokens firstSlot).errors = []) :
    ReadsStmt (.declarations false (parse tokens firstSlot).program) firstSlot tokens.items
        (parse tokens firstSlot).nextSlot ∧
      ∀ ss k, ReadsStmt (.declarations false ss) firstSlot tokens.items k →
        ss = (parse tokens firstSlot).program ∧ k = (parse tokens firstSlot).nextSlot := by
  refine ⟨reads_of_parse h, fun ss k hread => ?_⟩
  rw [parse_of_reads hread]
  exact ⟨rfl, rfl⟩

/-- The text `if (a) if (b) c; else d ? a : b and c;`, whose `else` and `and` could stand in two places. -/
def danglingElse : Tokens where
  items := [.keyword .if_, .symbol .leftParen, .ident "a", .symbol .rightParen, .keyword .if_, .symbol .leftParen,
    .ident "b", .symbol .rightParen, .ident "c", .symbol .semicolon, .keyword .else_, .ident "d", .symbol .question,
    .ident "a", .symbol .colon, .ident "b", .keyword .and_, .ident "c", .symbol .semicolon].map fun t => ⟨t, 1⟩
  endLine := 1

/-- The `else` goes to the inner `if`, and the `and` into the last branch of the ternary. -/
theorem tree_reads_danglingElse : (parse danglingElse 0).errors = [] ∧
    ReadsStmt (.declarations false (parse danglingElse 0).program) 0 danglingElse.items
      (parse danglingElse 0).nextSlot := by
  have h : (parse danglingElse 0).errors = [] := by decide +kernel
  exact ⟨h, (tree_reads danglingElse 0 h).1⟩

end Lox
