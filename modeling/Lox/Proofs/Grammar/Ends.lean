/-
  Lox.Proofs.Grammar.Ends — reading a list of tokens always ends, and stays in the list
  (`reading_ends_inside`).

  Whatever the tokens are, every declaration that is called while they are read starts
  before the end of the text and ends further on, read or given up, and not behind the end.
  So the program comes to the end, with no error raised out of it; read by position, it
  asks for no element outside of the list. The bound that `parse` gives is never used up,
  and any that is deeper gives the same.
-/

import Lox.Proofs.Grammar.Calls
import Lox.Proofs.Grammar.Positions

namespace Lox

open Grammar

namespace Grammar

variable {n : Nat} {s s' : State} {tokens : Tokens} {c : Cursor}

/-! ## Positions -/

/-- A place that is not before a position in the list is a position in the list. -/
theorem Onward.position (h : Onward (c.state tokens) s') :
    ∃ c' : Cursor, s' = c'.state tokens ∧ c'.position = tokens.items.length - s'.rest.length ∧
      c'.position ≤ tokens.items.length := by
  obtain ⟨hsuffix, hend⟩ := h
  have hitems : s'.rest <:+ tokens.items := hsuffix.trans (List.drop_suffix ..)
  let c' : Cursor := ⟨tokens.items.length - s'.rest.length, s'.nextSlot, s'.loops, s'.errors⟩
  refine ⟨c', ?_, rfl, Nat.sub_le ..⟩
  have hrest : s'.rest = tokens.items.drop c'.position := List.suffix_iff_eq_drop.mp hitems
  obtain ⟨rest, endLine, nextSlot, loops, errors⟩ := s'
  simp only [Cursor.state, State.mk.injEq]
  exact ⟨hrest, hend, rfl, rfl, rfl⟩

/-! ## Programs -/

/-- A program is read up to the end of the tokens. -/
theorem program_reads_all {ss : List Stmt} (h : program n s = .ok ss s') : s'.rest = [] := by
  induction n generalizing s ss with
  | zero => exact absurd h throw_ne_ok
  | succ n ih =>
    rw [program, peek_bind] at h
    cases hr : s.rest with
    | nil =>
      rw [hr] at h
      obtain ⟨-, rfl⟩ := pure_ok.mp h
      exact hr
    | cons t rest =>
      rw [hr] at h
      obtain ⟨r, s₁, -, hrest⟩ := bind_ok.mp h
      cases r with
      | none => exact ih hrest
      | some stmt =>
        obtain ⟨others, s₂, hothers, hpure⟩ := bind_ok.mp hrest
        obtain ⟨-, rfl⟩ := pure_ok.mp hpure
        exact ih hothers

/-- A deeper bound gives the same program. -/
theorem program_deeper {n' : Nat} (h : 32 * s.rest.length + 18 ≤ n) (hn : n ≤ n') : program n' s = program n s := by
  obtain ⟨ss, s', hp, -⟩ := program_ends h
  rcases (deepens_program hn).does s with heq | ⟨s₁, hspent⟩
  · exact heq
  · rw [hp] at hspent
    cases hspent

theorem fuel_ready (tokens : Tokens) (firstSlot : Int) (extra : Nat) :
    Call.Ready ⟨.program (fuel tokens + extra), start tokens firstSlot⟩ := by
  simp only [Call.Ready, start, fuel, rulesPerToken, Tokens.count]
  omega

theorem program_inside (tokens : Tokens) (firstSlot : Int) (extra : Nat) :
    ∃ (ss : List Stmt) (c : Cursor), c.position = tokens.items.length ∧
      program (fuel tokens + extra) (start tokens firstSlot) = .ok ss (c.state tokens) := by
  obtain ⟨ss, s', hp, -⟩ := program_ends (fuel_ready tokens firstSlot extra)
  have hs : Onward ((Cursor.start firstSlot).state tokens) s' := (built_program _).ok hp
  obtain ⟨c, rfl, hlast, -⟩ := hs.position
  rw [program_reads_all hp, List.length_nil, Nat.sub_zero] at hlast
  exact ⟨ss, c, hlast, hp⟩

/-- A declaration that is called while a program is read ends further on in the list. -/
theorem declaration_inside {firstSlot : Int} {extra : Nat}
    (h : Comes ⟨.program (fuel tokens + extra), start tokens firstSlot⟩ ⟨.declaration n, s⟩) :
    ∃ (c c' : Cursor) (r : Option Stmt), s = c.state tokens ∧ declaration n s = .ok r (c'.state tokens) ∧
      c.position < c'.position ∧ c'.position ≤ tokens.items.length := by
  obtain ⟨r, s', hd, honward, hlt⟩ := declaration_moves (comes_ready h (fuel_ready tokens firstSlot extra))
  have hs : Onward ((Cursor.start firstSlot).state tokens) s := comes_onward h
  obtain ⟨c, hc, hposition, -⟩ := hs.position
  obtain ⟨c', rfl, hposition', hinside⟩ := (hs.trans honward).position
  have hlength : s.rest.length ≤ tokens.items.length := hs.length
  exact ⟨c, c', r, hc, hd, by omega, hinside⟩

end Grammar

/-- Every declaration that is called starts before the end and leaves the position further
on, in the list; reading by position is possible, gives the program that `parse` gives and
ends at the end of the list. -/
theorem reading_ends_inside (tokens : Tokens) (firstSlot : Int) (extra : Nat) :
    (∀ n s, Comes ⟨.program (fuel tokens + extra), start tokens firstSlot⟩ ⟨.declaration n, s⟩ →
      ∃ (c c' : Cursor) (r : Option Stmt), s = c.state tokens ∧ declaration n s = .ok r (c'.state tokens) ∧
        c.position < c'.position ∧ c'.position ≤ tokens.items.length) ∧
    (∃ q, Realizes tokens (program (fuel tokens + extra)) q) ∧
    ∃ ss c, c.position = tokens.items.length ∧
      program (fuel tokens + extra) (start tokens firstSlot) = .ok ss (c.state tokens) ∧
      (∀ q, Realizes tokens (program (fuel tokens + extra)) q → q (.start firstSlot) = .ok ss c) ∧
      parse tokens firstSlot = ⟨ss, c.nextSlot, c.errors.toList⟩ := by
  refine ⟨fun n s hcomes => declaration_inside hcomes, (built_program _).realized, ?_⟩
  obtain ⟨ss, c, hlast, hp⟩ := program_inside tokens firstSlot extra
  have hfuel : program (fuel tokens) (start tokens firstSlot) = .ok ss (c.state tokens) :=
    (program_deeper (fuel_ready tokens firstSlot 0) (Nat.le_add_right ..)).symm.trans hp
  refine ⟨ss, c, hlast, hp, fun q hq => hq.does (Nat.zero_le _) (Nat.le_of_eq hlast) hp, ?_⟩
  rw [parse, hfuel]
  rfl

/-- The tokens of a block with an error in its first declaration. -/
def faultyBlock : Tokens where
  items := [⟨.symbol .leftBrace, 1⟩, ⟨.symbol .rightParen, 1⟩, ⟨.symbol .semicolon, 1⟩, ⟨.ident "a", 1⟩,
    ⟨.symbol .semicolon, 1⟩, ⟨.symbol .rightBrace, 1⟩]
  endLine := 1

/-- The block goes on behind the error: its second declaration is called too. -/
example : ∃ n s, Comes ⟨.program (fuel faultyBlock), start faultyBlock 0⟩ ⟨.declaration n, s⟩ ∧
    s.rest = faultyBlock.items.drop 3 := by
  have hblock := Comes.refl.step (.program (n := 223) (s := start faultyBlock 0) (List.cons_ne_nil _ _))
  have hopened := ((hblock.step (.statement rfl)).step (.block rfl rfl)).step .declarations
  exact ⟨_, _, (hopened.step (.declarationsRest rfl rfl)).step (.declaration rfl), rfl⟩

end Lox
