/-
  Lox.Proofs.Grammar.Piecewise — a text that is a list of segments is read segment by
  segment, as if each of them stood alone, valid or not (`parse_segments`).

  The declaration that a segment is ends with it, whatever follows (`ignores_declaration`),
  so the next one is read from the state in which it would be read alone, but for its first
  slot and the errors noted by then. Slots only shift what is read (`parse_shift`).
-/

import Lox.Proofs.Grammar.Segments
import Lox.Proofs.Grammar.Shifted

namespace Lox

open Grammar

/-- Segments read one by one, each alone in its text, which ends at some line. The slots go
on from one to the next. -/
def parseEach (lines : Segment → Nat) : List Segment → Int → Parsed
  | [], k => ⟨[], k, []⟩
  | g :: gs, k =>
    let first := parse ⟨g.items, lines g⟩ k
    let others := parseEach lines gs first.nextSlot
    ⟨first.program ++ others.program, others.nextSlot, first.errors ++ others.errors⟩

namespace Grammar

variable {n : Nat} {s : State} {g : Segment}

/-! ## One segment -/

theorem Segment.length_pos (g : Segment) : 0 < g.items.length := List.length_pos_iff.mpr (whole_items g).ne_nil

/-- The declaration that a segment is, alone and with a sequel. -/
theorem declaration_segment (hrest : s.rest = g.items) (hn : 32 * g.items.length + 17 ≤ n) :
    ∃ r s₁, declaration n s = .ok r s₁ ∧ s₁.rest = [] ∧ s₁.loops = s.loops ∧
      ∀ (x : Sequel) n', n ≤ n' → declaration n' (x.state s) = .ok r (x.state s₁) := by
  have hwhole : Whole s.rest := hrest ▸ whole_items g
  let none : Sequel := ⟨[], 0, #[], avoids_nil⟩
  have hbound : 32 * s.rest.length + 17 ≤ n := hrest ▸ hn
  obtain ⟨r, s₁, hd, hlater, -⟩ := declaration_ends hwhole.ne_nil hbound
  exact ⟨r, s₁, hd, ((ignores_declaration none (Nat.le_refl n)).ok hwhole hd).1, hlater.2.1,
    fun x n' hn' => ((ignores_declaration x hn').ok hwhole hd).2⟩

theorem program_nil (hrest : s.rest = []) : program (n + 1) s = .ok [] s := by
  rw [program, peek_bind, hrest]
  rfl

/-- One declaration, and then the others. -/
theorem program_declaration {r : Option Stmt} {s₁ s' : State} {ss : List Stmt} (hrest : s.rest ≠ [])
    (hd : declaration n s = .ok r s₁) (hp : program n s₁ = .ok ss s') :
    program (n + 1) s = .ok (r.toList ++ ss) s' := by
  obtain ⟨t, rest, hr⟩ := List.exists_cons_of_ne_nil hrest
  rw [program, peek_bind, hr]
  simp only [List.head?_cons]
  rw [bind_of_ok hd]
  cases r with
  | some x => exact bind_of_ok hp
  | none => exact hp

/-! ## A list of segments -/

theorem avoids_else (gs : List Segment) : Avoids [.keyword .else_] (gs.flatMap Segment.items) := by
  cases gs with
  | nil => exact avoids_nil
  | cons g gs =>
    obtain ⟨t, rest, hr⟩ := List.exists_cons_of_ne_nil (whole_items g).ne_nil
    rw [List.flatMap_cons, hr, List.cons_append, avoids_cons, List.mem_singleton]
    intro ht
    rcases (hr ▸ whole_items g).head with ⟨hs, -⟩ | ⟨hout, -⟩
    · rw [ht] at hs
      cases hs
    · exact hout (ht ▸ by decide)

/-- Reading goes from segment to segment: each is read as it is on its own, with the slots and
errors that come before it. -/
theorem program_segments (lines : Segment → Nat) (gs : List Segment) (endLine : Nat) (k : Int)
    (errors : Array Diagnostic) (hn : 32 * ((gs.flatMap Segment.items).length + 1) ≤ n) :
    program n ⟨gs.flatMap Segment.items, endLine, k, 0, errors⟩ = .ok (parseEach lines gs k).program
      ⟨[], endLine, (parseEach lines gs k).nextSlot, 0, errors ++ (parseEach lines gs k).errors.toArray⟩ := by
  induction gs generalizing n k errors with
  | nil =>
    obtain ⟨n, rfl⟩ : ∃ m, n = m + 1 := ⟨n - 1, by omega⟩
    simpa [parseEach] using program_nil (n := n) (s := ⟨[], endLine, k, 0, errors⟩) rfl
  | cons g gs ih =>
    obtain ⟨n, rfl⟩ : ∃ m, n = m + 1 := ⟨n - 1, by omega⟩
    have hpos := Segment.length_pos g
    rw [List.flatMap_cons, List.length_append] at hn
    -- The first segment, with the bound that it has when it is read alone.
    obtain ⟨r, s₁, hd, hrest, hloops, hsequel⟩ :=
      declaration_segment (s := start ⟨g.items, lines g⟩ k) (g := g) (n := 32 * g.items.length + 31) rfl (by omega)
    have halone : parse ⟨g.items, lines g⟩ k = ⟨r.toList, s₁.nextSlot, s₁.errors.toList⟩ := by
      have hp := program_declaration (whole_items g).ne_nil hd (program_nil hrest)
      have hfuel : fuel ⟨g.items, lines g⟩ = 32 * g.items.length + 31 + 1 := rfl
      rw [parse, hfuel, hp, List.append_nil]
    have hfirst := hsequel ⟨gs.flatMap Segment.items, endLine, errors, avoids_else gs⟩ n (by omega)
    have hothers := ih (n := n) s₁.nextSlot (errors ++ s₁.errors) (by omega)
    have hs₁ : Sequel.state ⟨gs.flatMap Segment.items, endLine, errors, avoids_else gs⟩ s₁
        = ⟨gs.flatMap Segment.items, endLine, s₁.nextSlot, 0, errors ++ s₁.errors⟩ := by
      simp [Sequel.state, hrest, hloops, start]
    have hs : Sequel.state ⟨gs.flatMap Segment.items, endLine, errors, avoids_else gs⟩ (start ⟨g.items, lines g⟩ k)
        = ⟨g.items ++ gs.flatMap Segment.items, endLine, k, 0, errors⟩ := by
      simp [Sequel.state, start]
    rw [hs, hs₁] at hfirst
    have hall := program_declaration (by simp [(whole_items g).ne_nil]) hfirst hothers
    have herrors : (s₁.errors.toList ++ (parseEach lines gs s₁.nextSlot).errors).toArray
        = s₁.errors ++ (parseEach lines gs s₁.nextSlot).errors.toArray := Array.toList_inj.mp (by simp)
    simp only [List.flatMap_cons, hall, parseEach, halone, herrors, Array.append_assoc]

end Grammar

/-! ## Up to slots -/

theorem Shift.diagnostic_bySlots (c : Int) (d : Diagnostic) : (Shift.bySlots c).diagnostic d = d := by
  obtain ⟨line, place, cause⟩ := d
  cases line <;> rfl

/-- Another first slot shifts what is read, and the errors are the same. -/
theorem parse_from (tokens : Tokens) (c : Int) :
    (parse tokens c).program = (Shift.bySlots c).stmts (parse tokens 0).program ∧
      (parse tokens c).errors = (parse tokens 0).errors := by
  have h := parse_shift (.bySlots c) tokens 0
  rw [Shift.tokens_bySlots, show (0 : Int) + (Shift.bySlots c).slots = c from Int.zero_add c] at h
  have hsame : (Shift.bySlots c).diagnostic = id := funext (Shift.diagnostic_bySlots c)
  rw [h, Parsed.shift, hsame, List.map_id]
  exact ⟨rfl, rfl⟩

theorem parseEach_errors (lines : Segment → Nat) (gs : List Segment) (k : Int) :
    (parseEach lines gs k).errors = gs.flatMap fun g => (parse ⟨g.items, lines g⟩ 0).errors := by
  induction gs generalizing k with
  | nil => rfl
  | cons g gs ih => rw [parseEach, List.flatMap_cons, ih, (parse_from _ k).2]

theorem parseEach_program (lines : Segment → Nat) (gs : List Segment) (k : Int) :
    ∃ firsts : List Int, firsts.length = gs.length ∧
      (parseEach lines gs k).program =
        (List.zipWith (fun g c => (Shift.bySlots c).stmts (parse ⟨g.items, lines g⟩ 0).program) gs firsts).flatten := by
  induction gs generalizing k with
  | nil => exact ⟨[], rfl, rfl⟩
  | cons g gs ih =>
    obtain ⟨firsts, hlength, hprogram⟩ := ih (parse ⟨g.items, lines g⟩ k).nextSlot
    refine ⟨k :: firsts, congrArg (· + 1) hlength, ?_⟩
    rw [parseEach, List.zipWith_cons_cons, List.flatten_cons, hprogram, (parse_from _ k).1]

/-- A list of segments is read as the segments are read one by one: its errors are those of
the segments alone, and its statements are those of the segments alone but for slots, which
are shifted as a whole from segment to segment. -/
theorem parse_segments (gs : List Segment) (lines : Segment → Nat) (endLine : Nat) (k : Int) :
    parse ⟨gs.flatMap Segment.items, endLine⟩ k = parseEach lines gs k ∧
      (parse ⟨gs.flatMap Segment.items, endLine⟩ k).errors = (gs.flatMap fun g => (parse ⟨g.items, lines g⟩ 0).errors) ∧
      ∃ firsts : List Int, firsts.length = gs.length ∧
        (parse ⟨gs.flatMap Segment.items, endLine⟩ k).program =
          (List.zipWith (fun g c => (Shift.bySlots c).stmts (parse ⟨g.items, lines g⟩ 0).program) gs
            firsts).flatten := by
  have hparse : parse ⟨gs.flatMap Segment.items, endLine⟩ k = parseEach lines gs k := by
    have hp := program_segments lines gs endLine k #[] (Nat.le_refl _)
    have hfuel : fuel ⟨gs.flatMap Segment.items, endLine⟩ = 32 * ((gs.flatMap Segment.items).length + 1) := rfl
    rw [parse, hfuel, start, hp]
    simp
  rw [hparse]
  exact ⟨rfl, parseEach_errors lines gs k, parseEach_program lines gs k⟩

/-- The segment `print x;`. -/
def printedSegment : Segment where
  tokens := [⟨.keyword .print, 2⟩, ⟨.ident "x", 2⟩]
  semicolon := ⟨.symbol .semicolon, 2⟩
  closed := rfl
  simple := by decide
  inner := by decide

/-- The segment `print *;`, which is no statement. -/
def malformedSegment : Segment where
  tokens := [⟨.keyword .print, 1⟩, ⟨.symbol .star, 1⟩]
  semicolon := ⟨.symbol .semicolon, 1⟩
  closed := rfl
  simple := by decide
  inner := by decide

/-- The first segment is reported as it is alone, and the second one is read behind it. -/
example : (parse ⟨[malformedSegment, printedSegment].flatMap Segment.items, 2⟩ 0).errors
      = [⟨1, .atToken "*", .grammar .noExpression⟩] ∧
    (parse ⟨[malformedSegment, printedSegment].flatMap Segment.items, 2⟩ 0).program
      = [.print_ (.ref ⟨⟨"x", 2⟩, 0⟩)] :=
  ⟨rfl, rfl⟩

end Lox
