/-
  Lox.Proofs.Token.Located — a text is cut into the longest lexemes, without loss, and its
  tokens and errors stand on their lines (`tokenize_munches`).

  The tokens of a text are those among its pieces, each on the line to which the text in
  front of its piece leads. An unexpected character is an error on its line, and a string
  or a block comment that is left open is one on the last line.

  Behind a newline a second text is read as on its own, with its lines raised by those of
  the first (`tokenize_raised`).
-/

import Lox.Proofs.Token.Fitting
import Lox.Proofs.Token.Lines

namespace Lox

namespace Piece

variable {p : Piece} {ps : List Piece} {rest before w : List Char} {t : Terminal} {s : Scan}

/-! ## Lines -/

/-- The line to which a text leads. -/
def lineBehind (before : List Char) : Nat := 1 + before.count '\n'

theorem lineBehind_append (before w : List Char) : lineBehind (before ++ w) = lineBehind before + w.count '\n' := by
  rw [lineBehind, lineBehind, List.count_append, Nat.add_assoc]

theorem count_newline (h : ∀ c ∈ w, c ∉ whites) : w.count '\n' = 0 :=
  List.count_eq_zero.mpr fun hmem => h _ hmem (List.mem_cons_self ..)

theorem newlines_spelled (h : Spells t w) : (token t).newlines = w.count '\n' := by
  cases t with
  | string =>
    cases h
    simp [newlines]
  | _ => exact (count_newline (spells_not_white h (by rintro body ⟨⟩))).symm

/-- A piece moves the line on by the newlines in it. -/
theorem newlines_fits (h : p.Fits rest) : p.newlines = p.text.count '\n' := by
  cases p with
  | newline => rfl
  | blank c =>
    have hblank : c ∈ [' ', '\t', '\r'] := h
    have hc : c ≠ '\n' := by
      rintro rfl
      exact absurd hblank (by decide)
    simp [newlines, text, hc]
  | lineComment body => simp [newlines, text, List.count_eq_zero.mpr h.1]
  | blockComment body | openComment body | openString body => simp [newlines, text]
  | token t => exact newlines_spelled h.1
  | unexpected c =>
    have hc : c ≠ '\n' := by
      rintro rfl
      exact h newline rest rfl trivial
    simp [newlines, text, hc]

/-! ## Tokens and errors on their lines -/

/-- The tokens of pieces that stand behind a text. -/
def tokensBehind (before : List Char) : List Piece → List Token
  | [] => []
  | p :: ps => p.tokensAt (lineBehind before) ++ tokensBehind (before ++ p.text) ps

/-- The error of a piece, if it is one, on its line or the last line of its text. -/
def faultsAt (line last : Nat) : Piece → List Diagnostic
  | unexpected _ => [⟨line, .line, .lexical .unexpectedCharacter⟩]
  | openString _ => [⟨last, .line, .lexical .unterminatedString⟩]
  | openComment _ => [⟨last, .line, .lexical .unterminatedComment⟩]
  | _ => []

/-- The errors of pieces that stand behind a text. -/
def faultsBehind (last : Nat) (before : List Char) : List Piece → List Diagnostic
  | [] => []
  | p :: ps => p.faultsAt (lineBehind before) last ++ faultsBehind last (before ++ p.text) ps

theorem tokensFrom_behind (hps : Consists ps) : Scan.tokensFrom (lineBehind before) ps = tokensBehind before ps := by
  induction ps generalizing before with
  | nil => rfl
  | cons p ps ih =>
    rw [Scan.tokensFrom, tokensBehind, newlines_fits hps.1, ← lineBehind_append, ih hps.2]

theorem take_errors (s : Scan) (p : Piece) :
    (s.take p).errors.toList = s.errors.toList ++ p.faultsAt s.line (s.line + p.newlines) := by
  cases p <;> simp [Scan.take, Scan.pass, Scan.accept, Scan.report, faultsAt]

/-- What is left open is the last piece. -/
theorem faultsAt_last (h : p.Fits rest) (line : Nat) (before : List Char) :
    p.faultsAt line (lineBehind (before ++ p.text)) = p.faultsAt line (lineBehind (before ++ (p.text ++ rest))) := by
  cases p with
  | openString | openComment => rw [h.2, List.append_nil]
  | _ => rfl

/-- The line and the errors behind all pieces. -/
theorem foldl_behind (hps : Consists ps) (hs : s.line = lineBehind before) :
    (ps.foldl Scan.take s).line = lineBehind (before ++ ps.flatMap text) ∧
      (ps.foldl Scan.take s).errors.toList =
        s.errors.toList ++ faultsBehind (lineBehind (before ++ ps.flatMap text)) before ps := by
  induction ps generalizing s before with
  | nil => simp [hs, faultsBehind]
  | cons p ps ih =>
    have hline : (s.take p).line = lineBehind (before ++ p.text) := by
      rw [Scan.take_line, hs, newlines_fits hps.1, lineBehind_append]
    obtain ⟨hlast, herrors⟩ := ih hps.2 hline
    rw [List.append_assoc] at hlast herrors
    refine ⟨hlast, ?_⟩
    rw [List.foldl_cons, herrors, take_errors, hs, newlines_fits hps.1, ← lineBehind_append, faultsAt_last hps.1,
      List.append_assoc]
    rfl

/-- A text that consists of pieces has their tokens and errors. -/
theorem tokenize_pieces {source : String} (htext : ps.flatMap text = source.toList) (hps : Consists ps) :
    tokenize source =
      (⟨tokensBehind [] ps, lineBehind source.toList⟩, faultsBehind (lineBehind source.toList) [] ps) := by
  have hpieces : pieces source.toList = ps := pieces_iff.mpr ⟨htext, hps⟩
  have hstart : Scan.start.line = lineBehind [] := rfl
  obtain ⟨hline, herrors⟩ := foldl_behind hps hstart
  rw [List.nil_append, htext] at hline herrors
  have htokens := Scan.tokens_foldl ps Scan.start
  rw [hstart, tokensFrom_behind hps] at htokens
  simp only [tokenize, Scan.scanFrom_eq_foldl, hpieces, hline, herrors, htokens]
  rfl

end Piece

open Piece

/-- Every token spells its lexeme. -/
theorem mem_tokensBehind {ps : List Piece} {before : List Char} {t : Token} (hps : Consists ps)
    (h : t ∈ tokensBehind before ps) : Spells t.terminal t.text.toList := by
  induction ps generalizing before with
  | nil => cases h
  | cons p ps ih =>
    rcases List.mem_append.mp h with h | h
    · cases p with
      | token terminal =>
        obtain rfl := List.mem_singleton.mp h
        exact hps.1.1
      | _ => cases h
    · exact ih hps.2 h

theorem keyword_iff_spelled {t : Terminal} {w : List Char} (h : Spells t w) (k : Keyword) :
    t = .keyword k ↔ w = k.text.toList := by
  constructor
  · rintro rfl
    exact (spells_text h).symm
  · rintro rfl
    exact spells_unique h (.keyword k)

/-- Every text consists of pieces, in one way. Its tokens are those among them, typed as a
keyword if they are spelled as one, and its errors those of the pieces that are none. -/
theorem tokenize_munches (source : String) :
    ∃ ps : List Piece, ps.flatMap Piece.text = source.toList ∧ Consists ps ∧
      (∀ qs : List Piece, qs.flatMap Piece.text = source.toList → Consists qs → qs = ps) ∧
      (tokenize source).1.items = tokensBehind [] ps ∧
      (tokenize source).1.endLine = lineBehind source.toList ∧
      (tokenize source).2 = faultsBehind (lineBehind source.toList) [] ps ∧
      ∀ t ∈ (tokenize source).1.items, ∀ k, t.terminal = .keyword k ↔ t.text = k.text := by
  obtain ⟨htext, hps⟩ := pieces_iff.mp (Eq.refl (pieces source.toList))
  have htokenize := tokenize_pieces htext hps
  refine ⟨pieces source.toList, htext, hps, fun qs hq hqs => (pieces_iff.mpr ⟨hq, hqs⟩).symm, ?_⟩
  rw [htokenize]
  refine ⟨rfl, rfl, rfl, fun t ht k => ?_⟩
  rw [keyword_iff_spelled (mem_tokensBehind hps ht), String.toList_inj]

/-! ## A text behind another one -/

theorem mem_faultsBehind {ps : List Piece} {last : Nat} {before : List Char} {d : Diagnostic}
    (h : d ∈ faultsBehind last before ps) : ∃ line : Nat, d.line = line := by
  induction ps generalizing before with
  | nil => cases h
  | cons p ps ih =>
    rcases List.mem_append.mp h with h | h
    · cases p with
      | unexpected | openString | openComment =>
        obtain rfl := List.mem_singleton.mp h
        exact ⟨_, rfl⟩
      | _ => cases h
    · exact ih h

theorem endLine_tokenize (source : String) : (tokenize source).1.endLine = 1 + source.toList.count '\n' := by
  obtain ⟨htext, hps⟩ := pieces_iff.mp (Eq.refl (pieces source.toList))
  rw [tokenize_pieces htext hps]
  rfl

/-- Behind a newline a text has its tokens and errors on lines that are raised by one more
than the newlines in front of it. -/
theorem tokenize_raised {a : String} (h : ∀ d ∈ (tokenize a).2, ¬ Scan.IsUnterminated d) (b : String) :
    let raise := 1 + a.toList.count '\n'
    tokenize (a ++ "\n" ++ b) =
      (⟨(tokenize a).1.items ++ (tokenize b).1.items.map (fun t => ⟨t.terminal, t.line + raise⟩),
        (tokenize b).1.endLine + raise⟩,
        (tokenize a).2 ++ (tokenize b).2.map fun d => ⟨d.line + raise, d.place, d.cause⟩) := by
  intro raise
  have hraise : ∀ d ∈ (tokenize b).2, (Shift.byLines (· + raise)).diagnostic d
    = ⟨d.line + raise, d.place, d.cause⟩ := by
    intro d hd
    obtain ⟨htext, hps⟩ := pieces_iff.mp (Eq.refl (pieces b.toList))
    rw [tokenize_pieces htext hps] at hd
    obtain ⟨line, hline⟩ := mem_faultsBehind hd
    rw [Shift.diagnostic, hline]
    rfl
  rw [tokenize_lines h, Shift.behindText, endLine_tokenize, List.map_congr_left hraise]
  rfl

/-- A first text of three lines with a dangling point, a character that is none, and an
operator at its end; a second one with an error too. -/
theorem tokenize_raised_dangling :
    (∀ d ∈ (tokenize "1.\n@ \"a\nb\"<").2, ¬ Scan.IsUnterminated d) ∧
      tokenize ("1.\n@ \"a\nb\"<" ++ "\n" ++ "=\n#") =
        (⟨[⟨.number "1", 1⟩, ⟨.symbol .dot, 1⟩, ⟨.string "a\nb", 2⟩, ⟨.symbol .less, 3⟩, ⟨.symbol .equal, 4⟩], 5⟩,
          [⟨2, .line, .lexical .unexpectedCharacter⟩, ⟨5, .line, .lexical .unexpectedCharacter⟩]) := by
  have h : ∀ d ∈ (tokenize "1.\n@ \"a\nb\"<").2, ¬ Scan.IsUnterminated d := by
    have herrors : (tokenize "1.\n@ \"a\nb\"<").2 = [⟨2, .line, .lexical .unexpectedCharacter⟩] := by decide +kernel
    simp [herrors, Scan.IsUnterminated]
  refine ⟨h, ?_⟩
  rw [tokenize_raised h]
  decide +kernel

end Lox
