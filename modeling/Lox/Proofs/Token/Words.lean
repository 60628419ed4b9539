/-
  Lox.Proofs.Token.Words — how the tokens of a source text are spelled (`tokenize_spelled`):
  an identifier starts with a letter, has letters and digits, and is not spelled as a
  keyword, for a word that is one becomes a keyword token; a string has no quote in it.

  Every token comes from a piece that is cut off what is left of the text, so what holds of
  the pieces that are cut off holds of the tokens (`tokenize_forall`).
-/

import Lox.Proofs.Token.Cuts
import Lox.Token.Scan

namespace Lox

/-- A word that is a name. -/
structure IsName (x : String) : Prop where
  first : x.toList.head?.any Piece.isLetter = true
  chars : ∀ c ∈ x.toList, Piece.isWordChar c = true
  noKeyword : Keyword.ofText? x = none

def Terminal.IsSpelled : Terminal → Prop
  | ident name => IsName name
  | string text => '"' ∉ text.toList
  | number _ | keyword _ | symbol _ => True

namespace Piece

theorem wordTerminal_spelled {word : String} (hfirst : word.toList.head?.any isLetter = true)
    (hchars : ∀ c ∈ word.toList, isWordChar c = true) : (wordTerminal word).IsSpelled := by
  unfold wordTerminal
  cases hk : Keyword.ofText? word with
  | some k => exact trivial
  | none => exact ⟨hfirst, hchars, hk⟩

theorem cutWord_spelled {c : Char} (cs : List Char) (hc : isLetter c = true) {terminal : Terminal}
    (h : (cutWord c cs).1 = token terminal) : terminal.IsSpelled := by
  cases h
  refine wordTerminal_spelled ?_ ?_
  · rw [String.toList_ofList]
    exact hc
  · rw [String.toList_ofList]
    refine List.forall_mem_cons.mpr ⟨by rw [isWordChar, hc]; rfl, fun d hd => ?_⟩
    exact all_takeWhile isWordChar cs d hd

theorem cutString_spelled (cs : List Char) {terminal : Terminal} (h : (cutString cs).1 = token terminal) :
    terminal.IsSpelled := by
  unfold cutString at h
  split at h
  next =>
    cases h
    show '"' ∉ (String.ofList _).toList
    rw [String.toList_ofList]
    intro hquote
    simpa using all_takeWhile (· != '"') cs _ hquote
  next => cases h

/-- Every token is spelled: a name is a word that is no keyword, and a string has no quote. -/
theorem cut_spelled (c : Char) (cs : List Char) {terminal : Terminal} (h : (cut c cs).1 = token terminal) :
    terminal.IsSpelled := by
  unfold cut at h
  split at h
  next => cases h
  split at h
  next => cases h
  split at h
  next => cases h; trivial
  split at h
  next hc => exact cutWord_spelled cs hc h
  split at h
  next => exact cutString_spelled cs h
  split at h
  next => cases h
  next => unfold cutComment at h; split at h <;> cases h
  next =>
    unfold cutSymbol at h
    split at h
    · cases h
    · split at h <;> (cases h; trivial)

theorem pieces_forall {P : Terminal → Prop} (hcut : ∀ c cs terminal, (cut c cs).1 = token terminal → P terminal)
    (cs : List Char) : ∀ terminal, token terminal ∈ pieces cs → P terminal := by
  fun_induction pieces cs with
  | case1 => simp
  | case2 c cs ih =>
    intro terminal hp
    rcases List.mem_cons.mp hp with hp | hp
    · exact hcut c cs terminal hp.symm
    · exact ih terminal hp

end Piece

namespace Scan

/-- Taking in a piece adds a token at most, that of the piece. -/
theorem mem_take {s : Scan} {p : Piece} {t : Token} (h : t ∈ (s.take p).tokens) :
    t ∈ s.tokens ∨ p = .token t.terminal := by
  cases p with
  | token terminal =>
    simp only [take, pass, accept, Array.mem_push] at h
    rcases h with h | rfl
    · exact Or.inl h
    · exact Or.inr rfl
  | _ => exact Or.inl h

theorem mem_foldl {ps : List Piece} {s : Scan} {t : Token} (h : t ∈ (ps.foldl take s).tokens) :
    t ∈ s.tokens ∨ .token t.terminal ∈ ps := by
  induction ps generalizing s with
  | nil => exact Or.inl h
  | cons p ps ih =>
    rcases ih h with h | h
    · rcases mem_take h with h | rfl
      · exact Or.inl h
      · exact Or.inr (List.mem_cons_self ..)
    · exact Or.inr (List.mem_cons_of_mem _ h)

end Scan

theorem tokenize_forall {P : Terminal → Prop}
    (hcut : ∀ c cs terminal, (Piece.cut c cs).1 = .token terminal → P terminal) {source : String} {t : Token}
    (h : t ∈ (tokenize source).1.items) : P t.terminal := by
  simp only [tokenize, Scan.scanFrom_eq_foldl, Array.mem_toList_iff] at h
  rcases Scan.mem_foldl h with h | h
  · simp [Scan.start] at h
  · exact Piece.pieces_forall hcut _ _ h

theorem tokenize_spelled {source : String} {t : Token} (h : t ∈ (tokenize source).1.items) : t.terminal.IsSpelled :=
  tokenize_forall (fun c cs _ => Piece.cut_spelled c cs) h

end Lox
