/-
  Lox.Proofs.Token.Reworded — a text with another identifier in some places
  (`tokenize_reworded`): every list of tokens that comes about so is that of a text.

  The text is made of the same pieces but for the identifiers. It is cut into them again,
  for an identifier starts and ends like the one that it replaces (`pieces_reworded`).
-/

import Mathlib.Data.List.Forall2
import Lox.Proofs.Token.Lines

namespace Lox

/-- The same token, or another identifier in place of one. -/
def Token.Reworded (y : String) (t t' : Token) : Prop := t' = t ∨ (∃ x, t.terminal = .ident x) ∧ t' = ⟨.ident y, t.line⟩

/-- A text of one identifier and nothing else. -/
def IsIdentifier (y : String) : Prop := Piece.pieces y.toList = [.token (.ident y)]

variable {y : String} {t : Token} {ts us : List Token}

theorem Token.Reworded.same : Token.Reworded y t t := Or.inl rfl

theorem Token.Reworded.all : List.Forall₂ (Token.Reworded y) ts ts := List.forall₂_same.mpr fun _ _ => .same

/-- Two lists with the same token between them. -/
theorem Token.Reworded.around {ts' us' : List Token} (h : List.Forall₂ (Token.Reworded y) ts ts')
    (h' : List.Forall₂ (Token.Reworded y) us us') : List.Forall₂ (Token.Reworded y) (ts ++ t :: us) (ts' ++ t :: us') :=
  List.rel_append h (.cons same h')

namespace Piece

/-- The same piece, or another identifier in place of one. -/
def Reworded (y : String) (p p' : Piece) : Prop := p' = p ∨ (∃ x, p = token (.ident x)) ∧ p' = token (.ident y)

variable {c : Char} {cs rest rest' : List Char}

theorem not_blank_of_letter (h : isLetter c = true) : isBlank c = false := by
  unfold isBlank
  rw [decide_eq_false (ne_of_letter h rfl), decide_eq_false (ne_of_letter h rfl), decide_eq_false (ne_of_letter h rfl)]
  rfl

theorem cut_letter (h : isLetter c = true) (cs : List Char) : cut c cs = cutWord c cs := by
  unfold cut
  rw [if_neg (ne_of_letter h rfl), if_neg (by simp [not_blank_of_letter h]), if_neg (by simp [not_digit_of_letter h]),
    if_pos h]

theorem letter_of_ident {x : String} (h : (cut c cs).1 = token (.ident x)) : isLetter c = true := by
  unfold cut at h
  split at h
  next => cases h
  split at h
  next => cases h
  split at h
  next => cases h
  split at h
  next hc => exact hc
  split at h
  next => unfold cutString at h; split at h <;> cases h
  split at h
  next => cases h
  next => unfold cutComment at h; split at h <;> cases h
  next => unfold cutSymbol at h; split at h <;> (try split at h) <;> cases h

/-- Behind an identifier no word goes on. -/
theorem end_of_ident {x : String} (h : (cut c cs).1 = token (.ident x)) :
    (cut c cs).2.head?.any isWordChar = false := by
  rw [cut_letter (letter_of_ident h)]
  exact head?_dropWhile ..

theorem IsIdentifier.cut (hy : IsIdentifier y) : ∃ c cs, y.toList = c :: cs ∧ isLetter c = true ∧
    ∀ rest, rest.head?.any isWordChar = false → Piece.cut c (cs ++ rest) = (token (.ident y), rest) := by
  unfold IsIdentifier at hy
  cases hcs : y.toList with
  | nil =>
    rw [hcs, pieces] at hy
    cases hy
  | cons c cs =>
    rw [hcs, pieces_cons] at hy
    obtain ⟨hfirst, hrest⟩ := List.cons.inj hy
    have hletter := letter_of_ident hfirst
    have hnothing : (Piece.cut c cs).2 = [] := by
      cases hcut : (Piece.cut c cs).2 with
      | nil => rfl
      | cons d ds =>
        rw [hcut, pieces_cons] at hrest
        cases hrest
    rw [cut_letter hletter] at hfirst hnothing
    have hword := List.takeWhile_append_dropWhile (p := isWordChar) (l := cs)
    rw [show cs.dropWhile isWordChar = [] from hnothing, List.append_nil] at hword
    have hall : ∀ d ∈ cs, isWordChar d = true := hword ▸ all_takeWhile _ _
    refine ⟨c, cs, rfl, hletter, fun rest hend => ?_⟩
    obtain ⟨htake, hdrop⟩ := takeWhile_append hall hend
    rw [cut_letter hletter, ← hfirst]
    unfold cutWord
    rw [htake, hdrop, hword]

theorem hasFraction_cons (c : Char) (xs : List Char) : hasFraction (c :: xs) = (c == '.' && xs.head?.any isDigit) := by
  cases xs with
  | nil => exact (Bool.and_false _).symm
  | cons => rfl

theorem StartsAlike.behind (h : StartsAlike rest rest') (c : Char) (body : List Char) :
    StartsAlike (c :: (body ++ rest)) (c :: (body ++ rest')) := by
  refine ⟨rfl, ?_⟩
  rw [hasFraction_cons, hasFraction_cons, head?_append h.digit]

theorem startsAlike_letters {d : Char} (hc : isLetter c = true) (hd : isLetter d = true) (xs ys : List Char) :
    StartsAlike (c :: xs) (d :: ys) := by
  have hlook {e : Char} (he : isLetter e = true) (zs : List Char) : look (e :: zs) = some 'a' :=
    (if_neg (ne_of_letter he rfl)).trans (if_pos he)
  have hpoint {e : Char} (he : isLetter e = true) (zs : List Char) : hasFraction (e :: zs) = false := by
    rw [hasFraction_cons, beq_eq_false_iff_ne.mpr (ne_of_letter he rfl)]
    rfl
  exact ⟨by rw [hlook hc, hlook hd], by rw [hpoint hc, hpoint hd]⟩

/-- With other names in place of names a text is cut at the same places. -/
theorem pieces_reworded (hy : IsIdentifier y) {cs : List Char} (hclosed : ∀ piece ∈ pieces cs, piece.isOpen = false)
    {ps : List Piece} (h : List.Forall₂ (Reworded y) (pieces cs) ps) :
    StartsAlike cs (ps.flatMap text) ∧ pieces (ps.flatMap text) = ps := by
  fun_induction pieces cs generalizing ps with
  | case1 =>
    cases h
    exact ⟨⟨rfl, rfl⟩, by rw [List.flatMap_nil, pieces]⟩
  | case2 c cs ih =>
    cases h with
    | @cons _ p _ ps hp hrest =>
      obtain ⟨hs, hpieces⟩ := ih (fun piece hm => hclosed piece (List.mem_cons_of_mem _ hm)) hrest
      rw [List.flatMap_cons]
      rcases hp with rfl | ⟨⟨x, hx⟩, rfl⟩
      · obtain ⟨body, hbody, htext, hcut⟩ := cut_alike (hclosed _ (List.mem_cons_self ..)) hs
        rw [htext, List.cons_append, pieces_cons, hcut, hpieces]
        refine ⟨?_, rfl⟩
        conv => lhs; rw [hbody]
        exact hs.behind c body
      · obtain ⟨d, ds, htext, hletter, hcut⟩ := IsIdentifier.cut hy
        rw [show text (token (.ident y)) = d :: ds from htext, List.cons_append, pieces_cons,
          hcut _ (hs.word.trans (end_of_ident hx)), hpieces]
        exact ⟨startsAlike_letters (letter_of_ident hx) hletter .., rfl⟩

end Piece

/-! ## The tokens of the pieces -/

namespace Scan

/-- Two scans that are on one line, with the same errors. -/
def Alongside (s s' : Scan) : Prop := s'.line = s.line ∧ s'.errors = s.errors

theorem Alongside.take {s s' : Scan} (h : Alongside s s') {p p' : Piece} (hp : p.Reworded y p') :
    Alongside (s.take p) (s'.take p') := by
  obtain ⟨hl, he⟩ := h
  rcases hp with rfl | ⟨⟨x, rfl⟩, rfl⟩
  · cases p' <;> simp [Alongside, Scan.take, pass, accept, report, hl, he]
  · exact ⟨hl, he⟩

/-- Reworded tokens are those of reworded pieces. -/
theorem tokensAt_reworded {p : Piece} {line : Nat} {us ts : List Token}
    (h : List.Forall₂ (Token.Reworded y) (p.tokensAt line ++ us) ts) :
    ∃ p' ts', p.Reworded y p' ∧ ts = p'.tokensAt line ++ ts' ∧ List.Forall₂ (Token.Reworded y) us ts' := by
  cases p with
  | token terminal =>
    cases h with
    | cons ht hrest =>
      rcases ht with rfl | ⟨⟨x, hx⟩, rfl⟩
      · exact ⟨.token terminal, _, Or.inl rfl, rfl, hrest⟩
      · exact ⟨.token (.ident y), _, Or.inr ⟨⟨x, congrArg Piece.token hx⟩, rfl⟩, rfl, hrest⟩
  | _ => exact ⟨_, ts, Or.inl rfl, rfl, h⟩

/-- Tokens with another identifier in some places are those of such pieces. -/
theorem foldl_reworded {ps : List Piece} {s s' : Scan} {ts : List Token} (hs : Alongside s s')
    (h : List.Forall₂ (Token.Reworded y) (tokensFrom s.line ps) ts) :
    ∃ ps', List.Forall₂ (Piece.Reworded y) ps ps' ∧ Alongside (ps.foldl take s) (ps'.foldl take s') ∧
      tokensFrom s'.line ps' = ts := by
  induction ps generalizing s s' ts with
  | nil =>
    cases h
    exact ⟨[], .nil, hs, rfl⟩
  | cons p ps ih =>
    obtain ⟨p', ts', hp, rfl, hts⟩ := tokensAt_reworded h
    rw [← take_line] at hts
    obtain ⟨ps', hps, hfold, htokens⟩ := ih (hs.take hp) hts
    refine ⟨p' :: ps', .cons hp hps, hfold, ?_⟩
    rw [tokensFrom, ← take_line, htokens, hs.1]

end Scan

open Scan

/-- For reworded tokens there is a text that has them. -/
theorem tokenize_reworded {a : String} (hy : IsIdentifier y) (ha : (tokenize a).2 = []) {ts : List Token}
    (h : List.Forall₂ (Token.Reworded y) (tokenize a).1.items ts) :
    ∃ text, tokenize text = (⟨ts, (tokenize a).1.endLine⟩, []) := by
  have hclosed := closed_of_tokenize fun d hd => absurd (ha ▸ hd) List.not_mem_nil
  have hitems : (tokenize a).1.items = tokensFrom 1 (Piece.pieces a.toList) := by
    simp only [tokenize, scanFrom_eq_foldl, tokens_foldl]
    rfl
  rw [hitems] at h
  have hstart : Alongside start start := ⟨rfl, rfl⟩
  obtain ⟨ps, hps, ⟨hline, herrors⟩, htokens⟩ := foldl_reworded hstart h
  obtain ⟨-, hpieces⟩ := Piece.pieces_reworded hy hclosed hps
  refine ⟨String.ofList (ps.flatMap Piece.text), ?_⟩
  simp only [tokenize, scanFrom_eq_foldl, String.toList_ofList, hpieces, tokens_foldl, htokens, hline, herrors] at ha ⊢
  rw [ha]
  rfl

end Lox
