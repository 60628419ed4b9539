/-
  Lox.Proofs.Token.Fitting — which pieces a text consists of, said without cutting it.

  In front of the rest of its text a piece is the right one (`Fits`) if it is a newline, a
  blank, a comment that ends where it has to, the longest lexeme that stands there, a
  string or a block comment that nothing closes, or a character with which none of these
  can start. Cutting takes off a piece that fits (`fits_cut`), and no other one fits there
  (`cut_of_fits`), so a text consists of its pieces and of no others (`pieces_iff`).
-/

import Lox.Proofs.Token.Lexemes

namespace Lox

namespace Piece

variable {c d : Char} {cs body rest : List Char} {t : Terminal} {p q : Piece}

def OpensComment (text : List Char) : Prop := ['/', '/'] <+: text ∨ ['/', '*'] <+: text

/-- The close of a block comment is in the text. -/
def Closes (text : List Char) : Prop := ['*', '/'] <:+: text

/-! ## Pieces in front of the rest of their text -/

/-- A piece that is more than an unexpected character stands in front of the rest. -/
def Known : Piece → List Char → Prop
  | newline, _ => True
  | blank c, _ => c ∈ [' ', '\t', '\r']
  | lineComment body, rest => '\n' ∉ body ∧ ∀ c ∈ rest.head?, c = '\n'
  | blockComment body, _ => ¬ Closes body
  | token t, rest => Spells t t.text.toList ∧ ¬ OpensComment (t.text.toList ++ rest) ∧
      IsLongest t.text.toList (t.text.toList ++ rest)
  | openString body, rest => '"' ∉ body ∧ rest = []
  | openComment body, rest => ¬ Closes body ∧ rest = []
  | unexpected _, _ => False

/-- A character is unexpected if nothing else can start with it. -/
def Fits : Piece → List Char → Prop
  | unexpected c, rest => ∀ (q : Piece) (more : List Char), q.text ++ more = c :: rest → ¬ q.Known more
  | p, rest => p.Known rest

theorem Known.fits (h : p.Known rest) : p.Fits rest := by
  cases p with
  | unexpected c => exact h.elim
  | _ => exact h

/-- Every piece is the right one in front of those behind it. -/
def Consists : List Piece → Prop
  | [] => True
  | p :: ps => p.Fits (ps.flatMap text) ∧ Consists ps

/-! ## Comments -/

theorem comment_starts (h : OpensComment (c :: cs)) : c = '/' := by
  rcases h with h | h
  · exact (List.cons_prefix_cons.mp h).1.symm
  · exact (List.cons_prefix_cons.mp h).1.symm

theorem not_comment (hc : c ≠ '/') (cs : List Char) : ¬ OpensComment (c :: cs) := fun h => hc (comment_starts h)

theorem not_closes_nil : ¬ Closes [] := by simp [Closes]

theorem closes_cons : Closes (c :: cs) ↔ (c = '*' ∧ cs.head? = some '/') ∨ Closes cs := by
  unfold Closes
  rw [List.infix_cons_iff, List.cons_prefix_cons]
  cases cs with
  | nil => simp
  | cons d ds => simp [eq_comm]

theorem not_closes_of_splitClose (h : splitClose cs = some (body, rest)) : ¬ Closes body := by
  fun_induction splitClose cs generalizing body with
  | case1 =>
    cases h
    exact not_closes_nil
  | case2 c tail hopen ih =>
    obtain ⟨⟨b, r⟩, hs, he⟩ := Option.map_eq_some_iff.mp h
    cases he
    rintro hclose
    rcases closes_cons.mp hclose with ⟨hc, hhead⟩ | hclose
    · have htext := splitClose_text hs
      obtain ⟨more, rfl⟩ := List.head?_eq_some_iff.mp hhead
      exact hopen _ hc htext.symm
    · exact ih hs hclose
  | case3 => cases h

theorem splitClose_of_closes (h : ¬ Closes body) (rest : List Char) :
    splitClose (body ++ '*' :: '/' :: rest) = some (body, rest) := by
  induction body with
  | nil => rfl
  | cons c body ih =>
    simp only [closes_cons, not_or] at h
    rw [List.cons_append, splitClose, ih h.2]
    · rfl
    · intro more hc hmore
      cases body with
      | nil => cases hmore
      | cons d body => exact h.1 ⟨hc, congrArg some (List.cons.inj hmore).1⟩

/-- A comment is not closed if there is no close in it. -/
theorem splitClose_eq_none : splitClose cs = none ↔ ¬ Closes cs := by
  constructor
  · intro h
    fun_induction splitClose cs with
    | case1 => cases h
    | case2 c tail hopen ih =>
      intro hclose
      rcases closes_cons.mp hclose with ⟨hc, hhead⟩ | hclose
      · obtain ⟨more, rfl⟩ := List.head?_eq_some_iff.mp hhead
        exact hopen more hc rfl
      · exact ih (Option.map_eq_none_iff.mp h) hclose
    | case3 => exact not_closes_nil
  · intro h
    cases hs : splitClose cs with
    | none => rfl
    | some split =>
      obtain ⟨body, rest⟩ := split
      refine absurd ⟨body, rest, ?_⟩ h
      rw [← splitClose_text hs]
      simp

/-! ## What is cut off fits -/

theorem known_lexeme (h : Spells t w) (htext : w ++ rest = c :: cs) (hc : ¬ OpensComment (c :: cs))
    (hl : IsLongest w (c :: cs)) : (token t).Known rest := by
  show Spells t t.text.toList ∧ ¬ OpensComment (t.text.toList ++ rest) ∧ IsLongest t.text.toList (t.text.toList ++ rest)
  rw [spells_text h, htext]
  exact ⟨h, hc, hl⟩

theorem fits_number (hc : isDigit c = true) (cs : List Char) : (cutNumber c cs).1.Fits (cutNumber c cs).2 := by
  refine Known.fits (known_lexeme (.number (number_taken hc cs)) ?_ (not_comment ?_ cs) (longest_number hc cs))
  · show c :: cs.takeWhile isDigit ++ (fraction _).1 ++ (fraction _).2 = c :: cs
    rw [List.append_assoc, fraction_text, List.cons_append, List.takeWhile_append_dropWhile]
  · rintro rfl
    cases hc

/-- A word is spelled as a keyword or as a name. -/
theorem spells_word {w : List Char} (h : IsWord w) : Spells (wordTerminal (String.ofList w)) w := by
  unfold wordTerminal
  cases hk : Keyword.ofText? (String.ofList w) with
  | some k =>
    have htext : k.text = String.ofList w := of_decide_eq_true (List.find?_some hk :)
    have hw : w = k.text.toList := by rw [htext, String.toList_ofList]
    rw [hw]
    exact .keyword k
  | none =>
    refine .ident h fun k hw => ?_
    rw [← hw, String.ofList_toList, Keyword.ofText?_text] at hk
    cases hk

theorem fits_word (hc : isLetter c = true) (cs : List Char) : (cutWord c cs).1.Fits (cutWord c cs).2 := by
  have hword : IsWord (c :: cs.takeWhile isWordChar) := ⟨hc, all_takeWhile isWordChar cs⟩
  refine Known.fits (known_lexeme (spells_word hword) ?_ (not_comment (ne_of_letter hc rfl) cs) (longest_word hc cs))
  rw [List.cons_append]
  exact congrArg _ List.takeWhile_append_dropWhile

theorem not_mem_takeWhile (d : Char) (cs : List Char) : d ∉ cs.takeWhile (· != d) := by
  intro h
  simpa using all_takeWhile (· != d) cs d h

/-- A string that is cut off has no quote within. -/
theorem fits_string (cs : List Char) : (cutString cs).1.Fits (cutString cs).2 := by
  have hsplit := List.takeWhile_append_dropWhile (p := (· != '"')) (l := cs)
  have hbody := not_mem_takeWhile '"' cs
  unfold cutString
  split
  next quote rest hdrop =>
    have hquote : quote = '"' := by simpa [hdrop] using head?_dropWhile (· != '"') cs
    generalize cs.takeWhile (· != '"') = body at hsplit hbody
    rw [hdrop, hquote] at hsplit
    have htext : '"' :: (body ++ ['"']) ++ rest = '"' :: (body ++ '"' :: rest) := by simp
    exact Known.fits (known_lexeme (.string hbody) htext (not_comment (by decide) _) (longest_string hbody rest))
  next hdrop =>
    rw [hdrop, List.append_nil] at hsplit
    exact ⟨hsplit ▸ hbody, rfl⟩

theorem fits_comment (cs : List Char) : (cutComment cs).1.Fits (cutComment cs).2 := by
  unfold cutComment
  split
  next body rest h => exact not_closes_of_splitClose h
  next h => exact ⟨splitClose_eq_none.mp h, rfl⟩

/-- How a piece starts that is more than an unexpected character. -/
theorem known_starts (htext : q.text ++ rest = c :: cs) (h : q.Known rest) :
    c = '\n' ∨ isBlank c = true ∨ isDigit c = true ∨ isLetter c = true ∨ c = '"' ∨ ∃ s, Symbol.ofChar? c = some s := by
  have hslash {d : Char} (hd : d = '/') : ∃ s, Symbol.ofChar? d = some s := ⟨.slash, by rw [hd]; rfl⟩
  cases q with
  | newline => exact Or.inl (List.cons.inj htext).1.symm
  | blank d =>
    obtain rfl : d = c := (List.cons.inj htext).1
    have hblank : d ∈ [' ', '\t', '\r'] := h
    refine Or.inr (Or.inl ?_)
    simpa [isBlank, or_assoc] using hblank
  | lineComment | blockComment | openComment => simp [hslash (List.cons.inj htext).1.symm]
  | openString => simp [(List.cons.inj htext).1.symm]
  | unexpected d => exact h.elim
  | token t =>
    obtain ⟨d, ds, hw, hd⟩ := spells_starts h.1
    have htext : t.text.toList ++ rest = c :: cs := htext
    rw [hw] at htext
    obtain rfl : d = c := (List.cons.inj htext).1
    cases t with
    | number => simp [show isDigit d = true from hd]
    | keyword | ident => simp [show isLetter d = true from hd]
    | string => simp [eq_of_beq hd]
    | symbol => simp [Option.isSome_iff_exists.mp hd]

/-- A symbol that is cut off is the longest that the text begins with. -/
theorem fits_symbol (hnewline : c ≠ '\n') (hblank : isBlank c = false) (hdigit : isDigit c = false)
    (hletter : isLetter c = false) (hquote : c ≠ '"') (hcomment : ¬ OpensComment (c :: cs)) :
    (cutSymbol c cs).1.Fits (cutSymbol c cs).2 := by
  cases hc : Symbol.ofChar? c with
  | none =>
    rw [cutSymbol_none hc]
    intro q more htext hq
    rcases known_starts htext hq with h | h | h | h | h | ⟨s, h⟩
    · exact hnewline h
    · rw [hblank] at h; cases h
    · rw [hdigit] at h; cases h
    · rw [hletter] at h; cases h
    · exact hquote h
    · rw [hc] at h; cases h
  | some s =>
    by_cases hj : s.withEqual? = none ∨ cs.head?.any (· == '=') = false
    · rw [cutSymbol_some hc hj]
      have hs : Spells (.symbol s) [c] := ofChar?_text hc ▸ .symbol s
      exact Known.fits (known_lexeme hs rfl hcomment (longest_symbol hc hj))
    · simp only [not_or, Bool.not_eq_false] at hj
      obtain ⟨joined, hjoined⟩ := Option.ne_none_iff_exists'.mp hj.1
      obtain ⟨more, rfl⟩ := of_head?_any hj.2
      rw [cutSymbol_joined hc hjoined]
      have htext : joined.text.toList = [c, '='] := by rw [withEqual?_text hjoined, ofChar?_text hc]; rfl
      have hs : Spells (.symbol joined) [c, '='] := htext ▸ .symbol joined
      exact Known.fits (known_lexeme hs rfl hcomment (longest_joined hc _))

/-- What is cut off fits what is left: by its first character. -/
theorem fits_cut (c : Char) (cs : List Char) : (cut c cs).1.Fits (cut c cs).2 := by
  unfold cut
  split
  next => exact trivial
  next hnewline =>
  split
  next hblank =>
    show c ∈ _
    simpa [isBlank, or_assoc] using hblank
  next hblank =>
  split
  next hdigit => exact fits_number hdigit cs
  next hdigit =>
  split
  next hletter => exact fits_word hletter cs
  next hletter =>
  split
  next => exact fits_string cs
  next hquote =>
  rw [Bool.not_eq_true] at hblank hdigit hletter
  split
  next rest =>
    refine ⟨not_mem_takeWhile '\n' rest, fun d hd => ?_⟩
    have hend := head?_dropWhile (· != '\n') rest
    rw [Option.mem_def.mp hd] at hend
    simpa using hend
  next rest => exact fits_comment rest
  next c cs hline hblock =>
    refine fits_symbol hnewline hblank hdigit hletter hquote ?_
    rintro (⟨more, h⟩ | ⟨more, h⟩)
    · exact hline _ (List.cons.inj h).1.symm (List.cons.inj h).2.symm
    · exact hblock _ (List.cons.inj h).1.symm (List.cons.inj h).2.symm

/-! ## Nothing else fits -/

theorem fits_cases (h : p.Fits rest) : p.Known rest ∨ ∃ c, p = unexpected c := by
  cases p with
  | unexpected c => exact Or.inr ⟨c, rfl⟩
  | _ => exact Or.inl h

theorem starts_not_white (h : starts t c = true) : c ∉ whites := by
  intro hc
  rcases whites_cases hc with rfl | rfl | rfl | rfl <;> cases t <;> cases h

/-- Of two lexemes that are the longest in front of the same text, each is as long as the other. -/
theorem known_unique {rest' : List Char} (h : (token t).Known rest) (h' : (token t').Known rest')
    (htext : t.text.toList ++ rest = t'.text.toList ++ rest') : t = t' := by
  have hle : t.text.toList.length ≤ t'.text.toList.length := h'.2.2 t _ h.1 ⟨rest, htext⟩
  have hle' : t'.text.toList.length ≤ t.text.toList.length := h.2.2 t' _ h'.1 ⟨rest', htext.symm⟩
  have hsame := (List.append_inj htext (Nat.le_antisymm hle hle')).1
  exact spells_unique (hsame ▸ h.1) h'.1

/-- A lexeme that starts with a quote ends with another one. -/
theorem quote_closed (h : Spells t ('"' :: ds)) : '"' ∈ ds := by
  obtain ⟨inner, -, rfl, -⟩ := spells_quote h
  simp

/-- Where a lexeme stands that starts no comment, a token is cut off. -/
theorem cut_lexeme (htext : t.text.toList ++ rest = c :: cs) (h : (token t).Known rest) : (cut c cs).1 = token t := by
  have hcut := cut_text c cs
  obtain ⟨d, ds, hw, hd⟩ := spells_starts h.1
  have hfirst := htext
  rw [hw] at hfirst
  obtain ⟨rfl, -⟩ := List.cons.inj hfirst
  rcases fits_cases (fits_cut d cs) with hknown | ⟨u, hu⟩
  · cases hp : (cut d cs).1 with
    | token t' =>
      rw [hp] at hcut hknown
      rw [known_unique hknown h (hcut.trans htext.symm)]
    | newline =>
      rw [hp] at hcut
      refine absurd ?_ (starts_not_white hd)
      rw [← (List.cons.inj hcut).1]
      exact List.mem_cons_self ..
    | blank b =>
      rw [hp] at hcut hknown
      refine absurd ?_ (starts_not_white hd)
      rw [← (List.cons.inj hcut).1]
      exact List.mem_cons_of_mem _ hknown
    | lineComment | blockComment | openComment =>
      rw [hp] at hcut
      refine absurd ?_ h.2.1
      rw [htext, ← hcut]
      simp [OpensComment, text]
    | openString body =>
      rw [hp] at hcut hknown
      obtain ⟨rfl, -⟩ := List.cons.inj hcut
      have hbody : body ++ (cut _ cs).2 = ds ++ rest := (List.cons.inj (hcut.trans hfirst.symm)).2
      rw [hknown.2, List.append_nil] at hbody
      refine absurd ?_ hknown.1
      rw [hbody]
      exact List.mem_append_left _ (quote_closed (hw ▸ h.1))
    | unexpected u =>
      rw [hp] at hknown
      exact hknown.elim
  · have hfits := fits_cut d cs
    rw [hu] at hfits hcut
    exact absurd h (hfits (token t) rest (htext.trans hcut.symm))

theorem takeWhile_until (hd : d ∉ body) (hr : ∀ c ∈ rest.head?, c = d) :
    (body ++ rest).takeWhile (· != d) = body ∧ (body ++ rest).dropWhile (· != d) = rest := by
  refine takeWhile_append (bne_of_not_mem hd) ?_
  cases rest with
  | nil => rfl
  | cons a rest => simpa using hr a rfl

/-- What fits in front of the rest of a text is cut off it. -/
theorem cut_of_fits (htext : p.text ++ rest = c :: cs) (h : p.Fits rest) : cut c cs = (p, rest) := by
  have hfirst : (cut c cs).1 = p → cut c cs = (p, rest) := by
    rintro rfl
    exact Prod.ext rfl (List.append_cancel_left ((cut_text c cs).trans htext.symm))
  cases p with
  | newline =>
    obtain ⟨rfl, rfl⟩ := List.cons.inj htext
    rfl
  | blank d =>
    obtain ⟨rfl, rfl⟩ := List.cons.inj htext
    have hblank : d ∈ [' ', '\t', '\r'] := h
    simp only [List.mem_cons, List.not_mem_nil, or_false] at hblank
    rcases hblank with rfl | rfl | rfl <;> rfl
  | lineComment body =>
    obtain ⟨rfl, rfl⟩ := List.cons.inj htext
    obtain ⟨htake, -⟩ := takeWhile_until h.1 h.2
    exact hfirst (congrArg lineComment htake)
  | blockComment body =>
    obtain ⟨rfl, rfl⟩ := List.cons.inj htext
    refine hfirst ?_
    show (cutComment (body ++ ['*', '/'] ++ rest)).1 = _
    rw [List.append_assoc, cutComment, show ['*', '/'] ++ rest = '*' :: '/' :: rest from rfl, splitClose_of_closes h]
  | openComment body =>
    obtain ⟨hbody, rfl⟩ := h
    obtain ⟨rfl, rfl⟩ := List.cons.inj htext
    refine hfirst ?_
    show (cutComment (body ++ [])).1 = _
    rw [List.append_nil, cutComment, splitClose_eq_none.mpr hbody]
  | openString body =>
    obtain ⟨hbody, rfl⟩ := h
    obtain ⟨rfl, rfl⟩ := List.cons.inj htext
    have hnothing : ∀ c ∈ ([] : List Char).head?, c = '"' := nofun
    obtain ⟨-, hdrop⟩ := takeWhile_until hbody hnothing
    refine hfirst ?_
    show (cutString (body ++ [])).1 = _
    rw [cutString, hdrop, List.append_nil]
  | token t => exact hfirst (cut_lexeme htext h)
  | unexpected d =>
    refine hfirst ?_
    obtain rfl : d = c := (List.cons.inj htext).1
    have hcut := cut_text d cs
    rcases fits_cases (fits_cut d cs) with hknown | ⟨u, hu⟩
    · exact absurd hknown (h _ _ (hcut.trans htext.symm))
    · rw [hu] at hcut ⊢
      rw [(List.cons.inj hcut).1]

theorem fits_ne_nil (h : p.Fits rest) : p.text ≠ [] := by
  cases p with
  | token t =>
    obtain ⟨c, cs, hw, -⟩ := spells_starts h.1
    show t.text.toList ≠ []
    rw [hw]
    exact List.cons_ne_nil c cs
  | _ => exact List.cons_ne_nil _ _

/-- A text consists of the pieces that it is cut into, and of no others. -/
theorem pieces_iff {ps : List Piece} : pieces cs = ps ↔ ps.flatMap text = cs ∧ Consists ps := by
  constructor
  · rintro rfl
    refine ⟨text_pieces cs, ?_⟩
    fun_induction pieces cs with
    | case1 => trivial
    | case2 c cs ih =>
      refine ⟨?_, ih⟩
      rw [text_pieces]
      exact fits_cut c cs
  · rintro ⟨htext, hps⟩
    induction ps generalizing cs with
    | nil =>
      subst htext
      rw [List.flatMap_nil, pieces]
    | cons p ps ih =>
      have htext : p.text ++ ps.flatMap text = cs := htext
      cases cs with
      | nil => exact absurd (List.append_eq_nil_iff.mp htext).1 (fits_ne_nil hps.1)
      | cons c cs =>
        rw [pieces_cons, cut_of_fits htext hps.1, ih rfl hps.2]

end Piece

end Lox
