/-
  Lox.Proofs.Token.Cuts — a piece is cut off a text in the same way whatever follows it, if
  what follows starts alike (`cut_alike`).

  Where a piece ends is seen from the character behind it, and behind a number from the two
  that may start a fraction. Of a letter it counts only that it is one, and a newline is
  as good as the end of the text. A string or a block comment that is left open has
  nothing behind it.
-/

import Lox.Token.Piece

namespace Lox

namespace Piece

variable {xs xs' rest rest' body : List Char} {p : Char → Bool}

/-! ## How a text starts -/

/-- What counts of the first character. -/
def look : List Char → Option Char
  | [] => none
  | c :: _ => if c = '\n' then none else if isLetter c then some 'a' else some c

/-- Starts with a fraction. -/
def hasFraction : List Char → Bool
  | c :: d :: _ => c == '.' && isDigit d
  | _ => false

structure StartsAlike (xs xs' : List Char) : Prop where
  first : look xs' = look xs
  fraction : hasFraction xs' = hasFraction xs

/-- A digit is asked for behind the point, and a letter is none. -/
theorem look_any (hn : p '\n' = false) (hl : ∀ c, isLetter c = true → p c = p 'a') (xs : List Char) :
    (look xs).any p = xs.head?.any p := by
  cases xs with
  | nil => rfl
  | cons c rest =>
    unfold look
    by_cases hc : c = '\n'
    · simp [hc, hn]
    · by_cases hletter : isLetter c = true
      · simp [hc, hletter, hl c hletter]
      · simp [hc, hletter]

/-- The first characters have the same properties, as far as they count. -/
theorem StartsAlike.any (h : StartsAlike xs xs') (hn : p '\n' = false) (hl : ∀ c, isLetter c = true → p c = p 'a') :
    xs'.head?.any p = xs.head?.any p := by
  rw [← look_any hn hl, ← look_any hn hl, h.first]

theorem head?_append (h : rest'.head?.any p = rest.head?.any p) (body : List Char) :
    (body ++ rest').head?.any p = (body ++ rest).head?.any p := by
  cases body with
  | nil => exact h
  | cons => rfl

theorem not_digit_of_letter {c : Char} (h : isLetter c = true) : isDigit c = false := by
  rw [← Bool.not_eq_true]
  intro hd
  simp only [isLetter, isDigit, Bool.or_eq_true, Bool.and_eq_true, decide_eq_true_eq] at h hd
  rcases h with ⟨h, -⟩ | ⟨h, -⟩
  · exact absurd (Char.le_trans h hd.2) (by decide)
  · exact absurd (Char.le_trans h hd.2) (by decide)

theorem ne_of_letter {c d : Char} (h : isLetter c = true) (hd : isLetter d = false) : c ≠ d := by
  rintro rfl
  rw [h] at hd
  cases hd

theorem StartsAlike.digit (h : StartsAlike xs xs') : xs'.head?.any isDigit = xs.head?.any isDigit :=
  h.any rfl fun _ hc => not_digit_of_letter hc

theorem StartsAlike.word (h : StartsAlike xs xs') : xs'.head?.any isWordChar = xs.head?.any isWordChar :=
  h.any rfl fun c hc => by rw [isWordChar, hc]; rfl

theorem StartsAlike.newline (h : StartsAlike xs xs') : xs'.head?.any (· != '\n') = xs.head?.any (· != '\n') :=
  h.any rfl fun c hc => by simpa using ne_of_letter hc rfl

theorem StartsAlike.symbol {d : Char} (h : StartsAlike xs xs') (hn : d ≠ '\n') (hd : isLetter d = false) :
    xs'.head?.any (· == d) = xs.head?.any (· == d) := by
  refine h.any ?_ fun c hc => ?_
  · simpa using hn.symm
  · have ha : isLetter 'a' = true := rfl
    rw [beq_eq_false_iff_ne.mpr (ne_of_letter hc hd), beq_eq_false_iff_ne.mpr (ne_of_letter ha hd)]

/-! ## One piece -/

/-- A string or a block comment that is not closed. -/
def isOpen : Piece → Bool
  | openComment _ | openString _ => true
  | _ => false

/-- What is cut off a text is cut off it whatever follows, if that starts alike. -/
def Stops (cut : List Char → Piece × List Char) : Prop :=
  ∀ body rest rest' piece, cut (body ++ rest) = (piece, rest) → piece.isOpen = false → StartsAlike rest rest' →
    cut (body ++ rest') = (piece, rest')

theorem Stops.ite {cut cut' : List Char → Piece × List Char} {q : Prop} [Decidable q] (h : Stops cut)
    (h' : Stops cut') :
    Stops fun cs => if q then cut cs else cut' cs := by
  by_cases hq : q
  · simpa only [if_pos hq] using h
  · simpa only [if_neg hq] using h'

/-- Where the first characters with a property end. -/
theorem takeWhile_append {as : List Char} (ha : ∀ a ∈ as, p a = true) (hr : rest.head?.any p = false) :
    (as ++ rest).takeWhile p = as ∧ (as ++ rest).dropWhile p = rest := by
  rw [List.takeWhile_append_of_pos ha, List.dropWhile_append_of_pos ha]
  cases rest with
  | nil => simp
  | cons c rest =>
    have hc : p c = false := hr
    simp [hc]

theorem head?_dropWhile (p : Char → Bool) (xs : List Char) : (xs.dropWhile p).head?.any p = false := by
  have h := List.head?_dropWhile_not p xs
  cases hx : (xs.dropWhile p).head? with
  | none => rfl
  | some c =>
    rw [hx] at h
    simpa using h

theorem all_takeWhile (p : Char → Bool) (xs : List Char) : ∀ a ∈ xs.takeWhile p, p a = true :=
  List.all_eq_true.mp List.all_takeWhile

theorem takeWhile_of_dropWhile (h : (body ++ rest).dropWhile p = rest) : (body ++ rest).takeWhile p = body := by
  have hsplit := List.takeWhile_append_dropWhile (p := p) (l := body ++ rest)
  rw [h] at hsplit
  exact List.append_cancel_right hsplit

/-- What goes on up to where a property ends does so before any text that starts alike. -/
theorem takeWhile_alike (h : (body ++ rest).dropWhile p = rest) (hs : rest'.head?.any p = rest.head?.any p) :
    (body ++ rest').takeWhile p = body ∧ (body ++ rest').dropWhile p = rest' := by
  have hall := all_takeWhile p (body ++ rest)
  rw [takeWhile_of_dropWhile h] at hall
  have hend := head?_dropWhile p (body ++ rest)
  rw [h] at hend
  exact takeWhile_append hall (hs.trans hend)

theorem fraction_none (h : hasFraction xs = false) : fraction xs = ([], xs) := by
  unfold fraction
  split
  next d rest =>
    have hd : isDigit d = false := h
    rw [hd]
    rfl
  next => rfl

theorem fraction_some {d : Char} (h : isDigit d = true) (rest : List Char) :
    fraction ('.' :: d :: rest) = ('.' :: d :: rest.takeWhile isDigit, rest.dropWhile isDigit) := if_pos h

/-- A fraction that is cut off is cut off in front of any rest that starts alike. -/
theorem fraction_append {places : List Char} (h : fraction xs = (places, rest)) (hx : xs.head?.any isDigit = false)
    (hs : StartsAlike rest rest') :
    fraction (places ++ rest') = (places, rest') ∧ (places ++ rest').head?.any isDigit = false := by
  by_cases hf : hasFraction xs = true
  · unfold hasFraction at hf
    split at hf
    next c d more =>
      obtain ⟨hpoint, hd⟩ := Bool.and_eq_true_iff.mp hf
      cases eq_of_beq hpoint
      have hend : rest'.head?.any isDigit = false := by
        rw [fraction_some hd] at h
        rw [← (Prod.mk.inj h).2] at hs
        exact hs.digit.trans (head?_dropWhile ..)
      rw [fraction_some hd] at h
      obtain ⟨rfl, -⟩ := Prod.mk.inj h
      obtain ⟨htake, hdrop⟩ := takeWhile_append (all_takeWhile isDigit more) hend
      refine ⟨?_, rfl⟩
      rw [List.cons_append, List.cons_append, fraction_some hd, htake, hdrop]
    next => cases hf
  · rw [Bool.not_eq_true] at hf
    rw [fraction_none hf] at h
    obtain ⟨rfl, rfl⟩ := Prod.mk.inj h
    exact ⟨fraction_none (hs.fraction.trans hf), hs.digit.trans hx⟩

/-- A number stops at what is neither a digit nor a point with a digit behind. -/
theorem stops_number (c : Char) : Stops (cutNumber c) := by
  intro body rest rest' piece hcut _ hs
  generalize hdigits : (body ++ rest).takeWhile isDigit = digits
  generalize htail : (body ++ rest).dropWhile isDigit = tail
  generalize hplaces : (fraction tail).1 = places
  have hnumber : (token (.number (String.ofList (c :: digits ++ places))), (fraction tail).2) = (piece, rest) := by
    rw [← hplaces, ← hdigits, ← htail]
    exact hcut
  obtain ⟨hpiece, hrest⟩ := Prod.mk.inj hnumber
  have hfirst : tail.head?.any isDigit = false := htail ▸ head?_dropWhile ..
  obtain ⟨hfraction, hplace⟩ := fraction_append (Prod.ext hplaces hrest) hfirst hs
  have hbody : body = digits ++ places := by
    refine (List.append_left_inj rest).mp ?_
    have htext := fraction_text tail
    rw [hplaces, hrest] at htext
    rw [List.append_assoc, htext, ← hdigits, ← htail, List.takeWhile_append_dropWhile]
  have hall : ∀ a ∈ digits, isDigit a = true := hdigits ▸ all_takeWhile _ _
  obtain ⟨htake, hdrop⟩ := takeWhile_append hall hplace
  rw [hbody, List.append_assoc, ← hpiece]
  unfold cutNumber
  rw [htake, hdrop, hfraction]

theorem stops_word (c : Char) : Stops (cutWord c) := by
  intro body rest rest' piece hcut _ hs
  obtain ⟨hpiece, hrest⟩ := Prod.mk.inj hcut
  obtain ⟨htake, hdrop⟩ := takeWhile_alike hrest hs.word
  rw [takeWhile_of_dropWhile hrest] at hpiece
  unfold cutWord
  rw [htake, hdrop, hpiece]

/-- A string stops behind its closing quote, whatever follows. -/
theorem stops_string : Stops cutString := by
  intro body rest rest' piece hcut hopen _
  unfold cutString at hcut
  split at hcut
  next quote more hdrop =>
    obtain ⟨hpiece, rfl⟩ := Prod.mk.inj hcut
    have hsplit := List.takeWhile_append_dropWhile (p := (· != '"')) (l := body ++ more)
    rw [hdrop, List.append_cons] at hsplit
    have hquote : quote = '"' := by simpa [hdrop] using head?_dropWhile (· != '"') (body ++ more)
    have hend : ('"' :: rest').head?.any (· != '"') = false := rfl
    obtain ⟨htake', hdrop'⟩ := takeWhile_append (all_takeWhile (· != '"') (body ++ more)) hend
    rw [← List.append_cancel_right hsplit, hquote, List.append_assoc]
    unfold cutString
    rw [List.singleton_append, hdrop', htake', ← hpiece]
  next =>
    cases (Prod.mk.inj hcut).1
    cases hopen

/-- A comment that is closed is closed in front of any rest. -/
theorem splitClose_append (h : splitClose xs = some (body, rest)) (rest' : List Char) :
    splitClose (body ++ '*' :: '/' :: rest') = some (body, rest') := by
  fun_induction splitClose xs generalizing body with
  | case1 tail =>
    cases h
    rfl
  | case2 c tail hopen ih =>
    obtain ⟨⟨b, q⟩, hs, he⟩ := Option.map_eq_some_iff.mp h
    cases he
    rw [List.cons_append, splitClose, ih hs]
    · rfl
    · intro more hc hmore
      -- A close that starts here would be there in the text itself.
      have htext := splitClose_text hs
      cases b with
      | nil => cases hmore
      | cons d b =>
        cases hmore
        exact hopen _ hc htext.symm
  | case3 => cases h

/-- A comment stops behind its close, or in front of a new line. -/
theorem stops_comment : Stops cutComment := by
  intro body rest rest' piece hcut hopen _
  unfold cutComment at hcut
  split at hcut
  next inner more hclose =>
    obtain ⟨hpiece, rfl⟩ := Prod.mk.inj hcut
    have hbody : body = inner ++ ['*', '/'] := by
      have htext := splitClose_text hclose
      rw [List.append_cons, List.append_cons] at htext
      simpa using (List.append_cancel_right htext).symm
    rw [hbody]
    unfold cutComment
    rw [List.append_assoc, show ['*', '/'] ++ rest' = '*' :: '/' :: rest' from rfl, splitClose_append hclose, ← hpiece]
  next =>
    cases (Prod.mk.inj hcut).1
    cases hopen

theorem cutSymbol_none {c : Char} (h : Symbol.ofChar? c = none) (cs : List Char) :
    cutSymbol c cs = (unexpected c, cs) := by
  unfold cutSymbol
  rw [h]

/-- A symbol of one character, where no equals sign makes a longer one of it. -/
theorem cutSymbol_some {c : Char} {s : Symbol} (h : Symbol.ofChar? c = some s)
    (hj : s.withEqual? = none ∨ xs.head?.any (· == '=') = false) : cutSymbol c xs = (token (.symbol s), xs) := by
  unfold cutSymbol
  rw [h]
  simp only
  split
  next joined rest hsome =>
    rcases hj with hj | hj
    · rw [hsome] at hj
      cases hj
    · cases hj
  next => rfl

theorem cutSymbol_joined {c : Char} {s joined : Symbol} (h : Symbol.ofChar? c = some s)
    (hj : s.withEqual? = some joined)
    (rest : List Char) : cutSymbol c ('=' :: rest) = (token (.symbol joined), rest) := by
  unfold cutSymbol
  rw [h]
  simp only [hj]

theorem of_head?_any {d : Char} (h : xs.head?.any (· == d) = true) : ∃ more, xs = d :: more := by
  cases xs with
  | nil => cases h
  | cons c more => exact ⟨more, by rw [show c = d from eq_of_beq h]⟩

/-- A symbol stops at what makes no longer one of it. -/
theorem stops_symbol (c : Char) : Stops (cutSymbol c) := by
  intro body rest rest' piece hcut _ hs
  have hequal := hs.symbol (d := '=') (by decide) rfl
  cases hc : Symbol.ofChar? c with
  | none =>
    rw [cutSymbol_none hc] at hcut ⊢
    obtain ⟨rfl, hrest⟩ := Prod.mk.inj hcut
    rw [List.append_left_eq_self.mp hrest, List.nil_append]
  | some s =>
    by_cases hj : s.withEqual? = none ∨ (body ++ rest).head?.any (· == '=') = false
    · rw [cutSymbol_some hc hj] at hcut
      obtain ⟨rfl, hrest⟩ := Prod.mk.inj hcut
      cases List.append_left_eq_self.mp hrest
      exact cutSymbol_some hc (hj.imp_right hequal.trans)
    · simp only [not_or, Bool.not_eq_false] at hj
      obtain ⟨joined, hjoined⟩ := Option.ne_none_iff_exists'.mp hj.1
      obtain ⟨more, hmore⟩ := of_head?_any hj.2
      rw [hmore, cutSymbol_joined hc hjoined] at hcut
      obtain ⟨rfl, rfl⟩ := Prod.mk.inj hcut
      have hbody : body = ['='] := (List.append_left_inj more).mp hmore
      subst hbody
      exact cutSymbol_joined hc hjoined rest'

/-- A comment, or a symbol or nothing. -/
def cutOther (c : Char) (cs : List Char) : Piece × List Char :=
  match c, cs with
  | '/', '/' :: rest => (lineComment (rest.takeWhile (· != '\n')), rest.dropWhile (· != '\n'))
  | '/', '*' :: rest => cutComment rest
  | c, cs => cutSymbol c cs

theorem cutOther_symbol {c : Char} (h : c = '/' → xs.head?.any (· == '/') = false ∧ xs.head?.any (· == '*') = false) :
    cutOther c xs = cutSymbol c xs := by
  unfold cutOther
  split
  next rest => cases (h rfl).1
  next rest => cases (h rfl).2
  next => rfl

theorem cutComment_ne_slash (cs : List Char) : (cutComment cs).1.text ≠ ['/'] := by
  unfold cutComment
  split <;> simp [text]

/-- By the first character: a comment, a symbol, a string, a number, a word or nothing known. -/
theorem stops_other (c : Char) : Stops (cutOther c) := by
  intro body rest rest' piece hcut hopen hs
  have hslash := head?_append (hs.symbol (d := '/') (by decide) rfl) body
  have hstar := head?_append (hs.symbol (d := '*') (by decide) rfl) body
  by_cases hsymbol : c = '/' → (body ++ rest).head?.any (· == '/') = false ∧ (body ++ rest).head?.any (· == '*') = false
  · rw [cutOther_symbol hsymbol] at hcut
    rw [cutOther_symbol (by rwa [hslash, hstar])]
    exact stops_symbol c body rest rest' piece hcut hopen hs
  · obtain ⟨rfl, hcomment⟩ := Classical.not_imp.mp hsymbol
    by_cases hline : (body ++ rest).head?.any (· == '/') = true
    · obtain ⟨more, hmore⟩ := of_head?_any hline
      rw [hmore] at hcut
      obtain ⟨hpiece, hrest⟩ := Prod.mk.inj hcut
      have hsplit := List.takeWhile_append_dropWhile (p := (· != '\n')) (l := more)
      generalize hcomment : more.takeWhile (· != '\n') = comment at hpiece hsplit
      rw [hrest] at hsplit
      rw [← hsplit] at hmore hrest
      have hbody : body = '/' :: comment := (List.append_left_inj rest).mp hmore
      subst hbody
      obtain ⟨htake, hdrop⟩ := takeWhile_alike hrest hs.newline
      show (lineComment ((comment ++ rest').takeWhile _), (comment ++ rest').dropWhile _) = _
      rw [htake, hdrop, hpiece]
    · have hstars : (body ++ rest).head?.any (· == '*') = true := by
        rw [← Bool.not_eq_false]
        exact fun h => hcomment ⟨Bool.eq_false_iff.mpr hline, h⟩
      obtain ⟨more, hmore⟩ := of_head?_any hstars
      rw [hmore] at hcut
      cases body with
      | nil =>
        have htext := cutComment_text more
        rw [show cutComment more = (piece, '*' :: more) from hmore ▸ hcut] at htext
        have hslash : piece.text = ['/'] := (List.append_left_inj _).mp htext
        exact absurd (congrArg (·.1.text) hcut.symm ▸ hslash) (cutComment_ne_slash more)
      | cons d body =>
        cases hmore
        exact stops_comment body rest rest' piece hcut hopen hs

theorem stops_cut (c : Char) : Stops (cut c) := by
  have hnothing (piece : Piece) : Stops fun cs => (piece, cs) := by
    intro body rest rest' q hcut _ _
    obtain ⟨rfl, hrest⟩ := Prod.mk.inj hcut
    rw [List.append_left_eq_self.mp hrest, List.nil_append]
  exact (hnothing newline).ite ((hnothing (blank c)).ite ((stops_number c).ite ((stops_word c).ite
    (stops_string.ite (stops_other c)))))

/-- The same piece, and a text that starts alike behind it. -/
theorem cut_alike {c : Char} {cs : List Char} (h : (cut c cs).1.isOpen = false) (hs : StartsAlike (cut c cs).2 rest') :
    ∃ body, cs = body ++ (cut c cs).2 ∧ (cut c cs).1.text = c :: body ∧ cut c (body ++ rest')
      = ((cut c cs).1, rest') := by
  have htext := cut_text c cs
  cases hp : (cut c cs).1.text with
  | nil => exact absurd hp (cut_ne_nil c cs)
  | cons d body =>
    rw [hp] at htext
    obtain ⟨rfl, hbody⟩ := List.cons.inj htext
    refine ⟨body, hbody.symm, rfl, stops_cut d body (cut d cs).2 rest' _ ?_ h hs⟩
    show cut d (body ++ (cut d cs).2) = _
    rw [show body ++ (cut d cs).2 = cs from hbody]

theorem pieces_cons (c : Char) (cs : List Char) : pieces (c :: cs) = (cut c cs).1 :: pieces (cut c cs).2 := by
  rw [pieces]

end Piece

end Lox
