/-
  Lox.Proofs.Token.Lexemes — the lexemes: numbers, words, quoted strings and operators.

  `Spells t w`: the text `w` is a lexeme of the terminal `t`. A lexeme belongs to one
  terminal (`spells_unique`), which its first character tells but for the spelling of
  keywords. What is taken off a text as a number, a word, a string or an operator is the
  longest lexeme that the text starts with (`longest_number` and its like).
-/

import Lox.Proofs.Token.Cuts

namespace Lox

namespace Piece

variable {c d : Char} {cs ds w v body rest : List Char} {t t' : Terminal} {p q : Piece}

/-! ## Lexemes -/

/-- Digits, or digits, a point and digits. -/
inductive IsNumber : List Char → Prop
  | whole {ds : List Char} : ds ≠ [] → (∀ d ∈ ds, isDigit d = true) → IsNumber ds
  | parts {ds fs : List Char} : ds ≠ [] → (∀ d ∈ ds, isDigit d = true) → fs ≠ [] → (∀ f ∈ fs, isDigit f = true) →
      IsNumber (ds ++ '.' :: fs)

/-- A letter, and letters and digits behind it. -/
def IsWord : List Char → Prop
  | [] => False
  | c :: cs => isLetter c = true ∧ ∀ d ∈ cs, isWordChar d = true

/-- The lexemes of each terminal. A word is a keyword if it is spelled as one. -/
inductive Spells : Terminal → List Char → Prop
  | number {w : List Char} : IsNumber w → Spells (.number (String.ofList w)) w
  | string {body : List Char} : '"' ∉ body → Spells (.string (String.ofList body)) ('"' :: (body ++ ['"']))
  | keyword (k : Keyword) : Spells (.keyword k) k.text.toList
  | ident {w : List Char} : IsWord w → (∀ k : Keyword, k.text.toList ≠ w) → Spells (.ident (String.ofList w)) w
  | symbol (s : Symbol) : Spells (.symbol s) s.text.toList

/-- No lexeme that the text starts with is longer. -/
def IsLongest (w text : List Char) : Prop := ∀ t v, Spells t v → v <+: text → v.length ≤ w.length

/-! ## How a lexeme starts -/

theorem word_keyword (k : Keyword) : IsWord k.text.toList := by
  cases k <;> exact ⟨rfl, List.all_eq_true.mp rfl⟩

/-- One character, or one and an equals sign. -/
theorem symbol_text (s : Symbol) :
    (∃ c, s.text.toList = [c] ∧ Symbol.ofChar? c = some s) ∨
      ∃ c first, s.text.toList = [c, '='] ∧ Symbol.ofChar? c = some first ∧ first.withEqual? = some s := by
  cases s with
  | bangEqual | equalEqual | lessEqual | greaterEqual => exact Or.inr ⟨_, _, rfl, rfl, rfl⟩
  | _ => exact Or.inl ⟨_, rfl, rfl⟩

/-- The first characters of a terminal's lexemes. -/
def starts : Terminal → Char → Bool
  | .number _, c => isDigit c
  | .string _, c => c == '"'
  | .keyword _, c | .ident _, c => isLetter c
  | .symbol _, c => (Symbol.ofChar? c).isSome

theorem number_starts (h : IsNumber (c :: cs)) : isDigit c = true := by
  generalize hw : c :: cs = w at h
  cases h with
  | whole hne hall => exact hall c (hw ▸ List.mem_cons_self ..)
  | @parts ds fs hne hall =>
    cases ds with
    | nil => exact absurd rfl hne
    | cons d ds => exact (List.cons.inj hw).1 ▸ hall d (List.mem_cons_self ..)

theorem number_ne_nil (h : IsNumber w) : w ≠ [] := by
  cases h with
  | whole hne => exact hne
  | parts => exact List.append_ne_nil_of_right_ne_nil _ (List.cons_ne_nil _ _)

/-- The first character tells what kind of lexeme may follow. -/
theorem spells_starts (h : Spells t w) : ∃ c cs, w = c :: cs ∧ starts t c = true := by
  cases h with
  | @number w hn =>
    cases w with
    | nil => exact absurd rfl (number_ne_nil hn)
    | cons c cs => exact ⟨c, cs, rfl, number_starts hn⟩
  | string => exact ⟨_, _, rfl, rfl⟩
  | keyword k =>
    have hword := word_keyword k
    cases hw : k.text.toList with
    | nil => rw [hw] at hword; exact hword.elim
    | cons c cs => rw [hw] at hword; exact ⟨c, cs, rfl, hword.1⟩
  | @ident w hword =>
    cases w with
    | nil => exact hword.elim
    | cons c cs => exact ⟨c, cs, rfl, hword.1⟩
  | symbol s =>
    rcases symbol_text s with ⟨c, hw, hc⟩ | ⟨c, first, hw, hc, -⟩
    · exact ⟨c, [], hw, Option.isSome_of_eq_some hc⟩
    · exact ⟨c, ['='], hw, Option.isSome_of_eq_some hc⟩

theorem spells_text (h : Spells t w) : t.text.toList = w := by
  cases h with
  | string => simp [Terminal.text]
  | number | ident => exact String.toList_ofList
  | keyword | symbol => rfl

theorem symbol_char {s : Symbol} (h : Symbol.ofChar? c = some s) :
    isDigit c = false ∧ isLetter c = false ∧ c ≠ '"' ∧ c ≠ '\n' ∧ isBlank c = false := by
  unfold Symbol.ofChar? at h
  split at h <;> cases h <;> decide

/-! ## White characters -/

def whites : List Char := ['\n', ' ', '\t', '\r']

theorem whites_cases (h : c ∈ whites) : c = '\n' ∨ c = ' ' ∨ c = '\t' ∨ c = '\r' := by
  simpa [whites] using h

theorem wordChar_not_white (h : isWordChar c = true) : c ∉ whites := by
  intro hc
  rcases whites_cases hc with rfl | rfl | rfl | rfl <;> cases h

theorem digit_not_white (h : isDigit c = true) : c ∉ whites :=
  wordChar_not_white (by rw [isWordChar, h, Bool.or_true])

theorem word_not_white (h : IsWord w) : ∀ c ∈ w, c ∉ whites := by
  cases w with
  | nil => exact h.elim
  | cons c cs =>
    have hc : isWordChar c = true := by rw [isWordChar, h.1, Bool.true_or]
    exact List.forall_mem_cons.mpr ⟨wordChar_not_white hc, fun d hd => wordChar_not_white (h.2 d hd)⟩

theorem number_not_white (h : IsNumber w) : ∀ c ∈ w, c ∉ whites := by
  cases h with
  | whole _ hall => exact fun c hc => digit_not_white (hall c hc)
  | parts _ hall _ hplaces =>
    intro c hc
    rcases List.mem_append.mp hc with hc | hc
    · exact digit_not_white (hall c hc)
    · rcases List.mem_cons.mp hc with rfl | hc
      · decide
      · exact digit_not_white (hplaces c hc)

/-- Only a string has white characters in it. -/
theorem spells_not_white (h : Spells t w) (ht : ∀ body, t ≠ .string body) : ∀ c ∈ w, c ∉ whites := by
  cases h with
  | number h => exact number_not_white h
  | string => exact absurd rfl (ht _)
  | keyword k => exact word_not_white (word_keyword k)
  | ident h => exact word_not_white h
  | symbol s =>
    have hall : s.text.toList.all (· ∉ whites) = true := by cases s <;> rfl
    exact fun c hc => of_decide_eq_true (List.all_eq_true.mp hall c hc)

/-! ## A lexeme by its first character -/

theorem starts_cons (h : Spells t (c :: cs)) : starts t c = true := by
  obtain ⟨d, ds, hw, hd⟩ := spells_starts h
  exact (List.cons.inj hw).1 ▸ hd

/-- A lexeme that starts with a digit is a number. -/
theorem spells_digit (hc : isDigit c = true) (h : Spells t (c :: cs)) :
    IsNumber (c :: cs) ∧ t = .number (String.ofList (c :: cs)) := by
  have hstarts := starts_cons h
  generalize hw : c :: cs = w at h ⊢
  cases h with
  | number hn => exact ⟨hn, rfl⟩
  | string =>
    rw [eq_of_beq hstarts] at hc
    cases hc
  | keyword | ident =>
    rw [not_digit_of_letter hstarts] at hc
    cases hc
  | symbol s =>
    obtain ⟨first, hfirst⟩ := Option.isSome_iff_exists.mp hstarts
    rw [(symbol_char hfirst).1] at hc
    cases hc

/-- A lexeme that starts with a letter is a word. -/
theorem spells_letter (hc : isLetter c = true) (h : Spells t (c :: cs)) :
    IsWord (c :: cs) ∧ t = wordTerminal (String.ofList (c :: cs)) := by
  have hstarts := starts_cons h
  generalize hw : c :: cs = w at h ⊢
  cases h with
  | number => exact absurd ((not_digit_of_letter hc).symm.trans hstarts) Bool.false_ne_true
  | string => exact absurd (eq_of_beq hstarts) (ne_of_letter hc rfl)
  | keyword k =>
    refine ⟨word_keyword k, ?_⟩
    rw [String.ofList_toList, wordTerminal, Keyword.ofText?_text]
  | ident hword hkeyword =>
    refine ⟨hword, ?_⟩
    have hnone : Keyword.ofText? (String.ofList w) = none := by
      refine List.find?_eq_none.mpr fun k _ hk => hkeyword k ?_
      rw [of_decide_eq_true hk, String.toList_ofList]
    rw [wordTerminal, hnone]
  | symbol s =>
    obtain ⟨first, hfirst⟩ := Option.isSome_iff_exists.mp hstarts
    rw [(symbol_char hfirst).2.1] at hc
    cases hc

theorem spells_quote (h : Spells t ('"' :: cs)) :
    ∃ body, '"' ∉ body ∧ cs = body ++ ['"'] ∧ t = .string (String.ofList body) := by
  have hstarts := starts_cons h
  generalize hw : '"' :: cs = w at h
  cases h with
  | string hbody => exact ⟨_, hbody, (List.cons.inj hw).2, rfl⟩
  | _ => cases hstarts

/-- A lexeme that starts with a symbol is that symbol, or the one joined with an equals sign. -/
theorem spells_symbol {s : Symbol} (hc : Symbol.ofChar? c = some s) (h : Spells t (c :: cs)) :
    (cs = [] ∧ t = .symbol s) ∨ ∃ joined, s.withEqual? = some joined ∧ cs = ['='] ∧ t = .symbol joined := by
  have hstarts := starts_cons h
  obtain ⟨hdigit, hletter, hquote, -⟩ := symbol_char hc
  generalize hw : c :: cs = w at h
  cases h with
  | number => exact absurd (hdigit.symm.trans hstarts) Bool.false_ne_true
  | string => exact absurd (eq_of_beq hstarts) hquote
  | keyword | ident => exact absurd (hletter.symm.trans hstarts) Bool.false_ne_true
  | symbol s' =>
    rcases symbol_text s' with ⟨d, hd, hs⟩ | ⟨d, first, hd, hs, hjoined⟩
    · obtain ⟨rfl, rfl⟩ := List.cons.inj (hw.trans hd)
      obtain rfl : s = s' := Option.some.inj (hc.symm.trans hs)
      exact Or.inl ⟨rfl, rfl⟩
    · obtain ⟨rfl, rfl⟩ := List.cons.inj (hw.trans hd)
      obtain rfl : s = first := Option.some.inj (hc.symm.trans hs)
      exact Or.inr ⟨s', hjoined, rfl, rfl⟩

/-- A lexeme belongs to one terminal. -/
theorem spells_unique (h : Spells t w) (h' : Spells t' w) : t = t' := by
  obtain ⟨c, cs, rfl, hc⟩ := spells_starts h
  cases t with
  | number => rw [(spells_digit hc h).2, (spells_digit hc h').2]
  | keyword | ident => rw [(spells_letter hc h).2, (spells_letter hc h').2]
  | string =>
    obtain rfl : c = '"' := eq_of_beq hc
    obtain ⟨body, -, hw, ht⟩ := spells_quote h
    obtain ⟨body', -, hw', ht'⟩ := spells_quote h'
    rw [ht, ht', List.append_cancel_right (hw.symm.trans hw')]
  | symbol =>
    obtain ⟨s, hs⟩ := Option.isSome_iff_exists.mp hc
    rcases spells_symbol hs h with ⟨rfl, ht⟩ | ⟨joined, hj, rfl, ht⟩ <;>
      rcases spells_symbol hs h' with ⟨hw, ht'⟩ | ⟨joined', hj', hw, ht'⟩
    · rw [ht, ht']
    · cases hw
    · cases hw
    · rw [ht, ht', Option.some.inj (hj.symm.trans hj')]

/-! ## The longest lexeme -/

/-- A text with a property is as long as what starts with it at most. -/
theorem length_le_takeWhile {p : Char → Bool} (hv : v <+: cs) (hall : ∀ d ∈ v, p d = true) :
    v.length ≤ (cs.takeWhile p).length := by
  obtain ⟨more, rfl⟩ := hv
  rw [List.takeWhile_append_of_pos hall, List.length_append]
  exact Nat.le_add_right _ _

theorem bne_of_not_mem (h : d ∉ cs) : ∀ c ∈ cs, (c != d) = true := by
  intro c hc
  rw [bne_iff_ne]
  rintro rfl
  exact h hc

/-- Either there is no fraction, or there is a point with at least one digit behind. -/
theorem fraction_cases (xs : List Char) :
    fraction xs = ([], xs) ∧ hasFraction xs = false ∨
      ∃ d more, isDigit d = true ∧ xs = '.' :: d :: more ∧
        fraction xs = ('.' :: d :: more.takeWhile isDigit, more.dropWhile isDigit) := by
  by_cases hf : hasFraction xs = true
  · unfold hasFraction at hf
    split at hf
    next first d more =>
      obtain ⟨hpoint, hd⟩ := Bool.and_eq_true_iff.mp hf
      cases eq_of_beq hpoint
      exact Or.inr ⟨d, more, hd, rfl, fraction_some hd more⟩
    next => cases hf
  · rw [Bool.not_eq_true] at hf
    exact Or.inl ⟨fraction_none hf, hf⟩

/-- Digits and a fraction behind them are a number. -/
theorem number_taken (hc : isDigit c = true) (cs : List Char) :
    IsNumber (c :: cs.takeWhile isDigit ++ (fraction (cs.dropWhile isDigit)).1) := by
  have hall : ∀ d ∈ c :: cs.takeWhile isDigit, isDigit d = true :=
    List.forall_mem_cons.mpr ⟨hc, all_takeWhile isDigit cs⟩
  rcases fraction_cases (cs.dropWhile isDigit) with ⟨hf, -⟩ | ⟨d, more, hd, -, hf⟩
  · rw [hf, List.append_nil]
    exact .whole (List.cons_ne_nil _ _) hall
  · rw [hf]
    refine .parts (List.cons_ne_nil _ _) hall (List.cons_ne_nil _ _) ?_
    exact List.forall_mem_cons.mpr ⟨hd, all_takeWhile isDigit more⟩

/-- A number in front of the text goes on as far as the one that is taken at most. -/
theorem number_longest (hv : IsNumber (c :: v)) (hpre : v <+: cs) :
    v.length ≤ (cs.takeWhile isDigit ++ (fraction (cs.dropWhile isDigit)).1).length := by
  rw [List.length_append]
  generalize hw : c :: v = w at hv
  cases hv with
  | whole _ hall =>
    subst hw
    have hdigits := length_le_takeWhile hpre fun d hd => hall d (List.mem_cons_of_mem c hd)
    omega
  | @parts ds fs hne hall hfs hplaces =>
    cases ds with
    | nil => exact absurd rfl hne
    | cons d ds =>
      obtain ⟨rfl, rfl⟩ : c = d ∧ v = ds ++ '.' :: fs := List.cons.inj hw
      obtain ⟨more, rfl⟩ := hpre
      cases fs with
      | nil => exact absurd rfl hfs
      | cons f fs =>
        have hds : ∀ a ∈ ds, isDigit a = true := fun a ha => hall a (List.mem_cons_of_mem _ ha)
        have hstop : ('.' :: f :: (fs ++ more)).head?.any isDigit = false := rfl
        obtain ⟨htake, hdrop⟩ := takeWhile_append hds hstop
        have htext : ds ++ '.' :: f :: fs ++ more = ds ++ '.' :: f :: (fs ++ more) := by simp
        have hmore := length_le_takeWhile (List.prefix_append fs more) fun a ha => hplaces a (List.mem_cons_of_mem f ha)
        rw [htext, htake, hdrop, fraction_some (hplaces f (List.mem_cons_self ..))]
        simp only [List.length_append, List.length_cons]
        omega

theorem longest_number (hc : isDigit c = true) (cs : List Char) :
    IsLongest (c :: cs.takeWhile isDigit ++ (fraction (cs.dropWhile isDigit)).1) (c :: cs) := by
  intro t v hv hpre
  obtain ⟨d, ds, rfl, -⟩ := spells_starts hv
  obtain ⟨rfl, hrest⟩ := List.cons_prefix_cons.mp hpre
  exact Nat.succ_le_succ (number_longest (spells_digit hc hv).1 hrest)

theorem longest_word (hc : isLetter c = true) (cs : List Char) :
    IsLongest (c :: cs.takeWhile isWordChar) (c :: cs) := by
  intro t v hv hpre
  obtain ⟨d, ds, rfl, -⟩ := spells_starts hv
  obtain ⟨rfl, hrest⟩ := List.cons_prefix_cons.mp hpre
  exact Nat.succ_le_succ (length_le_takeWhile hrest (spells_letter hc hv).1.2)

/-- A string ends at the first quote. -/
theorem longest_string (hbody : '"' ∉ body) (rest : List Char) :
    IsLongest ('"' :: (body ++ ['"'])) ('"' :: (body ++ '"' :: rest)) := by
  intro t v hv hpre
  obtain ⟨d, ds, rfl, -⟩ := spells_starts hv
  obtain ⟨rfl, hrest⟩ := List.cons_prefix_cons.mp hpre
  obtain ⟨inner, hinner, rfl, -⟩ := spells_quote hv
  have hlength := length_le_takeWhile ((List.prefix_append inner ['"']).trans hrest) (bne_of_not_mem hinner)
  have hstop : ('"' :: rest).head?.any (· != '"') = false := rfl
  rw [(takeWhile_append (bne_of_not_mem hbody) hstop).1] at hlength
  simpa using hlength

/-- A symbol is the longest lexeme, where no equals sign makes a longer one of it. -/
theorem longest_symbol {s : Symbol} (hc : Symbol.ofChar? c = some s)
    (hj : s.withEqual? = none ∨ cs.head?.any (· == '=') = false) : IsLongest [c] (c :: cs) := by
  intro t v hv hpre
  obtain ⟨d, ds, rfl, -⟩ := spells_starts hv
  obtain ⟨rfl, hrest⟩ := List.cons_prefix_cons.mp hpre
  rcases spells_symbol hc hv with ⟨rfl, -⟩ | ⟨joined, hjoined, rfl, -⟩
  · exact Nat.le_refl _
  · obtain ⟨more, rfl⟩ := hrest
    rcases hj with hj | hj
    · rw [hj] at hjoined
      cases hjoined
    · cases hj

theorem longest_joined {s : Symbol} (hc : Symbol.ofChar? c = some s) (cs : List Char) :
    IsLongest [c, '='] (c :: cs) := by
  intro t v hv hpre
  obtain ⟨d, ds, rfl, -⟩ := spells_starts hv
  obtain ⟨rfl, -⟩ := List.cons_prefix_cons.mp hpre
  rcases spells_symbol hc hv with ⟨rfl, -⟩ | ⟨joined, -, rfl, -⟩
  · exact Nat.le_succ _
  · exact Nat.le_refl _

end Piece

end Lox
