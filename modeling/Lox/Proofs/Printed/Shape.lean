/-
  Lox.Proofs.Printed.Shape — what a printed tree is made of: words, quoted texts, and forms
  in parentheses, and that the text tells which (`Printed.split_lines`).

  A word has none of the characters that separate the pieces of a text, a quoted text no
  quote (`Printed.Clear`). So it is seen from the left where a piece ends, whatever follows it
  that starts with a separator (`Printed.split`); forms nest, so that is shown by recursion on
  the piece, together with what is left of a form.
-/

import Lox.Tree.Printer

namespace Lox

/-- A printed text as a tree of words, quoted texts and forms in parentheses. -/
inductive Printed where
  | word (text : String)
  | quoted (text : String)
  | form (parts : List Printed)

namespace Printed

mutual

def text : Printed → String
  | word text => text
  | quoted text => "\"" ++ text ++ "\""
  | form parts => "(" ++ " ".intercalate (texts parts) ++ ")"

def texts : List Printed → List String
  | [] => []
  | p :: rest => text p :: texts rest

end

/-- A form with a head, as trees have them. -/
abbrev headed (head : String) (parts : List Printed) : Printed := form (word head :: parts)

@[simp] theorem text_word (w : String) : (word w).text = w := rfl

@[simp] theorem text_headed (head : String) (parts : List Printed) :
    (headed head parts).text = Lox.form head (texts parts) := rfl

@[simp] theorem texts_append (ps qs : List Printed) : texts (ps ++ qs) = texts ps ++ texts qs := by
  induction ps with
  | nil => rfl
  | cons p rest ih => exact congrArg (p.text :: ·) ih

/-! ## Characters that separate -/

def separators : List Char := [' ', '(', ')', '"', '\n']

def IsWord (word : String) : Prop := word ≠ "" ∧ ∀ c ∈ word.toList, c ∉ separators

instance (word : String) : Decidable (IsWord word) :=
  decidable_of_iff (word ≠ "" ∧ word.toList.all (· ∉ separators) = true) (by simp [IsWord])

/-- Nothing, or a character that separates. -/
def Apart (cs : List Char) : Prop := ∀ c ∈ cs.head?, c ∈ separators

mutual

def Clear : Printed → Prop
  | word text => IsWord text
  | quoted text => '"' ∉ text.toList
  | form parts => AllClear parts

def AllClear : List Printed → Prop
  | [] => True
  | p :: rest => Clear p ∧ AllClear rest

end

/-! ## Where a piece ends -/

/-- Of two texts that start with a run of characters of a kind, the runs are the same. -/
theorem split_runs {p : Char → Prop} {as bs us vs : List Char} (ha : ∀ c ∈ as, p c) (hb : ∀ c ∈ bs, p c)
    (hu : ∀ c ∈ us.head?, ¬ p c) (hv : ∀ c ∈ vs.head?, ¬ p c) (h : as ++ us = bs ++ vs) : as = bs ∧ us = vs := by
  induction as generalizing bs with
  | nil =>
    cases bs with
    | nil => exact ⟨rfl, h⟩
    | cons b bs =>
      have hub : us = b :: (bs ++ vs) := h
      exact absurd (hb b (List.mem_cons_self ..)) (hu b (by rw [hub]; rfl))
  | cons a as ih =>
    cases bs with
    | nil =>
      have hva : a :: (as ++ us) = vs := h
      exact absurd (ha a (List.mem_cons_self ..)) (hv a (by rw [← hva]; rfl))
    | cons b bs =>
      obtain ⟨hab, hrest⟩ := List.cons.inj h
      obtain ⟨has, hus⟩ :=
        ih (fun c hc => ha c (List.mem_cons_of_mem _ hc)) (fun c hc => hb c (List.mem_cons_of_mem _ hc)) hrest
      exact ⟨by rw [hab, has], hus⟩

/-- What follows the first part of a form. -/
def behind : List Printed → List Char
  | [] => [')']
  | p :: rest => ' ' :: (p.text.toList ++ behind rest)

theorem apart_behind (ps : List Printed) (us : List Char) : Apart (behind ps ++ us) := by
  intro c hc
  cases ps with
  | nil =>
    cases hc
    decide
  | cons p rest =>
    cases hc
    decide

theorem toList_behind (p : Printed) (rest : List Printed) :
    (" ".intercalate (texts (p :: rest))).toList ++ [')'] = p.text.toList ++ behind rest := by
  induction rest generalizing p with
  | nil => rw [texts, texts, String.intercalate_singleton, behind]
  | cons q rest ih =>
    rw [texts, texts, String.intercalate_cons_cons, String.toList_append, String.toList_append, List.append_assoc,
      List.append_assoc]
    exact congrArg (fun cs => p.text.toList ++ ' ' :: cs) (ih q)

theorem toList_nil : (form []).text.toList = ['(', ')'] := by
  rw [text, texts, String.intercalate_nil]
  rfl

theorem toList_form (p : Printed) (rest : List Printed) :
    (form (p :: rest)).text.toList = '(' :: (p.text.toList ++ behind rest) := by
  rw [text, String.toList_append, String.toList_append, List.append_assoc, ← toList_behind]
  rfl

theorem toList_quoted (t : String) : (quoted t).text.toList = '"' :: (t.toList ++ ['"']) := by
  rw [text, String.toList_append, String.toList_append, List.append_assoc]
  rfl

theorem toList_word {w : String} (h : IsWord w) : ∃ c cs, w.toList = c :: cs ∧ c ∉ separators := by
  cases hw : w.toList with
  | nil => exact absurd (String.toList_eq_nil_iff.mp hw) h.1
  | cons c cs => exact ⟨c, cs, rfl, h.2 c (by rw [hw]; exact List.mem_cons_self ..)⟩

/-- The first character tells what follows; none is a closing parenthesis. -/
inductive Starts : Printed → Char → Prop
  | word {w : String} {c : Char} : c ∉ separators → Starts (.word w) c
  | quoted {t : String} : Starts (.quoted t) '"'
  | form {ps : List Printed} : Starts (.form ps) '('

theorem starts {p : Printed} (h : p.Clear) : ∃ c cs, p.text.toList = c :: cs ∧ Starts p c := by
  cases p with
  | word w =>
    obtain ⟨c, cs, hw, hc⟩ := toList_word h
    exact ⟨c, cs, hw, .word hc⟩
  | quoted t => exact ⟨'"', _, toList_quoted t, .quoted⟩
  | form ps =>
    cases ps with
    | nil => exact ⟨'(', _, toList_nil, .form⟩
    | cons p rest => exact ⟨'(', _, toList_form p rest, .form⟩

theorem Starts.not_close {p : Printed} {c : Char} (h : Starts p c) : c ≠ ')' := by
  rintro rfl
  cases h with
  | word hc => exact hc (by decide)

theorem split_words {w w' : String} {us vs : List Char} (hw : IsWord w) (hw' : IsWord w') (hu : Apart us)
    (hv : Apart vs) (h : w.toList ++ us = w'.toList ++ vs) : w = w' ∧ us = vs := by
  obtain ⟨hword, hrest⟩ := split_runs (p := (· ∉ separators)) hw.2 hw'.2 (fun c hc hn => hn (hu c hc))
    (fun c hc hn => hn (hv c hc)) h
  exact ⟨String.toList_inj.mp hword, hrest⟩

/-- A text ends at the first quote. -/
theorem split_quoted {t t' : String} {us vs : List Char} (ht : '"' ∉ t.toList) (ht' : '"' ∉ t'.toList)
    (h : t.toList ++ '"' :: us = t'.toList ++ '"' :: vs) : t = t' ∧ us = vs := by
  have hquote : ∀ cs : List Char, ∀ c ∈ ('"' :: cs).head?, ¬ c ≠ '"' := by
    intro cs c hc hn
    cases hc
    exact hn rfl
  obtain ⟨htext, hrest⟩ := split_runs (p := (· ≠ '"')) (fun c hc he => ht (he ▸ hc)) (fun c hc he => ht' (he ▸ hc))
    (hquote us) (hquote vs) h
  exact ⟨String.toList_inj.mp htext, (List.cons.inj hrest).2⟩

mutual

/-- From the left it is seen what the first piece of a text is. -/
theorem split : ∀ {p q : Printed} {us vs : List Char}, p.Clear → q.Clear → Apart us → Apart vs →
    p.text.toList ++ us = q.text.toList ++ vs → p = q ∧ us = vs
  | .word w, q, us, vs, hp, hq, hu, hv, h => by
    obtain ⟨c, cs, hw, hc⟩ := toList_word hp
    obtain ⟨d, ds, hd, hstarts⟩ := starts hq
    have hcd : c = d := by
      rw [text, hw, hd] at h
      exact (List.cons.inj h).1
    subst hcd
    cases hstarts with
    | @word w' _ _ =>
      obtain ⟨rfl, hrest⟩ := split_words hp hq hu hv h
      exact ⟨rfl, hrest⟩
    | quoted => exact absurd (by decide) hc
    | form => exact absurd (by decide) hc
  | .quoted t, q, us, vs, hp, hq, hu, hv, h => by
    obtain ⟨d, ds, hd, hstarts⟩ := starts hq
    have hcd : '"' = d := by
      rw [toList_quoted, hd] at h
      exact (List.cons.inj h).1
    subst hcd
    cases hstarts with
    | word hc => exact absurd (by decide) hc
    | @quoted t' =>
      simp only [toList_quoted, List.cons_append, List.append_assoc] at h
      obtain ⟨rfl, hrest⟩ := split_quoted hp hq (List.cons.inj h).2
      exact ⟨rfl, hrest⟩
  | .form ps, q, us, vs, hp, hq, hu, hv, h => by
    obtain ⟨d, ds, hd, hstarts⟩ := starts hq
    obtain ⟨c, cs, hc, hstarts'⟩ := starts (p := .form ps) hp
    have hcd : c = d := by
      rw [hc, hd] at h
      exact (List.cons.inj h).1
    subst hcd
    cases hstarts' with
    | form =>
      cases hstarts with
      | word hsep => exact absurd (by decide) hsep
      | @form qs =>
        obtain ⟨hparts, hrest⟩ := split_form hp hq hu hv h
        exact ⟨congrArg form hparts, hrest⟩

/-- A form in parentheses ends where they are closed. -/
theorem split_form : ∀ {ps qs : List Printed} {us vs : List Char}, AllClear ps → AllClear qs → Apart us → Apart vs →
    (form ps).text.toList ++ us = (form qs).text.toList ++ vs → ps = qs ∧ us = vs
  | [], [], us, vs, _, _, _, _, h => ⟨rfl, List.append_cancel_left h⟩
  | [], q :: qs, us, vs, _, hq, _, _, h => by
    obtain ⟨d, ds, hd, hstarts⟩ := starts hq.1
    rw [toList_nil, toList_form, hd] at h
    exact absurd (List.cons.inj (List.cons.inj h).2).1.symm hstarts.not_close
  | p :: ps, [], us, vs, hp, _, _, _, h => by
    obtain ⟨c, cs, hc, hstarts⟩ := starts hp.1
    rw [toList_nil, toList_form, hc] at h
    exact absurd (List.cons.inj (List.cons.inj h).2).1 hstarts.not_close
  | p :: ps, q :: qs, us, vs, hp, hq, hu, hv, h => by
    rw [toList_form, toList_form, List.cons_append, List.cons_append, List.append_assoc, List.append_assoc] at h
    obtain ⟨rfl, hrest⟩ := split hp.1 hq.1 (apart_behind ps us) (apart_behind qs vs) (List.cons.inj h).2
    obtain ⟨rfl, hend⟩ := split_behind hp.2 hq.2 hu hv hrest
    exact ⟨rfl, hend⟩

/-- The parts of a form are told apart one by one. -/
theorem split_behind : ∀ {ps qs : List Printed} {us vs : List Char}, AllClear ps → AllClear qs → Apart us → Apart vs →
    behind ps ++ us = behind qs ++ vs → ps = qs ∧ us = vs
  | [], [], us, vs, _, _, _, _, h => ⟨rfl, (List.cons.inj h).2⟩
  | [], _ :: _, _, _, _, _, _, _, h => absurd (List.cons.inj h).1 (by decide)
  | _ :: _, [], _, _, _, _, _, _, h => absurd (List.cons.inj h).1 (by decide)
  | p :: ps, q :: qs, us, vs, hp, hq, hu, hv, h => by
    simp only [behind, List.cons_append, List.append_assoc] at h
    obtain ⟨rfl, hrest⟩ := split hp.1 hq.1 (apart_behind ps us) (apart_behind qs vs) (List.cons.inj h).2
    obtain ⟨rfl, hend⟩ := split_behind hp.2 hq.2 hu hv hrest
    exact ⟨rfl, hend⟩

end

/-- Lines of printed pieces. -/
theorem split_lines {ps qs : List Printed} (hp : AllClear ps) (hq : AllClear qs)
    (h : ps.flatMap (fun p => p.text.toList ++ ['\n']) = qs.flatMap fun q => q.text.toList ++ ['\n']) : ps = qs := by
  have hnewline : ∀ cs, Apart ('\n' :: cs) := fun cs c hc => by
    cases hc
    decide
  induction ps generalizing qs with
  | nil =>
    cases qs with
    | nil => rfl
    | cons q qs => simp at h
  | cons p ps ih =>
    cases qs with
    | nil => simp at h
    | cons q qs =>
      simp only [List.flatMap_cons, List.append_assoc, List.singleton_append] at h
      obtain ⟨rfl, hrest⟩ := split hp.1 hq.1 (hnewline _) (hnewline _) h
      rw [ih hp.2 hq.2 (List.cons.inj hrest).2]

end Printed

end Lox
