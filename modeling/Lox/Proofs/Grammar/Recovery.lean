/-
  Lox.Proofs.Grammar.Recovery — where reading resumes after an error.

  A declaration that is given up ends at its offending token, and reading resumes behind
  that token: at the end, before the first keyword there that starts a statement, or
  behind the first semicolon from the offending token on (`recovery_resumes`). The
  offending token is passed over whatever it is. So if it starts a statement itself, as
  when only a semicolon is missing in front of it, the statement is lost
  (`print_passed_over`); in every other case reading resumes at the first place that lets
  a statement begin.
-/

import Lox.Proofs.Grammar.Built
import Lox.Proofs.Grammar.Offending

namespace Lox.Grammar

variable {ts : List Token} {e r : Nat}

/-! ## Places to resume at -/

/-- A statement may begin at the index, for an error at `e`. -/
def Resumable (ts : List Token) (e r : Nat) : Prop :=
  ts.length ≤ r ∨ (∃ t, ts[r]? = some t ∧ t.terminal.startsStatement = true) ∨
    (e < r ∧ ∃ t, ts[r - 1]? = some t ∧ t.terminal = .symbol .semicolon)

/-- The first index from `low` on. -/
def IsFirst (P : Nat → Prop) (low r : Nat) : Prop := low ≤ r ∧ P r ∧ ∀ k, low ≤ k → k < r → ¬ P k

theorem IsFirst.step {P : Nat → Prop} {low : Nat} (h : IsFirst P (low + 1) r) (hlow : ¬ P low) : IsFirst P low r := by
  refine ⟨by have := h.1; omega, h.2.1, fun k hk hkr => ?_⟩
  rcases Nat.eq_or_lt_of_le hk with rfl | hlt
  · exact hlow
  · exact h.2.2 k hlt hkr

/-- Behind the next token it does not matter where the error was. -/
theorem resumable_succ {k : Nat} (hk : e + 1 < k) : Resumable ts (e + 1) k ↔ Resumable ts e k := by
  unfold Resumable
  simp only [hk, Nat.lt_of_succ_lt hk, true_and]

/-- Behind an error reading goes on at the first place behind the offending token that a
statement may begin at. -/
theorem resume_drop (ts : List Token) (e : Nat) (he : e ≤ ts.length) :
    ∃ r, resume (ts.drop e) = ts.drop r ∧ r ≤ ts.length ∧ IsFirst (Resumable ts e) (min (e + 1) ts.length) r := by
  generalize hts : ts.drop e = rest
  induction rest using resume.induct generalizing e with
  | case1 =>
    have hlength : ts.length ≤ e := List.drop_eq_nil_iff.mp hts
    refine ⟨ts.length, by rw [List.drop_length, resume], Nat.le_refl _, by omega, Or.inl (Nat.le_refl _), ?_⟩
    exact fun k hk hkr => by omega
  | case2 t =>
    have hlength : ts.length - e = 1 := by rw [← List.length_drop, hts]; rfl
    refine ⟨ts.length, by rw [List.drop_length, resume], Nat.le_refl _, by omega, Or.inl (Nat.le_refl _), ?_⟩
    exact fun k hk hkr => by omega
  | case3 t next rest hstop =>
    have hlength : ts.length - e = rest.length + 2 := by rw [← List.length_drop, hts]; rfl
    have ht : ts[e]? = some t := by rw [← List.head?_drop, hts]; rfl
    have hdrop : ts.drop (e + 1) = next :: rest := by rw [← List.tail_drop, hts]; rfl
    have hnext : ts[e + 1]? = some next := by rw [← List.head?_drop, hdrop]; rfl
    refine ⟨e + 1, by rw [resume, if_pos hstop, hdrop], by omega, by omega, ?_, fun k hk hkr => by omega⟩
    simp only [Bool.or_eq_true, decide_eq_true_eq] at hstop
    rcases hstop with hsemi | hstarts
    · exact Or.inr (Or.inr ⟨Nat.lt_succ_self e, t, ht, hsemi⟩)
    · exact Or.inr (Or.inl ⟨next, hnext, hstarts⟩)
  | case4 t next rest hstop ih =>
    have hlength : ts.length - e = rest.length + 2 := by rw [← List.length_drop, hts]; rfl
    have ht : ts[e]? = some t := by rw [← List.head?_drop, hts]; rfl
    have hdrop : ts.drop (e + 1) = next :: rest := by rw [← List.tail_drop, hts]; rfl
    have hnext : ts[e + 1]? = some next := by rw [← List.head?_drop, hdrop]; rfl
    obtain ⟨r, hr, hle, hlow, hres, hfirst⟩ := ih (e + 1) (by omega) hdrop
    have hmin : min (e + 1) ts.length = e + 1 := by omega
    have hmin' : min (e + 1 + 1) ts.length = e + 1 + 1 := by omega
    rw [hmin'] at hlow hfirst
    refine ⟨r, by rw [resume, if_neg hstop, hr], hle, ?_⟩
    rw [hmin]
    refine IsFirst.step ⟨hlow, (resumable_succ (by omega)).mp hres, fun k hk hkr hp => ?_⟩ ?_
    · exact hfirst k hk hkr ((resumable_succ (by omega)).mpr hp)
    · simp only [Bool.or_eq_true, decide_eq_true_eq, not_or, Bool.not_eq_true] at hstop
      rintro (hend | ⟨u, hu, hstarts⟩ | ⟨-, u, hu, hsemi⟩)
      · omega
      · obtain rfl : next = u := Option.some.inj (hnext.symm.trans hu)
        rw [hstop.2] at hstarts
        cases hstarts
      · obtain rfl : t = u := Option.some.inj (ht.symm.trans hu)
        exact hstop.1 hsemi

/-- The place to resume at is also the first one from the offending token on unless that
token starts a statement. -/
theorem isFirst_iff (he : e ≤ ts.length) (h : IsFirst (Resumable ts e) (min (e + 1) ts.length) r) :
    IsFirst (Resumable ts e) e r ↔ ∀ t, ts[e]? = some t → t.terminal.startsStatement = false := by
  rcases Nat.eq_or_lt_of_le he with rfl | hlt
  · rw [Nat.min_eq_right (Nat.le_succ _)] at h
    refine ⟨fun _ t ht => ?_, fun _ => h⟩
    rw [List.getElem?_eq_none (Nat.le_refl _)] at ht
    cases ht
  · rw [Nat.min_eq_left hlt] at h
    constructor
    · intro hfirst t ht
      have hnot := hfirst.2.2 e (Nat.le_refl _) h.1
      exact Bool.eq_false_iff.mpr fun hstarts => hnot (Or.inr (Or.inl ⟨t, ht, hstarts⟩))
    · refine fun hstarts => h.step ?_
      rintro (hend | ⟨t, ht, hs⟩ | ⟨hself, -⟩)
      · omega
      · rw [hstarts t ht] at hs
        cases hs
      · exact absurd hself (Nat.lt_irrefl e)

/-! ## The offending token -/

theorem fault_spot {tokens : Tokens} {s : State} (hrest : s.rest = tokens.items.drop e)
    (hend : s.endLine = tokens.endLine)
    (f : SyntaxFault) : ((s.fault f).line, (s.fault f).place) = tokens.spot e := by
  have hnext : tokens.items[e]? = s.rest.head? := by rw [hrest, List.head?_drop]
  unfold State.fault Tokens.spot
  rw [hnext]
  cases s.rest with
  | nil => exact congrArg (fun line : Nat => ((line : Int), Place.atEnd)) hend
  | cons t rest => rfl

end Lox.Grammar

namespace Lox

open Grammar

/-- A declaration that is read from the token `i` on and in which an error is raised: the
error stands at a token `e`, and reading resumes at the first place behind it, which is
the first place from it on if and only if it does not start a statement. -/
theorem recovery_resumes {tokens : Tokens} {n i : Nat} {s s' : State} {d : Diagnostic} (hi : i ≤ tokens.items.length)
    (hrest : s.rest = tokens.items.drop i) (hend : s.endLine = tokens.endLine)
    (hraised : attempt n s = .error (.raised d) s') :
    ∃ e r, i ≤ e ∧ e ≤ tokens.items.length ∧ s'.rest = tokens.items.drop e ∧ (d.line, d.place) = tokens.spot e ∧
      r ≤ tokens.items.length ∧
      declaration (n + 1) s = .ok none { s'.report d with rest := tokens.items.drop r } ∧
      IsFirst (Resumable tokens.items e) (min (e + 1) tokens.items.length) r ∧
      (IsFirst (Resumable tokens.items e) e r ↔ ∀ t, tokens.items[e]? = some t → t.terminal.startsStatement
        = false) := by
  have hbuilt : Built (attempt n) := built_attempt n
  obtain ⟨hsuffix, hend'⟩ : s'.rest <:+ s.rest ∧ s'.endLine = s.endLine := by
    have h := hbuilt.onward s
    rwa [hraised] at h
  obtain ⟨f, rfl⟩ := hbuilt.site hraised
  obtain ⟨taken, htaken⟩ := hsuffix
  have hlength : taken.length + s'.rest.length = tokens.items.length - i := by
    rw [← List.length_append, htaken, hrest, List.length_drop]
  have hrest' : s'.rest = tokens.items.drop (i + taken.length) := by
    rw [← List.drop_drop, ← hrest, ← htaken, List.drop_left]
  have he : i + taken.length ≤ tokens.items.length := by omega
  obtain ⟨r, hr, hle, hfirst⟩ := resume_drop tokens.items (i + taken.length) he
  refine ⟨i + taken.length, r, Nat.le_add_right _ _, he, hrest', fault_spot hrest' (hend'.trans hend) f,
    hle, ?_, hfirst,
    isFirst_iff he hfirst⟩
  rw [declaration_succ, recovering, hraised]
  simp only [hrest', hr]

/-! ## A statement that is lost -/

/-- The tokens of two statements, the first of them without its semicolon. -/
def unfinished : Tokens where
  items := [⟨.keyword .print, 1⟩, ⟨.number "1", 1⟩, ⟨.keyword .print, 2⟩, ⟨.number "2", 2⟩, ⟨.symbol .semicolon, 2⟩]
  endLine := 2

/-- Recovery from the semicolon that is missed in front of the second `print`. -/
theorem recovery_resumes_print :
    ∃ d s' e r, attempt 32 (start unfinished 0) = .error (.raised d) s' ∧ s'.rest = unfinished.items.drop e ∧
      declaration 33 (start unfinished 0) = .ok none { s'.report d with rest := unfinished.items.drop r } ∧
      IsFirst (Resumable unfinished.items e) (min (e + 1) 5) r := by
  have hstart : (start unfinished 0).rest = unfinished.items.drop 0 := rfl
  have hraised : attempt 32 (start unfinished 0)
      = .error (.raised ⟨2, .atToken "print", .grammar (.noSymbol .semicolon .afterPrinted)⟩)
        { start unfinished 0 with rest := unfinished.items.drop 2 } := rfl
  obtain ⟨e, r, -, -, hrest, -, -, hdone, hfirst, -⟩ :=
    recovery_resumes (Nat.zero_le _) hstart rfl hraised
  exact ⟨_, _, e, r, hraised, hrest, hdone, hfirst⟩

/-- The semicolon is missed at the second `print`, the first place where a statement may
begin from there on. Reading resumes behind it, at the end of the text, and the second
statement is not read. -/
theorem print_passed_over :
    tokenize "print 1\nprint 2;" = (unfinished, []) ∧
      (∃ d s', attempt 32 (start unfinished 0) = .error (.raised d) s' ∧ s'.rest = unfinished.items.drop 2 ∧
        declaration 33 (start unfinished 0) = .ok none { s'.report d with rest := unfinished.items.drop 5 }) ∧
      IsFirst (Resumable unfinished.items 2) 2 2 ∧ ¬ IsFirst (Resumable unfinished.items 2) 2 5 ∧
      parse unfinished 0 = ⟨[], 0, [⟨2, .atToken "print", .grammar (.noSymbol .semicolon .afterPrinted)⟩]⟩ := by
  have hplace : Resumable unfinished.items 2 2 := Or.inr (Or.inl ⟨⟨.keyword .print, 2⟩, rfl, rfl⟩)
  refine ⟨by decide +kernel, ⟨_, _, rfl, rfl, rfl⟩, ?_, ?_, rfl⟩
  · exact ⟨Nat.le_refl 2, hplace, fun k hk hlt => absurd hlt (Nat.not_lt.mpr hk)⟩
  · exact fun h => h.2.2 2 (Nat.le_refl 2) (by decide) hplace

end Lox
