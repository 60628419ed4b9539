/-
  Lox.Proofs.Grammar.Offending — the first error that is raised stands at the offending
  token: the tokens before it begin a program, and with it they do not.

  Programs are those of the loose grammar, for what it leaves out is reported and stops
  nothing. At what token an error is raised is read off its line, the tokens being read
  with their index as line (`offending?`); reading takes no notice of lines otherwise
  (`parse_shift`), so it is the token at which the error is raised on any lines. The
  end of the text counts as a token: an error at the end says that the tokens are not a
  program, but begin one.
-/

import Lox.Proofs.Grammar.Clauses
import Lox.Proofs.Grammar.Shifted
import Lox.Proofs.Grammar.Walked

namespace Lox

open Grammar

/-! ## The index of a token as its line -/

/-- Every token is moved to the line of its index, and the end behind the last token. -/
def Tokens.numbered (tokens : Tokens) : Tokens where
  items := tokens.items.mapIdx fun i t => ⟨t.terminal, i⟩
  endLine := tokens.items.length

/-- The index of the token, or of the end, at which the first error is raised. -/
def offending? (tokens : Tokens) (k : Int) : Option Nat :=
  (firstRaised (parse tokens.numbered k).errors).map (·.line.toNat)

/-- Where an error at a token is shown, or at the end. -/
def Tokens.spot (tokens : Tokens) (e : Nat) : Int × Place :=
  match tokens.items[e]? with
  | some t => (t.line, .atToken t.text)
  | none => (tokens.endLine, .atEnd)

/-- Back to the lines of the tokens. -/
def Tokens.unnumber (tokens : Tokens) : Shift :=
  .byLines fun i => (tokens.items[i]?.map (·.line)).getD tokens.endLine

theorem unnumber_numbered (tokens : Tokens) : tokens.unnumber.tokens tokens.numbered = tokens := by
  obtain ⟨items, endLine⟩ := tokens
  simp only [Tokens.unnumber, Shift.tokens, Tokens.numbered, Shift.byLines, Tokens.mk.injEq]
  constructor
  · refine List.ext_getElem (by simp) fun i h _ => ?_
    have hi : i < items.length := by simpa using h
    simp [Shift.token, hi]
  · simp

theorem firstRaised_shift (g : Shift) (ds : List Diagnostic) :
    firstRaised (ds.map g.diagnostic) = (firstRaised ds).map g.diagnostic := by
  simp only [firstRaised, List.find?_map]
  rfl

theorem parse_numbered (tokens : Tokens) (k : Int) :
    (parse tokens k).errors = (parse tokens.numbered k).errors.map tokens.unnumber.diagnostic := by
  have h := parse_shift tokens.unnumber tokens.numbered k
  rw [unnumber_numbered] at h
  have hk : k + tokens.unnumber.slots = k := Int.add_zero k
  rw [hk] at h
  rw [h]
  rfl

namespace Grammar

/-! ## Lines and the loose grammar -/

variable {n : Nonterminal} {ts : List Token} (g : Shift)

/-- The grammar does not see the lines of its tokens. -/
theorem matches_shift {L M : Languages} (hLM : ∀ n ts, L n ts → M n (ts.map g.token)) {e : Ebnf} (h : Matches L e ts) :
    Matches M e (ts.map g.token) := by
  induction h with
  | keyword k line => exact .keyword k _
  | symbol s line => exact .symbol s _
  | ident name line => exact .ident name _
  | number literal line => exact .number literal _
  | string text line => exact .string text _
  | rule h => exact .rule (hLM _ _ h)
  | nil => exact .nil
  | cons _ _ ih ihs => rw [List.map_append]; exact .cons ih ihs
  | choice hm _ ih => exact .choice hm ih
  | manyNil => exact .manyNil
  | manyCons _ _ ih ihs => rw [List.map_append]; exact .manyCons ih ihs
  | upToNil => exact .upToNil
  | upToCons _ _ ih ihs => rw [List.map_append]; exact .upToCons ih ihs

theorem loose_shift (h : Loose n ts) : Loose n (ts.map g.token) := by
  refine h.induct (L := fun n ts => Loose n (ts.map g.token)) fun n ts hm => ?_
  exact loose_of_matches (matches_shift g (fun _ _ h => h) hm)

theorem feed_shift (σ : List Goal) : feed (ts.map g.token) σ = feed ts σ := by
  induction ts generalizing σ with
  | nil => rfl
  | cons t ts ih =>
    have ih : feed (ts.map g.token) = feed ts := funext ih
    rw [List.map_cons, feed, feed, ih]
    rfl

/-! ## Beginnings of programs -/

/-- Some program begins with the tokens. -/
def Viable (ts : List Token) : Prop := ∃ us, Loose .program (ts ++ us)

theorem feed_of_viable (h : Viable ts) : ∃ τ, feed ts [.declarations] = some τ := by
  obtain ⟨us, h⟩ := h
  obtain ⟨τ, hrun, -⟩ := feed_program (loose_iff.mp h)
  rw [feed_append] at hrun
  obtain ⟨υ, hυ, -⟩ := Option.bind_eq_some_iff.mp hrun
  exact ⟨υ, hυ⟩

theorem not_viable_of_blocked {t : Token} {us rest : List Token} (h : Blocked [.declarations] us (t :: rest)) :
    ¬ Viable (us ++ [t]) := by
  intro hv
  obtain ⟨τ, hrun, hnone⟩ := h
  obtain ⟨υ, hυ⟩ := feed_of_viable hv
  rw [feed_append, hrun] at hυ
  have hnone : meet t.terminal τ = none := hnone
  simp [feed, hnone] at hυ

theorem not_loose_of_blocked {us : List Token} (h : Blocked [.declarations] us []) : ¬ Loose .program us := by
  intro hl
  obtain ⟨τ, hrun, hnone⟩ := h
  obtain ⟨υ, hυ, hend⟩ := feed_program (loose_iff.mp hl)
  obtain rfl : τ = υ := Option.some.inj (hrun.symm.trans hυ)
  cases hnone.symm.trans hend

theorem caught_of_raised {tokens : Tokens} {k : Int} {d : Diagnostic}
    (h : firstRaised (parse tokens k).errors = some d) :
    Caught [.declarations] (Loose .program) (start tokens k) d := by
  obtain ⟨ss, s', hp, -⟩ := program_ends (s := start tokens k) (n := fuel tokens) (by
    simp only [fuel, rulesPerToken, start, Tokens.count]
    omega)
  obtain ⟨-, htraced⟩ := tracks_program (fuel tokens) false (start tokens k)
  have hnoted : noted (program (fuel tokens) (start tokens k)) = (parse tokens k).errors := by
    simp only [parse, hp, noted]
  exact ((htraced trivial rfl).caught d (hnoted ▸ h)).mono fun us vs hv => ⟨vs, loose_of_matches hv⟩

/-- An error behind some of the numbered tokens has their number as its line. -/
theorem fault_numbered {tokens : Tokens} {s : State} {us : List Token} {f : SyntaxFault}
    (hr : tokens.numbered.items = us ++ s.rest) (he : s.endLine = tokens.items.length) :
    (s.fault f).line = us.length ∧
      ((tokens.unnumber.diagnostic (s.fault f)).line, (s.fault f).place) = tokens.spot us.length := by
  have hnext : tokens.numbered.items[us.length]? = s.rest.head? := by
    rw [hr, List.getElem?_append_right (Nat.le_refl _), Nat.sub_self, List.head?_eq_getElem?]
  simp only [Tokens.numbered, List.getElem?_mapIdx] at hnext
  cases hs : s.rest with
  | nil =>
    have hlength : tokens.items.length = us.length := by simpa [Tokens.numbered, hs] using congrArg List.length hr
    have hnone : tokens.items[us.length]? = none := by simpa [hs] using hnext
    have hfault : s.fault f = ⟨us.length, .atEnd, .grammar f⟩ := by
      rw [State.fault, hs, he, hlength]
    rw [hfault]
    refine ⟨rfl, ?_⟩
    show ((tokens.unnumber.line us.length : Int), Place.atEnd) = tokens.spot us.length
    simp [Tokens.unnumber, Shift.byLines, Tokens.spot, hnone]
  | cons t rest =>
    rw [hs] at hnext
    obtain ⟨u, hu, rfl⟩ := Option.map_eq_some_iff.mp hnext
    have hfault : s.fault f = ⟨us.length, .atToken u.text, .grammar f⟩ := by
      rw [State.fault, hs]
      rfl
    rw [hfault]
    refine ⟨rfl, ?_⟩
    show ((tokens.unnumber.line us.length : Int), Place.atToken u.text) = tokens.spot us.length
    simp [Tokens.unnumber, Shift.byLines, Tokens.spot, hu]

end Grammar

/-- The first error that is raised stands at the first token that no program of the loose grammar
goes on with behind the tokens before it, or at the end if a program can begin with all of them. -/
theorem offending_exact (tokens : Tokens) (k : Int) (d : Diagnostic)
    (h : firstRaised (parse tokens k).errors = some d) :
    ∃ e, offending? tokens k = some e ∧ (d.line, d.place) = tokens.spot e ∧ e ≤ tokens.items.length ∧
      Viable (tokens.items.take e) ∧
      (e < tokens.items.length → ¬ Viable (tokens.items.take (e + 1))) ∧
      (e = tokens.items.length → ¬ Loose .program tokens.items) := by
  rw [parse_numbered, firstRaised_shift] at h
  obtain ⟨d', hd, rfl⟩ := Option.map_eq_some_iff.mp h
  obtain ⟨us, rest, f, hr, rfl, ⟨vs, hvs⟩, hblocked⟩ := caught_of_raised hd
  have hr : tokens.numbered.items = us ++ rest := hr
  -- The error is found among the numbered tokens. Neither the grammar nor the machine looks at lines.
  have hlines : tokens.items = us.map tokens.unnumber.token ++ rest.map tokens.unnumber.token := by
    rw [← List.map_append, ← hr]
    exact (congrArg Tokens.items (unnumber_numbered tokens)).symm
  obtain ⟨hline, hspot⟩ := fault_numbered (s := { start tokens.numbered k with rest }) (f := f) hr rfl
  have htake : tokens.items.take us.length = us.map tokens.unnumber.token := by
    rw [hlines, List.take_left' (List.length_map _)]
  have hblocked : Blocked [.declarations] (us.map tokens.unnumber.token) (rest.map tokens.unnumber.token) := by
    obtain ⟨τ, hrun, hmeet⟩ := hblocked
    refine ⟨τ, (feed_shift _ _).trans hrun, ?_⟩
    cases rest <;> exact hmeet
  refine ⟨us.length, by rw [offending?, hd, Option.map_some, hline]; rfl, hspot, ?_, ?_, fun hlt => ?_, fun heq => ?_⟩
  · rw [hlines]
    simp
  · rw [htake]
    exact ⟨vs.map tokens.unnumber.token, by rw [← List.map_append]; exact loose_shift _ hvs⟩
  · cases rest with
    | nil => exact absurd hlt (by rw [hlines]; simp)
    | cons t rest =>
      have htake : tokens.items.take (us.length + 1) = us.map tokens.unnumber.token ++ [tokens.unnumber.token t] := by
        have hus : (us.map tokens.unnumber.token).length = us.length := List.length_map _
        rw [hlines, ← hus, List.take_length_add_append]
        rfl
      rw [htake]
      exact not_viable_of_blocked hblocked
  · obtain rfl : rest = [] :=
      List.eq_nil_of_length_eq_zero (by have := congrArg List.length hlines; simp at this; omega)
    rw [hlines, List.map_nil, List.append_nil]
    exact not_loose_of_blocked hblocked

/-- Behind an invalid target and a stray `break`, which stop nothing, a variable has no name. -/
theorem offending_exact_number : ∃ tokens, tokens = (tokenize "1 = 2;\nbreak;\nvar 3;").1 ∧
    firstRaised (parse tokens 0).errors = some ⟨3, .atToken "3", .grammar (.noName .variable_)⟩ ∧
    offending? tokens 0 = some 7 ∧ Viable (tokens.items.take 7) ∧ ¬ Viable (tokens.items.take 8) := by
  have herror : firstRaised (parse (tokenize "1 = 2;\nbreak;\nvar 3;").1 0).errors =
      some ⟨3, .atToken "3", .grammar (.noName .variable_)⟩ := by decide +kernel
  have hindex : offending? (tokenize "1 = 2;\nbreak;\nvar 3;").1 0 = some 7 := by decide +kernel
  obtain ⟨e, he, -, -, hbefore, hafter, -⟩ := offending_exact _ 0 _ herror
  obtain rfl : 7 = e := Option.some.inj (hindex.symm.trans he)
  exact ⟨_, rfl, herror, hindex, hbefore, hafter (by decide +kernel)⟩

end Lox
