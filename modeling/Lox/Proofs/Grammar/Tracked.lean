/-
  Lox.Proofs.Grammar.Tracked — reading, tracked by the machine of goals.

  `Tracks P σ p L τ Q`: from tokens that satisfy `P`, with the goals `σ`, the rule `p`
  adds errors to those noted, and unless an error was raised before,
  - if it comes to an end without a raised error, the tokens it took are a word of `L`,
    they lead the machine from `σ` to `τ`, and what is left satisfies `Q`;
  - if an error is raised, the first one raised is that at some place up to which the
    tokens begin a word of `L`, and at which the machine is blocked (`Caught`).
  It does not matter which error was the last one: recovery goes on behind the first.

  The rules are put together from steps (`Tracks.bind`), and the steps are the lemmas of
  this module: a token that may be taken, one that has to be there, one that is looked at.
-/

import Lox.Proofs.Grammar.Goals
import Lox.Proofs.Grammar.Loose

namespace Lox

/-- The error stops the declaration in which it is found; all others are only reported. -/
def Diagnostic.isRaised (d : Diagnostic) : Bool :=
  match d.cause with
  | .grammar (.noName _) | .grammar (.noSymbol ..) | .grammar .noExpression => true
  | _ => false

def firstRaised (ds : List Diagnostic) : Option Diagnostic := ds.find? Diagnostic.isRaised

theorem firstRaised_prefix {ds es : List Diagnostic} {d : Diagnostic} (h : ds <+: es) (hd : firstRaised ds = some d) :
    firstRaised es = some d := by
  obtain ⟨more, rfl⟩ := h
  simp only [firstRaised, List.find?_append] at hd ⊢
  rw [hd]
  rfl

namespace Grammar

variable {α β : Type}

/-- The errors that have been found when reading comes to a result. -/
def noted : EStateM.Result Halt State α → List Diagnostic
  | .ok _ s => s.errors.toList
  | .error (.raised error) s => s.errors.toList ++ [error]
  | .error .outOfFuel s => s.errors.toList

/-- The error is at a place up to which the tokens begin a word and at which the machine stops. -/
def Caught (σ : List Goal) (L : List Token → Prop) (s : State) (d : Diagnostic) : Prop :=
  ∃ us rest f, s.rest = us ++ rest ∧ d = { s with rest }.fault f ∧ (∃ vs, L (us ++ vs)) ∧ Blocked σ us rest

/-- What is known of a result if no error has been raised. -/
def Ended (σ : List Goal) (L : List Token → Prop) (τ : List Goal) (Q : List Token → Prop) (s : State) :
    EStateM.Result Halt State α → Prop
  | .ok _ s' => ∃ us, s.rest = us ++ s'.rest ∧ s'.endLine = s.endLine ∧ L us ∧ Reaches σ us s'.rest τ ∧ Q s'.rest
  | .error (.raised _) _ => False
  | .error .outOfFuel _ => True

/-- The goals tell the first error that is raised, and without one they tell what has been read. -/
structure Traced (σ : List Goal) (L : List Token → Prop) (τ : List Goal) (Q : List Token → Prop) (s : State)
    (r : EStateM.Result Halt State α) : Prop where
  caught : ∀ d, firstRaised (noted r) = some d → Caught σ L s d
  ended : firstRaised (noted r) = none → Ended σ L τ Q s r

/-- Read from tokens that fulfil `P`, a word of `L` leads the goals from `σ` to `τ`, and what is
left fulfils `Q`; the first error that is raised is where the goals are blocked. -/
def Tracks (P : List Token → Prop) (σ : List Goal) (p : Parse α) (L : List Token → Prop) (τ : List Goal)
    (Q : List Token → Prop) : Prop :=
  ∀ s, s.errors.toList <+: noted (p s) ∧
    (P s.rest → firstRaised s.errors.toList = none → Traced σ L τ Q s (p s))

variable {P P' Q Q' : List Token → Prop} {σ σ' τ τ' υ : List Goal} {L L' M : List Token → Prop} {p : Parse α}
  {s s₁ : State}

/-! ## Sequences of steps -/

theorem Caught.mono {d : Diagnostic} (h : Caught σ L s d) (hL : ∀ us vs, L (us ++ vs) → ∃ ws, L' (us ++ ws)) :
    Caught σ L' s d :=
  let ⟨us, rest, f, hr, hd, ⟨vs, hv⟩, hb⟩ := h
  ⟨us, rest, f, hr, hd, hL us vs hv, hb⟩

theorem Caught.after {us : List Token} {d : Diagnostic} (h : Caught τ L' s₁ d) (hr : s.rest = us ++ s₁.rest)
    (he : s₁.endLine = s.endLine) (hσ : Reaches σ us s₁.rest τ) (hL : ∀ vs, L' vs → L (us ++ vs)) : Caught σ L s d := by
  obtain ⟨vs, rest, f, hvs, hd, ⟨ws, hws⟩, hb⟩ := h
  rw [hvs] at hr hσ
  refine ⟨us ++ vs, rest, f, by rw [hr, List.append_assoc], ?_, ⟨ws, ?_⟩, hσ.blocked hb⟩
  · rw [hd]
    unfold State.fault
    cases rest with
    | nil => simp only [he]
    | cons t rest => rfl
  · rw [List.append_assoc]
    exact hL _ hws

/-- What happens behind tokens that have been taken. -/
theorem Traced.after {us : List Token} {r : EStateM.Result Halt State α} (h : Traced τ' L' τ Q s₁ r)
    (hr : s.rest = us ++ s₁.rest) (he : s₁.endLine = s.endLine) (hσ : Reaches σ us s₁.rest τ')
    (hL : ∀ vs, L' vs → L (us ++ vs)) : Traced σ L τ Q s r := by
  refine ⟨fun d hd => (h.caught d hd).after hr he hσ hL, fun hn => ?_⟩
  have hend := h.ended hn
  cases r with
  | ok a s₂ =>
    obtain ⟨vs, hvs, he', hv, hτ, hq⟩ := hend
    rw [hvs] at hr hσ
    exact ⟨us ++ vs, by rw [hr, List.append_assoc], he'.trans he, hL vs hv, hσ.append hτ, hq⟩
  | error e s₂ =>
    cases e with
    | raised d => exact hend
    | outOfFuel => trivial

theorem Ended.mono {r : EStateM.Result Halt State α} (h : Ended σ L τ Q s r) (hL : ∀ us, L us → L' us)
    (hτ : ∀ rest, Q rest → SameAt rest τ τ') (hQ : ∀ rest, Q rest → Q' rest) : Ended σ L' τ' Q' s r := by
  cases r with
  | ok a s₁ =>
    obtain ⟨us, hr, he, hu, hσ, hq⟩ := h
    exact ⟨us, hr, he, hL us hu, hσ.into (hτ _ hq), hQ _ hq⟩
  | error e s₁ =>
    cases e with
    | raised d => exact h
    | outOfFuel => trivial

theorem Tracks.mono (h : Tracks P σ p L τ Q) (hP : ∀ r, P' r → P r) (hL : ∀ us, L us → L' us)
    (hQ : ∀ r, Q r → Q' r) : Tracks P' σ p L' τ Q' := by
  refine fun s => ⟨(h s).1, fun hp hn => ?_⟩
  have ht := (h s).2 (hP _ hp) hn
  refine ⟨fun d hd => (ht.caught d hd).mono fun us vs hv => ⟨vs, hL _ hv⟩, fun hn => ?_⟩
  exact (ht.ended hn).mono hL (fun _ _ => SameAt.refl _ _) hQ

theorem Tracks.words (h : Tracks P σ p L τ Q) (hL : ∀ us, L us → L' us) : Tracks P σ p L' τ Q :=
  h.mono (fun _ h => h) hL fun _ h => h

/-- A stack may be replaced by one that is as good in front of the tokens. -/
theorem Tracks.from (h : Tracks P σ' p L τ Q) (hP : ∀ r, P' r → P r) (hs : ∀ r, P' r → SameAt r σ σ') :
    Tracks P' σ p L τ Q := by
  refine fun s => ⟨(h s).1, fun hp hn => ?_⟩
  have hσ : Reaches σ [] s.rest σ' := reaches_nil (hs _ hp)
  exact ((h s).2 (hP _ hp) hn).after rfl rfl hσ fun _ hv => hv

theorem Tracks.into (h : Tracks P σ p L τ Q) (hs : ∀ r, Q r → SameAt r τ τ') : Tracks P σ p L τ' Q := by
  refine fun s => ⟨(h s).1, fun hp hn => ?_⟩
  have ht := (h s).2 hp hn
  exact ⟨ht.caught, fun hn => (ht.ended hn).mono (fun _ hu => hu) hs fun _ hq => hq⟩

/-- One step and what comes behind it, if anything can. -/
theorem Tracks.bind {f : α → Parse β} (h : Tracks P σ p L' τ' P') (hM : ∃ ws, M ws)
    (hf : ∀ a, Tracks P' τ' (f a) M τ Q) (hL : ∀ us vs, L' us → M vs → L (us ++ vs)) :
    Tracks P σ (p >>= f) L τ Q := by
  intro s
  have hs := h s
  obtain ⟨ws, hws⟩ := hM
  have hcaught {d : Diagnostic} (hc : Caught σ L' s d) : Caught σ L s d :=
    hc.mono fun us vs hv => ⟨vs ++ ws, by rw [← List.append_assoc]; exact hL _ _ hv hws⟩
  cases hp : p s with
  | ok a s₁ =>
    rw [hp] at hs
    rw [bind_of_ok hp]
    have hs₁ := hf a s₁
    refine ⟨hs.1.trans hs₁.1, fun hP hn => ?_⟩
    have ht := hs.2 hP hn
    cases hd : firstRaised s₁.errors.toList with
    | some d =>
      -- An error that was raised and recovered from in the first step stays the first one.
      have hfirst : firstRaised (noted (f a s₁)) = some d := firstRaised_prefix hs₁.1 hd
      refine ⟨fun d' hd' => ?_, fun hn' => by rw [hfirst] at hn'; cases hn'⟩
      obtain rfl : d = d' := Option.some.inj (hfirst.symm.trans hd')
      exact hcaught (ht.caught d hd)
    | none =>
      obtain ⟨us, hr, he, hu, hτ, hq⟩ := ht.ended hd
      exact (hs₁.2 hq hd).after hr he hτ fun vs hv => hL us vs hu hv
  | error e s₁ =>
    rw [hp] at hs
    rw [bind_of_error hp]
    cases e with
    | raised d =>
      refine ⟨hs.1, fun hP hn => ⟨fun d' hd => hcaught ((hs.2 hP hn).caught d' hd), fun hn' => ?_⟩⟩
      exact (hs.2 hP hn).ended hn'
    | outOfFuel => exact ⟨hs.1, fun hP hn => ⟨fun d' hd => hcaught ((hs.2 hP hn).caught d' hd), fun _ => trivial⟩⟩

section Sequences

variable {e : Ebnf} {es : List Ebnf}

theorem tracks_rule {n : Nonterminal} (h : Tracks P σ p (Matches Loose (looseProduction n)) τ Q) :
    Tracks P σ p (Matches Loose (.rule n)) τ Q :=
  h.words fun _ hu => matches_rule.mpr (loose_of_matches hu)

/-- A part of a right side and then the others. -/
theorem Tracks.seq {f : α → Parse β} (h : Tracks P σ p (Matches Loose e) τ' P') (hes : (Ebnf.sequence es).Spelled)
    (hf : ∀ a, Tracks P' τ' (f a) (Matches Loose (.sequence es)) τ Q) :
    Tracks P σ (p >>= f) (Matches Loose (.sequence (e :: es))) τ Q :=
  h.bind hes hf fun _ _ => .cons

theorem tracks_last (h : Tracks P σ p (Matches Loose e) τ Q) : Tracks P σ p (Matches Loose (.sequence [e])) τ Q :=
  h.words fun _ hu => matches_single.mpr hu

/-- A token that has been taken is the first part of a right side. -/
theorem Tracks.behind {t : Token} (h : Tracks P σ p (Matches Loose (.sequence es)) τ Q) (ht : Matches Loose e [t]) :
    Tracks P σ p (fun us => Matches Loose (.sequence (e :: es)) (t :: us)) τ Q :=
  h.words fun _ hu => matches_token ht hu

end Sequences

theorem tracks_outOfFuel : Tracks P σ (throw .outOfFuel : Parse α) L τ Q := by
  intro s
  refine ⟨List.prefix_refl _, fun _ hn => ⟨fun d hd => ?_, fun _ => trivial⟩⟩
  have hd : firstRaised s.errors.toList = some d := hd
  rw [hn] at hd
  cases hd

/-! ## Steps that take nothing -/

/-- The step changes nothing but slots, and reports at most. -/
def Quiet (p : Parse α) : Prop :=
  ∀ s, ∃ a s' reported, p s = .ok a s' ∧ s'.rest = s.rest ∧ s'.endLine = s.endLine ∧
    s'.errors.toList = s.errors.toList ++ reported ∧ firstRaised reported = none

/-- A part that reads nothing leaves the goals to the next one. -/
theorem Quiet.bind {f : α → Parse β} (h : Quiet p) (hf : ∀ a, Tracks P σ (f a) L τ Q) :
    Tracks P σ (p >>= f) L τ Q := by
  intro s
  obtain ⟨a, s₁, reported, hp, hr, he, herr, hnone⟩ := h s
  have hs := hf a s₁
  rw [bind_of_ok hp]
  rw [herr, hr] at hs
  refine ⟨(List.prefix_append _ _).trans hs.1, fun hP hn => ?_⟩
  have hn₁ : firstRaised (s.errors.toList ++ reported) = none := by
    simp only [firstRaised, List.find?_append] at hn hnone ⊢
    rw [hn, hnone]
    rfl
  have hr : s.rest = [] ++ s₁.rest := hr.symm
  exact (hs.2 hP hn₁).after hr he (reaches_nil (SameAt.refl _ _)) fun _ hv => hv

theorem quiet_pure (a : α) : Quiet (pure a : Parse α) := fun s => ⟨a, s, [], rfl, rfl, rfl, by simp, rfl⟩

theorem Quiet.map (h : Quiet p) (g : α → β) : Quiet (do return g (← p)) := by
  intro s
  obtain ⟨a, s', reported, hp, hs⟩ := h s
  exact ⟨g a, s', reported, bind_of_ok hp, hs⟩

theorem quiet_newSlot : Quiet newSlot := fun s => ⟨_, _, [], rfl, rfl, rfl, by simp, rfl⟩

theorem quiet_report {f : SyntaxFault} (hf : ∀ line place, Diagnostic.isRaised ⟨line, place, .grammar f⟩ = false) :
    Quiet (report f) := by
  refine fun s => ⟨_, _, [s.fault f], rfl, rfl, rfl, by simp [State.report], ?_⟩
  unfold State.fault
  cases s.rest <;> simp [firstRaised, fault, hf]

/-- A report that is made on a condition. -/
theorem tracks_reportIf {c : Prop} [Decidable c] {f : SyntaxFault}
    (hf : ∀ line place, Diagnostic.isRaised ⟨line, place, .grammar f⟩ = false) (h : Tracks P σ p L τ Q) :
    Tracks P σ (if c then report f >>= fun _ => p else p) L τ Q := by
  split
  · exact (quiet_report hf).bind fun _ => h
  · exact h

theorem quiet_reportAt {t : Token} {f : SyntaxFault}
    (hf : ∀ line place, Diagnostic.isRaised ⟨line, place, .grammar f⟩ = false) : Quiet (reportAt t f) :=
  fun s => ⟨_, _, [fault t f], rfl, rfl, rfl, by simp [State.report], by simp [firstRaised, fault, hf]⟩

theorem quiet_checkLoop {t : Token} {f : SyntaxFault}
    (hf : ∀ line place, Diagnostic.isRaised ⟨line, place, .grammar f⟩ = false) : Quiet (checkLoop t f) := by
  intro s
  unfold checkLoop
  split
  · exact quiet_reportAt hf s
  · exact quiet_pure () s

theorem tracks_pure {a : α} (hL : L []) (hτ : ∀ r, P r → SameAt r σ τ) (hQ : ∀ r, P r → Q r) :
    Tracks P σ (pure a : Parse α) L τ Q := by
  refine fun s => ⟨List.prefix_refl _, fun hP hn => ⟨fun d hd => ?_, fun _ => ?_⟩⟩
  · have hd : firstRaised s.errors.toList = some d := hd
    rw [hn] at hd
    cases hd
  · exact ⟨[], rfl, rfl, hL, reaches_nil (hτ _ hP), hQ _ hP⟩

/-- The step was the last one. -/
theorem tracks_done {a : α} (hQ : ∀ r, P r → Q r) :
    Tracks P σ (pure a : Parse α) (Matches Loose (.sequence [])) σ Q :=
  tracks_pure .nil (fun _ _ => SameAt.refl _ _) hQ

theorem Tracks.map (h : Tracks P σ p L τ Q) (g : α → β) : Tracks P σ (do return g (← p)) L τ Q := by
  refine h.bind (M := fun us => us = []) ⟨[], rfl⟩ (fun a => ?_) fun us vs hu hv => ?_
  · exact tracks_pure rfl (fun _ _ => SameAt.refl _ _) fun _ h => h
  · rw [hv, List.append_nil]
    exact hu

theorem Quiet.tracks (h : Quiet p) : Tracks P σ p (Matches Loose (.sequence [])) σ P := by
  have hp : Tracks P σ (p >>= pure) (Matches Loose (.sequence [])) σ P := h.bind fun _ => tracks_done fun _ h => h
  rwa [bind_pure] at hp

/-- An error is raised where the goals do not take the next token. -/
theorem tracks_raise {f : SyntaxFault} (hf : ∀ line place, Diagnostic.isRaised ⟨line, place, .grammar f⟩ = true)
    (hL : ∃ vs, L vs) (hb : ∀ r, P r → meet (ahead r) σ = none) : Tracks P σ (raise f : Parse α) L τ Q := by
  refine fun s => ⟨List.prefix_append _ _, fun hP hn => ?_⟩
  have hraised : (s.fault f).isRaised = true := by
    unfold State.fault
    cases s.rest with
    | nil => exact hf _ _
    | cons t rest => exact hf _ _
  have hfirst : firstRaised (s.errors.toList ++ [s.fault f]) = some (s.fault f) := by
    simp only [firstRaised, List.find?_append] at hn ⊢
    rw [hn]
    simp [hraised]
  refine ⟨fun d hd => ?_, fun hn' => ?_⟩
  · obtain rfl : s.fault f = d := Option.some.inj (hfirst.symm.trans hd)
    exact ⟨[], s.rest, f, rfl, rfl, hL, blocked_nil (hb _ hP)⟩
  · cases hfirst.symm.trans hn'

theorem tracks_peek {f : Option Token → Parse β} (h : ∀ o, Tracks (fun r => P r ∧ r.head? = o) σ (f o) L τ Q) :
    Tracks P σ (peek >>= f) L τ Q := by
  intro s
  rw [peek_bind]
  exact ⟨(h _ s).1, fun hP => (h _ s).2 ⟨hP, rfl⟩⟩

/-- The next token is looked at, and both cases go on with the same goals. -/
theorem tracks_isNext {terminal : Terminal} {f : Bool → Parse β}
    (hyes : Tracks (fun r => P r ∧ ahead r = some terminal) σ (f true) L τ Q)
    (hno : Tracks (fun r => P r ∧ ahead r ≠ some terminal) σ (f false) L τ Q) :
    Tracks P σ (isNext terminal >>= f) L τ Q := by
  intro s
  cases hr : s.rest with
  | nil =>
    have hnext : isNext terminal s = .ok false s := isNext_ok.mpr ⟨Or.inr ⟨hr ▸ avoids_nil, rfl⟩, rfl⟩
    rw [bind_of_ok hnext]
    exact ⟨(hno s).1, fun hP => (hno s).2 ⟨hr ▸ hP, by simp [hr]⟩⟩
  | cons t rest =>
    by_cases ht : t.terminal = terminal
    · have hnext : isNext terminal s = .ok true s := isNext_ok.mpr ⟨Or.inl ⟨t, rest, hr, ht, rfl⟩, rfl⟩
      rw [bind_of_ok hnext]
      exact ⟨(hyes s).1, fun hP => (hyes s).2 ⟨hr ▸ hP, by simp [hr, ht]⟩⟩
    · have hnext : isNext terminal s = .ok false s :=
        isNext_ok.mpr ⟨Or.inr ⟨hr ▸ avoids_cons.mpr (by simpa using ht), rfl⟩, rfl⟩
      rw [bind_of_ok hnext]
      exact ⟨(hno s).1, fun hP => (hno s).2 ⟨hr ▸ hP, by simp [hr, ht]⟩⟩

/-- A list of declarations ends at a closing brace and at the end of the text. -/
theorem tracks_atClose {f : Bool → Parse β}
    (hyes : Tracks (fun r => P r ∧ ∀ t ∈ ahead r, t = .symbol .rightBrace) σ (f true) L τ Q)
    (hno : Tracks (fun r => P r ∧ ∃ t ∈ ahead r, t ≠ .symbol .rightBrace) σ (f false) L τ Q) :
    Tracks P σ (atClose >>= f) L τ Q := by
  intro s
  by_cases hc : ∀ t ∈ s.rest.head?, t.terminal = .symbol .rightBrace
  · have hclose : atClose s = .ok true s := atClose_ok.mpr ⟨Or.inl ⟨hc, rfl⟩, rfl⟩
    rw [bind_of_ok hclose]
    refine ⟨(hyes s).1, fun hP => (hyes s).2 ⟨hP, fun t ht => ?_⟩⟩
    obtain ⟨u, hu, rfl⟩ := Option.map_eq_some_iff.mp ht
    exact hc u hu
  · simp only [Option.mem_def, Classical.not_forall] at hc
    obtain ⟨t, ht, hne⟩ := hc
    obtain ⟨rest, hr⟩ : ∃ rest, s.rest = t :: rest := by
      cases hs : s.rest with
      | nil => rw [hs] at ht; cases ht
      | cons u rest => rw [hs] at ht; exact ⟨rest, by rw [Option.some.inj ht]⟩
    have hclose : atClose s = .ok false s := atClose_ok.mpr ⟨Or.inr ⟨⟨t, rest, hr, hne⟩, rfl⟩, rfl⟩
    rw [bind_of_ok hclose]
    exact ⟨(hno s).1, fun hP => (hno s).2 ⟨hP, t.terminal, by simp [hr], hne⟩⟩

/-! ## Steps that take a token -/

theorem tracks_skip {t : Token} {f : Unit → Parse β} (hm : meet t.terminal σ = some σ')
    (hf : Tracks (fun _ => True) σ' (f ()) (fun us => L (t :: us)) τ Q) :
    Tracks (fun r => r.head? = some t) σ (skip >>= f) L τ Q := by
  intro s
  rw [skip_bind]
  have hs := hf { s with rest := s.rest.tail }
  refine ⟨hs.1, fun hP hn => ?_⟩
  have hr : s.rest = [t] ++ s.rest.tail := by
    cases h : s.rest with
    | nil => rw [h] at hP; cases hP
    | cons u rest => rw [h] at hP; cases hP; rfl
  exact (hs.2 trivial hn).after hr rfl (reaches_token hm) fun _ hv => hv

/-- The next token is passed if it is one of these, and the goals take it then. -/
theorem tracks_acceptAny {terminals : List Terminal} {f : Option Token → Parse β}
    (hnone : Tracks (fun r => P r ∧ Avoids terminals r) σ (f none) L τ Q)
    (hsome : ∀ t, t.terminal ∈ terminals → ∃ σ', (∀ r, P (t :: r) → meet t.terminal σ = some σ') ∧
      Tracks (fun _ => True) σ' (f (some t)) (fun us => L (t :: us)) τ Q) :
    Tracks P σ (acceptAny terminals >>= f) L τ Q := by
  intro s
  cases hr : s.rest with
  | nil =>
    have haccept : acceptAny terminals s = .ok none s := acceptAny_ok.mpr (Or.inr ⟨hr ▸ avoids_nil, rfl, rfl⟩)
    rw [bind_of_ok haccept]
    exact ⟨(hnone s).1, fun hP => (hnone s).2 ⟨hr ▸ hP, hr ▸ avoids_nil⟩⟩
  | cons t rest =>
    by_cases ht : t.terminal ∈ terminals
    · obtain ⟨σ', hm, hf⟩ := hsome t ht
      have haccept : acceptAny terminals s = .ok (some t) { s with rest } :=
        acceptAny_ok.mpr (Or.inl ⟨t, rest, hr, ht, rfl, rfl⟩)
      rw [bind_of_ok haccept]
      have hs := hf { s with rest }
      refine ⟨hs.1, fun hP hn => ?_⟩
      exact (hs.2 trivial hn).after hr rfl (reaches_token (hm rest hP)) fun _ hv => hv
    · have haccept : acceptAny terminals s = .ok none s :=
        acceptAny_ok.mpr (Or.inr ⟨hr ▸ avoids_cons.mpr ht, rfl, rfl⟩)
      rw [bind_of_ok haccept]
      exact ⟨(hnone s).1, fun hP => (hnone s).2 ⟨hr ▸ hP, hr ▸ avoids_cons.mpr ht⟩⟩

/-- A part of a right side that starts with a terminal, and the parts behind it. -/
theorem tracks_option {terminal : Terminal} {f : Option Token → Parse β} {es fs : List Ebnf}
    (hm : ∀ t r, t.terminal = terminal → P (t :: r) → meet terminal σ = some σ')
    (hsome : ∀ t, Tracks (fun _ => True) σ' (f (some t)) (Matches Loose (.sequence (es ++ fs))) τ Q)
    (hnone : Tracks (fun r => P r ∧ Avoids [terminal] r) σ (f none) (Matches Loose (.sequence fs)) τ Q) :
    Tracks P σ (accept terminal >>= f)
      (Matches Loose (.sequence (.opt (.sequence (.ofTerminal terminal :: es)) :: fs))) τ Q := by
  refine tracks_acceptAny ?_ fun t ht => ⟨σ', fun r hr => ?_, ?_⟩
  · exact hnone.words fun _ hu => .cons matches_none hu
  · rw [List.mem_singleton.mp ht]
    exact hm t r (List.mem_singleton.mp ht) hr
  · refine (hsome t).words fun us hu => ?_
    obtain ⟨vs, ws, hv, hw, rfl⟩ := matches_append.mp hu
    exact .cons (matches_some (matches_token (matches_terminal (List.mem_singleton.mp ht)) hv)) hw

/-- A symbol that has to be there is all that the machine allows. -/
theorem tracks_expect {symbol : Symbol} {role : SymbolRole} :
    Tracks (fun _ => True) (.symbol symbol :: τ) (expect symbol role) (Matches Loose (.symbol symbol)) τ
      fun _ => True := by
  refine tracks_acceptAny ?_ fun t ht => ⟨τ, fun r _ => ?_, ?_⟩
  · refine tracks_raise (fun _ _ => rfl) (spelled_symbol symbol) fun r hr => ?_
    cases r with
    | nil => rfl
    | cons t r => exact meet_other (by simpa [avoids_cons] using hr.2)
  · rw [List.mem_singleton.mp ht]
    exact meet_exactly
  · exact tracks_pure (matches_symbol_of (List.mem_singleton.mp ht)) (fun _ _ => SameAt.refl _ _) fun _ h => h

/-- A name that is expected is what the goals begin with. -/
theorem tracks_expectName {role : NameRole} :
    Tracks (fun _ => True) (.name :: τ) (expectName role) (Matches Loose .ident) τ fun _ => True := by
  intro s
  by_cases hname : ∃ text, ahead s.rest = some (.ident text)
  · obtain ⟨text, hname⟩ := hname
    obtain ⟨t, rest, hr, ht⟩ : ∃ t rest, s.rest = t :: rest ∧ t.terminal = .ident text := by
      cases hr : s.rest with
      | nil => rw [hr] at hname; cases hname
      | cons t rest => rw [hr] at hname; exact ⟨t, rest, rfl, Option.some.inj hname⟩
    have hok : expectName role s = .ok ⟨text, t.line⟩ { s with rest } :=
      expectName_ok.mpr ⟨t, rest, hr, ht, rfl, rfl⟩
    have hmeet : meet t.terminal (.name :: τ) = some τ := by rw [ht]; rfl
    rw [hok]
    refine ⟨List.prefix_refl _, fun _ hn => ⟨fun d hd => ?_, fun _ => ?_⟩⟩
    · cases hn.symm.trans hd
    · exact ⟨[t], hr, rfl, matches_ident_of ht, reaches_token hmeet, trivial⟩
  · have hfail : expectName role s = raise (.noName role) s := by
      unfold expectName
      split
      next text line rest hr => exact absurd ⟨text, by rw [hr]; rfl⟩ hname
      next => rfl
    have hraise : Tracks (fun r => ¬ ∃ text, ahead r = some (.ident text)) (.name :: τ)
        (raise (.noName role) : Parse Lexeme) (Matches Loose .ident) τ fun _ => True := by
      refine tracks_raise (fun _ _ => rfl) spelled_ident fun r hr => ?_
      cases ha : ahead r with
      | none => rfl
      | some t => cases t <;> first | rfl | exact absurd ⟨_, ha⟩ hr
    rw [hfail]
    exact ⟨(hraise s).1, fun _ => (hraise s).2 hname⟩

/-! ## Loops and recovery -/

/-- The count of loops does not matter to the goals. -/
theorem Tracks.loops {before : State → Nat} {after : State → State → Nat} (h : Tracks P σ p L τ Q) :
    Tracks P σ (withLoops before after p) L τ Q := by
  intro s
  have hs := h { s with loops := before s }
  unfold withLoops
  cases hp : p { s with loops := before s } with
  | ok a s₁ =>
    rw [hp] at hs
    exact ⟨hs.1, fun hP hn => ⟨(hs.2 hP hn).caught, (hs.2 hP hn).ended⟩⟩
  | error e s₁ =>
    rw [hp] at hs
    cases e with
    | raised d => exact ⟨hs.1, fun hP hn => ⟨(hs.2 hP hn).caught, (hs.2 hP hn).ended⟩⟩
    | outOfFuel => exact ⟨hs.1, fun hP hn => ⟨(hs.2 hP hn).caught, (hs.2 hP hn).ended⟩⟩

theorem noted_recovering {p : Parse Stmt} : noted (recovering p s) = noted (p s) := by
  unfold recovering
  cases p s with
  | ok stmt s₁ => rfl
  | error e s₁ =>
    cases e with
    | raised d => simp [noted, State.report]
    | outOfFuel => rfl

/-- Reading goes on behind a raised error, but that error stays the first. -/
theorem Tracks.recovering {p : Parse Stmt} (h : Tracks P σ p L τ Q) : Tracks P σ (recovering p) L τ Q := by
  intro s
  refine ⟨noted_recovering ▸ (h s).1, fun hP hn => ?_⟩
  have ht := (h s).2 hP hn
  refine ⟨fun d hd => ht.caught d (noted_recovering ▸ hd), fun hn' => ?_⟩
  have hend := ht.ended (noted_recovering ▸ hn')
  unfold Grammar.recovering
  cases hp : p s with
  | ok stmt s₁ => rw [hp] at hend; exact hend
  | error e s₁ =>
    rw [hp] at hend
    cases e with
    | raised d => exact hend.elim
    | outOfFuel => trivial

end Grammar

end Lox
