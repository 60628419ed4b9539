/-
  Lox.Proofs.Alike.Machines — two machines that run alike texts.

  Environments correspond (`Pairing`): an environment of the first machine is paired with
  one of the second, and with the spelling of its names. `Around` says this of all the
  environments from one outward, as the scopes of a text ask for it; those of scopes that
  the second text alone has are paired with none. Machines are `Kin`
  if paired environments hold the same values under the names of their spelling, closures
  and methods are of alike routines in corresponding environments, and all else is the
  same. What is added later changes nothing of that (`Paired.around`).
-/

import Lox.Proofs.Alike.Trees
import Lox.Proofs.Run.Heap

namespace Lox

/-! ## Tables -/

/-- The same table under another spelling. -/
def Spelled (s : Spelling) (t t' : Bindings Value) : Prop :=
  (∀ entry ∈ t.entries, s.Used entry.1) ∧ t'.entries = t.entries.map fun entry => (s.text entry.1, entry.2)

namespace Spelled

variable {s : Spelling} {t t' : Bindings Value} {x : String} {v : Value}

theorem empty (s : Spelling) : Spelled s ∅ ∅ := ⟨fun _ h => (by cases h), rfl⟩

theorem single (hx : s.Used x) (v : Value) : Spelled s (.single x v) (.single (s.text x) v) := by
  refine ⟨fun entry h => ?_, rfl⟩
  rw [List.mem_singleton.mp h]
  exact hx

theorem find_map {entries : List (String × Value)} (hu : ∀ entry ∈ entries, s.Used entry.1) (hx : s.Used x) :
    Bindings.find (s.text x) (entries.map fun entry => (s.text entry.1, entry.2)) = Bindings.find x entries := by
  induction entries with
  | nil => rfl
  | cons entry rest ih =>
    obtain ⟨key, value⟩ := entry
    have hrest := ih fun e he => hu e (List.mem_cons_of_mem _ he)
    by_cases h : key = x
    · simp [Bindings.find, h]
    · have h' : s.text key ≠ s.text x := fun he => h (s.injective _ _ (hu _ (List.mem_cons_self ..)) hx he)
      simp [Bindings.find, h, h', hrest]

theorem get? (h : Spelled s t t') (hx : s.Used x) : t'.get? (s.text x) = t.get? x := by
  unfold Bindings.get?
  rw [h.2, find_map h.1 hx]

theorem put_map {entries : List (String × Value)} (hu : ∀ entry ∈ entries, s.Used entry.1) (hx : s.Used x) :
    Bindings.put (s.text x) v (entries.map fun entry => (s.text entry.1, entry.2)) =
      (Bindings.put x v entries).map fun entry => (s.text entry.1, entry.2) := by
  induction entries with
  | nil => rfl
  | cons entry rest ih =>
    obtain ⟨key, value⟩ := entry
    have hrest := ih fun e he => hu e (List.mem_cons_of_mem _ he)
    by_cases h : key = x
    · simp [Bindings.put, h]
    · have h' : s.text key ≠ s.text x := fun he => h (s.injective _ _ (hu _ (List.mem_cons_self ..)) hx he)
      simp [Bindings.put, h, h', hrest]

theorem used_put {entries : List (String × Value)} (hu : ∀ entry ∈ entries, s.Used entry.1) (hx : s.Used x) :
    ∀ entry ∈ Bindings.put x v entries, s.Used entry.1 := by
  induction entries with
  | nil =>
    intro entry h
    rw [List.mem_singleton.mp h]
    exact hx
  | cons first rest ih =>
    obtain ⟨key, old⟩ := first
    intro entry h
    have hrest := ih fun e he => hu e (List.mem_cons_of_mem _ he)
    unfold Bindings.put at h
    split at h
    · rcases List.mem_cons.mp h with rfl | h
      · exact hu (key, old) (List.mem_cons_self ..)
      · exact hu _ (List.mem_cons_of_mem _ h)
    · rcases List.mem_cons.mp h with rfl | h
      · exact hu _ (List.mem_cons_self ..)
      · exact hrest entry h

theorem set (h : Spelled s t t') (hx : s.Used x) (v : Value) : Spelled s (t.set x v) (t'.set (s.text x) v) := by
  refine ⟨used_put h.1 hx, ?_⟩
  unfold Bindings.set
  rw [h.2, put_map h.1 hx]

theorem of_plain (h : Spelled .plain t t') : t' = t := by
  obtain ⟨entries⟩ := t
  obtain ⟨entries'⟩ := t'
  have hsame : entries' = entries.map id := h.2
  rw [hsame, List.map_id]

theorem plain (t : Bindings Value) : Spelled .plain t t := ⟨fun _ _ => trivial, (List.map_id _).symm⟩

end Spelled

/-! ## Environments -/

/-- For an environment of the first machine, the one of the second, and the spelling. -/
def Pairing := Nat → Option (Nat × Spelling)

variable {π π₁ π₂ : Pairing} {m m' m₁ m₁' m₂ m₂' : Machine} {k k' : Nat} {ss : List Layer} {Λ Λ' : Likeness}

/-- The environments from `k` and `k'` outward correspond, one pair for each scope that is
shared. -/
def Around (π : Pairing) (m m' : Machine) : Nat → Nat → List Layer → Prop
  | k, k', [] => k = globalEnv ∧ k' = globalEnv
  | k, k', .shared s :: ss => π k = some (k', s) ∧
      ∃ p p', m.store.outer? k = some p ∧ m'.store.outer? k' = some p' ∧ Around π m m' p p' ss
  | k, k', .added :: ss => ∃ p', m'.store.outer? k' = some p' ∧ Around π m m' k p' ss

/-- One more pair. -/
def Pairing.add (π : Pairing) (k k' : Nat) (s : Spelling) : Pairing := fun j => if j = k then some (k', s) else π j

/-- More environments on both machines, and the old ones as they were, values apart. -/
structure Paired (π : Pairing) (m m' : Machine) (π₁ : Pairing) (m₁ m₁' : Machine) : Prop where
  pairs : ∀ k p, π k = some p → π₁ k = some p
  links : ∀ k, k < m.store.size → m₁.store.outer? k = m.store.outer? k
  links' : ∀ k, k < m'.store.size → m₁'.store.outer? k = m'.store.outer? k
  size : m.store.size ≤ m₁.store.size
  size' : m'.store.size ≤ m₁'.store.size

namespace Paired

theorem refl (π : Pairing) (m m' : Machine) : Paired π m m' π m m' where
  pairs _ _ h := h
  links _ _ := rfl
  links' _ _ := rfl
  size := Nat.le_refl _
  size' := Nat.le_refl _

theorem trans (h : Paired π m m' π₁ m₁ m₁') (h' : Paired π₁ m₁ m₁' π₂ m₂ m₂') : Paired π m m' π₂ m₂ m₂' where
  pairs k p hk := h'.pairs k p (h.pairs k p hk)
  links k hk := by rw [h'.links k (Nat.lt_of_lt_of_le hk h.size), h.links k hk]
  links' k hk := by rw [h'.links' k (Nat.lt_of_lt_of_le hk h.size'), h.links' k hk]
  size := Nat.le_trans h.size h'.size
  size' := Nat.le_trans h.size' h'.size'

/-- Values, and what is no environment, may change. -/
theorem of_links (π : Pairing) (hs : m₁.store.size = m.store.size) (hs' : m₁'.store.size = m'.store.size)
    (hl : ∀ k, m₁.store.outer? k = m.store.outer? k) (hl' : ∀ k, m₁'.store.outer? k = m'.store.outer? k) :
    Paired π m m' π m₁ m₁' where
  pairs _ _ h := h
  links k _ := hl k
  links' k _ := hl' k
  size := Nat.le_of_eq hs.symm
  size' := Nat.le_of_eq hs'.symm

theorem around (h : Paired π m m' π₁ m₁ m₁') (ha : Around π m m' k k' ss) : Around π₁ m₁ m₁' k k' ss := by
  induction ss generalizing k k' with
  | nil => exact ha
  | cons layer ss ih =>
    cases layer with
    | shared s =>
      obtain ⟨hk, p, p', hp, hp', hrest⟩ := ha
      refine ⟨h.pairs _ _ hk, p, p', ?_, ?_, ih hrest⟩
      · rw [h.links k (Store.outer?_lt hp), hp]
      · rw [h.links' k' (Store.outer?_lt hp'), hp']
    | added =>
      obtain ⟨p', hp', hrest⟩ := ha
      exact ⟨p', by rw [h.links' k' (Store.outer?_lt hp'), hp'], ih hrest⟩

end Paired

/-- Only the environments count. -/
theorem Around.same {D D' : Distances} (h : Around π m m' k k' ss) :
    Around π { m with distances := D } { m' with distances := D' } k k' ss :=
  have hp : Paired π m m' π { m with distances := D } { m' with distances := D' } :=
    .of_links π rfl rfl (fun _ => rfl) fun _ => rfl
  hp.around h

/-- At distances that meet there is a pair of environments of the spelling that the scope has. -/
theorem Around.ancestor {d d' : Nat} {s : Spelling} (h : Around π m m' k k' ss) (hd : Meets ss d d' s) :
    ∃ e e', m.store.ancestor? d k = some e ∧ m'.store.ancestor? d' k' = some e' ∧ π e = some (e', s) := by
  induction hd generalizing k k' with
  | here => exact ⟨k, k', rfl, rfl, h.1⟩
  | outer _ ih =>
    obtain ⟨-, p, p', hp, hp', hrest⟩ := h
    obtain ⟨e, e', he, he', hpair⟩ := ih hrest
    exact ⟨e, e', by simp only [Store.ancestor?, hp, Option.bind_some, he],
      by simp only [Store.ancestor?, hp', Option.bind_some, he'], hpair⟩
  | past _ ih =>
    obtain ⟨p', hp', hrest⟩ := h
    obtain ⟨e, e', he, he', hpair⟩ := ih hrest
    exact ⟨e, e', he, by simp only [Store.ancestor?, hp', Option.bind_some, he'], hpair⟩

/-! ## Closures -/

/-- Two functions: alike routines, in corresponding environments. A function is declared in
a scope that both texts have. -/
def AlikeFunction (Λ : Likeness) (π : Pairing) (m m' : Machine) (c c' : Closure) : Prop :=
  c'.isInit = c.isInit ∧ ∃ ss context context', (innermost ss).isSome ∧ Around π m m' c.env c'.env ss ∧
    Alike Λ ss (.routine context c.routine) (.routine context' c'.routine)

/-- Two methods: there is a scope for the receiver around their routines. -/
def AlikeMethod (Λ : Likeness) (π : Pairing) (m m' : Machine) (c c' : Closure) : Prop :=
  c'.isInit = c.isInit ∧ ∃ receiver ss context context', Around π m m' c.env c'.env ss ∧
    Alike Λ (.shared receiver :: ss) (.routine context c.routine) (.routine context' c'.routine)

/-- Two objects, or none on both sides. -/
def BothOr {α : Type} (related : α → α → Prop) : Option α → Option α → Prop
  | some a, some a' => related a a'
  | none, none => True
  | _, _ => False

theorem BothOr.mono {α : Type} {related related' : α → α → Prop} {a a' : Option α} (h : BothOr related a a')
    (hr : ∀ a a', related a a' → related' a a') : BothOr related' a a' := by
  cases a <;> cases a' <;> first | exact hr _ _ h | exact h

theorem BothOr.cases {α : Type} {related : α → α → Prop} {a a' : Option α} (h : BothOr related a a') :
    (a = none ∧ a' = none) ∨ ∃ b b', a = some b ∧ a' = some b' ∧ related b b' := by
  cases a <;> cases a'
  · exact Or.inl ⟨rfl, rfl⟩
  · exact h.elim
  · exact h.elim
  · exact Or.inr ⟨_, _, rfl, rfl, h⟩

structure AlikeClass (Λ : Likeness) (π : Pairing) (m m' : Machine) (c c' : Class) : Prop where
  name : c'.name = c.name
  superclass : c'.superclass = c.superclass
  methods : ∀ x, BothOr (AlikeMethod Λ π m m') (c.methods.get? x) (c'.methods.get? x)

theorem AlikeFunction.later {c c' : Closure} (hp : Paired π m m' π₁ m₁ m₁') (h : AlikeFunction Λ π m m' c c') :
    AlikeFunction Λ π₁ m₁ m₁' c c' := by
  obtain ⟨hi, ss, context, context', hs, ha, h⟩ := h
  exact ⟨hi, ss, context, context', hs, hp.around ha, h⟩

theorem AlikeMethod.later {c c' : Closure} (hp : Paired π m m' π₁ m₁ m₁') (h : AlikeMethod Λ π m m' c c') :
    AlikeMethod Λ π₁ m₁ m₁' c c' := by
  obtain ⟨hi, receiver, ss, context, context', ha, h⟩ := h
  exact ⟨hi, receiver, ss, context, context', hp.around ha, h⟩

theorem AlikeClass.later {c c' : Class} (hp : Paired π m m' π₁ m₁ m₁') (h : AlikeClass Λ π m m' c c') :
    AlikeClass Λ π₁ m₁ m₁' c c' :=
  ⟨h.name, h.superclass, fun x => (h.methods x).mono fun _ _ hm => hm.later hp⟩

/-! ## Machines -/

/-- A reference finds the same by both tables. One scope further in than what a `super`
finds is the receiver. -/
def SameDistance (D D' : Distances) (ss : List Layer) (r r' : Reference) : Prop :=
  match D[r.slot]? with
  | some d => ∃ d' s, D'[r'.slot]? = some d' ∧ Meets ss (Distances.hops d) (Distances.hops d') s ∧
      s.Writes r.name r'.name ∧
      (r.name.text = superName → ∃ t, Meets ss (Distances.hops (d - 1)) (Distances.hops (d' - 1)) t)
  | none => D'[r'.slot]? = none ∧ r'.name.text = r.name.text

theorem SameDistance.congr {D D' E E' : Distances} {r r' : Reference} (h : SameDistance D D' ss r r')
    (hD : E[r.slot]? = D[r.slot]?) (hD' : E'[r'.slot]? = D'[r'.slot]?) : SameDistance E E' ss r r' := by
  unfold SameDistance at h ⊢
  rwa [hD, hD']

/-- Machines that do the same. The second one may have printed more before. -/
structure Kin (Λ : Likeness) (before : Array String) (π : Pairing) (m m' : Machine) : Prop where
  globals : π globalEnv = some (globalEnv, .plain)
  outermost : m.store.outer? globalEnv = none ∧ m'.store.outer? globalEnv = none
  tables : ∀ k k' s, π k = some (k', s) → ∃ t t', m.store.values? k = some t ∧ m'.store.values? k' = some t' ∧
    Spelled s t t'
  apart : ∀ k₁ k₂ k' s₁ s₂, π k₁ = some (k', s₁) → π k₂ = some (k', s₂) → k₁ = k₂
  functions : ∀ i : Nat, BothOr (AlikeFunction Λ π m m') m.closures[i]? m'.closures[i]?
  classes : ∀ i : Nat, BothOr (AlikeClass Λ π m m') m.classes[i]? m'.classes[i]?
  instances : m'.instances = m.instances
  output : m'.output = before ++ m.output
  ticks : m'.ticks = m.ticks
  distances : ∀ ss r r', Λ.reference ss r r' → SameDistance m.distances m'.distances ss r r'

variable {before : Array String}

theorem size_eq {α : Type} {related : α → α → Prop} {xs xs' : Array α} (h : ∀ i : Nat, BothOr related xs[i]? xs'[i]?) :
    xs'.size = xs.size := by
  have hnone : ∀ i, xs.size ≤ i ↔ xs'.size ≤ i := by
    intro i
    rw [← Array.getElem?_eq_none_iff, ← Array.getElem?_eq_none_iff]
    rcases (h i).cases with ⟨hx, hx'⟩ | ⟨a, a', hx, hx', -⟩ <;> simp [hx, hx']
  have := hnone xs.size
  have := hnone xs'.size
  omega

theorem bothOr_push {α : Type} {related : α → α → Prop} {xs xs' : Array α} {a a' : α}
    (h : ∀ i : Nat, BothOr related xs[i]? xs'[i]?) (ha : related a a') (i : Nat) :
    BothOr related (xs.push a)[i]? (xs'.push a')[i]? := by
  rw [Array.getElem?_push, Array.getElem?_push, size_eq h]
  split
  · exact ha
  · exact h i

namespace Kin

variable {s : Spelling} {x : String} {v : Value}

/-- What a machine is apart from its environments and its text. -/
theorem others {before₁ : Array String} (h : Kin Λ before π m m') (hs : m₁.store = m.store) (hs' : m₁'.store = m'.store)
    (hf : m₁.closures = m.closures) (hf' : m₁'.closures = m'.closures) (hc : m₁.classes = m.classes)
    (hc' : m₁'.classes = m'.classes) (hd : m₁.distances = m.distances) (hd' : m₁'.distances = m'.distances)
    (hi : m₁'.instances = m₁.instances) (ho : m₁'.output = before₁ ++ m₁.output) (ht : m₁'.ticks = m₁.ticks) :
    Kin Λ before₁ π m₁ m₁' ∧ Paired π m m' π m₁ m₁' := by
  have hp : Paired π m m' π m₁ m₁' :=
    .of_links π (by rw [hs]) (by rw [hs']) (fun _ => by rw [hs]) (fun _ => by rw [hs'])
  refine ⟨⟨h.globals, ?_, ?_, h.apart, fun i => ?_, fun i => ?_, hi, ho, ht, ?_⟩, hp⟩
  · rw [hs, hs']
    exact h.outermost
  · rw [hs, hs']
    exact h.tables
  · rw [hf, hf']
    exact (h.functions i).mono fun _ _ hc => hc.later hp
  · rw [hc, hc']
    exact (h.classes i).mono fun _ _ hc => hc.later hp
  · rw [hd, hd']
    exact h.distances

/-- Other tables, and more or less asked of texts that are alike. -/
theorem relike {Λ' : Likeness} {D D' : Distances} (h : Kin Λ before π m m') (hp : ∀ a a', Λ.place a a' → Λ'.place a a')
    (hr : ∀ ss r r', Λ.reference ss r r' → Λ'.reference ss r r') (hb : Λ.boxes → Λ'.boxes)
    (hroom : Λ.deeper → Λ'.deeper) (hd : ∀ ss r r', Λ'.reference ss r r' → SameDistance D D' ss r r') :
    Kin Λ' before π { m with distances := D } { m' with distances := D' } where
  globals := h.globals
  outermost := h.outermost
  tables := h.tables
  apart := h.apart
  functions i := (h.functions i).mono fun _ _ hc => by
    obtain ⟨hi, ss, context, context', hs, ha, hc⟩ := hc
    exact ⟨hi, ss, context, context', hs, ha.same, hc.mono hp hr hb hroom⟩
  classes i := (h.classes i).mono fun _ _ hc => by
    refine ⟨hc.name, hc.superclass, fun x => (hc.methods x).mono fun _ _ hm => ?_⟩
    obtain ⟨hi, receiver, ss, context, context', ha, hm⟩ := hm
    exact ⟨hi, receiver, ss, context, context', ha.same, hm.mono hp hr hb hroom⟩
  instances := h.instances
  output := h.output
  ticks := h.ticks
  distances := hd

theorem lt (h : Kin Λ before π m m') (hk : π k = some (k', s)) : k < m.store.size ∧ k' < m'.store.size := by
  obtain ⟨t, t', ht, ht', -⟩ := h.tables k k' s hk
  rw [← Store.values?_isSome, ← Store.values?_isSome, ht, ht']
  exact ⟨rfl, rfl⟩

theorem cell (h : Kin Λ before π m m') (hk : π k = some (k', s)) (hx : s.Used x) :
    m'.store.cell k' (s.text x) = m.store.cell k x := by
  obtain ⟨t, t', ht, ht', hspelled⟩ := h.tables k k' s hk
  unfold Store.cell
  rw [ht, ht', Option.bind_some, Option.bind_some, hspelled.get? hx]

/-- A name is written in corresponding environments. -/
theorem define (h : Kin Λ before π m m') (hk : π k = some (k', s)) (hx : s.Used x) (v : Value) :
    Kin Λ before π { m with store := m.store.define k x v } { m' with store := m'.store.define k' (s.text x) v } ∧
      Paired π m m' π { m with store := m.store.define k x v }
        { m' with store := m'.store.define k' (s.text x) v } := by
  have hp : Paired π m m' π { m with store := m.store.define k x v }
    { m' with store := m'.store.define k' (s.text x) v } :=
    .of_links π (Store.size_define ..) (Store.size_define ..) (fun _ => Store.outer?_define ..)
      fun _ => Store.outer?_define ..
  refine ⟨⟨h.globals, ?_, fun j j' s' hj => ?_, h.apart, fun i => ?_, fun i => ?_, h.instances, h.output, h.ticks,
    h.distances⟩, hp⟩
  · simp only [Store.outer?_define]
    exact h.outermost
  · obtain ⟨t, t', ht, ht', hspelled⟩ := h.tables j j' s' hj
    simp only [Store.values?_define, ht, ht', Option.map_some]
    by_cases hkj : k = j
    · subst hkj
      rw [hk, Option.some.injEq, Prod.mk.injEq] at hj
      obtain ⟨rfl, rfl⟩ := hj
      exact ⟨_, _, rfl, rfl, by simpa using hspelled.set hx v⟩
    · have hkj' : k' ≠ j' := fun he => hkj (h.apart k j j' s s' (he ▸ hk) hj)
      exact ⟨_, _, rfl, rfl, by simpa [hkj, hkj'] using hspelled⟩
  · exact (h.functions i).mono fun _ _ hc => hc.later hp
  · exact (h.classes i).mono fun _ _ hc => hc.later hp

/-- A new environment on both machines. -/
theorem push {t t' : Bindings Value} (h : Kin Λ before π m m') (ht : Spelled s t t') (e e' : Nat) :
    Kin Λ before (π.add m.store.size m'.store.size s) { m with store := m.store.push t (some e) }
        { m' with store := m'.store.push t' (some e') } ∧
      Paired π m m' (π.add m.store.size m'.store.size s) { m with store := m.store.push t (some e) }
        { m' with store := m'.store.push t' (some e') } := by
  have hold : ∀ {k p}, π k = some p → π.add m.store.size m'.store.size s k = some p := by
    intro k p hk
    obtain ⟨j, s'⟩ := p
    have hlt := (h.lt hk).1
    unfold Pairing.add
    rw [if_neg (by omega), hk]
  have hp : Paired π m m' (π.add m.store.size m'.store.size s) { m with store := m.store.push t (some e) }
      { m' with store := m'.store.push t' (some e') } :=
    { pairs := fun _ _ hk => hold hk
      links := fun k hk => (Store.outer?_push ..).trans (if_neg (by omega))
      links' := fun k hk => (Store.outer?_push ..).trans (if_neg (by omega))
      size := by simp
      size' := by simp }
  have h0 := h.lt h.globals
  refine ⟨⟨hold h.globals, ?_, fun j j' s' hj => ?_, fun j₁ j₂ j' s₁ s₂ h₁ h₂ => ?_, fun i => ?_, fun i =>
    ?_, h.instances,
    h.output, h.ticks, h.distances⟩, hp⟩
  · simp only [Store.outer?_push]
    rw [if_neg (by omega), if_neg (by omega)]
    exact h.outermost
  · simp only [Store.values?_push]
    unfold Pairing.add at hj
    split at hj
    next hjk =>
      cases hj
      rw [if_pos hjk, if_pos rfl]
      exact ⟨t, t', rfl, rfl, ht⟩
    next hjk =>
      have hlt := h.lt hj
      rw [if_neg (by omega), if_neg (by omega)]
      exact h.tables j j' s' hj
  · unfold Pairing.add at h₁ h₂
    split at h₁ <;> split at h₂
    next hj₁ hj₂ => rw [hj₁, hj₂]
    next hj₁ hj₂ =>
      cases h₁
      have := (h.lt h₂).2
      omega
    next hj₁ hj₂ =>
      cases h₂
      have := (h.lt h₁).2
      omega
    next => exact h.apart j₁ j₂ j' s₁ s₂ h₁ h₂
  · exact (h.functions i).mono fun _ _ hc => hc.later hp
  · exact (h.classes i).mono fun _ _ hc => hc.later hp

/-- A new environment on the second machine alone. -/
theorem pushAlone (h : Kin Λ before π m m') (t : Bindings Value) (e : Nat) :
    Kin Λ before π m { m' with store := m'.store.push t (some e) } ∧
      Paired π m m' π m { m' with store := m'.store.push t (some e) } := by
  have hp : Paired π m m' π m { m' with store := m'.store.push t (some e) } :=
    { pairs := fun _ _ hk => hk
      links := fun _ _ => rfl
      links' := fun k hk => (Store.outer?_push ..).trans (if_neg (by omega))
      size := Nat.le_refl _
      size' := by simp }
  have h0 := h.lt h.globals
  refine ⟨⟨h.globals, ⟨h.outermost.1, ?_⟩, fun j j' s hj => ?_, h.apart, fun i => ?_, fun i =>
    ?_, h.instances, h.output,
    h.ticks, h.distances⟩, hp⟩
  · simp only [Store.outer?_push]
    rw [if_neg (by omega)]
    exact h.outermost.2
  · have hlt := h.lt hj
    simp only [Store.values?_push]
    rw [if_neg (by omega)]
    exact h.tables j j' s hj
  · exact (h.functions i).mono fun _ _ hc => hc.later hp
  · exact (h.classes i).mono fun _ _ hc => hc.later hp

theorem newFunction {c c' : Closure} (h : Kin Λ before π m m') (hc : AlikeFunction Λ π m m' c c') :
    Kin Λ before π { m with closures := m.closures.push c } { m' with closures := m'.closures.push c' } ∧
      Paired π m m' π { m with closures := m.closures.push c } { m' with closures := m'.closures.push c' } := by
  have hp : Paired π m m' π { m with closures := m.closures.push c } { m' with closures := m'.closures.push c' } :=
    .of_links π rfl rfl (fun _ => rfl) fun _ => rfl
  refine ⟨⟨h.globals, h.outermost, h.tables, h.apart, ?_, fun i => ?_, h.instances, h.output, h.ticks, h.distances⟩, hp⟩
  · exact bothOr_push (fun i => (h.functions i).mono fun _ _ hc => hc.later hp) (hc.later hp)
  · exact (h.classes i).mono fun _ _ hc => hc.later hp

theorem newClass {c c' : Class} (h : Kin Λ before π m m') (hc : AlikeClass Λ π m m' c c') :
    Kin Λ before π { m with classes := m.classes.push c } { m' with classes := m'.classes.push c' } ∧
      Paired π m m' π { m with classes := m.classes.push c } { m' with classes := m'.classes.push c' } := by
  have hp : Paired π m m' π { m with classes := m.classes.push c } { m' with classes := m'.classes.push c' } :=
    .of_links π rfl rfl (fun _ => rfl) fun _ => rfl
  refine ⟨⟨h.globals, h.outermost, h.tables, h.apart, fun i => ?_, ?_, h.instances, h.output, h.ticks, h.distances⟩, hp⟩
  · exact (h.functions i).mono fun _ _ hc => hc.later hp
  · exact bothOr_push (fun i => (h.classes i).mono fun _ _ hc => hc.later hp) (hc.later hp)

/-! ### What is seen of a machine -/

theorem display (h : Kin Λ before π m m') (v : Value) : m'.display v = m.display v := by
  have hclass : ∀ k, m'.className k = m.className k := by
    intro k
    unfold Machine.className
    rcases (h.classes k).cases with ⟨hc, hc'⟩ | ⟨c, c', hc, hc', halike⟩ <;> rw [hc, hc']
    exact halike.name
  cases v with
  | class_ k => exact hclass k
  | function id =>
    simp only [Machine.display]
    rcases (h.functions id).cases with ⟨hc, hc'⟩ | ⟨c, c', hc, hc', -, ss, context, context', -, -, halike⟩ <;>
      rw [hc, hc']
    simp only [halike.parts.1]
  | instance_ id =>
    simp only [Machine.display, h.instances, hclass]
  | bool b => cases b <;> rfl
  | _ => rfl

theorem globalValues (h : Kin Λ before π m m') : m'.store.values? globalEnv = m.store.values? globalEnv := by
  obtain ⟨t, t', ht, ht', hspelled⟩ := h.tables _ _ _ h.globals
  rw [ht, ht', hspelled.of_plain]

theorem sameGlobals (h : Kin Λ before π m m') : m'.globals = m.globals := by
  have hdisplay : m'.display = m.display := funext h.display
  unfold Machine.globals
  rw [h.globalValues, hdisplay]

end Kin

theorem Around.push {s : Spelling} (h : Around π m m' k k' ss) (hp : Paired π m m' π₁ m₁ m₁') {e e' : Nat}
    (he : π₁ e = some (e', s)) (hl : m₁.store.outer? e = some k) (hl' : m₁'.store.outer? e' = some k') :
    Around π₁ m₁ m₁' e e' (.shared s :: ss) :=
  ⟨he, k, k', hl, hl', hp.around h⟩

end Lox
