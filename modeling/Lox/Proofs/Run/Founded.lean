/-
  Lox.Proofs.Run.Founded — machines whose links lead back to what was made before.

  On a founded machine every environment but that of the globals lies in an older one,
  every superclass is older than its class, and all that a value or a routine refers to is
  there (`Machine.Founded`). This asks nothing of the trees that are run and of their
  distances: a name may be written into any environment, for links are no names. What an
  effect adds refers to what is there, and no effect takes a link away (`Extends`), so
  every effect of the machine leaves it founded (`Continues`).
-/

import Lox.Proofs.Run.Course
import Lox.Proofs.Run.Walks

namespace Lox

variable {m m' m'' : Machine} {v : Value}

/-! ## What stays -/

/-- All that was made is still there, with the same links. -/
structure Extends (m m' : Machine) : Prop where
  size : m.store.size ≤ m'.store.size
  links : ∀ k, k < m.store.size → m'.store.outer? k = m.store.outer? k
  closures : ∀ (i : Nat) c, m.closures[i]? = some c → m'.closures[i]? = some c
  classes : ∀ (k : Nat) c, m.classes[k]? = some c → m'.classes[k]? = some c
  instances : m.instances.size ≤ m'.instances.size

theorem Grows.extends (h : Grows m m') : Extends m m' := ⟨h.size, h.links, h.closures, h.classes, h.instances⟩

theorem Extends.refl (m : Machine) : Extends m m := (Grows.refl m).extends

theorem Extends.trans (h : Extends m m') (h' : Extends m' m'') : Extends m m'' where
  size := Nat.le_trans h.size h'.size
  links k hk := by rw [h'.links k (Nat.lt_of_lt_of_le hk h.size), h.links k hk]
  closures i c hc := h'.closures i c (h.closures i c hc)
  classes k c hc := h'.classes k c (h.classes k c hc)
  instances := Nat.le_trans h.instances h'.instances

theorem Machine.Valid.extends (h : m.Valid v) (g : Extends m m') : m'.Valid v := by
  cases v with
  | function id => exact Nat.lt_of_lt_of_le h (size_le_of_kept g.closures)
  | class_ k => exact Nat.lt_of_lt_of_le h (size_le_of_kept g.classes)
  | instance_ id => exact Nat.lt_of_lt_of_le h g.instances
  | _ => trivial

/-- Where a name is defined, no link is. -/
theorem extends_define (k : Nat) (name : String) (v : Value) : Extends m { m with store := m.store.define k name v } :=
  { Extends.refl m with
    size := by simp
    links := fun _ _ => by simp }

/-! ## What holds -/

/-- Whatever links the machine has lead to what is older. -/
structure Machine.Founded (m : Machine) : Prop where
  globals : 0 < m.store.size ∧ m.store.outer? globalEnv = none
  /-- Every other environment lies in an older one. -/
  links : ∀ k, k < m.store.size → k ≠ globalEnv → ∃ p, m.store.outer? k = some p ∧ p < k
  current : m.current < m.store.size
  cells : ∀ k x v, m.store.cell k x = some v → m.Valid v
  closures : ∀ (i : Nat) c, m.closures[i]? = some c → c.env < m.store.size
  superclasses : ∀ (k : Nat) c p, m.classes[k]? = some c → c.superclass = some p → p < k
  methods : ∀ (k : Nat) c x f, m.classes[k]? = some c → c.methods.get? x = some f → f.env < m.store.size
  fields : ∀ (i : Nat) o x v, m.instances[i]? = some o → o.fields.get? x = some v → m.Valid v

/-- What is new on a machine is all that has to be looked at. -/
theorem Machine.Founded.extend (h : m.Founded) (g : Extends m m') (hcurrent : m'.current < m'.store.size)
    (hlinks : ∀ k, m.store.size ≤ k → k < m'.store.size → ∃ p, m'.store.outer? k = some p ∧ p < k)
    (hcells : ∀ k x v, m'.store.cell k x = some v → m.store.cell k x = some v ∨ m'.Valid v)
    (hclosures : ∀ (i : Nat) c, m'.closures[i]? = some c → m.closures[i]? = some c ∨ c.env < m'.store.size)
    (hclasses : ∀ (k : Nat) c, m'.classes[k]? = some c → m.classes[k]? = some c ∨
      (∀ p, c.superclass = some p → p < k) ∧ ∀ x f, c.methods.get? x = some f → f.env < m'.store.size)
    (hfields : ∀ (i : Nat) o x v, m'.instances[i]? = some o → o.fields.get? x = some v →
      (∃ old, m.instances[i]? = some old ∧ old.fields.get? x = some v) ∨ m'.Valid v) : m'.Founded where
  globals := ⟨Nat.lt_of_lt_of_le h.globals.1 g.size, by rw [g.links globalEnv h.globals.1, h.globals.2]⟩
  links k hk hne := by
    by_cases hold : k < m.store.size
    · rw [g.links k hold]
      exact h.links k hold hne
    · exact hlinks k (by omega) hk
  current := hcurrent
  cells k x v hv := (hcells k x v hv).elim (fun hold => (h.cells k x v hold).extends g) id
  closures i c hc :=
    (hclosures i c hc).elim (fun hold => Nat.lt_of_lt_of_le (h.closures i c hold) g.size) id
  superclasses k c p hc hp := (hclasses k c hc).elim (fun hold => h.superclasses k c p hold hp) fun hnew => hnew.1 p hp
  methods k c x f hc hf :=
    (hclasses k c hc).elim (fun hold => Nat.lt_of_lt_of_le (h.methods k c x f hold hf) g.size) fun hnew => hnew.2 x f hf
  fields i o x v ho hv :=
    (hfields i o x v ho hv).elim (fun ⟨old, hold, hx⟩ => (h.fields i old x v hold hx).extends g) id

/-- Links go to older environments. -/
theorem Machine.Founded.older (h : m.Founded) {i p : Nat} (hp : m.store.outer? i = some p) : p < i := by
  by_cases hi : i = globalEnv
  · rw [hi, h.globals.2] at hp
    cases hp
  · obtain ⟨p', hp', hlt⟩ := h.links i (Store.outer?_lt hp) hi
    cases Option.some.inj (hp.symm.trans hp')
    exact hlt

/-- What a part of a run leaves behind, however it ends. -/
structure Continues (m m' : Machine) : Prop where
  founded : m'.Founded
  kept : Extends m m'

theorem Continues.refl (h : m.Founded) : Continues m m := ⟨h, .refl m⟩

theorem Continues.trans (h : Continues m m') (h' : Continues m' m'') : Continues m m'' :=
  ⟨h'.founded, h.kept.trans h'.kept⟩

/-! ## What the effects do -/

/-- Output, clock, distances and the current environment are no part of the heap. -/
theorem continues_same (h : m.Founded) (hs : m'.store = m.store) (hf : m'.closures = m.closures)
    (hc : m'.classes = m.classes) (hi : m'.instances = m.instances) (hcurrent : m'.current < m.store.size) :
    Continues m m' := by
  have g : Extends m m' := (grows_same hs hf hc (by rw [hi])).extends
  refine ⟨h.extend g (hs ▸ hcurrent) (fun k hold hk => ?_) (fun _ _ _ hv => Or.inl (hs ▸ hv))
    (fun _ _ hc => Or.inl (hf ▸ hc))
    (fun _ _ hk => Or.inl (hc ▸ hk)) (fun _ o _ _ ho hv => Or.inl ⟨o, hi ▸ ho, hv⟩), g⟩
  rw [hs] at hk
  omega

theorem continues_inEnv (h : m.Founded) {env : Nat} (henv : env < m.store.size) :
    Continues m { m with current := env } :=
  continues_same h rfl rfl rfl rfl henv

/-- A variable that is defined changes no link. -/
theorem continues_define (h : m.Founded) (hv : m.Valid v) (k : Nat) (name : String) :
    Continues m { m with store := m.store.define k name v } := by
  have g := extends_define (m := m) k name v
  refine ⟨h.extend g (Nat.lt_of_lt_of_le h.current g.size) (fun j hold hj => ?_) (fun j x u hu => ?_)
    (fun _ _ hc => Or.inl hc)
    (fun _ _ hc => Or.inl hc) (fun _ o _ _ ho hx => Or.inl ⟨o, ho, hx⟩), g⟩
  · have hj' : j < (m.store.define k name v).size := hj
    rw [Store.size_define] at hj'
    omega
  · rw [Store.cell_define] at hu
    split at hu
    · cases hu
      exact Or.inr (hv.extends g)
    · exact Or.inl hu

/-- A new environment is younger than the one that it is linked to. -/
theorem continues_push (h : m.Founded) {values : Bindings Value} {enclosing : Nat}
    (hvalues : ∀ x v, values.get? x = some v → m.Valid v) (henclosing : enclosing < m.store.size) :
    Continues m { m with store := m.store.push values (some enclosing) } := by
  have g := (grows_push (m := m) values enclosing).extends
  refine ⟨h.extend g (Nat.lt_of_lt_of_le h.current g.size) (fun k hold hk => ?_) (fun k x v hv => ?_)
    (fun _ _ hc => Or.inl hc)
    (fun _ _ hc => Or.inl hc) (fun _ o _ _ ho hx => Or.inl ⟨o, ho, hx⟩), g⟩
  · have hk' : k < (m.store.push values (some enclosing)).size := hk
    rw [Store.size_push] at hk'
    obtain rfl : k = m.store.size := by omega
    refine ⟨enclosing, ?_, henclosing⟩
    show (m.store.push values (some enclosing)).outer? m.store.size = _
    rw [Store.outer?_push, if_pos rfl]
  · rw [Store.cell_push] at hv
    split at hv
    · exact Or.inr ((hvalues x v hv).extends g)
    · exact Or.inl hv

theorem continues_newFunction (h : m.Founded) {c : Closure} (hc : c.env < m.store.size) :
    Continues m { m with closures := m.closures.push c } := by
  have g := (grows_newFunction (m := m) c).extends
  refine ⟨h.extend g h.current (fun k hold hk => absurd hk (Nat.not_lt.mpr hold)) (fun _ _ _ hv => Or.inl hv)
    (fun i c' hi => ?_) (fun _ _ hc => Or.inl hc) (fun _ o _ _ ho hx => Or.inl ⟨o, ho, hx⟩), g⟩
  rcases getElem?_push_cases hi with hold | ⟨-, rfl⟩
  · exact Or.inl hold
  · exact Or.inr hc

/-- A superclass is there before the class is made. -/
theorem continues_newClass (h : m.Founded) {c : Class} (hp : ∀ p, c.superclass = some p → p < m.classes.size)
    (hmethods : ∀ x f, c.methods.get? x = some f → f.env < m.store.size) :
    Continues m { m with classes := m.classes.push c } := by
  have g := (grows_newClass (m := m) c).extends
  refine ⟨h.extend g h.current (fun k hold hk => absurd hk (Nat.not_lt.mpr hold)) (fun _ _ _ hv => Or.inl hv)
    (fun _ _ hc => Or.inl hc) (fun k c' hk => ?_) (fun _ o _ _ ho hx => Or.inl ⟨o, ho, hx⟩), g⟩
  rcases getElem?_push_cases hk with hold | ⟨rfl, rfl⟩
  · exact Or.inl hold
  · exact Or.inr ⟨hp, hmethods⟩

theorem continues_newInstance (h : m.Founded) (k : Nat) :
    Continues m { m with instances := m.instances.push ⟨k, ∅⟩ } := by
  have g : Extends m { m with instances := m.instances.push ⟨k, ∅⟩ } := { Extends.refl m with instances := by simp }
  refine ⟨h.extend g h.current (fun k hold hk => absurd hk (Nat.not_lt.mpr hold)) (fun _ _ _ hv => Or.inl hv)
    (fun _ _ hc => Or.inl hc) (fun _ _ hc => Or.inl hc) (fun i o x v hi hx => ?_), g⟩
  rcases getElem?_push_cases hi with hold | ⟨-, rfl⟩
  · exact Or.inl ⟨o, hold, hx⟩
  · cases hx

/-- A field that is set changes no link. -/
theorem continues_setField (h : m.Founded) (hv : m.Valid v) (id : Nat) (name : String) :
    Continues m { m with instances := m.instances.modify id fun i => { i with fields := i.fields.set name v } } := by
  have g := (grows_setField (m := m) id name v).extends
  refine ⟨h.extend g h.current (fun k hold hk => absurd hk (Nat.not_lt.mpr hold)) (fun _ _ _ hv => Or.inl hv)
    (fun _ _ hc => Or.inl hc) (fun _ _ hc => Or.inl hc) (fun i o x u hi hx => ?_), g⟩
  rw [Array.getElem?_modify] at hi
  split at hi
  · obtain ⟨old, hold, rfl⟩ := Option.map_eq_some_iff.mp hi
    simp only [Bindings.get?_set] at hx
    split at hx
    · cases hx
      exact Or.inr (hv.extends g)
    · exact Or.inl ⟨old, hold, hx⟩
  · exact Or.inl ⟨o, hi, hx⟩

/-- At the start there is only the environment of the globals. -/
theorem founded_start : Machine.start.Founded where
  globals := ⟨by decide, rfl⟩
  links k hk hne := by
    have hone : k < 1 := hk
    have hzero : k ≠ 0 := hne
    omega
  current := by decide
  cells _ _ _ hv := valid_start hv
  closures i c hc := by cases hc
  superclasses k c p hc := by cases hc
  methods k c x f hc := by cases hc
  fields i o x v ho := by cases ho

end Lox
