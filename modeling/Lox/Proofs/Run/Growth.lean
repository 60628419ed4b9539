/-
  Lox.Proofs.Run.Growth — a running program only adds to a machine (`Grows`).

  No link is ever changed, a name that is bound stays bound, and functions and classes are
  never changed once they are made. An environment is either open to the names of the
  program (`Machine.IsOpen`), or it was made to hold a receiver or a superclass and holds
  nothing else (`Machine.HasOnly`). Either way it stays as it is, since a program writes to
  open environments alone (`grows_define`).
-/

import Lox.Machine
import Lox.Proofs.Scope.Shape

namespace Lox

/-! ## Cells -/

namespace Store

variable {α : Type}

/-- The value of a name in one environment. -/
def cell (s : Store α) (k : Nat) (x : String) : Option α := (s.values? k).bind (·.get? x)

theorem values?_push (s : Store α) (values : Bindings α) (enclosing : Option Nat) (k : Nat) :
    (s.push values enclosing).values? k = if k = s.size then some values else s.values? k := by
  unfold Store.values? push size
  rw [Array.getElem?_push]
  split <;> rfl

theorem cell_push (s : Store α) (values : Bindings α) (enclosing : Option Nat) (k : Nat) (x : String) :
    (s.push values enclosing).cell k x = if k = s.size then values.get? x else s.cell k x := by
  unfold cell
  rw [values?_push]
  split <;> rfl

theorem values?_isSome (s : Store α) (k : Nat) : (s.values? k).isSome ↔ k < s.size := by
  rw [Store.values?, Option.isSome_map, Option.isSome_iff_ne_none, Ne, Array.getElem?_eq_none_iff]
  exact Nat.not_le

theorem values?_lt {s : Store α} {k : Nat} {table : Bindings α} (h : s.values? k = some table) : k < s.size := by
  rw [← values?_isSome, h]
  rfl

/-- A definition changes one cell only. -/
theorem cell_define (s : Store α) (i : Nat) (name : String) (value : α) (k : Nat) (x : String) :
    (s.define i name value).cell k x = if i = k ∧ name = x ∧ k < s.size then some value else s.cell k x := by
  have hsize := s.values?_isSome k
  unfold cell
  rw [values?_define]
  cases hv : s.values? k with
  | none =>
    have hk : ¬ k < s.size := by simpa [hv] using hsize
    simp [hk]
  | some t =>
    have hk : k < s.size := by simpa [hv] using hsize
    by_cases hi : i = k
    · by_cases hx : name = x <;> simp [hi, hx, hk]
    · simp [hi]

theorem cell_lt {s : Store α} {k : Nat} {x : String} {v : α} (h : s.cell k x = some v) : k < s.size := by
  rw [← values?_isSome]
  unfold cell at h
  cases hv : s.values? k with
  | none => simp [hv] at h
  | some t => rfl

theorem outer?_lt {s : Store α} {k parent : Nat} (h : s.outer? k = some parent) : k < s.size := by
  unfold outer? at h
  cases hk : s.environments[k]? with
  | none => simp [hk] at h
  | some e => exact (Array.getElem?_eq_some_iff.mp hk).1

end Store

/-! ## Environments -/

namespace Machine

/-- An environment for the names of the program: it holds neither a receiver nor a superclass. -/
def IsOpen (m : Machine) (k : Nat) : Prop :=
  ∃ table, m.store.values? k = some table ∧ table.get? thisName = none ∧ table.get? superName = none

/-- An environment with one name in it. -/
def HasOnly (m : Machine) (k : Nat) (x : String) (v : Value) : Prop := m.store.values? k = some (.single x v)

end Machine

variable {m m' m'' : Machine} {k : Nat} {x : String} {v : Value}

theorem Machine.IsOpen.lt (h : m.IsOpen k) : k < m.store.size := by
  obtain ⟨table, ht, -⟩ := h
  exact Store.values?_lt ht

theorem Machine.HasOnly.lt (h : m.HasOnly k x v) : k < m.store.size := Store.values?_lt h

theorem Machine.HasOnly.cell (h : m.HasOnly k x v) (y : String) :
    m.store.cell k y = if x = y then some v else none := by
  unfold Store.cell
  rw [show m.store.values? k = some (.single x v) from h]
  rfl

theorem Machine.HasOnly.not_open (h : m.HasOnly k x v) (hx : IsReserved x) : ¬ m.IsOpen k := by
  intro ⟨table, ht, hthis, hsuper⟩
  cases Option.some.inj (ht.symm.trans h)
  rcases hx with rfl | rfl
  · simp at hthis
  · simp at hsuper

/-- One environment holds one thing. -/
theorem Machine.HasOnly.same {y : String} {u : Value} (h : m.HasOnly k x v) (h' : m.HasOnly k y u) : x = y ∧ v = u := by
  have heq : Bindings.single x v = Bindings.single y u := Option.some.inj (Eq.trans (Eq.symm h) h')
  have hentries : [(x, v)] = [(y, u)] := congrArg Bindings.entries heq
  simpa using hentries

/-! ## Growth -/

/-- Every object that a value stands for is there. -/
def Machine.Valid (m : Machine) : Value → Prop
  | .function id => id < m.closures.size
  | .class_ k => k < m.classes.size
  | .instance_ id => id < m.instances.size
  | _ => True

/-- What is there stays, and what holds a receiver or a superclass stays as it is. -/
structure Grows (m m' : Machine) : Prop where
  size : m.store.size ≤ m'.store.size
  links : ∀ k, k < m.store.size → m'.store.outer? k = m.store.outer? k
  bound : ∀ k x, (m.store.cell k x).isSome → (m'.store.cell k x).isSome
  /-- Receivers and superclasses are never assigned. -/
  fixed : ∀ k x v, IsReserved x → m.store.cell k x = some v → m'.store.cell k x = some v
  /-- No receiver and no superclass comes into an environment that has none. -/
  opens : ∀ k, m.IsOpen k → m'.IsOpen k
  /-- Nothing comes into the environment of a receiver or a superclass. -/
  only : ∀ k x v, IsReserved x → m.HasOnly k x v → m'.HasOnly k x v
  closures : ∀ (i : Nat) c, m.closures[i]? = some c → m'.closures[i]? = some c
  classes : ∀ (i : Nat) c, m.classes[i]? = some c → m'.classes[i]? = some c
  instances : m.instances.size ≤ m'.instances.size

/-- A machine that stays as it is has grown by nothing. -/
theorem Grows.refl (m : Machine) : Grows m m where
  size := Nat.le_refl _
  links _ _ := rfl
  bound _ _ h := h
  fixed _ _ _ _ h := h
  opens _ h := h
  only _ _ _ _ h := h
  closures _ _ h := h
  classes _ _ h := h
  instances := Nat.le_refl _

/-- What is added first is still there after the second addition. -/
theorem Grows.trans (h : Grows m m') (h' : Grows m' m'') : Grows m m'' where
  size := Nat.le_trans h.size h'.size
  links k hk := by rw [h'.links k (Nat.lt_of_lt_of_le hk h.size), h.links k hk]
  bound k x hx := h'.bound k x (h.bound k x hx)
  fixed k x v hx hv := h'.fixed k x v hx (h.fixed k x v hx hv)
  opens k hk := h'.opens k (h.opens k hk)
  only k x v hx hk := h'.only k x v hx (h.only k x v hx hk)
  closures i c hc := h'.closures i c (h.closures i c hc)
  classes i c hc := h'.classes i c (h.classes i c hc)
  instances := Nat.le_trans h.instances h'.instances

theorem size_le_of_kept {α : Type} {a b : Array α} (h : ∀ (i : Nat) c, a[i]? = some c → b[i]? = some c) :
    a.size ≤ b.size := by
  rcases Nat.eq_zero_or_pos a.size with h0 | hpos
  · omega
  · have hlast := h (a.size - 1) a[a.size - 1] (Array.getElem?_eq_getElem (by omega))
    have := (Array.getElem?_eq_some_iff.mp hlast).1
    omega

theorem Machine.Valid.grows {v : Value} (h : m.Valid v) (g : Grows m m') : m'.Valid v := by
  cases v with
  | function id => exact Nat.lt_of_lt_of_le h (size_le_of_kept g.closures)
  | class_ k => exact Nat.lt_of_lt_of_le h (size_le_of_kept g.classes)
  | instance_ id => exact Nat.lt_of_lt_of_le h g.instances
  | _ => trivial

/-- Output, clock, distances and the current environment are no part of the heap. -/
theorem grows_same (hs : m'.store = m.store) (hf : m'.closures = m.closures) (hc : m'.classes = m.classes)
    (hi : m'.instances.size = m.instances.size) : Grows m m' where
  size := Nat.le_of_eq (by rw [hs])
  links _ _ := by rw [hs]
  bound _ _ h := by rwa [hs]
  fixed _ _ _ _ h := by rwa [hs]
  opens _ h := by unfold Machine.IsOpen; rwa [hs]
  only _ _ _ _ h := by unfold Machine.HasOnly; rwa [hs]
  closures _ _ h := by rwa [hf]
  classes _ _ h := by rwa [hc]
  instances := Nat.le_of_eq hi.symm

/-! ## What the effects add -/

/-- In an environment that is open a name other than `this` and `super` may be defined. -/
theorem grows_define {name : String} (hname : name ≠ thisName ∧ name ≠ superName) (ho : m.IsOpen k) :
    Grows m { m with store := m.store.define k name v } :=
  { Grows.refl m with
    size := by simp
    links := fun _ _ => by simp
    bound := fun j x hx => by
      show ((m.store.define k name v).cell j x).isSome
      rw [Store.cell_define]
      split
      · rfl
      · exact hx
    fixed := fun j x u hx hu => by
      show (m.store.define k name v).cell j x = some u
      rw [Store.cell_define, if_neg, hu]
      intro ⟨_, he, _⟩
      subst he
      exact hx.elim hname.1 hname.2
    opens := fun j hj => by
      obtain ⟨table, ht, hthis, hsuper⟩ := hj
      refine ⟨if k = j then table.set name v else table, ?_, ?_⟩
      · show (m.store.define k name v).values? j = _
        rw [Store.values?_define, ht]
        rfl
      · split
        · simp [hname.1, hname.2, hthis, hsuper]
        · exact ⟨hthis, hsuper⟩
    only := fun j x u hx hj => by
      show (m.store.define k name v).values? j = _
      have hne : k ≠ j := fun he => hj.not_open hx (he ▸ ho)
      rw [Store.values?_define, show m.store.values? j = _ from hj, Option.map_some, if_neg hne] }

/-- A new environment is added behind all others. -/
theorem grows_push (values : Bindings Value) (enclosing : Nat) :
    Grows m { m with store := m.store.push values (some enclosing) } :=
  { Grows.refl m with
    size := by simp
    links := fun k hk => by
      show (m.store.push values (some enclosing)).outer? k = _
      rw [Store.outer?_push, if_neg (Nat.ne_of_lt hk)]
    bound := fun k x hx => by
      show ((m.store.push values (some enclosing)).cell k x).isSome
      obtain ⟨v, hv⟩ := Option.isSome_iff_exists.mp hx
      rw [Store.cell_push, if_neg (Nat.ne_of_lt (Store.cell_lt hv)), hv]
      rfl
    fixed := fun k x v _ hv => by
      show (m.store.push values (some enclosing)).cell k x = _
      rw [Store.cell_push, if_neg (Nat.ne_of_lt (Store.cell_lt hv)), hv]
    opens := fun k hk => by
      obtain ⟨table, ht, hnone⟩ := hk
      refine ⟨table, ?_, hnone⟩
      show (m.store.push values (some enclosing)).values? k = _
      rw [Store.values?_push, if_neg (Nat.ne_of_lt (Store.values?_lt ht)), ht]
    only := fun k x v _ hk => by
      show (m.store.push values (some enclosing)).values? k = _
      rw [Store.values?_push, if_neg (Nat.ne_of_lt hk.lt)]
      exact hk }

theorem kept_push {α : Type} (a : Array α) (last : α) (i : Nat) (c : α) (h : a[i]? = some c) :
    (a.push last)[i]? = some c := by
  rw [Array.getElem?_push, if_neg (Nat.ne_of_lt (Array.getElem?_eq_some_iff.mp h).1), h]

theorem grows_newFunction (c : Closure) : Grows m { m with closures := m.closures.push c } :=
  { Grows.refl m with closures := kept_push m.closures c }

theorem grows_newClass (c : Class) : Grows m { m with classes := m.classes.push c } :=
  { Grows.refl m with classes := kept_push m.classes c }

theorem grows_setField (id : Nat) (name : String) (v : Value) :
    Grows m { m with instances := m.instances.modify id fun i => { i with fields := i.fields.set name v } } :=
  grows_same rfl rfl rfl (by simp)

theorem grows_inEnv (m : Machine) (k : Nat) : Grows m { m with current := k } := grows_same rfl rfl rfl rfl

end Lox
