/-
  Lox.Proofs.Run.Heap — what holds of every machine that runs a program: the environments
  around a closure are activations of the scopes around the text of its routine.

  `Chain w m k os`: from the environment `k` outward there is one environment for each of
  the open scopes `os`, each an activation of what opened the scope, with every name in it
  whose declaration is complete, and behind the last one are the globals. `Inv` asks this
  of every function and method on the heap. A running program only adds to a machine
  (`Grows`): no link and no receiver or superclass is ever changed, and a name that is
  bound stays bound. So a chain stays one (`Chain.grows`).
-/

import Lox.Proofs.Run.Sealed
import Lox.Proofs.Scope.Table
import Lox.Session

namespace Lox

variable {m m' m'' : Machine}

/-! ## Chains of environments -/

/-- What is known of a session: which environments have been made for what, and which
programs have been executed. -/
structure World where
  opened : Nat → Frame → Prop
  known : List Stmt → Prop
  accepted : ∀ p, known p → Accepted p

variable {w : World} {k : Nat} {o : Opened} {os : List Opened}

/-- An environment holds what its scope says. -/
structure Holds (m : Machine) (k : Nat) (o : Opened) : Prop where
  names : ∀ x, (x, true) ∈ o.names → (m.store.cell k x).isSome
  receiver : ∀ superclass methods, o.frame = .receiver superclass methods →
    ∃ id, m.store.cell k thisName = some (.instance_ id)
  superclass : ∀ target methods, o.frame = .superclass target methods →
    ∃ c, m.store.cell k superName = some (.class_ c)

/-- The environments from `k` outward are activations of the scopes, out to the globals. -/
def Chain (w : World) (m : Machine) : Nat → List Opened → Prop
  | k, [] => k = globalEnv
  | k, o :: os => w.opened k o.frame ∧ Holds m k o ∧ ∃ parent, m.store.outer? k = some parent ∧ Chain w m parent os

theorem Holds.grows (h : Holds m k o) (g : Grows m m') : Holds m' k o where
  names x hx := g.bound k x (h.names x hx)
  receiver superclass methods hf := by
    obtain ⟨id, hid⟩ := h.receiver superclass methods hf
    exact ⟨id, g.fixed k _ _ (Or.inl rfl) hid⟩
  superclass target methods hf := by
    obtain ⟨c, hc⟩ := h.superclass target methods hf
    exact ⟨c, g.fixed k _ _ (Or.inr rfl) hc⟩

theorem Chain.grows (h : Chain w m k os) (g : Grows m m') : Chain w m' k os := by
  induction os generalizing k with
  | nil => exact h
  | cons o os ih =>
    obtain ⟨hopened, hholds, parent, hlink, hchain⟩ := h
    refine ⟨hopened, hholds.grows g, parent, ?_, ih hchain⟩
    rw [g.links k (Store.outer?_lt hlink), hlink]

/-- The environment of the scope so many scopes out. -/
theorem Chain.ancestor {d : Nat} (h : Chain w m k os) (hd : os[d]? = some o) :
    ∃ e, m.store.ancestor? d k = some e ∧ w.opened e o.frame ∧ Holds m e o := by
  induction d generalizing k os with
  | zero =>
    cases os with
    | nil => cases hd
    | cons first os =>
      cases hd
      exact ⟨k, rfl, h.1, h.2.1⟩
  | succ d ih =>
    cases os with
    | nil => cases hd
    | cons first os =>
      obtain ⟨-, -, parent, hlink, hchain⟩ := h
      obtain ⟨e, he, hrest⟩ := ih hchain hd
      exact ⟨e, by simp only [Store.ancestor?, hlink, Option.bind_some, he], hrest⟩

/-- Whoever goes outward as far as there are scopes comes to an environment of the store. -/
theorem Chain.ancestor_lt {d e : Nat} (h : Chain w m k os) (hd : os[d]? = some o)
    (he : m.store.ancestor? d k = some e) :
    e < m.store.size := by
  induction d generalizing k os with
  | zero =>
    cases os with
    | nil => cases hd
    | cons first os =>
      cases he
      obtain ⟨-, -, parent, hlink, -⟩ := h
      exact Store.outer?_lt hlink
  | succ d ih =>
    cases os with
    | nil => cases hd
    | cons first os =>
      obtain ⟨-, -, parent, hlink, hchain⟩ := h
      simp only [Store.ancestor?, hlink, Option.bind_some] at he
      exact ih hchain hd he

/-- Names that are bound by now are declared. -/
theorem Chain.declare {xs : List String} (h : Chain w m k os) (hx : ∀ x ∈ xs, (m.store.cell k x).isSome) :
    Chain w m k (Opened.declare xs os) := by
  cases os with
  | nil => exact h
  | cons o os =>
    obtain ⟨hopened, hholds, hrest⟩ := h
    refine ⟨hopened, ⟨fun x hm => ?_, hholds.receiver, hholds.superclass⟩, hrest⟩
    rcases List.mem_append.mp hm with hm | hm
    · exact hholds.names x hm
    · obtain ⟨y, hy, he⟩ := List.mem_map.mp hm
      exact (Prod.mk.inj he).1 ▸ hx y hy

/-- A declaration that has only begun asks nothing of the environment. -/
theorem Chain.begin_ {x : String} (h : Chain w m k os) : Chain w m k (Opened.begin_ x os) := by
  cases os with
  | nil => exact h
  | cons o os =>
    obtain ⟨hopened, hholds, hrest⟩ := h
    refine ⟨hopened, ⟨fun y hm => hholds.names y ?_, hholds.receiver, hholds.superclass⟩, hrest⟩
    rcases List.mem_append.mp hm with hm | hm
    · exact hm
    · cases List.mem_singleton.mp hm

/-! ## The heap -/

/-- A method of a class. It is declared where the scope of `this` is not yet open. -/
def IsMethod (w : World) (m : Machine) (c : Closure) : Prop :=
  ∃ p superclass methods r os, w.known p ∧ c.routine ∈ methods ∧
    Within p (.routine (methodContext c.routine) c.routine) r
      (⟨.receiver superclass methods, [(thisName, true)]⟩ :: os) ∧
    Chain w m c.env os

/-- A function, or a method that is bound to an instance. -/
def IsFunction (w : World) (m : Machine) (c : Closure) : Prop :=
  ∃ p context r os, w.known p ∧ Within p (.routine context c.routine) r os ∧ Chain w m c.env os ∧
    (c.isInit = true → ∃ superclass methods names rest, os = ⟨.receiver superclass methods, names⟩ :: rest)

theorem IsMethod.grows {c : Closure} (h : IsMethod w m c) (g : Grows m m') : IsMethod w m' c := by
  obtain ⟨p, superclass, methods, r, os, hp, hm, hwithin, hchain⟩ := h
  exact ⟨p, superclass, methods, r, os, hp, hm, hwithin, hchain.grows g⟩

theorem IsFunction.grows {c : Closure} (h : IsFunction w m c) (g : Grows m m') : IsFunction w m' c := by
  obtain ⟨p, context, r, os, hp, hwithin, hchain, hinit⟩ := h
  exact ⟨p, context, r, os, hp, hwithin, hchain.grows g, hinit⟩

/-- What the machine holds has come from programs of the world. -/
structure Inv (w : World) (m : Machine) : Prop where
  globals : 0 < m.store.size ∧ m.store.outer? globalEnv = none
  cells : ∀ k x v, m.store.cell k x = some v → m.Valid v
  functions : ∀ (i : Nat) c, m.closures[i]? = some c → IsFunction w m c
  methods : ∀ (i : Nat) c x method, m.classes[i]? = some c → c.methods.get? x = some method → IsMethod w m method
  fields : ∀ (i : Nat) c x v, m.instances[i]? = some c → c.fields.get? x = some v → m.Valid v
  sealed : Sealed m

/-- What is new on a machine that has grown is all that has to be looked at. -/
theorem Inv.grow (h : Inv w m) (g : Grows m m') (hsealed : Sealed m')
    (hcells : ∀ k x v, m'.store.cell k x = some v → m.store.cell k x = some v ∨ m'.Valid v)
    (hfunctions : ∀ (i : Nat) c, m'.closures[i]? = some c → m.closures[i]? = some c ∨ IsFunction w m' c)
    (hmethods : ∀ (i : Nat) c x method, m'.classes[i]? = some c → c.methods.get? x = some method →
      m.classes[i]? = some c ∨ IsMethod w m' method)
    (hfields : ∀ (i : Nat) c x v, m'.instances[i]? = some c → c.fields.get? x = some v →
      (∃ old, m.instances[i]? = some old ∧ old.fields.get? x = some v) ∨ m'.Valid v) : Inv w m' where
  globals := ⟨Nat.lt_of_lt_of_le h.globals.1 g.size, by rw [g.links globalEnv h.globals.1, h.globals.2]⟩
  cells k x v hv := (hcells k x v hv).elim (fun hold => (h.cells k x v hold).grows g) id
  functions i c hc := (hfunctions i c hc).elim (fun hold => (h.functions i c hold).grows g) id
  methods i c x method hc hx :=
    (hmethods i c x method hc hx).elim (fun hold => (h.methods i c x method hold hx).grows g) id
  fields i c x v hc hx := (hfields i c x v hc hx).elim (fun ⟨old, hold, hx⟩ => (h.fields i old x v hold hx).grows g) id
  sealed := hsealed

/-- What a part of a run leaves behind, however it ends. -/
structure Stays (w : World) (m m' : Machine) : Prop where
  inv : Inv w m'
  grows : Grows m m'
  current : m'.current = m.current
  distances : m'.distances = m.distances

theorem Stays.refl (h : Inv w m) : Stays w m m := ⟨h, .refl m, rfl, rfl⟩

theorem Stays.trans (h : Stays w m m') (h' : Stays w m' m'') : Stays w m m'' :=
  ⟨h'.inv, h.grows.trans h'.grows, h'.current.trans h.current, h'.distances.trans h.distances⟩

/-! ## What the effects do to the heap -/

theorem stays_define {name : String} {v : Value} (h : Inv w m) (hname : name ≠ thisName ∧ name ≠ superName)
    (hv : m.Valid v) (ho : m.IsOpen k) : Stays w m { m with store := m.store.define k name v } := by
  refine ⟨h.grow (grows_define hname ho) (sealed_define h.sealed hname ho) (fun j x u hu => ?_)
    (fun _ _ hc => Or.inl hc)
    (fun _ _ _ _ hc _ => Or.inl hc) (fun _ c _ _ hc hx => Or.inl ⟨c, hc, hx⟩), grows_define hname ho, rfl, rfl⟩
  rw [Store.cell_define] at hu
  split at hu
  · cases hu
    exact Or.inr hv
  · exact Or.inl hu

theorem stays_push {values : Bindings Value} {enclosing : Nat} (h : Inv w m)
    (hv : ∀ x v, values.get? x = some v → m.Valid v) (hs : m.Suits values (some enclosing)) :
    Stays w m { m with store := m.store.push values (some enclosing) } := by
  refine ⟨h.grow (grows_push values enclosing) (sealed_push h.sealed hs) (fun k x v hk => ?_) (fun _ _ hc => Or.inl hc)
    (fun _ _ _ _ hc _ => Or.inl hc) (fun _ c _ _ hc hx => Or.inl ⟨c, hc, hx⟩), grows_push values enclosing, rfl, rfl⟩
  rw [Store.cell_push] at hk
  split at hk
  · exact Or.inr (hv x v hk)
  · exact Or.inl hk

/-- A new environment around which there is a chain. -/
theorem Chain.push {values : Bindings Value} (h : Chain w m k os) (ho : w.opened m.store.size o.frame)
    (hn : ∀ x, (x, true) ∈ o.names → (values.get? x).isSome)
    (hr : ∀ superclass methods, o.frame = .receiver superclass methods → ∃ id, values.get? thisName
    = some (.instance_ id))
    (hs : ∀ target methods, o.frame = .superclass target methods → ∃ c, values.get? superName = some (.class_ c)) :
    Chain w { m with store := m.store.push values (some k) } m.store.size (o :: os) := by
  have hcell : ∀ x, (m.store.push values (some k)).cell m.store.size x = values.get? x := by
    intro x
    rw [Store.cell_push, if_pos rfl]
  refine ⟨ho, ⟨fun x hx => ?_, fun superclass methods hf => ?_, fun target methods hf => ?_⟩, k, ?_,
    h.grows (grows_push values k)⟩
  · exact (hcell x).symm ▸ hn x hx
  · exact (hcell thisName).symm ▸ hr superclass methods hf
  · exact (hcell superName).symm ▸ hs target methods hf
  · show (m.store.push values (some k)).outer? m.store.size = some k
    rw [Store.outer?_push, if_pos rfl]

theorem stays_newFunction {c : Closure} (h : Inv w m) (hc : IsFunction w m c) (hs : m.IsOpen c.env ∨ m.IsFresh c.env) :
    Stays w m { m with closures := m.closures.push c } := by
  refine ⟨h.grow (grows_newFunction c) (sealed_newFunction h.sealed hs) (fun _ _ _ hv => Or.inl hv) (fun i c' hi => ?_)
    (fun _ _ _ _ hc _ => Or.inl hc) (fun _ c _ _ hc hx => Or.inl ⟨c, hc, hx⟩), grows_newFunction c, rfl, rfl⟩
  rcases getElem?_push_cases hi with hold | ⟨-, rfl⟩
  · exact Or.inl hold
  · exact Or.inr (hc.grows (grows_newFunction _))

/-- A class whose methods close over its own environment may be added. -/
theorem stays_newClass {c : Class} {env : Nat} (h : Inv w m)
    (hc : ∀ x method, c.methods.get? x = some method → IsMethod w m method ∧ method.env = env)
    (hd : m.DeclaresIn env c.superclass) (hfree : m.IsOpen env ∨ ¬ m.HasMethodIn env) :
    Stays w m { m with classes := m.classes.push c } := by
  have hsealed := sealed_newClass h.sealed hd (fun x f hf => (hc x f hf).2) hfree
  refine ⟨h.grow (grows_newClass c) hsealed (fun _ _ _ hv => Or.inl hv) (fun _ _ hc => Or.inl hc)
    (fun i c' x method hi hx => ?_) (fun _ c _ _ hc hx => Or.inl ⟨c, hc, hx⟩), grows_newClass c, rfl, rfl⟩
  rcases getElem?_push_cases hi with hold | ⟨-, rfl⟩
  · exact Or.inl hold
  · exact Or.inr ((hc x method hx).1.grows (grows_newClass _))

/-- An instance without fields may be added. -/
theorem stays_newInstance (h : Inv w m) (k : Nat) : Stays w m { m with instances := m.instances.push ⟨k, ∅⟩ } := by
  have g : Grows m { m with instances := m.instances.push ⟨k, ∅⟩ } := { Grows.refl m with instances := by simp }
  refine ⟨h.grow g (sealed_same h.sealed rfl rfl rfl g) (fun _ _ _ hv => Or.inl hv)
    (fun _ _ hc => Or.inl hc) (fun _ _ _ _ hc _ => Or.inl hc)
    (fun i c x v hi hx => ?_), g, rfl, rfl⟩
  rw [Array.getElem?_push] at hi
  split at hi
  · cases hi
    cases hx
  · exact Or.inl ⟨c, hi, hx⟩

/-- A field may be set to any value of the machine. -/
theorem stays_setField {name : String} {v : Value} (h : Inv w m) (hv : m.Valid v) (id : Nat) :
    Stays w m { m with instances := m.instances.modify id fun i => { i with fields := i.fields.set name v } } := by
  have g := grows_setField (m := m) id name v
  refine ⟨h.grow g (sealed_same h.sealed rfl rfl rfl g) (fun _ _ _ hv => Or.inl hv)
    (fun _ _ hc => Or.inl hc) (fun _ _ _ _ hc _ => Or.inl hc)
    (fun i c x u hi hx => ?_), g, rfl, rfl⟩
  rw [Array.getElem?_modify] at hi
  split at hi
  · obtain ⟨old, hold, rfl⟩ := Option.map_eq_some_iff.mp hi
    simp only [Bindings.get?_set] at hx
    split at hx
    · cases hx
      exact Or.inr (hv.grows g)
    · exact Or.inl ⟨old, hold, hx⟩
  · exact Or.inl ⟨c, hi, hx⟩

/-- Output, clock, distances and the current environment are no part of the heap. -/
theorem Inv.same (h : Inv w m) (hs : m'.store = m.store) (hf : m'.closures = m.closures) (hc : m'.classes = m.classes)
    (hi : m'.instances = m.instances) : Inv w m' ∧ Grows m m' := by
  have g : Grows m m' := grows_same hs hf hc (by rw [hi])
  exact ⟨h.grow g (sealed_same h.sealed hs hf hc g) (fun _ _ _ hv => Or.inl (hs ▸ hv))
    (fun _ _ h => Or.inl (hf ▸ h)) (fun _ _ _ _ h _ => Or.inl (hc ▸ h))
    (fun _ c _ _ h hx => Or.inl ⟨c, hi ▸ h, hx⟩), g⟩

end Lox
