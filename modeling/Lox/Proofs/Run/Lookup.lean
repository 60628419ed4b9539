/-
  Lox.Proofs.Run.Lookup — where a running program stands in its text (`At`), and what the
  table of distances finds from there: the environment that a reference leads to is the
  activation of the scope that its name selects (`Finds`), and a name that is read is
  bound there (`IsBound`).
-/

import Lox.Proofs.Run.Heap

namespace Lox

variable {w : World} {m : Machine} {p : List Stmt} {site : Site} {r : Resolver} {os : List Opened}

/-- The references of a part are references of the program. -/
theorem within_slots (h : Within p site r os) : ∀ x ∈ site.slots, x ∈ Stmt.slotsAll p := by
  induction h with
  | root => exact fun _ h => h
  | next _ ih | nextMethod _ ih | right _ ih | logicalRight _ ih | arguments _ ih | nextArguments _ ih
    | setValue _ ih =>
    exact fun x hx => ih x (List.mem_append_right _ hx)
  | first _ ih | condTest _ ih | loopTest _ ih | method _ ih | left _ ih | logicalLeft _ ih | ternaryTest _ ih
  | value _ ih | callee _ ih | argument _ ih | setObject _ ih | parent _ ih =>
    exact fun x hx => ih x (List.mem_append_left _ hx)
  | condYes _ ih | loopBody _ ih | ternaryYes _ ih =>
    exact fun x hx => ih x (List.mem_append_right _ (List.mem_append_left _ hx))
  | condNo _ ih | loopStep _ ih | ternaryNo _ ih =>
    exact fun x hx => ih x (List.mem_append_right _ (List.mem_append_right _ hx))
  | methods _ ih => exact fun x hx => ih x (List.mem_append_right _ hx)
  | @body _ f _ _ _ ih => cases f; exact ih
  | effect _ ih | printed _ ih | init _ ih | block _ ih | fun_ _ ih | returned _ ih | group _ ih | operand _ ih
    | object _ ih =>
    exact ih

/-- A program that runs is at a part of a text that has been executed, in environments
that are activations of the scopes around the part. -/
def At (w : World) (m : Machine) (site : Site) : Prop :=
  ∃ p r os, w.known p ∧ Within p site r os ∧ Chain w m m.current os

/-- The machine has the distances of all programs that have been executed. -/
def Tabled (w : World) (m : Machine) : Prop :=
  ∀ p, w.known p → ∀ x ∈ Stmt.slotsAll p, m.distances[x]? = (resolve p).distances[x]?

/-- A reference with a distance leads to the activation of the scope that its name
selects; one without a distance selects none. -/
def Finds (w : World) (m : Machine) (os : List Opened) (target : Reference) (x : String) : Prop :=
  match m.distances[target.slot]? with
  | some d => ∃ i o e, d = Int.ofNat i ∧ Selects os x i ∧ os[i]? = some o ∧
      m.store.ancestor? (Distances.hops d) m.current = some e ∧ w.opened e o.frame
  | none => IsGlobal os x

/-- A name that is read at a distance is bound where the distance leads to. -/
def IsBound (m : Machine) (target : Reference) (x : String) : Prop :=
  ∀ d, m.distances[target.slot]? = some d → ∃ v, m.store.readAt m.current d x = .ok v

theorem Tabled.entry {target : Reference} (ht : Tabled w m) (hp : w.known p) (h : Within p site r os)
    (hs : target.slot ∈ site.slots) : m.distances[target.slot]? = (resolve p).distances[target.slot]? :=
  ht p hp _ (within_slots h _ hs)

theorem finds_of_entry {target : Reference} {x : String} (hc : Chain w m m.current os)
    (he : IsEntry m.distances[target.slot]? os x) : Finds w m os target x := by
  unfold Finds
  unfold IsEntry at he
  cases hd : m.distances[target.slot]? with
  | none => rwa [hd] at he
  | some d =>
    rw [hd] at he
    obtain ⟨i, rfl, hi⟩ := he
    obtain ⟨o, ho, -⟩ := hi.1
    obtain ⟨e, hanc, hopened, -⟩ := hc.ancestor ho
    exact ⟨i, o, e, rfl, hi, ho, hanc, hopened⟩

theorem readAt_of_holds {e i : Nat} {x : String} {v : Value} (he : m.store.ancestor? i m.current = some e)
    (hv : m.store.cell e x = some v) : m.store.readAt m.current (i : Int) x = .ok v := by
  have hvalue : m.store.valueIn e x = .ok v := by
    unfold Store.cell at hv
    rw [Store.valueIn, hv]
  have hanc : m.store.ancestor m.current (i : Int) = .ok e := by
    rw [Store.ancestor, show Distances.hops (i : Int) = i from rfl, he]
  rw [Store.readAt, hanc]
  exact hvalue

theorem isBound_of_entry {target : Reference} {x : String} (hc : Chain w m m.current os)
    (he : IsEntry m.distances[target.slot]? os x)
    (hb : ∀ i, Selects os x i → ∃ o, os[i]? = some o ∧ (x, true) ∈ o.names) :
    IsBound m target x := by
  intro d hd
  rw [hd] at he
  obtain ⟨i, rfl, hi⟩ := he
  obtain ⟨o, ho, hx⟩ := hb i hi
  obtain ⟨e, hanc, -, hholds⟩ := hc.ancestor ho
  obtain ⟨v, hv⟩ := Option.isSome_iff_exists.mp (hholds.names x hx)
  exact ⟨v, readAt_of_holds hanc hv⟩

/-! ## Uses of names -/

variable {target keyword : Reference} {method : Lexeme}

theorem finds_of_assign {e : Expr} (ht : Tabled w m) (hp : w.known p) (h : Within p (.expr (.assign target e)) r os)
    (hc : Chain w m m.current os) : Finds w m os target target.name.text := by
  have he := table_of_assign (w.accepted p hp) h
  rw [← ht.entry hp h (List.mem_append_right _ (List.mem_singleton_self _))] at he
  exact finds_of_entry hc he

theorem finds_of_ref (ht : Tabled w m) (hp : w.known p) (h : Within p (.expr (.ref target)) r os)
    (hc : Chain w m m.current os) : Finds w m os target target.name.text ∧ IsBound m target target.name.text := by
  obtain ⟨he, hb⟩ := table_of_ref (w.accepted p hp) h
  rw [← ht.entry hp h (List.mem_singleton_self _)] at he
  exact ⟨finds_of_entry hc he, isBound_of_entry hc he hb⟩

theorem finds_of_parent {name : Lexeme} (ht : Tabled w m) (hp : w.known p) (h : Within p (.parent name target) r os)
    (hc : Chain w m m.current os) : Finds w m os target target.name.text ∧ IsBound m target target.name.text := by
  obtain ⟨he, hb⟩ := table_of_parent (w.accepted p hp) h
  rw [← ht.entry hp h (List.mem_singleton_self _)] at he
  exact ⟨finds_of_entry hc he, isBound_of_entry hc he hb⟩

theorem Chain.receiver {d : Nat} (hc : Chain w m m.current os) (hr : IsReceiver os d) :
    ∃ id, m.store.readAt m.current (d : Int) thisName = .ok (.instance_ id) := by
  obtain ⟨superclass, methods, ho⟩ := hr
  obtain ⟨e, hanc, -, hholds⟩ := hc.ancestor ho
  obtain ⟨id, hid⟩ := hholds.receiver superclass methods rfl
  exact ⟨id, readAt_of_holds hanc hid⟩

theorem Chain.superclass {d : Nat} (hc : Chain w m m.current os) (hr : IsSuperclass os d) :
    ∃ k, m.store.readAt m.current (d : Int) superName = .ok (.class_ k) := by
  obtain ⟨target, methods, ho⟩ := hr
  obtain ⟨e, hanc, -, hholds⟩ := hc.ancestor ho
  obtain ⟨k, hk⟩ := hholds.superclass target methods rfl
  exact ⟨k, readAt_of_holds hanc hk⟩

/-- The receiver is where the table says. -/
theorem finds_of_this (ht : Tabled w m) (hp : w.known p) (h : Within p (.expr (.this keyword)) r os)
    (hc : Chain w m m.current os) : Finds w m os keyword thisName ∧
      ∃ d id, m.distances[keyword.slot]? = some d ∧ m.store.readAt m.current d thisName = .ok (.instance_ id) := by
  obtain ⟨d, hd, hs, hr⟩ := table_of_this (w.accepted p hp) h
  rw [← ht.entry hp h (List.mem_singleton_self _)] at hd
  obtain ⟨id, hid⟩ := hc.receiver hr
  exact ⟨finds_of_entry hc (by rw [hd]; exact ⟨d, rfl, hs⟩), d, id, hd, hid⟩

/-- The superclass is where the table says, and the receiver one environment further in. -/
theorem finds_of_super (ht : Tabled w m) (hp : w.known p) (h : Within p (.expr (.super keyword method)) r os)
    (hc : Chain w m m.current os) : Finds w m os keyword superName ∧
      ∃ d k id, m.distances[keyword.slot]? = some d ∧ m.store.readAt m.current d superName = .ok (.class_ k) ∧
        m.store.readAt m.current (d - 1) thisName = .ok (.instance_ id) := by
  obtain ⟨d, hd, hs, hr, hsuper⟩ := table_of_super (w.accepted p hp) h
  rw [← ht.entry hp h (List.mem_singleton_self _)] at hd
  obtain ⟨id, hid⟩ := hc.receiver hr
  obtain ⟨k, hk⟩ := hc.superclass hsuper
  have hinner : ((d + 1 : Nat) : Int) - 1 = d := by omega
  exact ⟨finds_of_entry hc (by rw [hd]; exact ⟨d + 1, rfl, hs⟩), _, k, id, hd, hk, hinner ▸ hid⟩

end Lox
