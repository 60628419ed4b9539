/-
  Lox.Proofs.Run.Sealed — who may use the environments of receivers and superclasses.

  An environment of `super` holds the superclass of one class, whose methods are all
  declared in it; an environment of `this` holds the receiver of one bound method and lies
  in the environment that the method was declared in (`Sealed`). The effects of a program
  keep this, since each of them adds at most one object: `Sealed.grow` asks for what is
  new alone.
-/

import Lox.Proofs.Run.Growth

namespace Lox

namespace Machine

/-- Some class has a method that is declared in the environment. -/
def HasMethodIn (m : Machine) (env : Nat) : Prop :=
  ∃ (k : Nat) (c : Class) (x : String) (f : Closure), m.classes[k]? = some c ∧ c.methods.get? x = some f ∧ f.env = env

/-- What an environment may be made of. -/
inductive Suits (m : Machine) (table : Bindings Value) (enclosing : Option Nat) : Prop
  | own : table.get? thisName = none → table.get? superName = none → Suits m table enclosing
  | superclass {k : Nat} : table = .single superName (.class_ k) → Suits m table enclosing
  /-- A receiver is held inside of the environment of a method. -/
  | receiver {id env : Nat} : table = .single thisName (.instance_ id) → enclosing = some env → m.HasMethodIn env →
      Suits m table enclosing

/-- The environment that the methods of a class with this superclass are declared in. -/
def DeclaresIn (m : Machine) (env : Nat) : Option Nat → Prop
  | none => m.IsOpen env
  | some parent => m.HasOnly env superName (.class_ parent)

/-- The environment of a receiver for a method that is yet to become a function. -/
structure IsFresh (m : Machine) (env : Nat) : Prop where
  receiver : ∃ id, m.HasOnly env thisName (.instance_ id)
  free : ∀ (i : Nat) c, m.closures[i]? = some c → c.env ≠ env

end Machine

/-- Receivers and superclasses have environments of their own, which names of the program are
never declared in. -/
structure Sealed (m : Machine) : Prop where
  globals : m.IsOpen globalEnv
  kinds : ∀ k table, m.store.values? k = some table → m.Suits table (m.store.outer? k)
  /-- A function is declared among names of the program, or it is a method with a receiver. -/
  functions : ∀ (i : Nat) c, m.closures[i]? = some c → m.IsOpen c.env ∨ ∃ id, m.HasOnly c.env thisName (.instance_ id)
  /-- No two bound methods share the environment of their receiver. -/
  alone : ∀ (i j : Nat) c c' v, m.closures[i]? = some c → m.closures[j]? = some c' →
    m.HasOnly c.env thisName v → c'.env = c.env → i = j
  /-- All methods of a class are declared in one environment. -/
  classes : ∀ (k : Nat) c, m.classes[k]? = some c →
    ∃ env, m.DeclaresIn env c.superclass ∧ ∀ x f, c.methods.get? x = some f → f.env = env
  /-- No two classes share the environment of their superclass. -/
  apart : ∀ (k k' : Nat) c c' x x' f f' v, m.classes[k]? = some c → m.classes[k']? = some c' →
    c.methods.get? x = some f → c'.methods.get? x' = some f' → m.HasOnly f.env superName v → f'.env = f.env → k = k'

variable {m m' : Machine} {k : Nat} {x : String} {v : Value}

/-! ## What stays -/

theorem Machine.HasMethodIn.grows {env : Nat} (h : m.HasMethodIn env) (g : Grows m m') : m'.HasMethodIn env := by
  obtain ⟨k, c, x, f, hc, hf⟩ := h
  exact ⟨k, c, x, f, g.classes k c hc, hf⟩

theorem Machine.Suits.grows {table : Bindings Value} {enclosing : Option Nat} (h : m.Suits table enclosing)
    (g : Grows m m') : m'.Suits table enclosing := by
  cases h with
  | own hthis hsuper => exact .own hthis hsuper
  | superclass ht => exact .superclass ht
  | receiver ht he hm => exact .receiver ht he (hm.grows g)

theorem Machine.DeclaresIn.grows {env : Nat} {parent : Option Nat} (h : m.DeclaresIn env parent) (g : Grows m m') :
    m'.DeclaresIn env parent := by
  cases parent with
  | none => exact g.opens env h
  | some parent => exact g.only env _ _ (Or.inr rfl) h

theorem Machine.DeclaresIn.lt {env : Nat} {parent : Option Nat} (h : m.DeclaresIn env parent) : env < m.store.size := by
  cases parent with
  | none => exact Machine.IsOpen.lt h
  | some parent => exact Machine.HasOnly.lt h

/-! ## What an environment is -/

theorem Sealed.cases (h : Sealed m) (hk : k < m.store.size) :
    m.IsOpen k ∨ ∃ x v, IsReserved x ∧ m.HasOnly k x v := by
  obtain ⟨table, ht⟩ := Option.isSome_iff_exists.mp ((Store.values?_isSome m.store k).mpr hk)
  cases h.kinds k table ht with
  | own hthis hsuper => exact Or.inl ⟨table, ht, hthis, hsuper⟩
  | superclass htable => exact Or.inr ⟨_, _, Or.inr rfl, htable ▸ ht⟩
  | receiver htable => exact Or.inr ⟨_, _, Or.inl rfl, htable ▸ ht⟩

/-- An environment that holds a name of the program is open. -/
theorem Sealed.open_of_cell (h : Sealed m) (hx : ¬ IsReserved x) (hc : (m.store.cell k x).isSome) : m.IsOpen k := by
  obtain ⟨v, hv⟩ := Option.isSome_iff_exists.mp hc
  rcases h.cases (Store.cell_lt hv) with ho | ⟨y, u, hy, hk⟩
  · exact ho
  · rw [hk.cell x] at hv
    split at hv
    next he => exact absurd (he ▸ hy) hx
    next => cases hv

/-- An environment that holds a receiver or a superclass holds nothing else. -/
theorem Sealed.only_of_cell (h : Sealed m) (hx : IsReserved x) (hv : m.store.cell k x = some v) : m.HasOnly k x v := by
  rcases h.cases (Store.cell_lt hv) with ⟨table, ht, hthis, hsuper⟩ | ⟨y, u, hy, hk⟩
  · have hcell : m.store.cell k x = table.get? x := by
      unfold Store.cell
      rw [ht]
      rfl
    rcases hx with rfl | rfl
    · rw [hcell, hthis] at hv
      cases hv
    · rw [hcell, hsuper] at hv
      cases hv
  · rw [hk.cell x] at hv
    split at hv
    next he =>
      cases hv
      exact he ▸ hk
    next => cases hv

theorem Sealed.open_before (h : Sealed m) (g : Grows m m') (hk : k < m.store.size) (ho : m'.IsOpen k) : m.IsOpen k := by
  rcases h.cases hk with ho' | ⟨y, u, hy, hu⟩
  · exact ho'
  · exact absurd ho ((g.only k y u hy hu).not_open hy)

/-- A receiver or superclass has been in its environment from the beginning. -/
theorem Sealed.before (h : Sealed m) (g : Grows m m') (hx : IsReserved x) (hk : k < m.store.size)
    (hv : m'.HasOnly k x v) :
    m.HasOnly k x v := by
  rcases h.cases hk with ho | ⟨y, u, hy, hu⟩
  · exact absurd (g.opens k ho) (hv.not_open hx)
  · obtain ⟨rfl, rfl⟩ := hv.same (g.only k y u hy hu)
    exact hu

theorem Sealed.receiver_in (h : Sealed m) {id : Nat} (hk : m.HasOnly k thisName (.instance_ id)) :
    ∃ env, m.store.outer? k = some env ∧ m.HasMethodIn env := by
  cases h.kinds k _ hk with
  | own hthis => simp at hthis
  | superclass ht =>
    have hentries := congrArg Bindings.entries ht
    have hname : thisName = superName := by simpa [Bindings.single] using congrArg (·.map (·.1)) hentries
    exact absurd hname (by decide)
  | receiver _ he hm => exact ⟨_, he, hm⟩

theorem Sealed.env_lt (h : Sealed m) {i : Nat} {c : Closure} (hc : m.closures[i]? = some c) : c.env < m.store.size := by
  rcases h.functions i c hc with ho | ⟨id, hid⟩
  · exact ho.lt
  · exact hid.lt

theorem Sealed.method_lt (h : Sealed m) {env : Nat} (hm : m.HasMethodIn env) : env < m.store.size := by
  obtain ⟨k, c, x, f, hc, hf, rfl⟩ := hm
  obtain ⟨env, hd, hall⟩ := h.classes k c hc
  exact hall x f hf ▸ hd.lt

/-! ## What is added -/

/-- A machine that grows stays sealed, if each environment keeps its kind and new functions
close over the right ones. -/
theorem Sealed.grow (h : Sealed m) (g : Grows m m')
    (hkinds : ∀ k table, m'.store.values? k = some table →
      m.store.values? k = some table ∨ m'.Suits table (m'.store.outer? k))
    (hfunctions : ∀ (i : Nat) c, m'.closures[i]? = some c → m.closures[i]? = some c ∨
      (m'.IsOpen c.env ∨ ∃ id, m'.HasOnly c.env thisName (.instance_ id)) ∧
        ∀ (j : Nat) c', m'.closures[j]? = some c' → c'.env = c.env → ¬ m'.IsOpen c.env → i = j)
    (hclasses : ∀ (k : Nat) c, m'.classes[k]? = some c → m.classes[k]? = some c ∨
      ∃ env, m'.DeclaresIn env c.superclass ∧ (∀ x f, c.methods.get? x = some f → f.env = env) ∧
        ∀ (k' : Nat) c' x f, m'.classes[k']? = some c' → c'.methods.get? x = some f → f.env = env →
          ¬ m'.IsOpen env → k = k') :
    Sealed m' where
  globals := g.opens _ h.globals
  kinds k table ht := by
    rcases hkinds k table ht with hold | hnew
    · rw [g.links k (Store.values?_lt hold)]
      exact (h.kinds k table hold).grows g
    · exact hnew
  functions i c hc := by
    rcases hfunctions i c hc with hold | ⟨hnew, -⟩
    · exact (h.functions i c hold).imp (g.opens _) fun ⟨id, hid⟩ => ⟨id, g.only _ _ _ (Or.inl rfl) hid⟩
    · exact hnew
  alone i j c c' v hc hc' hv he := by
    have hnot := hv.not_open (Or.inl rfl)
    rcases hfunctions i c hc with hold | ⟨-, hnew⟩
    · rcases hfunctions j c' hc' with hold' | ⟨-, hnew'⟩
      · exact h.alone i j c c' v hold hold' (h.before g (Or.inl rfl) (h.env_lt hold) hv) he
      · exact (hnew' i c hc he.symm (he ▸ hnot)).symm
    · exact hnew j c' hc' he hnot
  classes k c hc := by
    rcases hclasses k c hc with hold | ⟨env, hd, hall, -⟩
    · obtain ⟨env, hd, hall⟩ := h.classes k c hold
      exact ⟨env, hd.grows g, hall⟩
    · exact ⟨env, hd, hall⟩
  apart k k' c c' x x' f f' v hc hc' hf hf' hv he := by
    have hnot := hv.not_open (Or.inr rfl)
    rcases hclasses k c hc with hold | ⟨env, -, hall, hnew⟩
    · rcases hclasses k' c' hc' with hold' | ⟨env, -, hall, hnew⟩
      · have hlt := h.method_lt ⟨k, c, x, f, hold, hf, rfl⟩
        exact h.apart k k' c c' x x' f f' v hold hold' hf hf' (h.before g (Or.inr rfl) hlt hv) he
      · have henv := hall x' f' hf'
        exact (hnew k c x f hc hf (he.symm.trans henv) (henv ▸ he ▸ hnot)).symm
    · have henv := hall x f hf
      exact hnew k' c' x' f' hc' hf' (he.trans henv) (henv ▸ hnot)

/-- In an environment that is open a name other than `this` and `super` may be defined. -/
theorem sealed_define {name : String} (h : Sealed m) (hname : name ≠ thisName ∧ name ≠ superName) (ho : m.IsOpen k) :
    Sealed { m with store := m.store.define k name v } := by
  refine h.grow (grows_define hname ho) (fun j table ht => ?_) (fun _ _ hc => Or.inl hc) fun _ _ hc => Or.inl hc
  have ht : (m.store.define k name v).values? j = some table := ht
  rw [Store.values?_define] at ht
  obtain ⟨old, hold, rfl⟩ := Option.map_eq_some_iff.mp ht
  by_cases hj : k = j
  · subst hj
    obtain ⟨table, htable, hthis, hsuper⟩ := ho
    cases Option.some.inj (htable.symm.trans hold)
    exact Or.inr (.own (by simp [hname.1, hthis]) (by simp [hname.2, hsuper]))
  · rw [if_neg hj]
    exact Or.inl hold

/-- A new environment may be added with bindings that suit its place. -/
theorem sealed_push {values : Bindings Value} {enclosing : Nat} (h : Sealed m) (hs : m.Suits values (some enclosing)) :
    Sealed { m with store := m.store.push values (some enclosing) } := by
  have g : Grows m { m with store := m.store.push values (some enclosing) } := grows_push values enclosing
  refine h.grow g (fun k table ht => ?_) (fun _ _ hc => Or.inl hc) fun _ _ hc => Or.inl hc
  have ht : (m.store.push values (some enclosing)).values? k = some table := ht
  rw [Store.values?_push] at ht
  split at ht
  next hk =>
    cases ht
    right
    show Machine.Suits _ values ((m.store.push values (some enclosing)).outer? k)
    rw [Store.outer?_push, if_pos hk]
    exact hs.grows g
  next => exact Or.inl ht

theorem getElem?_push_cases {α : Type} {a : Array α} {last c : α} {i : Nat} (h : (a.push last)[i]? = some c) :
    a[i]? = some c ∨ i = a.size ∧ c = last := by
  rw [Array.getElem?_push] at h
  split at h
  next hi => exact Or.inr ⟨hi, (Option.some.inj h).symm⟩
  next => exact Or.inl h

/-- What is pushed is the only thing in its environment. -/
theorem hasOnly_push (m : Machine) (x : String) (v : Value) (enclosing : Nat) :
    Machine.HasOnly { m with store := m.store.push (.single x v) (some enclosing) } m.store.size x v := by
  show (m.store.push (.single x v) (some enclosing)).values? m.store.size = _
  rw [Store.values?_push, if_pos rfl]

theorem sealed_newFunction {c : Closure} (h : Sealed m) (hc : m.IsOpen c.env ∨ m.IsFresh c.env) :
    Sealed { m with closures := m.closures.push c } := by
  refine h.grow (grows_newFunction c) (fun _ _ ht => Or.inl ht) (fun i c' hi => ?_) fun _ _ hk => Or.inl hk
  rcases getElem?_push_cases hi with hold | ⟨rfl, rfl⟩
  · exact Or.inl hold
  · refine Or.inr ⟨hc.imp id (·.receiver), fun j c' hj he hnot => ?_⟩
    rcases getElem?_push_cases hj with hold | ⟨hj, -⟩
    · exact absurd he ((hc.resolve_left hnot).free j c' hold)
    · exact hj.symm

/-- A class whose methods close over its own environment may be added. -/
theorem sealed_newClass {c : Class} {env : Nat} (h : Sealed m) (hd : m.DeclaresIn env c.superclass)
    (hall : ∀ x f, c.methods.get? x = some f → f.env = env) (hfree : m.IsOpen env ∨ ¬ m.HasMethodIn env) :
    Sealed { m with classes := m.classes.push c } := by
  refine h.grow (grows_newClass c) (fun _ _ ht => Or.inl ht) (fun _ _ hi => Or.inl hi) fun k c' hk => ?_
  rcases getElem?_push_cases hk with hold | ⟨rfl, rfl⟩
  · exact Or.inl hold
  · refine Or.inr ⟨env, hd.grows (grows_newClass c'), hall, fun k' c'' x f hk' hf he hnot => ?_⟩
    rcases getElem?_push_cases hk' with hold | ⟨hk', -⟩
    · exact absurd ⟨k', c'', x, f, hold, hf, he⟩ (hfree.resolve_left hnot)
    · exact hk'.symm

theorem sealed_same (h : Sealed m) (hs : m'.store = m.store) (hf : m'.closures = m.closures)
    (hc : m'.classes = m.classes) (g : Grows m m') : Sealed m' :=
  h.grow g (fun _ _ ht => Or.inl (hs ▸ ht)) (fun _ _ hi => Or.inl (hf ▸ hi)) fun _ _ hk => Or.inl (hc ▸ hk)

/-- At the start there is only the environment of the globals. -/
theorem sealed_start : Sealed Machine.start := by
  have hopen : Machine.start.IsOpen globalEnv := ⟨.single clockName .clock, rfl, by decide, by decide⟩
  refine ⟨hopen, fun k table ht => ?_, fun _ _ hi => (by cases hi), fun _ _ _ _ _ hi => (by cases hi),
    fun _ _ hk => (by cases hk), fun _ _ _ _ _ _ _ _ _ hk => (by cases hk)⟩
  have ht : (Store.empty.push (.single clockName .clock) none).values? k = some table := ht
  rw [Store.values?_push] at ht
  split at ht
  · cases ht
    exact .own (by decide) (by decide)
  · cases ht

end Lox
