/-
  Lox.Proofs.Run.Receivers — the environments of receivers and superclasses are the same
  on all machines that a session shows (`fixed_of_seen`), and a `this` is the nearest
  receiver outward from where it is evaluated (`this_receives`).

  A method that is read off an object or that initializes an instance is bound to it
  (`gets_of_property`, `binds_of_construct`): it gets an environment of its own, inside of
  the one that it was declared in, with the receiver and nothing else. Between a part of
  the text and the class around it there are blocks and routines alone, and their
  environments are open, so the receiver can be told by the environments themselves
  (`Machine.Receives`).
-/

import Lox.Proofs.Run.Agreement
import Lox.Proofs.Run.Course

namespace Lox

open Eval Session

variable {host : Host} {interactive : Bool} {sources : List String} {m m' : Machine} {M M' : Moment} {n room k d : Nat}
  {os : List Opened} {v : Value} {keyword : Reference}

/-! ## All that a session shows -/

theorem extends_all {before rest : List String} {source : String} (hs : sources = before ++ source :: rest) :
    (world host interactive sources (before ++ [source])).Extends (world host interactive sources sources) := by
  refine ⟨rfl, fun q hq => ?_⟩
  have hmore := isProgram_append hq rest
  rwa [List.append_assoc, List.singleton_append, ← hs] at hmore

theorem seen_sealed (h : Seen host interactive sources m) : Sealed m := by
  cases h with
  | between hs => exact (ready_after hs).inv.sealed
  | begun hM =>
    obtain ⟨before, source, rest, hs, hf⟩ := occurs_fits hM
    exact hf.inv.sealed
  | done hM =>
    obtain ⟨before, source, rest, hs, hf⟩ := occurs_fits hM
    exact (sound (history host interactive sources (before ++ [source])) _ hM hf).stays.inv.sealed

theorem seen_last (host : Host) (interactive : Bool) (sources : List String) :
    Seen host interactive sources (after host interactive sources).machine :=
  .between (List.append_nil sources).symm

/-- Receivers, superclasses and what hangs on them are the same on two machines, as far as both have them. -/
structure Fixed (m m' : Machine) : Prop where
  environments : ∀ k x v, IsReserved x → m.HasOnly k x v → k < m'.store.size → m'.HasOnly k x v
  links : ∀ k, k < m.store.size → k < m'.store.size → m'.store.outer? k = m.store.outer? k
  functions : ∀ (i : Nat) c, m.closures[i]? = some c → i < m'.closures.size → m'.closures[i]? = some c
  classes : ∀ (i : Nat) c, m.classes[i]? = some c → i < m'.classes.size → m'.classes[i]? = some c

theorem kept_back {α : Type} {a b : Array α} {i : Nat} {c : α} (h : ∀ (i : Nat) c, a[i]? = some c → b[i]? = some c)
    (hb : b[i]? = some c) (hi : i < a.size) : a[i]? = some c := by
  have ha := Array.getElem?_eq_getElem hi
  rw [ha, ← hb, h i _ ha]

theorem fixed_of_seen (h : Seen host interactive sources m) (h' : Seen host interactive sources m') : Fixed m m' := by
  have g := seen_grows h
  have g' := seen_grows h'
  refine ⟨fun k x v hx hk hlt => ?_, fun k hk hlt => ?_, fun i c hc hlt => ?_, fun i c hc hlt => ?_⟩
  · exact (seen_sealed h').before g' hx hlt (g.only k x v hx hk)
  · rw [← g.links k hk, g'.links k hlt]
  · exact kept_back g'.closures (g.closures i c hc) hlt
  · exact kept_back g'.classes (g.classes i c hc) hlt

/-! ## Methods that are bound -/

/-- Going from one machine to another binds a method: it gets a new environment that holds
its receiver, inside of the one it was declared in. -/
structure Binds (m m' : Machine) (c method : Closure) (id : Nat) : Prop where
  routine : c.routine = method.routine ∧ c.isInit = method.isInit
  fresh : c.env = m.store.size
  receiver : m'.HasOnly c.env thisName (.instance_ id)
  inside : m'.store.outer? c.env = some method.env

/-- The value is a method that has been bound on the way. -/
def BindsValue (m m' : Machine) (v : Value) (method : Closure) (id : Nat) : Prop :=
  ∃ f c, v = .function f ∧ m'.closures[f]? = some c ∧ Binds m m' c method id

theorem binds_of_bindThis {method c : Closure} {id : Nat} (h : bindThis method id m = .ok c m') :
    Binds m m' c method id := by
  cases h
  refine ⟨⟨rfl, rfl⟩, rfl, hasOnly_push m thisName _ method.env, ?_⟩
  show (m.store.push (.single thisName (.instance_ id)) (some method.env)).outer? m.store.size = some method.env
  rw [Store.outer?_push, if_pos rfl]

theorem bindsValue_of_boundMethod {method : Closure} {id : Nat} (h : boundMethod method id m = .ok v m') :
    BindsValue m m' v method id := by
  obtain ⟨c, m₁, hc, hv⟩ := of_bind_ok h
  have hbinds := binds_of_bindThis hc
  cases hv
  refine ⟨m₁.closures.size, c, rfl, ?_, hbinds.routine, hbinds.fresh, hbinds.receiver, hbinds.inside⟩
  show (m₁.closures.push c)[m₁.closures.size]? = some c
  simp

/-- A property is a field of the object or a method of its class, bound to the object. -/
def Gets (m m' : Machine) (object v : Value) (name : String) : Prop :=
  ∃ id i, object = .instance_ id ∧ m.instances[id]? = some i ∧
    (i.fields.get? name = some v ∧ m' = m ∨
      i.fields.get? name = none ∧ ∃ found, findMethod? m.classes name i.class_ = some found ∧
        BindsValue m m' v found id)

/-- A property is a field, or a method that is bound to its receiver in an environment of its
own. -/
theorem gets_of_property {object : Value} {name : Lexeme} (h : property room object name m = .ok v m') :
    Gets m m' object v name.text := by
  cases object with
  | instance_ id =>
    obtain ⟨i, m₁, hderef, hrest⟩ := of_bind_ok (a := deref m.instances[id]?) h
    cases hi : m.instances[id]? with
    | none =>
      rw [hi] at hderef
      cases hderef
    | some j =>
      rw [hi] at hderef
      cases hderef
      refine ⟨id, i, rfl, hi, ?_⟩
      cases hfield : i.fields.get? name.text with
      | some value =>
        simp only [hfield] at hrest
        cases hrest
        exact Or.inl ⟨rfl, rfl⟩
      | none =>
        simp only [hfield] at hrest
        obtain ⟨found, m₂, hfind, hbound⟩ := of_bind_ok hrest
        cases (of_needs_ok hfind).2
        cases hfound : findMethod? m.classes name.text i.class_ with
        | none =>
          simp only [hfound] at hbound
          cases hbound
        | some found =>
          simp only [hfound] at hbound
          exact Or.inr ⟨rfl, found, rfl, bindsValue_of_boundMethod (of_needs_ok hbound).2⟩
  | _ => cases h

/-- A class that is called binds its initializer to a new instance. -/
theorem binds_of_construct {paren : Lexeme} {vs vs' : List Value} {c : Closure} (he : Evaluates host M M')
    (ht : M.task = .enter paren (.class_ k) vs) (ht' : M'.task = .call c vs') :
    ∃ found, findMethod? M.machine.classes initName k = some found ∧
      Binds M.machine M'.machine c found M.machine.instances.size := by
  cases he with
  | construct hnew hfound hbind =>
    cases ht
    cases ht'
    obtain ⟨rfl, rfl⟩ := newInstance_ok hnew
    have hbinds := binds_of_bindThis hbind
    exact ⟨_, hfound, hbinds.routine, hbinds.fresh, hbinds.receiver, hbinds.inside⟩
  | initializer => cases ht'
  | function => cases ht
  | _ => cases ht

/-! ## What an environment was made for -/

/-- Only a block opens the scope of a block. -/
theorem Opens.block {body : List Stmt} (h : Opens M k (.block body)) : 2 ≤ M.room ∧ M.task = .stmt (.block body) := by
  obtain ⟨-, h⟩ := h
  split at h
  next ht hf =>
    cases hf
    exact ⟨h.1, h.2 ▸ ht⟩
  next hf => cases hf
  next hf => cases hf
  next hf => cases hf
  next => cases h

theorem Opens.routine {f : Routine} (h : Opens M k (.routine f)) : 2 ≤ M.room ∧ ∃ c vs, M.task = .call c vs := by
  obtain ⟨-, h⟩ := h
  split at h
  next hf => cases hf
  next c vs _ ht _ => exact ⟨h.1, c, vs, ht⟩
  next hf => cases hf
  next hf => cases hf
  next => cases h

/-- Only a method that is bound opens the scope of a receiver. -/
theorem Opens.receiver {superclass : Option Reference} {methods : List Routine}
    (h : Opens M k (.receiver superclass methods)) :
    ∃ f, f ∈ methods := by
  obtain ⟨-, h⟩ := h
  split at h
  next hf => cases hf
  next hf => cases hf
  next method id _ _ _ hf => cases hf; exact ⟨_, h⟩
  next hf => cases hf
  next => cases h

/-- Only a class with a superclass opens the scope of `super`. -/
theorem Opens.superclass {target : Reference} {methods : List Routine} (h : Opens M k (.superclass target methods)) :
    ∃ name, M.task = .stmt (.class_ name (some target) methods) ∧
      ∃ parent m, superclassValue (M.room - 2) target M.machine = .ok parent m := by
  obtain ⟨-, h⟩ := h
  split at h
  next hf => cases hf
  next hf => cases hf
  next hf => cases hf
  next name _ _ _ _ ht hf =>
    cases hf
    obtain ⟨rfl, rfl, hok⟩ := h
    exact ⟨name, ht, hok⟩
  next => cases h

/-! ## The nearest receiver -/

/-- From an environment outward the first one that is not open holds the receiver. -/
structure Machine.Receives (m : Machine) (k d id : Nat) : Prop where
  receiver : ∃ e, m.store.ancestor? d k = some e ∧ m.HasOnly e thisName (.instance_ id)
  nearest : ∀ j < d, ∃ e, m.store.ancestor? j k = some e ∧ m.IsOpen e

theorem ancestor?_grows {e : Nat} (g : Grows m m') (h : m.store.ancestor? d k = some e) :
    m'.store.ancestor? d k = some e := by
  induction d generalizing k with
  | zero => exact h
  | succ d ih =>
    obtain ⟨parent, hlink, hrest⟩ := Option.bind_eq_some_iff.mp h
    have hlink' : m'.store.outer? k = some parent := by rw [g.links k (Store.outer?_lt hlink), hlink]
    exact Option.bind_eq_some_iff.mpr ⟨parent, hlink', ih hrest⟩

theorem Machine.Receives.grows {id : Nat} (h : m.Receives k d id) (g : Grows m m') : m'.Receives k d id := by
  obtain ⟨⟨e, he, hid⟩, hnear⟩ := h
  refine ⟨⟨e, ancestor?_grows g he, g.only e _ _ (Or.inl rfl) hid⟩, fun j hj => ?_⟩
  obtain ⟨e, he, ho⟩ := hnear j hj
  exact ⟨e, ancestor?_grows g he, g.opens e ho⟩

theorem Machine.Receives.le {d' id id' : Nat} (h : m.Receives k d id) (h' : m.Receives k d' id') : d ≤ d' := by
  obtain ⟨⟨e, he, hid⟩, -⟩ := h'
  by_cases hlt : d' < d
  · obtain ⟨e', he', ho⟩ := h.nearest d' hlt
    cases Option.some.inj (he.symm.trans he')
    exact absurd ho (hid.not_open (Or.inl rfl))
  · omega

/-- There is one nearest receiver. -/
theorem Machine.Receives.unique {d' id id' : Nat} (h : m.Receives k d id) (h' : m.Receives k d' id') : id = id' := by
  have hd := Nat.le_antisymm (h.le h') (h'.le h)
  subst hd
  obtain ⟨⟨e, he, hid⟩, -⟩ := h
  obtain ⟨⟨e', he', hid'⟩, -⟩ := h'
  cases Option.some.inj (he.symm.trans he')
  exact Value.instance_.inj (hid.same hid').2

theorem Selects.inward {o : Opened} {x : String} (h : Selects (o :: os) x (d + 1)) : Selects os x d :=
  ⟨h.1, fun i hi o ho => h.2 (i + 1) (Nat.succ_lt_succ hi) o ho⟩

/-- Blocks and routines lie between a part and the class around it. -/
theorem Layered.inner (hl : Layered os) (hs : Selects os thisName d) {j : Nat} (hj : j < d) :
    ∃ o, os[j]? = some o ∧ ((∃ body, o.frame = .block body) ∨ ∃ f, o.frame = .routine f) := by
  induction hl generalizing d j with
  | nil =>
    obtain ⟨⟨o, ho, -⟩, -⟩ := hs
    cases ho
  | @block body names os _ _ ih =>
    cases j with
    | zero => exact ⟨_, rfl, Or.inl ⟨body, rfl⟩⟩
    | succ j =>
      obtain ⟨d, rfl⟩ : ∃ i, d = i + 1 := ⟨d - 1, by omega⟩
      exact ih hs.inward (by omega)
  | @routine f names os _ _ ih =>
    cases j with
    | zero => exact ⟨_, rfl, Or.inr ⟨f, rfl⟩⟩
    | succ j =>
      obtain ⟨d, rfl⟩ : ∃ i, d = i + 1 := ⟨d - 1, by omega⟩
      exact ih hs.inward (by omega)
  | class_ => exact absurd ⟨true, List.mem_singleton_self _⟩ (hs.2 0 (by omega) _ rfl)

/-- The environments of blocks and calls are open. -/
theorem open_of_opened {frame : Frame} (ho : (world host interactive sources sources).opened k frame)
    (hf : (∃ body, frame = .block body) ∨ ∃ f, frame = .routine f) (hm : Seen host interactive sources m)
    (hk : k < m.store.size) : m.IsOpen k := by
  obtain ⟨⟨n, room, task, m₀⟩, hM, hopens⟩ := ho
  have hsize : k = m₀.store.size := hopens.1
  have hinside {M' : Moment} (he : Evaluates host ⟨n, room, task, m₀⟩ M')
    (hcurrent : M'.machine.current = m₀.store.size) :
      m.IsOpen k := by
    have hM' := (history host interactive sources sources).closed _ _ hM he
    obtain ⟨before, source, rest, -, hfits⟩ := occurs_fits hM'
    refine (seen_sealed hm).open_before (seen_grows hm) hk ((seen_grows (.begun hM')).opens _ ?_)
    rw [hsize, ← hcurrent]
    exact hfits.home
  rcases hf with ⟨body, rfl⟩ | ⟨f, rfl⟩
  · obtain ⟨hroom, ht⟩ := hopens.block
    obtain ⟨left, rfl⟩ := Nat.exists_eq_add_of_le' hroom
    cases ht
    exact hinside .block rfl
  · obtain ⟨hroom, c, vs, ht⟩ := hopens.routine
    obtain ⟨left, rfl⟩ := Nat.exists_eq_add_of_le' hroom
    cases ht
    exact hinside .body rfl

/-- At the distance of `this` there is an environment with a receiver. -/
theorem receives_of_chain (hl : Layered os) (hs : Selects os thisName d) (hr : IsReceiver os d)
    (hc : Chain (world host interactive sources sources) m k os) (hm : Seen host interactive sources m) :
    ∃ id, m.Receives k d id := by
  obtain ⟨superclass, methods, ho⟩ := hr
  obtain ⟨e, he, -, hholds⟩ := hc.ancestor ho
  obtain ⟨id, hid⟩ := hholds.receiver superclass methods rfl
  refine ⟨id, ⟨e, he, (seen_sealed hm).only_of_cell (Or.inl rfl) hid⟩, fun j hj => ?_⟩
  obtain ⟨o, ho, hframe⟩ := hl.inner hs hj
  obtain ⟨e, he, hopened, -⟩ := hc.ancestor ho
  exact ⟨e, he, open_of_opened hopened hframe hm (hc.ancestor_lt ho he)⟩

/-- A `this` gives the nearest receiver, with levels enough to look it up. -/
theorem this_receives (hM : Occurs host interactive sources ⟨n, room, .expr (.this keyword), m⟩) :
    ∃ d id, m.Receives m.current d id ∧
      expr (invoke host n) room (.this keyword) m = needs 4 room (pure (.instance_ id)) m := by
  obtain ⟨before, source, rest, hs, hf⟩ := occurs_fits hM
  obtain ⟨p, r, os, hp, hwithin, hchain⟩ := hf.task
  have hresolved := resolved (isProgram_accepted hp) hwithin
  obtain ⟨d, hd, hselects, hr⟩ := table_of_this (isProgram_accepted hp) hwithin
  rw [← hf.tabled.entry hp hwithin (List.mem_singleton_self _)] at hd
  obtain ⟨id, hreceives⟩ :=
    receives_of_chain hresolved.stands.layered hselects hr (hchain.extends (extends_all hs)) (.begun hM)
  obtain ⟨e, he, hid⟩ := hreceives.receiver
  have hcell : m.store.cell e thisName = some (.instance_ id) := by rw [hid.cell, if_pos rfl]
  have hname : keyword.name.text = thisName := hresolved.tidy
  have hread : readAt d keyword.name.text m = .ok (.instance_ id) m := by
    show Eval.ofExcept (m.store.readAt m.current d keyword.name.text) m = _
    rw [hname, readAt_of_holds he hcell]
    rfl
  refine ⟨d, id, hreceives, ?_⟩
  match room with
  | 0 | 1 => rfl
  | left + 2 => exact (read_local hd left).trans (needs_congr hread 2 left)

end Lox
