/-
  Lox.Proofs.Run.Effects — the effects of a running program are safe where its text stands
  in the right environments: a read at a distance finds its name, an assignment its
  environment, `super` its class and its receiver, and what is made on the way is as the
  heap wants it.
-/

import Lox.Proofs.Run.Lookup
import Lox.Proofs.Run.Moment
import Lox.Proofs.Run.Safe

namespace Lox

variable {w : World} {m m' : Machine} {v : Value} {room : Nat}

/-! ## Names -/

namespace Store

variable {α : Type} {s : Store α}

theorem holder?_isSome {name : String} {i k : Nat} (h : s.holder? name i = some k) : (s.cell k name).isSome := by
  fun_induction holder? s name i with
  | case1 => cases h
  | case2 i e he hc =>
    cases h
    simpa [cell, Store.values?, he, Bindings.contains] using hc
  | case3 => cases h
  | case4 i e he hc p hp hlt ih => exact ih h
  | case5 => cases h

theorem holder?_self {name : String} {i : Nat} (h : (s.cell i name).isSome) : s.holder? name i = some i := by
  unfold holder?
  cases he : s.environments[i]? with
  | none => simp [cell, Store.values?, he] at h
  | some e =>
    have hc : e.values.contains name = true := by simpa [cell, Store.values?, he, Bindings.contains] using h
    simp [hc]

theorem valueIn_of_cell {x : String} {k : Nat} {u : α} (h : s.cell k x = some u) : s.valueIn k x = .ok u := by
  unfold cell at h
  rw [Store.valueIn, h]

theorem cell_of_valueIn {x : String} {k : Nat} {u : α} (h : s.valueIn k x = .ok u) : s.cell k x = some u := by
  unfold cell
  unfold Store.valueIn at h
  split at h
  next u' hu => cases h; exact hu
  next => cases h

theorem cell_of_readAt {x : String} {i : Nat} {d : Int} {u : α} (h : s.readAt i d x = .ok u) :
    ∃ k, s.cell k x = some u := by
  unfold Store.readAt at h
  cases ha : s.ancestor i d with
  | error => rw [ha] at h; cases h
  | ok k =>
    rw [ha] at h
    exact ⟨k, cell_of_valueIn h⟩

end Store

open Eval

theorem safe_define {name : String} (h : Inv w m) (hname : name ≠ thisName ∧ name ≠ superName) (hv : m.Valid v)
    (ho : m.IsOpen m.current) : Safe w (define name v) m fun _ m' => (m'.store.cell m.current name).isSome := by
  refine Safe.of_ok rfl (stays_define h hname hv ho) ?_
  show ((m.store.define m.current name v).cell m.current name).isSome
  rw [Store.cell_define, if_pos ⟨rfl, rfl, ho.lt⟩]
  rfl

variable {target keyword : Reference} {d : Int}

theorem distance_ok (target : Reference) (m : Machine) :
    Eval.distance? target m = .ok m.distances[target.slot]? m := rfl

/-- A local reference reads at its distance. -/
theorem read_local (hd : m.distances[target.slot]? = some d) (room : Nat) :
    Eval.read (room + 1) target m = needs 2 room (readAt d target.name.text) m := by
  show (Eval.distance? target >>= _ : Eval Value) m = _
  rw [Eval.bind_ok (hd ▸ distance_ok target m)]

/-- Any other one reads a global name. -/
theorem read_global (hd : m.distances[target.slot]? = none) (room : Nat) :
    Eval.read (room + 1) target m =
      Eval.deeper room (fun room => Eval.orFail room (m.store.read globalEnv target.name)) m := by
  show (Eval.distance? target >>= _ : Eval Value) m = _
  rw [Eval.bind_ok (hd ▸ distance_ok target m)]
  cases room <;> rfl

theorem assign_local (hd : m.distances[target.slot]? = some d) (room : Nat) :
    Eval.assign room target v m = needs 2 room (assignAt d target.name.text v) m := by
  unfold Eval.assign
  rw [Eval.bind_ok (hd ▸ distance_ok target m)]

theorem assign_global (hd : m.distances[target.slot]? = none) (room : Nat) :
    Eval.assign room target v m = Eval.deeper room (fun room => assignIn room globalEnv target.name v) m := by
  unfold Eval.assign
  rw [Eval.bind_ok (hd ▸ distance_ok target m)]

theorem ofExcept_ok {x : Except Fault Value} (h : Eval.ofExcept x m = .ok v m') : x = .ok v ∧ m' = m := by
  cases x <;> cases h
  exact ⟨rfl, rfl⟩

/-- What is read is in the store, and reading changes nothing. -/
theorem read_ok {room : Nat} (h : Eval.read room target m = .ok v m') : m' = m ∧
    ∀ d, m.distances[target.slot]? = d →
      (d.elim (m.store.read globalEnv target.name) fun d => m.store.readAt m.current d target.name.text) = .ok v := by
  obtain ⟨room, rfl, -⟩ := Eval.of_deeper_ok h
  cases hd : m.distances[target.slot]? with
  | some d =>
    rw [read_local hd] at h
    obtain ⟨hv, hm⟩ := ofExcept_ok (Eval.of_needs_ok h).2
    exact ⟨hm, fun _ he => he ▸ hv⟩
  | none =>
    rw [read_global hd] at h
    obtain ⟨left, -, hleft⟩ := Eval.of_deeper_ok h
    obtain ⟨hv, hm⟩ := Eval.of_orFail_ok hleft
    exact ⟨hm, fun _ he => he ▸ hv⟩

theorem isExpected_holder {s : Store Value} {i : Nat} {name : Lexeme} {fault : Fault}
    (h : s.holder i name = .error fault) : fault.IsExpected := by
  unfold Store.holder at h
  split at h <;> cases h
  exact Or.inr ⟨_, rfl⟩

theorem holder_ok {s : Store Value} {i k : Nat} {name : Lexeme} (h : s.holder i name = .ok k) :
    s.holder? name.text i = some k := by
  unfold Store.holder at h
  split at h
  next hk => cases h; exact hk
  next => cases h

/-- A variable that is bound where it is read is read without a fault of the host's own. -/
theorem safe_read (h : Inv w m) (hb : IsBound m target target.name.text) :
    Safe w (Eval.read room target) m fun v m' => m'.Valid v := by
  cases room with
  | zero => exact Safe.deeper h fun _ hroom => by cases hroom
  | succ room =>
  cases hd : m.distances[target.slot]? with
  | some d =>
    obtain ⟨v, hv⟩ := hb d hd
    obtain ⟨k, hk⟩ := Store.cell_of_readAt hv
    refine Safe.of_eq (Safe.needs h fun _ => Safe.get (Safe.ofExcept h (fun u hu => ?_) fun fault hf => ?_))
      (read_local hd room)
    · rw [hv] at hu
      cases hu
      exact h.cells k _ v hk
    · rw [hv] at hf
      cases hf
  | none =>
    refine Safe.of_eq (Safe.deeper h fun _ _ => ?_) (read_global hd room)
    unfold Store.read
    cases hk : m.store.holder globalEnv target.name with
    | error fault => exact Safe.orFail h (fun _ hx => by cases hx) fun _ hx => by cases hx; exact isExpected_holder hk
    | ok k =>
      obtain ⟨v, hv⟩ := Option.isSome_iff_exists.mp (Store.holder?_isSome (holder_ok hk))
      show Safe w (Eval.orFail _ (m.store.valueIn k target.name.text)) m _
      rw [Store.valueIn_of_cell hv]
      exact Safe.pure h (h.cells k _ v hv)

theorem safe_readAt {x : String} (h : Inv w m) (hv : m.store.readAt m.current d x = .ok v) :
    Safe w (readAt d x) m fun u m' => u = v ∧ m' = m := by
  refine Safe.get (Safe.ofExcept h (fun u hu => ?_) fun fault hf => ?_)
  · rw [hv] at hu
    cases hu
    exact ⟨rfl, rfl⟩
  · rw [hv] at hf
    cases hf

/-- What holds a name of the program is open. -/
theorem open_of_holder {name : Lexeme} {env k : Nat} (h : Inv w m) (hname : name.IsPlain)
    (hk : m.store.holder env name = .ok k) : m.IsOpen k :=
  h.sealed.open_of_cell hname.not_reserved (Store.holder?_isSome (holder_ok hk))

theorem safe_assignIn {name : Lexeme} (h : Inv w m) (hname : name.IsPlain) (hv : m.Valid v) (env : Nat) :
    Safe w (assignIn room env name v) m fun _ m' => ∃ k, m' = { m with store := m.store.define k name.text v } := by
  refine Safe.get ?_
  refine Safe.bind (Q := fun k m' => m' = m ∧ m.store.holder env name = .ok k)
    (Safe.orFail h (fun k hk => ⟨rfl, hk⟩) fun _ => isExpected_holder) fun k m' _ _ hm => ?_
  obtain ⟨rfl, hk⟩ := hm
  exact Safe.of_ok rfl (stays_define h hname hv (open_of_holder h hname hk)) ⟨k, rfl⟩

/-- A name of the program selects an open environment: one that holds it, or the current one,
where it may be declared but not yet bound. -/
theorem open_of_selects {x : String} {os : List Opened} {i e : Nat} (h : Inv w m) (hc : Chain w m m.current os)
    (ho : m.IsOpen m.current) (houter : Complete os.tail) (hx : ¬ IsReserved x) (hs : Selects os x i)
    (he : m.store.ancestor? i m.current = some e) : m.IsOpen e := by
  obtain ⟨⟨o, hfound, complete, hdeclared⟩, -⟩ := hs
  cases i with
  | zero =>
    cases he
    exact ho
  | succ i =>
    obtain ⟨e', he', -, hholds⟩ := hc.ancestor hfound
    cases Option.some.inj (he.symm.trans he')
    have hcomplete : complete = true := by
      cases os with
      | nil => cases hfound
      | cons first os => exact houter o (List.mem_of_getElem? hfound) _ hdeclared
    exact h.sealed.open_of_cell hx (hholds.names x (hcomplete ▸ hdeclared))

/-- An assignment goes to an environment that its chain leads to, or fails in the program. -/
theorem safe_assign {os : List Opened} (h : Inv w m) (hf : Finds w m os target target.name.text)
    (hc : Chain w m m.current os) (ho : m.IsOpen m.current) (houter : Complete os.tail) (hname : target.name.IsPlain)
    (hv : m.Valid v) : Safe w (Eval.assign room target v) m fun _ _ => True := by
  unfold Finds at hf
  cases hd : m.distances[target.slot]? with
  | none =>
    refine Safe.of_eq (Safe.deeper h fun _ _ => ?_) (assign_global hd room)
    exact (safe_assignIn h hname hv globalEnv).mono fun _ _ _ _ _ => trivial
  | some d =>
    rw [hd] at hf
    obtain ⟨i, -, e, rfl, hselects, -, he, -⟩ := hf
    have hopen : m.IsOpen e := open_of_selects h hc ho houter hname.not_reserved hselects he
    have hanc : m.store.ancestor m.current (Int.ofNat i) = .ok e := by rw [Store.ancestor, he]
    refine Safe.of_eq (Safe.needs h fun _ => ?_) (assign_local hd room)
    refine Safe.get (Safe.bind (Q := fun k m' => k = e ∧ m' = m) ?_ fun k m' _ _ hm => ?_)
    · rw [hanc]
      exact Safe.pure h ⟨rfl, rfl⟩
    · obtain ⟨rfl, rfl⟩ := hm
      exact Safe.of_ok rfl (stays_define h hname hv hopen) trivial

/-! ## Objects -/

/-- A method that is found is a method of a class. -/
theorem findMethod?_found {name : String} {k : Nat} {method : Closure}
    (hm : findMethod? m.classes name k = some method) :
    ∃ (k : Nat) (c : Class), m.classes[k]? = some c ∧ c.methods.get? name = some method := by
  fun_induction findMethod? m.classes name k with
  | case1 => cases hm
  | case2 k c hc found hfound =>
    cases hm
    exact ⟨k, c, hc, hfound⟩
  | case3 => cases hm
  | case4 k c hc hnone parent hparent hlt ih => exact ih hm
  | case5 => cases hm

theorem findMethod?_isMethod (h : Inv w m) {name : String} {k : Nat} {method : Closure}
    (hm : findMethod? m.classes name k = some method) : IsMethod w m method := by
  obtain ⟨k, c, hc, hx⟩ := findMethod?_found hm
  exact h.methods k c name method hc hx

theorem findMethod?_hasMethodIn {name : String} {k : Nat} {method : Closure}
    (hm : findMethod? m.classes name k = some method) : m.HasMethodIn method.env := by
  obtain ⟨k, c, hc, hx⟩ := findMethod?_found hm
  exact ⟨k, c, name, method, hc, hx, rfl⟩

theorem safe_findMethod (h : Inv w m) (levels room : Nat) (name : String) (k : Nat) :
    Safe w (needs levels room (findMethod name k)) m fun found m' => m' = m ∧ findMethod? m.classes name k = found :=
  Safe.needs h fun _ => Safe.of_ok rfl (Stays.refl h) ⟨rfl, rfl⟩

theorem safe_newFunction {c : Closure} (h : Inv w m) (hc : IsFunction w m c) (hs : m.IsOpen c.env ∨ m.IsFresh c.env) :
    Safe w (newFunction c) m fun v m' => m'.Valid v := by
  refine Safe.of_ok rfl (stays_newFunction h hc hs) ?_
  show m.closures.size < (m.closures.push c).size
  simp

theorem safe_setField {name : String} (h : Inv w m) (hv : m.Valid v) (id : Nat) :
    Safe w (setField id name v) m fun _ _ => True :=
  Safe.of_ok rfl (stays_setField h hv id) trivial

/-- A method that is found and bound. -/
def SafeBind (w : World) (m : Machine) (method : Closure) (id : Nat) : Prop :=
  Safe w (bindThis method id) m fun c m' => IsFunction w m' c ∧ m'.IsFresh c.env ∧ c.routine = method.routine

/-- A method gets an environment of its own that holds its receiver. -/
theorem safe_bindThis {method : Closure} {id : Nat} (h : Inv w m) (hm : IsMethod w m method)
    (hid : id < m.instances.size) (hin : m.HasMethodIn method.env)
    (ho : ∀ superclass methods, method.routine ∈ methods → w.opened m.store.size (.receiver superclass methods)) :
    SafeBind w m method id := by
  obtain ⟨p, superclass, methods, r, os, hp, hmem, hwithin, hchain⟩ := hm
  have hvalues : ∀ x u, (Bindings.single thisName (Value.instance_ id)).get? x = some u → m.Valid u := by
    intro x u hx
    rw [Bindings.get?_single] at hx
    split at hx <;> cases hx
    exact hid
  have hfresh : Machine.IsFresh
      { m with store := m.store.push (.single thisName (.instance_ id)) (some method.env) } m.store.size :=
    ⟨⟨id, hasOnly_push m thisName _ method.env⟩, fun i c hc => Nat.ne_of_lt (h.sealed.env_lt hc)⟩
  refine Safe.of_ok rfl (stays_push h hvalues (.receiver rfl rfl hin))
    ⟨⟨p, _, r, _, hp, hwithin, ?_, fun _ => ⟨superclass, methods, _, _, rfl⟩⟩, hfresh, rfl⟩
  refine hchain.push (ho superclass methods hmem) (fun x hx => ?_) (fun _ _ _ => ⟨id, rfl⟩) fun _ _ hf => by cases hf
  cases List.mem_singleton.mp hx
  rfl

theorem safe_boundMethod {method : Closure} {id : Nat} (h : SafeBind w m method id) :
    Safe w (boundMethod method id) m fun v m' => m'.Valid v :=
  Safe.bind h fun _ _ _ hs hc => safe_newFunction hs.inv hc.1 (Or.inr hc.2.1)

/-- A property is a field or a method, or fails in the program. -/
theorem safe_property {object : Value} {name : Lexeme} (h : Inv w m) (ho : m.Valid object)
    (hbind : ∀ id i found, 3 ≤ room → object = .instance_ id → m.instances[id]? = some i →
      i.fields.get? name.text = none → findMethod? m.classes name.text i.class_ = some found → SafeBind w m found id) :
    Safe w (property room object name) m fun v m' => m'.Valid v := by
  unfold property
  split
  next id =>
    have hsome : m.instances[id]?.isSome := by
      rw [Array.getElem?_eq_getElem ho]
      rfl
    refine Safe.get (Safe.bind (Q := fun i m' => m' = m ∧ m.instances[id]? = some i)
      (Safe.deref h hsome fun i hi => ⟨rfl, hi⟩) fun i m' _ _ hi => ?_)
    obtain ⟨rfl, hi⟩ := hi
    split
    next value hvalue => exact Safe.pure h (h.fields id i _ value hi hvalue)
    next hnone =>
      refine Safe.bind (safe_findMethod h 2 room name.text i.class_) fun found m'' _ _ hfound => ?_
      obtain ⟨rfl, hfound⟩ := hfound
      cases found with
      | some found => exact Safe.needs h fun hroom => safe_boundMethod (hbind id i found hroom rfl hi hnone hfound)
      | none => exact Safe.fail h _ _
  next => exact Safe.fail h _ _

/-- With a class behind `super` and an instance behind `this`, a method is bound or fails in the
program. -/
theorem safe_superMethod {method : Lexeme} {k id : Nat} (h : Inv w m)
    (hd : m.distances[keyword.slot]? = some d) (hk : m.store.readAt m.current d superName = .ok (.class_ k))
    (hid : m.store.readAt m.current (d - 1) thisName = .ok (.instance_ id))
    (hbind : ∀ found, 2 ≤ room → findMethod? m.classes method.text k = some found → SafeBind w m found id) :
    Safe w (superMethod room keyword method) m fun v m' => m'.Valid v := by
  refine Safe.needs h fun hroom => ?_
  refine Safe.bind (Q := fun r m' => r = some d ∧ m' = m) (Safe.of_ok (distance_ok keyword m) (Stays.refl h) ⟨hd, rfl⟩)
    fun r m' _ _ hr => ?_
  obtain ⟨rfl, rfl⟩ := hr
  refine Safe.bind (safe_readAt h hk) fun parent m'' _ _ hparent => ?_
  obtain ⟨rfl, rfl⟩ := hparent
  refine Safe.bind (safe_readAt h hid) fun receiver m'' _ _ hreceiver => ?_
  obtain ⟨rfl, rfl⟩ := hreceiver
  refine Safe.bind (safe_findMethod h 0 0 method.text k) fun found m'' _ _ hfound => ?_
  obtain ⟨rfl, hfound⟩ := hfound
  cases found with
  | some found => exact safe_boundMethod (hbind found hroom hfound)
  | none => exact Safe.fail h _ _

theorem safe_fieldOwner {object : Value} {name : Lexeme} (h : Inv w m) :
    Safe w (fieldOwner object name) m fun id m' => m' = m ∧ object = .instance_ id := by
  unfold fieldOwner
  split
  · exact Safe.pure h ⟨rfl, rfl⟩
  · exact Safe.fail h _ _

/-! ## Calls and operators -/

theorem arity_function {id : Nat} {c : Closure} (hc : m.closures[id]? = some c) (room : Nat) :
    arity? room (.function id) m = .ok (some c.routine.params.length) m := by
  show (deref m.closures[id]? >>= _ : Eval (Option Nat)) m = _
  rw [hc]
  rfl

theorem findMethod_ok (name : String) (k : Nat) (m : Machine) :
    findMethod name k m = .ok (findMethod? m.classes name k) m := rfl

theorem arity_class {k : Nat} {c : Closure} (hc : findMethod? m.classes initName k = some c) (room : Nat) :
    arity? (room + 2) (.class_ k) m = .ok (some c.routine.params.length) m := by
  show (findMethod initName k >>= _ : Eval (Option Nat)) m = _
  rw [Eval.bind_ok (hc ▸ findMethod_ok initName k m)]
  rfl

/-- A class without an initializer takes no arguments. -/
theorem arity_plain {k : Nat} (hc : findMethod? m.classes initName k = none) (room : Nat) :
    arity? (room + 2) (.class_ k) m = .ok (some 0) m := by
  show (findMethod initName k >>= _ : Eval (Option Nat)) m = _
  rw [Eval.bind_ok (hc ▸ findMethod_ok initName k m)]
  rfl

/-- The number of parameters is looked up without an effect. -/
theorem safe_arity {callee : Value} (h : Inv w m) (hc : m.Valid callee) :
    Safe w (arity? room callee) m fun k m' => m' = m ∧ arity? room callee m = .ok k m := by
  have hsame {k : Option Nat} (hk : arity? room callee m = .ok k m) :
      Safe w (arity? room callee) m fun k m' => m' = m ∧ arity? room callee m = .ok k m :=
    Safe.of_ok hk (Stays.refl h) ⟨rfl, hk⟩
  cases callee with
  | function id => exact hsame (arity_function (Array.getElem?_eq_getElem hc) room)
  | class_ k =>
    match room with
    | 0 | 1 => exact ⟨Stays.refl h, trivial⟩
    | room + 2 =>
      cases hf : findMethod? m.classes initName k with
      | some method => exact hsame (arity_class hf room)
      | none => exact hsame (arity_plain hf room)
  | _ => exact hsame rfl

/-- A call is checked without an effect. -/
theorem safe_checkCall {paren : Lexeme} {callee : Value} {count : Nat} (h : Inv w m) (hc : m.Valid callee) :
    Safe w (checkCall room paren callee count) m fun _ m' => m' = m ∧ arity? room callee m = .ok (some count) m := by
  refine Safe.bind (safe_arity h hc) fun k m' _ _ hk => ?_
  obtain ⟨rfl, hk⟩ := hk
  split
  next => exact Safe.fail h _ _
  next expected =>
    split
    next heq => exact Safe.pure h ⟨rfl, heq ▸ hk⟩
    next => exact Safe.fail h _ _

theorem valid_unary {op : Lexeme} {operand : Value} (h : Operator.unary op operand = .ok v) : m.Valid v := by
  unfold Operator.unary at h
  split at h <;> cases h <;> trivial

/-- An operator gives a string, a number, a truth value or its right operand. -/
theorem valid_binary {display : Value → String} {op : Lexeme} {left right : Value} (hr : m.Valid right)
    (h : Operator.binary display op left right = .ok v) : m.Valid v := by
  unfold Operator.binary at h
  split at h
  · cases h
    exact hr
  · cases h
    trivial
  · cases h
    trivial
  · unfold Operator.sum at h
    split at h <;> cases h <;> trivial
  · split at h
    · unfold Operator.arithmetic at h
      split at h
      case h_3 => split at h <;> cases h; trivial
      all_goals cases h; try trivial
    · cases h

end Lox
