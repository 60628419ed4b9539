/-
  Lox.Proofs.Run.Upheld — whatever tree is run with whatever distances, a founded machine
  stays founded, however the run ends (`upholds_topLevels`).

  `Upholds a m Q`: from `m`, if it is founded, the action `a` comes to a founded machine that
  extends it, and where it goes through, `Q` holds of its result. A result that stands for
  something that is there is all that the actions ask of each other, since new links are made
  of such results alone.
-/

import Lox.Proofs.Run.Founded

namespace Lox

variable {α β : Type} {m m' : Machine} {v : Value}

/-- What is read is in some environment. -/
theorem Store.cell_of_read {s : Store α} {i : Nat} {name : Lexeme} {u : α} (h : s.read i name = .ok u) :
    ∃ k, s.cell k name.text = some u := by
  cases hk : s.holder? name.text i with
  | none =>
    rw [read_none hk] at h
    cases h
  | some k =>
    rw [read_some hk] at h
    exact ⟨k, cell_of_valueIn h⟩

namespace Eval

/-- On a machine that is founded the action only continues it, and what it gives fulfils `Q`. -/
def Upholds (a : Eval α) (m : Machine) (Q : α → Machine → Prop) : Prop :=
  m.Founded → Continues m (final a m) ∧ ∀ v m', a m = .ok v m' → Q v m'

/-- The value stands for something that is there. -/
def Gives (v : Value) (m : Machine) : Prop := m.Valid v

variable {a : Eval α} {f : α → Eval β} {Q : α → Machine → Prop} {R : β → Machine → Prop}

/-! ## Sequences of actions -/

theorem Upholds.ok {u : α} (h : Upholds a m Q) (hm : m.Founded) (ha : a m = .ok u m') : Continues m m' ∧ Q u m' := by
  obtain ⟨hc, hQ⟩ := h hm
  rw [final_ok ha] at hc
  exact ⟨hc, hQ u m' ha⟩

theorem Upholds.of_ok {u : α} (ha : a m = .ok u m') (h : m.Founded → Continues m m' ∧ Q u m') : Upholds a m Q := by
  intro hm
  obtain ⟨hc, hQ⟩ := h hm
  refine ⟨by rwa [final_ok ha], fun u' m'' hok => ?_⟩
  rw [ha] at hok
  cases hok
  exact hQ

/-- What only looks at the machine. -/
theorem Upholds.of_same (hsame : final a m = m) (hQ : m.Founded → ∀ u, a m = .ok u m → Q u m) : Upholds a m Q := by
  refine fun hm => ⟨by rw [hsame]; exact .refl hm, fun u m' hok => ?_⟩
  obtain rfl : m' = m := (final_ok hok).symm.trans hsame
  exact hQ hm u hok

theorem upholds_pure {u : α} (hu : Q u m) : Upholds (pure u) m Q := .of_ok rfl fun hm => ⟨.refl hm, hu⟩

theorem upholds_throw (stop : Stop) : Upholds (throw stop) m Q := .of_same rfl fun _ _ hok => by cases hok

/-- Two actions one behind the other, the second from whatever the first one leaves. -/
theorem Upholds.bind (h : Upholds a m Q) (hf : ∀ u m', Continues m m' → Q u m' → Upholds (f u) m' R) :
    Upholds (a >>= f) m R := by
  intro hm
  cases ha : a m with
  | ok u m' =>
    obtain ⟨hc, hu⟩ := h.ok hm ha
    obtain ⟨hc', hR⟩ := hf u m' hc hu hc.founded
    rw [final_bind_ok ha]
    exact ⟨hc.trans hc', fun w m'' hok => hR w m'' (bind_ok ha f ▸ hok)⟩
  | error stop m' =>
    have hc := (h hm).1
    rw [final_error ha] at hc
    rw [final_error (bind_error ha f)]
    refine ⟨hc, fun w m'' hok => ?_⟩
    rw [bind_error ha] at hok
    cases hok

theorem Upholds.of_eq {b : Eval α} (h : Upholds b m Q) (hab : a m = b m) : Upholds a m Q := by
  intro hm
  obtain ⟨hc, hQ⟩ := h hm
  rw [final_congr hab]
  exact ⟨hc, fun u m' hok => hQ u m' (hab ▸ hok)⟩

theorem Upholds.map {g : α → β} (h : Upholds a m Q) (hg : ∀ u m', Q u m' → R (g u) m') :
    Upholds (do return g (← a)) m R :=
  h.bind fun u m' _ hu => upholds_pure (hg u m' hu)

/-- What follows comes to something that extends what is there before it. -/
theorem Upholds.then (h : Upholds a m Q) (hm : m.Founded) (hf : ∀ u m', Continues m m' → Q u m' → Upholds (f u) m' R) :
    Extends (final a m) (final (a >>= f) m) := by
  cases ha : a m with
  | ok u m' =>
    obtain ⟨hc, hu⟩ := h.ok hm ha
    rw [final_ok ha, final_bind_ok ha]
    exact (hf u m' hc hu hc.founded).1.kept
  | error stop m' =>
    rw [final_error ha, final_error (bind_error ha f)]
    exact .refl m'

/-- An action goes on from where it begins, and what follows goes on from where it ends. -/
theorem Upholds.onward (h : Upholds a m Q) (hm : m.Founded)
    (hf : ∀ u m', Continues m m' → Q u m' → Upholds (f u) m' R) :
    Continues m (final a m) ∧ Continues (final a m) (final (a >>= f) m) :=
  ⟨(h hm).1, ((h.bind hf) hm).1.founded, h.then hm hf⟩

/-- Reading the machine. -/
theorem Upholds.get {f : Machine → Eval β} (h : Upholds (f m) m R) : Upholds (MonadState.get >>= f) m R := h

theorem upholds_ofExcept {x : Except Fault α} (hx : m.Founded → ∀ u, x = .ok u → Q u m) :
    Upholds (Eval.ofExcept x) m Q := by
  cases x with
  | ok u => exact .of_ok rfl fun hm => ⟨.refl hm, hx hm u rfl⟩
  | error fault => exact upholds_throw _

theorem upholds_deeper {p : Nat → Eval α} (h : ∀ left, Upholds (p left) m Q) (room : Nat) :
    Upholds (deeper room p) m Q := by
  cases room with
  | zero => exact upholds_throw _
  | succ left => exact h left

theorem Upholds.needs (h : Upholds a m Q) (levels room : Nat) : Upholds (needs levels room a) m Q := by
  induction levels generalizing room with
  | zero => exact h
  | succ levels ih => exact upholds_deeper ih room

theorem upholds_orFail {x : Except Fault α} (hx : m.Founded → ∀ u, x = .ok u → Q u m) (room : Nat) :
    Upholds (orFail room x) m Q := by
  cases x with
  | ok u => exact .of_ok rfl fun hm => ⟨.refl hm, hx hm u rfl⟩
  | error fault => exact (upholds_throw _).needs 1 room

theorem upholds_ofOperator {x : Except RuntimeError α} (hx : ∀ u, x = .ok u → Q u m) (room : Nat) :
    Upholds (ofOperator room x) m Q := by
  cases x with
  | ok u => exact upholds_pure (hx u rfl)
  | error error => exact (upholds_throw _).needs 1 room

/-- A call that comes to the end of the stack leaves the machine as it is by then. -/
theorem Upholds.catchStack (h : Upholds a m Q) (paren : Lexeme) : Upholds (catchStack paren a) m Q := by
  intro hm
  obtain ⟨hc, hQ⟩ := h hm
  rw [final_catchStack]
  refine ⟨hc, fun u m' hok => ?_⟩
  rcases catchStack_cases paren a m with hsame | ⟨m₁, -, hcaught⟩
  · exact hQ u m' (hsame ▸ hok)
  · rw [hcaught] at hok
    cases hok

theorem upholds_deref {x : Option α} (hx : m.Founded → ∀ u, x = some u → Q u m) : Upholds (deref x) m Q := by
  cases x with
  | some u => exact .of_ok rfl fun hm => ⟨.refl hm, hx hm u rfl⟩
  | none => exact upholds_throw _

theorem final_inside (env : Nat) (a : Eval α) (m : Machine) :
    final (inside env a) m = { final a { m with current := env } with current := m.current } := by
  unfold final inside
  cases a { m with current := env } <;> rfl

/-- In another environment that is there, for results that have nothing to do with it. -/
theorem Upholds.inside {env : Nat} (henv : m.Founded → env < m.store.size) (h : Upholds a { m with current := env } Q)
    (hQ : ∀ u m' k, Q u m' → Q u { m' with current := k }) : Upholds (inside env a) m Q := by
  intro hm
  have henter := continues_inEnv hm (henv hm)
  obtain ⟨hc, hu⟩ := h henter.founded
  have hdone := henter.trans hc
  refine ⟨?_, fun u m' hok => ?_⟩
  · rw [final_inside]
    exact hdone.trans (continues_inEnv hdone.founded (Nat.lt_of_lt_of_le hm.current hdone.kept.size))
  · obtain ⟨m₁, ha, rfl⟩ := of_inside_ok hok
    exact hQ u m₁ m.current (hu u m₁ ha)

theorem gives_inEnv (u : Value) (m : Machine) (k : Nat) (h : Gives u m) : Gives u { m with current := k } :=
  h.extends (grows_inEnv m k).extends

theorem returns_inEnv (done : Completion) (m : Machine) (k : Nat) (h : Returns done m) :
    Returns done { m with current := k } :=
  fun u hu => gives_inEnv u m k (h u hu)

/-! ## Effects -/

theorem upholds_print (line : String) : Upholds (print line) m fun _ _ => True :=
  .of_ok rfl fun hm => ⟨continues_same hm rfl rfl rfl rfl hm.current, trivial⟩

theorem upholds_printValue (room : Nat) (v : Value) : Upholds (printValue room v) m fun _ _ => True :=
  Upholds.needs (.get (upholds_print _)) _ room

theorem upholds_readClock (host : Host) : Upholds (readClock host) m Gives :=
  .of_ok rfl fun hm => ⟨continues_same hm rfl rfl rfl rfl hm.current, trivial⟩

theorem upholds_newEnvironment {values : Bindings Value} {enclosing : Nat}
    (hvalues : ∀ x v, values.get? x = some v → m.Valid v) (henclosing : m.Founded → enclosing < m.store.size) :
    Upholds (newEnvironment values enclosing) m fun env m' => env < m'.store.size :=
  .of_ok rfl fun hm => ⟨continues_push hm hvalues (henclosing hm), by
    show m.store.size < (m.store.push values (some enclosing)).size
    simp⟩

theorem upholds_define (name : String) (hv : m.Valid v) : Upholds (define name v) m fun _ _ => True :=
  .of_ok rfl fun hm => ⟨continues_define hm hv m.current name, trivial⟩

theorem upholds_assignIn (room env : Nat) (name : Lexeme) (hv : m.Valid v) :
    Upholds (assignIn room env name v) m fun _ _ => True :=
  .get <| (upholds_orFail (Q := fun _ m' => m' = m) (fun _ _ _ => rfl) room).bind fun k _ _ hsame =>
    .of_ok rfl fun hm => ⟨continues_define hm (hsame ▸ hv) k name.text, trivial⟩

theorem upholds_assignAt (d : Int) (name : String) (hv : m.Valid v) : Upholds (assignAt d name v) m fun _ _ => True :=
  .get <| (upholds_ofExcept (Q := fun _ m' => m' = m) fun _ _ _ => rfl).bind fun k _ _ hsame =>
    .of_ok rfl fun hm => ⟨continues_define hm (hsame ▸ hv) k name, trivial⟩

theorem upholds_assign (room : Nat) (target : Reference) (hv : m.Valid v) :
    Upholds (Eval.assign room target v) m fun _ _ => True := by
  cases hd : m.distances[target.slot]? with
  | some d => exact Upholds.of_eq ((upholds_assignAt d _ hv).needs 2 room) (assign_local hd room)
  | none =>
    exact Upholds.of_eq (upholds_deeper (fun left => upholds_assignIn left globalEnv _ hv) room) (assign_global hd room)

theorem upholds_readAt (d : Int) (name : String) : Upholds (readAt d name) m Gives := by
  refine .get (upholds_ofExcept fun hm u hu => ?_)
  obtain ⟨k, hk⟩ := Store.cell_of_readAt hu
  exact hm.cells k name u hk

/-- What is read is a value of the machine. -/
theorem upholds_read (room : Nat) (target : Reference) : Upholds (Eval.read room target) m Gives := by
  refine .of_same (final_read room target m) fun hm u hu => ?_
  obtain ⟨-, hread⟩ := read_ok hu
  have hread := hread _ rfl
  cases hd : m.distances[target.slot]? with
  | some d =>
    rw [hd] at hread
    obtain ⟨k, hk⟩ := Store.cell_of_readAt hread
    exact hm.cells k _ u hk
  | none =>
    rw [hd] at hread
    obtain ⟨k, hk⟩ := Store.cell_of_read hread
    exact hm.cells k _ u hk

theorem upholds_newFunction {c : Closure} (hc : m.Founded → c.env < m.store.size) : Upholds (newFunction c) m Gives :=
  .of_ok rfl fun hm => ⟨continues_newFunction hm (hc hm), by
    show m.closures.size < (m.closures.push c).size
    simp⟩

theorem upholds_setField (id : Nat) (name : String) (hv : m.Valid v) : Upholds (setField id name v) m fun _ _ => True :=
  .of_ok rfl fun hm => ⟨continues_setField hm hv id name, trivial⟩

/-- A method that is found was declared in an environment. -/
theorem upholds_findMethod (name : String) (k : Nat) :
    Upholds (findMethod name k) m fun found m' => ∀ f, found = some f → f.env < m'.store.size := by
  refine .of_same rfl fun hm found hfound f hf => ?_
  subst hf
  rw [findMethod_ok] at hfound
  injection hfound with hfound
  obtain ⟨j, c, hc, hx⟩ := findMethod?_found hfound
  exact hm.methods j c name f hc hx

theorem upholds_bindThis {method : Closure} {id : Nat} (henv : method.env < m.store.size)
    (hid : id < m.instances.size) :
    Upholds (bindThis method id) m fun c m' => c.env < m'.store.size := by
  refine (upholds_newEnvironment (fun x u hu => ?_) fun _ => henv).map fun env m' h => h
  rw [Bindings.get?_single] at hu
  split at hu <;> cases hu
  exact hid

theorem upholds_boundMethod {method : Closure} {id : Nat} (henv : method.env < m.store.size)
    (hid : id < m.instances.size) :
    Upholds (boundMethod method id) m Gives :=
  (upholds_bindThis henv hid).bind fun _ _ _ hc => upholds_newFunction fun _ => hc

/-- A property is a value of the machine, or a method that is bound. -/
theorem upholds_property (room : Nat) (object : Value) (name : Lexeme) :
    Upholds (property room object name) m Gives := by
  cases object with
  | instance_ id =>
    refine .get ((upholds_deref (Q := fun i m' => m' = m ∧ m.instances[id]? = some i) fun _ i hi => ⟨rfl, hi⟩).bind
      fun i m' hc hi => ?_)
    obtain ⟨rfl, hi⟩ := hi
    split
    next value hvalue => exact upholds_pure (hc.founded.fields id i _ value hi hvalue)
    next =>
      refine ((upholds_findMethod name.text i.class_).needs 2 room).bind fun found m'' hc' hfound => ?_
      cases found with
      | some method =>
        have hid := (Array.getElem?_eq_some_iff.mp hi).1
        exact (upholds_boundMethod (hfound method rfl) (Nat.lt_of_lt_of_le hid hc'.kept.instances)).needs 3 room
      | none => exact upholds_throw _
  | _ => exact upholds_throw _

theorem upholds_fieldOwner (object : Value) (name : Lexeme) : Upholds (fieldOwner object name) m fun _ _ => True := by
  cases object with
  | instance_ id => exact upholds_pure trivial
  | _ => exact upholds_throw _

/-- A method of the superclass is bound to its receiver. -/
theorem upholds_superMethod (room : Nat) (keyword : Reference) (method : Lexeme) :
    Upholds (superMethod room keyword method) m Gives := by
  refine Upholds.needs (Upholds.bind (Q := fun _ _ => True) (.of_same rfl fun _ _ _ => trivial) fun d m₁ _ _ => ?_) 2
    room
  cases d with
  | none => exact upholds_throw _
  | some d =>
    refine (upholds_readAt d superName).bind fun parent m₂ _ _ => ?_
    refine (upholds_readAt (d - 1) thisName).bind fun receiver m₃ _ hid => ?_
    split
    next k id _ =>
      refine (upholds_findMethod method.text k).bind fun found m₄ hc hfound => ?_
      cases found with
      | some found => exact upholds_boundMethod (hfound found rfl) (Nat.lt_of_lt_of_le hid hc.kept.instances)
      | none => exact upholds_throw _
    next => exact upholds_throw _

/-- A call is checked without an effect. -/
theorem upholds_checkCall (room : Nat) (paren : Lexeme) (callee : Value) (count : Nat) :
    Upholds (checkCall room paren callee count) m fun _ _ => True := by
  have harity : Upholds (arity? room callee) m fun _ _ => True := by
    cases callee with
    | function id => exact .get ((upholds_deref (Q := fun _ _ => True) fun _ _ _ => trivial).map fun _ _ _ => trivial)
    | class_ k =>
      refine ((upholds_findMethod initName k).needs 2 room).bind fun found _ _ _ => ?_
      cases found <;> exact upholds_pure trivial
    | _ => exact upholds_pure trivial
  refine harity.bind fun expected m' _ _ => ?_
  cases expected with
  | none => exact upholds_throw _
  | some expected =>
    show Upholds (if count = expected then pure () else fail paren (.wrongArity expected count)) m' _
    split
    · exact upholds_pure trivial
    · exact upholds_throw _

theorem upholds_binary (room : Nat) (op : Lexeme) (left : Value) {right : Value} (hr : m.Valid right) :
    Upholds (binary room op left right) m Gives :=
  upholds_deeper (fun room => Upholds.needs (.get (upholds_ofOperator (fun _ hu => valid_binary hr hu) room)) _ room)
    room

/-! ## Expressions -/

/-- Calls, of what is there with what is there. -/
def EntersUpheld (enter : Enter) : Prop :=
  ∀ ⦃m : Machine⦄ (room : Nat) (paren : Lexeme) (callee : Value) (values : List Value), m.Valid callee →
    (∀ v ∈ values, m.Valid v) → Upholds (enter room paren callee values) m Gives

section Trees

variable {enter : Enter} {host : Host}

/-- A call whose callee and arguments have been evaluated. -/
theorem upholds_entered (he : EntersUpheld enter) (room : Nat) (paren : Lexeme) {callee : Value} {values : List Value}
    (hcallee : m.Valid callee) (hvs : ∀ v ∈ values, m.Valid v) :
    Upholds (do checkCall room paren callee values.length; enter room paren callee values) m Gives :=
  (upholds_checkCall room paren callee values.length).bind fun _ _ hc _ =>
    he room paren callee values (hcallee.extends hc.kept) fun v hv => (hvs v hv).extends hc.kept

mutual

/-- Expressions, by recursion on the tree. -/
theorem upholds_expr (he : EntersUpheld enter) : ∀ e room {m}, Upholds (expr enter room e) m Gives
  | e, 0, _ => by
    rw [expr_zero]
    exact upholds_throw _
  | .literal value, _ + 1, _ => upholds_pure (by cases value <;> trivial)
  | .group inner, room + 1, _ => upholds_expr he inner room
  | .unary _ operand, room + 1, _ =>
    (upholds_expr he operand room).bind fun _ _ _ _ => upholds_ofOperator (fun _ hu => valid_unary hu) room
  | .binary left op right, room + 1, _ =>
    (upholds_expr he left room).bind fun _ _ _ _ => (upholds_expr he right room).bind fun _ _ _ hb =>
      upholds_binary room op _ hb
  | .logical left op right, room + 1, _ => by
    refine (upholds_expr he left room).bind fun a m' _ ha => ?_
    show Upholds (if isDecided op a then pure a else expr enter room right) m' Gives
    split
    · exact upholds_pure ha
    · exact upholds_expr he right room
  | .ternary cond yes no, room + 1, _ => by
    refine (upholds_expr he cond room).bind fun c m' _ _ => ?_
    show Upholds (if c.isTruthy then expr enter room yes else expr enter room no) m' Gives
    split
    · exact upholds_expr he yes room
    · exact upholds_expr he no room
  | .ref target, room + 1, _ => upholds_read room target
  | .assign target value, room + 1, _ =>
    (upholds_expr he value room).bind fun _ _ _ hv =>
      (upholds_assign room target hv).bind fun _ _ hc _ => upholds_pure (hv.extends hc.kept)
  | .call callee paren args, room + 1, _ =>
    upholds_deeper (fun room => (upholds_expr he callee room).bind fun _ _ _ hf =>
      (upholds_exprs he args room).bind fun _ _ hc hvs => upholds_entered he room paren (hf.extends hc.kept) hvs) room
  | .get object name, room + 1, _ => (upholds_expr he object room).bind fun o _ _ _ => upholds_property room o name
  | .set object name value, room + 1, _ =>
    (upholds_expr he object room).bind fun o _ _ _ => (upholds_fieldOwner o name).bind fun id _ _ _ =>
      (upholds_expr he value room).bind fun _ _ _ hv => (upholds_setField id name.text hv).bind fun _ _ hc _ =>
        upholds_pure (hv.extends hc.kept)
  | .this keyword, room + 1, _ => upholds_read room keyword
  | .super keyword method, room + 1, _ => upholds_superMethod room keyword method

theorem upholds_exprs (he : EntersUpheld enter) :
    ∀ es room {m}, Upholds (exprs enter room es) m fun vs m' => ∀ v ∈ vs, m'.Valid v
  | [], _, _ => upholds_pure fun _ hv => by cases hv
  | e :: rest, room, _ =>
    (upholds_expr he e room).bind fun _ _ _ hv => (upholds_exprs he rest room).bind fun _ _ hc hvs =>
      upholds_pure fun u hu => by
        rcases List.mem_cons.mp hu with rfl | hu
        · exact hv.extends hc.kept
        · exact hvs u hu

end

theorem upholds_exprOpt (he : EntersUpheld enter) (e : Option Expr) (room : Nat) :
    Upholds (exprOpt enter room e) m Gives := by
  cases e with
  | none => exact upholds_pure trivial
  | some e => exact upholds_expr he e room

theorem upholds_test (he : EntersUpheld enter) (e : Expr) (room : Nat) :
    Upholds (test enter room e) m fun _ _ => True :=
  (upholds_expr he e room).map fun _ _ _ => trivial

end Trees

/-! ## Classes -/

theorem upholds_superclassValue (room : Nat) (parent : Reference) :
    Upholds (superclassValue room parent) m fun k m' => k < m'.classes.size := by
  refine upholds_deeper (fun room => (upholds_read room parent).bind fun v m' _ hv => ?_) room
  cases v with
  | class_ k => exact upholds_pure hv
  | _ => exact upholds_throw _

theorem upholds_parent (room : Nat) (superclass : Option Reference) :
    Upholds (superclass.mapM (superclassValue room)) m fun parent m' => ∀ k, parent = some k → k < m'.classes.size := by
  cases superclass with
  | none => exact upholds_pure fun _ hk => by cases hk
  | some parent =>
    refine (upholds_superclassValue room parent).map fun k m' hk j hj => ?_
    cases hj
    exact hk

/-- The first step of a class: its name is declared. -/
def nameClass (room : Nat) (name : Lexeme) (superclass : Option Reference) : Eval (Option Nat) := do
  let parent ← superclass.mapM (superclassValue room)
  needs 1 room (define name.text .nil)
  return parent

/-- The second step, for a subclass: into the environment that holds its superclass. -/
def enterSuper (parent : Option Nat) : Eval (Option Nat × Nat) := do
  let before := (← get).current
  match parent with
  | none => pure ()
  | some k =>
    moveTo (← newEnvironment ∅ before)
    define superName (.class_ k)
  return (parent, before)

/-- The third step: the class is made with its methods. -/
def addClass (name : Lexeme) (methods : List Routine) : Option Nat × Nat → Eval (Value × Nat)
  | (parent, before) => do
    let made ← newClass ⟨name.text, parent, methodTable (← get).current methods⟩
    return (made, before)

/-- The last step: the environment before is taken up again and the name gets its class. -/
def leaveClass (room : Nat) (name : Lexeme) : Value × Nat → Eval Unit
  | (made, before) => do
    moveTo before
    assignIn (room - 1) (← get).current name made

def openClass (room : Nat) (name : Lexeme) (superclass : Option Reference) : Eval (Option Nat × Nat) :=
  nameClass room name superclass >>= enterSuper

def makeClass (room : Nat) (name : Lexeme) (superclass : Option Reference) (methods : List Routine) :
    Eval (Value × Nat) :=
  openClass room name superclass >>= addClass name methods

theorem throw_bind (stop : Stop) (f : α → Eval β) : (throw stop >>= f : Eval β) = throw stop := rfl

/-- A class is declared in the steps that may each be the last one. -/
theorem declareClass_steps (room : Nat) (name : Lexeme) (superclass : Option Reference) (methods : List Routine) :
    declareClass room name superclass methods = makeClass room name superclass methods >>= leaveClass room name := by
  rw [declareClass_eq]
  unfold declareClassInSteps makeClass openClass nameClass enterSuper
  simp only [bind_assoc, pure_bind]
  refine bind_congr fun parent => ?_
  cases room with
  | zero => simp only [needs, deeper, throw_bind]
  | succ left =>
    simp only [needs, deeper]
    refine bind_congr fun _ => bind_congr fun _ => ?_
    cases parent <;> simp only [addClass, leaveClass, bind_assoc, pure_bind, Nat.add_sub_cancel]

theorem upholds_moveTo {env : Nat} (henv : m.Founded → env < m.store.size) : Upholds (moveTo env) m fun _ _ => True :=
  .of_ok rfl fun hm => ⟨continues_inEnv hm (henv hm), trivial⟩

/-- The superclass is there, and so is the environment to go back to. -/
def SuperEntered (opened : Option Nat × Nat) (m : Machine) : Prop :=
  (∀ k, opened.1 = some k → k < m.classes.size) ∧ opened.2 < m.store.size

/-- The class is there, and so is the environment to go back to. -/
def ClassMade (made : Value × Nat) (m : Machine) : Prop := Gives made.1 m ∧ made.2 < m.store.size

theorem upholds_nameClass (room : Nat) (name : Lexeme) (superclass : Option Reference) :
    Upholds (nameClass room name superclass) m fun parent m' => ∀ k, parent = some k → k < m'.classes.size :=
  (upholds_parent room superclass).bind fun _ _ _ hparent =>
    ((upholds_define (v := .nil) name.text trivial).needs 1 room).bind fun _ _ hc _ =>
    upholds_pure fun k hk => Nat.lt_of_lt_of_le (hparent k hk) (size_le_of_kept hc.kept.classes)

/-- The environment of `super` is younger than the one around it. -/
theorem upholds_enterSuper {parent : Option Nat} (hm : m.Founded)
    (hparent : ∀ k, parent = some k → k < m.classes.size) :
    Upholds (enterSuper parent) m SuperEntered := by
  refine .get ?_
  cases parent with
  | none => exact upholds_pure ⟨hparent, hm.current⟩
  | some k =>
    refine (upholds_newEnvironment valid_empty fun _ => hm.current).bind fun env m₁ hc₁ henv => ?_
    refine (upholds_moveTo fun _ => henv).bind fun _ m₂ hc₂ _ => ?_
    have hk : m₂.Valid (.class_ k) := Machine.Valid.extends (hparent k rfl) (hc₁.trans hc₂).kept
    refine (upholds_define superName hk).bind fun _ m₃ hc₃ _ => upholds_pure ⟨fun j hj => ?_, ?_⟩
    · cases hj
      exact Machine.Valid.extends hk hc₃.kept
    · exact Nat.lt_of_lt_of_le hm.current ((hc₁.trans hc₂).trans hc₃).kept.size

theorem upholds_openClass (room : Nat) (name : Lexeme) (superclass : Option Reference) :
    Upholds (openClass room name superclass) m SuperEntered :=
  (upholds_nameClass room name superclass).bind fun _ _ hc hparent => upholds_enterSuper hc.founded hparent

/-- A superclass is older than the class. -/
theorem upholds_addClass (name : Lexeme) (methods : List Routine) {opened : Option Nat × Nat} (hm : m.Founded)
    (hopened : SuperEntered opened m) : Upholds (addClass name methods opened) m ClassMade := by
  obtain ⟨parent, before⟩ := opened
  let c : Class := ⟨name.text, parent, methodTable m.current methods⟩
  have hmethods : ∀ x f, c.methods.get? x = some f → f.env < m.store.size := by
    intro x f hf
    rw [(methodTable_get hf).2]
    exact hm.current
  have hmade : Upholds (newClass c) m fun made m' => Gives made m' ∧ before < m'.store.size :=
    .of_ok rfl fun hm => ⟨continues_newClass hm hopened.1 hmethods, by
      show m.classes.size < (m.classes.push c).size
      simp, hopened.2⟩
  exact .get (hmade.map fun made m' h => h)

theorem upholds_makeClass (room : Nat) (name : Lexeme) (superclass : Option Reference) (methods : List Routine) :
    Upholds (makeClass room name superclass methods) m ClassMade :=
  (upholds_openClass room name superclass).bind fun _ _ hc hopened => upholds_addClass name methods hc.founded hopened

theorem upholds_leaveClass (room : Nat) (name : Lexeme) {made : Value × Nat} (hmade : ClassMade made m) :
    Upholds (leaveClass room name made) m fun _ _ => True :=
  (upholds_moveTo fun _ => hmade.2).bind fun _ m' hc _ =>
    .get (upholds_assignIn (room - 1) m'.current name (hmade.1.extends hc.kept))

theorem upholds_declareClass (room : Nat) (name : Lexeme) (superclass : Option Reference) (methods : List Routine) :
    Upholds (declareClass room name superclass methods) m fun _ _ => True := by
  rw [declareClass_steps]
  exact (upholds_makeClass room name superclass methods).bind fun _ _ _ hmade => upholds_leaveClass room name hmade

/-! ## Statements -/

theorem returns_normal : Returns .normal m := fun _ h => by cases h

/-- What is left of a round, and the rounds after it. -/
theorem upholds_afterBody {step : Eval Value} {again : Eval Completion} (hs : ∀ {m}, Upholds step m Gives)
    (hagain : ∀ {m}, Upholds again m Returns) (done : Completion) : Returns done m →
    Upholds (match done with
      | .broken => return .normal
      | .returned v => return .returned v
      | _ => do
        let _ ← step
        again) m Returns := by
  intro hdone
  cases done with
  | broken => exact upholds_pure returns_normal
  | returned v => exact upholds_pure hdone
  | normal | continued => exact hs.bind fun _ _ _ _ => hagain

theorem upholds_rounds {test : Eval Bool} {body : Eval Completion} {step : Eval Value}
    (ht : ∀ {m}, Upholds test m fun _ _ => True) (hb : ∀ {m}, Upholds body m Returns)
    (hs : ∀ {m}, Upholds step m Gives) : ∀ n {m}, Upholds (rounds test body step n) m Returns
  | 0, _ => upholds_throw _
  | n + 1, _ => by
    refine ht.bind fun truth _ _ _ => ?_
    cases truth with
    | false => exact upholds_pure returns_normal
    | true => exact hb.bind fun done _ _ hdone => upholds_afterBody hs (upholds_rounds ht hb hs n) done hdone

section Trees

variable {enter : Enter} {host : Host}

mutual

/-- Statements, by recursion on the tree. -/
theorem upholds_stmt (he : EntersUpheld enter) : ∀ s room {m}, Upholds (stmt host enter room s) m Returns
  | s, 0, _ => by
    rw [stmt_zero]
    exact upholds_throw _
  | .expr e, room + 1, _ => (upholds_expr he e room).bind fun _ _ _ _ => upholds_pure returns_normal
  | .print_ e, room + 1, _ =>
    (upholds_expr he e room).bind fun v _ _ _ => (upholds_printValue room v).bind fun _ _ _ _ =>
      upholds_pure returns_normal
  | .var name init, room + 1, _ =>
    (upholds_exprOpt he init room).bind fun _ _ _ hv =>
      ((upholds_define name.text hv).needs 1 room).bind fun _ _ _ _ => upholds_pure returns_normal
  | .block body, room + 1, m => by
    refine upholds_deeper (fun room => .get ((upholds_newEnvironment valid_empty fun hm => hm.current).bind
      fun env _ _ henv => ?_)) room
    exact (upholds_stmts he body room).inside (fun _ => henv) returns_inEnv
  | .cond c yes no, room + 1, _ => by
    refine (upholds_test he c room).bind fun truth _ _ _ => ?_
    cases truth with
    | true => exact upholds_stmt he yes room
    | false => exact upholds_stmtOpt he no room
  | .loop c body step, room + 1, _ =>
    upholds_deeper (fun room => upholds_rounds (upholds_test he c room) (upholds_stmt he body room)
      (upholds_exprOpt he step room) _) room
  | .break_ _, _ + 1, _ => upholds_pure fun _ h => by cases h
  | .continue_ _, _ + 1, _ => upholds_pure fun _ h => by cases h
  | .fun_ routine, room + 1, _ =>
    Upholds.needs (.get ((upholds_newFunction fun hm => hm.current).bind fun _ _ _ hv =>
      (upholds_define routine.name.text hv).bind fun _ _ _ _ => upholds_pure returns_normal)) 1 room
  | .return_ _ value, room + 1, _ =>
    (upholds_exprOpt he value room).bind fun v _ _ hv => Upholds.needs (upholds_pure fun u hu => by
      cases hu
      exact hv) 1 room
  | .class_ name superclass methods, room + 1, _ =>
    upholds_deeper (fun room => (upholds_declareClass room name superclass methods).bind fun _ _ _ _ =>
      upholds_pure returns_normal) room

theorem upholds_stmts (he : EntersUpheld enter) : ∀ ss room {m}, Upholds (stmts host enter room ss) m Returns
  | [], _, _ => upholds_pure returns_normal
  | s :: rest, room, _ => by
    refine (upholds_stmt he s room).bind fun done _ _ hdone => ?_
    cases done with
    | normal => exact upholds_stmts he rest room
    | broken | continued | returned v => exact upholds_pure hdone

theorem upholds_stmtOpt (he : EntersUpheld enter) : ∀ s room {m}, Upholds (stmtOpt host enter room s) m Returns
  | none, _, _ => upholds_pure returns_normal
  | some s, room, _ => upholds_stmt he s room

end

theorem upholds_loop (host : Host) (he : EntersUpheld enter) (room : Nat) (e : Expr) (body : Stmt) (step : Option Expr)
    (left : Nat) :
    Upholds (rounds (test enter room e) (stmt host enter room body) (exprOpt enter room step) left) m Returns :=
  upholds_rounds (upholds_test he e room) (upholds_stmt he body room) (upholds_exprOpt he step room) left

end Trees

/-! ## Calls -/

/-- What a call gives when its body is done. -/
theorem upholds_result {c : Closure} (hc : c.env < m.store.size) (room : Nat) (done : Completion) : Returns done m →
    Upholds (if c.isInit then needs 2 room (inside c.env (readAt 0 thisName))
      else match done with
        | .returned v => return v
        | _ => return .nil) m Gives := by
  intro hdone
  split
  · exact ((upholds_readAt 0 thisName).inside (fun _ => hc) gives_inEnv).needs 2 room
  · cases done with
    | returned v => exact upholds_pure (hdone v rfl)
    | _ => exact upholds_pure trivial

theorem upholds_call {run : Nat → List Stmt → Eval Completion} (hrun : ∀ ss room {m}, Upholds (run room ss) m Returns)
    (room : Nat) {c : Closure} {values : List Value} (hc : c.env < m.store.size) (hvs : ∀ v ∈ values, m.Valid v) :
    Upholds (call run room c values) m Gives := by
  have harguments := arguments_valid c.routine.params ∅ hvs valid_empty
  refine upholds_deeper (fun room => upholds_deeper (fun inner => ?_) room) room
  refine (upholds_newEnvironment harguments fun _ => hc).bind fun env m₁ hc₁ henv => ?_
  refine ((hrun c.routine.body inner).inside (fun _ => henv) returns_inEnv).bind fun done m₂ hc₂ hdone => ?_
  exact upholds_result (Nat.lt_of_lt_of_le hc (hc₁.trans hc₂).kept.size) room done hdone

theorem upholds_newInstance (k : Nat) : Upholds (newInstance k) m fun id m' => id < m'.instances.size :=
  .of_ok rfl fun hm => ⟨continues_newInstance hm k, by
    show m.instances.size < (m.instances.push ⟨k, ∅⟩).size
    simp⟩

/-- A class is called through its initializer, if it has one. -/
theorem upholds_instantiate {run : Nat → List Stmt → Eval Completion}
    (hrun : ∀ ss room {m}, Upholds (run room ss) m Returns) (room k : Nat) {values : List Value}
    (hvs : ∀ v ∈ values, m.Valid v) : Upholds (instantiate run room k values) m Gives := by
  refine upholds_deeper (fun room => upholds_deeper (fun inner => ?_) room) room
  refine (upholds_newInstance k).bind fun id m₁ hc hid =>
    (upholds_findMethod initName k).bind fun found m₂ hc₁ hfound => ?_
  have hid₂ : id < m₂.instances.size := Nat.lt_of_lt_of_le hid hc₁.kept.instances
  cases found with
  | none => exact upholds_pure hid₂
  | some init =>
    refine ((upholds_bindThis (hfound init rfl) hid₂).needs 1 inner).bind fun c m₃ hc₂ hcenv => ?_
    have hvs₃ : ∀ v ∈ values, m₃.Valid v := fun v hv => (hvs v hv).extends ((hc.trans hc₁).trans hc₂).kept
    exact (upholds_call hrun room hcenv hvs₃).bind fun _ _ hc₃ _ =>
      upholds_pure (Nat.lt_of_lt_of_le hid₂ (hc₂.trans hc₃).kept.instances)

/-- By induction on the calls that are left. -/
theorem upholds_invoke (host : Host) (n : Nat) : EntersUpheld (invoke host n) := by
  -- on the calls that may still be open: the bodies of calls only make calls that are fewer
  induction n with
  | zero => exact fun _ _ _ _ _ _ _ => upholds_throw _
  | succ n ih =>
    intro m room paren callee values hcallee hvs
    refine Upholds.catchStack ?_ paren
    cases callee with
    | clock => exact (upholds_readClock host).needs 2 room
    | function id =>
      refine .get ((upholds_deref (Q := fun c m' => m' = m ∧ c.env < m.store.size)
        fun hm c hc => ⟨rfl, hm.closures id c hc⟩).bind fun c m' _ hc => ?_)
      obtain ⟨rfl, hc⟩ := hc
      exact upholds_call (upholds_stmts ih) room hc hvs
    | class_ k => exact upholds_instantiate (upholds_stmts ih) room k hvs
    | _ => exact upholds_throw _

/-! ## Programs -/

theorem upholds_echo (room : Nat) (v : Value) : Upholds (echo room v) m fun _ _ => True :=
  upholds_deeper (fun left => upholds_printValue left v) room

theorem upholds_topLevel (host : Host) (interactive : Bool) (s : Stmt) :
    Upholds (topLevel host interactive s) m fun _ _ => True := by
  have he := upholds_invoke host host.calls
  unfold topLevel
  split
  next e => exact (upholds_expr he e host.stack).bind fun v _ _ _ => upholds_echo host.stack v
  next name init =>
    exact (upholds_stmt he _ host.stack).bind fun _ _ _ _ => .get (upholds_echo host.stack _)
  next => exact (upholds_stmt he s host.stack).map fun _ _ _ => trivial

theorem upholds_topLevels (host : Host) (interactive : Bool) (ss : List Stmt) :
    Upholds (ss.forM (topLevel host interactive)) m fun _ _ => True := by
  induction ss generalizing m with
  | nil => exact upholds_pure trivial
  | cons s rest ih => exact (upholds_topLevel host interactive s).bind fun _ _ _ _ => ih

theorem final_interpret_eq (host : Host) (interactive : Bool) (p : List Stmt) (m : Machine) :
    final (interpret host interactive p) m
      = { final (p.forM (topLevel host interactive)) m with current := globalEnv } := by
  unfold final interpret
  cases p.forM (topLevel host interactive) m <;> rfl

theorem continues_interpret (hm : m.Founded) (host : Host) (interactive : Bool) (p : List Stmt) :
    Continues m (final (interpret host interactive p) m) := by
  have hc := (upholds_topLevels host interactive p hm).1
  rw [final_interpret_eq]
  exact hc.trans (continues_inEnv hc.founded hc.founded.globals.1)

end Eval

end Lox
