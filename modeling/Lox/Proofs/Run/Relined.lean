/-
  Lox.Proofs.Run.Relined — running takes no notice of lines: a program on other lines does
  on a machine whose objects are on other lines what the program does, and the errors it
  stops with are at the lines that their words have then (`execute_relined`).

  `Relined g φ p p'`: on a machine with other lines, `p'` does what `p` does on the machine,
  and gives what `p` gives, changed by `φ`. It holds of every effect and is kept by doing one
  thing after the other (`Relined.bind`), so it holds of expressions and statements by
  recursion on the tree, and of calls by induction on how many may be open, in whatever room
  there is. Nothing is asked of the machine.
-/

import Lox.Proofs.Tree.Shift
import Lox.Session

namespace Lox

/-! ## Objects, errors and machines on other lines -/

namespace Shift

variable (g : Shift)

def closure (c : Closure) : Closure := { c with routine := g.routine c.routine }

def methods (table : Bindings Closure) : Bindings Closure :=
  ⟨table.entries.map fun (name, c) => (name, g.closure c)⟩

def class_ (c : Class) : Class := { c with methods := g.methods c.methods }

def machine (m : Machine) : Machine :=
  { m with closures := m.closures.map g.closure, classes := m.classes.map g.class_ }

def runtimeError (e : RuntimeError) : RuntimeError := ⟨g.lexeme e.site, e.cause⟩

def fault : Fault → Fault
  | .runtime error => .runtime (g.runtimeError error)
  | fault => fault

def stop : Stop → Stop
  | .fault fault => .fault (g.fault fault)
  | .outOfStack => .outOfStack

def ending : Ending → Ending
  | .rejected errors => .rejected (errors.map g.diagnostic)
  | .stopped error => .stopped (g.runtimeError error)
  | .failed fault => .failed (g.fault fault)
  | .finished => .finished
  | .exhausted => .exhausted

theorem get?_methods (table : Bindings Closure) (x : String) :
    (g.methods table).get? x = (table.get? x).map g.closure :=
  Bindings.find_map x (fun _ => g.closure) table.entries

theorem set_methods (table : Bindings Closure) (x : String) (c : Closure) :
    (g.methods table).set x (g.closure c) = g.methods (table.set x c) :=
  congrArg Bindings.mk (Bindings.put_map g.closure x c table.entries)

@[simp] theorem text_name (r : Routine) : (g.routine r).name.text = r.name.text := by
  obtain ⟨name, params, body⟩ := r
  rfl

@[simp] theorem instances_machine (m : Machine) : (g.machine m).instances = m.instances := rfl

@[simp] theorem closure_machine (m : Machine) (id : Nat) :
    (g.machine m).closures[id]? = (m.closures[id]?).map g.closure := Array.getElem?_map ..

@[simp] theorem class_machine (m : Machine) (k : Nat) :
    (g.machine m).classes[k]? = (m.classes[k]?).map g.class_ := Array.getElem?_map ..

@[simp] theorem className_machine (m : Machine) (k : Nat) : (g.machine m).className k = m.className k := by
  unfold Machine.className
  rw [class_machine]
  cases m.classes[k]? <;> rfl

/-- A function, a class and an instance are shown with names, whatever their lines. -/
theorem display_machine (m : Machine) (v : Value) : (g.machine m).display v = m.display v := by
  cases v with
  | function id =>
    simp only [Machine.display, closure_machine]
    cases m.closures[id]? with
    | none => rfl
    | some c => simp only [Option.map_some, closure, text_name]
  | class_ k => exact className_machine g m k
  | instance_ id => simp only [Machine.display, instances_machine, className_machine]
  | bool b => cases b <;> rfl
  | nil | number x | string text | clock => rfl

end Shift

variable {α β γ δ : Type} {g : Shift}

/-- What is done is done on the other lines. -/
def relineResult (g : Shift) (φ : α → β) : EStateM.Result Stop Machine α → EStateM.Result Stop Machine β
  | .ok a m => .ok (φ a) (g.machine m)
  | .error stop m => .error (g.stop stop) (g.machine m)

/-- On the machine with other lines, the result with other lines. -/
def Relined (g : Shift) (φ : α → β) (p : Eval α) (p' : Eval β) : Prop :=
  ∀ m, p' (g.machine m) = relineResult g φ (p m)

open Eval

/-! ## Sequences of actions -/

theorem relined_pure {φ : α → β} {a : α} {b : β} (h : b = φ a) : Relined g φ (pure a) (pure b) := by
  subst h
  exact fun _ => rfl

/-- Two actions one behind the other, the second with what the first one gives. -/
theorem Relined.bind {φ : α → β} {ψ : γ → δ} {p : Eval α} {p' : Eval β} {f : α → Eval γ} {f' : β → Eval δ}
    (h : Relined g φ p p') (hf : ∀ a, Relined g ψ (f a) (f' (φ a))) : Relined g ψ (p >>= f) (p' >>= f') := by
  intro m
  have hm := h m
  show EStateM.bind p' f' (g.machine m) = relineResult g ψ (EStateM.bind p f m)
  unfold EStateM.bind
  rw [hm]
  cases p m with
  | ok a m₁ => exact hf a m₁
  | error stop m₁ => rfl

/-- Two actions that are followed by the same. -/
theorem Relined.map {φ : α → β} {ψ : γ → δ} {p : Eval α} {p' : Eval β} {f : α → γ} {f' : β → δ}
    (h : Relined g φ p p') (hf : ∀ a, f' (φ a) = ψ (f a)) :
    Relined g ψ (do return f (← p)) (do return f' (← p')) :=
  Relined.bind h fun a => relined_pure (hf a)

theorem relined_get : Relined g g.machine get get := fun _ => rfl

theorem relined_throw {φ : α → β} {stop stop' : Stop} (h : stop' = g.stop stop) :
    Relined g φ (throw stop) (throw stop') := by
  subst h
  exact fun _ => rfl

theorem relined_modify {f f' : Machine → Machine} (h : ∀ m, f' (g.machine m) = g.machine (f m)) :
    Relined g id (modify f) (modify f') := by
  intro m
  show EStateM.Result.ok () (f' (g.machine m)) = EStateM.Result.ok () (g.machine (f m))
  rw [h]

theorem relined_inside {φ : α → β} {p : Eval α} {p' : Eval β} (h : Relined g φ p p') (env : Nat) :
    Relined g φ (inside env p) (inside env p') := by
  intro m
  have hm : p' { g.machine m with current := env } = relineResult g φ (p { m with current := env }) :=
    h { m with current := env }
  unfold inside
  rw [hm]
  cases p { m with current := env } <;> rfl

/-! ## The stack -/

theorem relined_deeper {φ : α → β} {p : Nat → Eval α} {p' : Nat → Eval β} (h : ∀ room, Relined g φ (p room) (p' room))
    (room : Nat) : Relined g φ (deeper room p) (deeper room p') := by
  cases room with
  | zero => exact relined_throw rfl
  | succ room => exact h room

theorem relined_needs {φ : α → β} {p : Eval α} {p' : Eval β} (h : Relined g φ p p') (levels room : Nat) :
    Relined g φ (needs levels room p) (needs levels room p') := by
  induction levels generalizing room with
  | zero => exact h
  | succ levels ih => exact relined_deeper ih room

theorem relined_orFail {r r' : Except Fault α} (h : r' = r.mapError g.fault) (room : Nat) :
    Relined g id (orFail room r) (orFail room r') := by
  subst h
  cases r with
  | ok a => exact relined_pure rfl
  | error fault => exact relined_needs (relined_throw rfl) 1 room

theorem relined_ofOperator {r r' : Except RuntimeError α} (h : r' = r.mapError g.runtimeError) (room : Nat) :
    Relined g id (ofOperator room r) (ofOperator room r') := by
  refine relined_orFail ?_ room
  subst h
  cases r <;> rfl

theorem relined_catchStack {φ : α → β} {p : Eval α} {p' : Eval β} (h : Relined g φ p p') (paren : Lexeme) :
    Relined g φ (catchStack paren p) (catchStack (g.lexeme paren) p') := by
  intro m
  unfold catchStack
  rw [h m]
  cases p m with
  | ok a m₁ => rfl
  | error stop m₁ => cases stop <;> rfl

/-! ## Effects -/

theorem relined_fail {φ : α → β} (site : Lexeme) (cause : RuntimeCause) :
    Relined g φ (fail site cause) (fail (g.lexeme site) cause) := relined_throw rfl

theorem relined_deref {φ : α → β} (found : Option α) : Relined g φ (deref found) (deref (found.map φ)) := by
  cases found with
  | none => exact relined_throw rfl
  | some a => exact relined_pure rfl

theorem relined_ofExcept {r r' : Except Fault α} (h : r' = r.mapError g.fault) :
    Relined g id (Eval.ofExcept r) (Eval.ofExcept r') := by
  subst h
  cases r with
  | ok a => exact relined_pure rfl
  | error fault => exact relined_throw rfl

theorem relined_printValue (room : Nat) (v : Value) : Relined g id (printValue room v) (printValue room v) := by
  refine relined_needs (relined_get.bind fun m => ?_) v.textLevels room
  rw [Shift.display_machine]
  exact relined_modify fun _ => rfl

theorem relined_readClock (host : Host) : Relined g id (readClock host) (readClock host) := fun _ => rfl

/-! ### Environments -/

theorem relined_newEnvironment (values : Bindings Value) (enclosing : Nat) :
    Relined g id (newEnvironment values enclosing) (newEnvironment values enclosing) := fun _ => rfl

theorem relined_define (name : String) (value : Value) : Relined g id (define name value) (define name value) :=
  relined_modify fun _ => rfl

theorem Store.holder_lexeme (s : Store Value) (i : Nat) (name : Lexeme) :
    s.holder i (g.lexeme name) = (s.holder i name).mapError g.fault := by
  have htext : (g.lexeme name).text = name.text := rfl
  unfold Store.holder
  rw [htext]
  cases s.holder? name.text i <;> rfl

theorem relined_assignIn (room env : Nat) (name : Lexeme) (value : Value) :
    Relined g id (assignIn room env name value) (assignIn room env (g.lexeme name) value) := by
  refine relined_get.bind fun m => ?_
  refine (relined_orFail (Store.holder_lexeme m.store env name) room).bind fun k => ?_
  exact relined_modify fun _ => rfl

theorem Store.ancestor_fault (s : Store Value) (i : Nat) (d : Int) :
    s.ancestor i d = (s.ancestor i d).mapError g.fault := by
  unfold Store.ancestor
  cases s.ancestor? (Distances.hops d) i <;> rfl

theorem Store.valueIn_fault (s : Store Value) (k : Nat) (x : String) :
    s.valueIn k x = (s.valueIn k x).mapError g.fault := by
  unfold Store.valueIn
  cases (s.values? k).bind (·.get? x) <;> rfl

theorem relined_readAt (d : Int) (x : String) : Relined g id (readAt d x) (readAt d x) := by
  refine relined_get.bind fun m => relined_ofExcept ?_
  show m.store.readAt m.current d x = (m.store.readAt m.current d x).mapError g.fault
  unfold Store.readAt Store.ancestor
  cases m.store.ancestor? (Distances.hops d) m.current with
  | none => rfl
  | some k => exact Store.valueIn_fault m.store k x

theorem relined_assignAt (d : Int) (x : String) (value : Value) :
    Relined g id (assignAt d x value) (assignAt d x value) := by
  refine relined_get.bind fun m => ?_
  refine (relined_ofExcept (Store.ancestor_fault m.store m.current d)).bind fun k => ?_
  exact relined_modify fun _ => rfl

/-! ### References

No slot moves. -/

theorem slot_reference (hg : g.slots = 0) (r : Reference) : (g.reference r).slot = r.slot := by
  show r.slot + g.slots = r.slot
  rw [hg, Int.add_zero]

theorem relined_distance? (hg : g.slots = 0) (r : Reference) :
    Relined g id (distance? r) (distance? (g.reference r)) := by
  refine relined_get.map fun m => ?_
  rw [slot_reference hg]
  rfl

/-- A reference is read at its slot, whatever its line. -/
theorem relined_read (hg : g.slots = 0) (room : Nat) (r : Reference) :
    Relined g id (read room r) (read room (g.reference r)) := by
  refine relined_deeper (fun room => (relined_distance? hg r).bind fun d => ?_) room
  cases d with
  | some d => exact relined_needs (relined_readAt d r.name.text) 2 room
  | none =>
    refine relined_deeper (fun room => relined_get.bind fun m => relined_orFail ?_ room) room
    show m.store.read globalEnv (g.lexeme r.name) = (m.store.read globalEnv r.name).mapError g.fault
    unfold Store.read
    rw [Store.holder_lexeme]
    cases m.store.holder globalEnv r.name with
    | error fault => rfl
    | ok k => exact Store.valueIn_fault m.store k r.name.text

theorem relined_assign (hg : g.slots = 0) (room : Nat) (r : Reference) (value : Value) :
    Relined g id (assign room r value) (assign room (g.reference r) value) := by
  refine (relined_distance? hg r).bind fun d => ?_
  cases d with
  | some d => exact relined_needs (relined_assignAt d r.name.text value) 2 room
  | none => exact relined_deeper (fun room => relined_assignIn room globalEnv r.name value) room

/-! ### Objects -/

theorem relined_newFunction (c : Closure) : Relined g id (newFunction c) (newFunction (g.closure c)) := by
  intro m
  show EStateM.Result.ok (Value.function (m.closures.map g.closure).size)
    { g.machine m with closures := (m.closures.map g.closure).push (g.closure c) } = _
  rw [Array.size_map, ← Array.map_push]
  rfl

theorem relined_newClass (c : Class) : Relined g id (newClass c) (newClass (g.class_ c)) := by
  intro m
  show EStateM.Result.ok (Value.class_ (m.classes.map g.class_).size)
    { g.machine m with classes := (m.classes.map g.class_).push (g.class_ c) } = _
  rw [Array.size_map, ← Array.map_push]
  rfl

theorem relined_newInstance (k : Nat) : Relined g id (newInstance k) (newInstance k) := fun _ => rfl

theorem relined_setField (i : Nat) (x : String) (value : Value) :
    Relined g id (setField i x value) (setField i x value) := relined_modify fun _ => rfl

/-- Methods are found by their names, whatever their lines. -/
theorem findMethod?_map (classes : Array Class) (x : String) (k : Nat) :
    findMethod? (classes.map g.class_) x k = (findMethod? classes x k).map g.closure := by
  induction k using Nat.strongRecOn with
  | ind k ih =>
    rw [findMethod?, findMethod?, Array.getElem?_map]
    cases classes[k]? with
    | none => rfl
    | some c =>
      simp only [Option.map_some, Shift.class_, Shift.get?_methods]
      cases c.methods.get? x with
      | some method => rfl
      | none =>
        simp only [Option.map_none]
        cases c.superclass with
        | none => rfl
        | some parent =>
          by_cases hlt : parent < k
          · simp only [hlt, if_true, ih parent hlt]
          · simp only [hlt, if_false, Option.map_none]

theorem relined_findMethod (x : String) (k : Nat) :
    Relined g (Option.map g.closure) (findMethod x k) (findMethod x k) :=
  relined_get.map fun m => findMethod?_map m.classes x k

theorem relined_bindThis (method : Closure) (i : Nat) :
    Relined g g.closure (bindThis method i) (bindThis (g.closure method) i) :=
  (relined_newEnvironment (.single thisName (.instance_ i)) method.env).map fun _ => rfl

theorem relined_boundMethod (method : Closure) (i : Nat) :
    Relined g id (boundMethod method i) (boundMethod (g.closure method) i) :=
  (relined_bindThis method i).bind relined_newFunction

/-! ## Expressions -/

theorem unary_lexeme (op : Lexeme) (v : Value) :
    Operator.unary (g.lexeme op) v = (Operator.unary op v).mapError g.runtimeError := by
  obtain ⟨text, line⟩ := op
  unfold Operator.unary
  simp only [Shift.lexeme]
  split <;> rfl

theorem arithmetic_lexeme (op : Lexeme) (x y : Float) :
    Operator.arithmetic (g.lexeme op) x y = (Operator.arithmetic op x y).mapError g.runtimeError := by
  obtain ⟨text, line⟩ := op
  unfold Operator.arithmetic
  simp only [Shift.lexeme]
  split
  case h_3 => split <;> rfl
  all_goals rfl

/-- An operator acts by its text; its line is only in its errors. -/
theorem binary_lexeme (display : Value → String) (op : Lexeme) (a b : Value) :
    Operator.binary display (g.lexeme op) a b = (Operator.binary display op a b).mapError g.runtimeError := by
  unfold Operator.binary
  simp only [show (g.lexeme op).text = op.text from rfl]
  split
  case h_4 =>
    unfold Operator.sum
    split <;> rfl
  case h_5 =>
    split
    · exact arithmetic_lexeme op _ _
    · rfl
  all_goals rfl

theorem relined_binary (room : Nat) (op : Lexeme) (a b : Value) :
    Relined g id (binary room op a b) (binary room (g.lexeme op) a b) := by
  refine relined_deeper (fun room => ?_) room
  refine relined_needs (relined_get.bind fun m => relined_ofOperator ?_ room) (Operator.binaryLevels op a b) room
  rw [binary_lexeme, show (g.machine m).display = m.display from funext (Shift.display_machine g m)]

theorem length_params (c : Closure) : (g.closure c).routine.params.length = c.routine.params.length := by
  obtain ⟨⟨name, params, body⟩, env, isInit⟩ := c
  exact List.length_map ..

theorem relined_closure (i : Nat) :
    Relined g g.closure (do deref (← get).closures[i]?) (do deref (← get).closures[i]?) := by
  refine relined_get.bind fun m => ?_
  rw [Shift.closure_machine]
  exact relined_deref _

theorem relined_arity? (room : Nat) (v : Value) : Relined g id (arity? room v) (arity? room v) := by
  cases v with
  | function i => exact (relined_closure i).map fun c => congrArg some (length_params c)
  | class_ k =>
    refine (relined_needs (relined_findMethod initName k) 2 room).bind fun found => ?_
    cases found with
    | none => exact relined_pure rfl
    | some method => exact relined_pure (congrArg some (length_params method))
  | nil | bool b | number x | string text | clock | instance_ i => exact relined_pure rfl

/-- A call that is refused is refused at the line of its parenthesis. -/
theorem relined_checkCall (room : Nat) (paren : Lexeme) (callee : Value) (count : Nat) :
    Relined g id (checkCall room paren callee count) (checkCall room (g.lexeme paren) callee count) := by
  refine (relined_arity? room callee).bind fun arity => ?_
  cases arity with
  | none => exact relined_fail _ _
  | some expected =>
    show Relined g id (if count = expected then _ else _) (if count = expected then _ else _)
    split
    · exact relined_pure rfl
    · exact relined_fail _ _

/-- A property is looked up by its text. -/
theorem relined_property (room : Nat) (object : Value) (name : Lexeme) :
    Relined g id (property room object name) (property room object (g.lexeme name)) := by
  cases object with
  | instance_ i =>
    refine relined_get.bind fun m => ?_
    have hderef := relined_deref (g := g) (φ := id) m.instances[i]?
    rw [Option.map_id] at hderef
    refine hderef.bind fun object => ?_
    have htext : (g.lexeme name).text = name.text := rfl
    simp only [htext, id_eq]
    cases object.fields.get? name.text with
    | some value => exact relined_pure rfl
    | none =>
      refine (relined_needs (relined_findMethod name.text object.class_) 2 room).bind fun found => ?_
      cases found with
      | none => exact relined_fail _ _
      | some method => exact relined_needs (relined_boundMethod method i) 3 room
  | nil | bool b | number x | string text | clock | function i | class_ k => exact relined_fail _ _

theorem relined_fieldOwner (object : Value) (name : Lexeme) :
    Relined g id (fieldOwner object name) (fieldOwner object (g.lexeme name)) := by
  cases object with
  | instance_ i => exact relined_pure rfl
  | nil | bool b | number x | string text | clock | function i | class_ k => exact relined_fail _ _

/-- A method of the superclass is looked up by its text. -/
theorem relined_superMethod (hg : g.slots = 0) (room : Nat) (keyword : Reference) (method : Lexeme) :
    Relined g id (superMethod room keyword method) (superMethod room (g.reference keyword) (g.lexeme method)) := by
  refine relined_needs ((relined_distance? hg keyword).bind fun d => ?_) 2 room
  cases d with
  | none =>
    have hslot : Fault.unresolvedSlot (g.reference keyword).slot = .unresolvedSlot keyword.slot :=
      congrArg Fault.unresolvedSlot (slot_reference hg keyword)
    exact relined_throw (congrArg Stop.fault hslot)
  | some d =>
    refine (relined_readAt d superName).bind fun parent => ?_
    refine (relined_readAt (d - 1) thisName).bind fun receiver => ?_
    simp only [id_eq]
    split
    next k i =>
      refine (relined_findMethod method.text k).bind fun found => ?_
      cases found with
      | none => exact relined_fail _ _
      | some found => exact relined_boundMethod found i
    next => exact relined_throw rfl

/-- Calls that take no notice of lines. -/
def RelinedCalls (g : Shift) (enter : Enter) : Prop :=
  ∀ room paren callee values, Relined g id (enter room paren callee values) (enter room (g.lexeme paren) callee values)

variable {enter : Enter}

mutual

/-- Expressions, by recursion on the tree. -/
theorem relined_expr (hg : g.slots = 0) (henter : RelinedCalls g enter) (room : Nat) (e : Expr) :
    Relined g id (expr enter room e) (expr enter room (g.expr e)) := by
  cases e with
  | literal v =>
    refine relined_deeper (fun _ => ?_) room
    exact relined_pure rfl
  | group inner => exact relined_deeper (fun room => relined_expr hg henter room inner) room
  | unary op operand =>
    refine relined_deeper (fun room => ?_) room
    exact (relined_expr hg henter room operand).bind fun v => relined_ofOperator (unary_lexeme op v) room
  | binary left op right =>
    refine relined_deeper (fun room => ?_) room
    exact (relined_expr hg henter room left).bind fun a =>
      (relined_expr hg henter room right).bind fun b => relined_binary room op a b
  | logical left op right =>
    refine relined_deeper (fun room => (relined_expr hg henter room left).bind fun a => ?_) room
    show Relined g id (if isDecided op a then pure a else expr enter room right)
      (if isDecided op a then pure a else expr enter room (g.expr right))
    split
    · exact relined_pure rfl
    · exact relined_expr hg henter room right
  | ternary cond yes no =>
    refine relined_deeper (fun room => (relined_expr hg henter room cond).bind fun a => ?_) room
    show Relined g id (if a.isTruthy then expr enter room yes else expr enter room no)
      (if a.isTruthy then expr enter room (g.expr yes) else expr enter room (g.expr no))
    split
    · exact relined_expr hg henter room yes
    · exact relined_expr hg henter room no
  | ref target => exact relined_deeper (fun room => relined_read hg room target) room
  | assign target value =>
    refine relined_deeper (fun room => (relined_expr hg henter room value).bind fun v => ?_) room
    exact (relined_assign hg room target v).bind fun _ => relined_pure rfl
  | call callee paren args =>
    refine relined_deeper (fun room => relined_deeper (fun room => ?_) room) room
    exact (relined_expr hg henter room callee).bind fun f => (relined_exprs hg henter room args).bind fun values =>
      (relined_checkCall room paren f values.length).bind fun _ => henter room paren f values
  | get object name =>
    refine relined_deeper (fun room => ?_) room
    exact (relined_expr hg henter room object).bind fun v => relined_property room v name
  | set object name value =>
    refine relined_deeper (fun room => (relined_expr hg henter room object).bind fun o => ?_) room
    exact (relined_fieldOwner o name).bind fun i => (relined_expr hg henter room value).bind fun v =>
      (relined_setField i name.text v).bind fun _ => relined_pure rfl
  | this keyword => exact relined_deeper (fun room => relined_read hg room keyword) room
  | super keyword method => exact relined_deeper (fun room => relined_superMethod hg room keyword method) room

theorem relined_exprs (hg : g.slots = 0) (henter : RelinedCalls g enter) (room : Nat) (es : List Expr) :
    Relined g id (exprs enter room es) (exprs enter room (g.exprs es)) := by
  cases es with
  | nil => exact relined_pure rfl
  | cons e rest =>
    exact (relined_expr hg henter room e).bind fun _ =>
      (relined_exprs hg henter room rest).bind fun _ => relined_pure rfl

end

theorem relined_exprOpt (hg : g.slots = 0) (henter : RelinedCalls g enter) (room : Nat) (e : Option Expr) :
    Relined g id (exprOpt enter room e) (exprOpt enter room (g.exprOpt e)) := by
  cases e with
  | none => exact relined_pure rfl
  | some e => exact relined_expr hg henter room e

/-! ## Statements -/

/-- The rounds of a loop, by induction on how many are left. -/
theorem relined_rounds {test test' : Eval Bool} {body body' : Eval Completion} {step step' : Eval Value}
    (ht : Relined g id test test') (hb : Relined g id body body') (hs : Relined g id step step') (n : Nat) :
    Relined g id (rounds test body step n) (rounds test' body' step' n) := by
  induction n with
  | zero => exact relined_throw rfl
  | succ n ih =>
    have again : Relined g id (do let _ ← step; rounds test body step n)
        (do let _ ← step'; rounds test' body' step' n) := hs.bind fun _ => ih
    refine ht.bind fun yes => ?_
    cases yes with
    | false => exact relined_pure rfl
    | true =>
      refine hb.bind fun done => ?_
      cases done with
      | broken => exact relined_pure rfl
      | returned v => exact relined_pure rfl
      | normal | continued => exact again

/-- A table of methods on other lines has its routines on those lines. -/
theorem methodTable_routines (env : Nat) (ms : List Routine) :
    methodTable env (g.routines ms) = g.methods (methodTable env ms) := by
  have general : ∀ table : Bindings Closure,
      (g.routines ms).foldl (fun table m => table.set m.name.text ⟨m, env, m.isInit⟩) (g.methods table) =
        g.methods (ms.foldl (fun table m => table.set m.name.text ⟨m, env, m.isInit⟩) table) := by
    induction ms with
    | nil => exact fun _ => rfl
    | cons m rest ih =>
      intro table
      have hclosure : (⟨g.routine m, env, (g.routine m).isInit⟩ : Closure) = g.closure ⟨m, env, m.isInit⟩ := by
        rw [Shift.isInit_routine]
        rfl
      rw [Shift.routines, List.foldl_cons, List.foldl_cons, hclosure, Shift.text_name, Shift.set_methods]
      exact ih _
  exact general ∅

/-- A superclass is read at its slot. -/
theorem relined_superclass (hg : g.slots = 0) (room : Nat) (superclass : Option Reference) :
    Relined g id (superclass.mapM (superclassValue room))
      ((superclass.map g.reference).mapM (superclassValue room)) := by
  cases superclass with
  | none => exact relined_pure rfl
  | some parent =>
    have hvalue : Relined g id (superclassValue room parent) (superclassValue room (g.reference parent)) := by
      refine relined_deeper (fun room => (relined_read hg room parent).bind fun v => ?_) room
      cases v with
      | class_ k => exact relined_pure rfl
      | nil | bool b | number x | string text | clock | function i | instance_ i => exact relined_fail _ _
    exact hvalue.map fun _ => rfl

theorem relined_methodEnv (parent : Option Nat) : Relined g id (methodEnv parent) (methodEnv parent) := by
  cases parent with
  | none => exact relined_get.map fun _ => rfl
  | some k => exact relined_get.bind fun m => relined_newEnvironment _ m.current

/-- A class is declared with its methods on their lines. -/
theorem relined_declareClass (hg : g.slots = 0) (room : Nat) (name : Lexeme) (superclass : Option Reference)
    (ms : List Routine) : Relined g id (declareClass room name superclass ms)
      (declareClass room (g.lexeme name) (superclass.map g.reference) (g.routines ms)) := by
  refine (relined_superclass hg room superclass).bind fun parent => relined_deeper (fun room => ?_) room
  refine (relined_define name.text .nil).bind fun _ => ?_
  refine (relined_methodEnv parent).bind fun env => ?_
  have hclass : (⟨name.text, parent, methodTable env (g.routines ms)⟩ : Class) =
      g.class_ ⟨name.text, parent, methodTable env ms⟩ := by
    rw [methodTable_routines]
    rfl
  show Relined g id _ (newClass ⟨name.text, parent, methodTable env (g.routines ms)⟩ >>= _)
  rw [hclass]
  refine (relined_newClass _).bind fun made => ?_
  exact relined_get.bind fun m => relined_assignIn room m.current name made

theorem relined_test (hg : g.slots = 0) (henter : RelinedCalls g enter) (room : Nat) (e : Expr) :
    Relined g id (Eval.test enter room e) (Eval.test enter room (g.expr e)) :=
  (relined_expr hg henter room e).map fun _ => rfl

mutual

/-- Statements, by recursion on the tree. -/
theorem relined_stmt (hg : g.slots = 0) (host : Host) (henter : RelinedCalls g enter) (room : Nat) (s : Stmt) :
    Relined g id (stmt host enter room s) (stmt host enter room (g.stmt s)) := by
  cases s with
  | expr e =>
    refine relined_deeper (fun room => ?_) room
    exact (relined_expr hg henter room e).bind fun _ => relined_pure rfl
  | print_ e =>
    refine relined_deeper (fun room => (relined_expr hg henter room e).bind fun v => ?_) room
    exact (relined_printValue room v).bind fun _ => relined_pure rfl
  | var name init =>
    refine relined_deeper (fun room => (relined_exprOpt hg henter room init).bind fun v => ?_) room
    exact (relined_needs (relined_define name.text v) 1 room).bind fun _ => relined_pure rfl
  | block body =>
    refine relined_deeper (fun room => relined_deeper (fun room => relined_get.bind fun m => ?_) room) room
    exact (relined_newEnvironment ∅ m.current).bind fun env =>
      relined_inside (relined_stmts hg host henter room body) env
  | cond test yes no =>
    refine relined_deeper (fun room => (relined_test hg henter room test).bind fun holds => ?_) room
    cases holds with
    | true => exact relined_stmt hg host henter room yes
    | false => exact relined_stmtOpt hg host henter room no
  | loop test body step =>
    refine relined_deeper (fun room => relined_deeper (fun room => ?_) room) room
    exact relined_rounds (relined_test hg henter room test) (relined_stmt hg host henter room body)
      (relined_exprOpt hg henter room step) host.rounds
  | break_ keyword | continue_ keyword =>
    refine relined_deeper (fun _ => ?_) room
    exact relined_pure rfl
  | fun_ routine =>
    refine relined_deeper (fun room => relined_needs (relined_get.bind fun m => ?_) 1 room) room
    refine (relined_newFunction ⟨routine, m.current, false⟩).bind fun made => ?_
    rw [Shift.text_name]
    exact (relined_define routine.name.text made).bind fun _ => relined_pure rfl
  | return_ _ value =>
    refine relined_deeper (fun room => (relined_exprOpt hg henter room value).bind fun v => ?_) room
    exact relined_needs (relined_pure rfl) 1 room
  | class_ name superclass ms =>
    refine relined_deeper (fun room => relined_deeper (fun room => ?_) room) room
    exact (relined_declareClass hg room name superclass ms).bind fun _ => relined_pure rfl

theorem relined_stmts (hg : g.slots = 0) (host : Host) (henter : RelinedCalls g enter) (room : Nat) (ss : List Stmt) :
    Relined g id (stmts host enter room ss) (stmts host enter room (g.stmts ss)) := by
  cases ss with
  | nil => exact relined_pure rfl
  | cons s rest =>
    refine (relined_stmt hg host henter room s).bind fun done => ?_
    cases done with
    | normal => exact relined_stmts hg host henter room rest
    | broken | continued | returned v => exact relined_pure rfl

theorem relined_stmtOpt (hg : g.slots = 0) (host : Host) (henter : RelinedCalls g enter) (room : Nat)
    (s : Option Stmt) :
    Relined g id (stmtOpt host enter room s) (stmtOpt host enter room (g.stmtOpt s)) := by
  cases s with
  | none => exact relined_pure rfl
  | some s => exact relined_stmt hg host henter room s

end

/-! ## Calls -/

theorem arguments_lexeme (params : List Lexeme) (values : List Value) (table : Bindings Value) :
    arguments (params.map g.lexeme) values table = arguments params values table := by
  induction params generalizing values table with
  | nil => rfl
  | cons p params ih =>
    cases values with
    | nil => rfl
    | cons v values => exact ih values _

/-- A way to run statements that takes no notice of lines. -/
def RelinedRun (g : Shift) (run : Nat → List Stmt → Eval Completion) : Prop :=
  ∀ room ss, Relined g id (run room ss) (run room (g.stmts ss))

variable {run : Nat → List Stmt → Eval Completion}

/-- A closure is called with its routine on its lines. -/
theorem relined_call (hrun : RelinedRun g run) (room : Nat) (c : Closure) (values : List Value) :
    Relined g id (call run room c values) (call run room (g.closure c) values) := by
  obtain ⟨⟨name, params, body⟩, env, isInit⟩ := c
  unfold call
  simp only [Shift.closure, Shift.routine, arguments_lexeme]
  refine relined_deeper (fun room => relined_deeper (fun inner => ?_) room) room
  refine (relined_newEnvironment _ env).bind fun own => ?_
  refine (relined_inside (hrun inner body) own).bind fun done => ?_
  cases isInit with
  | true => exact relined_needs (relined_inside (relined_readAt 0 thisName) env) 2 room
  | false => cases done <;> exact relined_pure rfl

/-- A class is called with its initializer on its lines. -/
theorem relined_instantiate (hrun : RelinedRun g run) (room k : Nat) (values : List Value) :
    Relined g id (instantiate run room k values) (instantiate run room k values) := by
  refine relined_deeper (fun room => relined_deeper (fun inner => ?_) room) room
  refine (relined_newInstance k).bind fun i => ?_
  refine (relined_findMethod initName k).bind fun found => ?_
  cases found with
  | none => exact relined_pure rfl
  | some init =>
    exact (relined_needs (relined_bindThis init i) 1 inner).bind fun bound =>
      (relined_call hrun room bound values).bind fun _ => relined_pure rfl

theorem relined_enterCall (hrun : RelinedRun g run) (host : Host) : RelinedCalls g (enterCall host run) := by
  intro room paren callee values
  cases callee with
  | clock => exact relined_needs (relined_readClock host) 2 room
  | function i => exact (relined_closure i).bind fun c => relined_call hrun room c values
  | class_ k => exact relined_instantiate hrun room k values
  | nil | bool b | number x | string text | instance_ i => exact relined_fail paren _

/-- However many calls may be open. -/
theorem relined_invoke (hg : g.slots = 0) (host : Host) (n : Nat) : RelinedCalls g (invoke host n) := by
  induction n with
  | zero => exact fun _ paren _ _ => relined_fail paren _
  | succ n ih =>
    intro room paren callee values
    have hrun : RelinedRun g (stmts host (invoke host n)) := relined_stmts hg host ih
    exact relined_catchStack (relined_enterCall hrun host room paren callee values) paren

/-! ## Programs -/

theorem relined_echo (room : Nat) (v : Value) : Relined g id (echo room v) (echo room v) :=
  relined_deeper (fun room => relined_printValue room v) room

/-- A statement of a program, run or echoed. -/
theorem relined_topLevel (hg : g.slots = 0) (host : Host) (interactive : Bool) (s : Stmt) :
    Relined g id (topLevel host interactive s) (topLevel host interactive (g.stmt s)) := by
  have henter := relined_invoke hg host host.calls
  have hstmt := relined_stmt hg host henter host.stack
  have quiet : Relined g id (do let _ ← stmt host (invoke host host.calls) host.stack s)
      (do let _ ← stmt host (invoke host host.calls) host.stack (g.stmt s)) :=
    (hstmt s).bind fun _ => relined_pure rfl
  cases interactive with
  | false => cases s <;> exact quiet
  | true =>
    cases s with
    | expr e => exact (relined_expr hg henter host.stack e).bind fun v => relined_echo host.stack v
    | var name init =>
      refine (hstmt (.var name init)).bind fun _ => ?_
      refine Relined.bind (φ := id) ?_ fun v => relined_echo host.stack v
      exact relined_get.map fun _ => rfl
    | print_ | block | cond | loop | break_ | continue_ | fun_ | return_ | class_ => exact quiet

theorem relined_forM (hg : g.slots = 0) (host : Host) (interactive : Bool) (p : List Stmt) :
    Relined g id (p.forM (topLevel host interactive)) ((g.stmts p).forM (topLevel host interactive)) := by
  induction p with
  | nil => exact relined_pure rfl
  | cons s rest ih => exact (relined_topLevel hg host interactive s).bind fun _ => ih

theorem relined_interpret (hg : g.slots = 0) (host : Host) (interactive : Bool) (p : List Stmt) :
    Relined g id (interpret host interactive p) (interpret host interactive (g.stmts p)) := by
  intro m
  unfold interpret
  rw [relined_forM hg host interactive p m]
  cases p.forM (topLevel host interactive) m <;> rfl

end Lox
