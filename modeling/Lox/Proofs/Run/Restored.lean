/-
  Lox.Proofs.Run.Restored — the current environment is the same before and after whatever
  is evaluated or executed, however that ends (`environment_restored`).

  Nothing is asked of the tree, of the machine and of its distances: the tree may be one
  that is never read from a text, and the distances may lead anywhere. Blocks and calls
  take up the environment before in every case (`restores_inside`). The declaration of a
  subclass steps into an environment of its own with nothing that would step back if it
  failed there; between the two steps there is nothing that can fail
  (`restores_declareClassInSteps`).
-/

import Lox.Proofs.Run.Sessions

namespace Lox

variable {α β : Type} {m m' : Machine}

namespace Eval

/-- The machine that an action leaves, however it ends. -/
def final (a : Eval α) (m : Machine) : Machine :=
  match a m with
  | .ok _ m' => m'
  | .error _ m' => m'

theorem final_ok {a : Eval α} {v : α} (h : a m = .ok v m') : final a m = m' := by rw [final, h]

theorem final_error {a : Eval α} {stop : Stop} (h : a m = .error stop m') : final a m = m' := by rw [final, h]

/-- However the action ends, the current environment is the one before. -/
def Restores (a : Eval α) : Prop := ∀ m, (final a m).current = m.current

/-! ## Sequences of actions -/

theorem restores_pure (v : α) : Restores (pure v) := fun _ => rfl

theorem restores_throw (stop : Stop) : Restores (throw stop : Eval α) := fun _ => rfl

theorem restores_get : Restores (get : Eval Machine) := fun _ => rfl

/-- Two actions one behind the other restore the environment if each does. -/
theorem Restores.bind {a : Eval α} {f : α → Eval β} (h : Restores a) (hf : ∀ v, Restores (f v)) :
    Restores (a >>= f) := by
  intro m
  have hm := h m
  cases ha : a m with
  | ok v m' =>
    rw [final_ok ha] at hm
    have hbind : final (a >>= f) m = final (f v) m' := by
      unfold final
      rw [bind_ok ha]
    rw [hbind, hf v m', hm]
  | error stop m' =>
    rw [final_error ha] at hm
    rw [final_error (bind_error ha f), hm]

/-- The result is changed and nothing else. -/
theorem Restores.map {a : Eval α} (h : Restores a) (f : α → β) : Restores (do return f (← a)) :=
  h.bind fun v => restores_pure (f v)

theorem restores_modify {f : Machine → Machine} (h : ∀ m, (f m).current = m.current) :
    Restores (modify f : Eval Unit) := h

theorem restores_ofExcept (x : Except Fault α) : Restores (ofExcept x) := by
  cases x <;> exact fun _ => rfl

/-- What stops for want of room changes nothing. -/
theorem restores_deeper {p : Nat → Eval α} (h : ∀ left, Restores (p left)) (room : Nat) : Restores (deeper room p) := by
  cases room with
  | zero => exact restores_throw _
  | succ left => exact h left

theorem Restores.needs {a : Eval α} (h : Restores a) (levels room : Nat) : Restores (needs levels room a) := by
  induction levels generalizing room with
  | zero => exact h
  | succ levels ih => exact restores_deeper ih room

theorem restores_orFail (room : Nat) (x : Except Fault α) : Restores (orFail room x) := by
  cases x with
  | ok v => exact restores_pure v
  | error fault => exact (restores_throw _).needs 1 room

theorem restores_ofOperator (room : Nat) (x : Except RuntimeError α) : Restores (ofOperator room x) :=
  restores_orFail room _

/-- An overflow that is caught leaves the environment as the action did. -/
theorem Restores.catchStack {a : Eval α} (h : Restores a) (paren : Lexeme) : Restores (catchStack paren a) := by
  intro m
  rcases catchStack_cases paren a m with hsame | ⟨m', ha, hcaught⟩
  · have hfinal : final (Eval.catchStack paren a) m = final a m := by
      unfold final
      rw [hsame]
    rw [hfinal, h m]
  · have hm := h m
    rw [final_error ha] at hm
    rw [final_error hcaught, hm]

theorem restores_deref (x : Option α) : Restores (deref x) := by
  cases x <;> exact fun _ => rfl

/-- Nothing is asked of what is done in the other environment. -/
theorem restores_inside (env : Nat) (a : Eval α) : Restores (inside env a) := by
  intro m
  unfold final inside
  cases a { m with current := env } <;> rfl

/-! ## Effects -/

theorem restores_printValue (room : Nat) (v : Value) : Restores (printValue room v) :=
  have hprint : Restores (do print ((← get).display v)) := restores_get.bind fun _ => restores_modify fun _ => rfl
  hprint.needs _ room

theorem restores_readClock (host : Host) : Restores (readClock host) := fun _ => rfl

theorem restores_newEnvironment (values : Bindings Value) (enclosing : Nat) :
    Restores (newEnvironment values enclosing) :=
  fun _ => rfl

theorem restores_define (name : String) (v : Value) : Restores (define name v) := restores_modify fun _ => rfl

theorem restores_assignIn (room env : Nat) (name : Lexeme) (v : Value) : Restores (assignIn room env name v) :=
  restores_get.bind fun _ => (restores_orFail _ _).bind fun _ => restores_modify fun _ => rfl

theorem restores_readAt (d : Int) (name : String) : Restores (readAt d name) :=
  restores_get.bind fun _ => restores_ofExcept _

theorem restores_assignAt (d : Int) (name : String) (v : Value) : Restores (assignAt d name v) :=
  restores_get.bind fun _ => (restores_ofExcept _).bind fun _ => restores_modify fun _ => rfl

theorem restores_read (room : Nat) (target : Reference) : Restores (Eval.read room target) := by
  refine restores_deeper (fun room => (restores_get.map _).bind fun d => ?_) room
  cases d with
  | some d => exact (restores_readAt d _).needs 2 room
  | none => exact restores_deeper (fun room => restores_get.bind fun _ => restores_orFail room _) room

theorem restores_assign (room : Nat) (target : Reference) (v : Value) : Restores (Eval.assign room target v) := by
  refine (restores_get.map _).bind fun d => ?_
  cases d with
  | some d => exact (restores_assignAt d _ v).needs 2 room
  | none => exact restores_deeper (fun room => restores_assignIn room _ _ v) room

theorem restores_newFunction (c : Closure) : Restores (newFunction c) := fun _ => rfl

theorem restores_findMethod (name : String) (k : Nat) : Restores (findMethod name k) := restores_get.map _

theorem restores_bindThis (method : Closure) (id : Nat) : Restores (bindThis method id) :=
  (restores_newEnvironment _ _).map _

theorem restores_boundMethod (method : Closure) (id : Nat) : Restores (boundMethod method id) :=
  (restores_bindThis method id).bind restores_newFunction

theorem restores_fail (site : Lexeme) (cause : RuntimeCause) : Restores (fail site cause : Eval α) := restores_throw _

/-! ## Expressions -/

/-- A call is checked without moving to another environment. -/
theorem restores_checkCall (room : Nat) (paren : Lexeme) (callee : Value) (count : Nat) :
    Restores (checkCall room paren callee count) := by
  have harity : Restores (arity? room callee) := by
    cases callee with
    | function id => exact restores_get.bind fun _ => (restores_deref _).map _
    | class_ k =>
      refine ((restores_findMethod _ k).needs 2 room).bind fun found => ?_
      cases found <;> exact restores_pure _
    | _ => exact restores_pure _
  refine harity.bind fun expected => ?_
  cases expected with
  | none => exact restores_fail _ _
  | some expected =>
    show Restores (if count = expected then pure () else fail paren (.wrongArity expected count))
    split
    · exact restores_pure _
    · exact restores_fail _ _

/-- A property is looked up without moving to another environment. -/
theorem restores_property (room : Nat) (object : Value) (name : Lexeme) : Restores (property room object name) := by
  cases object with
  | instance_ id =>
    refine restores_get.bind fun m => (restores_deref _).bind fun i => ?_
    split
    · exact restores_pure _
    · refine ((restores_findMethod _ _).needs 2 room).bind fun found => ?_
      cases found with
      | some method => exact (restores_boundMethod method id).needs 3 room
      | none => exact restores_fail _ _
  | _ => exact restores_fail _ _

theorem restores_fieldOwner (object : Value) (name : Lexeme) : Restores (fieldOwner object name) := by
  cases object with
  | instance_ id => exact restores_pure id
  | _ => exact restores_fail _ _

/-- A method of the superclass is looked up without moving to another environment. -/
theorem restores_superMethod (room : Nat) (keyword : Reference) (method : Lexeme) :
    Restores (superMethod room keyword method) := by
  refine Restores.needs ((restores_get.map _).bind fun d => ?_) 2 room
  cases d with
  | none => exact restores_throw _
  | some d =>
    refine (restores_readAt d _).bind fun parent => (restores_readAt (d - 1) _).bind fun receiver => ?_
    split
    · refine (restores_findMethod _ _).bind fun found => ?_
      cases found with
      | some found => exact restores_boundMethod found _
      | none => exact restores_fail _ _
    · exact restores_throw _

theorem restores_binary (room : Nat) (op : Lexeme) (left right : Value) : Restores (binary room op left right) :=
  restores_deeper (fun room => Restores.needs (restores_get.bind fun _ => restores_ofOperator _ _) _ room) room

section Trees

variable {enter : Enter}

mutual

/-- Expressions, by recursion on the tree. -/
theorem restores_expr (he : ∀ room paren f vs, Restores (enter room paren f vs)) :
    ∀ e room, Restores (expr enter room e)
  | e, 0 => by
    rw [expr_zero]
    exact restores_throw _
  | .literal value, _ + 1 => restores_pure value.value
  | .group inner, room + 1 => restores_expr he inner room
  | .unary _ operand, room + 1 => (restores_expr he operand room).bind fun _ => restores_ofOperator room _
  | .binary left op right, room + 1 =>
    (restores_expr he left room).bind fun a => (restores_expr he right room).bind fun b => restores_binary room op a b
  | .logical left op right, room + 1 => by
    refine (restores_expr he left room).bind fun a => ?_
    show Restores (if isDecided op a then pure a else expr enter room right)
    split
    · exact restores_pure a
    · exact restores_expr he right room
  | .ternary cond yes no, room + 1 => by
    refine (restores_expr he cond room).bind fun c => ?_
    show Restores (if c.isTruthy then expr enter room yes else expr enter room no)
    split
    · exact restores_expr he yes room
    · exact restores_expr he no room
  | .ref target, room + 1 => restores_read room target
  | .assign target value, room + 1 => (restores_expr he value room).bind fun v => (restores_assign room target v).map _
  | .call callee paren args, room + 1 =>
    restores_deeper (fun room => (restores_expr he callee room).bind fun f =>
      (restores_exprs he args room).bind fun values =>
      (restores_checkCall room paren f values.length).bind fun _ => he room paren f values) room
  | .get object name, room + 1 => (restores_expr he object room).bind fun o => restores_property room o name
  | .set object name value, room + 1 =>
    (restores_expr he object room).bind fun o => (restores_fieldOwner o name).bind fun id =>
      (restores_expr he value room).bind fun v =>
        have hset : Restores (setField id name.text v) := restores_modify fun _ => rfl
        hset.map _
  | .this keyword, room + 1 => restores_read room keyword
  | .super keyword method, room + 1 => restores_superMethod room keyword method

theorem restores_exprs (he : ∀ room paren f vs, Restores (enter room paren f vs)) :
    ∀ es room, Restores (exprs enter room es)
  | [], _ => restores_pure []
  | e :: rest, room => (restores_expr he e room).bind fun _ => (restores_exprs he rest room).map _

end

theorem restores_exprOpt (he : ∀ room paren f vs, Restores (enter room paren f vs)) (e : Option Expr) (room : Nat) :
    Restores (exprOpt enter room e) := by
  cases e with
  | none => exact restores_pure _
  | some e => exact restores_expr he e room

end Trees

/-! ## Classes -/

/-- Steps into an environment. -/
def moveTo (env : Nat) : Eval Unit := modify fun m => { m with current := env }

/-- The declaration of a class step by step: the methods of a subclass are made inside of the
environment that holds the superclass, and then the environment before is taken up again. -/
def declareClassInSteps (room : Nat) (name : Lexeme) (superclass : Option Reference) (methods : List Routine) :
    Eval Unit := do
  let parent ← superclass.mapM (superclassValue room)
  deeper room fun room => do
    define name.text .nil
    let before := (← get).current
    match parent with
    | none => pure ()
    | some k =>
      moveTo (← newEnvironment ∅ before)
      define superName (.class_ k)
    let made ← newClass ⟨name.text, parent, methodTable (← get).current methods⟩
    moveTo before
    assignIn room (← get).current name made

/-- An environment that is made empty and then filled is made with what it holds. -/
theorem define_push (s : Store Value) (enclosing : Nat) (name : String) (v : Value) :
    (s.push ∅ (some enclosing)).define s.size name v = s.push (.single name v) (some enclosing) := by
  have hpush : ∀ f : Environment Value → Environment Value, ∀ e,
      (s.environments.push e).modify s.environments.size f = s.environments.push (f e) := by
    intro f e
    refine Array.ext (by simp) fun i h _ => ?_
    have hi : i ≤ s.environments.size := by
      simp only [Array.size_modify, Array.size_push] at h
      omega
    rw [Array.getElem_modify, Array.getElem_push, Array.getElem_push]
    by_cases he : s.environments.size = i
    · simp [he]
    · have hlt : i < s.environments.size := by omega
      simp [he, hlt]
  exact congrArg Store.mk (hpush _ _)

/-- A class is declared step by step, as it is written. -/
theorem declareClass_eq (room : Nat) (name : Lexeme) (superclass : Option Reference) (methods : List Routine) :
    declareClass room name superclass methods = declareClassInSteps room name superclass methods := by
  refine congrArg (superclass.mapM (superclassValue room) >>= ·) (funext fun parent => ?_)
  refine congrArg (deeper room) (funext fun room => congrArg (define name.text .nil >>= ·) (funext fun _ => ?_))
  cases parent with
  | none => rfl
  | some k =>
    funext m
    let filled : Machine :=
      { m with store := (m.store.push ∅ (some m.current)).define m.store.size superName (.class_ k)
               current := m.store.size }
    let held : Machine :=
      { m with store := m.store.push (.single superName (.class_ k)) (some m.current), current := m.store.size }
    have hfilled : filled = held := congrArg (fun s => { m with store := s, current := m.store.size })
      (define_push m.store m.current superName (.class_ k))
    let rest : Eval Unit := do
      let made ← newClass ⟨name.text, some k, methodTable (← get).current methods⟩
      moveTo m.current
      assignIn room (← get).current name made
    show rest held = rest filled
    rw [hfilled]

theorem restores_superclassValue (room : Nat) (parent : Reference) : Restores (superclassValue room parent) := by
  refine restores_deeper (fun room => (restores_read room parent).bind fun v => ?_) room
  cases v with
  | class_ k => exact restores_pure k
  | _ => exact restores_fail _ _

theorem restores_parent (room : Nat) (superclass : Option Reference) :
    Restores (superclass.mapM (superclassValue room)) := by
  cases superclass with
  | none => exact restores_pure none
  | some parent => exact (restores_superclassValue room parent).map some

/-- Between the two steps nothing can fail, and the step back is to where the first one was made. -/
theorem restores_declareClassInSteps (room : Nat) (name : Lexeme) (superclass : Option Reference)
    (methods : List Routine) : Restores (declareClassInSteps room name superclass methods) := by
  refine (restores_parent room superclass).bind fun parent =>
    restores_deeper (fun room => (restores_define _ _).bind fun _ => ?_) room
  intro m
  have hback : ∀ m', (final (do
      let made ← newClass ⟨name.text, parent, methodTable (← get).current methods⟩
      moveTo m.current
      assignIn room (← get).current name made) m').current = m.current := by
    intro m'
    exact restores_assignIn room m.current name (.class_ m'.classes.size)
      { m' with classes := m'.classes.push _, current := m.current }
  cases parent with
  | none => exact hback m
  | some k =>
    exact hback { m with
      store := (m.store.push ∅ (some m.current)).define m.store.size superName (.class_ k), current := m.store.size }

theorem restores_declareClass (room : Nat) (name : Lexeme) (superclass : Option Reference) (methods : List Routine) :
    Restores (declareClass room name superclass methods) := by
  rw [declareClass_eq]
  exact restores_declareClassInSteps room name superclass methods

/-! ## Statements -/

/-- The rounds of a loop, by induction on how many are left. -/
theorem restores_rounds {test : Eval Bool} {body : Eval Completion} {step : Eval Value} (ht : Restores test)
    (hb : Restores body) (hs : Restores step) : ∀ n, Restores (rounds test body step n)
  | 0 => restores_throw _
  | n + 1 => by
    refine ht.bind fun truth => ?_
    cases truth with
    | false => exact restores_pure _
    | true =>
      refine hb.bind fun done => ?_
      cases done with
      | broken | returned v => exact restores_pure _
      | normal | continued => exact hs.bind fun _ => restores_rounds ht hb hs n

section Trees

variable {host : Host} {enter : Enter}

mutual

/-- Statements, by recursion on the tree; a block and a class move and come back. -/
theorem restores_stmt (he : ∀ room paren f vs, Restores (enter room paren f vs)) :
    ∀ s room, Restores (stmt host enter room s)
  | s, 0 => by
    rw [stmt_zero]
    exact restores_throw _
  | .expr e, room + 1 => (restores_expr he e room).bind fun _ => restores_pure _
  | .print_ e, room + 1 =>
    (restores_expr he e room).bind fun v => (restores_printValue room v).bind fun _ => restores_pure _
  | .var _ init, room + 1 =>
    (restores_exprOpt he init room).bind fun v => ((restores_define _ v).needs 1 room).bind fun _ => restores_pure _
  | .block _, room + 1 =>
    restores_deeper (fun _ => restores_get.bind fun m => (restores_newEnvironment ∅ m.current).bind fun env =>
      restores_inside env _) room
  | .cond c yes no, room + 1 => by
    refine ((restores_expr he c room).map _).bind fun truth => ?_
    cases truth with
    | true => exact restores_stmt he yes room
    | false => exact restores_stmtOpt he no room
  | .loop c body step, room + 1 =>
    restores_deeper (fun room => restores_rounds ((restores_expr he c room).map _) (restores_stmt he body room)
      (restores_exprOpt he step room) _) room
  | .break_ _, _ + 1 => restores_pure _
  | .continue_ _, _ + 1 => restores_pure _
  | .fun_ _, room + 1 =>
    Restores.needs (restores_get.bind fun _ => (restores_newFunction _).bind fun v =>
      (restores_define _ v).bind fun _ => restores_pure _) 1 room
  | .return_ _ value, room + 1 => (restores_exprOpt he value room).bind fun _ => (restores_pure _).needs 1 room
  | .class_ name superclass methods, room + 1 =>
    restores_deeper (fun room => (restores_declareClass room name superclass methods).bind fun _ => restores_pure _)
      room

theorem restores_stmtOpt (he : ∀ room paren f vs, Restores (enter room paren f vs)) :
    ∀ s room, Restores (stmtOpt host enter room s)
  | none, _ => restores_pure _
  | some s, room => restores_stmt he s room

end

theorem restores_stmts (he : ∀ room paren f vs, Restores (enter room paren f vs)) (ss : List Stmt) (room : Nat) :
    Restores (stmts host enter room ss) := by
  induction ss with
  | nil => exact restores_pure _
  | cons s rest ih =>
    refine (restores_stmt he s room).bind fun done => ?_
    cases done with
    | normal => exact ih
    | broken | continued | returned v => exact restores_pure _

end Trees

/-! ## Calls -/

/-- Nothing is asked of how the body is run. -/
theorem restores_call (run : Nat → List Stmt → Eval Completion) (room : Nat) (c : Closure) (values : List Value) :
    Restores (call run room c values) := by
  refine restores_deeper (fun room => restores_deeper (fun inner =>
    (restores_newEnvironment _ c.env).bind fun env => (restores_inside env _).bind fun done => ?_) room) room
  show Restores (if c.isInit then needs 2 room (inside c.env (readAt 0 thisName)) else _)
  split
  · exact (restores_inside _ _).needs 2 room
  · cases done <;> exact restores_pure _

theorem restores_instantiate (run : Nat → List Stmt → Eval Completion) (room k : Nat) (values : List Value) :
    Restores (instantiate run room k values) := by
  refine restores_deeper (fun room => restores_deeper (fun inner =>
    Restores.bind (fun _ => rfl) fun id => (restores_findMethod initName k).bind fun found => ?_) room) room
  cases found with
  | none => exact restores_pure _
  | some init =>
    exact ((restores_bindThis init id).needs 1 inner).bind fun c =>
      (restores_call run room c values).bind fun _ => restores_pure _

/-- However many calls may be open. -/
theorem restores_invoke (host : Host) (n room : Nat) (paren : Lexeme) (callee : Value) (values : List Value) :
    Restores (invoke host n room paren callee values) := by
  cases n with
  | zero => exact restores_fail _ _
  | succ n =>
    refine Restores.catchStack ?_ paren
    cases callee with
    | clock => exact (restores_readClock host).needs 2 room
    | function id => exact restores_get.bind fun _ => (restores_deref _).bind fun c => restores_call _ room c values
    | class_ k => exact restores_instantiate _ room k values
    | _ => exact restores_fail _ _

/-! ## Programs -/

theorem final_interpret (host : Host) (interactive : Bool) (p : List Stmt) (m : Machine) :
    (final (interpret host interactive p) m).current = globalEnv := by
  unfold final interpret
  cases p.forM (topLevel host interactive) m <;> rfl

end Eval

open Eval

/-! ## Between programs -/

/-- A machine that has run some trees, each with the distances that were added before it. -/
inductive Interpreted (host : Host) : Machine → Prop
  | start : Interpreted host .start
  | load {m : Machine} (distances : Distances) : Interpreted host m → Interpreted host (m.load distances)
  | program {m : Machine} (interactive : Bool) (p : List Stmt) :
      Interpreted host m → Interpreted host (final (Eval.interpret host interactive p) m)
  /-- What has been printed is taken off. -/
  | take {m : Machine} : Interpreted host m → Interpreted host { m with output := #[] }

variable {host : Host}

theorem Interpreted.current (h : Interpreted host m) : m.current = globalEnv := by
  induction h with
  | start => rfl
  | load _ _ ih => exact ih
  | program interactive p => exact final_interpret host interactive p _
  | take _ ih => exact ih

/-- A text is run from the globals and comes back to them. -/
theorem interpreted_run {s : Session} (h : Interpreted host s.machine) (source : String) :
    Interpreted host (s.run host source).2.machine := by
  rcases run_cases host s source with ⟨-, -, hsame⟩ | ⟨p, m, -, hdone⟩
  · rw [hsame]
    exact h
  · have hfinal : final (Eval.interpret host s.interactive p) (s.machine.load (resolve p).distances)
        = { m with current := globalEnv } := by
      unfold final Eval.interpret
      rcases hdone.ending with ⟨u, hok, -⟩ | ⟨stop, herror, -⟩
      · rw [hok]
      · rw [herror]
    have hran := Interpreted.program s.interactive p (h.load (resolve p).distances)
    rw [hfinal] at hran
    rw [hdone.session]
    exact hran.take

theorem interpreted_after (host : Host) (interactive : Bool) (sources : List String) :
    Interpreted host (Session.after host interactive sources).machine := by
  have hmore : ∀ s : Session, Interpreted host s.machine →
      Interpreted host (sources.foldl (fun s source => (s.run host source).2) s).machine := by
    induction sources with
    | nil => exact fun _ h => h
    | cons source rest ih => exact fun s h => ih _ (interpreted_run h source)
  exact hmore (.start interactive) .start

/-- Whatever tree is evaluated or executed, on whatever machine, with however many calls that
may be open and however much room, the environment is the one before, however that ends; and
a program ends and begins in the global environment. -/
theorem environment_restored (host : Host) (n room : Nat) :
    (∀ e m, (final (expr (invoke host n) room e) m).current = m.current) ∧
      (∀ s m, (final (stmt host (invoke host n) room s) m).current = m.current) ∧
      (∀ ss m, (final (stmts host (invoke host n) room ss) m).current = m.current) ∧
      (∀ env ss m, (final (inside env (stmts host (invoke host n) room ss)) m).current = m.current) ∧
      (∀ paren callee values m, (final (invoke host n room paren callee values) m).current = m.current) ∧
      (∀ name superclass methods m,
        (final (declareClassInSteps room name superclass methods) m).current = m.current) ∧
      (∀ interactive p m, (final (interpret host interactive p) m).current = globalEnv) ∧
      (∀ m, Interpreted host m → m.current = globalEnv) ∧
      ∀ interactive sources p, ((Session.after host interactive sources).begins host p).machine.current
        = globalEnv := by
  have he := restores_invoke host n
  exact ⟨fun e => restores_expr he e room, fun s => restores_stmt he s room, fun ss => restores_stmts he ss room,
    fun env ss => restores_inside env _, he room, restores_declareClassInSteps room, final_interpret host,
    fun m h => h.current, fun interactive sources p => (interpreted_after host interactive sources).current⟩

end Lox
