/-
  Lox.Proofs.Run.Carried — two runs of one tree that differ in how they run the calls in it,
  or in the room that they have on the stack.

  A relation that every step of the machine has to itself, and that is kept when actions are
  put together (`Kept`), holds of the two runs of a tree if it holds of those of the calls;
  if it is kept by a call that comes to the end of the stack (`Carried`), it holds of those
  too. The first such relation is equality of what is blind: so the trees are blind.
-/

import Lox.Proofs.Run.Primitive

namespace Lox

namespace Eval

/-! ## Statements of the program itself -/

/-- What a prompt shows behind a statement that has been executed. -/
def shown (interactive : Bool) (s : Stmt) (room : Nat) : Eval Unit :=
  match interactive, s with
  | true, .var name _ => do echo room (← globalValue name.text)
  | _, _ => return ()

/-- But for an expression at a prompt, a statement is executed, and then a value may be shown. -/
theorem topLevel_executed {interactive : Bool} {s : Stmt} (h : interactive = true → ∀ e, s ≠ .expr e) (host : Host) :
    topLevel host interactive s = (do
      let _ ← stmt host (invoke host host.calls) host.stack s
      shown interactive s host.stack) := by
  cases interactive with
  | false => cases s <;> rfl
  | true =>
    cases s with
    | expr e => exact absurd rfl (h rfl e)
    | _ => rfl

theorem topLevel_cases (interactive : Bool) (s : Stmt) :
    (interactive = true ∧ ∃ e, s = .expr e) ∨ (interactive = true → ∀ e, s ≠ .expr e) := by
  cases interactive with
  | false => exact Or.inr fun h => by cases h
  | true =>
    cases s with
    | expr e => exact Or.inl ⟨rfl, e, rfl⟩
    | _ => exact Or.inr fun _ _ h => by cases h

theorem primitive_shown (interactive : Bool) (s : Stmt) (room : Nat) : Primitive (shown interactive s room) := by
  unfold shown
  split
  · exact (primitive_globalValue _).bind fun v _ => primitive_echo room v
  · exact primitive_pure ()

/-! ## Two ways to run the calls -/

/-- A relation between two actions that is kept as well when a call catches the end of the stack. -/
structure Carried (L : Nat → Nat → Prop) (R : ∀ {α : Type}, Eval α → Eval α → Prop) : Prop extends Kept L R where
  catchStack : ∀ {α : Type} {a a' : Eval α} (paren : Lexeme), R a a' → R (catchStack paren a) (catchStack paren a')

section Carried

variable {L : Nat → Nat → Prop} {R : ∀ {α : Type}, Eval α → Eval α → Prop} {enter enter' : Enter} {host host' : Host}

/-- Two ways to run calls that are related in all rooms that are. -/
def Both (L : Nat → Nat → Prop) (R : ∀ {α : Type}, Eval α → Eval α → Prop) (enter enter' : Enter) : Prop :=
  ∀ ⦃k k' : Nat⦄, L k k' → ∀ paren f vs, R (enter k paren f vs) (enter' k' paren f vs)

mutual

/-- Expressions, by recursion on the tree; the calls in them are related by assumption. -/
theorem Kept.expr (hR : Kept L R) (he : Both L R enter enter') :
    ∀ e {k k' : Nat}, L k k' → R (expr enter k e) (expr enter' k' e)
  | .literal _, _, _, hL => hR.deeper hL fun _ _ _ => hR.pure _
  | .group inner, _, _, hL => hR.deeper hL fun _ _ hj => hR.expr he inner hj
  | .unary _ operand, _, _, hL =>
    hR.deeper hL fun _ _ hj => hR.bind (hR.expr he operand hj) fun _ _ => hR.ofOperator hj fun _ => Operator.unary_calm
  | .binary left op right, _, _, hL =>
    hR.deeper hL fun _ _ hj => hR.bind (hR.expr he left hj) fun a _ => hR.bind (hR.expr he right hj) fun b _ =>
      hR.binary hj op a b
  | .logical left op right, _, _, hL => by
    refine hR.deeper hL fun j j' hj => hR.bind (hR.expr he left hj) fun a _ => ?_
    show R (if isDecided op a then Pure.pure a else Eval.expr enter j right)
      (if isDecided op a then Pure.pure a else Eval.expr enter' j' right)
    split
    · exact hR.pure a
    · exact hR.expr he right hj
  | .ternary cond yes no, _, _, hL => by
    refine hR.deeper hL fun j j' hj => hR.bind (hR.expr he cond hj) fun c _ => ?_
    show R (if c.isTruthy then Eval.expr enter j yes else Eval.expr enter j no)
      (if c.isTruthy then Eval.expr enter' j' yes else Eval.expr enter' j' no)
    split
    · exact hR.expr he yes hj
    · exact hR.expr he no hj
  | .ref target, _, _, hL => hR.deeper hL fun _ _ hj => hR.read hj target
  | .assign target value, _, _, hL =>
    hR.deeper hL fun _ _ hj => hR.bind (hR.expr he value hj) fun v _ => hR.map (hR.assign hj target v) _
  | .call callee paren args, _, _, hL =>
    hR.deeper hL fun _ _ hi => hR.deeper hi fun _ _ hj =>
      hR.bind (hR.expr he callee hj) fun f _ => hR.bind (hR.exprs he args hj) fun values _ =>
        hR.bind (hR.checkCall hj paren f values.length) fun _ _ => he hj paren f values
  | .get object name, _, _, hL => hR.deeper hL fun _ _ hj => hR.bind (hR.expr he object hj) fun o _ =>
    hR.property hj o name
  | .set object name value, _, _, hL =>
    hR.deeper hL fun _ _ hj => hR.bind (hR.expr he object hj) fun o _ =>
      hR.bind (hR.primitive (primitive_fieldOwner o name)) fun id _ =>
        hR.bind (hR.expr he value hj) fun v _ => hR.primitive ((primitive_setField id name.text v).map _)
  | .this keyword, _, _, hL => hR.deeper hL fun _ _ hj => hR.read hj keyword
  | .super keyword method, _, _, hL => hR.deeper hL fun _ _ hj => hR.superMethod hj keyword method

theorem Kept.exprs (hR : Kept L R) (he : Both L R enter enter') :
    ∀ es {k k' : Nat}, L k k' → R (exprs enter k es) (exprs enter' k' es)
  | [], _, _, _ => hR.pure []
  | e :: rest, _, _, hL => hR.bind (hR.expr he e hL) fun _ _ => hR.map (hR.exprs he rest hL) _

end

theorem Kept.exprOpt (hR : Kept L R) (he : Both L R enter enter') (e : Option Expr) {k k' : Nat} (hL : L k k') :
    R (exprOpt enter k e) (exprOpt enter' k' e) := by
  cases e with
  | none => exact hR.pure _
  | some e => exact hR.expr he e hL

/-- The rounds of a loop, by induction on how many are left. -/
theorem Kept.rounds (hR : Kept L R) {test test' : Eval Bool} {body body' : Eval Completion} {step step' : Eval Value}
    (ht : R test test') (hb : R body body') (hs : R step step') :
    ∀ n, R (rounds test body step n) (rounds test' body' step' n)
  | 0 => hR.primitive (primitive_throw rfl)
  | n + 1 => by
    refine hR.bind ht fun truth _ => ?_
    cases truth with
    | false => exact hR.pure _
    | true =>
      refine hR.bind hb fun done _ => ?_
      cases done with
      | broken | returned v => exact hR.pure _
      | normal | continued => exact hR.bind hs fun _ _ => hR.rounds ht hb hs n

mutual

/-- Statements, by recursion on the tree. -/
theorem Kept.stmt (hR : Kept L R) (hrounds : host'.rounds = host.rounds) (he : Both L R enter enter') :
    ∀ s {k k' : Nat}, L k k' → R (stmt host enter k s) (stmt host' enter' k' s)
  | .expr e, _, _, hL => hR.deeper hL fun _ _ hj => hR.map (hR.expr he e hj) _
  | .print_ e, _, _, hL =>
    hR.deeper hL fun _ _ hj => hR.bind (hR.expr he e hj) fun v _ => hR.map (hR.printValue hj v) _
  | .var _ init, _, _, hL =>
    hR.deeper hL fun _ _ hj => hR.bind (hR.exprOpt he init hj) fun v _ =>
      hR.map (hR.needs hj (hR.primitive (primitive_define _ v)) 1) _
  | .block body, _, _, hL => by
    refine hR.deeper hL fun _ _ hi => hR.deeper hi fun _ _ hj => ?_
    have hnew : Primitive (do newEnvironment ∅ (← get).current) :=
      primitive_get (fun _ _ => rfl) fun _ => primitive_newEnvironment _ _
    have hrun := hR.bind (hR.primitive hnew) fun env _ => hR.inside env (hR.stmts hrounds he body hj)
    exact hrun
  | .cond c yes no, _, _, hL => by
    refine hR.deeper hL fun _ _ hj => hR.bind (hR.map (hR.expr he c hj) _) fun truth _ => ?_
    cases truth with
    | true => exact hR.stmt hrounds he yes hj
    | false => exact hR.stmtOpt hrounds he no hj
  | .loop c body step, _, _, hL => by
    refine hR.deeper hL fun _ _ hi => hR.deeper hi fun _ _ hj => ?_
    rw [hrounds]
    exact hR.rounds (hR.map (hR.expr he c hj) Value.isTruthy) (hR.stmt hrounds he body hj)
      (hR.exprOpt he step hj) host.rounds
  | .break_ _, _, _, hL => hR.deeper hL fun _ _ _ => hR.pure _
  | .continue_ _, _, _, hL => hR.deeper hL fun _ _ _ => hR.pure _
  | .fun_ _, _, _, hL =>
    hR.deeper hL fun _ _ hj => hR.needs hj (hR.primitive (primitive_get (fun _ _ => rfl) fun _ =>
      (primitive_newFunction _).bind fun v _ => (primitive_define _ v).map _)) 1
  | .return_ _ value, _, _, hL =>
    hR.deeper hL fun _ _ hj => hR.bind (hR.exprOpt he value hj) fun _ _ => hR.needs hj (hR.pure _) 1
  | .class_ name superclass methods, _, _, hL =>
    hR.deeper hL fun _ _ hi => hR.deeper hi fun _ _ hj => hR.map (hR.declareClass hj name superclass methods) _

theorem Kept.stmts (hR : Kept L R) (hrounds : host'.rounds = host.rounds) (he : Both L R enter enter') :
    ∀ ss {k k' : Nat}, L k k' → R (stmts host enter k ss) (stmts host' enter' k' ss)
  | [], _, _, _ => hR.pure _
  | s :: rest, _, _, hL => by
    refine hR.bind (hR.stmt hrounds he s hL) fun done _ => ?_
    cases done with
    | normal => exact hR.stmts hrounds he rest hL
    | broken | continued | returned v => exact hR.pure _

theorem Kept.stmtOpt (hR : Kept L R) (hrounds : host'.rounds = host.rounds) (he : Both L R enter enter') :
    ∀ s {k k' : Nat}, L k k' → R (stmtOpt host enter k s) (stmtOpt host' enter' k' s)
  | none, _, _, _ => hR.pure _
  | some s, _, _, hL => hR.stmt hrounds he s hL

end

section Calls

variable {run run' : Nat → List Stmt → Eval Completion} {k k' : Nat}

/-- A call runs the body in an environment of its own, and looks at how it ended. -/
theorem Kept.call (hR : Kept L R) (hrun : ∀ ⦃j j' : Nat⦄, L j j' → ∀ ss, R (run j ss) (run' j' ss)) (hL : L k k')
    (c : Closure) (values : List Value) : R (call run k c values) (call run' k' c values) := by
  refine hR.deeper hL fun i i' hi => hR.deeper hi fun j j' hj => ?_
  refine hR.bind (hR.primitive (primitive_newEnvironment _ c.env)) fun env _ => ?_
  refine hR.bind (hR.inside env (hrun hj _)) fun done _ => ?_
  show R (if c.isInit then Eval.needs 2 i (Eval.inside c.env (readAt 0 thisName)) else _)
    (if c.isInit then Eval.needs 2 i' (Eval.inside c.env (readAt 0 thisName)) else _)
  split
  · exact hR.needs hi (hR.primitive ((primitive_readAt 0 _).inside _)) 2
  · cases done <;> exact hR.pure _

/-- A class is called through its initializer, if it has one. -/
theorem Kept.instantiate (hR : Kept L R) (hrun : ∀ ⦃j j' : Nat⦄, L j j' → ∀ ss, R (run j ss) (run' j' ss)) (hL : L k k')
    (c : Nat) (values : List Value) : R (instantiate run k c values) (instantiate run' k' c values) := by
  refine hR.deeper hL fun i i' hi => hR.deeper hi fun j j' hj => ?_
  refine hR.bind (hR.primitive (primitive_newInstance c)) fun id _ => ?_
  refine hR.bind (hR.primitive (primitive_findMethod initName c)) fun found _ => ?_
  cases found with
  | none => exact hR.pure _
  | some init =>
    exact hR.bind (hR.needs hj (hR.primitive (primitive_bindThis init id)) 1) fun c _ =>
      hR.bind (hR.call hrun hi c values) fun _ _ => hR.pure _

/-- What can be called is a function, a class or the clock. -/
theorem Kept.enterCall (hR : Kept L R) (hclock : host'.clock = host.clock)
    (hrun : ∀ ⦃j j' : Nat⦄, L j j' → ∀ ss, R (run j ss) (run' j' ss)) (hL : L k k') (paren : Lexeme) (callee : Value)
    (values : List Value) :
    R (enterCall host run k paren callee values) (enterCall host' run' k' paren callee values) := by
  cases callee with
  | clock =>
    have hsame : readClock host' = readClock host := by
      unfold readClock
      rw [hclock]
    show R (Eval.needs 2 k (readClock host)) (Eval.needs 2 k' (readClock host'))
    rw [hsame]
    exact hR.needs hL (hR.primitive (primitive_readClock host)) 2
  | function id =>
    have hfound : Primitive (do deref (← get).closures[id]?) :=
      primitive_get (fun _ _ => rfl) fun _ => primitive_deref _
    have hcall := hR.bind (hR.primitive hfound) fun c _ => hR.call hrun hL c values
    exact hcall
  | class_ c => exact hR.instantiate hrun hL c values
  | _ => exact hR.primitive (primitive_throw rfl)

end Calls

/-- A call with calls left to it, by the relation of the calls in it. -/
theorem Carried.invoke (hR : Carried L R) (hclock : host'.clock = host.clock) (hrounds : host'.rounds = host.rounds)
    {n n' : Nat} (he : Both L R (invoke host n) (invoke host' n')) :
    Both L R (Eval.invoke host (n + 1)) (Eval.invoke host' (n' + 1)) :=
  fun _ _ hL paren callee values =>
    hR.catchStack paren (hR.enterCall hclock (fun _ _ hj ss => hR.stmts hrounds he ss hj) hL paren callee values)

/-- A statement of a program is run, or its value is echoed. -/
theorem Kept.topLevel (hR : Kept L R) (hrounds : host'.rounds = host.rounds) (hL : L host.stack host'.stack)
    (he : Both L R (Eval.invoke host host.calls) (Eval.invoke host' host'.calls)) (interactive : Bool) (s : Stmt) :
    R (topLevel host interactive s) (topLevel host' interactive s) := by
  rcases topLevel_cases interactive s with ⟨rfl, e, rfl⟩ | hs
  · exact hR.bind (hR.expr he e hL) fun v _ => hR.echo hL v
  · rw [topLevel_executed hs, topLevel_executed hs]
    refine hR.bind (hR.stmt hrounds he s hL) fun _ _ => ?_
    unfold shown
    split
    · exact hR.bind (hR.primitive (primitive_globalValue _)) fun v _ => hR.echo hL v
    · exact hR.pure ()

theorem Kept.program (hR : Kept L R) (hrounds : host'.rounds = host.rounds) (hL : L host.stack host'.stack)
    (he : Both L R (Eval.invoke host host.calls) (Eval.invoke host' host'.calls)) (interactive : Bool)
    (ss : List Stmt) :
    R (ss.forM (Eval.topLevel host interactive)) (ss.forM (Eval.topLevel host' interactive)) := by
  induction ss with
  | nil => exact hR.pure ()
  | cons s rest ih => exact hR.bind (hR.topLevel hrounds hL he interactive s) fun _ _ => ih

end Carried

/-! ## Trees -/

/-- To be blind to the output is kept by all that evaluation is made of. -/
theorem carried_blind : Carried Eq fun a a' => a = a' ∧ Blind a where
  primitive h := ⟨rfl, h.blind⟩
  bind h hf := by
    obtain ⟨rfl, ha⟩ := h
    exact ⟨bind_congr_of_mayGive fun v hv => (hf v hv).1, ha.bind fun v hv => (hf v hv).2⟩
  inside env h := ⟨by rw [h.1], h.2.inside env⟩
  deeper {_ k k' p p'} hk hp := by
    subst hk
    cases k with
    | zero => exact ⟨rfl, fun _ _ => rfl⟩
    | succ k => exact hp k k rfl
  catchStack paren h := ⟨by rw [h.1], h.2.catchStack paren⟩

theorem blind_invoke (host : Host) (n : Nat) :
    Both Eq (fun a a' => a = a' ∧ Blind a) (invoke host n) (invoke host n) := by
  induction n with
  | zero => exact fun _ _ hk _ _ _ => ⟨by rw [hk], fun _ _ => rfl⟩
  | succ n ih => exact carried_blind.invoke rfl rfl ih

theorem blind_expr (host : Host) (n room : Nat) (e : Expr) : Blind (expr (invoke host n) room e) :=
  (carried_blind.expr (blind_invoke host n) e rfl).2

theorem blind_stmt (host : Host) (n room : Nat) (s : Stmt) : Blind (stmt host (invoke host n) room s) :=
  (carried_blind.stmt rfl (blind_invoke host n) s rfl).2

end Eval

end Lox
