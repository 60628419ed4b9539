/-
  Lox.Proofs.Run.Primitive — what the steps of a machine have in common, behind which
  nothing of the program is evaluated: they do not see what has been printed (`Blind`), and
  none of them overflows (`Calm`).

  An action that is blind does what it does behind any lines, and prints the same
  (`Blind.prints`). Only a call overflows, when no more calls may be open or the stack has
  come to its end in it.

  Most of the steps are taken in the room that is left on the stack. What is kept when a
  step is put together of smaller ones, also in different rooms (`Kept`), holds of all of
  them: one lemma for each step covers all such relations.
-/

import Lox.Proofs.Run.Restored

namespace Lox

/-! ## Faults -/

def Fault.isOverflow : Fault → Bool
  | .runtime ⟨_, .stackOverflow⟩ => true
  | _ => false

/-- The error of a call. The end of the stack is none before a call has caught it. -/
def Stop.isOverflow : Stop → Bool
  | .fault cause => cause.isOverflow
  | .outOfStack => false

/-- The end of the stack, whether or not a call has caught it. -/
def Stop.isStackEnd : Stop → Bool
  | .fault cause => cause.isOverflow
  | .outOfStack => true

namespace Store

variable {s : Store Value} {k : Nat} {name : Lexeme} {x : String} {d : Int} {fault : Fault}

theorem holder_calm (h : s.holder k name = .error fault) : fault.isOverflow = false := by
  unfold holder at h
  split at h <;> cases h
  rfl

theorem valueIn_calm (h : s.valueIn k x = .error fault) : fault.isOverflow = false := by
  unfold valueIn at h
  split at h <;> cases h
  rfl

theorem ancestor_calm (h : s.ancestor k d = .error fault) : fault.isOverflow = false := by
  unfold ancestor at h
  split at h <;> cases h
  rfl

/-- A variable that cannot be read is not an overflow. -/
theorem read_calm (h : s.read k name = .error fault) : fault.isOverflow = false := by
  unfold read at h
  cases hk : s.holder k name with
  | ok i =>
    rw [hk] at h
    exact valueIn_calm h
  | error fault' =>
    rw [hk] at h
    cases h
    exact holder_calm hk

/-- A variable that is not at its distance is not an overflow. -/
theorem readAt_calm (h : s.readAt k d x = .error fault) : fault.isOverflow = false := by
  unfold readAt at h
  cases hk : s.ancestor k d with
  | ok i =>
    rw [hk] at h
    exact valueIn_calm h
  | error fault' =>
    rw [hk] at h
    cases h
    exact ancestor_calm hk

end Store

namespace Operator

variable {op : Lexeme} {v v' : Value} {display : Value → String} {error : RuntimeError}

theorem unary_calm (h : unary op v = .error error) : (Fault.runtime error).isOverflow = false := by
  unfold unary at h
  split at h <;> cases h
  rfl

theorem sum_calm (h : sum display op v v' = .error error) : (Fault.runtime error).isOverflow = false := by
  unfold sum at h
  split at h <;> cases h
  rfl

theorem arithmetic_calm {x y : Float} (h : arithmetic op x y = .error error) :
    (Fault.runtime error).isOverflow = false := by
  unfold arithmetic at h
  split at h
  case h_3 =>
    split at h <;> cases h
    rfl
  all_goals cases h
  rfl

/-- Operands that an operator does not take are not an overflow. -/
theorem binary_calm (h : binary display op v v' = .error error) : (Fault.runtime error).isOverflow = false := by
  unfold binary at h
  split at h
  case h_4 => exact sum_calm h
  case h_5 =>
    split at h
    next => exact arithmetic_calm h
    next =>
      cases h
      rfl
  all_goals cases h

end Operator

variable {α β : Type} {m m' : Machine}

/-- The machine behind lines that have been printed. -/
def Machine.behind (before : Array String) (m : Machine) : Machine := { m with output := before ++ m.output }

namespace Eval

/-- What comes of an action, behind lines that have been printed. -/
def resultBehind (before : Array String) : EStateM.Result Stop Machine α → EStateM.Result Stop Machine α
  | .ok v m => .ok v (m.behind before)
  | .error stop m => .error stop (m.behind before)

/-- A value that an action may give. -/
def MayGive (a : Eval α) (v : α) : Prop := ∃ m m', a m = .ok v m'

/-- The action does not see what has been printed. -/
def Blind (a : Eval α) : Prop := ∀ before m, a (m.behind before) = resultBehind before (a m)

/-- The action may fail, but does not overflow. -/
def Calm (a : Eval α) : Prop := ∀ m stop m', a m = .error stop m' → stop.isOverflow = false

/-- A step of the machine, with no call in it. -/
structure Primitive (a : Eval α) : Prop where
  blind : Blind a
  calm : Calm a

/-! ## Sequences of actions -/

/-- Two blind actions one behind the other are blind. -/
theorem Blind.bind {a : Eval α} {f : α → Eval β} (h : Blind a) (hf : ∀ v, MayGive a v → Blind (f v)) :
    Blind (a >>= f) := by
  intro before m
  have hm := h before m
  cases ha : a m with
  | ok v m' =>
    rw [ha] at hm
    rw [bind_ok hm, bind_ok ha, hf v ⟨m, m', ha⟩ before m']
  | error stop m' =>
    rw [ha] at hm
    rw [bind_error hm, bind_error ha]
    rfl

theorem Blind.inside {a : Eval α} (h : Blind a) (env : Nat) : Blind (inside env a) := by
  intro before m
  have hm : a { m.behind before with current := env } = resultBehind before (a { m with current := env }) :=
    h before { m with current := env }
  unfold Eval.inside
  rw [hm]
  cases a { m with current := env } <;> rfl

theorem Blind.catchStack {a : Eval α} (h : Blind a) (paren : Lexeme) : Blind (catchStack paren a) := by
  intro before m
  unfold Eval.catchStack
  rw [h before m]
  cases a m with
  | ok v m' => rfl
  | error stop m' => cases stop <;> rfl

/-- An action that stops behind another one, or one that has stopped already. -/
theorem of_bind_error {a : Eval α} {f : α → Eval β} {stop : Stop} (h : (a >>= f) m = .error stop m') :
    a m = .error stop m' ∨ ∃ v m₁, a m = .ok v m₁ ∧ f v m₁ = .error stop m' := by
  cases ha : a m with
  | ok v m₁ => exact Or.inr ⟨v, m₁, rfl, bind_ok ha f ▸ h⟩
  | error stop₁ m₁ =>
    rw [bind_error ha] at h
    cases h
    exact Or.inl rfl

theorem of_inside_error {a : Eval α} {env : Nat} {stop : Stop} (h : inside env a m = .error stop m') :
    ∃ m₁, a { m with current := env } = .error stop m₁ ∧ m' = { m₁ with current := m.current } := by
  unfold inside at h
  split at h <;> cases h
  next ha => exact ⟨_, ha, rfl⟩

theorem Calm.bind {a : Eval α} {f : α → Eval β} (h : Calm a) (hf : ∀ v, MayGive a v → Calm (f v)) : Calm (a >>= f) := by
  intro m stop m' hstop
  rcases of_bind_error hstop with ha | ⟨v, m₁, ha, hv⟩
  · exact h m stop m' ha
  · exact hf v ⟨m, m₁, ha⟩ m₁ stop m' hv

theorem Primitive.bind {a : Eval α} {f : α → Eval β} (h : Primitive a) (hf : ∀ v, MayGive a v → Primitive (f v)) :
    Primitive (a >>= f) :=
  ⟨h.blind.bind fun v hv => (hf v hv).blind, h.calm.bind fun v hv => (hf v hv).calm⟩

/-- What always goes through does not overflow. -/
theorem primitive_ok {a : Eval α} (hb : Blind a) (h : ∀ m, ∃ v m', a m = .ok v m') : Primitive a := by
  refine ⟨hb, fun m stop m' hstop => ?_⟩
  obtain ⟨v, m₁, hok⟩ := h m
  rw [hok] at hstop
  cases hstop

theorem primitive_pure (v : α) : Primitive (pure v) := primitive_ok (fun _ _ => rfl) fun m => ⟨v, m, rfl⟩

theorem primitive_throw {stop : Stop} (h : stop.isOverflow = false) : Primitive (throw stop : Eval α) where
  blind _ _ := rfl
  calm _ _ _ hf := by
    cases hf
    exact h

theorem Primitive.map {a : Eval α} (h : Primitive a) (f : α → β) : Primitive (do return f (← a)) :=
  h.bind fun v _ => primitive_pure (f v)

/-- Other parts of the machine may be read. -/
theorem primitive_get {f : Machine → Eval α} (hread : ∀ before m, f (m.behind before) = f m)
    (hf : ∀ m, Primitive (f m)) :
    Primitive (get >>= f) where
  blind before m := by
    show f (m.behind before) (m.behind before) = resultBehind before (f m m)
    rw [hread, (hf m).blind]
  calm m := (hf m).calm m

theorem primitive_modify {f : Machine → Machine} (h : ∀ before m, f (m.behind before) = (f m).behind before) :
    Primitive (modify f : Eval Unit) :=
  primitive_ok (fun before m => congrArg (EStateM.Result.ok ()) (h before m)) fun m => ⟨(), f m, rfl⟩

theorem primitive_ofExcept {x : Except Fault α} (h : ∀ fault, x = .error fault → fault.isOverflow = false) :
    Primitive (ofExcept x) := by
  cases x with
  | ok v => exact primitive_pure v
  | error fault => exact primitive_throw (h fault rfl)

theorem primitive_deref (x : Option α) : Primitive (deref x) := by
  cases x with
  | some v => exact primitive_pure v
  | none => exact primitive_throw rfl

theorem Primitive.inside {a : Eval α} (h : Primitive a) (env : Nat) : Primitive (inside env a) where
  blind := h.blind.inside env
  calm _ stop _ hf := by
    obtain ⟨m₁, ha, -⟩ := of_inside_error hf
    exact h.calm _ stop m₁ ha

/-! ## What is printed -/

section Printed

variable {a : Eval α} {v : α} {stop : Stop}

/-- What comes of an action, with other lines printed. -/
def showing (lines : Array String) : EStateM.Result Stop Machine α → EStateM.Result Stop Machine α
  | .ok v m => .ok v { m with output := lines }
  | .error stop m => .error stop { m with output := lines }

/-- An action adds lines to those that are there, and the same ones to any others. -/
theorem Blind.prints (h : Blind a) (m : Machine) : ∃ printed, (final a m).output = m.output ++ printed ∧
    ∀ before, a { m with output := before } = showing (before ++ printed) (a m) := by
  let bare : Machine := { m with output := #[] }
  have hbehind (before : Array String) : bare.behind before = { m with output := before } := by
    simp [Machine.behind, bare]
  have hrun (before : Array String) : a { m with output := before } = resultBehind before (a bare) := by
    rw [← hbehind, h]
  have hm : a m = resultBehind m.output (a bare) := hrun m.output
  refine ⟨(final a bare).output, ?_, fun before => ?_⟩
  · unfold final
    rw [hm]
    cases a bare <;> rfl
  · rw [hrun, hm]
    unfold final
    cases a bare <;> rfl

theorem Blind.ok (h : Blind a) (ha : a m = .ok v m') : ∃ printed, m'.output = m.output ++ printed ∧
    ∀ before, a { m with output := before } = .ok v { m' with output := before ++ printed } := by
  obtain ⟨printed, hfinal, hrun⟩ := h.prints m
  rw [final_ok ha] at hfinal
  exact ⟨printed, hfinal, fun before => by rw [hrun, ha, showing]⟩

theorem Blind.error (h : Blind a) (ha : a m = .error stop m') : ∃ printed, m'.output = m.output ++ printed ∧
    ∀ before, a { m with output := before } = .error stop { m' with output := before ++ printed } := by
  obtain ⟨printed, hfinal, hrun⟩ := h.prints m
  rw [final_error ha] at hfinal
  exact ⟨printed, hfinal, fun before => by rw [hrun, ha, showing]⟩

end Printed

/-! ## Effects -/

theorem primitive_print (line : String) : Primitive (print line) :=
  primitive_modify fun before m => by simp [Machine.behind]

theorem primitive_readClock (host : Host) : Primitive (readClock host) :=
  primitive_ok (fun _ _ => rfl) fun _ => ⟨_, _, rfl⟩

theorem primitive_newEnvironment (values : Bindings Value) (enclosing : Nat) :
    Primitive (newEnvironment values enclosing) :=
  primitive_ok (fun _ _ => rfl) fun _ => ⟨_, _, rfl⟩

theorem primitive_define (name : String) (v : Value) : Primitive (define name v) := primitive_modify fun _ _ => rfl

theorem primitive_readAt (d : Int) (name : String) : Primitive (readAt d name) :=
  primitive_get (fun _ _ => rfl) fun _ => primitive_ofExcept fun _ => Store.readAt_calm

theorem primitive_assignAt (d : Int) (name : String) (v : Value) : Primitive (assignAt d name v) :=
  primitive_get (fun _ _ => rfl) fun _ =>
    (primitive_ofExcept fun _ => Store.ancestor_calm).bind fun _ _ => primitive_modify fun _ _ => rfl

theorem primitive_distance? (target : Reference) : Primitive (distance? target) :=
  primitive_get (fun _ _ => rfl) fun _ => primitive_pure _

theorem primitive_newFunction (c : Closure) : Primitive (newFunction c) :=
  primitive_ok (fun _ _ => rfl) fun _ => ⟨_, _, rfl⟩

theorem primitive_newClass (c : Class) : Primitive (newClass c) := primitive_ok (fun _ _ => rfl) fun _ => ⟨_, _, rfl⟩

theorem primitive_newInstance (k : Nat) : Primitive (newInstance k) :=
  primitive_ok (fun _ _ => rfl) fun _ => ⟨_, _, rfl⟩

theorem primitive_setField (id : Nat) (name : String) (v : Value) : Primitive (setField id name v) :=
  primitive_modify fun _ _ => rfl

theorem primitive_findMethod (name : String) (k : Nat) : Primitive (findMethod name k) :=
  primitive_get (fun _ _ => rfl) fun _ => primitive_pure _

theorem primitive_bindThis (method : Closure) (id : Nat) : Primitive (bindThis method id) :=
  (primitive_newEnvironment _ _).map _

theorem primitive_boundMethod (method : Closure) (id : Nat) : Primitive (boundMethod method id) :=
  (primitive_bindThis method id).bind fun c _ => primitive_newFunction c

theorem primitive_fieldOwner (object : Value) (name : Lexeme) : Primitive (fieldOwner object name) := by
  cases object with
  | instance_ id => exact primitive_pure id
  | _ => exact primitive_throw rfl

theorem primitive_methodEnv (parent : Option Nat) : Primitive (methodEnv parent) := by
  cases parent with
  | none => exact primitive_get (fun _ _ => rfl) fun _ => primitive_pure _
  | some k => exact primitive_get (fun _ _ => rfl) fun _ => primitive_newEnvironment _ _

theorem primitive_globalValue (name : String) : Primitive (globalValue name) :=
  primitive_get (fun _ _ => rfl) fun _ => primitive_pure _

/-! ## Steps in a room -/

/-- A relation between two actions that every step of the machine has to itself, and that is
kept when actions are put together, in rooms of which the one may stand for the other (`L`). -/
structure Kept (L : Nat → Nat → Prop) (R : ∀ {α : Type}, Eval α → Eval α → Prop) : Prop where
  primitive : ∀ {α : Type} {a : Eval α}, Primitive a → R a a
  bind : ∀ {α β : Type} {a a' : Eval α} {f f' : α → Eval β}, R a a' → (∀ v, MayGive a' v → R (f v) (f' v)) →
    R (a >>= f) (a' >>= f')
  inside : ∀ {α : Type} {a a' : Eval α} (env : Nat), R a a' → R (inside env a) (inside env a')
  deeper : ∀ {α : Type} {k k' : Nat} {p p' : Nat → Eval α}, L k k' → (∀ j j', L j j' → R (p j) (p' j')) →
    R (deeper k p) (deeper k' p')

section Kept

variable {L : Nat → Nat → Prop} {R : ∀ {α : Type}, Eval α → Eval α → Prop} {k k' : Nat}

theorem Kept.pure (hR : Kept L R) (v : α) : R (pure v) (pure v) := hR.primitive (primitive_pure v)

theorem Kept.map (hR : Kept L R) {a a' : Eval α} (h : R a a') (f : α → β) :
    R (do return f (← a)) (do return f (← a')) :=
  hR.bind h fun v _ => hR.pure (f v)

/-- What is done by something that is read off the machine, and not by what has been printed. -/
theorem Kept.observe {γ : Type} (hR : Kept L R) (g : Machine → γ) (hg : ∀ before m, g (m.behind before) = g m)
    (f f' : γ → Eval α) (h : ∀ m, R (f (g m)) (f' (g m))) : R (do f (g (← get))) (do f' (g (← get))) := by
  have hread : Primitive (do return g (← get)) :=
    primitive_get (fun before m => by rw [hg]) fun _ => primitive_pure _
  have hdone := hR.bind (hR.primitive hread) fun v (hv : MayGive _ v) => show R (f v) (f' v) by
    obtain ⟨m, m', hm⟩ := hv
    cases hm
    exact h m
  exact hdone

theorem Kept.needs (hR : Kept L R) (hL : L k k') {a a' : Eval α} (h : R a a') (levels : Nat) :
    R (needs levels k a) (needs levels k' a') := by
  induction levels generalizing k k' with
  | zero => exact h
  | succ levels ih => exact hR.deeper hL fun j j' hj => ih hj

theorem Kept.orFail (hR : Kept L R) (hL : L k k') {x : Except Fault α}
    (h : ∀ fault, x = .error fault → fault.isOverflow = false) : R (orFail k x) (orFail k' x) := by
  cases x with
  | ok v => exact hR.pure v
  | error fault =>
    have hcalm : (Stop.fault fault).isOverflow = false := h fault rfl
    exact hR.needs hL (hR.primitive (primitive_throw hcalm)) 1

theorem Kept.ofOperator (hR : Kept L R) (hL : L k k') {x : Except RuntimeError α}
    (h : ∀ error, x = .error error → (Fault.runtime error).isOverflow = false) :
    R (ofOperator k x) (ofOperator k' x) := by
  refine hR.orFail hL fun fault hx => ?_
  cases x with
  | ok v => cases hx
  | error error =>
    cases hx
    exact h error rfl

theorem Kept.printValue (hR : Kept L R) (hL : L k k') (v : Value) : R (printValue k v) (printValue k' v) :=
  hR.needs hL (hR.primitive (primitive_get (fun _ _ => rfl) fun m => primitive_print (m.display v))) _

theorem Kept.echo (hR : Kept L R) (hL : L k k') (v : Value) : R (echo k v) (echo k' v) :=
  hR.deeper hL fun _ _ hj => hR.printValue hj v

theorem Kept.assignIn (hR : Kept L R) (hL : L k k') (env : Nat) (name : Lexeme) (v : Value) :
    R (assignIn k env name v) (assignIn k' env name v) := by
  let set (room : Nat) (held : Except Fault Nat) : Eval Unit := do
    let i ← Eval.orFail room held
    modify fun m => { m with store := m.store.define i name.text v }
  exact hR.observe (fun m => m.store.holder env name) (fun _ _ => rfl) (set k) (set k') fun m =>
    hR.bind (hR.orFail hL fun _ => Store.holder_calm) fun _ _ => hR.primitive (primitive_modify fun _ _ => rfl)

theorem Kept.read (hR : Kept L R) (hL : L k k') (target : Reference) :
    R (Eval.read k target) (Eval.read k' target) := by
  refine hR.deeper hL fun j j' hj => hR.bind (hR.primitive (primitive_distance? target)) fun d _ => ?_
  cases d with
  | some d => exact hR.needs hj (hR.primitive (primitive_readAt d _)) 2
  | none =>
    exact hR.deeper hj fun i i' hi =>
      hR.observe (fun m => m.store.read globalEnv target.name) (fun _ _ => rfl) (Eval.orFail i)
        (Eval.orFail i') fun _ =>
        hR.orFail hi fun _ => Store.read_calm

theorem Kept.assign (hR : Kept L R) (hL : L k k') (target : Reference) (v : Value) :
    R (Eval.assign k target v) (Eval.assign k' target v) := by
  refine hR.bind (hR.primitive (primitive_distance? target)) fun d _ => ?_
  cases d with
  | some d => exact hR.needs hL (hR.primitive (primitive_assignAt d _ v)) 2
  | none => exact hR.deeper hL fun j j' hj => hR.assignIn hj _ _ v

/-- A call is checked: its callee, then the number of its arguments. -/
theorem Kept.checkCall (hR : Kept L R) (hL : L k k') (paren : Lexeme) (callee : Value) (count : Nat) :
    R (checkCall k paren callee count) (checkCall k' paren callee count) := by
  have harity : R (arity? k callee) (arity? k' callee) := by
    cases callee with
    | function id =>
      exact hR.primitive (primitive_get (fun _ _ => rfl) fun _ => (primitive_deref _).map _)
    | class_ c =>
      refine hR.bind (hR.needs hL (hR.primitive (primitive_findMethod _ c)) 2) fun found _ => ?_
      cases found <;> exact hR.pure _
    | _ => exact hR.pure _
  refine hR.bind harity fun expected _ => ?_
  cases expected with
  | none => exact hR.primitive (primitive_throw rfl)
  | some expected =>
    refine hR.primitive ?_
    show Primitive (if count = expected then Pure.pure () else fail paren (.wrongArity expected count))
    split
    · exact primitive_pure _
    · exact primitive_throw rfl

/-- A property is looked up: a field, then a method, which is bound. -/
theorem Kept.property (hR : Kept L R) (hL : L k k') (object : Value) (name : Lexeme) :
    R (property k object name) (property k' object name) := by
  cases object with
  | instance_ id =>
    have hfound : Primitive (do deref (← get).instances[id]?) :=
      primitive_get (fun _ _ => rfl) fun _ => primitive_deref _
    have hstart (room : Nat) : Eval.property room (.instance_ id) name =
        (do deref (← get).instances[id]?) >>= _ :=
      rfl
    rw [hstart, hstart]
    refine hR.bind (hR.primitive hfound) fun i _ => ?_
    split
    · exact hR.pure _
    · refine hR.bind (hR.needs hL (hR.primitive (primitive_findMethod _ _)) 2) fun found _ => ?_
      cases found with
      | some method => exact hR.needs hL (hR.primitive (primitive_boundMethod method id)) 3
      | none => exact hR.primitive (primitive_throw rfl)
  | _ => exact hR.primitive (primitive_throw rfl)

/-- A method of the superclass is looked up and bound. -/
theorem Kept.superMethod (hR : Kept L R) (hL : L k k') (keyword : Reference) (method : Lexeme) :
    R (superMethod k keyword method) (superMethod k' keyword method) := by
  refine hR.needs hL (hR.primitive ?_) 2
  refine (primitive_distance? keyword).bind fun d _ => ?_
  cases d with
  | none => exact primitive_throw rfl
  | some d =>
    refine (primitive_readAt d _).bind fun parent _ => (primitive_readAt (d - 1) _).bind fun receiver _ => ?_
    split
    · refine (primitive_findMethod _ _).bind fun found _ => ?_
      cases found with
      | some found => exact primitive_boundMethod found _
      | none => exact primitive_throw rfl
    · exact primitive_throw rfl

theorem Kept.binary (hR : Kept L R) (hL : L k k') (op : Lexeme) (left right : Value) :
    R (binary k op left right) (binary k' op left right) := by
  refine hR.deeper hL fun j j' hj => hR.needs hj ?_ _
  exact hR.observe (fun m => Operator.binary m.display op left right) (fun _ _ => rfl) (Eval.ofOperator j)
    (Eval.ofOperator j')
    fun _ => hR.ofOperator hj fun _ => Operator.binary_calm

theorem Kept.superclassValue (hR : Kept L R) (hL : L k k') (parent : Reference) :
    R (superclassValue k parent) (superclassValue k' parent) := by
  refine hR.deeper hL fun j j' hj => hR.bind (hR.read hj parent) fun v _ => ?_
  cases v with
  | class_ c => exact hR.pure c
  | _ => exact hR.primitive (primitive_throw rfl)

/-- A class is declared: its superclass, its environment, its methods, its name. -/
theorem Kept.declareClass (hR : Kept L R) (hL : L k k') (name : Lexeme) (superclass : Option Reference)
    (methods : List Routine) :
    R (declareClass k name superclass methods) (declareClass k' name superclass methods) := by
  have hparent : R (superclass.mapM (Eval.superclassValue k)) (superclass.mapM (Eval.superclassValue k')) := by
    cases superclass with
    | none => exact hR.pure none
    | some parent => exact hR.map (hR.superclassValue hL parent) some
  refine hR.bind hparent fun parent _ => hR.deeper hL fun j j' hj => ?_
  refine hR.bind (hR.primitive (primitive_define _ _)) fun _ _ => hR.bind (hR.primitive (primitive_methodEnv parent))
    fun env _ => ?_
  refine hR.bind (hR.primitive (primitive_newClass _)) fun made _ => ?_
  exact hR.observe Machine.current (fun _ _ => rfl) (fun env => Eval.assignIn j env name made)
    (fun env => Eval.assignIn j' env name made) fun m => hR.assignIn hj m.current name made

end Kept

/-! ## Steps as such -/

theorem bind_congr_of_mayGive {a : Eval α} {f f' : α → Eval β} (h : ∀ v, MayGive a v → f v = f' v) :
    a >>= f = a >>= f' := by
  funext m
  cases ha : a m with
  | ok v m' => rw [bind_ok ha, bind_ok ha, h v ⟨m, m', ha⟩]
  | error stop m' => rw [bind_error ha, bind_error ha]

/-- To be primitive is kept by all that actions are made of. -/
theorem kept_primitive : Kept Eq fun a a' => a = a' ∧ Primitive a where
  primitive h := ⟨rfl, h⟩
  bind h hf := by
    obtain ⟨rfl, ha⟩ := h
    exact ⟨bind_congr_of_mayGive fun v hv => (hf v hv).1, ha.bind fun v hv => (hf v hv).2⟩
  inside env h := ⟨by rw [h.1], h.2.inside env⟩
  deeper {_ k k' p p'} hk hp := by
    subst hk
    cases k with
    | zero => exact ⟨rfl, primitive_throw rfl⟩
    | succ k => exact hp k k rfl

theorem Primitive.needs {a : Eval α} (h : Primitive a) (levels room : Nat) : Primitive (needs levels room a) :=
  (kept_primitive.needs rfl ⟨rfl, h⟩ levels).2

theorem primitive_echo (room : Nat) (v : Value) : Primitive (echo room v) := (kept_primitive.echo rfl v).2

theorem primitive_read (room : Nat) (target : Reference) : Primitive (Eval.read room target) :=
  (kept_primitive.read rfl target).2

end Eval

end Lox
