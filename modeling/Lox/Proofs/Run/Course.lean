/-
  Lox.Proofs.Run.Course — what is evaluated within a moment is over before the moment is:
  its machine only grows until the moment is done (`done_grows`), and then until the end of
  the session (`seen_grows`).

  `Moment.done` is the machine that a moment leaves, however its evaluation ends. What
  follows a part is again made of parts of the same moment and of effects on its machine,
  and these are sound, so the lemma is one case for each way to come from a moment to a
  part of it. All that a session shows of its machines (`Seen`) can then be compared on the
  last of them.
-/

import Lox.Proofs.Run.Restored

namespace Lox

open Eval

variable {α β : Type} {host : Host} {w : World} {m m' D : Machine} {M M' : Moment}

/-- The machine that a moment leaves, however its evaluation ends. -/
def Moment.done (host : Host) (M : Moment) : Machine :=
  let enter := invoke host M.calls
  match M.task with
  | .program interactive ss => final (ss.forM (topLevel host interactive)) M.machine
  | .stmts ss => final (stmts host enter M.room ss) M.machine
  | .stmt s => final (stmt host enter M.room s) M.machine
  | .rounds e body step left =>
    final (rounds (test enter M.room e) (stmt host enter M.room body) (exprOpt enter M.room step) left) M.machine
  | .parent _ target => final (superclassValue M.room target) M.machine
  | .exprs es => final (exprs enter M.room es) M.machine
  | .expr e => final (expr enter M.room e) M.machine
  | .enter paren callee values => final (enter M.room paren callee values) M.machine
  | .call c values => final (call (stmts host enter) M.room c values) M.machine
  | .bind method id => final (bindThis method id) M.machine

theorem Safe.stays {a : Eval α} {Q : α → Machine → Prop} (h : Safe w a m Q) : Stays w m (final a m) := by
  cases ha : a m with
  | ok v m' => exact final_ok ha ▸ (h.ok ha).1
  | error stop m' => exact final_error ha ▸ (h.error ha).1

theorem Safe.grows {a : Eval α} {Q : α → Machine → Prop} (h : Safe w a m Q) : Grows m (final a m) := h.stays.grows

theorem Sound.stays (h : Sound host w M) : Stays w M.machine (M.done host) := by
  obtain ⟨n, room, task, m⟩ := M
  cases task with
  | bind method id =>
    unfold Sound SafeBind at h
    exact Safe.stays h
  | _ => exact Safe.stays h

theorem Sound.grows (h : Sound host w M) : Grows M.machine (M.done host) := h.stays.grows

/-! ## One action after the other -/

theorem final_bind_ok {a : Eval α} {v : α} (ha : a m = .ok v m') (f : α → Eval β) :
    final (a >>= f) m = final (f v) m' := by
  unfold final
  rw [bind_ok ha]

theorem grows_bind {a : Eval α} {f : α → Eval β} (h : ∀ v m', a m = .ok v m' → Grows m' (final (f v) m')) :
    Grows (final a m) (final (a >>= f) m) := by
  cases ha : a m with
  | ok v m' =>
    rw [final_bind_ok ha, final_ok ha]
    exact h v m' ha
  | error stop m' =>
    rw [final_error ha, final_error (bind_error ha f)]
    exact Grows.refl m'

/-- What comes before has ended. -/
theorem grows_after {a : Eval α} {f : α → Eval β} {v : α} (ha : a m = .ok v m') (h : Grows D (final (f v) m')) :
    Grows D (final (a >>= f) m) := by
  rwa [final_bind_ok ha]

theorem final_congr {a b : Eval α} (h : a m = b m) : final a m = final b m := by
  unfold final
  rw [h]

/-- What follows only looks at the machine. -/
theorem final_then {a : Eval α} {f : α → Eval β} (h : ∀ v m, final (f v) m = m) : final (a >>= f) m = final a m := by
  cases ha : a m with
  | ok v m' => rw [final_bind_ok ha, final_ok ha, h v m']
  | error stop m' => rw [final_error ha, final_error (bind_error ha f)]

theorem grows_then {a : Eval α} {f : α → Eval β} (h : ∀ v m, final (f v) m = m) :
    Grows (final a m) (final (a >>= f) m) :=
  (final_then h).symm ▸ Grows.refl _

/-- What stops for want of room changes nothing. -/
theorem grows_deeper {p : Nat → Eval α} (h : ∀ left, Grows m (final (p left) m)) (room : Nat) :
    Grows m (final (deeper room p) m) := by
  cases room with
  | zero => exact Grows.refl m
  | succ left => exact h left

theorem grows_needs {a : Eval α} (h : Grows m (final a m)) (levels room : Nat) :
    Grows m (final (needs levels room a) m) := by
  induction levels generalizing room with
  | zero => exact h
  | succ levels ih => exact grows_deeper ih room

/-- The machine of a call is the one at which it came to the end of the stack. -/
theorem final_catchStack (paren : Lexeme) (a : Eval α) (m : Machine) : final (catchStack paren a) m = final a m := by
  rcases catchStack_cases paren a m with hsame | ⟨m', ha, hcaught⟩
  · exact final_congr hsame
  · rw [final_error ha, final_error hcaught]

theorem grows_printValue (room : Nat) (v : Value) (m : Machine) : Grows m (final (printValue room v) m) :=
  have hprint : Grows m (final (do print ((← get).display v)) m) := grows_same rfl rfl rfl rfl
  grows_needs hprint _ room

theorem grows_inside (env : Nat) (a : Eval α) (m : Machine) :
    Grows (final a { m with current := env }) (final (inside env a) m) := by
  cases ha : a { m with current := env } with
  | ok v m' =>
    rw [final_ok ha, final_ok (inside_ok ha rfl)]
    exact grows_inEnv m' m.current
  | error stop m' =>
    rw [final_error ha, final_error (inside_error ha)]
    exact grows_inEnv m' m.current

/-! ## What changes nothing -/

theorem final_ofExcept (x : Except Fault α) (m : Machine) : final (Eval.ofExcept x) m = m := by cases x <;> rfl

theorem final_deeper {p : Nat → Eval α} (h : ∀ left, final (p left) m = m) (room : Nat) :
    final (deeper room p) m = m := by
  cases room with
  | zero => rfl
  | succ left => exact h left

theorem final_needs {a : Eval α} (h : final a m = m) (levels room : Nat) : final (needs levels room a) m = m := by
  induction levels generalizing room with
  | zero => exact h
  | succ levels ih => exact final_deeper ih room

theorem final_orFail (room : Nat) (x : Except Fault α) (m : Machine) : final (orFail room x) m = m := by
  cases x with
  | ok v => rfl
  | error fault =>
    have hthrow : final (throw (.fault fault) : Eval α) m = m := rfl
    exact final_needs hthrow 1 room

theorem final_ofOperator (room : Nat) (x : Except RuntimeError α) (m : Machine) : final (ofOperator room x) m = m :=
  final_orFail room _ m

theorem final_binary (room : Nat) (op : Lexeme) (a b : Value) (m : Machine) : final (binary room op a b) m = m := by
  refine final_deeper (fun left => final_needs ?_ _ left) room
  exact final_ofOperator left (Operator.binary m.display op a b) m

/-- To read a variable changes nothing. -/
theorem final_read (room : Nat) (target : Reference) (m : Machine) : final (Eval.read room target) m = m := by
  cases room with
  | zero => rfl
  | succ room =>
    cases hd : m.distances[target.slot]? with
    | some d =>
      rw [final_congr (read_local hd room)]
      have hread : final (readAt d target.name.text) m = m := final_ofExcept _ m
      exact final_needs hread 2 room
    | none =>
      rw [final_congr (read_global hd room)]
      exact final_deeper (fun room => final_orFail room _ m) room

/-- To look at a superclass changes nothing. -/
theorem final_superclassValue (room : Nat) (target : Reference) (m : Machine) :
    final (superclassValue room target) m = m := by
  refine final_deeper (fun room => ?_) room
  have hm := final_read room target m
  cases hr : Eval.read room target m with
  | ok v m' =>
    rw [final_ok hr] at hm
    subst hm
    cases v with
    | class_ k => exact final_ok (bind_ok hr _)
    | _ => exact final_error (bind_ok hr _)
  | error stop m' =>
    rw [final_error hr] at hm
    subst hm
    exact final_error (bind_error hr _)

/-! ## Methods that are found -/

/-- A method that no field hides is bound to its instance. -/
theorem property_method {room id : Nat} {i : Instance} {name : Lexeme} {found : Closure}
    (hi : m.instances[id]? = some i)
    (hnone : i.fields.get? name.text = none) (hfound : findMethod? m.classes name.text i.class_ = some found) :
    property (room + 3) (.instance_ id) name m = boundMethod found id m := by
  have hderef : deref m.instances[id]? m = .ok i m := by
    rw [hi]
    rfl
  have hfind : findMethod name.text i.class_ m = .ok (some found) m := by rw [findMethod_ok, hfound]
  refine (bind_ok hderef _).trans ?_
  simp only [hnone]
  exact bind_ok hfind _

/-- A method of the superclass is looked up in the class that `super` is bound to. -/
theorem superMethod_eq {room k id : Nat} {keyword : Reference} {name : Lexeme} {d : Int}
    (hd : m.distances[keyword.slot]? = some d)
    (hk : m.store.readAt m.current d superName = .ok (.class_ k))
    (hid : m.store.readAt m.current (d - 1) thisName = .ok (.instance_ id)) :
    superMethod (room + 2) keyword name m =
      match findMethod? m.classes name.text k with
      | some found => boundMethod found id m
      | none => fail name (.undefinedProperty name.text) m := by
  have hread {x : String} {d : Int} {v : Value} (h : m.store.readAt m.current d x = .ok v) : readAt d x m
    = .ok v m := by
    show Eval.ofExcept (m.store.readAt m.current d x) m = _
    rw [h]
    rfl
  refine (bind_ok (hd ▸ distance_ok keyword m) _).trans
    ((bind_ok (hread hk) _).trans ((bind_ok (hread hid) _).trans ?_))
  refine (bind_ok (findMethod_ok name.text k m) _).trans ?_
  cases findMethod? m.classes name.text k <;> rfl

theorem grows_boundMethod (method : Closure) (id : Nat) (m : Machine) :
    Grows (final (bindThis method id) m) (final (boundMethod method id) m) :=
  grows_bind fun c _ _ => grows_newFunction c

/-! ## What is left to do after a part -/

section Rest

variable {n room : Nat}

/-- After the body of a round. -/
theorem grows_round {e : Expr} {body : Stmt} {step : Option Expr} {left : Nat} {done : Completion} {m₁ m₂ : Machine}
    (parts : PartsSound host w ⟨n, room, .rounds e body step (left + 1), m⟩)
    (htest : test (invoke host n) room e m = .ok true m₁)
    (hbody : stmt host (invoke host n) room body m₁ = .ok done m₂) :
    Grows m₂ (final (match done with
      | .broken => return .normal
      | .returned v => return .returned v
      | _ => do
        let _ ← exprOpt (invoke host n) room step
        rounds (test (invoke host n) room e) (stmt host (invoke host n) room body) (exprOpt (invoke host n) room step)
          left) m₂) := by
  have again (hd : done = .normal ∨ done = .continued) : Grows m₂ (final (do
      let _ ← exprOpt (invoke host n) room step
      rounds (test (invoke host n) room e) (stmt host (invoke host n) room body) (exprOpt (invoke host n) room step)
        left) m₂) := by
    cases step with
    | none => exact Sound.grows (parts _ (.loopAgain htest hbody hd rfl))
    | some step =>
      exact (Sound.grows (parts _ (.loopStep htest hbody hd))).trans
        (grows_bind fun v m₃ hstep => Sound.grows (parts _ (.loopAgain htest hbody hd hstep)))
  cases done with
  | broken | returned => exact Grows.refl m₂
  | normal => exact again (Or.inl rfl)
  | continued => exact again (Or.inr rfl)

/-- The call itself, with its callee and its arguments at hand. -/
theorem grows_called {f : Expr} {paren : Lexeme} {es : List Expr} {v : Value} {vs : List Value} {m₁ m₂ : Machine}
    (parts : PartsSound host w ⟨n, room + 2, .expr (.call f paren es), m⟩)
    (hf : expr (invoke host n) room f m = .ok v m₁) (hes : exprs (invoke host n) room es m₁ = .ok vs m₂) :
    Grows m₂ (final (do checkCall room paren v vs.length; invoke host n room paren v vs) m₂) := by
  obtain ⟨hs, hv⟩ := Safe.ok (parts _ .callee) hf
  obtain ⟨hs', -⟩ := Safe.ok (parts _ (.arguments hf)) hes
  have hcheck : Safe w (checkCall room paren v vs.length) m₂ fun _ m' => m' = m₂ ∧ arity? room v m₂
    = .ok (some vs.length) m₂ :=
    safe_checkCall hs'.inv (Machine.Valid.grows hv hs'.grows)
  exact hcheck.grows.trans (grows_bind fun u m₃ hok => Sound.grows (parts _ (.entered hf hes hok)))

end Rest

/-! ## Within a moment -/

section Parts

variable {n room : Nat}

/-! `grows_bind` is for the part that comes first, `grows_after` for one behind parts that have ended. -/

/-- A statement of a program is over before the program is. -/
theorem program_part_grows {interactive : Bool} {ss : List Stmt}
    (parts : PartsSound host w ⟨n, room, .program interactive ss, m⟩)
    (he : Evaluates host ⟨n, room, .program interactive ss, m⟩ M') :
    Grows (M'.done host) (Moment.done host ⟨n, room, .program interactive ss, m⟩) := by
  cases he with
  | @prompt e rest =>
    have hvalue : Grows (final (expr (invoke host host.calls) host.stack e) m)
      (final (topLevel host true (.expr e)) m) :=
      grows_bind fun v m₁ _ => grows_deeper (fun room => grows_printValue room v m₁) host.stack
    exact hvalue.trans (grows_bind fun u m₁ hok => Sound.grows (parts _ (.statements hok)))
  | @statement _ s rest _ hs =>
    have hstmt : Grows (final (stmt host (invoke host host.calls) host.stack s) m)
      (final (topLevel host interactive s) m) := by
      unfold topLevel
      split
      next e => exact absurd rfl (hs rfl e)
      next name _ =>
        exact grows_bind fun done m₁ _ => grows_deeper (fun room => grows_printValue room _ m₁) host.stack
      next => exact grows_then fun _ _ => rfl
    exact hstmt.trans (grows_bind fun u m₁ hok => Sound.grows (parts _ (.statements hok)))
  | statements hok => exact grows_after hok (Grows.refl _)

/-- A statement of a list is over before the list is. -/
theorem stmts_part_grows {ss : List Stmt} (parts : PartsSound host w ⟨n, room, .stmts ss, m⟩)
    (he : Evaluates host ⟨n, room, .stmts ss, m⟩ M') :
    Grows (M'.done host) (Moment.done host ⟨n, room, .stmts ss, m⟩) := by
  cases he with
  | first =>
    refine grows_bind fun done m₁ hok => ?_
    cases done with
    | normal => exact Sound.grows (parts _ (.next hok))
    | _ => exact Grows.refl m₁
  | next hok => exact grows_after hok (Grows.refl _)

/-- What is evaluated to decide how a statement goes on. -/
theorem test_grows {e : Expr} {f : Bool → Eval Completion}
    (h : ∀ truth m₁, test (invoke host n) room e m = .ok truth m₁ → Grows m₁ (final (f truth) m₁)) :
    Grows (final (expr (invoke host n) room e) m) (final (test (invoke host n) room e >>= f) m) :=
  (grows_then fun _ _ => rfl).trans (grows_bind h)

/-- What a statement is made of is over before the statement is; a block and a class leave the
environments that they have opened. -/
theorem stmt_part_grows {s : Stmt} (parts : PartsSound host w ⟨n, room, .stmt s, m⟩)
    (hf : Fits host w ⟨n, room, .stmt s, m⟩)
    (hs : Sound host w ⟨n, room, .stmt s, m⟩) (he : Evaluates host ⟨n, room, .stmt s, m⟩ M') :
    Grows (M'.done host) (Moment.done host ⟨n, room, .stmt s, m⟩) := by
  cases he with
  | effect => exact grows_then fun _ _ => rfl
  | @printed _ room =>
    exact grows_bind fun v m₁ _ => (grows_printValue room v m₁).trans (grows_then fun _ _ => rfl)
  | @init _ room name e =>
    refine grows_bind fun v m₁ hok => ?_
    obtain ⟨hs, -⟩ := Safe.ok (parts _ .init) hok
    -- The initializer has left the environment open to names of the program.
    have hhome : m₁.IsOpen m₁.current := hs.current ▸ hs.grows.opens _ hf.home
    exact (grows_needs (grows_define hf.task.tidy.1 hhome) 1 room).trans (grows_then fun _ _ => rfl)
  | @block _ room body =>
    exact grows_inside m.store.size (stmts host (invoke host n) room body)
      { m with store := m.store.push ∅ (some m.current) }
  | @condTest _ _ e yes no =>
    refine test_grows fun truth m₁ hok => ?_
    cases truth with
    | true => exact Sound.grows (parts _ (.condYes hok))
    | false =>
      cases no with
      | none => exact Grows.refl m₁
      | some no => exact Sound.grows (parts _ (.condNo hok))
  | condYes hok => exact grows_after hok (Grows.refl _)
  | condNo hok => exact grows_after hok (Grows.refl _)
  | loop => exact Grows.refl _
  | returned => exact grows_then fun v m₁ => final_needs rfl 1 _
  | @parent _ room name target ms =>
    have hsame : Moment.done host ⟨n, room, .parent name target, m⟩ = m := final_superclassValue room target m
    rw [hsame]
    exact hs.grows

/-- The test, the body and the step of a round are over before the loop is, and so are the
rounds that follow. -/
theorem rounds_part_grows {e : Expr} {body : Stmt} {step : Option Expr} {left : Nat}
    (parts : PartsSound host w ⟨n, room, .rounds e body step left, m⟩)
    (he : Evaluates host ⟨n, room, .rounds e body step left, m⟩ M') :
    Grows (M'.done host) (Moment.done host ⟨n, room, .rounds e body step left, m⟩) := by
  cases he with
  | loopTest =>
    refine test_grows fun truth m₁ hok => ?_
    cases truth with
    | false => exact Grows.refl m₁
    | true =>
      exact (Sound.grows (parts _ (.loopBody hok))).trans (grows_bind fun done m₂ hbody => grows_round parts hok hbody)
  | loopBody hok => exact grows_after hok (grows_bind fun done m₂ hbody => grows_round parts hok hbody)
  | loopStep hok hbody hdone =>
    refine grows_after hok (grows_after hbody ?_)
    rcases hdone with rfl | rfl
    · exact grows_bind fun v m₃ hstep => Sound.grows (parts _ (.loopAgain hok hbody (Or.inl rfl) hstep))
    · exact grows_bind fun v m₃ hstep => Sound.grows (parts _ (.loopAgain hok hbody (Or.inr rfl) hstep))
  | loopAgain hok hbody hdone hstep =>
    refine grows_after hok (grows_after hbody ?_)
    rcases hdone with rfl | rfl <;> exact grows_after hstep (Grows.refl _)

/-- An argument is evaluated before those behind it. -/
theorem exprs_part_grows {es : List Expr} (parts : PartsSound host w ⟨n, room, .exprs es, m⟩)
    (he : Evaluates host ⟨n, room, .exprs es, m⟩ M') :
    Grows (M'.done host) (Moment.done host ⟨n, room, .exprs es, m⟩) := by
  cases he with
  | argument =>
    exact grows_bind fun v m₁ hok => (Sound.grows (parts _ (.nextArguments hok))).trans (grows_then fun _ _ => rfl)
  | nextArguments hok => exact grows_after hok (grows_then fun _ _ => rfl)

/-- Operands are evaluated before what is done with their values. -/
theorem expr_part_grows {e : Expr} (parts : PartsSound host w ⟨n, room, .expr e, m⟩)
    (hf : Fits host w ⟨n, room, .expr e, m⟩)
    (he : Evaluates host ⟨n, room, .expr e, m⟩ M') : Grows (M'.done host) (Moment.done host ⟨n, room, .expr e, m⟩) := by
  cases he with
  | group => exact Grows.refl _
  | operand => exact grows_then fun _ _ => final_ofOperator ..
  | left =>
    exact grows_bind fun u m₁ hok =>
      (Sound.grows (parts _ (.right hok))).trans (grows_then fun _ _ => final_binary ..)
  | right hok => exact grows_after hok (grows_then fun _ _ => final_binary ..)
  | logicalLeft =>
    refine grows_bind fun u m₁ hok => ?_
    split
    next => exact Grows.refl m₁
    next hd => exact Sound.grows (parts _ (.logicalRight hok (Bool.not_eq_true _ ▸ hd)))
  | logicalRight hok hdecided =>
    refine grows_after hok ?_
    rw [hdecided]
    exact Grows.refl _
  | ternaryTest =>
    refine grows_bind fun u m₁ hok => ?_
    split
    next ht => exact Sound.grows (parts _ (.ternaryYes hok ht))
    next ht => exact Sound.grows (parts _ (.ternaryNo hok (Bool.not_eq_true _ ▸ ht)))
  | ternaryYes hok htruth =>
    refine grows_after hok ?_
    rw [htruth]
    exact Grows.refl _
  | ternaryNo hok htruth =>
    refine grows_after hok ?_
    rw [htruth]
    exact Grows.refl _
  | value =>
    refine grows_bind fun v m₁ hok => ?_
    obtain ⟨hs, hv⟩ := Safe.ok (parts _ .value) hok
    exact (safe_assigned hf hs hv _).grows.trans (grows_then fun _ _ => rfl)
  | callee =>
    exact grows_bind fun v m₁ hok =>
      (Sound.grows (parts _ (.arguments hok))).trans (grows_bind fun vs m₂ hes => grows_called parts hok hes)
  | arguments hok => exact grows_after hok (grows_bind fun vs m₂ hes => grows_called parts hok hes)
  | entered hok hargs hcheck => exact grows_after hok (grows_after hargs (grows_after hcheck (Grows.refl _)))
  | object =>
    refine grows_bind fun v m₁ hok => ?_
    obtain ⟨hs, hv⟩ := Safe.ok (parts _ .object) hok
    refine (safe_property hs.inv hv fun id i found hroom he hi hnone hfound => ?_).grows
    subst he
    obtain ⟨left, rfl⟩ := Nat.exists_eq_add_of_le' hroom
    exact parts _ (.method hok hi hnone hfound)
  | @method _ room id e name i found _ m₁ hok hi hnone hfound =>
    refine grows_after hok ?_
    rw [final_congr (property_method hi hnone hfound)]
    exact grows_boundMethod found id m₁
  | setObject =>
    refine grows_bind fun v m₁ hok => ?_
    obtain ⟨hs, -⟩ := Safe.ok (parts _ .setObject) hok
    refine Safe.grows (Q := fun _ _ => True) (Safe.bind (safe_fieldOwner hs.inv) fun id m₂ _ _ hid => ?_)
    obtain ⟨rfl, rfl⟩ := hid
    refine Safe.bind (parts _ (.setValue hok)) fun u m₃ _ hs' hu => ?_
    exact Safe.bind (safe_setField hs'.inv hu id) fun _ _ _ hs'' _ => Safe.pure hs''.inv trivial
  | setValue hok => exact grows_after hok (grows_after rfl (grows_bind fun u m₂ _ => grows_setField _ _ u))
  | @super _ room k id keyword name d found _ hd hk hid hfound =>
    show Grows _ (final (superMethod (room + 2) keyword name) m)
    rw [final_congr ((superMethod_eq hd hk hid).trans (by rw [hfound]))]
    exact grows_boundMethod found id m

/-- A function that is called is over before its call is; an initializer is bound first. -/
theorem enter_part_grows {paren : Lexeme} {callee : Value} {values : List Value}
    (parts : PartsSound host w ⟨n, room, .enter paren callee values, m⟩)
    (he : Evaluates host ⟨n, room, .enter paren callee values, m⟩ M') :
    Grows (M'.done host) (Moment.done host ⟨n, room, .enter paren callee values, m⟩) := by
  cases he with
  | @function n room id _ c _ _ hc =>
    have hderef : deref m.closures[id]? m = .ok c m := by
      rw [hc]
      rfl
    show Grows _ (final (catchStack paren _) m)
    rw [final_catchStack]
    exact grows_after rfl (grows_after hderef (Grows.refl _))
  | @initializer n room k id _ found _ _ m₁ hnew hfound =>
    have hfind : findMethod initName k m₁ = .ok (some found) m₁ := by rw [findMethod_ok, hfound]
    show Grows _ (final (catchStack paren _) m)
    rw [final_catchStack]
    exact grows_after hnew (grows_after hfind (grows_bind fun c m₂ hbind =>
      (Sound.grows (parts _ (.construct hnew hfound hbind))).trans (grows_then fun _ _ => rfl)))
  | @construct n room k id _ found c _ _ m₁ m₂ hnew hfound hbind =>
    have hfind : findMethod initName k m₁ = .ok (some found) m₁ := by rw [findMethod_ok, hfound]
    show Grows _ (final (catchStack paren _) m)
    rw [final_catchStack]
    exact grows_after hnew (grows_after hfind (grows_after hbind (grows_then fun _ _ => rfl)))

/-- A body is over before its call is. -/
theorem call_part_grows {c : Closure} {values : List Value} (he : Evaluates host ⟨n, room, .call c values, m⟩ M') :
    Grows (M'.done host) (Moment.done host ⟨n, room, .call c values, m⟩) := by
  cases he with
  | @body _ room =>
    let called : Machine := { m with store := m.store.push (arguments c.routine.params values ∅) (some c.env) }
    have hpush : newEnvironment (arguments c.routine.params values ∅) c.env m = .ok m.store.size called := rfl
    have hbody := grows_inside m.store.size (stmts host (invoke host n) room c.routine.body) called
    refine grows_after hpush (hbody.trans (grows_bind fun done m₁ _ => ?_))
    split
    next =>
      -- Behind the body an initializer reads its receiver, which changes nothing.
      have hread : final (readAt 0 thisName) { m₁ with current := c.env } = { m₁ with current := c.env } :=
        final_ofExcept _ _
      have hinside := grows_inside c.env (readAt 0 thisName) m₁
      rw [hread] at hinside
      exact grows_needs ((grows_inEnv m₁ c.env).trans hinside) 2 _
    next => cases done <;> exact Grows.refl m₁

end Parts

/-- A part of a moment is over before the moment is, and what follows only adds to the machine. -/
theorem done_grows (hist : History host w) (ho : hist.occurs M) (hf : Fits host w M) (he : Evaluates host M M') :
    Grows (M'.done host) (M.done host) := by
  have parts : PartsSound host w M := fun M₁ he₁ =>
    sound hist M₁ (hist.closed _ _ ho he₁) (fits_step hist ho hf (fun M₂ _ => sound hist M₂) he₁)
  obtain ⟨n, room, task, m⟩ := M
  cases task with
  | program interactive ss => exact program_part_grows parts he
  | stmts ss => exact stmts_part_grows parts he
  | stmt s => exact stmt_part_grows parts hf (sound hist _ ho hf) he
  | rounds e body step left => exact rounds_part_grows parts he
  | exprs es => exact exprs_part_grows parts he
  | expr e => exact expr_part_grows parts hf he
  | enter paren callee values => exact enter_part_grows parts he
  | call c values => exact call_part_grows he
  | parent | bind => cases he

/-- What is evaluated on the way is over before the whole is. -/
theorem reaches_grows (hist : History host w) (ho : hist.occurs M) (hf : Fits host w M) (h : Reaches host M M') :
    Grows (M'.done host) (M.done host) := by
  induction h with
  | refl => exact Grows.refl _
  | step hreach he ih =>
    obtain ⟨ho', hf'⟩ := fits_reaches hist ho hf hreach
    exact (done_grows hist ho' hf' he).trans ih

/-! ## In a session -/

open Session

variable {interactive : Bool} {sources before rest : List String} {source : String} {p : List Stmt}

/-- The machines that a session shows: between two texts, and before and after anything
that is evaluated. -/
inductive Seen (host : Host) (interactive : Bool) (sources : List String) : Machine → Prop
  | between {before rest : List String} : sources = before ++ rest →
      Seen host interactive sources (after host interactive before).machine
  | begun {M : Moment} : Occurs host interactive sources M → Seen host interactive sources M.machine
  | done {M : Moment} : Occurs host interactive sources M → Seen host interactive sources (M.done host)

/-- What occurs fits into the world of the texts up to its own. -/
theorem occurs_fits (h : Occurs host interactive sources M) :
    ∃ before source rest, sources = before ++ source :: rest ∧
      Fits host (world host interactive sources (before ++ [source])) M := by
  obtain ⟨before, source, rest, p, hs, hruns, hreach⟩ := h
  have hbegins : Occurs host interactive sources ((after host interactive before).begins host p) :=
    ⟨before, source, rest, p, hs, hruns, .refl⟩
  have hfits := fits_begins (ready_after hs) hruns
  exact ⟨before, source, rest, hs,
    (fits_reaches (history host interactive sources (before ++ [source])) hbegins hfits hreach).2⟩

/-- A run that executes its program leaves the machine as the program left it. -/
theorem run_grows (host : Host) (hruns : (after host interactive before).Runs source p) :
    Grows (((after host interactive before).begins host p).done host)
      (after host interactive (before ++ [source])).machine := by
  rcases run_cases host (after host interactive before) source with ⟨-, hnone, -⟩ | ⟨q, m, hq, hm⟩
  · exact absurd hruns (hnone p)
  · have hsame : q = p := hq.program.symm.trans hruns.program
    subst hsame
    rw [after_snoc, hm.session]
    have hfinal : ((after host interactive before).begins host q).done host = m := by
      rcases hm.ending with ⟨u, hok, -⟩ | ⟨stop, herror, -⟩
      · exact final_ok hok
      · exact final_error herror
    rw [hfinal]
    exact grows_same rfl rfl rfl rfl

/-- A text that is run only adds to the machine. -/
theorem after_grows (host : Host) (interactive : Bool) (before : List String) (source : String) :
    Grows (after host interactive before).machine (after host interactive (before ++ [source])).machine := by
  rcases run_cases host (after host interactive before) source with ⟨-, -, hsession⟩ | ⟨p, m, hruns, -⟩
  · rw [after_snoc, hsession]
    exact Grows.refl _
  · have hload : Grows (after host interactive before).machine
        ((after host interactive before).begins host p).machine :=
      grows_same rfl rfl rfl rfl
    have hsplit : before ++ [source] = before ++ source :: [] := rfl
    have hsound : Sound host (world host interactive (before ++ [source]) (before ++ [source]))
        ((after host interactive before).begins host p) := sound_begins (ready_after hsplit) hsplit hruns
    exact (hload.trans hsound.grows).trans (run_grows host hruns)

theorem after_grows_more (host : Host) (interactive : Bool) (before rest : List String) :
    Grows (after host interactive before).machine (after host interactive (before ++ rest)).machine := by
  induction rest generalizing before with
  | nil => exact (List.append_nil before).symm ▸ Grows.refl _
  | cons source rest ih =>
    have hmore := ih (before ++ [source])
    rw [List.append_assoc] at hmore
    exact (after_grows host interactive before source).trans hmore

/-- All that a session shows is still there at its end. -/
theorem seen_grows (h : Seen host interactive sources m) : Grows m (after host interactive sources).machine := by
  have hdone {M : Moment} (hM : Occurs host interactive sources M) :
      Grows (M.done host) (after host interactive sources).machine := by
    obtain ⟨before, source, rest, p, rfl, hruns, hreach⟩ := hM
    have hbegins : Occurs host interactive (before ++ source :: rest) ((after host interactive before).begins host p) :=
      ⟨before, source, rest, p, rfl, hruns, .refl⟩
    have hprogram := reaches_grows (history host interactive (before ++ source :: rest) (before ++ [source])) hbegins
      (fits_begins (ready_after rfl) hruns) hreach
    have hmore := after_grows_more host interactive (before ++ [source]) rest
    rw [List.append_assoc] at hmore
    exact (hprogram.trans (run_grows host hruns)).trans hmore
  cases h with
  | between hs => exact hs ▸ after_grows_more host interactive _ _
  | begun hM =>
    obtain ⟨before, source, rest, hs, hf⟩ := occurs_fits hM
    exact (sound (history host interactive sources (before ++ [source])) _ hM hf).grows.trans (hdone hM)
  | done hM => exact hdone hM

end Lox
