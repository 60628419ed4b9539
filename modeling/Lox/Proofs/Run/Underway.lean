/-
  Lox.Proofs.Run.Underway — whatever a founded machine is about to evaluate, all that is
  evaluated on the way begins and ends on founded machines, and the whole extends them.

  A moment is founded if its machine is and what it carries is there (`Moment.Founded`). It
  lies in an evaluation that comes to a machine `D` if `D` extends the machine that the moment
  leaves (`LiesIn`). What is evaluated within a moment lies in it (`part_lies`, one case for
  each way to come from a moment to a part of it), and so does all that is reached from it.
-/

import Lox.Proofs.Run.Upheld

namespace Lox

open Eval

variable {α β : Type} {host : Host} {m m' D : Machine} {M M' : Moment}

/-! ## Founded moments -/

/-- What a task carries is there. -/
def Task.Stands (m : Machine) : Task → Prop
  | .enter _ callee values => m.Valid callee ∧ ∀ v ∈ values, m.Valid v
  | .call c values => c.env < m.store.size ∧ ∀ v ∈ values, m.Valid v
  | .bind method id => method.env < m.store.size ∧ id < m.instances.size
  | _ => True

structure Moment.Founded (M : Moment) : Prop where
  machine : M.machine.Founded
  task : M.task.Stands M.machine

/-- However a moment ends, its machine has only been continued. -/
theorem Moment.Founded.done (h : M.Founded) (host : Host) : Continues M.machine (M.done host) := by
  obtain ⟨n, room, task, m⟩ := M
  have he := upholds_invoke host n
  have hm : m.Founded := h.machine
  cases task with
  | program interactive ss => exact (upholds_topLevels host interactive ss hm).1
  | stmts ss => exact (upholds_stmts he ss room hm).1
  | stmt s => exact (upholds_stmt he s room hm).1
  | rounds e body step left => exact (upholds_loop host he room e body step left hm).1
  | parent _ target => exact (upholds_superclassValue room target hm).1
  | exprs es => exact (upholds_exprs he es room hm).1
  | expr e => exact (upholds_expr he e room hm).1
  | enter paren callee values => exact (he room paren callee values h.task.1 h.task.2 hm).1
  | call c values => exact (upholds_call (upholds_stmts he) room h.task.1 h.task.2 hm).1
  | bind method id => exact (upholds_bindThis h.task.1 h.task.2 hm).1

/-! ## Within an evaluation -/

/-- The moment is founded and over before the machine `D` is come to. -/
structure LiesIn (host : Host) (M : Moment) (D : Machine) : Prop where
  founded : M.Founded
  before : Extends (M.done host) D

variable {a : Eval α} {f : α → Eval β} {Q : α → Machine → Prop} {R : β → Machine → Prop}

theorem LiesIn.whole (h : M.Founded) : LiesIn host M (M.done host) := ⟨h, .refl _⟩

theorem LiesIn.trans (h : LiesIn host M D) (g : Extends D m) : LiesIn host M m := ⟨h.founded, h.before.trans g⟩

/-- Within what comes first. -/
theorem LiesIn.bind (h : LiesIn host M (final a m)) (hm : m.Founded) (ha : Upholds a m Q)
    (hf : ∀ u m', Continues m m' → Q u m' → Upholds (f u) m' R) : LiesIn host M (final (a >>= f) m) :=
  h.trans (ha.then hm hf)

/-- Within what follows. -/
theorem LiesIn.after {u : α} (ha : a m = .ok u m') (h : LiesIn host M (final (f u) m')) :
    LiesIn host M (final (a >>= f) m) := by
  rwa [final_bind_ok ha]

theorem LiesIn.inside {env : Nat} (h : LiesIn host M (final a { m with current := env })) :
    LiesIn host M (final (inside env a) m) :=
  h.trans (grows_inside env a m).extends

/-! ## What is evaluated within a moment -/

/-- What is evaluated first, and then there is more to be done. -/
theorem LiesIn.first (hM : M.Founded) (hm : m.Founded) (hdone : M.done host = final a m) (ha : Upholds a m Q)
    (hf : ∀ u m', Continues m m' → Q u m' → Upholds (f u) m' R) : LiesIn host M (final (a >>= f) m) :=
  .bind (hdone ▸ .whole hM) hm ha hf

/-- What is evaluated behind something that has gone through. -/
theorem LiesIn.behind {u : α} (hm : m.Founded) (ha : Upholds a m Q) (hok : a m = .ok u m')
    (h : Continues m m' → Q u m' → LiesIn host M (final (f u) m')) : LiesIn host M (final (a >>= f) m) := by
  obtain ⟨hc, hu⟩ := ha.ok hm hok
  exact .after hok (h hc hu)

/-! A part begins on the machine that what goes before it has left, and what follows it only adds. -/

section Parts

variable {n room : Nat}

/-- A statement of a program lies within it. -/
theorem program_part_lies {interactive : Bool} {ss : List Stmt} (hm : m.Founded)
    (he : Evaluates host ⟨n, room, .program interactive ss, m⟩ M') :
    LiesIn host M' (Moment.done host ⟨n, room, .program interactive ss, m⟩) := by
  have hi := upholds_invoke host n
  cases he with
  | @prompt e rest =>
    refine .bind (.first ⟨hm, trivial⟩ hm rfl (upholds_expr hi e host.stack) fun v _ _ _ => upholds_echo host.stack v)
      hm
      (upholds_topLevel host true (.expr e)) fun _ _ _ _ => upholds_topLevels host true rest
  | @statement _ s rest _ hs =>
    refine .bind ?_ hm (upholds_topLevel host interactive s) fun _ _ _ _ => upholds_topLevels host interactive rest
    unfold topLevel
    split
    next e => exact absurd rfl (hs rfl e)
    next =>
      exact .first ⟨hm, trivial⟩ hm rfl (upholds_stmt hi _ host.stack) fun _ _ _ _ => .get (upholds_echo host.stack _)
    next =>
      exact .first ⟨hm, trivial⟩ hm rfl (upholds_stmt hi s host.stack) fun _ _ _ _ =>
        upholds_pure (Q := fun _ _ => True) trivial
  | @statements _ s rest u _ m' hok =>
    exact .behind hm (upholds_topLevel host interactive s) hok fun hc _ => .whole ⟨hc.founded, trivial⟩

/-- A statement of a list lies within it. -/
theorem stmts_part_lies {ss : List Stmt} (hm : m.Founded) (he : Evaluates host ⟨n, room, .stmts ss, m⟩ M') :
    LiesIn host M' (Moment.done host ⟨n, room, .stmts ss, m⟩) := by
  have hi := upholds_invoke host n
  cases he with
  | @first _ room s rest =>
    refine .first (R := Returns) ⟨hm, trivial⟩ hm rfl (upholds_stmt hi s room) fun done m₁ _ hdone => ?_
    cases done with
    | normal => exact upholds_stmts hi rest room
    | broken | continued | returned v => exact upholds_pure hdone
  | @next _ room s rest _ m' hok =>
    exact .behind hm (upholds_stmt hi s room) hok fun hc _ => .whole ⟨hc.founded, trivial⟩

/-- What is evaluated to decide how a statement goes on. -/
theorem test_lies {e : Expr} {f : Bool → Eval Completion} (hm : m.Founded)
    (hf : ∀ truth m', Upholds (f truth) m' Returns) :
    LiesIn host ⟨n, room, .expr e, m⟩ (final (test (invoke host n) room e >>= f) m) :=
  have hi := upholds_invoke host n
  .bind (.first ⟨hm, trivial⟩ hm rfl (upholds_expr hi e room) fun _ _ _ _ =>
    upholds_pure (Q := fun _ _ => True) trivial) hm
    (upholds_test hi e room) fun truth _ _ _ => hf truth _

/-- The parts of a statement lie within it. -/
theorem stmt_part_lies {s : Stmt} (hm : m.Founded) (he : Evaluates host ⟨n, room, .stmt s, m⟩ M') :
    LiesIn host M' (Moment.done host ⟨n, room, .stmt s, m⟩) := by
  have hi := upholds_invoke host n
  cases he with
  | @effect _ room e =>
    exact .first ⟨hm, trivial⟩ hm rfl (upholds_expr hi e room) fun _ _ _ _ => upholds_pure returns_normal
  | @printed _ room e =>
    exact .first ⟨hm, trivial⟩ hm rfl (upholds_expr hi e room) fun v _ _ _ =>
      (upholds_printValue room v).bind fun _ _ _ _ => upholds_pure returns_normal
  | @init _ room name e =>
    exact .first ⟨hm, trivial⟩ hm rfl (upholds_expr hi e room) fun _ _ _ hv =>
      ((upholds_define name.text hv).needs 1 room).bind fun _ _ _ _ => upholds_pure returns_normal
  | @block _ room body =>
    have hc := continues_push hm valid_empty hm.current
    have hin : (m.inNew ∅ m.current).Founded := (continues_inEnv hc.founded (by simp)).founded
    exact .after rfl (.after rfl (.inside (.whole ⟨hin, trivial⟩)))
  | @condTest _ room e yes no =>
    refine test_lies hm fun truth m' => ?_
    cases truth with
    | true => exact upholds_stmt hi yes room
    | false => exact upholds_stmtOpt hi no room
  | @condYes _ room e yes no _ m' hok =>
    exact .behind hm (upholds_test hi e room) hok fun hc _ => .whole ⟨hc.founded, trivial⟩
  | @condNo _ room e yes no _ m' hok =>
    exact .behind hm (upholds_test hi e room) hok fun hc _ => .whole ⟨hc.founded, trivial⟩
  | loop => exact .whole ⟨hm, trivial⟩
  | @returned _ room keyword e =>
    exact .first (R := fun _ _ => True) ⟨hm, trivial⟩ hm rfl (upholds_expr hi e room) fun _ _ _ _ =>
      (upholds_pure trivial).needs 1 room
  | @parent _ room name target methods =>
    -- a superclass clause only reads, and what it leaves is where the class begins
    have hsame : Moment.done host ⟨n, room, .parent name target, m⟩ = m := final_superclassValue room target m
    have hlies : LiesIn host ⟨n, room, .parent name target, m⟩ m := ⟨⟨hm, trivial⟩, by rw [hsame]; exact .refl m⟩
    have hwhole : Moment.Founded ⟨n, room + 2, .stmt (.class_ name (some target) methods), m⟩ := ⟨hm, trivial⟩
    exact hlies.trans (hwhole.done host).kept

/-- The parts of a round lie within the loop. -/
theorem rounds_part_lies {e : Expr} {body : Stmt} {step : Option Expr} {left : Nat} (hm : m.Founded)
    (he : Evaluates host ⟨n, room, .rounds e body step left, m⟩ M') :
    LiesIn host M' (Moment.done host ⟨n, room, .rounds e body step left, m⟩) := by
  have hi := upholds_invoke host n
  have hloop {m' : Machine} (left : Nat) := upholds_loop (m := m') host hi room e body step left
  cases he with
  | @loopTest _ room left =>
    refine test_lies hm fun truth m' => ?_
    cases truth with
    | false => exact upholds_pure returns_normal
    | true =>
      exact (upholds_stmt hi body room).bind fun done _ _ => upholds_afterBody (upholds_exprOpt hi step room)
        (hloop left) done
  | @loopBody _ room left _ _ _ _ m' hok =>
    refine .behind hm (upholds_test hi e room) hok fun hc _ => ?_
    exact .first ⟨hc.founded, trivial⟩ hc.founded rfl (upholds_stmt hi body room) fun done _ _ =>
      upholds_afterBody (upholds_exprOpt hi step room) (hloop left) done
  | @loopStep _ room left _ step _ done _ m₁ m₂ hok hbody hdone =>
    refine .behind hm (upholds_test hi e room) hok fun hc _ =>
      .behind hc.founded (upholds_stmt hi body room) hbody fun hc' _ => ?_
    rcases hdone with rfl | rfl
    all_goals exact .first ⟨hc'.founded, trivial⟩ hc'.founded rfl (upholds_expr hi step room) fun _ _ _ _ => hloop left
  | @loopAgain _ room left _ _ _ done v _ m₁ m₂ m₃ hok hbody hdone hstep =>
    refine .behind hm (upholds_test hi e room) hok fun hc _ =>
      .behind hc.founded (upholds_stmt hi body room) hbody fun hc' _ => ?_
    rcases hdone with rfl | rfl
    all_goals
      exact .behind hc'.founded (upholds_exprOpt hi step room) hstep fun hc'' _ => .whole ⟨hc''.founded, trivial⟩

/-- Each argument lies within all of them. -/
theorem exprs_part_lies {es : List Expr} (hm : m.Founded) (he : Evaluates host ⟨n, room, .exprs es, m⟩ M') :
    LiesIn host M' (Moment.done host ⟨n, room, .exprs es, m⟩) := by
  have hi := upholds_invoke host n
  cases he with
  | @argument _ room e es =>
    exact .first (R := fun _ _ => True) ⟨hm, trivial⟩ hm rfl (upholds_expr hi e room) fun _ _ _ _ =>
      (upholds_exprs hi es room).bind fun _ _ _ _ => upholds_pure trivial
  | @nextArguments _ room e es u _ m' hok =>
    exact .behind hm (upholds_expr hi e room) hok fun hc _ =>
      .first (R := fun _ _ => True) ⟨hc.founded, trivial⟩ hc.founded rfl (upholds_exprs hi es room) fun _ _ _ _ =>
        upholds_pure trivial

/-- A method that has been found on a founded machine is bound to an instance. -/
theorem bound_lies {name : String} {k id : Nat} {found : Closure} (hm : m.Founded) (hid : id < m.instances.size)
    (hfound : findMethod? m.classes name k = some found) :
    LiesIn host ⟨n, room, .bind found id, m⟩ (final (boundMethod found id) m) := by
  obtain ⟨j, c, hclass, hx⟩ := findMethod?_found hfound
  have henv := hm.methods j c _ found hclass hx
  exact .first ⟨hm, henv, hid⟩ hm rfl (upholds_bindThis henv hid) fun _ _ _ hc => upholds_newFunction fun _ => hc

/-- The parts of an expression lie within it. -/
theorem expr_part_lies {e : Expr} (hm : m.Founded) (he : Evaluates host ⟨n, room, .expr e, m⟩ M') :
    LiesIn host M' (Moment.done host ⟨n, room, .expr e, m⟩) := by
  have hi := upholds_invoke host n
  cases he with
  | group => exact .whole ⟨hm, trivial⟩
  | @operand _ room op e =>
    exact .first (R := Gives) ⟨hm, trivial⟩ hm rfl (upholds_expr hi e room) fun _ _ _ _ =>
      upholds_ofOperator (fun _ hu => valid_unary hu) room
  | @left _ room op a b =>
    exact .first (R := Gives) ⟨hm, trivial⟩ hm rfl (upholds_expr hi a room) fun _ _ _ _ =>
      (upholds_expr hi b room).bind fun _ _ _ hv => upholds_binary room op _ hv
  | @right _ room op a b u _ m' hok =>
    exact .behind hm (upholds_expr hi a room) hok fun hc _ =>
      .first (R := Gives) ⟨hc.founded, trivial⟩ hc.founded rfl (upholds_expr hi b room) fun _ _ _ hv =>
        upholds_binary room op _ hv
  | @logicalLeft _ room op a b =>
    refine .first (R := Gives) ⟨hm, trivial⟩ hm rfl (upholds_expr hi a room) fun u m₁ _ hu => ?_
    split
    next => exact upholds_pure hu
    next => exact upholds_expr hi b room
  | @logicalRight _ room op a b u _ m' hok hdecided =>
    refine .behind hm (upholds_expr hi a room) hok fun hc _ => ?_
    rw [hdecided]
    exact .whole ⟨hc.founded, trivial⟩
  | @ternaryTest _ room a b c =>
    refine .first (R := Gives) ⟨hm, trivial⟩ hm rfl (upholds_expr hi a room) fun u m₁ _ _ => ?_
    split
    next => exact upholds_expr hi b room
    next => exact upholds_expr hi c room
  | @ternaryYes _ room a b c u _ m' hok htruth =>
    refine .behind hm (upholds_expr hi a room) hok fun hc _ => ?_
    rw [htruth]
    exact .whole ⟨hc.founded, trivial⟩
  | @ternaryNo _ room a b c u _ m' hok htruth =>
    refine .behind hm (upholds_expr hi a room) hok fun hc _ => ?_
    rw [htruth]
    exact .whole ⟨hc.founded, trivial⟩
  | @value _ room target e =>
    exact .first (R := fun _ _ => True) ⟨hm, trivial⟩ hm rfl (upholds_expr hi e room) fun _ _ _ hv =>
      (upholds_assign room target hv).bind fun _ _ _ _ => upholds_pure trivial
  | @callee _ room f paren es =>
    exact .first ⟨hm, trivial⟩ hm rfl (upholds_expr hi f room) fun _ _ _ hf =>
      (upholds_exprs hi es room).bind fun _ _ hc hvs => upholds_entered hi room paren (hf.extends hc.kept) hvs
  | @arguments _ room f paren es u _ m' hok =>
    refine .behind hm (upholds_expr hi f room) hok fun hc hf => ?_
    exact .first ⟨hc.founded, trivial⟩ hc.founded rfl (upholds_exprs hi es room) fun _ _ hc' hvs =>
      upholds_entered hi room paren (hf.extends hc'.kept) hvs
  | @entered _ room f paren es u vs w _ m₁ m₂ m₃ hok hargs hcheck =>
    refine .behind hm (upholds_expr hi f room) hok fun hc hf => ?_
    refine .behind hc.founded (upholds_exprs hi es room) hargs fun hc₁ hvs => ?_
    refine .behind hc₁.founded (upholds_checkCall room paren u vs.length) hcheck fun hc₂ _ => .whole ⟨hc₂.founded, ?_⟩
    exact ⟨hf.extends (hc₁.trans hc₂).kept, fun v hv => (hvs v hv).extends hc₂.kept⟩
  | @object _ room e name =>
    exact .first ⟨hm, trivial⟩ hm rfl (upholds_expr hi e room) fun o _ _ _ => upholds_property room o name
  | @method _ room id e name i found _ m' hok hi' hnone hfound =>
    refine .behind hm (upholds_expr hi e _) hok fun hc hid => ?_
    rw [final_congr (property_method hi' hnone hfound)]
    exact bound_lies hc.founded hid hfound
  | @setObject _ room o v name =>
    exact .first (R := fun _ _ => True) ⟨hm, trivial⟩ hm rfl (upholds_expr hi o room) fun u _ _ _ =>
      (upholds_fieldOwner u name).bind fun id _ _ _ => (upholds_expr hi v room).bind fun _ _ _ hv =>
        (upholds_setField id name.text hv).bind fun _ _ _ _ => upholds_pure trivial
  | @setValue _ room id o v name _ m' hok =>
    refine .behind hm (upholds_expr hi o room) hok fun hc _ => .after rfl ?_
    exact .first (R := fun _ _ => True) ⟨hc.founded, trivial⟩ hc.founded rfl (upholds_expr hi v room) fun _ _ _ hv =>
      (upholds_setField id name.text hv).bind fun _ _ _ _ => upholds_pure trivial
  | @super _ room k id keyword name d found _ hd hk hid hfound =>
    show LiesIn host _ (final (superMethod (room + 2) keyword name) m)
    rw [final_congr ((superMethod_eq hd hk hid).trans (by rw [hfound]))]
    obtain ⟨i, hcell⟩ := Store.cell_of_readAt hid
    exact bound_lies hm (hm.cells i _ _ hcell) hfound

/-- A function that is called lies within its call. -/
theorem enter_part_lies {paren : Lexeme} {callee : Value} {values : List Value} (hm : m.Founded)
    (hvalues : ∀ v ∈ values, m.Valid v) (he : Evaluates host ⟨n, room, .enter paren callee values, m⟩ M') :
    LiesIn host M' (Moment.done host ⟨n, room, .enter paren callee values, m⟩) := by
  cases he with
  | @function n room id _ c _ _ hc =>
    have hderef : deref m.closures[id]? m = .ok c m := by
      rw [hc]
      rfl
    show LiesIn host _ (final (catchStack paren _) m)
    rw [final_catchStack]
    exact .after rfl (.after hderef (.whole ⟨hm, hm.closures id c hc, hvalues⟩))
  | @initializer n room k id _ found _ _ m' hnew hfound =>
    have hfind : findMethod initName k m' = .ok (some found) m' := by rw [findMethod_ok, hfound]
    show LiesIn host _ (final (catchStack paren _) m)
    rw [final_catchStack]
    refine .behind hm (upholds_newInstance k) hnew fun hc hid => ?_
    refine .behind hc.founded (upholds_findMethod initName k) hfind fun _ hmethod => ?_
    have henv := hmethod found rfl
    refine .first (R := fun _ _ => True) ⟨hc.founded, henv, hid⟩ hc.founded rfl (upholds_bindThis henv hid)
      fun c m'' hc' hcenv => ?_
    have hvs : ∀ v ∈ values, m''.Valid v := fun v hv => (hvalues v hv).extends (hc.trans hc').kept
    exact (upholds_call (upholds_stmts (upholds_invoke host n)) _ hcenv hvs).bind fun _ _ _ _ => upholds_pure trivial
  | @construct n room k id _ found c _ _ m' m'' hnew hfound hbind =>
    have hfind : findMethod initName k m' = .ok (some found) m' := by rw [findMethod_ok, hfound]
    show LiesIn host _ (final (catchStack paren _) m)
    rw [final_catchStack]
    refine .behind hm (upholds_newInstance k) hnew fun hc hid => ?_
    refine .behind hc.founded (upholds_findMethod initName k) hfind fun _ hmethod => ?_
    refine .behind hc.founded (upholds_bindThis (hmethod found rfl) hid) hbind fun hc' hcenv => ?_
    have hvs : ∀ v ∈ values, m''.Valid v := fun v hv => (hvalues v hv).extends (hc.trans hc').kept
    exact .first (R := fun _ _ => True) ⟨hc'.founded, hcenv, hvs⟩ hc'.founded rfl
      (upholds_call (upholds_stmts (upholds_invoke host n)) _ hcenv hvs) fun _ _ _ _ => upholds_pure trivial

/-- A body lies within its call. -/
theorem call_part_lies {c : Closure} {values : List Value} (hm : m.Founded) (henv : c.env < m.store.size)
    (hvalues : ∀ v ∈ values, m.Valid v) (he : Evaluates host ⟨n, room, .call c values, m⟩ M') :
    LiesIn host M' (Moment.done host ⟨n, room, .call c values, m⟩) := by
  cases he with
  | @body _ room =>
    have harguments := arguments_valid c.routine.params ∅ hvalues valid_empty
    have hc := continues_push hm harguments henv
    have hnew : m.store.size < (m.store.push (arguments c.routine.params values ∅) (some c.env)).size := by simp
    have hin : (m.inNew (arguments c.routine.params values ∅) c.env).Founded :=
      (continues_inEnv hc.founded hnew).founded
    refine .after rfl (.bind (R := Gives) (.inside (.whole ⟨hin, trivial⟩)) hc.founded
      ((upholds_stmts (upholds_invoke host n) c.routine.body room).inside (fun _ => hnew) returns_inEnv)
        fun done m' hc' => ?_)
    exact upholds_result (Nat.lt_of_lt_of_le henv (hc.trans hc').kept.size) _ done

end Parts

/-- By one case for each way to come from a moment to a part of it. -/
theorem part_lies (h : M.Founded) (he : Evaluates host M M') : LiesIn host M' (M.done host) := by
  obtain ⟨n, room, task, m⟩ := M
  have hm : m.Founded := h.machine
  cases task with
  | program interactive ss => exact program_part_lies hm he
  | stmts ss => exact stmts_part_lies hm he
  | stmt s => exact stmt_part_lies hm he
  | rounds e body step left => exact rounds_part_lies hm he
  | exprs es => exact exprs_part_lies hm he
  | expr e => exact expr_part_lies hm he
  | enter paren callee values => exact enter_part_lies hm h.task.2 he
  | call c values => exact call_part_lies hm h.task.1 h.task.2 he
  | parent | bind => cases he

/-- All that is evaluated on the way is over before the whole is. -/
theorem reaches_lies (h : M.Founded) (hr : Reaches host M M') : LiesIn host M' (M.done host) := by
  induction hr with
  | refl => exact .whole h
  | step _ he ih => exact (part_lies ih.founded he).trans ih.before

end Lox
