/-
  Lox.Proofs.Run.Overflow — the number of calls that may be open, and the room on the stack,
  only decide whether a run overflows (`overflow_bounded`).

  A run that overflows has come to a call that was entered and gave up: no more calls could be
  opened, or the stack came to its end in it (`Moment.GivesUp`). It leaves the machine as it was
  then (`overflow_origin`): a moment that overflows is that call, or what overflows is evaluated
  within it (`overflow_cases`), and behind a part that overflows nothing is evaluated. Only
  blocks and calls do something on the way out, which is to take up the environment before.
-/

import Lox.Proofs.Alike.Runs
import Lox.Proofs.Grammar.Spelled
import Lox.Proofs.Run.Jumps
import Lox.Proofs.Run.Outlasts

namespace Lox

open Eval

variable {α β : Type} {host : Host} {n room : Nat} {M M' : Moment} {m m' : Machine} {site : Lexeme}

/-! ## Actions that overflow -/

namespace Eval

variable {a : Eval α} {f : α → Eval β}

/-- An overflow, and the machine that it leaves. -/
abbrev overflow (site : Lexeme) (m : Machine) : EStateM.Result Stop Machine α :=
  .error (.fault (.runtime ⟨site, .stackOverflow⟩)) m

theorem Primitive.not_overflow (h : Primitive a) : a m ≠ overflow site m' := by
  intro ha
  have hcalm := h.calm m _ m' ha
  cases hcalm

/-- What comes first has overflowed if what follows is primitive. -/
theorem overflow_before (hf : ∀ v, Primitive (f v)) (h : (a >>= f) m = overflow site m') : a m = overflow site m' := by
  rcases of_bind_error h with ha | ⟨v, m₁, -, hv⟩
  · exact ha
  · exact absurd hv (hf v).not_overflow

/-- What comes first has gone through if it is primitive. -/
theorem overflow_after (ha : Primitive a) (h : (a >>= f) m = overflow site m') :
    ∃ v m₁, a m = .ok v m₁ ∧ f v m₁ = overflow site m' := by
  rcases of_bind_error h with hfirst | hrest
  · exact absurd hfirst ha.not_overflow
  · exact hrest

/-- The end of the stack is no overflow yet. -/
theorem overflow_deeper {p : Nat → Eval α} (h : deeper room p m = overflow site m') :
    ∃ left, room = left + 1 ∧ p left m = overflow site m' := by
  cases room with
  | zero => cases h
  | succ left => exact ⟨left, rfl, h⟩

end Eval

/-! ## Moments that overflow -/

/-- Evaluating the moment overflows, and leaves a machine. -/
def Moment.Overflows (host : Host) (M : Moment) (site : Lexeme) (m' : Machine) : Prop :=
  let enter := invoke host M.calls
  match M.task with
  | .program interactive ss =>
    M.calls = host.calls ∧ M.room = host.stack ∧ ss.forM (topLevel host interactive) M.machine = overflow site m'
  | .stmts ss => stmts host enter M.room ss M.machine = overflow site m'
  | .stmt s => stmt host enter M.room s M.machine = overflow site m'
  | .rounds e body step left =>
    rounds (test enter M.room e) (stmt host enter M.room body) (exprOpt enter M.room step) left M.machine
      = overflow site m'
  | .parent _ target => superclassValue M.room target M.machine = overflow site m'
  | .exprs es => exprs enter M.room es M.machine = overflow site m'
  | .expr e => expr enter M.room e M.machine = overflow site m'
  | .enter paren callee values => enter M.room paren callee values M.machine = overflow site m'
  | .call c values => call (stmts host enter) M.room c values M.machine = overflow site m'
  | .bind method id => bindThis method id M.machine = overflow site m'

/-- The call that is due gives up, and so it overflows: no more calls may be open, or the stack
comes to its end in it and in no call of its own. -/
def Moment.GivesUp (host : Host) (M : Moment) (site : Lexeme) (m' : Machine) : Prop :=
  ∃ callee values, M.task = .enter site callee values ∧
    match M.calls with
    | 0 => m' = M.machine
    | n + 1 => enterCall host (stmts host (invoke host n)) M.room site callee values M.machine = .error .outOfStack m'

/-- Something overflows that is evaluated within the moment, and leaves the same machine in
another environment. -/
def PartOverflows (host : Host) (M : Moment) (site : Lexeme) (m' : Machine) : Prop :=
  ∃ M' m₁, Evaluates host M M' ∧ M'.Overflows host site m₁ ∧ m' = { m₁ with current := m'.current }

theorem PartOverflows.of (he : Evaluates host M M') (h : M'.Overflows host site m') : PartOverflows host M site m' :=
  ⟨M', m', he, h, rfl⟩

section Trees

/-- An expression overflows where one of its parts does. -/
theorem expr_overflow {e : Expr} (h : expr (invoke host n) room e m = overflow site m') :
    PartOverflows host ⟨n, room, .expr e, m⟩ site m' := by
  cases room with
  | zero =>
    rw [expr_zero] at h
    cases h
  | succ room =>
  cases e with
  | literal => cases h
  | group => exact .of .group h
  | unary op operand =>
    exact .of .operand (overflow_before (fun _ => (kept_primitive.ofOperator rfl fun _ => Operator.unary_calm).2) h)
  | binary left op right =>
    rcases of_bind_error h with hleft | ⟨a, m₁, hleft, h⟩
    · exact .of .left hleft
    · exact .of (.right hleft) (overflow_before (fun b => (kept_primitive.binary rfl op a b).2) h)
  | logical left op right =>
    rcases of_bind_error h with hleft | ⟨a, m₁, hleft, h⟩
    · exact .of .logicalLeft hleft
    · split at h
      next => cases h
      next hd => exact .of (.logicalRight hleft (Bool.not_eq_true _ ▸ hd)) h
  | ternary cond yes no =>
    rcases of_bind_error h with hcond | ⟨c, m₁, hcond, h⟩
    · exact .of .ternaryTest hcond
    · split at h
      next ht => exact .of (.ternaryYes hcond ht) h
      next ht => exact .of (.ternaryNo hcond (Bool.not_eq_true _ ▸ ht)) h
  | ref target => exact absurd h (primitive_read room target).not_overflow
  | assign target value => exact .of .value (overflow_before (fun v => (kept_primitive.assign rfl target v).2.map _) h)
  | call callee paren args =>
    obtain ⟨room, rfl, h⟩ := overflow_deeper (show deeper room _ m = _ from h)
    rcases of_bind_error h with hcallee | ⟨f, m₁, hcallee, h⟩
    · exact .of .callee hcallee
    rcases of_bind_error h with hargs | ⟨values, m₂, hargs, h⟩
    · exact .of (.arguments hcallee) hargs
    obtain ⟨u, m₃, hcheck, h⟩ := overflow_after (kept_primitive.checkCall rfl paren f values.length).2 h
    exact .of (.entered hcallee hargs hcheck) h
  | get object name => exact .of .object (overflow_before (fun o => (kept_primitive.property rfl o name).2) h)
  | set object name value =>
    rcases of_bind_error h with hobject | ⟨o, m₁, hobject, h⟩
    · exact .of .setObject hobject
    obtain ⟨id, m₂, howner, h⟩ := overflow_after (primitive_fieldOwner o name) h
    cases o with
    | instance_ k =>
      cases howner
      exact .of (.setValue hobject) (overflow_before (fun v => (primitive_setField _ name.text v).map _) h)
    | _ => cases howner
  | this keyword => exact absurd h (primitive_read room keyword).not_overflow
  | super keyword method => exact absurd h (kept_primitive.superMethod rfl keyword method).2.not_overflow

theorem exprs_overflow {es : List Expr} (h : exprs (invoke host n) room es m = overflow site m') :
    PartOverflows host ⟨n, room, .exprs es, m⟩ site m' := by
  cases es with
  | nil => cases h
  | cons e rest =>
    rcases of_bind_error h with he | ⟨v, m₁, he, h⟩
    · exact .of .argument he
    · exact .of (.nextArguments he) (overflow_before (fun _ => primitive_pure _) h)

theorem test_overflow {enter : Enter} {e : Expr} (h : test enter room e m = overflow site m') :
    expr enter room e m = overflow site m' :=
  overflow_before (fun _ => primitive_pure _) h

/-- A statement overflows where one of its parts does. -/
theorem stmt_overflow {s : Stmt} (h : stmt host (invoke host n) room s m = overflow site m') :
    PartOverflows host ⟨n, room, .stmt s, m⟩ site m' := by
  cases room with
  | zero =>
    rw [stmt_zero] at h
    cases h
  | succ room =>
  cases s with
  | expr e => exact .of .effect (overflow_before (fun _ => primitive_pure _) h)
  | print_ e => exact .of .printed (overflow_before (fun v => (kept_primitive.printValue rfl v).2.map _) h)
  | var name init =>
    have hinit := overflow_before (fun v => ((primitive_define name.text v).needs 1 room).map _) h
    cases init with
    | none => cases hinit
    | some e => exact .of .init hinit
  | block body =>
    obtain ⟨room, rfl, h⟩ := overflow_deeper (show deeper room _ m = _ from h)
    obtain ⟨m₁, hbody, hm⟩ := of_inside_error (show inside m.store.size _ { m with store := _ } = _ from h)
    exact ⟨_, m₁, .block, hbody, by rw [hm]⟩
  | cond e yes no =>
    rcases of_bind_error h with htest | ⟨truth, m₁, htest, h⟩
    · exact .of .condTest (test_overflow htest)
    cases truth with
    | true => exact .of (.condYes htest) h
    | false =>
      cases no with
      | none => cases h
      | some no => exact .of (.condNo htest) h
  | loop e body step =>
    obtain ⟨room, rfl, h⟩ := overflow_deeper (show deeper room _ m = _ from h)
    exact .of .loop h
  | break_ | continue_ => cases h
  | fun_ routine =>
    have hmade : Primitive (do
        define routine.name.text (← newFunction ⟨routine, (← get).current, false⟩)
        return Completion.normal) :=
      primitive_get (fun _ _ => rfl) fun _ => (primitive_newFunction _).bind fun v _ => (primitive_define _ v).map _
    exact absurd h (hmade.needs 1 room).not_overflow
  | return_ keyword value =>
    have hvalue := overflow_before (fun _ => (primitive_pure _).needs 1 room) h
    cases value with
    | none => cases hvalue
    | some e => exact .of .returned hvalue
  | class_ name superclass methods =>
    obtain ⟨room, rfl, h⟩ := overflow_deeper (show deeper room _ m = _ from h)
    exact absurd h ((kept_primitive.declareClass rfl name superclass methods).2.map _).not_overflow

/-- A list of statements overflows where one of them does. -/
theorem stmts_overflow {ss : List Stmt} (h : stmts host (invoke host n) room ss m = overflow site m') :
    PartOverflows host ⟨n, room, .stmts ss, m⟩ site m' := by
  cases ss with
  | nil => cases h
  | cons s rest =>
    rcases of_bind_error h with hs | ⟨done, m₁, hs, h⟩
    · exact .of .first hs
    cases done with
    | normal => exact .of (.next hs) h
    | _ => cases h

/-- A loop overflows in its test, its body or its step, in one of its rounds. -/
theorem rounds_overflow {e : Expr} {body : Stmt} {step : Option Expr} {left : Nat}
    (h : rounds (test (invoke host n) room e) (stmt host (invoke host n) room body) (exprOpt (invoke host n) room step)
      left m = overflow site m') :
    PartOverflows host ⟨n, room, .rounds e body step left, m⟩ site m' := by
  cases left with
  | zero => cases h
  | succ left =>
    rcases of_bind_error h with htest | ⟨truth, m₁, htest, h⟩
    · exact .of .loopTest (test_overflow htest)
    cases truth with
    | false => cases h
    | true =>
      rcases of_bind_error h with hbody | ⟨done, m₂, hbody, h⟩
      · exact .of (.loopBody htest) hbody
      have again (hd : done = .normal ∨ done = .continued) (h : (do
          let _ ← exprOpt (invoke host n) room step
          rounds (test (invoke host n) room e) (stmt host (invoke host n) room body) (exprOpt (invoke host n) room step)
            left) m₂ = overflow site m') : PartOverflows host ⟨n, room, .rounds e body step (left + 1), m⟩ site m' := by
        rcases of_bind_error h with hstep | ⟨v, m₃, hstep, h⟩
        · cases step with
          | none => cases hstep
          | some step => exact .of (.loopStep htest hbody hd) hstep
        · exact .of (.loopAgain htest hbody hd hstep) h
      cases done with
      | broken | returned => cases h
      | normal => exact again (Or.inl rfl) h
      | continued => exact again (Or.inr rfl) h

end Trees

/-! ## Calls and programs -/

/-- A call overflows in the body of its function. -/
theorem call_overflow {c : Closure} {values : List Value}
    (h : call (stmts host (invoke host n)) room c values m = overflow site m') :
    PartOverflows host ⟨n, room, .call c values, m⟩ site m' := by
  obtain ⟨outer, rfl, h⟩ := overflow_deeper (show deeper room _ m = _ from h)
  obtain ⟨inner, rfl, h⟩ := overflow_deeper (show deeper outer _ m = _ from h)
  obtain ⟨env, m₁, henv, h⟩ := overflow_after (primitive_newEnvironment _ c.env) h
  cases henv
  have hinside := overflow_before (fun done => ?_) h
  · obtain ⟨m₂, hbody, hm⟩ := of_inside_error hinside
    exact ⟨_, m₂, .body, hbody, by rw [hm]⟩
  · split
    · exact ((primitive_readAt 0 _).inside _).needs 2 _
    · split <;> exact primitive_pure _

/-- What overflows in a call that does not give up is its body. -/
theorem enterCall_overflow {paren : Lexeme} {callee : Value} {values : List Value}
    (h : enterCall host (stmts host (invoke host n)) room paren callee values m = overflow site m') :
    PartOverflows host ⟨n + 1, room, .enter paren callee values, m⟩ site m' := by
  cases callee with
  | clock => exact absurd h ((primitive_readClock host).needs 2 room).not_overflow
  | function id =>
    have hfound : Primitive (do deref (← get).closures[id]?) :=
      primitive_get (fun _ _ => rfl) fun _ => primitive_deref _
    obtain ⟨c, m₁, hc, h⟩ := overflow_after hfound h
    have hderef : deref m.closures[id]? m = .ok c m₁ := hc
    cases hid : m.closures[id]? with
    | none =>
      rw [hid] at hderef
      cases hderef
    | some c' =>
      rw [hid] at hderef
      cases hderef
      exact .of (.function hid) h
  | class_ k =>
    obtain ⟨outer, rfl, h⟩ := overflow_deeper (show deeper room _ m = _ from h)
    obtain ⟨inner, rfl, h⟩ := overflow_deeper (show deeper outer _ m = _ from h)
    obtain ⟨id, m₁, hnew, h⟩ := overflow_after (primitive_newInstance k) h
    obtain ⟨found, m₂, hfind, h⟩ := overflow_after (primitive_findMethod initName k) h
    rw [findMethod_ok] at hfind
    cases found with
    | none => cases h
    | some init =>
      injection hfind with hfound hm
      subst hm
      obtain ⟨c, m₃, hbind, hcall⟩ := overflow_after ((primitive_bindThis init id).needs 1 inner) h
      obtain ⟨hroom, hbind⟩ := of_needs_ok hbind
      obtain ⟨left, rfl⟩ := Nat.exists_eq_add_of_le' hroom
      exact .of (.construct hnew hfound hbind) (overflow_before (fun _ => primitive_pure _) hcall)
  | _ => cases h

/-- A call gives up itself, or its body overflows. -/
theorem enter_overflow {paren : Lexeme} {callee : Value} {values : List Value}
    (h : invoke host n room paren callee values m = overflow site m') :
    Moment.GivesUp host ⟨n, room, .enter paren callee values, m⟩ site m' ∨
      PartOverflows host ⟨n, room, .enter paren callee values, m⟩ site m' := by
  cases n with
  | zero =>
    cases h
    exact Or.inl ⟨callee, values, rfl, rfl⟩
  | succ n =>
    have hcall : catchStack paren (enterCall host (stmts host (invoke host n)) room paren callee values) m =
        overflow site m' := h
    rcases catchStack_cases paren (enterCall host (stmts host (invoke host n)) room paren callee values) m with
      hsame | ⟨m₁, hend, hcaught⟩
    · exact Or.inr (enterCall_overflow (hsame.symm.trans hcall))
    · rw [hcaught] at hcall
      cases hcall
      exact Or.inl ⟨callee, values, rfl, hend⟩

/-- A program overflows in one of its statements. -/
theorem program_overflow {interactive : Bool} {ss : List Stmt}
    (h : ss.forM (topLevel host interactive) m = overflow site m') :
    PartOverflows host ⟨host.calls, host.stack, .program interactive ss, m⟩ site m' := by
  cases ss with
  | nil => cases h
  | cons s rest =>
    rcases of_bind_error h with hs | ⟨u, m₁, hs, h⟩
    · rcases topLevel_cases interactive s with ⟨rfl, e, rfl⟩ | hexpr
      · exact .of .prompt (overflow_before (primitive_echo host.stack) hs)
      · rw [topLevel_executed hexpr] at hs
        exact .of (.statement hexpr) (overflow_before (fun _ => primitive_shown interactive s host.stack) hs)
    · exact .of (.statements hs) ⟨rfl, rfl, h⟩

/-! ## Where an overflow comes from -/

/-- A moment that overflows gives up a call itself, or one of its parts overflows. -/
theorem overflow_cases (h : M.Overflows host site m') : M.GivesUp host site m' ∨ PartOverflows host M site m' := by
  obtain ⟨n, room, task, m⟩ := M
  cases task with
  | program interactive ss =>
    obtain ⟨rfl, rfl, h⟩ := h
    exact Or.inr (program_overflow h)
  | stmts ss => exact Or.inr (stmts_overflow h)
  | stmt s => exact Or.inr (stmt_overflow h)
  | rounds => exact Or.inr (rounds_overflow h)
  | parent name target => exact absurd h (kept_primitive.superclassValue rfl target).2.not_overflow
  | exprs es => exact Or.inr (exprs_overflow h)
  | expr e => exact Or.inr (expr_overflow h)
  | enter paren callee values => exact enter_overflow h
  | call => exact Or.inr (call_overflow h)
  | bind method id => exact absurd h (primitive_bindThis method id).not_overflow

theorem Evaluates.head (he : Evaluates host M M') {M₁ : Moment} (h : Reaches host M' M₁) : Reaches host M M₁ :=
  (Reaches.step .refl he).trans h

/-- An overflow is that of a call that gives up. -/
theorem overflow_reached (h : M.Overflows host site m') :
    ∃ M₁ m₁, Reaches host M M₁ ∧ M₁.GivesUp host site m₁ ∧ m' = { m₁ with current := m'.current } := by
  induction M using wellFounded_smaller.induction generalizing m' with
  | h M ih =>
    rcases overflow_cases h with hup | ⟨M₁, m₂, he, hpart, hm⟩
    · exact ⟨M, m', .refl, hup, rfl⟩
    · obtain ⟨M₂, m₁, hreach, hup, hm₂⟩ := ih M₁ he.smaller hpart
      refine ⟨M₂, m₁, he.head hreach, hup, ?_⟩
      rw [hm, hm₂]

/-- What is entered is a call whose callee and arguments have been evaluated. -/
theorem reaches_enter {callee : Value} {values : List Value}
    (h : Reaches host M ⟨n, room, .enter site callee values, m⟩) :
    M = ⟨n, room, .enter site callee values, m⟩ ∨
      ∃ f es m₀, Reaches host M ⟨n, room + 2, .expr (.call f site es), m₀⟩ ∧
        Evaluates host ⟨n, room + 2, .expr (.call f site es), m₀⟩ ⟨n, room, .enter site callee values, m⟩ := by
  cases h with
  | refl => exact Or.inl rfl
  | step hreach he =>
    cases he with
    | entered hf hes hcheck => exact Or.inr ⟨_, _, _, hreach, .entered hf hes hcheck⟩

/-- From a moment on, a call comes up that is entered and gives up. -/
def OverflowsAt (host : Host) (M : Moment) (site : Lexeme) (m : Machine) : Prop :=
  ∃ n room f es m₀ callee values m₁, Reaches host M ⟨n, room + 2, .expr (.call f site es), m₀⟩ ∧
    Evaluates host ⟨n, room + 2, .expr (.call f site es), m₀⟩ ⟨n, room, .enter site callee values, m₁⟩ ∧
    Moment.GivesUp host ⟨n, room, .enter site callee values, m₁⟩ site m

theorem overflow_origin {interactive : Bool} {ss : List Stmt}
    (h : ss.forM (topLevel host interactive) m = overflow site m') :
    ∃ m₁, OverflowsAt host ⟨host.calls, host.stack, .program interactive ss, m⟩ site m₁ ∧
      m' = { m₁ with current := m'.current } := by
  have hover : Moment.Overflows host ⟨host.calls, host.stack, .program interactive ss, m⟩ site m' := ⟨rfl, rfl, h⟩
  obtain ⟨⟨n, room, task, m₂⟩, m₁, hreach, hup, hm⟩ := overflow_reached hover
  obtain ⟨callee, values, rfl, -⟩ := id hup
  rcases reaches_enter hreach with heq | ⟨f, es, m₀, hcall, he⟩
  · cases congrArg Moment.task heq
  · exact ⟨m₁, ⟨n, room, f, es, m₀, callee, values, m₂, hcall, he, hup⟩, hm⟩

/-! ## The closing parenthesis -/

/-- Names, operators and parentheses in a part of a program are spelled as in a text. -/
def Site.Spelled : Site → Prop
  | .stmts ss => Stmt.SpelledAll Grammar.anyNumber ss
  | .stmt s => s.Spelled Grammar.anyNumber
  | .exprs es => Expr.SpelledAll Grammar.anyNumber es
  | .expr e => e.Spelled Grammar.anyNumber
  | .parent .. => True
  | .routine _ f => Stmt.SpelledRoutine Grammar.anyNumber f
  | .methods ms => Stmt.SpelledMethods Grammar.anyNumber ms

/-- What stands in a spelled program is spelled itself. -/
theorem within_spelled {p : List Stmt} {part : Site} {r : Resolver} {os : List Opened}
    (hp : Stmt.SpelledAll Grammar.anyNumber p) (h : Within p part r os) : part.Spelled := by
  induction h with
  | root => exact hp
  | effect _ ih | printed _ ih | block _ ih | fun_ _ ih | group _ ih => exact ih
  | first _ ih | argument _ ih | condTest _ ih | loopTest _ ih | ternaryTest _ ih | method _ ih => exact ih.1
  | next _ ih | nextArguments _ ih | operand _ ih | value _ ih | object _ ih | nextMethod _ ih => exact ih.2
  | condYes _ ih | loopBody _ ih | left _ ih | logicalLeft _ ih | ternaryYes _ ih | callee _ ih | setObject _ ih =>
    exact ih.2.1
  | condNo _ ih | right _ ih | logicalRight _ ih | ternaryNo _ ih | arguments _ ih | setValue _ ih | methods _ ih =>
    exact ih.2.2
  | init _ ih | returned _ ih => exact ih.2 _ rfl
  | loopStep _ ih => exact ih.2.2 _ rfl
  | parent => trivial
  | @body context f r os _ ih =>
    obtain ⟨name, params, body⟩ := f
    exact ih.2.2

open Session

/-- A call that comes up in a session is one of a text, and has its closing parenthesis there. -/
theorem call_closes {s : Session} {source : String} {p : List Stmt} {f : Expr} {es : List Expr} (h : s.Reachable)
    (hruns : s.Runs source p) (hreach : Reaches host (s.begins host p) ⟨n, room, .expr (.call f site es), m⟩) :
    site.text = Symbol.rightParen.text := by
  obtain ⟨s', source', q, r, os, hread, hwithin⟩ := reachable_at h hruns hreach
  have hspelled : Stmt.SpelledAll Grammar.anyNumber q :=
    hread.program ▸ parse_spelled (fun _ => tokenize_spelled) s'.nextSlot
  exact (within_spelled hspelled hwithin).1

/-! ## Runs -/

theorem of_isOverflow {stop : Stop} (h : stop.isOverflow) :
    ∃ site, stop = .fault (.runtime ⟨site, .stackOverflow⟩) := by
  cases stop with
  | outOfStack => cases h
  | fault fault =>
    have hfault : fault.isOverflow := h
    unfold Fault.isOverflow at hfault
    split at hfault
    next site => exact ⟨site, rfl⟩
    next => cases hfault

theorem of_ending_stopped {stop : Stop} {error : RuntimeError} (h : Session.ending stop = .stopped error) :
    stop = .fault (.runtime error) := by
  cases stop with
  | outOfStack => cases h
  | fault fault =>
    cases fault <;> cases h
    rfl

section Execute

variable {p : List Stmt} {s : Session} {log : List Notice} {D : Distances} {calls stack : Nat} {loose : Prop}

theorem execute_output (host : Host) (s : Session) (log : List Notice) (p : List Stmt) (D : Distances) :
    (s.execute host log p D).1.output = (final (p.forM (topLevel host s.interactive)) (s.machine.load D)).output := by
  cases hp : p.forM (topLevel host s.interactive) (s.machine.load D) with
  | ok u m => rw [execute_ok s log hp, final_ok hp]
  | error stop m => rw [execute_error s log hp, final_error hp]

/-- Without an overflow, larger bounds make no difference. -/
theorem execute_same (hcalls : host.calls ≤ calls) (hstack : Wider loose host.stack stack)
    (hno : ∀ site, (s.execute host log p D).1.ending ≠ .stopped ⟨site, .stackOverflow⟩)
    (hroom : loose → (s.execute host log p D).1.ending ≠ .exhausted) :
    s.execute { host with calls, stack } log p D = s.execute host log p D := by
  rcases (program_outlasts host hcalls hstack s.interactive p).agrees (s.machine.load D) with
    heq | ⟨stop, m, hp, hover | ⟨hloose, rfl⟩, -⟩
  · cases hp : p.forM (topLevel host s.interactive) (s.machine.load D) with
    | ok u m => rw [execute_ok s log hp, execute_ok s log (heq.trans hp)]
    | error stop m => rw [execute_error s log hp, execute_error s log (heq.trans hp)]
  · obtain ⟨site, rfl⟩ := of_isOverflow hover
    rw [execute_error s log hp] at hno
    exact absurd rfl (hno site)
  · rw [execute_error s log hp] at hroom
    exact absurd rfl (hroom hloose)

theorem execute_prints (hcalls : host.calls ≤ calls) (hstack : host.stack ≤ stack) :
    (s.execute host log p D).1.output.toList <+: (s.execute { host with calls, stack } log p D).1.output.toList := by
  have hwider : Wider True host.stack stack := Or.inr ⟨trivial, hstack⟩
  rw [execute_output, execute_output]
  rcases (program_outlasts host hcalls hwider s.interactive p).agrees (s.machine.load D) with heq
    | ⟨stop, m, hp, -, hprinted⟩
  · exact final_congr heq ▸ List.prefix_refl _
  · rw [final_error hp]
    exact hprinted

/-- A program that overflows leaves all as it was when the call gave up. -/
theorem execute_overflows (h : (s.execute host log p D).1.ending = .stopped ⟨site, .stackOverflow⟩) :
    ∃ m, OverflowsAt host ⟨host.calls, host.stack, .program s.interactive p, s.machine.load D⟩ site m ∧
      (s.execute host log p D).1.output = m.output ∧
      (s.execute host log p D).2.machine = { m with current := globalEnv, output := #[] } := by
  cases hp : p.forM (topLevel host s.interactive) (s.machine.load D) with
  | ok u m' =>
    rw [execute_ok s log hp] at h
    cases h
  | error stop m' =>
    rw [execute_error s log hp] at h ⊢
    rw [of_ending_stopped h] at hp
    obtain ⟨m, hat, hm⟩ := overflow_origin hp
    rw [hm]
    exact ⟨m, hat, rfl, rfl⟩

end Execute

/-- What a text comes to on a host, and on one with more calls that may be open and with as much
room on the stack (`stack`) or more. -/
structure Bounded (host : Host) (stack : Nat) (s : Session) (source : String) (few many : Report × Session) : Prop where
  /-- Without an overflow the two runs are the same; with more room on the stack, if it was not
  used up outside of all calls. -/
  same : (∀ site, few.1.ending ≠ .stopped ⟨site, .stackOverflow⟩) → stack = host.stack ∨ few.1.ending ≠ .exhausted →
    many = few
  prints : few.1.output.toList <+: many.1.output.toList
  /-- With one, a call has come up that gave up, and all is left as it was then. -/
  overflows : ∀ site, few.1.ending = .stopped ⟨site, .stackOverflow⟩ → ∃ p m, s.Runs source p ∧
    OverflowsAt host (s.begins host p) site m ∧ few.1.output = m.output ∧
    few.2.machine = { m with current := globalEnv, output := #[] }
  /-- The error stands at a closing parenthesis, whatever texts the session has come by, and whatever
  number of calls could be open then. -/
  closes : ∀ site, s.Reachable → few.1.ending = .stopped ⟨site, .stackOverflow⟩ → site.text = Symbol.rightParen.text

/-- In every session, the number of calls that may be open and the room on the stack only decide
whether a run overflows. -/
theorem overflow_bounded (host : Host) {calls stack : Nat} (hcalls : host.calls ≤ calls) (hstack : host.stack ≤ stack)
    (s : Session) (source : String) :
    Bounded host stack s source (s.run host source) (s.run { host with calls, stack } source) := by
  rcases run_decided source s.nextSlot with ⟨log, errors, hrun⟩ | ⟨p, log, hrun⟩
  · rw [hrun host s rfl, hrun { host with calls, stack } s rfl]
    exact ⟨fun _ _ => rfl, List.prefix_refl _, fun _ he => (by cases he), fun _ _ he => by cases he⟩
  obtain ⟨hruns, hfew⟩ := hrun host s rfl
  obtain ⟨-, hmany⟩ := hrun { host with calls, stack } s rfl
  rw [hfew, hmany]
  refine ⟨fun hno hroom => ?_, execute_prints hcalls hstack, fun site he => ?_, fun site hs he => ?_⟩
  · rcases hroom with rfl | hroom
    · have hwider : Wider False host.stack host.stack := Or.inl rfl
      exact execute_same hcalls hwider hno False.elim
    · have hwider : Wider True host.stack stack := Or.inr ⟨trivial, hstack⟩
      exact execute_same hcalls hwider hno fun _ => hroom
  · obtain ⟨m, hat, hleft⟩ := execute_overflows he
    exact ⟨p, m, hruns, hat, hleft⟩
  · obtain ⟨m, ⟨n, room, f, es, m₀, callee, values, m₁, hcall, -⟩, -⟩ := execute_overflows he
    exact call_closes hs hruns hcall

/-- A function that prints before it calls itself. -/
def nestedText : String := "fun f() \x7b print nil; f(); \x7d f();"

/-- A host on which no call can be made within a call. -/
def fewCalls : Host := ⟨fun _ => 0, 40, 1, 1⟩

/-- With another call at hand it prints once more. -/
theorem overflow_bounded_nested :
    ((start false).run fewCalls nestedText).1.runtimeError? = some ⟨⟨")", 1⟩, .stackOverflow⟩ ∧
      ((start false).run fewCalls nestedText).1.output = #["nil"] ∧
      ((start false).run { fewCalls with calls := 2, stack := 50 } nestedText).1.output = #["nil", "nil"] ∧
      Bounded fewCalls 50 (start false) nestedText ((start false).run fewCalls nestedText)
        ((start false).run { fewCalls with calls := 2, stack := 50 } nestedText) :=
  ⟨by decide +kernel, by decide +kernel, by decide +kernel,
    overflow_bounded fewCalls (by decide) (by decide) (start false) nestedText⟩

end Lox
