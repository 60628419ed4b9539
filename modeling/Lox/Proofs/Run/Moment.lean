/-
  Lox.Proofs.Run.Moment — the moments of a run: what is evaluated, on which machine, how
  many more calls may be open then, and how much room is left on the stack of the host.

  `Evaluates host M M'`: to evaluate what is due at `M`, `M'` is evaluated, with the
  machine as it is by then and the room that is left for it: without the levels of the
  stack that it takes to come to `M'`, it is not evaluated. A moment occurs in a session
  (`Occurs`) if the program of one of its texts is read and resolved without an error and
  evaluating that program comes to the moment. An environment is an activation of what
  opened its scope: a block that is executed, a call, a method that is bound, a class with
  a superclass (`Opens`).
-/

import Lox.Proofs.Scope.Lexical
import Lox.Session

namespace Lox

/-! ## What is evaluated -/

/-- What is to be evaluated. -/
inductive Task where
  | program (interactive : Bool) (ss : List Stmt)
  | stmts (ss : List Stmt)
  | stmt (s : Stmt)
  /-- What is left of a loop. -/
  | rounds (test : Expr) (body : Stmt) (step : Option Expr) (left : Nat)
  /-- The superclass clause of a class. -/
  | parent (name : Lexeme) (target : Reference)
  | exprs (es : List Expr)
  | expr (e : Expr)
  /-- A call whose callee and number of arguments have been checked. -/
  | enter (paren : Lexeme) (callee : Value) (values : List Value)
  | call (c : Closure) (values : List Value)
  /-- A method on its way to be bound to an instance. -/
  | bind (method : Closure) (id : Nat)

structure Moment where
  /-- How many more calls may be open. -/
  calls : Nat
  /-- The levels that are left on the stack. -/
  room : Nat
  task : Task
  machine : Machine

namespace Machine

/-- The machine in a new environment inside of an environment. -/
def inNew (m : Machine) (values : Bindings Value) (enclosing : Nat) : Machine :=
  { m with store := m.store.push values (some enclosing), current := m.store.size }

end Machine

/-- The environment that is made at a moment is an activation of a scope. -/
def Opens (M : Moment) (k : Nat) (frame : Frame) : Prop :=
  k = M.machine.store.size ∧
  match M.task, frame with
  | .stmt (.block body), .block opened => 2 ≤ M.room ∧ opened = body
  | .call c _, .routine f => 2 ≤ M.room ∧ f = c.routine
  | .bind method _, .receiver _ methods => method.routine ∈ methods
  | .stmt (.class_ _ (some target) methods), .superclass parent opened =>
    parent = target ∧ opened = methods ∧ ∃ k m, Eval.superclassValue (M.room - 2) target M.machine = .ok k m
  | _, _ => False

/-! ## What is evaluated next -/

open Eval

/-- To evaluate the first moment, the second one is evaluated. -/
inductive Evaluates (host : Host) : Moment → Moment → Prop
  /-- At a prompt the value of an expression statement is wanted. -/
  | prompt {e : Expr} {rest : List Stmt} {m : Machine} :
      Evaluates host ⟨host.calls, host.stack, .program true (.expr e :: rest), m⟩ ⟨host.calls, host.stack, .expr e, m⟩
  | statement {interactive : Bool} {s : Stmt} {rest : List Stmt} {m : Machine} :
      (interactive = true → ∀ e, s ≠ .expr e) →
      Evaluates host ⟨host.calls, host.stack, .program interactive (s :: rest), m⟩ ⟨host.calls, host.stack, .stmt s, m⟩
  | statements {interactive : Bool} {s : Stmt} {rest : List Stmt} {u : Unit} {m m' : Machine} :
      topLevel host interactive s m = .ok u m' →
      Evaluates host ⟨host.calls, host.stack, .program interactive (s :: rest), m⟩
        ⟨host.calls, host.stack, .program interactive rest, m'⟩
  | first {n room : Nat} {s : Stmt} {rest : List Stmt} {m : Machine} :
      Evaluates host ⟨n, room, .stmts (s :: rest), m⟩ ⟨n, room, .stmt s, m⟩
  | next {n room : Nat} {s : Stmt} {rest : List Stmt} {m m' : Machine} :
      stmt host (invoke host n) room s m = .ok .normal m' →
      Evaluates host ⟨n, room, .stmts (s :: rest), m⟩ ⟨n, room, .stmts rest, m'⟩
  | effect {n room : Nat} {e : Expr} {m : Machine} :
      Evaluates host ⟨n, room + 1, .stmt (.expr e), m⟩ ⟨n, room, .expr e, m⟩
  | printed {n room : Nat} {e : Expr} {m : Machine} :
      Evaluates host ⟨n, room + 1, .stmt (.print_ e), m⟩ ⟨n, room, .expr e, m⟩
  | init {n room : Nat} {name : Lexeme} {e : Expr} {m : Machine} :
      Evaluates host ⟨n, room + 1, .stmt (.var name (some e)), m⟩ ⟨n, room, .expr e, m⟩
  | block {n room : Nat} {body : List Stmt} {m : Machine} :
      Evaluates host ⟨n, room + 2, .stmt (.block body), m⟩ ⟨n, room, .stmts body, m.inNew ∅ m.current⟩
  | condTest {n room : Nat} {e : Expr} {yes : Stmt} {no : Option Stmt} {m : Machine} :
      Evaluates host ⟨n, room + 1, .stmt (.cond e yes no), m⟩ ⟨n, room, .expr e, m⟩
  | condYes {n room : Nat} {e : Expr} {yes : Stmt} {no : Option Stmt} {m m' : Machine} :
      test (invoke host n) room e m = .ok true m' →
      Evaluates host ⟨n, room + 1, .stmt (.cond e yes no), m⟩ ⟨n, room, .stmt yes, m'⟩
  | condNo {n room : Nat} {e : Expr} {yes no : Stmt} {m m' : Machine} :
      test (invoke host n) room e m = .ok false m' →
      Evaluates host ⟨n, room + 1, .stmt (.cond e yes (some no)), m⟩ ⟨n, room, .stmt no, m'⟩
  | loop {n room : Nat} {e : Expr} {body : Stmt} {step : Option Expr} {m : Machine} :
      Evaluates host ⟨n, room + 2, .stmt (.loop e body step), m⟩ ⟨n, room, .rounds e body step host.rounds, m⟩
  | loopTest {n room left : Nat} {e : Expr} {body : Stmt} {step : Option Expr} {m : Machine} :
      Evaluates host ⟨n, room, .rounds e body step (left + 1), m⟩ ⟨n, room, .expr e, m⟩
  | loopBody {n room left : Nat} {e : Expr} {body : Stmt} {step : Option Expr} {m m' : Machine} :
      test (invoke host n) room e m = .ok true m' →
      Evaluates host ⟨n, room, .rounds e body step (left + 1), m⟩ ⟨n, room, .stmt body, m'⟩
  /-- After a body that does not leave the loop. -/
  | loopStep {n room left : Nat} {e step : Expr} {body : Stmt} {done : Completion} {m m' m'' : Machine} :
      test (invoke host n) room e m = .ok true m' → stmt host (invoke host n) room body m' = .ok done m'' →
      done = .normal ∨ done = .continued →
      Evaluates host ⟨n, room, .rounds e body (some step) (left + 1), m⟩ ⟨n, room, .expr step, m''⟩
  | loopAgain {n room left : Nat} {e : Expr} {step : Option Expr} {body : Stmt} {done : Completion} {v : Value}
      {m m' m'' m₃ : Machine} :
      test (invoke host n) room e m = .ok true m' → stmt host (invoke host n) room body m' = .ok done m'' →
      done = .normal ∨ done = .continued → exprOpt (invoke host n) room step m'' = .ok v m₃ →
      Evaluates host ⟨n, room, .rounds e body step (left + 1), m⟩ ⟨n, room, .rounds e body step left, m₃⟩
  | returned {n room : Nat} {keyword : Lexeme} {e : Expr} {m : Machine} :
      Evaluates host ⟨n, room + 1, .stmt (.return_ keyword (some e)), m⟩ ⟨n, room, .expr e, m⟩
  | parent {n room : Nat} {name : Lexeme} {target : Reference} {ms : List Routine} {m : Machine} :
      Evaluates host ⟨n, room + 2, .stmt (.class_ name (some target) ms), m⟩ ⟨n, room, .parent name target, m⟩
  | group {n room : Nat} {e : Expr} {m : Machine} :
      Evaluates host ⟨n, room + 1, .expr (.group e), m⟩ ⟨n, room, .expr e, m⟩
  | operand {n room : Nat} {op : Lexeme} {e : Expr} {m : Machine} :
      Evaluates host ⟨n, room + 1, .expr (.unary op e), m⟩ ⟨n, room, .expr e, m⟩
  | left {n room : Nat} {op : Lexeme} {a b : Expr} {m : Machine} :
      Evaluates host ⟨n, room + 1, .expr (.binary a op b), m⟩ ⟨n, room, .expr a, m⟩
  | right {n room : Nat} {op : Lexeme} {a b : Expr} {v : Value} {m m' : Machine} :
      expr (invoke host n) room a m = .ok v m' →
      Evaluates host ⟨n, room + 1, .expr (.binary a op b), m⟩ ⟨n, room, .expr b, m'⟩
  | logicalLeft {n room : Nat} {op : Lexeme} {a b : Expr} {m : Machine} :
      Evaluates host ⟨n, room + 1, .expr (.logical a op b), m⟩ ⟨n, room, .expr a, m⟩
  | logicalRight {n room : Nat} {op : Lexeme} {a b : Expr} {v : Value} {m m' : Machine} :
      expr (invoke host n) room a m = .ok v m' → isDecided op v = false →
      Evaluates host ⟨n, room + 1, .expr (.logical a op b), m⟩ ⟨n, room, .expr b, m'⟩
  | ternaryTest {n room : Nat} {a b c : Expr} {m : Machine} :
      Evaluates host ⟨n, room + 1, .expr (.ternary a b c), m⟩ ⟨n, room, .expr a, m⟩
  | ternaryYes {n room : Nat} {a b c : Expr} {v : Value} {m m' : Machine} :
      expr (invoke host n) room a m = .ok v m' → v.isTruthy = true →
      Evaluates host ⟨n, room + 1, .expr (.ternary a b c), m⟩ ⟨n, room, .expr b, m'⟩
  | ternaryNo {n room : Nat} {a b c : Expr} {v : Value} {m m' : Machine} :
      expr (invoke host n) room a m = .ok v m' → v.isTruthy = false →
      Evaluates host ⟨n, room + 1, .expr (.ternary a b c), m⟩ ⟨n, room, .expr c, m'⟩
  | value {n room : Nat} {target : Reference} {e : Expr} {m : Machine} :
      Evaluates host ⟨n, room + 1, .expr (.assign target e), m⟩ ⟨n, room, .expr e, m⟩
  | callee {n room : Nat} {f : Expr} {paren : Lexeme} {es : List Expr} {m : Machine} :
      Evaluates host ⟨n, room + 2, .expr (.call f paren es), m⟩ ⟨n, room, .expr f, m⟩
  | arguments {n room : Nat} {f : Expr} {paren : Lexeme} {es : List Expr} {v : Value} {m m' : Machine} :
      expr (invoke host n) room f m = .ok v m' →
      Evaluates host ⟨n, room + 2, .expr (.call f paren es), m⟩ ⟨n, room, .exprs es, m'⟩
  | entered {n room : Nat} {f : Expr} {paren : Lexeme} {es : List Expr} {v : Value} {vs : List Value} {u : Unit}
      {m m' m'' m₃ : Machine} :
      expr (invoke host n) room f m = .ok v m' → exprs (invoke host n) room es m' = .ok vs m'' →
      checkCall room paren v vs.length m'' = .ok u m₃ →
      Evaluates host ⟨n, room + 2, .expr (.call f paren es), m⟩ ⟨n, room, .enter paren v vs, m₃⟩
  | argument {n room : Nat} {e : Expr} {es : List Expr} {m : Machine} :
      Evaluates host ⟨n, room, .exprs (e :: es), m⟩ ⟨n, room, .expr e, m⟩
  | nextArguments {n room : Nat} {e : Expr} {es : List Expr} {v : Value} {m m' : Machine} :
      expr (invoke host n) room e m = .ok v m' →
      Evaluates host ⟨n, room, .exprs (e :: es), m⟩ ⟨n, room, .exprs es, m'⟩
  | object {n room : Nat} {e : Expr} {name : Lexeme} {m : Machine} :
      Evaluates host ⟨n, room + 1, .expr (.get e name), m⟩ ⟨n, room, .expr e, m⟩
  | method {n room id : Nat} {e : Expr} {name : Lexeme} {i : Instance} {found : Closure} {m m' : Machine} :
      expr (invoke host n) (room + 3) e m = .ok (.instance_ id) m' → m'.instances[id]? = some i →
      i.fields.get? name.text = none → findMethod? m'.classes name.text i.class_ = some found →
      Evaluates host ⟨n, room + 4, .expr (.get e name), m⟩ ⟨n, room, .bind found id, m'⟩
  | setObject {n room : Nat} {o v : Expr} {name : Lexeme} {m : Machine} :
      Evaluates host ⟨n, room + 1, .expr (.set o name v), m⟩ ⟨n, room, .expr o, m⟩
  | setValue {n room id : Nat} {o v : Expr} {name : Lexeme} {m m' : Machine} :
      expr (invoke host n) room o m = .ok (.instance_ id) m' →
      Evaluates host ⟨n, room + 1, .expr (.set o name v), m⟩ ⟨n, room, .expr v, m'⟩
  | super {n room k id : Nat} {keyword : Reference} {name : Lexeme} {d : Int} {found : Closure} {m : Machine} :
      m.distances[keyword.slot]? = some d → m.store.readAt m.current d superName = .ok (.class_ k) →
      m.store.readAt m.current (d - 1) thisName = .ok (.instance_ id) →
      findMethod? m.classes name.text k = some found →
      Evaluates host ⟨n, room + 3, .expr (.super keyword name), m⟩ ⟨n, room, .bind found id, m⟩
  | function {n room id : Nat} {paren : Lexeme} {c : Closure} {vs : List Value} {m : Machine} :
      m.closures[id]? = some c →
      Evaluates host ⟨n + 1, room, .enter paren (.function id) vs, m⟩ ⟨n, room, .call c vs, m⟩
  /-- The initializer of an instance that has just been made. -/
  | initializer {n room k id : Nat} {paren : Lexeme} {found : Closure} {vs : List Value} {m m' : Machine} :
      newInstance k m = .ok id m' → findMethod? m'.classes initName k = some found →
      Evaluates host ⟨n + 1, room + 3, .enter paren (.class_ k) vs, m⟩ ⟨n, room, .bind found id, m'⟩
  | construct {n room k id : Nat} {paren : Lexeme} {found c : Closure} {vs : List Value} {m m' m'' : Machine} :
      newInstance k m = .ok id m' → findMethod? m'.classes initName k = some found → bindThis found id m' = .ok c m'' →
      Evaluates host ⟨n + 1, room + 3, .enter paren (.class_ k) vs, m⟩ ⟨n, room + 2, .call c vs, m''⟩
  | body {n room : Nat} {c : Closure} {vs : List Value} {m : Machine} :
      Evaluates host ⟨n, room + 2, .call c vs, m⟩
        ⟨n, room, .stmts c.routine.body, m.inNew (Eval.arguments c.routine.params vs ∅) c.env⟩

inductive Reaches (host : Host) : Moment → Moment → Prop
  | refl {M : Moment} : Reaches host M M
  | step {M M' M'' : Moment} : Reaches host M M' → Evaluates host M' M'' → Reaches host M M''

/-! ## Sessions -/

namespace Session

/-- The session after some texts, from its start. -/
def after (host : Host) (interactive : Bool) (sources : List String) : Session :=
  sources.foldl (fun s source => (s.run host source).2) (start interactive)

/-- A text whose program is executed. -/
structure Runs (s : Session) (source : String) (p : List Stmt) : Prop where
  lexical : (tokenize source).2 = []
  errors : (parse (tokenize source).1 s.nextSlot).errors = []
  program : (parse (tokenize source).1 s.nextSlot).program = p
  resolved : (resolve p).errors = []

/-- The moment at which a program begins. -/
def begins (host : Host) (s : Session) (p : List Stmt) : Moment :=
  ⟨host.calls, host.stack, .program s.interactive p, s.machine.load (resolve p).distances⟩

end Session

/-- A program of one of the texts of a session. -/
def IsProgram (host : Host) (interactive : Bool) (sources : List String) (p : List Stmt) : Prop :=
  ∃ before source rest, sources = before ++ source :: rest ∧ (Session.after host interactive before).Runs source p

/-- The moment comes up in the run of one of the texts of a session. -/
def Occurs (host : Host) (interactive : Bool) (sources : List String) (M : Moment) : Prop :=
  ∃ before source rest p, sources = before ++ source :: rest ∧ (Session.after host interactive before).Runs source p ∧
    Reaches host ((Session.after host interactive before).begins host p) M

end Lox
