/-
  Lox.Execution — the effect of a statement, and calls.

  A statement completes normally or leaves by `break`, `continue` or `return`; a loop
  takes in the first two, a call the last. Statements are run by recursion on the tree.
  Three bounds come from the host: the levels of its stack, the rounds of a loop
  (`rounds`) and the calls that are open at a time (`invoke`). A call that comes to the
  end of the stack, or is one call too many, overflows at its closing parenthesis.
-/

import Lox.Evaluation

namespace Lox

inductive Completion where
  | normal
  | broken
  | continued
  | returned (value : Value)
  deriving Repr

namespace Eval

/-! ## Loops -/

/-- Rounds of a loop: the test, the body, and after a body that does not leave the loop
the step. -/
def rounds (test : Eval Bool) (body : Eval Completion) (step : Eval Value) : Nat → Eval Completion
  | 0 => throw (.fault .outOfFuel)
  | n + 1 => do
    if ← test then
      match ← body with
      | .broken => return .normal
      | .returned v => return .returned v
      | _ =>
        let _ ← step
        rounds test body step n
    else return .normal

/-! ## Classes -/

def superclassValue (room : Nat) (parent : Reference) : Eval Nat := deeper room fun room => do
  match ← read room parent with
  | .class_ k => return k
  | _ => fail parent.name .superclassNotClass

def methodTable (env : Nat) (methods : List Routine) : Bindings Closure :=
  methods.foldl (fun table m => table.set m.name.text ⟨m, env, m.isInit⟩) ∅

/-- The methods of a subclass are declared in an environment that holds its superclass. -/
def methodEnv : Option Nat → Eval Nat
  | none => do return (← get).current
  | some k => do newEnvironment (.single superName (.class_ k)) (← get).current

/-- The name is nil while the class is made. -/
def declareClass (room : Nat) (name : Lexeme) (superclass : Option Reference) (methods : List Routine) :
    Eval Unit := do
  let parent ← superclass.mapM (superclassValue room)
  deeper room fun room => do
    define name.text .nil
    let env ← methodEnv parent
    let made ← newClass ⟨name.text, parent, methodTable env methods⟩
    assignIn room (← get).current name made

/-! ## Statements -/

def test (enter : Enter) (room : Nat) (e : Expr) : Eval Bool := do
  return (← expr enter room e).isTruthy

mutual

def stmt (host : Host) (enter : Enter) (room : Nat) (s : Stmt) : Eval Completion := deeper room fun room =>
  match s with
  | .expr e => do
    let _ ← expr enter room e
    return .normal
  | .print_ e => do
    printValue room (← expr enter room e)
    return .normal
  | .var name init => do
    let v ← exprOpt enter room init
    needs 1 room (define name.text v)
    return .normal
  | .block body => deeper room fun room => do
    let env ← newEnvironment ∅ (← get).current
    inside env (stmts host enter room body)
  | .cond c yes no => do
    if ← test enter room c then stmt host enter room yes else stmtOpt host enter room no
  | .loop c body step => deeper room fun room =>
    rounds (test enter room c) (stmt host enter room body) (exprOpt enter room step) host.rounds
  | .break_ _ => return .broken
  | .continue_ _ => return .continued
  | .fun_ routine => needs 1 room do
    define routine.name.text (← newFunction ⟨routine, (← get).current, false⟩)
    return .normal
  | .return_ _ value => do
    let v ← exprOpt enter room value
    needs 1 room (return .returned v)
  | .class_ name superclass methods => deeper room fun room => do
    declareClass room name superclass methods
    return .normal

def stmts (host : Host) (enter : Enter) (room : Nat) (ss : List Stmt) : Eval Completion :=
  match ss with
  | [] => return .normal
  | s :: rest => do
    match ← stmt host enter room s with
    | .normal => stmts host enter room rest
    | left => return left

def stmtOpt (host : Host) (enter : Enter) (room : Nat) (s : Option Stmt) : Eval Completion :=
  match s with
  | none => return .normal
  | some s => stmt host enter room s

end

theorem stmt_zero (host : Host) (enter : Enter) (s : Stmt) : stmt host enter 0 s = throw .outOfStack := by
  cases s <;> rfl

/-! ## Calls -/

/-- Of two parameters of one name the later counts. -/
def arguments : List Lexeme → List Value → Bindings Value → Bindings Value
  | p :: params, v :: values, table => arguments params values (table.set p.text v)
  | _, _, table => table

/-- Runs the body of a closure. An initializer gives the instance it is bound to. -/
def call (run : Nat → List Stmt → Eval Completion) (room : Nat) (c : Closure) (values : List Value) :
    Eval Value :=
  deeper room fun room => deeper room fun inner => do
    let env ← newEnvironment (arguments c.routine.params values ∅) c.env
    let done ← inside env (run inner c.routine.body)
    if c.isInit then needs 2 room (inside c.env (readAt 0 thisName))
    else
      match done with
      | .returned v => return v
      | _ => return .nil

/-- A new instance, after its initializer if its class has one. -/
def instantiate (run : Nat → List Stmt → Eval Completion) (room k : Nat) (values : List Value) :
    Eval Value :=
  deeper room fun room => deeper room fun inner => do
    let id ← newInstance k
    match ← findMethod initName k with
    | none => return .instance_ id
    | some init =>
      let c ← needs 1 inner (bindThis init id)
      let _ ← call run room c values
      return .instance_ id

/-- Runs what is called, with the calls that it makes. -/
def enterCall (host : Host) (run : Nat → List Stmt → Eval Completion) : Enter :=
  fun room paren callee values =>
    match callee with
    | .clock => needs 2 room (readClock host)
    | .function id => do
      let c ← deref (← get).closures[id]?
      call run room c values
    | .class_ k => instantiate run room k values
    | _ => fail paren .notCallable

/-- Runs a call while so many more may be open. -/
def invoke (host : Host) : Nat → Enter
  | 0 => fun _ paren _ _ => fail paren .stackOverflow
  | n + 1 => fun room paren callee values =>
    catchStack paren (enterCall host (stmts host (invoke host n)) room paren callee values)

/-! ## Programs -/

def globalValue (name : String) : Eval Value := do
  return (((← get).store.values? globalEnv).bind (·.get? name)).getD .nil

/-- A value that a prompt shows. -/
def echo (room : Nat) (v : Value) : Eval Unit := deeper room fun room => printValue room v

/-- A statement of the program itself. At a prompt the values of expression statements
and variable declarations are printed. -/
def topLevel (host : Host) (interactive : Bool) (s : Stmt) : Eval Unit := do
  let enter := invoke host host.calls
  match interactive, s with
  | true, .expr e => echo host.stack (← expr enter host.stack e)
  | true, .var name _ =>
    let _ ← stmt host enter host.stack s
    echo host.stack (← globalValue name.text)
  | _, _ =>
    let _ ← stmt host enter host.stack s

/-- A program ends in the global environment, however it ends. -/
def interpret (host : Host) (interactive : Bool) (statements : List Stmt) : Eval Unit := fun m =>
  match statements.forM (topLevel host interactive) m with
  | .ok a m' => .ok a { m' with current := globalEnv }
  | .error stop m' => .error stop { m' with current := globalEnv }

/-- Outside of a call the end of the stack is a fault of what is left to the program. -/
def program (host : Host) (interactive : Bool) (statements : List Stmt) : EStateM Fault Machine Unit :=
  fun m =>
    match interpret host interactive statements m with
    | .ok a m' => .ok a m'
    | .error (.fault fault) m' => .error fault m'
    | .error .outOfStack m' => .error .outOfFuel m'

end Eval

end Lox
