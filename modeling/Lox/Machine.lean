/-
  Lox.Machine — the state of a running program: its environments, the functions, classes
  and instances it has made, the current environment, the distances of its references,
  and the lines it has printed.

  Objects are numbered in the order in which they are made, and links between classes are
  only followed to older ones (`findMethod?`). What a program does to the machine goes
  through the few effects below; each of them that can fail leaves the machine as it is.

  Evaluation is a recursion on the stack of the host, which has room for so many levels
  (`Host.stack`). The room that is left is handed down (`deeper`), never a part of the
  machine. What takes a level: each expression and each statement, the body of a block, a
  loop and a class declaration, and the steps below them that look up, bind, write or
  make something (`needs`).

  Taken as given: a level is one call of the host, a list of operands is evaluated at the
  level of what it belongs to, and a run begins five levels up (`Host.levelsBelow`). The
  error of a step takes a level too (`orFail`), which is not counted again where a deeper
  step of the same evaluation has gone before and found the room.
-/

import Std.Data.TreeMap
import Lox.Store
import Lox.Value

namespace Lox

/-! ## Objects -/

/-- A routine with the environment it was declared in. -/
structure Closure where
  routine : Routine
  env : Nat
  isInit : Bool

structure Class where
  name : String
  superclass : Option Nat
  methods : Bindings Closure

structure Instance where
  class_ : Nat
  fields : Bindings Value

/-- The method of a name in a class or the nearest of its superclasses. -/
def findMethod? (classes : Array Class) (name : String) (k : Nat) : Option Closure :=
  match classes[k]? with
  | none => none
  | some c =>
    match c.methods.get? name with
    | some method => some method
    | none =>
      match c.superclass with
      | none => none
      | some parent => if parent < k then findMethod? classes name parent else none
termination_by k

/-! ## The machine -/

/-- What a program needs from its surroundings: the readings of the clock, the levels of
the stack that are left when a run begins, the number of calls that may be open at a time,
and the number of rounds a loop may take. -/
structure Host where
  clock : Nat → Float
  stack : Nat
  calls : Nat
  rounds : Nat

namespace Host

/-- The levels of the stack as a whole. -/
def stackSize : Nat := 10000

/-- The levels below a run: the program, its command line, the source and the session. -/
def levelsBelow : Nat := 5

/-- As many as the stack has levels: each call takes some of them, so the stack ends first. -/
def mostCalls : Nat := stackSize

/-- More rounds than any loop takes. -/
def mostRounds : Nat := Nat.pow 10 18

def ofClock (clock : Nat → Float) : Host := ⟨clock, stackSize - levelsBelow, mostCalls, mostRounds⟩

end Host

structure Machine where
  store : Store Value
  closures : Array Closure
  classes : Array Class
  instances : Array Instance
  current : Nat
  distances : Distances
  output : Array String
  /-- How often the clock has been read. -/
  ticks : Nat

/-- The environment of the global names. -/
def globalEnv : Nat := 0

def clockName : String := "clock"

namespace Machine

def start : Machine where
  store := Store.empty.push (.single clockName .clock) none
  closures := #[]
  classes := #[]
  instances := #[]
  current := globalEnv
  distances := ∅
  output := #[]
  ticks := 0

def className (m : Machine) (k : Nat) : String :=
  match m.classes[k]? with
  | some c => c.name
  | none => ""

/-- The text of a value as it is printed and joined to strings. -/
def display (m : Machine) : Value → String
  | .nil => "nil"
  | .bool true => "true"
  | .bool false => "false"
  | .number x => Number.display x
  | .string text => text
  | .clock => "<native fn>"
  | .function id =>
    match m.closures[id]? with
    | some c => "<fn " ++ c.routine.name.text ++ ">"
    | none => ""
  | .class_ k => m.className k
  | .instance_ id =>
    match m.instances[id]? with
    | some i => m.className i.class_ ++ " instance"
    | none => ""

/-- The global names with the texts of their values, by name. -/
def globals (m : Machine) : List (String × String) :=
  let entries := ((m.store.values? globalEnv).getD ∅).entries
  (entries.map fun (name, value) => (name, m.display value)).mergeSort fun a b => a.1 ≤ b.1

/-- Adds the distances of a program that is about to run. -/
def load (m : Machine) (distances : Distances) : Machine :=
  { m with distances := m.distances.merge distances }

end Machine

/-! ## Effects -/

abbrev Eval := EStateM Stop Machine

namespace Eval

variable {α : Type}

def fail (site : Lexeme) (cause : RuntimeCause) : Eval α := throw (.fault (.runtime ⟨site, cause⟩))

def ofExcept : Except Fault α → Eval α
  | .ok a => pure a
  | .error fault => throw (.fault fault)

/-- What a part of the heap holds under a number. -/
def deref : Option α → Eval α
  | some a => pure a
  | none => throw (.fault .dangling)

/-! ### The stack -/

/-- One level deeper on the stack, with the room that is left there. -/
def deeper (room : Nat) (p : Nat → Eval α) : Eval α :=
  match room with
  | 0 => throw .outOfStack
  | room + 1 => p room

/-- What takes so many levels of the stack and evaluates nothing of the program. -/
def needs : (levels room : Nat) → Eval α → Eval α
  | 0, _, p => p
  | levels + 1, room, p => deeper room fun room => needs levels room p

/-- The error of a step is made one level deeper. -/
def orFail (room : Nat) : Except Fault α → Eval α
  | .ok a => pure a
  | .error fault => needs 1 room (throw (.fault fault))

def ofOperator (room : Nat) (result : Except RuntimeError α) : Eval α :=
  orFail room (result.mapError .runtime)

/-- A call that comes to the end of the stack overflows, at its closing parenthesis. -/
def catchStack (paren : Lexeme) (p : Eval α) : Eval α := fun m =>
  match p m with
  | .error .outOfStack m' => fail paren .stackOverflow m'
  | result => result

/-! ### Output and clock -/

def print (line : String) : Eval Unit := modify fun m => { m with output := m.output.push line }

def printValue (room : Nat) (v : Value) : Eval Unit := needs v.textLevels room do
  let m ← get
  print (m.display v)

def readClock (host : Host) : Eval Value := fun m =>
  .ok (.number (host.clock m.ticks)) { m with ticks := m.ticks + 1 }

/-! ### Environments -/

def newEnvironment (values : Bindings Value) (enclosing : Nat) : Eval Nat := fun m =>
  .ok m.store.size { m with store := m.store.push values (some enclosing) }

/-- Declares a name in the current environment, over one that is there. -/
def define (name : String) (value : Value) : Eval Unit :=
  modify fun m => { m with store := m.store.define m.current name value }

def assignIn (room env : Nat) (name : Lexeme) (value : Value) : Eval Unit := do
  let m ← get
  let k ← orFail room (m.store.holder env name)
  modify fun m => { m with store := m.store.define k name.text value }

def readAt (distance : Int) (name : String) : Eval Value := do
  let m ← get
  ofExcept (m.store.readAt m.current distance name)

def assignAt (distance : Int) (name : String) (value : Value) : Eval Unit := do
  let m ← get
  let k ← ofExcept (m.store.ancestor m.current distance)
  modify fun m => { m with store := m.store.define k name value }

def distance? (target : Reference) : Eval (Option Int) := do return (← get).distances[target.slot]?

/-- A reference without a distance is a global one. -/
def read (room : Nat) (target : Reference) : Eval Value := deeper room fun room => do
  match ← distance? target with
  | some d => needs 2 room (readAt d target.name.text)
  | none => deeper room fun room => do orFail room ((← get).store.read globalEnv target.name)

def assign (room : Nat) (target : Reference) (value : Value) : Eval Unit := do
  match ← distance? target with
  | some d => needs 2 room (assignAt d target.name.text value)
  | none => deeper room fun room => assignIn room globalEnv target.name value

/-- Runs `p` in an environment; however `p` ends, the current one is current again. -/
def inside (env : Nat) (p : Eval α) : Eval α := fun m =>
  match p { m with current := env } with
  | .ok a m' => .ok a { m' with current := m.current }
  | .error stop m' => .error stop { m' with current := m.current }

/-! ### Objects -/

def newFunction (c : Closure) : Eval Value := fun m =>
  .ok (.function m.closures.size) { m with closures := m.closures.push c }

def newClass (c : Class) : Eval Value := fun m =>
  .ok (.class_ m.classes.size) { m with classes := m.classes.push c }

def newInstance (k : Nat) : Eval Nat := fun m =>
  .ok m.instances.size { m with instances := m.instances.push ⟨k, ∅⟩ }

def setField (id : Nat) (name : String) (value : Value) : Eval Unit :=
  modify fun m => { m with
    instances := m.instances.modify id fun i => { i with fields := i.fields.set name value } }

def findMethod (name : String) (k : Nat) : Eval (Option Closure) := do
  return findMethod? (← get).classes name k

/-- A method with `this` bound to an instance, in an environment of its own. -/
def bindThis (method : Closure) (id : Nat) : Eval Closure := do
  let env ← newEnvironment (.single thisName (.instance_ id)) method.env
  return { method with env }

def boundMethod (method : Closure) (id : Nat) : Eval Value := do newFunction (← bindThis method id)

end Eval

end Lox
