/-
  Lox.Session — texts run one after the other on one machine: what one run leaves in the
  global environment, the next one finds.

  A run reads its text, resolves it, and only without an error so far executes it. Slots
  go on counting from run to run, a run that fails included, for a closure may outlive
  the run that made it. A run is told as a list of notices, in the order in which they
  come up; those that are errors are reported, the others are for the log.
-/

import Lox.Execution
import Lox.Grammar

namespace Lox

/-! ## What a run tells -/

inductive Notice where
  | scanned (tokens statements : Nat)
  | resolved (references errors : Nat)
  | stopping (error : RuntimeError)
  | rejected (error : Diagnostic)
  | stopped (error : RuntimeError)
  deriving Repr

namespace Notice

/-- For the log alone. -/
def isLog : Notice → Bool
  | scanned .. | resolved .. | stopping _ => true
  | rejected _ | stopped _ => false

def logLine (source message : String) : String := "DEBUG:pylox." ++ source ++ ":" ++ message

def text : Notice → String
  | scanned tokens statements =>
    logLine "session"
      ("scanned " ++ tokens.repr ++ " tokens, parsed " ++ statements.repr ++ " statements")
  | resolved references errors =>
    logLine "resolve"
      ("resolved " ++ references.repr ++ " local references, " ++ errors.repr ++ " errors")
  | stopping error => logLine "runtime" ("runtime error: " ++ error.text)
  | rejected error => error.text
  | stopped error => error.text

end Notice

inductive Ending where
  | finished
  | rejected (errors : List Diagnostic)
  | stopped (error : RuntimeError)
  | failed (fault : Fault)
  /-- The stack of the host was used up outside of any call. -/
  | exhausted
  deriving Repr

structure Report where
  ending : Ending
  output : Array String
  notices : List Notice

def joinLines (lines : List String) : String := String.join (lines.map (· ++ "\n"))

namespace Report

def diagnostics (r : Report) : List Diagnostic :=
  match r.ending with
  | .rejected errors => errors
  | _ => []

def runtimeError? (r : Report) : Option RuntimeError :=
  match r.ending with
  | .stopped error => some error
  | _ => none

/-- What the program printed. -/
def outputText (r : Report) : String := joinLines r.output.toList

/-- The errors as they are reported, in a verbose report among the lines of the log. -/
def errorText (r : Report) (verbose : Bool) : String :=
  joinLines ((r.notices.filter fun n => verbose || !n.isLog).map Notice.text)

end Report

/-! ## Runs -/

structure Session where
  machine : Machine
  nextSlot : Int
  interactive : Bool

namespace Session

def start (interactive : Bool) : Session := ⟨.start, 0, interactive⟩

/-- A run that stops before it executes. -/
def reject (s : Session) (log : List Notice) (errors : List Diagnostic) : Report × Session :=
  let sorted := Diagnostic.sorted errors
  (⟨.rejected sorted, #[], log ++ sorted.map .rejected⟩, s)

/-- A session between two runs: the output of the last one has been taken off. -/
def idle (m : Machine) (nextSlot : Int) (interactive : Bool) : Session :=
  ⟨{ m with output := #[] }, nextSlot, interactive⟩

def ending : Stop → Ending
  | .fault (.runtime error) => .stopped error
  | .fault fault => .failed fault
  | .outOfStack => .exhausted

def stopNotices : Stop → List Notice
  | .fault (.runtime error) => [.stopping error, .stopped error]
  | _ => []

/-- Runs a program that has been read and resolved. What it prints is its report's. -/
def execute (host : Host) (s : Session) (log : List Notice) (program : List Stmt)
    (distances : Distances) : Report × Session :=
  let ⟨machine, nextSlot, interactive⟩ := s
  match Eval.interpret host interactive program (machine.load distances) with
  | .ok _ m => (⟨.finished, m.output, log⟩, idle m nextSlot interactive)
  | .error stop m =>
    (⟨ending stop, m.output, log ++ stopNotices stop⟩, idle m nextSlot interactive)

/-- Runs a program that has been read: resolves it, and executes it if that is without an
error. -/
def runProgram (host : Host) (s : Session) (log : List Notice) (program : List Stmt) :
    Report × Session :=
  let found := resolve program
  let log := log ++ [.resolved found.distances.size found.errors.length]
  if found.errors.isEmpty then s.execute host log program found.distances
  else s.reject log found.errors

/-- Runs a text. -/
def run (host : Host) (s : Session) (source : String) : Report × Session :=
  let (tokens, lexical) := tokenize source
  let parsed := parse tokens s.nextSlot
  let errors := lexical ++ parsed.errors
  let s := { s with nextSlot := parsed.nextSlot }
  let log := [Notice.scanned tokens.count parsed.program.length]
  if errors.isEmpty then s.runProgram host log parsed.program else s.reject log errors

end Session

end Lox
