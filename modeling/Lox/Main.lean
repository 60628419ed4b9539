/-
  Lox.Main — the program: takes the command line, reads what it asks for, and writes what
  `Lox.CommandLine` says.

  The clock is read once before a text is run. From there it goes on by a microsecond
  with every reading.
-/

import Lox.CommandLine

namespace Lox.Main

open CommandLine

def tick : Float := 1.0e-6

def hostNow : IO Host := do
  let seconds := (← IO.monoMsNow).toFloat / 1000.0
  return Host.ofClock fun n => seconds + n.toFloat * tick

def emit (t : Transcript) : IO Unit := do
  IO.print t.stdout
  (← IO.getStdout).flush
  IO.eprint t.stderr

/-- The number of an error, which some calls hand back with its sign turned. -/
def errorNumber (code : UInt32) : Nat := code.toInt32.toInt.natAbs

def knownError (code : Nat) (reason : String) : ReadError :=
  if code = 20 then .notDirectory
  else if code = 21 then .isDirectory
  else if code = 36 then .nameTooLong
  else .failed code reason

def readError : IO.Error → ReadError
  | .noFileOrDirectory .. => .missing
  | .inappropriateType _ code reason | .permissionDenied _ code reason
  | .invalidArgument _ code reason => knownError (errorNumber code) reason
  | e => .failed 5 e.toString

def readFile (path : String) : IO (Except ReadError ByteArray) := do
  try return .ok (← IO.FS.readBinFile path)
  catch e => return .error (readError e)

partial def interact (verbose : Bool) (s : Session) : IO Unit := do
  emit promptMark
  let line ← (← IO.getStdin).getLine
  if line.isEmpty then emit farewell
  else
    match answer (← hostNow) verbose s line.toList with
    | none => return ()
    | some (written, s) =>
      emit written
      interact verbose s

def finish (o : Outcome) : IO UInt32 := do
  emit o.written
  return o.code.toUInt32

def run (o : Options) : IO UInt32 := do
  match o.file with
  | some path => finish (runFile (← hostNow) o path (← readFile path))
  | none =>
    let stdin ← IO.getStdin
    if o.prompts (← stdin.isTty) then
      emit greeting
      interact o.verbose (.start true)
      return exitOk.toUInt32
    else
      finish (runSource (← hostNow) o (← stdin.readToEnd))

end Lox.Main

def main (arguments : List String) : IO UInt32 :=
  open Lox.CommandLine in
  match Options.start.take arguments with
  | .help => Lox.Main.finish ⟨exitOk, .out usage⟩
  | .refused e => Lox.Main.finish (refuse e)
  | .run o => Lox.Main.run o
