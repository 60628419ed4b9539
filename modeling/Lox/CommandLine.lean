/-
  Lox.CommandLine — what a command line asks for, what is done for it, what is written
  and which code the program ends with.

  Arguments are taken from left to right, and the first one that cannot be taken decides,
  as does a request for help. An empty argument names no file. Without a file the program
  comes from standard input, unless that is a terminal or a prompt is asked for.
-/

import Lox.Files
import Lox.Session
import Lox.Text.Blank
import Lox.Tree.Printer

namespace Lox.CommandLine

/-! ## What is written -/

structure Transcript where
  stdout : String
  stderr : String

namespace Transcript

def empty : Transcript := ⟨"", ""⟩

def append (a b : Transcript) : Transcript := ⟨a.stdout ++ b.stdout, a.stderr ++ b.stderr⟩

instance : Append Transcript := ⟨append⟩

def out (text : String) : Transcript := ⟨text, ""⟩

def err (text : String) : Transcript := ⟨"", text⟩

def ofReport (verbose : Bool) (r : Report) : Transcript := ⟨r.outputText, r.errorText verbose⟩

end Transcript

structure Outcome where
  code : Nat
  written : Transcript

def exitOk : Nat := 0
def exitFailed : Nat := 1
def exitUsage : Nat := 64
def exitRejected : Nat := 65
def exitNoInput : Nat := 66
def exitStopped : Nat := 70

def programName : String := "pylox"

/-- A complaint of the command line itself. -/
def complaint (text : String) : Transcript := .err (programName ++ ": " ++ text ++ "\n")

/-! ## Arguments -/

structure Options where
  file : Option String
  printTree : Bool
  prompt : Bool
  verbose : Bool
  deriving DecidableEq, Repr

inductive UsageError where
  | unknownFlag (argument : String)
  | unexpectedArgument (argument : String)
  | promptWithFile
  deriving DecidableEq, Repr

def UsageError.message : UsageError → String
  | unknownFlag argument => "unknown flag '" ++ argument ++ "'"
  | unexpectedArgument argument => "unexpected argument '" ++ argument ++ "'"
  | promptWithFile => "--repl does not take a file"

inductive Request where
  | help
  | refused (error : UsageError)
  | run (options : Options)
  deriving DecidableEq, Repr

def isFlag (argument : String) : Bool := argument.toList.head? = some '-'

namespace Options

def start : Options := ⟨none, false, false, false⟩

def finish (o : Options) : Request :=
  if o.file.isSome && o.prompt then .refused .promptWithFile else .run o

def take (o : Options) : List String → Request
  | [] => o.finish
  | argument :: rest =>
    if argument = "--help" || argument = "-h" then .help
    else if argument = "--verbose" || argument = "-v" then { o with verbose := true }.take rest
    else if argument = "--print-ast" then { o with printTree := true }.take rest
    else if argument = "--repl" then { o with prompt := true }.take rest
    else if isFlag argument then .refused (.unknownFlag argument)
    else
      match o.file with
      | some _ => .refused (.unexpectedArgument argument)
      | none => { o with file := if argument = "" then none else some argument }.take rest

end Options

def usage : String :=
  "pylox [OPTIONS] [FILE]\n\n" ++
  "Run a Lox program. With no FILE, read from stdin: a prompt when stdin is a\n" ++
  "terminal, otherwise the whole input as one program.\n\n" ++
  "Options:\n" ++
  "  --print-ast        Print the parsed program instead of running it\n" ++
  "  --repl             Start the prompt even when stdin is not a terminal\n" ++
  "  --verbose, -v      Log pipeline stages to stderr\n" ++
  "  --help, -h         Show this help message\n"

/-! ## Programs -/

def exitCode (r : Report) : Nat :=
  match r.ending with
  | .finished => exitOk
  | .rejected _ => exitRejected
  | .stopped _ => exitStopped
  | .failed _ | .exhausted => exitFailed

def runProgram (host : Host) (verbose : Bool) (source : String) : Outcome :=
  let (report, _) := (Session.start false).run host source
  ⟨exitCode report, .ofReport verbose report⟩

/-- The errors of a tree that is to be printed stay in the order in which they are found. -/
def printTree (source : String) : Outcome :=
  let parsed := parseText source 0
  if parsed.errors.isEmpty then ⟨exitOk, .out (printProgram parsed.program)⟩
  else ⟨exitRejected, .err (joinLines (parsed.errors.map Diagnostic.text))⟩

def runSource (host : Host) (o : Options) (source : String) : Outcome :=
  if o.printTree then printTree source else runProgram host o.verbose source

/-- Runs the content of a file, which has to be UTF-8. -/
def runFile (host : Host) (o : Options) (path : String) (content : Except ReadError ByteArray) :
    Outcome :=
  match content with
  | .error e => ⟨exitNoInput, complaint (path ++ ": " ++ e.message path)⟩
  | .ok bytes =>
    match String.fromUTF8? bytes with
    | some source => runSource host o source
    | none => ⟨exitNoInput, complaint (path ++ ": invalid utf-8")⟩

/-! ## The prompt -/

def greeting : Transcript := .out "Write 'exit' to close the program\n"

def promptMark : Transcript := .out "> "

/-- What follows the last mark when the input ends. -/
def farewell : Transcript := .out "\n"

def isExit (line : List Char) : Bool := Text.trim line = "exit".toList

/-- Runs one line, unless it asks for the end. -/
def answer (host : Host) (verbose : Bool) (s : Session) (line : List Char) :
    Option (Transcript × Session) :=
  if isExit line then none
  else
    let (report, s) := s.run host (String.ofList line)
    some (.ofReport verbose report, s)

def prompt (host : Host) (verbose : Bool) (s : Session) : List (List Char) → Transcript
  | [] => promptMark ++ farewell
  | line :: rest =>
    match answer host verbose s line with
    | none => promptMark
    | some (written, s) => promptMark ++ written ++ prompt host verbose s rest

/-- The lines of a text, each with its line feed. -/
def linesOnto (line : List Char) : List Char → List (List Char)
  | [] => if line.isEmpty then [] else [line.reverse]
  | '\n' :: rest => ('\n' :: line).reverse :: linesOnto [] rest
  | c :: rest => linesOnto (c :: line) rest

def runPrompt (host : Host) (o : Options) (input : String) : Outcome :=
  ⟨exitOk, greeting ++ prompt host o.verbose (.start true) (linesOnto [] input.toList)⟩

/-! ## All together -/

/-- Where a command line is given: its files, its standard input, and whether that is a
terminal. -/
structure Place where
  files : Files
  stdin : String
  terminal : Bool

def Options.prompts (o : Options) (terminal : Bool) : Bool := o.file.isNone && (o.prompt || terminal)

def runOptions (host : Host) (place : Place) (o : Options) : Outcome :=
  match o.file with
  | some path => runFile host o path (place.files.read path)
  | none =>
    if o.prompts place.terminal then runPrompt host o place.stdin else runSource host o place.stdin

def refuse (e : UsageError) : Outcome := ⟨exitUsage, complaint e.message⟩

def run (host : Host) (place : Place) (arguments : List String) : Outcome :=
  match Options.start.take arguments with
  | .help => ⟨exitOk, .out usage⟩
  | .refused e => refuse e
  | .run o => runOptions host place o

end Lox.CommandLine
