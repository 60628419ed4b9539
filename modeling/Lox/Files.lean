/-
  Lox.Files — finding a file by its path: what stands in the way, and the text of that.

  A path is followed name by name from the working directory. An empty name and a dot
  stay where they are, two dots lead to the directory above; all three need a directory
  to start from, as every name does. What lies outside of the working directory is not
  known: a name there is missing. A path that is too long as a whole is not followed at
  all, a name that is too long is found in no directory.
-/

import Lox.Text.Quoted

namespace Lox

/-- Why a file cannot be read. -/
inductive ReadError where
  | missing
  | failed (code : Nat) (reason : String)
  deriving DecidableEq, Repr

namespace ReadError

def notDirectory : ReadError := failed 20 "Not a directory"

def isDirectory : ReadError := failed 21 "Is a directory"

def nameTooLong : ReadError := failed 36 "File name too long"

def message (path : String) : ReadError → String
  | missing => "No such file or directory"
  | failed code reason => "[Errno " ++ code.repr ++ "] " ++ reason ++ ": " ++ Text.quoted path

end ReadError

inductive Entry where
  | directory
  | file (content : ByteArray)

/-- The files and directories below the working directory, each with the names on its path. -/
structure Files where
  entries : List (List String × Entry)

namespace Files

/-- The names on a path, empty ones included. -/
def names (path : String) : List String := (path.toList.splitOn '/').map String.ofList

/-- A path that ends with a slash is a directory. -/
def entry (path : String) (content : ByteArray) : List String × Entry :=
  let parts := (names path).filter (· ≠ "")
  (parts, if path.toList.getLast? = some '/' then .directory else .file content)

/-- What is found under the names below the working directory. Every directory on the
way to an entry is there too. -/
def at? (files : Files) (parts : List String) : Option Entry :=
  match files.entries.find? (·.1 = parts) with
  | some (_, e) => some e
  | none => if parts = [] || files.entries.any (parts.isPrefixOf ·.1) then some .directory else none

/-- A directory or file below the working directory, or a directory outside of it. -/
inductive Spot where
  | below (parts : List String) (entry : Entry)
  | outside

/-- The longest name that a directory can hold, in bytes. -/
def longestName : Nat := 255

/-- The longest path that is followed, in bytes. -/
def longestPath : Nat := 4095

def step (files : Files) (spot : Spot) (name : String) : Except ReadError Spot :=
  match spot with
  | .below _ (.file _) => .error .notDirectory
  | .below parts .directory =>
    if name = "" || name = "." then .ok spot
    else if name = ".." then .ok (if parts = [] then .outside else .below parts.dropLast .directory)
    else if name.utf8ByteSize > longestName then .error .nameTooLong
    else
      match files.at? (parts ++ [name]) with
      | some e => .ok (.below (parts ++ [name]) e)
      | none => .error .missing
  | .outside =>
    if name = "" || name = "." || name = ".." then .ok .outside
    else if name.utf8ByteSize > longestName then .error .nameTooLong
    else .error .missing

def read (files : Files) (path : String) : Except ReadError ByteArray := do
  if path.utf8ByteSize > longestPath then throw .nameTooLong
  let start := if path.toList.head? = some '/' then Spot.outside else .below [] .directory
  match ← (names path).foldlM files.step start with
  | .below _ (.file content) => .ok content
  | _ => .error .isDirectory

end Files

end Lox
