/-
  Lox.Grammar — from tokens to a program: the declarations that could be read, the errors
  in the order in which they were found, and the first slot that is still free.

  Reading starts at a slot of the caller's choice, so that slots differ across the texts
  of a session. The bound on the nesting of rules grows with the number of tokens: between
  two tokens that are taken, fewer than `rulesPerToken` rules are entered.

  The rules are given all the room that they need: a host whose own stack ends while it
  reads a deeply nested text, and so never comes to run it, is left out.
-/

import Lox.Grammar.Statement
import Lox.Token.Scan

namespace Lox

structure Parsed where
  program : List Stmt
  nextSlot : Int
  errors : List Diagnostic

namespace Grammar

def rulesPerToken : Nat := 32

def fuel (tokens : Tokens) : Nat := rulesPerToken * tokens.count

def start (tokens : Tokens) (firstSlot : Int) : State :=
  { rest := tokens.items, endLine := tokens.endLine, nextSlot := firstSlot, loops := 0, errors := #[] }

end Grammar

def parse (tokens : Tokens) (firstSlot : Int) : Parsed :=
  match Grammar.program (Grammar.fuel tokens) (Grammar.start tokens firstSlot) with
  | .ok program s => ⟨program, s.nextSlot, s.errors.toList⟩
  | .error _ s => ⟨[], s.nextSlot, s.errors.toList⟩

/-- Reads a text: the errors of its tokens come before those of its grammar. -/
def parseText (source : String) (firstSlot : Int) : Parsed :=
  let (tokens, lexical) := tokenize source
  let parsed := parse tokens firstSlot
  { parsed with errors := lexical ++ parsed.errors }

end Lox
