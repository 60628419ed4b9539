/-
  Lox.Fault — what stops a running program: an error of the program itself, which is
  reported at a lexeme, or a fault of what the program was given with, its tree and its
  distances.

  A program that was read and resolved as it stands meets program errors alone. The other
  faults answer to trees and tables from elsewhere: a distance past the last environment,
  a name that is not in the environment at its distance, a `super` without an entry.

  While a program is evaluated it may also come to the end of its host's stack (`Stop`).
  In a call that is an error of the program, outside of calls it ends the run.
-/

import Lox.Text.Quoted
import Lox.Tree

namespace Lox

inductive RuntimeCause where
  | undefinedVariable (name : String)
  | undefinedProperty (name : String)
  | noProperties
  | noFields
  | notCallable
  | wrongArity (expected got : Nat)
  | stackOverflow
  | superclassNotClass
  | operandNotNumber
  | operandsNotNumbers
  | operandsNotAddable
  | divisionByZero
  | unknownOperator (op : String)
  deriving DecidableEq, Repr

/-- An error of the running program and the lexeme it is reported at. -/
structure RuntimeError where
  site : Lexeme
  cause : RuntimeCause
  deriving DecidableEq, Repr

inductive Fault where
  | runtime (error : RuntimeError)
  /-- The environment at the distance does not hold the name. -/
  | unboundName (name : String)
  /-- A `super` whose slot is not in the table. -/
  | unresolvedSlot (slot : Int)
  | chainExceeded (distance : Int)
  | superNotClass
  /-- A number that stands for nothing on the heap. -/
  | dangling
  /-- The host has no more for the program: a loop has used up its rounds. -/
  | outOfFuel
  deriving DecidableEq, Repr

/-- What stops an evaluation. -/
inductive Stop where
  | fault (fault : Fault)
  /-- The stack of the host is used up. -/
  | outOfStack
  deriving DecidableEq, Repr

/-! ## Wording -/

def RuntimeCause.message : RuntimeCause → String
  | undefinedVariable name => "Undefined variable '" ++ name ++ "'."
  | undefinedProperty name => "Undefined property '" ++ name ++ "'."
  | noProperties => "Only instances have properties."
  | noFields => "Only instances have fields."
  | notCallable => "Can only call functions and classes."
  | wrongArity expected got =>
    "Expected " ++ expected.repr ++ " arguments but got " ++ got.repr ++ "."
  | stackOverflow => "Stack overflow."
  | superclassNotClass => "Superclass must be a class."
  | operandNotNumber => "Operand must be a number."
  | operandsNotNumbers => "Operands must be numbers."
  | operandsNotAddable => "Operands must be two numbers or two strings."
  | divisionByZero => "Attempted to divide by zero."
  | unknownOperator op => "Unknown operator '" ++ op ++ "'."

namespace RuntimeError

def message (e : RuntimeError) : String := e.cause.message

def text (e : RuntimeError) : String := "[line " ++ e.site.line.repr ++ "] " ++ e.message

end RuntimeError

def Fault.message : Fault → String
  | runtime error => error.text
  | unboundName name => Text.quoted name
  | unresolvedSlot slot => slot.repr
  | chainExceeded distance => "resolved distance " ++ distance.repr ++ " exceeds the scope chain"
  | superNotClass => "'super' resolved to a non-class binding"
  | dangling => "no such object on the heap"
  | outOfFuel => "out of fuel"

end Lox
