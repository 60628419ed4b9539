/-
  Lox.Value — the values of a running program, truth and equality.

  Functions, classes and instances are numbers of objects on the heap, so two of them are
  equal when they are one object. Numbers compare as doubles do: a NaN differs from
  itself, the two zeros are equal. Values of different kinds are never equal.
-/

import Lox.Tree

namespace Lox

inductive Value where
  | nil
  | bool (value : Bool)
  | number (value : Float)
  | string (text : String)
  | clock
  | function (id : Nat)
  | class_ (id : Nat)
  | instance_ (id : Nat)
  deriving Repr, Inhabited

def Literal.value : Literal → Value
  | nil => .nil
  | bool b => .bool b
  | number x => .number x
  | string text => .string text

namespace Value

def isTruthy : Value → Bool
  | nil => false
  | bool b => b
  | _ => true

/-- The levels of the stack that making the text of a value takes. Objects have a text of
their own. -/
def textLevels : Value → Nat
  | nil | bool _ | number _ | string _ => 1
  | clock | function _ | class_ _ | instance_ _ => 2

def equal : Value → Value → Bool
  | nil, nil => true
  | bool a, bool b => a == b
  | number x, number y => x == y
  | string s, string t => s == t
  | clock, clock => true
  | function i, function j => i == j
  | class_ i, class_ j => i == j
  | instance_ i, instance_ j => i == j
  | _, _ => false

end Value

end Lox
