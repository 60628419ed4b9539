/-
  Lox.Operator — unary and binary operators on values.

  Equality and the comma take any operands. A sum takes two numbers or at least one
  string, the other operand then in its display form. All other operators take two
  numbers; that is asked before the operator is, so an unknown one is only reported on
  numbers. Dividing by a zero of either sign is an error.
-/

import Lox.Fault
import Lox.Value

namespace Lox.Operator

def fail {α : Type} (op : Lexeme) (cause : RuntimeCause) : Except RuntimeError α :=
  .error ⟨op, cause⟩

/-- Every operator but `!` negates. -/
def unary (op : Lexeme) (operand : Value) : Except RuntimeError Value :=
  match Symbol.ofText? op.text, operand with
  | some .bang, _ => .ok (.bool !operand.isTruthy)
  | _, .number x => .ok (.number (-x))
  | _, _ => fail op .operandNotNumber

def sum (display : Value → String) (op : Lexeme) : (left right : Value) → Except RuntimeError Value
  | .number x, .number y => .ok (.number (x + y))
  | .string s, right => .ok (.string (s ++ display right))
  | left, .string t => .ok (.string (display left ++ t))
  | _, _ => fail op .operandsNotAddable

def arithmetic (op : Lexeme) (x y : Float) : Except RuntimeError Value :=
  match Symbol.ofText? op.text with
  | some .minus => .ok (.number (x - y))
  | some .star => .ok (.number (x * y))
  | some .slash => if y == 0 then fail op .divisionByZero else .ok (.number (x / y))
  | some .greater => .ok (.bool (x > y))
  | some .greaterEqual => .ok (.bool (x ≥ y))
  | some .less => .ok (.bool (x < y))
  | some .lessEqual => .ok (.bool (x ≤ y))
  | _ => fail op (.unknownOperator op.text)

def binary (display : Value → String) (op : Lexeme) (left right : Value) :
    Except RuntimeError Value :=
  match Symbol.ofText? op.text with
  | some .comma => .ok right
  | some .equalEqual => .ok (.bool (left.equal right))
  | some .bangEqual => .ok (.bool !left.equal right)
  | some .plus => sum display op left right
  | _ =>
    match left, right with
    | .number x, .number y => arithmetic op x y
    | _, _ => fail op .operandsNotNumbers

/-! ## Levels of the stack -/

/-- To join a string and another value takes the text of the other one. -/
def sumLevels : (left right : Value) → Nat
  | .string _, .string _ => 0
  | .string _, right => right.textLevels
  | left, .string _ => left.textLevels
  | _, _ => 0

def binaryLevels (op : Lexeme) (left right : Value) : Nat :=
  match Symbol.ofText? op.text with
  | some .equalEqual | some .bangEqual => 1
  | some .plus => sumLevels left right
  | _ => 0

end Lox.Operator
