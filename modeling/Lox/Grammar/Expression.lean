/-
  Lox.Grammar.Expression — reading expressions by level of precedence.

  From the loosest to the tightest level: comma, assignment, or, and, ternary, equality,
  comparison, term, factor, unary, call. The levels of binary operators (`operators`)
  are chains that group to the left; assignment, the ternary and unary operators have
  rules of their own. An assignment's target is read as an expression first and judged
  when its equals sign is met.

  The first argument of each rule bounds the nesting of rules.
-/

import Lox.Grammar.State

namespace Lox.Grammar

inductive Level where
  | comma | assignment | or_ | and_ | ternary | equality | comparison | term | factor | unary | call
  deriving DecidableEq, Repr

namespace Level

/-- The level of the operands. -/
def tighter : Level → Level
  | comma => assignment
  | assignment => or_
  | or_ => and_
  | and_ => ternary
  | ternary => equality
  | equality => comparison
  | comparison => term
  | term => factor
  | factor => unary
  | unary => call
  | call => call

/-- The operators that join operands of a chain. -/
def operators : Level → List Terminal
  | comma => [.symbol .comma]
  | or_ => [.keyword .or_]
  | and_ => [.keyword .and_]
  | equality => [.symbol .bangEqual, .symbol .equalEqual]
  | comparison => [.symbol .greater, .symbol .greaterEqual, .symbol .less, .symbol .lessEqual]
  | term => [.symbol .minus, .symbol .plus]
  | factor => [.symbol .slash, .symbol .star]
  | assignment | ternary | unary | call => []

def join (level : Level) (left : Expr) (op : Lexeme) (right : Expr) : Expr :=
  match level with
  | or_ | and_ => .logical left op right
  | _ => .binary left op right

end Level

def unaryOperators : List Terminal := [.symbol .bang, .symbol .minus]

/-- The assignment that a target and a value make, if the target can be assigned to. -/
def assignment (target : Expr) (equals : Token) (value : Expr) : Parse Expr := do
  match target with
  | .ref old => do return .assign ⟨old.name, ← newSlot⟩ value
  | .get object name => return .set object name value
  | _ =>
    reportAt equals .invalidTarget
    return target

mutual

def expression : Nat → Level → Parse Expr
  | 0, _ => throw .outOfFuel
  | n + 1, .assignment => do
    let target ← expression n .or_
    match ← acceptSymbol .equal with
    | none => return target
    | some equals =>
      let value ← expression n .assignment
      assignment target equals value
  | n + 1, .ternary => do
    let cond ← expression n .equality
    match ← acceptSymbol .question with
    | none => return cond
    | some _ =>
      let yes ← expression n .assignment
      let _ ← expect .colon .afterThenValue
      let no ← expression n .assignment
      return .ternary cond yes no
  | n + 1, .unary => do
    match ← acceptAny unaryOperators with
    | none => expression n .call
    | some op => return .unary op.lexeme (← expression n .unary)
  | n + 1, .call => do
    let callee ← primary n
    suffixes n callee
  | n + 1, level => do
    let left ← expression n level.tighter
    chain n level left

/-- The operators and operands that follow the left operand of a chain. -/
def chain : Nat → Level → Expr → Parse Expr
  | 0, _, _ => throw .outOfFuel
  | n + 1, level, left => do
    match ← acceptAny level.operators with
    | none => return left
    | some op =>
      let right ← expression n level.tighter
      chain n level (level.join left op.lexeme right)

/-- The argument lists and property names that follow an expression. -/
def suffixes : Nat → Expr → Parse Expr
  | 0, _ => throw .outOfFuel
  | n + 1, e => do
    match ← acceptAny [.symbol .leftParen, .symbol .dot] with
    | none => return e
    | some ⟨.symbol .dot, _⟩ =>
      let name ← expectName .property
      suffixes n (.get e name)
    | some _ =>
      let args ← arguments n
      let paren ← expect .rightParen .afterArguments
      suffixes n (.call e paren.lexeme args)

def arguments : Nat → Parse (List Expr)
  | 0 => throw .outOfFuel
  | n + 1 => do
    if ← isNext (.symbol .rightParen) then return []
    else
      let first ← expression n .assignment
      return first :: (← moreArguments n 1)

/-- The arguments that follow the first `count`. -/
def moreArguments : Nat → Nat → Parse (List Expr)
  | 0, _ => throw .outOfFuel
  | n + 1, count => do
    match ← acceptSymbol .comma with
    | none => return []
    | some _ =>
      if mostArguments ≤ count then report .tooManyArguments
      let next ← expression n .assignment
      return next :: (← moreArguments n (count + 1))

def primary : Nat → Parse Expr
  | 0 => throw .outOfFuel
  | n + 1 => do
    match ← peek with
    | none => raise .noExpression
    | some t =>
      match t.terminal with
      | .keyword .false_ => skip; return .literal (.bool false)
      | .keyword .true_ => skip; return .literal (.bool true)
      | .keyword .nil => skip; return .literal .nil
      | .number literal => skip; return .literal (.number (Number.read literal))
      | .string text => skip; return .literal (.string text)
      | .keyword .this => skip; return .this ⟨t.lexeme, ← newSlot⟩
      | .keyword .super =>
        skip
        let _ ← expect .dot .afterSuper
        let method ← expectName .superMethod
        return .super ⟨t.lexeme, ← newSlot⟩ method
      | .ident _ => skip; return .ref ⟨t.lexeme, ← newSlot⟩
      | .symbol .leftParen =>
        skip
        let inner ← expression n .comma
        let _ ← expect .rightParen .afterExpression
        return .group inner
      | _ => raise .noExpression

end

end Lox.Grammar
