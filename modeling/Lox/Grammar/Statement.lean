/-
  Lox.Grammar.Statement — reading statements, declarations and programs.

  A `for` loop is read into a loop with a step, in a block with its initializer if it
  has one; without a condition it runs until it is left. A `break` or `continue` outside
  of a loop is reported and read on. Blocks and class bodies end at their closing brace;
  one that is still open at the end of the text is an error there.
-/

import Lox.Grammar.Expression

namespace Lox.Grammar

def ifNext {α : Type} (terminal : Terminal) (yes no : Parse α) : Parse α := do
  if ← isNext terminal then yes else no

/-- An expression, unless the terminal stands in its place. -/
def optionalUnless (n : Nat) (terminal : Terminal) : Parse (Option Expr) :=
  ifNext terminal (return none) (do return some (← expression n .comma))

/-! ## Simple statements, after their keyword -/

def variable_ (n : Nat) : Parse Stmt := do
  let name ← expectName .variable_
  let init ←
    match ← acceptSymbol .equal with
    | some _ => do pure (some (← expression n .comma))
    | none => pure none
  let _ ← expect .semicolon .afterDeclaration
  return .var name init

def printed (n : Nat) : Parse Stmt := do
  let value ← expression n .comma
  let _ ← expect .semicolon .afterPrinted
  return .print_ value

def expressionStatement (n : Nat) : Parse Stmt := do
  let value ← expression n .comma
  let _ ← expect .semicolon .afterExpression
  return .expr value

def returned (n : Nat) (keyword : Token) : Parse Stmt := do
  let value ← optionalUnless n (.symbol .semicolon)
  let _ ← expect .semicolon .afterReturned
  return .return_ keyword.lexeme value

def broken (keyword : Token) : Parse Stmt := do
  checkLoop keyword .strayBreak
  let _ ← expect .semicolon .afterBreak
  return .break_ keyword.lexeme

def continued (keyword : Token) : Parse Stmt := do
  checkLoop keyword .strayContinue
  let _ ← expect .semicolon .afterContinue
  return .continue_ keyword.lexeme

/-! ## Parameters -/

/-- The parameters that follow the first `count`. -/
def moreParameters : Nat → Nat → Parse (List Lexeme)
  | 0, _ => throw .outOfFuel
  | n + 1, count => do
    match ← acceptSymbol .comma with
    | none => return []
    | some _ =>
      if mostArguments ≤ count then report .tooManyParameters
      let next ← expectName .parameter
      return next :: (← moreParameters n (count + 1))

def parameters (n : Nat) : Parse (List Lexeme) :=
  ifNext (.symbol .rightParen) (return []) do
    let first ← expectName .parameter
    return first :: (← moreParameters n 1)

/-! ## Superclasses -/

def superclass : Parse (Option Reference) := do
  match ← acceptSymbol .less with
  | none => return none
  | some _ =>
    let name ← expectName .superclass
    return some ⟨name, ← newSlot⟩

/-! ## Loops -/

/-- The first clause of a `for` loop, its semicolon included. -/
def forInitializer (n : Nat) : Parse (Option Stmt) := do
  match ← acceptSymbol .semicolon with
  | some _ => return none
  | none =>
    match ← acceptKeyword .var with
    | some _ => return some (← variable_ n)
    | none => return some (← expressionStatement n)

def forLoop (init : Option Stmt) (test : Option Expr) (step : Option Expr) (body : Stmt) : Stmt :=
  let loop := Stmt.loop (test.getD (.literal (.bool true))) body step
  match init with
  | none => loop
  | some first => .block [first, loop]

/-! ## Statements and declarations -/

/-- The end of a list of declarations: a closing brace, or the end of the text. -/
def atClose : Parse Bool := do
  match ← peek with
  | some t => return t.terminal = .symbol .rightBrace
  | none => return true

/-- The terminals that tell what a statement is; all other statements are expressions. -/
def statementStarts : List Terminal :=
  [.keyword .print, .symbol .leftBrace, .keyword .if_, .keyword .while_, .keyword .for_,
   .keyword .return_, .keyword .break_, .keyword .continue_]

mutual

def declaration : Nat → Parse (Option Stmt)
  | 0 => throw .outOfFuel
  | n + 1 => recovering do
    match ← acceptAny [.keyword .class_, .keyword .fun_, .keyword .var] with
    | some ⟨.keyword .class_, _⟩ => class_ n
    | some ⟨.keyword .fun_, _⟩ => return .fun_ (← routine n .function)
    | some _ => variable_ n
    | none => statement n

/-- The declarations up to a closing brace or the end; one that is given up leaves nothing. -/
def declarations : Nat → Parse (List Stmt)
  | 0 => throw .outOfFuel
  | n + 1 => do
    if ← atClose then return []
    else
      match ← declaration n with
      | some stmt => return stmt :: (← declarations n)
      | none => declarations n

def block : Nat → Parse (List Stmt)
  | 0 => throw .outOfFuel
  | n + 1 => do
    let body ← declarations n
    let _ ← expect .rightBrace .afterBlock
    return body

def routine : Nat → RoutineKind → Parse Routine
  | 0, _ => throw .outOfFuel
  | n + 1, kind => do
    let name ← expectName (.routine kind)
    let _ ← expect .leftParen (.afterName kind)
    let params ← parameters n
    let _ ← expect .rightParen .afterParameters
    let _ ← expect .leftBrace (.beforeBody kind)
    let body ← inRoutine (block n)
    return ⟨name, params, body⟩

def class_ : Nat → Parse Stmt
  | 0 => throw .outOfFuel
  | n + 1 => do
    let name ← expectName .class_
    let parent ← superclass
    let _ ← expect .leftBrace .beforeClassBody
    let members ← methods n
    let _ ← expect .rightBrace .afterClassBody
    return .class_ name parent members

def methods : Nat → Parse (List Routine)
  | 0 => throw .outOfFuel
  | n + 1 => do
    if ← atClose then return []
    else
      let first ← routine n .method
      return first :: (← methods n)

def statement : Nat → Parse Stmt
  | 0 => throw .outOfFuel
  | n + 1 => do
    match ← acceptAny statementStarts with
    | none => expressionStatement n
    | some t =>
      match t.terminal with
      | .keyword .print => printed n
      | .keyword .if_ => conditional n
      | .keyword .while_ => while_ n
      | .keyword .for_ => for_ n
      | .keyword .return_ => returned n t
      | .keyword .break_ => broken t
      | .keyword .continue_ => continued t
      | _ => return .block (← block n)

def conditional : Nat → Parse Stmt
  | 0 => throw .outOfFuel
  | n + 1 => do
    let _ ← expect .leftParen .afterIf
    let test ← expression n .comma
    let _ ← expect .rightParen .afterIfCondition
    let yes ← statement n
    match ← acceptKeyword .else_ with
    | none => return .cond test yes none
    | some _ => return .cond test yes (some (← statement n))

def while_ : Nat → Parse Stmt
  | 0 => throw .outOfFuel
  | n + 1 => do
    let _ ← expect .leftParen .afterWhile
    let test ← expression n .comma
    let _ ← expect .rightParen .afterWhileCondition
    return .loop test (← inLoop (statement n)) none

def for_ : Nat → Parse Stmt
  | 0 => throw .outOfFuel
  | n + 1 => do
    let _ ← expect .leftParen .afterFor
    let init ← forInitializer n
    let test ← optionalUnless n (.symbol .semicolon)
    let _ ← expect .semicolon .afterLoopCondition
    let step ← optionalUnless n (.symbol .rightParen)
    let _ ← expect .rightParen .afterForClauses
    return forLoop init test step (← inLoop (statement n))

end

/-- The declarations up to the end of the text; one that is given up leaves nothing. -/
def program : Nat → Parse (List Stmt)
  | 0 => throw .outOfFuel
  | n + 1 => do
    match ← peek with
    | none => return []
    | some _ =>
      match ← declaration n with
      | some stmt => return stmt :: (← program n)
      | none => program n

end Lox.Grammar
