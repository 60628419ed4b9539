/-
  Lox.Diagnostic — errors found before a program runs: which rule is broken, on which
  line, and at which token.

  A diagnostic names its cause; the wording is in `message` alone. Lexical causes have
  no place beside their line, the others stand at a token or at the end of the text.
-/

import Lox.Token

namespace Lox

/-! ## Causes -/

inductive LexicalFault where
  | unexpectedCharacter
  | unterminatedString
  | unterminatedComment
  deriving DecidableEq, Repr

inductive RoutineKind where
  | function
  | method
  deriving DecidableEq, Repr

/-- The names that the grammar asks for. -/
inductive NameRole where
  | class_
  | superclass
  | routine (kind : RoutineKind)
  | parameter
  | variable_
  | property
  | superMethod
  deriving DecidableEq, Repr

/-- The places at which the grammar asks for a symbol. -/
inductive SymbolRole where
  | beforeClassBody
  | afterClassBody
  | afterName (kind : RoutineKind)
  | afterParameters
  | beforeBody (kind : RoutineKind)
  | afterDeclaration
  | afterBlock
  | afterPrinted
  | afterExpression
  | afterIf
  | afterIfCondition
  | afterWhile
  | afterWhileCondition
  | afterFor
  | afterLoopCondition
  | afterForClauses
  | afterReturned
  | afterBreak
  | afterContinue
  | afterThenValue
  | afterArguments
  | afterSuper
  deriving DecidableEq, Repr

inductive SyntaxFault where
  | noName (role : NameRole)
  | noSymbol (expected : Symbol) (role : SymbolRole)
  | noExpression
  | invalidTarget
  | tooManyParameters
  | tooManyArguments
  | strayBreak
  | strayContinue
  deriving DecidableEq, Repr

inductive BindingFault where
  | unused (name : String)
  | duplicate
  | ownInitializer
  | ownSuperclass
  | topLevelReturn
  | initializerValue
  | thisOutsideClass
  | superOutsideClass
  | superWithoutSuperclass
  deriving DecidableEq, Repr

inductive Cause where
  | lexical (fault : LexicalFault)
  | grammar (fault : SyntaxFault)
  | binding (fault : BindingFault)
  deriving DecidableEq, Repr

inductive Place where
  | line
  | atEnd
  | atToken (text : String)
  deriving DecidableEq, Repr

structure Diagnostic where
  line : Int
  place : Place
  cause : Cause
  deriving DecidableEq, Repr

/-! ## Wording -/

def LexicalFault.message : LexicalFault → String
  | unexpectedCharacter => "Unexpected character."
  | unterminatedString => "Unterminated string."
  | unterminatedComment => "Unterminated block comment."

def RoutineKind.text : RoutineKind → String
  | function => "function"
  | method => "method"

def NameRole.text : NameRole → String
  | class_ => "class name"
  | superclass => "superclass name"
  | routine kind => kind.text ++ " name"
  | parameter => "parameter name"
  | variable_ => "variable name"
  | property => "property name after '.'"
  | superMethod => "superclass method name"

def SymbolRole.text : SymbolRole → String
  | beforeClassBody => "before class body"
  | afterClassBody => "after class body"
  | afterName kind => "after " ++ kind.text ++ " name"
  | afterParameters => "after parameters"
  | beforeBody kind => "before " ++ kind.text ++ " body"
  | afterDeclaration => "after variable declaration"
  | afterBlock => "after block"
  | afterPrinted => "after value"
  | afterExpression => "after expression"
  | afterIf => "after 'if'"
  | afterIfCondition => "after if condition"
  | afterWhile => "after 'while'"
  | afterWhileCondition => "after condition"
  | afterFor => "after 'for'"
  | afterLoopCondition => "after loop condition"
  | afterForClauses => "after for clauses"
  | afterReturned => "after return value"
  | afterBreak => "after 'break'"
  | afterContinue => "after 'continue'"
  | afterThenValue => "after then branch of ternary expression"
  | afterArguments => "after arguments"
  | afterSuper => "after 'super'"

/-- A parameter list and an argument list have at most so many entries. -/
def mostArguments : Nat := 255

def SyntaxFault.message : SyntaxFault → String
  | noName role => "Expect " ++ role.text ++ "."
  | noSymbol expected role => "Expect '" ++ expected.text ++ "' " ++ role.text ++ "."
  | noExpression => "Expect expression."
  | invalidTarget => "Invalid assignment target."
  | tooManyParameters => "Can't have more than " ++ mostArguments.repr ++ " parameters."
  | tooManyArguments => "Can't have more than " ++ mostArguments.repr ++ " arguments."
  | strayBreak => "Can't use 'break' outside of a loop."
  | strayContinue => "Can't use 'continue' outside of a loop."

def BindingFault.message : BindingFault → String
  | unused name => "Unused variable '" ++ name ++ "'."
  | duplicate => "Already a variable with this name in this scope."
  | ownInitializer => "Can't read local variable in its own initializer."
  | ownSuperclass => "A class can't inherit from itself."
  | topLevelReturn => "Can't return from top-level code."
  | initializerValue => "Can't return a value from an initializer."
  | thisOutsideClass => "Can't use 'this' outside of a class."
  | superOutsideClass => "Can't use 'super' outside of a class."
  | superWithoutSuperclass => "Can't use 'super' in a class with no superclass."

def Cause.message : Cause → String
  | lexical fault => fault.message
  | grammar fault => fault.message
  | binding fault => fault.message

def Place.text : Place → String
  | line => ""
  | atEnd => " at end"
  | atToken text => " at '" ++ text ++ "'"

namespace Diagnostic

def message (d : Diagnostic) : String := d.cause.message

def text (d : Diagnostic) : String :=
  "[line " ++ d.line.repr ++ "] Error" ++ d.place.text ++ ": " ++ d.message

/-- By line; errors on one line stay in the order in which they were found. -/
def sorted (ds : List Diagnostic) : List Diagnostic := ds.mergeSort fun a b => a.line ≤ b.line

end Diagnostic

end Lox
