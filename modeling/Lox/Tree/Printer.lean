/-
  Lox.Tree.Printer — trees as text: every node is a parenthesised form, its head first.

  An operator is the head of its form, a statement's head is its keyword, an expression
  statement has `;` for a head. Numbers are printed in full (`Number.plain`), strings
  between double quotes as they are. Absent parts leave nothing behind.
-/

import Lox.Tree

namespace Lox

/-- A form with a head and parts, a space before each part. -/
def form (head : String) (parts : List String) : String :=
  "(" ++ " ".intercalate (head :: parts) ++ ")"

def Literal.print : Literal → String
  | nil => "nil"
  | bool true => "true"
  | bool false => "false"
  | number x => Number.plain x
  | string text => "\"" ++ text ++ "\""

namespace Expr

mutual

def print : Expr → String
  | literal value => value.print
  | group inner => form "group" [print inner]
  | unary op operand => form op.text [print operand]
  | binary left op right => form op.text [print left, print right]
  | logical left op right => form op.text [print left, print right]
  | ternary cond yes no => form "?:" [print cond, print yes, print no]
  | ref target => target.name.text
  | assign target value => form "=" [target.name.text, print value]
  | call callee _ args => form "call" (print callee :: printAll args)
  | get object name => form "." [print object, name.text]
  | set object name value => form "=" [form "." [print object, name.text], print value]
  | this _ => "this"
  | super _ method => form "." ["super", method.text]

def printAll : List Expr → List String
  | [] => []
  | e :: rest => print e :: printAll rest

end

def printOpt : Option Expr → List String
  | none => []
  | some e => [print e]

end Expr

def superclassParts : Option Reference → List String
  | none => []
  | some parent => ["<", parent.name.text]

def paramsText (params : List Lexeme) : String :=
  "(" ++ " ".intercalate (params.map Lexeme.text) ++ ")"

namespace Stmt

mutual

def print : Stmt → String
  | expr e => form ";" [e.print]
  | print_ e => form "print" [e.print]
  | var name init => form "var" (name.text :: Expr.printOpt init)
  | block body => form "block" (printAll body)
  | cond test yes no => form "if" (test.print :: print yes :: printOpt no)
  | loop test body step => form "while" (test.print :: print body :: Expr.printOpt step)
  | break_ _ => form "break" []
  | continue_ _ => form "continue" []
  | fun_ routine => printRoutine "fun" routine
  | return_ _ value => form "return" (Expr.printOpt value)
  | class_ name superclass methods =>
    form "class" (name.text :: superclassParts superclass ++ printMethods methods)

def printAll : List Stmt → List String
  | [] => []
  | s :: rest => print s :: printAll rest

def printOpt : Option Stmt → List String
  | none => []
  | some s => [print s]

def printRoutine (head : String) : Routine → String
  | ⟨name, params, body⟩ => form head (name.text :: paramsText params :: printAll body)

def printMethods : List Routine → List String
  | [] => []
  | m :: rest => printRoutine "method" m :: printMethods rest

end

end Stmt

/-- One line of text for every statement of a program. -/
def printProgram (program : List Stmt) : String :=
  String.join (program.map fun s => s.print ++ "\n")

end Lox
