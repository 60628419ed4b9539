/-
  Lox.Tree — syntax trees: expressions, statements, and the routines that functions and
  methods are.

  A name in a tree keeps its text and its line (`Lexeme`), for errors point at it. The
  nodes that are bound to a declaration, which are variables, assignment targets, `this`
  and `super`, are references: each has a slot of its own, and the distance to its
  declaration is looked up by slot. Slots and lines are integers: reading a text gives
  only natural lines, a tree made elsewhere may hold any.
-/

import Lox.Token

namespace Lox

/-- A piece of program text and the line it stands on. -/
structure Lexeme where
  text : String
  line : Int
  deriving DecidableEq, Repr

def Token.lexeme (t : Token) : Lexeme := ⟨t.text, t.line⟩

/-- A use of a name, numbered by its slot. -/
structure Reference where
  name : Lexeme
  slot : Int
  deriving DecidableEq, Repr

inductive Literal where
  | nil
  | bool (value : Bool)
  | number (value : Float)
  | string (text : String)
  deriving Repr

inductive Expr where
  | literal (value : Literal)
  | group (inner : Expr)
  | unary (op : Lexeme) (operand : Expr)
  | binary (left : Expr) (op : Lexeme) (right : Expr)
  | logical (left : Expr) (op : Lexeme) (right : Expr)
  | ternary (cond yes no : Expr)
  | ref (target : Reference)
  | assign (target : Reference) (value : Expr)
  /-- Errors of the call are reported at its closing parenthesis. -/
  | call (callee : Expr) (paren : Lexeme) (args : List Expr)
  | get (object : Expr) (name : Lexeme)
  | set (object : Expr) (name : Lexeme) (value : Expr)
  | this (keyword : Reference)
  | super (keyword : Reference) (method : Lexeme)
  deriving Repr

mutual

inductive Stmt where
  | expr (e : Expr)
  | print_ (e : Expr)
  | var (name : Lexeme) (init : Option Expr)
  | block (body : List Stmt)
  | cond (test : Expr) (yes : Stmt) (no : Option Stmt)
  /-- The step, which a `for` loop has, follows every round that does not leave the loop. -/
  | loop (test : Expr) (body : Stmt) (step : Option Expr)
  | break_ (keyword : Lexeme)
  | continue_ (keyword : Lexeme)
  | fun_ (routine : Routine)
  | return_ (keyword : Lexeme) (value : Option Expr)
  | class_ (name : Lexeme) (superclass : Option Reference) (methods : List Routine)

/-- A function or a method as it is declared. -/
structure Routine where
  name : Lexeme
  params : List Lexeme
  body : List Stmt

end

instance : Inhabited Expr := ⟨.literal .nil⟩
instance : Inhabited Stmt := ⟨.block []⟩
instance : Inhabited Routine := ⟨⟨⟨"", 0⟩, [], []⟩⟩

/-! ## Names with a meaning of their own -/

/-- The method that runs when a class is called. -/
def initName : String := "init"

def thisName : String := Keyword.this.text

def superName : String := Keyword.super.text

def Routine.isInit (r : Routine) : Bool := r.name.text = initName

end Lox
