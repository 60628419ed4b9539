/-
  Lox.Proofs.Tree.Shift — the same tree elsewhere: its names on other lines, its
  references with other slots.

  A `Shift` says where a line of the text goes and by how much slots are moved. It acts
  on tokens, trees and diagnostics, and changes nothing but lines and slots. Where only
  slots are shifted, names and tokens stay as they are (`lexeme_bySlots`, `tokens_bySlots`).
-/

import Lox.Proofs.Scope.Shape

namespace Lox

structure Shift where
  /-- Where a line of the text goes. -/
  line : Nat → Nat
  /-- What is added to every slot. -/
  slots : Int

namespace Shift

/-- No line moves. -/
def bySlots (slots : Int) : Shift := ⟨id, slots⟩

/-- No slot moves. -/
def byLines (line : Nat → Nat) : Shift := ⟨line, 0⟩

variable (g : Shift)

/-- A line that no text has stays where it is. -/
def lineOf : Int → Int
  | .ofNat n => g.line n
  | .negSucc n => .negSucc n

def lexeme (x : Lexeme) : Lexeme := ⟨x.text, g.lineOf x.line⟩

def reference (r : Reference) : Reference := ⟨g.lexeme r.name, r.slot + g.slots⟩

def token (t : Token) : Token := ⟨t.terminal, g.line t.line⟩

def tokens (ts : Tokens) : Tokens := ⟨ts.items.map g.token, g.line ts.endLine⟩

def diagnostic (d : Diagnostic) : Diagnostic := { d with line := g.lineOf d.line }

/-! ## Trees -/

mutual

def expr : Expr → Expr
  | .literal value => .literal value
  | .group inner => .group (expr inner)
  | .unary op operand => .unary (g.lexeme op) (expr operand)
  | .binary left op right => .binary (expr left) (g.lexeme op) (expr right)
  | .logical left op right => .logical (expr left) (g.lexeme op) (expr right)
  | .ternary cond yes no => .ternary (expr cond) (expr yes) (expr no)
  | .ref target => .ref (g.reference target)
  | .assign target value => .assign (g.reference target) (expr value)
  | .call callee paren args => .call (expr callee) (g.lexeme paren) (exprs args)
  | .get object name => .get (expr object) (g.lexeme name)
  | .set object name value => .set (expr object) (g.lexeme name) (expr value)
  | .this keyword => .this (g.reference keyword)
  | .super keyword method => .super (g.reference keyword) (g.lexeme method)

def exprs : List Expr → List Expr
  | [] => []
  | e :: rest => expr e :: exprs rest

end

def exprOpt (e : Option Expr) : Option Expr := e.map g.expr

mutual

def stmt : Stmt → Stmt
  | .expr e => .expr (g.expr e)
  | .print_ e => .print_ (g.expr e)
  | .var name init => .var (g.lexeme name) (g.exprOpt init)
  | .block body => .block (stmts body)
  | .cond test yes no => .cond (g.expr test) (stmt yes) (stmtOpt no)
  | .loop test body step => .loop (g.expr test) (stmt body) (g.exprOpt step)
  | .break_ keyword => .break_ (g.lexeme keyword)
  | .continue_ keyword => .continue_ (g.lexeme keyword)
  | .fun_ r => .fun_ (routine r)
  | .return_ keyword value => .return_ (g.lexeme keyword) (g.exprOpt value)
  | .class_ name superclass methods => .class_ (g.lexeme name) (superclass.map g.reference) (routines methods)

def stmts : List Stmt → List Stmt
  | [] => []
  | s :: rest => stmt s :: stmts rest

def stmtOpt : Option Stmt → Option Stmt
  | none => none
  | some s => some (stmt s)

def routine : Routine → Routine
  | ⟨name, params, body⟩ => ⟨g.lexeme name, params.map g.lexeme, stmts body⟩

def routines : List Routine → List Routine
  | [] => []
  | r :: rest => routine r :: routines rest

end

theorem isInit_routine (r : Routine) : (g.routine r).isInit = r.isInit := by
  obtain ⟨name, params, body⟩ := r
  rfl

/-! ## Where no line moves -/

theorem lexeme_bySlots (c : Int) (x : Lexeme) : (bySlots c).lexeme x = x := by
  obtain ⟨text, line⟩ := x
  cases line <;> rfl

theorem tokens_bySlots (c : Int) (ts : Tokens) : (bySlots c).tokens ts = ts := by
  have hitems : ts.items.map (bySlots c).token = ts.items := List.map_id' ts.items
  unfold tokens
  rw [hitems]
  rfl

end Shift

end Lox
