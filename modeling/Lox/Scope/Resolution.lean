/-
  Lox.Scope.Resolution — the walk over a program that finds the distance of every local
  reference and the errors in declarations, `return`, `this` and `super`.

  A scope is opened where running the program makes an environment: for a block, a call
  (parameters and body together), a subclass (`super`) and a bound method (`this`). The
  object of a property assignment is walked after the value.

  As in reading, the walk is given all the room that it needs, however deep the program is
  nested.
-/

import Lox.Scope

namespace Lox

namespace Resolver

/-! ## Expressions -/

def this (r : Resolver) (keyword : Reference) : Resolver :=
  match r.class_ with
  | .none => r.report keyword.name .thisOutsideClass
  | _ => r.read keyword

def super (r : Resolver) (keyword : Reference) : Resolver :=
  match r.class_ with
  | .none => r.report keyword.name .superOutsideClass
  | .class_ => r.report keyword.name .superWithoutSuperclass
  | .subclass => r.read keyword

mutual

def expr : Expr → Resolver → Resolver
  | .literal _, r => r
  | .group inner, r => expr inner r
  | .unary _ operand, r => expr operand r
  | .binary left _ right, r => expr right (expr left r)
  | .logical left _ right, r => expr right (expr left r)
  | .ternary cond yes no, r => expr no (expr yes (expr cond r))
  | .ref target, r => r.readVariable target
  | .assign target value, r => (expr value r).write target
  | .call callee _ args, r => exprs args (expr callee r)
  | .get object _, r => expr object r
  | .set object _ value, r => expr object (expr value r)
  | .this keyword, r => r.this keyword
  | .super keyword _, r => r.super keyword

def exprs : List Expr → Resolver → Resolver
  | [], r => r
  | e :: rest, r => exprs rest (expr e r)

end

def exprOpt : Option Expr → Resolver → Resolver
  | none, r => r
  | some e, r => expr e r

/-! ## Statements -/

def param (r : Resolver) (name : Lexeme) : Resolver := (r.declare name false).define name

/-- A `return` at its keyword, before its value. -/
def checkReturn (r : Resolver) (keyword : Lexeme) (hasValue : Bool) : Resolver :=
  match r.routine with
  | .none => r.report keyword .topLevelReturn
  | .initializer => if hasValue then r.report keyword .initializerValue else r
  | _ => r

def superclassClause (r : Resolver) (name : Lexeme) (parent : Reference) : Resolver :=
  let r := if parent.name.text = name.text then r.report parent.name .ownSuperclass else r
  ({ r with class_ := .subclass }.readVariable parent).enter (implicitScope superName)

/-- What stands before the methods of a class. -/
def openClass (r : Resolver) (name : Lexeme) (superclass : Option Reference) : Resolver :=
  let r := ({ r with class_ := .class_ }.declare name true).define name
  let r := match superclass with
    | none => r
    | some parent => r.superclassClause name parent
  r.enter (implicitScope thisName)

/-- What stands behind the methods of a class. -/
def closeClass (r : Resolver) (outer : ClassContext) (superclass : Option Reference) : Resolver :=
  let r := match superclass with
    | none => r.leave
    | some _ => r.leave.leave
  { r with class_ := outer }

mutual

def stmt : Stmt → Resolver → Resolver
  | .expr e, r => expr e r
  | .print_ e, r => expr e r
  | .var name init, r => (exprOpt init (r.declare name true)).define name
  | .block body, r => (stmts body (r.enter ∅)).leave
  | .cond test yes no, r => stmtOpt no (stmt yes (expr test r))
  | .loop test body step, r => exprOpt step (stmt body (expr test r))
  | .break_ _, r => r
  | .continue_ _, r => r
  | .fun_ routine, r => routineBody .function routine ((r.declare routine.name true).define routine.name)
  | .return_ keyword value, r => exprOpt value (r.checkReturn keyword value.isSome)
  | .class_ name superclass methods, r =>
    (methodBodies methods (r.openClass name superclass)).closeClass r.class_ superclass

def stmts : List Stmt → Resolver → Resolver
  | [], r => r
  | s :: rest, r => stmts rest (stmt s r)

def stmtOpt : Option Stmt → Resolver → Resolver
  | none, r => r
  | some s, r => stmt s r

def routineBody : RoutineContext → Routine → Resolver → Resolver
  | context, ⟨_, params, body⟩, r =>
    { (stmts body (params.foldl param ({ r with routine := context }.enter ∅))).leave with
      routine := r.routine }

def methodBodies : List Routine → Resolver → Resolver
  | [], r => r
  | m :: rest, r =>
    methodBodies rest (routineBody (if m.isInit then .initializer else .method) m r)

end

end Resolver

structure Resolution where
  distances : Distances
  errors : List Diagnostic

def resolve (program : List Stmt) : Resolution :=
  let r := Resolver.stmts program .start
  ⟨r.distances, r.errors.toList⟩

end Lox
