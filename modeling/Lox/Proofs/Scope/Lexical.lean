/-
  Lox.Proofs.Scope.Lexical — lexical scoping, said of the text alone: which scopes are
  open at a part of a program, what opened each of them, and which names have been
  declared in them in front of the part.

  `Within p site r os`: the walk over the program `p` comes to `site` with the resolver
  `r`, and the scopes open there are `os`, the innermost first. The scopes are counted by
  the rules of the language; that those of the resolver are the same, and that its table
  gives every use of a name the innermost scope that declares it, is what
  `Lox.Proofs.Scope.Resolved` proves.
-/

import Lox.Proofs.Scope.Walk

namespace Lox

/-! ## Open scopes -/

/-- What opens a scope. -/
inductive Frame where
  | block (body : List Stmt)
  /-- Parameters and body together. -/
  | routine (r : Routine)
  /-- The scope of `this` around the methods of a class. -/
  | receiver (superclass : Option Reference) (methods : List Routine)
  /-- The scope of `super` around that of `this`. -/
  | superclass (parent : Reference) (methods : List Routine)

/-- A scope that is open, with its names. -/
structure Opened where
  frame : Frame
  /-- The names declared so far; a declaration may not be complete. -/
  names : Names

namespace Opened

def Declares (o : Opened) (x : String) : Prop := ∃ complete, (x, complete) ∈ o.names

/-- Completes a declaration in the innermost scope. -/
def declare (xs : List String) : List Opened → List Opened
  | [] => []
  | o :: os => { o with names := o.names ++ xs.map fun x => (x, true) } :: os

/-- Begins a declaration in the innermost scope. -/
def begin_ (x : String) : List Opened → List Opened
  | [] => []
  | o :: os => { o with names := o.names ++ [(x, false)] } :: os

def ofRoutine (r : Routine) : Opened := ⟨.routine r, r.params.map fun p => (p.text, true)⟩

/-- The scopes that a class opens around its methods. -/
def ofClass (superclass : Option Reference) (methods : List Routine) (os : List Opened) : List Opened :=
  ⟨.receiver superclass methods, [(thisName, true)]⟩ ::
    match superclass with
    | none => os
    | some parent => ⟨.superclass parent methods, [(superName, true)]⟩ :: os

end Opened

def namesOf (os : List Opened) : List Names := os.map (·.names)

/-! ## Parts of a program -/

/-- A part of a program that is walked. -/
inductive Site where
  | stmts (ss : List Stmt)
  | stmt (s : Stmt)
  | exprs (es : List Expr)
  | expr (e : Expr)
  /-- The superclass clause of a class. -/
  | parent (name : Lexeme) (r : Reference)
  | routine (context : RoutineContext) (r : Routine)
  | methods (ms : List Routine)

/-- The state in which the name behind `<` is walked. -/
def Resolver.beforeParent (r : Resolver) (name : Lexeme) (parent : Reference) : Resolver :=
  { (if parent.name.text = name.text then r.report parent.name .ownSuperclass else r) with class_ := .subclass }

/-- The state in which a class is walked, its name declared. -/
def Resolver.named (r : Resolver) (name : Lexeme) : Resolver :=
  ({ r with class_ := .class_ }.declare name true).define name

def methodContext (m : Routine) : RoutineContext := if m.isInit then .initializer else .method

namespace Site

def walk : Site → Resolver → Resolver
  | stmts ss, r => Resolver.stmts ss r
  | stmt s, r => Resolver.stmt s r
  | exprs es, r => Resolver.exprs es r
  | expr e, r => Resolver.expr e r
  | parent name target, r => (r.beforeParent name target).readVariable target
  | routine context f, r => Resolver.routineBody context f r
  | methods ms, r => Resolver.methodBodies ms r

def slots : Site → List Int
  | stmts ss => Stmt.slotsAll ss
  | stmt s => s.slots
  | exprs es => Expr.slotsAll es
  | expr e => e.slots
  | parent _ r => [r.slot]
  | routine _ r => Stmt.routineSlots r
  | methods ms => Stmt.methodSlots ms

def Tidy : Site → Prop
  | stmts ss => Stmt.TidyAll ss
  | stmt s => s.Tidy
  | exprs es => Expr.TidyAll es
  | expr e => e.Tidy
  | parent _ r => r.name.IsPlain
  | routine _ r => Stmt.RoutineTidy r
  | methods ms => Stmt.MethodsTidy ms

end Site

open Resolver Opened

/-- The resolver comes to the part in this state, with these scopes open. -/
inductive Within (p : List Stmt) : Site → Resolver → List Opened → Prop
  | root : Within p (.stmts p) Resolver.start []
  | first {s : Stmt} {rest : List Stmt} {r : Resolver} {os : List Opened} :
      Within p (.stmts (s :: rest)) r os → Within p (.stmt s) r os
  | next {s : Stmt} {rest : List Stmt} {r : Resolver} {os : List Opened} :
      Within p (.stmts (s :: rest)) r os → Within p (.stmts rest) (stmt s r) (declare (declared s) os)
  | effect {e : Expr} {r : Resolver} {os : List Opened} : Within p (.stmt (.expr e)) r os → Within p (.expr e) r os
  | printed {e : Expr} {r : Resolver} {os : List Opened} : Within p (.stmt (.print_ e)) r os → Within p (.expr e) r os
  /-- A variable is declared around its initializer. -/
  | init {name : Lexeme} {e : Expr} {r : Resolver} {os : List Opened} : Within p (.stmt (.var name (some e))) r os →
      Within p (.expr e) (r.declare name true) (begin_ name.text os)
  | block {body : List Stmt} {r : Resolver} {os : List Opened} : Within p (.stmt (.block body)) r os →
      Within p (.stmts body) (r.enter ∅) (⟨.block body, []⟩ :: os)
  | condTest {e : Expr} {yes : Stmt} {no : Option Stmt} {r : Resolver} {os : List Opened} :
      Within p (.stmt (.cond e yes no)) r os → Within p (.expr e) r os
  | condYes {e : Expr} {yes : Stmt} {no : Option Stmt} {r : Resolver} {os : List Opened} :
      Within p (.stmt (.cond e yes no)) r os → Within p (.stmt yes) (expr e r) os
  | condNo {e : Expr} {yes no : Stmt} {r : Resolver} {os : List Opened} :
      Within p (.stmt (.cond e yes (some no))) r os → Within p (.stmt no) (stmt yes (expr e r)) os
  | loopTest {e : Expr} {body : Stmt} {step : Option Expr} {r : Resolver} {os : List Opened} :
      Within p (.stmt (.loop e body step)) r os → Within p (.expr e) r os
  | loopBody {e : Expr} {body : Stmt} {step : Option Expr} {r : Resolver} {os : List Opened} :
      Within p (.stmt (.loop e body step)) r os → Within p (.stmt body) (expr e r) os
  | loopStep {e step : Expr} {body : Stmt} {r : Resolver} {os : List Opened} :
      Within p (.stmt (.loop e body (some step))) r os → Within p (.expr step) (stmt body (expr e r)) os
  /-- A function may use its own name. -/
  | fun_ {f : Routine} {r : Resolver} {os : List Opened} : Within p (.stmt (.fun_ f)) r os →
      Within p (.routine .function f) ((r.declare f.name true).define f.name) (declare [f.name.text] os)
  | returned {keyword : Lexeme} {e : Expr} {r : Resolver} {os : List Opened} :
      Within p (.stmt (.return_ keyword (some e))) r os → Within p (.expr e) (r.checkReturn keyword true) os
  | parent {name : Lexeme} {target : Reference} {ms : List Routine} {r : Resolver} {os : List Opened} :
      Within p (.stmt (.class_ name (some target) ms)) r os →
      Within p (.parent name target) (r.named name) (begin_ name.text os)
  | methods {name : Lexeme} {superclass : Option Reference} {ms : List Routine} {r : Resolver} {os : List Opened} :
      Within p (.stmt (.class_ name superclass ms)) r os →
      Within p (.methods ms) (r.openClass name superclass) (ofClass superclass ms (declare [name.text] os))
  | method {m : Routine} {rest : List Routine} {r : Resolver} {os : List Opened} :
      Within p (.methods (m :: rest)) r os → Within p (.routine (methodContext m) m) r os
  | nextMethod {m : Routine} {rest : List Routine} {r : Resolver} {os : List Opened} :
      Within p (.methods (m :: rest)) r os →
      Within p (.methods rest) (routineBody (methodContext m) m r) os
  | body {context : RoutineContext} {f : Routine} {r : Resolver} {os : List Opened} :
      Within p (.routine context f) r os →
      Within p (.stmts f.body) (f.params.foldl param ({ r with routine := context }.enter ∅)) (ofRoutine f :: os)
  | group {e : Expr} {r : Resolver} {os : List Opened} : Within p (.expr (.group e)) r os → Within p (.expr e) r os
  | operand {op : Lexeme} {e : Expr} {r : Resolver} {os : List Opened} :
      Within p (.expr (.unary op e)) r os → Within p (.expr e) r os
  | left {op : Lexeme} {a b : Expr} {r : Resolver} {os : List Opened} :
      Within p (.expr (.binary a op b)) r os → Within p (.expr a) r os
  | right {op : Lexeme} {a b : Expr} {r : Resolver} {os : List Opened} :
      Within p (.expr (.binary a op b)) r os → Within p (.expr b) (expr a r) os
  | logicalLeft {op : Lexeme} {a b : Expr} {r : Resolver} {os : List Opened} :
      Within p (.expr (.logical a op b)) r os → Within p (.expr a) r os
  | logicalRight {op : Lexeme} {a b : Expr} {r : Resolver} {os : List Opened} :
      Within p (.expr (.logical a op b)) r os → Within p (.expr b) (expr a r) os
  | ternaryTest {a b c : Expr} {r : Resolver} {os : List Opened} :
      Within p (.expr (.ternary a b c)) r os → Within p (.expr a) r os
  | ternaryYes {a b c : Expr} {r : Resolver} {os : List Opened} :
      Within p (.expr (.ternary a b c)) r os → Within p (.expr b) (expr a r) os
  | ternaryNo {a b c : Expr} {r : Resolver} {os : List Opened} :
      Within p (.expr (.ternary a b c)) r os → Within p (.expr c) (expr b (expr a r)) os
  | value {target : Reference} {e : Expr} {r : Resolver} {os : List Opened} :
      Within p (.expr (.assign target e)) r os → Within p (.expr e) r os
  | callee {f : Expr} {paren : Lexeme} {es : List Expr} {r : Resolver} {os : List Opened} :
      Within p (.expr (.call f paren es)) r os → Within p (.expr f) r os
  | arguments {f : Expr} {paren : Lexeme} {es : List Expr} {r : Resolver} {os : List Opened} :
      Within p (.expr (.call f paren es)) r os → Within p (.exprs es) (expr f r) os
  | argument {e : Expr} {es : List Expr} {r : Resolver} {os : List Opened} :
      Within p (.exprs (e :: es)) r os → Within p (.expr e) r os
  | nextArguments {e : Expr} {es : List Expr} {r : Resolver} {os : List Opened} :
      Within p (.exprs (e :: es)) r os → Within p (.exprs es) (expr e r) os
  | object {e : Expr} {name : Lexeme} {r : Resolver} {os : List Opened} :
      Within p (.expr (.get e name)) r os → Within p (.expr e) r os
  /-- The object of a property assignment is walked after the value. -/
  | setObject {o v : Expr} {name : Lexeme} {r : Resolver} {os : List Opened} :
      Within p (.expr (.set o name v)) r os → Within p (.expr o) (expr v r) os
  | setValue {o v : Expr} {name : Lexeme} {r : Resolver} {os : List Opened} :
      Within p (.expr (.set o name v)) r os → Within p (.expr v) r os

end Lox
