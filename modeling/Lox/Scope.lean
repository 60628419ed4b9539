/-
  Lox.Scope — local scopes while a program is walked: which names are declared in each,
  whether their declaration is complete, and whether they have been read.

  Scopes are a list, the innermost first, so the position of the first scope with a name
  is the distance to its declaration (`hops?`). A name is declared once in a scope: a
  second declaration is an error and leaves the first one standing.
-/

import Lox.Bindings
import Lox.Diagnostic
import Lox.Distances
import Lox.Tree

namespace Lox

/-- A name declared in a local scope. `watched` is the declaration to report if nothing
reads the name; parameters, `this` and `super` are not watched. -/
structure Local where
  watched : Option Lexeme
  defined : Bool
  used : Bool
  deriving DecidableEq, Repr

abbrev Scope := Bindings Local

inductive RoutineContext where
  | none
  | function
  | initializer
  | method
  deriving DecidableEq, Repr

inductive ClassContext where
  | none
  | class_
  | subclass
  deriving DecidableEq, Repr

/-- The distance to the scope that a name is found in. -/
def hops? (name : String) : List Scope → Option Nat
  | [] => none
  | s :: rest => if s.contains name then some 0 else (hops? name rest).map (· + 1)

/-- Marks the innermost local of a name as read. -/
def touch (name : String) : List Scope → List Scope
  | [] => []
  | s :: rest =>
    if s.contains name then s.adjust name ({ · with used := true }) :: rest
    else s :: touch name rest

/-! ## The state of the walk -/

structure Resolver where
  scopes : List Scope
  routine : RoutineContext
  class_ : ClassContext
  distances : Distances
  errors : Array Diagnostic

namespace Resolver

def start : Resolver := ⟨[], .none, .none, ∅, #[]⟩

def report (r : Resolver) (name : Lexeme) (fault : BindingFault) : Resolver :=
  { r with errors := r.errors.push ⟨name.line, .atToken name.text, .binding fault⟩ }

def record (r : Resolver) (slot : Int) (hops : Nat) : Resolver :=
  { r with distances := r.distances.insert slot hops }

/-! ## Opening and closing -/

def enter (r : Resolver) (scope : Scope) : Resolver := { r with scopes := scope :: r.scopes }

def reportUnused (r : Resolver) (entry : String × Local) : Resolver :=
  match entry.2.watched, entry.2.used with
  | some declaration, false => r.report declaration (.unused entry.1)
  | _, _ => r

/-- Closes the innermost scope; watched names that were not read are reported in the
order of their declarations. -/
def leave (r : Resolver) : Resolver :=
  match r.scopes with
  | [] => r
  | s :: rest => s.entries.foldl reportUnused { r with scopes := rest }

/-- The scope of `this` or `super`. -/
def implicitScope (name : String) : Scope := .single name ⟨none, true, false⟩

/-! ## Declaring -/

/-- Global names are not declared. -/
def declare (r : Resolver) (name : Lexeme) (watched : Bool) : Resolver :=
  match r.scopes with
  | [] => r
  | s :: rest =>
    if s.contains name.text then r.report name .duplicate
    else
      let fresh : Local := ⟨if watched then some name else none, false, false⟩
      { r with scopes := s.set name.text fresh :: rest }

/-- Completes a declaration: from here on the name may be read. -/
def define (r : Resolver) (name : Lexeme) : Resolver :=
  match r.scopes with
  | [] => r
  | s :: rest => { r with scopes := s.adjust name.text ({ · with defined := true }) :: rest }

/-! ## Using -/

/-- A name found in no scope is a global one and gets no entry. -/
def write (r : Resolver) (target : Reference) : Resolver :=
  match hops? target.name.text r.scopes with
  | some d => r.record target.slot d
  | none => r

def read (r : Resolver) (target : Reference) : Resolver :=
  match hops? target.name.text r.scopes with
  | some d => { r.record target.slot d with scopes := touch target.name.text r.scopes }
  | none => r

/-- Declared in the innermost scope, and its initializer is not yet through. -/
def isPending (r : Resolver) (name : String) : Bool :=
  match r.scopes with
  | [] => false
  | s :: _ =>
    match s.get? name with
    | some entry => !entry.defined
    | none => false

/-- A read that may stand in the initializer of its own variable. -/
def readVariable (r : Resolver) (target : Reference) : Resolver :=
  if r.isPending target.name.text then
    (r.report target.name .ownInitializer).record target.slot 0
  else r.read target

end Resolver

end Lox
