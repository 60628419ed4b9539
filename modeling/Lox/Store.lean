/-
  Lox.Store — the environments of a running program. An environment is a table of names
  with a link to the environment around it; environments are numbered in the order in
  which they are made.

  A name is looked up along the links: the nearest environment that has it holds it
  (`holder?`), and reading and assigning both go there. A link is only followed to an
  older environment, so every walk ends. Where the number of hops is known, a name is
  read and written in the environment that many links out, whatever the others hold.
-/

import Lox.Bindings
import Lox.Distances
import Lox.Fault

namespace Lox

structure Environment (α : Type) where
  values : Bindings α
  enclosing : Option Nat
  deriving Repr

structure Store (α : Type) where
  environments : Array (Environment α)
  deriving Repr

namespace Store

variable {α : Type}

def empty : Store α := ⟨#[]⟩

def size (s : Store α) : Nat := s.environments.size

/-- The table of an environment. -/
def values? (s : Store α) (i : Nat) : Option (Bindings α) := (s.environments[i]?).map (·.values)

/-- The environment around an environment. -/
def outer? (s : Store α) (i : Nat) : Option Nat := (s.environments[i]?).bind (·.enclosing)

/-! ## Writing -/

/-- A new environment; its number is the size of the store before. -/
def push (s : Store α) (values : Bindings α) (enclosing : Option Nat) : Store α :=
  ⟨s.environments.push ⟨values, enclosing⟩⟩

def define (s : Store α) (i : Nat) (name : String) (value : α) : Store α :=
  ⟨s.environments.modify i fun e => { e with values := e.values.set name value }⟩

/-! ## Along the links -/

/-- The nearest environment from `i` outward that has the name. -/
def holder? (s : Store α) (name : String) (i : Nat) : Option Nat :=
  match s.environments[i]? with
  | none => none
  | some e =>
    if e.values.contains name then some i
    else
      match e.enclosing with
      | none => none
      | some p => if p < i then holder? s name p else none
termination_by i

def get? (s : Store α) (i : Nat) (name : String) : Option α := do
  let k ← s.holder? name i
  let values ← s.values? k
  values.get? name

/-- The environment so many links out. -/
def ancestor? (s : Store α) : (hops i : Nat) → Option Nat
  | 0, i => some i
  | hops + 1, i => (s.outer? i).bind (s.ancestor? hops)

/-! ## Access, with what goes wrong -/

/-- The environment that a name is read from and assigned in. -/
def holder (s : Store α) (i : Nat) (name : Lexeme) : Except Fault Nat :=
  match s.holder? name.text i with
  | some k => .ok k
  | none => .error (.runtime ⟨name, .undefinedVariable name.text⟩)

def ancestor (s : Store α) (i : Nat) (distance : Int) : Except Fault Nat :=
  match s.ancestor? (Distances.hops distance) i with
  | some k => .ok k
  | none => .error (.chainExceeded distance)

/-- The value of a name in one environment, its links apart. -/
def valueIn (s : Store α) (k : Nat) (name : String) : Except Fault α :=
  match (s.values? k).bind (·.get? name) with
  | some value => .ok value
  | none => .error (.unboundName name)

def read (s : Store α) (i : Nat) (name : Lexeme) : Except Fault α := do
  s.valueIn (← s.holder i name) name.text

def assign (s : Store α) (i : Nat) (name : Lexeme) (value : α) : Except Fault (Store α) := do
  return s.define (← s.holder i name) name.text value

def readAt (s : Store α) (i : Nat) (distance : Int) (name : String) : Except Fault α := do
  s.valueIn (← s.ancestor i distance) name

/-- Writing at a distance makes the name if it is not there. -/
def assignAt (s : Store α) (i : Nat) (distance : Int) (name : String) (value : α) :
    Except Fault (Store α) := do
  return s.define (← s.ancestor i distance) name value

/-! ## What writing leaves alone -/

@[simp] theorem size_push (s : Store α) (values : Bindings α) (enclosing : Option Nat) :
    (s.push values enclosing).size = s.size + 1 := by simp [push, size]

@[simp] theorem size_define (s : Store α) (i : Nat) (name : String) (value : α) :
    (s.define i name value).size = s.size := by simp [define, size]

theorem outer?_push (s : Store α) (values : Bindings α) (enclosing : Option Nat) (i : Nat) :
    (s.push values enclosing).outer? i = if i = s.size then enclosing else s.outer? i := by
  by_cases h : i = s.size
  · subst h; simp [push, outer?, size]
  · have : ¬ i = s.environments.size := h
    simp [push, outer?, Array.getElem?_push, h, this]

@[simp] theorem outer?_define (s : Store α) (i : Nat) (name : String) (value : α) (j : Nat) :
    (s.define i name value).outer? j = s.outer? j := by
  simp only [define, outer?, Array.getElem?_modify]
  split <;> cases s.environments[j]? <;> rfl

theorem values?_define (s : Store α) (i : Nat) (name : String) (value : α) (j : Nat) :
    (s.define i name value).values? j
      = (s.values? j).map fun t => if i = j then t.set name value else t := by
  simp only [define, values?, Array.getElem?_modify]
  split <;> cases s.environments[j]? <;> simp_all

end Store

end Lox
