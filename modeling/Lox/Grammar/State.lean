/-
  Lox.Grammar.State — the state of reading a token list: what is left of it, the next
  free slot, how many loops stand around the place that is read, and the errors so far.

  An error is either reported, and reading goes on, or raised, and the declaration that
  is being read is given up (`recovering`). Then reading resumes behind the offending
  token: at the end, behind the first semicolon, or before the first keyword that starts
  a statement (`resume`). The offending token itself is never read again, so resuming
  always gets on (`resume_length`).
-/

import Lox.Diagnostic
import Lox.Tree

namespace Lox.Grammar

structure State where
  rest : List Token
  endLine : Nat
  nextSlot : Int
  loops : Nat
  errors : Array Diagnostic
  deriving Repr

/-- Why reading stops before its end: an error is raised, or the bound on the nesting of
rules is used up. -/
inductive Halt where
  | raised (error : Diagnostic)
  | outOfFuel
  deriving Repr

abbrev Parse := EStateM Halt State

/-! ## Errors -/

def fault (t : Token) (f : SyntaxFault) : Diagnostic := ⟨t.line, .atToken t.text, .grammar f⟩

/-- A fault at the next token. -/
def State.fault (s : State) (f : SyntaxFault) : Diagnostic :=
  match s.rest with
  | t :: _ => Grammar.fault t f
  | [] => ⟨s.endLine, .atEnd, .grammar f⟩

def State.report (s : State) (error : Diagnostic) : State := { s with errors := s.errors.push error }

/-- Gives up at the next token. -/
def raise {α : Type} (f : SyntaxFault) : Parse α := fun s => .error (.raised (s.fault f)) s

/-- Notes a fault at the next token. -/
def report (f : SyntaxFault) : Parse Unit := fun s => .ok () (s.report (s.fault f))

/-- Notes a fault at a token that has been read. -/
def reportAt (t : Token) (f : SyntaxFault) : Parse Unit := fun s => .ok () (s.report (fault t f))

/-! ## Tokens -/

def peek : Parse (Option Token) := fun s => .ok s.rest.head? s

def skip : Parse Unit := fun s => .ok () { s with rest := s.rest.tail }

def isNext (terminal : Terminal) : Parse Bool := do
  match ← peek with
  | some t => return t.terminal = terminal
  | none => return false

/-- Takes the next token if it is one of the terminals. -/
def acceptAny (terminals : List Terminal) : Parse (Option Token) := fun s =>
  match s.rest with
  | t :: rest => if t.terminal ∈ terminals then .ok (some t) { s with rest } else .ok none s
  | [] => .ok none s

def accept (terminal : Terminal) : Parse (Option Token) := acceptAny [terminal]

def acceptSymbol (symbol : Symbol) : Parse (Option Token) := accept (.symbol symbol)

def acceptKeyword (keyword : Keyword) : Parse (Option Token) := accept (.keyword keyword)

/-- Takes the symbol that has to stand here. -/
def expect (symbol : Symbol) (role : SymbolRole) : Parse Token := do
  match ← acceptSymbol symbol with
  | some t => pure t
  | none => raise (.noSymbol symbol role)

/-- Takes the name that has to stand here. -/
def expectName (role : NameRole) : Parse Lexeme := fun s =>
  match s.rest with
  | ⟨.ident name, line⟩ :: rest => .ok ⟨name, line⟩ { s with rest }
  | _ => raise (.noName role) s

/-- The number of a new reference. -/
def newSlot : Parse Int := fun s => .ok s.nextSlot { s with nextSlot := s.nextSlot + 1 }

/-! ## Loops around the place that is read -/

/-- Changes the number of loops while `p` reads, and changes it back however `p` ends. -/
def withLoops {α : Type} (before : State → Nat) (after : State → State → Nat) (p : Parse α) :
    Parse α := fun s =>
  match p { s with loops := before s } with
  | .ok a s' => .ok a { s' with loops := after s s' }
  | .error e s' => .error e { s' with loops := after s s' }

/-- The body of a loop. -/
def inLoop {α : Type} (p : Parse α) : Parse α :=
  withLoops (fun s => s.loops + 1) (fun _ s' => s'.loops - 1) p

/-- The body of a routine: the loops around its declaration do not enclose it. -/
def inRoutine {α : Type} (p : Parse α) : Parse α :=
  withLoops (fun _ => 0) (fun s _ => s.loops) p

/-- A fault if no loop encloses the statement that the token starts. -/
def checkLoop (t : Token) (f : SyntaxFault) : Parse Unit := fun s =>
  if s.loops = 0 then reportAt t f s else .ok () s

/-! ## Recovery -/

/-- The tokens from the place on at which reading resumes after an error at the first. -/
def resume : List Token → List Token
  | [] => []
  | [_] => []
  | t :: next :: rest =>
    if t.terminal = .symbol .semicolon || next.terminal.startsStatement then next :: rest
    else resume (next :: rest)

/-- Reads a statement; if an error is raised in it, notes the error and resumes. -/
def recovering (p : Parse Stmt) : Parse (Option Stmt) := fun s =>
  match p s with
  | .ok stmt s' => .ok (some stmt) s'
  | .error (.raised error) s' => .ok none { s'.report error with rest := resume s'.rest }
  | .error .outOfFuel s' => .error .outOfFuel s'

theorem resume_length (t : Token) (rest : List Token) : (resume (t :: rest)).length ≤ rest.length := by
  induction rest generalizing t with
  | nil => simp [resume]
  | cons next rest ih =>
    simp only [resume]
    split
    · exact Nat.le_refl _
    · exact Nat.le_succ_of_le (ih next)

end Lox.Grammar
