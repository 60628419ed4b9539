/-
  Lox.Proofs.Scope.Placement — where `break`, `continue` and `return` stand in a program
  that is accepted: the first two in the body of a loop and the last in a routine, with no
  other routine in between (`placed_program`).

  The parser sees to loops, the resolver to routines. The body of a routine starts anew,
  in no loop and in a routine, so what stands around a routine tells nothing of its body.
-/

import Lox.Proofs.Grammar.Reading
import Lox.Proofs.Scope.Resolved

namespace Lox

/-! ## Placed statements -/

namespace Stmt

mutual

/-- Jumps stand where they may, in a statement that is in a loop or in a routine. -/
def Placed (inLoop inRoutine : Bool) : Stmt → Prop
  | .expr _ => True
  | .print_ _ => True
  | .var _ _ => True
  | .block body => PlacedAll inLoop inRoutine body
  | .cond _ yes no => yes.Placed inLoop inRoutine ∧ PlacedOpt inLoop inRoutine no
  | .loop _ body _ => body.Placed true inRoutine
  | .break_ _ => inLoop = true
  | .continue_ _ => inLoop = true
  | .fun_ routine => RoutinePlaced routine
  | .return_ _ _ => inRoutine = true
  | .class_ _ _ methods => RoutinesPlaced methods

def PlacedAll (inLoop inRoutine : Bool) : List Stmt → Prop
  | [] => True
  | s :: rest => s.Placed inLoop inRoutine ∧ PlacedAll inLoop inRoutine rest

def PlacedOpt (inLoop inRoutine : Bool) : Option Stmt → Prop
  | none => True
  | some s => s.Placed inLoop inRoutine

def RoutinePlaced : Routine → Prop
  | ⟨_, _, body⟩ => PlacedAll false true body

def RoutinesPlaced : List Routine → Prop
  | [] => True
  | m :: rest => RoutinePlaced m ∧ RoutinesPlaced rest

end

theorem RoutinePlaced.body {r : Routine} (h : RoutinePlaced r) : PlacedAll false true r.body := by
  obtain ⟨name, params, body⟩ := r
  exact h

end Stmt

open Stmt

/-! ## In loops -/

namespace Grammar

/-- A clause whose jumps stand in loops; nothing is asked of `return`. -/
def Clause.InLoops : Clause → Prop
  | .statement b _ s => s.Placed b true
  | .declaration b s => s.Placed b true
  | .declarations b ss => PlacedAll b true ss
  | .routine r => RoutinePlaced r
  | .routines rs => RoutinesPlaced rs

variable {b : Bool} {k k' : Int} {ts : List Token} {s : Stmt}

theorem placed_var {r : Bool} (h : ReadsVar s k ts k') : s.Placed b r := by
  cases h
  trivial

theorem placed_effect {r : Bool} (h : ReadsEffect s k ts k') : s.Placed b r := by
  cases h
  trivial

theorem placed_clause {r : Bool} {init : Option Stmt} (h : ReadsClause init k ts k') : PlacedOpt b r init := by
  cases h with
  | none => trivial
  | var _ hs => exact placed_var hs
  | effect hs => exact placed_effect hs

/-- A `for` loop is a block around a loop if it has a first clause. -/
theorem placed_forLoop {r : Bool} {init : Option Stmt} {test step : Option Expr} {body : Stmt}
    (hi : PlacedOpt b r init) (hb : body.Placed true r) : (forLoop init test step body).Placed b r := by
  cases init with
  | none => exact hb
  | some first => exact ⟨hi, hb, trivial⟩

/-- A jump out of a loop is only read within one. -/
theorem inLoops_of_reads {c : Clause} (h : ReadsStmt c k ts k') : c.InLoops := by
  induction h with
  | effect hs => exact placed_effect hs
  | var _ hs => exact placed_var hs
  | for_ _ _ hinit _ _ _ _ _ ih => exact placed_forLoop (placed_clause hinit) ih
  | if_ _ _ _ _ _ ih => exact ⟨ih, trivial⟩
  | ifElse _ _ _ _ _ _ _ ih ih' => exact ⟨ih, ih'⟩
  | cons _ _ ih ih' | moreRoutines _ _ ih ih' => exact ⟨ih, ih'⟩
  | block _ _ _ ih | while_ _ _ _ _ _ ih | statement _ ih | fun_ _ _ ih | class_ _ _ _ _ _ _ ih
  | routine _ _ _ _ _ _ _ ih => exact ih
  | print | nil | noRoutine => trivial
  | return_ | break_ | continue_ => exact rfl

end Grammar

/-! ## In routines -/

variable {p : List Stmt} {site : Site} {r : Resolver} {os : List Opened}

open Resolver

/-- An accepted program returns only within routines. -/
theorem inRoutine_of_return (hp : Accepted p) {keyword : Lexeme} {value : Option Expr}
    (h : Within p (.stmt (.return_ keyword value)) r os) : r.routine ≠ .none := by
  intro hr
  have herrors : (exprOpt value (r.checkReturn keyword value.isSome)).errors = #[] := (resolved hp h).part.errors
  have hreported : r.checkReturn keyword value.isSome = r.report keyword .topLevelReturn := by
    unfold checkReturn
    rw [hr]
  have hnone := (walked_exprOpt value _).errors herrors
  rw [hreported] at hnone
  exact absurd hnone (by simp [report])

mutual

/-- Outside of all routines nothing is placed to return. -/
theorem placed_outside (hp : Accepted p) : ∀ (s : Stmt) {b : Bool} {r : Resolver} {os : List Opened},
    s.Placed b true → Within p (.stmt s) r os → r.routine = .none → s.Placed b false
  | .expr _, _, _, _, _, _, _ => trivial
  | .print_ _, _, _, _, _, _, _ => trivial
  | .var _ _, _, _, _, _, _, _ => trivial
  | .block body, _, _, _, h, hw, hr => placedAll_outside hp body h (.block hw) hr
  | .cond test yes none, _, r, _, h, hw, hr =>
    have htest : (Resolver.expr test r).routine = .none := (walked_expr test r).routine.trans hr
    ⟨placed_outside hp yes h.1 (.condYes hw) htest, trivial⟩
  | .cond test yes (some no), _, r, _, h, hw, hr => by
    have htest : (Resolver.expr test r).routine = .none := (walked_expr test r).routine.trans hr
    have hyes : (Resolver.stmt yes (Resolver.expr test r)).routine = .none :=
      (walked_stmt yes (resolved hp (.condYes hw)).tidy _).routine.trans htest
    exact ⟨placed_outside hp yes h.1 (.condYes hw) htest, placed_outside hp no h.2 (.condNo hw) hyes⟩
  | .loop test body _, _, r, _, h, hw, hr =>
    have htest : (Resolver.expr test r).routine = .none := (walked_expr test r).routine.trans hr
    placed_outside hp body h (.loopBody hw) htest
  | .break_ _, _, _, _, h, _, _ => h
  | .continue_ _, _, _, _, h, _, _ => h
  | .fun_ _, _, _, _, h, _, _ => h
  | .return_ _ _, _, _, _, _, hw, hr => absurd hr (inRoutine_of_return hp hw)
  | .class_ _ _ _, _, _, _, h, _, _ => h

theorem placedAll_outside (hp : Accepted p) : ∀ (ss : List Stmt) {b : Bool} {r : Resolver} {os : List Opened},
    PlacedAll b true ss → Within p (.stmts ss) r os → r.routine = .none → PlacedAll b false ss
  | [], _, _, _, _, _, _ => trivial
  | s :: rest, _, r, _, h, hw, hr => by
    have hfirst : (Resolver.stmt s r).routine = .none :=
      (walked_stmt s (resolved hp (.first hw)).tidy r).routine.trans hr
    exact ⟨placed_outside hp s h.1 (.first hw) hr, placedAll_outside hp rest h.2 (.next hw) hfirst⟩

end

theorem placed_program (hp : Accepted p) {k k' : Int} {ts : List Token}
    (h : Grammar.ReadsStmt (.declarations false p) k ts k') : PlacedAll false false p :=
  placedAll_outside hp p (Grammar.inLoops_of_reads h) .root rfl

/-! ## Parts of a program -/

def Site.Placed : Site → Prop
  | stmts ss => ∃ inLoop inRoutine, PlacedAll inLoop inRoutine ss
  | stmt s => ∃ inLoop inRoutine, s.Placed inLoop inRoutine
  | routine _ f => RoutinePlaced f
  | methods ms => RoutinesPlaced ms
  | _ => True

/-- Whatever stands in an accepted program is placed. -/
theorem within_placed (hp : PlacedAll false false p) (h : Within p site r os) : site.Placed := by
  induction h with
  | root => exact ⟨false, false, hp⟩
  | first _ ih =>
    obtain ⟨b, c, h⟩ := ih
    exact ⟨b, c, h.1⟩
  | next _ ih =>
    obtain ⟨b, c, h⟩ := ih
    exact ⟨b, c, h.2⟩
  | block _ ih => exact ih
  | condYes _ ih =>
    obtain ⟨b, c, h⟩ := ih
    exact ⟨b, c, h.1⟩
  | condNo _ ih =>
    obtain ⟨b, c, h⟩ := ih
    exact ⟨b, c, h.2⟩
  | loopBody _ ih =>
    obtain ⟨b, c, h⟩ := ih
    exact ⟨true, c, h⟩
  | fun_ _ ih | methods _ ih =>
    obtain ⟨b, c, h⟩ := ih
    exact h
  | method _ ih => exact ih.1
  | nextMethod _ ih => exact ih.2
  | body _ ih => exact ⟨false, true, RoutinePlaced.body ih⟩
  | _ => trivial

end Lox
