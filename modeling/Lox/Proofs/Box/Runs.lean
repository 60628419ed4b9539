/-
  Lox.Proofs.Box.Runs — blocks around parts of a program that change nothing: an extra block
  around statements (`boxes_unseen`), and the block that a loop's step is taken into, which
  makes a `for` loop the `while` loop that it stands for (`steps_unseen`). The changed
  program is accepted when the program is, and from the same session it ends in the same
  way, prints the same and leaves the same global names, unless it comes to the end of the
  stack.

  The blocks take environments of their own at run time, and a closure made in one of them
  keeps it, so the two heaps grow apart; what the session has from before is kin to itself
  (`kin_wrapped`), and the rest follows from the two programs being alike.

  A block takes two levels of the stack as well. So a program that calls without end makes
  fewer calls when there are blocks on the way to each of them, and the lines that it prints
  tell (`boxes_seen`, `steps_seen`).
-/

import Lox.Proofs.Alike.Boxed
import Lox.Proofs.Alike.Joined
import Lox.Proofs.Rename.Runs
import Lox.Proofs.Run.Endless

namespace Lox

variable {boxes : Prop} {host : Host} {interactive : Bool} {before : List String} {source : String} {p p' : List Stmt}

open Session

/-- Two programs with the same references, loaded on the machine of a session. -/
theorem kin_wrapped (hruns : (after host interactive before).Runs source p)
    (hslots : Stmt.slotsAll p' = Stmt.slotsAll p) :
    ∃ π, Kin (wrapped boxes ((after host interactive before).machine.load (resolve p).distances).distances
        ((after host interactive before).machine.load (resolve p').distances).distances) #[] π
      ((after host interactive before).machine.load (resolve p).distances)
      ((after host interactive before).machine.load (resolve p').distances) := by
  have hb := begun hruns
  have hready : Ready (world host interactive before before) (after host interactive before) :=
    ready_after (List.append_nil before).symm
  have hallows : ∀ q, (world host interactive before before).known q →
      (upTo (after host interactive before).nextSlot (after host interactive before).machine.distances).Allows q :=
    fun q hq => allows_upTo hready.tabled hq (hready.slots q hq)
  have hkin := kin_self hallows hready.inv fun ss r r' hr => hr.2.2
  have hnew : ∀ x, x < (after host interactive before).nextSlot → x ∉ Stmt.slotsAll p := fun x hx hm => by
    have := (hb.ranged.2.2 x hm).1
    omega
  refine ⟨_, hkin.relike (fun _ _ h => h) (fun ss r r' hr => ?_) False.elim False.elim fun _ _ _ h => h⟩
  obtain ⟨hslot, hlt, hsame⟩ := hr
  have hold := hnew r.slot hlt
  refine hsame.congr (merge_outside hold _) (merge_outside ?_ _)
  rw [hslots, hslot]
  exact hold

/-- Each of the two programs finds its own distances. -/
theorem bothTabled (hruns : (after host interactive before).Runs source p) (hp' : Accepted p')
    (hslots : Stmt.slotsAll p' = Stmt.slotsAll p) :
    BothTabled p p' ((after host interactive before).machine.load (resolve p).distances).distances
      ((after host interactive before).machine.load (resolve p').distances).distances := by
  have hb := begun hruns
  refine ⟨hb.accepted, hp', hb.tabled p hb.known, fun x hx => ?_⟩
  have hfree := hb.fresh x (hb.ranged.2.2 x (hslots ▸ hx)).1
  show ((after host interactive before).machine.distances.merge (resolve p').distances)[x]? = _
  rw [Distances.merge_get?, hfree, Option.or_none]

/-- A program with blocks around parts of it does the same, unless it comes to the end of the
stack. At a prompt none of the blocks is around a statement of the program alone, whose value
would be printed. -/
theorem wraps_unseen (hruns : (after host interactive before).Runs source p) (h : Wraps boxes (.stmts p) (.stmts p'))
    (hi : interactive = true → ¬ boxes) :
    (resolve p').errors = [] ∧ ∀ n log,
      ({ after host interactive before with nextSlot := n }.runProgram host log p').1.ending.isStackEnd = false →
      shown ({ after host interactive before with nextSlot := n }.runProgram host log p') =
        shown ((after host interactive before).run host source) := by
  have hb := begun hruns
  have hp' := accepted_wrapped hb.accepted h
  refine ⟨hp'.resolved, fun n log hroom => ?_⟩
  have hprompt : (after host interactive before).interactive = true → ¬ boxes := by
    rw [after_interactive]
    exact hi
  obtain ⟨π, hkin⟩ := kin_wrapped hruns h.slots
  have hshared : IsShared [] := rfl
  have halike := alike_of_wraps (bothTabled hruns hp' h.slots) h hshared .nil .root .root
  obtain ⟨log₁, hrun⟩ := run_runs host hruns
  obtain ⟨log₂, hrun'⟩ :=
    runProgram_resolved host { after host interactive before with nextSlot := n } log hp'.resolved
  rw [hrun'] at hroom ⊢
  have hlike := execute_alike
    { after host interactive before with
      nextSlot := (parse (tokenize source).1 (after host interactive before).nextSlot).nextSlot }
    { after host interactive before with nextSlot := n } hkin ⟨hb.current, hb.current⟩ rfl hprompt halike hb.safe log₁
      log₂ fun _ => hroom
  have hglobals := hlike.globals
  have hending := hlike.ending.eq
  have houtput := hlike.output
  rw [Array.empty_append] at houtput
  rw [hrun]
  unfold shown
  rw [hending, houtput, hglobals]

/-- Of two programs that call without end, the one with more on the way to each call prints
fewer lines. -/
theorem endless_told {levels : Nat} {again : Stmt} (hagain : Leads host levels again endlessCall)
    (hresolved : (resolve (endlessProgram again)).errors = [])
    (hinner : (resolve (endlessProgram again)).distances[(0 : Int)]? = none)
    (houter : (resolve (endlessProgram again)).distances[(1 : Int)]? = none) (hstack : 6 ≤ host.stack)
    (hcalls : host.stack ≤ host.calls) (hrounds : 0 < host.rounds)
    (hfewer : endlessLines host.stack levels interactive ≠ endlessLines host.stack 2 interactive) (n : Int)
    (log : List Notice) :
    shown ({ after host interactive [] with nextSlot := n }.runProgram host log (endlessProgram again)) ≠
      shown ((after host interactive []).run host endlessText) := by
  obtain ⟨log', hrun⟩ := runProgram_resolved host { after host interactive [] with nextSlot := n } log hresolved
  have hlines := endless_output interactive log' n hagain hinner houter hstack hcalls
  intro hsame
  rw [hrun] at hsame
  have houtput := congrArg (fun s => s.output.size) hsame
  exact hfewer (hlines.symm.trans (houtput.trans (endless_lines host interactive hstack hcalls hrounds)))

/-! ## Statements in blocks of their own -/

/-- An extra block changes nothing while the stack has room for it: for every program that a
session accepts outside of a prompt, and whichever statements are put into blocks. -/
theorem boxes_unseen (host : Host) (before : List String) (source : String) (p : List Stmt)
    (hruns : (after host false before).Runs source p) (p' : List Stmt) (h : Boxes (.stmts p) (.stmts p')) :
    (resolve p').errors = [] ∧ ∀ n log,
      ({ after host false before with nextSlot := n }.runProgram host log p').1.ending.isStackEnd = false →
      shown ({ after host false before with nextSlot := n }.runProgram host log p') =
        shown ((after host false before).run host source) :=
  wraps_unseen hruns h.wraps nofun

/-- A block that prints its variable, and one that prints it from a block further in. -/
theorem boxes_unseen_print : ∃ name target,
    (after (.ofClock fun _ => 0) false []).Runs (printsText "a") (prints name target) ∧
    (resolve [.block [.var name (some (.literal .nil)), .block [.print_ (.ref target)]]]).errors = [] ∧
    shown ((after (.ofClock fun _ => 0) false []).runProgram (.ofClock fun _ => 0) []
        [.block [.var name (some (.literal .nil)), .block [.print_ (.ref target)]]]) =
      shown ((after (.ofClock fun _ => 0) false []).run (.ofClock fun _ => 0) (printsText "a")) := by
  have hroom : ((after (.ofClock fun _ => 0) false []).runProgram (.ofClock fun _ => 0) []
      [.block [.var ⟨"a", 1⟩ (some (.literal .nil)), .block [.print_ (.ref ⟨⟨"a", 1⟩, 0⟩)]]]).1.ending.isStackEnd
        = false := by
    decide +kernel
  generalize Host.ofClock (fun _ => 0) = host at hroom ⊢
  have hruns : (after host false []).Runs (printsText "a") (prints ⟨"a", 1⟩ ⟨⟨"a", 1⟩, 0⟩) := prints_runs host false
  obtain ⟨hresolved, hsame⟩ :=
    boxes_unseen host [] _ _ hruns _ (.cons (.block (.cons .var (.cons (.once rfl) .nil))) .nil)
  exact ⟨_, _, hruns, hresolved, hsame 0 [] hroom⟩

/-- A loop in which a function calls itself, and the same in a block: the program with the block
prints 1110 lines until the stack comes to its end, the one without 1427. -/
theorem boxes_seen :
    (after (.ofClock fun _ => 0) false []).Runs endlessText (endlessProgram endlessLoop) ∧
    Boxes (.stmts (endlessProgram endlessLoop)) (.stmts (endlessProgram (.block [endlessLoop]))) ∧
    (resolve (endlessProgram (.block [endlessLoop]))).errors = [] ∧
    ∀ n log,
      shown ({ after (.ofClock fun _ => 0) false [] with nextSlot := n }.runProgram (.ofClock fun _ => 0) log
          (endlessProgram (.block [endlessLoop]))) ≠
        shown ((after (.ofClock fun _ => 0) false []).run (.ofClock fun _ => 0) endlessText) := by
  have hboxes : Boxes (.stmts (endlessProgram endlessLoop)) (.stmts (endlessProgram (.block [endlessLoop]))) :=
    .cons (.fun_ (.routine (.cons .printed (.cons (.once rfl) .nil)))) (.cons .effect .nil)
  have hresolved : (resolve (endlessProgram (.block [endlessLoop]))).errors = [] := rfl
  have hagain : Leads (.ofClock fun _ => 0) 4 (.block [endlessLoop]) endlessCall :=
    (leads_block _ _ []).trans (leads_loop (by decide) _ _)
  exact ⟨endless_runs _ _, hboxes, hresolved,
    endless_told hagain hresolved rfl rfl (by decide) (by decide) (by decide) (by decide)⟩

/-! ## Steps at the end of the body -/

/-- A `for` loop without `continue` is the `while` loop that it stands for, while the stack has
room for it: for every program that a session accepts, and whichever of its loops have their
step moved into the body. -/
theorem steps_unseen (host : Host) (interactive : Bool) (before : List String) (source : String) (p : List Stmt)
    (hruns : (after host interactive before).Runs source p) (p' : List Stmt) (h : Inlines (.stmts p) (.stmts p')) :
    (resolve p').errors = [] ∧ ∀ n log,
      ({ after host interactive before with nextSlot := n }.runProgram host log p').1.ending.isStackEnd = false →
      shown ({ after host interactive before with nextSlot := n }.runProgram host log p') =
        shown ((after host interactive before).run host source) :=
  wraps_unseen hruns h fun _ => id

/-- A loop that prints its variable until its step clears it, as a text and as a program. -/
def clearsText : String := "for (var a = true; a; a = nil) print a;"

def clears (name : Lexeme) (test target cleared : Reference) : List Stmt :=
  [.block [.var name (some (.literal (.bool true))),
    .loop (.ref test) (.print_ (.ref target)) (some (.assign cleared (.literal .nil)))]]

def clears? : List Stmt → Option (Lexeme × Reference × Reference × Reference)
  | [.block [.var name (some (.literal (.bool true))),
      .loop (.ref test) (.print_ (.ref target)) (some (.assign cleared (.literal .nil)))]] =>
    some (name, test, target, cleared)
  | _ => none

theorem clears?_some {name : Lexeme} {test target cleared : Reference}
    (h : clears? p = some (name, test, target, cleared)) : p = clears name test target cleared := by
  unfold clears? at h
  split at h <;> cases h
  rfl

/-- The loop at a prompt, and the same with its step behind the `print`. -/
theorem steps_unseen_print : ∃ name test target cleared,
    (after (.ofClock fun _ => 0) true []).Runs clearsText (clears name test target cleared) ∧
    (resolve [.block [.var name (some (.literal (.bool true))),
      .loop (.ref test) (.block [.print_ (.ref target), .expr (.assign cleared (.literal .nil))]) none]]).errors = [] ∧
    shown ((after (.ofClock fun _ => 0) true []).runProgram (.ofClock fun _ => 0) []
        [.block [.var name (some (.literal (.bool true))),
          .loop (.ref test) (.block [.print_ (.ref target), .expr (.assign cleared (.literal .nil))]) none]]) =
      shown ((after (.ofClock fun _ => 0) true []).run (.ofClock fun _ => 0) clearsText) := by
  have hlexical : (tokenize clearsText).2 = [] := by decide +kernel
  have herrors : (parse (tokenize clearsText).1 0).errors = [] := by decide +kernel
  have hshape : clears? (parse (tokenize clearsText).1 0).program =
      some (⟨"a", 1⟩, ⟨⟨"a", 1⟩, 0⟩, ⟨⟨"a", 1⟩, 3⟩, ⟨⟨"a", 1⟩, 2⟩) := by
    decide +kernel
  have hroom : ((after (.ofClock fun _ => 0) true []).runProgram (.ofClock fun _ => 0) []
      [.block [.var ⟨"a", 1⟩ (some (.literal (.bool true))), .loop (.ref ⟨⟨"a", 1⟩, 0⟩)
        (.block [.print_ (.ref ⟨⟨"a", 1⟩, 3⟩), .expr (.assign ⟨⟨"a", 1⟩, 2⟩ (.literal .nil))])
        none]]).1.ending.isStackEnd = false := by
    decide +kernel
  generalize Host.ofClock (fun _ => 0) = host at hroom ⊢
  have hruns : (after host true []).Runs clearsText (clears ⟨"a", 1⟩ ⟨⟨"a", 1⟩, 0⟩ ⟨⟨"a", 1⟩, 3⟩ ⟨⟨"a", 1⟩, 2⟩) :=
    ⟨hlexical, herrors, clears?_some hshape, rfl⟩
  have hnever : (Stmt.print_ (.ref ⟨⟨"a", 1⟩, 3⟩)).NeverContinues := nofun
  obtain ⟨hresolved, hsame⟩ :=
    steps_unseen host true [] _ _ hruns _ (.cons (.block (.cons .var (.cons (Inlines.once hnever) .nil))) .nil)
  exact ⟨_, _, _, _, hruns, hresolved, hsame 0 [] hroom⟩

/-- The loop with its step behind the call. -/
def endlessWhile : Stmt := .loop (.literal (.bool true)) (.block [endlessCall, .expr (.literal .nil)]) none

/-- The same loop, and with its step behind the call: 1110 lines again, and at a prompt 1428. -/
theorem steps_seen :
    (after (.ofClock fun _ => 0) true []).Runs endlessText (endlessProgram endlessLoop) ∧
    Inlines (.stmts (endlessProgram endlessLoop)) (.stmts (endlessProgram endlessWhile)) ∧
    (resolve (endlessProgram endlessWhile)).errors = [] ∧
    ∀ n log,
      shown ({ after (.ofClock fun _ => 0) true [] with nextSlot := n }.runProgram (.ofClock fun _ => 0) log
          (endlessProgram endlessWhile)) ≠
        shown ((after (.ofClock fun _ => 0) true []).run (.ofClock fun _ => 0) endlessText) := by
  have hnever : endlessCall.NeverContinues := nofun
  have hinlines : Inlines (.stmts (endlessProgram endlessLoop)) (.stmts (endlessProgram endlessWhile)) :=
    .cons (.fun_ (.routine (.cons .printed (.cons (Inlines.once hnever) .nil)))) (.cons .effect .nil)
  have hresolved : (resolve (endlessProgram endlessWhile)).errors = [] := rfl
  have hagain : Leads (.ofClock fun _ => 0) 4 endlessWhile endlessCall :=
    (leads_loop (by decide) _ none).trans (leads_block _ _ _)
  exact ⟨endless_runs _ _, hinlines, hresolved,
    endless_told hagain hresolved rfl rfl (by decide) (by decide) (by decide) (by decide)⟩

end Lox
