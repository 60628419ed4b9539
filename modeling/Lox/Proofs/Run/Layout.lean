/-
  Lox.Proofs.Run.Layout — layout does not matter (`layout_unseen`): in any session, texts
  with the same tokens on whatever lines are read as the same tree up to lines, have the same
  errors, and run alike; a run that stops with an error stops with the same one up to its line.

  A text's lines are taken off by `Shift.flat`. The tokens of both texts are then the same
  ones, and reading, resolving and running take no notice of what was taken off.
-/

import Lox.Proofs.Alike.Traces
import Lox.Proofs.Run.Relined

namespace Lox

open Session

/-- All on one line; every slot stays. -/
def Shift.flat : Shift := .byLines fun _ => 0

/-- What an error says and where, but for its line. -/
def Diagnostic.finding (d : Diagnostic) : Place × Cause := (d.place, d.cause)

/-- What two texts with the same tokens have in common when they are read and resolved, with
slots from `k` on. Errors are in the order in which they are found. -/
structure SameReading (k : Int) (a b : String) : Prop where
  program : Shift.flat.stmts (parse (tokenize b).1 k).program = Shift.flat.stmts (parse (tokenize a).1 k).program
  nextSlot : (parse (tokenize b).1 k).nextSlot = (parse (tokenize a).1 k).nextSlot
  errors : (parse (tokenize b).1 k).errors.map Diagnostic.finding = (parse (tokenize a).1 k).errors.map
    Diagnostic.finding
  bindingErrors : (resolve (parse (tokenize b).1 k).program).errors.map Diagnostic.finding =
    (resolve (parse (tokenize a).1 k).program).errors.map Diagnostic.finding

/-- Two runs that are both rejected, or do the same and end alike up to lines. -/
structure SameButLines (done done' : Report × Session) : Prop where
  isRejected : done'.1.ending.isRejected = done.1.ending.isRejected
  ending : done.1.ending.isRejected = false → Shift.flat.ending done'.1.ending = Shift.flat.ending done.1.ending
  output : done'.1.output = done.1.output
  globals : done'.2.machine.globals = done.2.machine.globals
  nextSlot : done'.2.nextSlot = done.2.nextSlot

variable {a b : String} {k : Int} {host : Host} {s : Session} {p p' : List Stmt}

/-! ## Reading -/

theorem tokens_flat {ts us : Tokens} (h : us.items.map (·.terminal) = ts.items.map (·.terminal)) :
    Shift.flat.tokens us = Shift.flat.tokens ts := by
  have hitems : ∀ ts : List Token, ts.map Shift.flat.token = (ts.map (·.terminal)).map (⟨·, 0⟩) := fun ts => by
    rw [List.map_map]
    rfl
  unfold Shift.tokens
  rw [hitems, hitems, h]
  rfl

theorem parse_flat (h : (tokenize b).1.items.map (·.terminal) = (tokenize a).1.items.map (·.terminal)) (k : Int) :
    (parse (tokenize b).1 k).shift Shift.flat = (parse (tokenize a).1 k).shift Shift.flat := by
  rw [← parse_shift, ← parse_shift, tokens_flat h]

theorem findings_flat {ds es : List Diagnostic} (h : es.map Shift.flat.diagnostic = ds.map Shift.flat.diagnostic) :
    es.map Diagnostic.finding = ds.map Diagnostic.finding := by
  have hsame : ∀ ds : List Diagnostic, (ds.map Shift.flat.diagnostic).map Diagnostic.finding
    = ds.map Diagnostic.finding :=
    fun ds => List.map_map
  rw [← hsame es, h, hsame]

/-- The resolver finds the same in trees that are equal up to lines. -/
theorem resolve_flat (h : Shift.flat.stmts p' = Shift.flat.stmts p) :
    (resolve p').errors.map Diagnostic.finding = (resolve p).errors.map Diagnostic.finding ∧
      (resolve p').distances = (resolve p).distances := by
  refine ⟨findings_flat ?_, ?_⟩
  · rw [← (resolve_shift _ p').1, ← (resolve_shift _ p).1, h]
  · rw [← resolve_lines (fun _ => 0) p', ← resolve_lines (fun _ => 0) p]
    exact congrArg (fun q => (resolve q).distances) h

theorem reading_flat (h : (tokenize b).1.items.map (·.terminal) = (tokenize a).1.items.map (·.terminal)) (k : Int) :
    SameReading k a b := by
  have hparse := parse_flat h k
  have hprogram := congrArg Parsed.program hparse
  refine ⟨hprogram, ?_, findings_flat (congrArg Parsed.errors hparse), (resolve_flat hprogram).1⟩
  have hslot := congrArg Parsed.nextSlot hparse
  have hzero : Shift.flat.slots = 0 := rfl
  simpa [Parsed.shift, hzero] using hslot

/-! ## Running -/

theorem globals_machine (g : Shift) (m : Machine) : (g.machine m).globals = m.globals := by
  unfold Machine.globals
  simp only [Shift.display_machine]
  rfl

theorem ending_stop (g : Shift) (stop : Stop) : Session.ending (g.stop stop) = g.ending (Session.ending stop) := by
  cases stop with
  | fault fault => cases fault <;> rfl
  | outOfStack => rfl

/-- On other lines a program is executed as it is on its own, on a machine whose objects are there too. -/
theorem execute_relined {g : Shift} (hg : g.slots = 0) (host : Host) (s : Session) (log log' : List Notice)
    (p : List Stmt) (D : Distances) :
    let done := s.execute host log p D
    let done' := { s with machine := g.machine s.machine }.execute host log' (g.stmts p) D
    done'.1.ending = g.ending done.1.ending ∧ done'.1.output = done.1.output ∧
      done'.2.machine = g.machine done.2.machine ∧ done'.2.nextSlot = done.2.nextSlot := by
  obtain ⟨m, nextSlot, interactive⟩ := s
  have hrun : Eval.interpret host interactive (g.stmts p) ((g.machine m).load D) =
      relineResult g id (Eval.interpret host interactive p (m.load D)) :=
    relined_interpret hg host interactive p (m.load D)
  simp only [execute, hrun]
  cases Eval.interpret host interactive p (m.load D) with
  | ok u m₁ => exact ⟨rfl, rfl, rfl, rfl⟩
  | error stop m₁ => exact ⟨ending_stop g stop, rfl, rfl, rfl⟩

/-- Programs that are equal up to lines, on one machine. -/
theorem execute_flat (h : Shift.flat.stmts p' = Shift.flat.stmts p) (host : Host) (s : Session) (log log' : List Notice)
    (D : Distances) :
    let done := s.execute host log p D
    let done' := s.execute host log' p' D
    Shift.flat.ending done'.1.ending = Shift.flat.ending done.1.ending ∧ done'.1.output = done.1.output ∧
      done'.2.machine.globals = done.2.machine.globals ∧ done'.2.nextSlot = done.2.nextSlot := by
  have hflat := execute_relined (g := Shift.flat) rfl host s log [] p D
  have hflat' := execute_relined (g := Shift.flat) rfl host s log' [] p' D
  rw [h] at hflat'
  obtain ⟨hending, houtput, hmachine, hslot⟩ := hflat
  obtain ⟨hending', houtput', hmachine', hslot'⟩ := hflat'
  refine ⟨hending'.symm.trans hending, houtput'.symm.trans houtput, ?_, hslot'.symm.trans hslot⟩
  rw [← globals_machine Shift.flat, ← hmachine', hmachine, globals_machine]

/-- A text is executed when one that is read alike is. -/
theorem runs_flat (hb : (tokenize b).2 = []) (h : SameReading s.nextSlot a b) (hruns : s.Runs a p) :
    ∃ p', s.Runs b p' ∧ Shift.flat.stmts p' = Shift.flat.stmts p := by
  refine ⟨(parse (tokenize b).1 s.nextSlot).program, ⟨hb, ?_, rfl, ?_⟩, ?_⟩
  · have herrors := h.errors
    rw [hruns.errors] at herrors
    exact List.map_eq_nil_iff.mp herrors
  · have herrors := h.bindingErrors
    rw [hruns.program, hruns.resolved] at herrors
    exact List.map_eq_nil_iff.mp herrors
  · rw [h.program, hruns.program]

theorem SameReading.symm (h : SameReading k a b) : SameReading k b a :=
  ⟨h.program.symm, h.nextSlot.symm, h.errors.symm, h.bindingErrors.symm⟩

/-- Layout does not matter, whatever the session has done so far. -/
theorem layout_unseen (host : Host) (s : Session) (a b : String) (ha : (tokenize a).2 = []) (hb : (tokenize b).2 = [])
    (h : (tokenize b).1.items.map (·.terminal) = (tokenize a).1.items.map (·.terminal)) :
    SameReading s.nextSlot a b ∧ SameButLines (s.run host a) (s.run host b) := by
  have hread := reading_flat h s.nextSlot
  refine ⟨hread, ?_⟩
  have hslot : (s.run host b).2.nextSlot = (s.run host a).2.nextSlot := by
    rw [run_nextSlot, run_nextSlot, hread.nextSlot]
  rcases run_cases host s a with ⟨-, hnone, hleft⟩ | ⟨p, -, hruns, -⟩
  · have hnone' : ∀ p, ¬ s.Runs b p := fun p hp => by
      obtain ⟨p', hp', -⟩ := runs_flat ha hread.symm hp
      exact hnone p' hp'
    obtain ⟨hrejected, houtput⟩ := rejected_of_runs host hnone
    obtain ⟨hrejected', houtput'⟩ := rejected_of_runs host hnone'
    refine ⟨hrejected'.trans hrejected.symm, fun haccepted => ?_, houtput'.trans houtput.symm, ?_, hslot⟩
    · rw [hrejected] at haccepted
      cases haccepted
    · rcases run_cases host s b with ⟨-, -, hleft'⟩ | ⟨p, -, hp, -⟩
      · rw [hleft, hleft']
      · exact absurd hp (hnone' p)
  · obtain ⟨p', hruns', hflat⟩ := runs_flat hb hread hruns
    obtain ⟨log, hrun⟩ := run_runs host hruns
    obtain ⟨log', hrun'⟩ := run_runs host hruns'
    rw [(resolve_flat hflat).2, hread.nextSlot] at hrun'
    have hsame := execute_flat hflat host { s with nextSlot := (parse (tokenize a).1 s.nextSlot).nextSlot } log log'
      (resolve p).distances
    refine ⟨(accepted_of_executes host hruns').trans (accepted_of_executes host hruns).symm, fun _ => ?_, ?_, ?_, hslot⟩
    · rw [hrun, hrun']
      exact hsame.1
    · rw [hrun, hrun']
      exact hsame.2.1
    · rw [hrun, hrun']
      exact hsame.2.2.1

/-- A text that stops with an error, on one line and on four. -/
theorem layout_unseen_negation :
    SameReading 0 "print nil; -nil;" "print\nnil;\n\n-nil;" ∧
      SameButLines ((start false).run (.ofClock fun _ => 0) "print nil; -nil;")
        ((start false).run (.ofClock fun _ => 0) "print\nnil;\n\n-nil;") := by
  have ha : (tokenize "print nil; -nil;").2 = [] := by decide +kernel
  have hb : (tokenize "print\nnil;\n\n-nil;").2 = [] := by decide +kernel
  have h : (tokenize "print\nnil;\n\n-nil;").1.items.map (·.terminal) =
      (tokenize "print nil; -nil;").1.items.map (·.terminal) := by
    decide +kernel
  exact layout_unseen (.ofClock fun _ => 0) (start false) _ _ ha hb h

end Lox
