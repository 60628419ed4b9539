/-
  Lox.Proofs.Alike.Runs — what is seen of the runs of alike programs (`execute_alike`):
  they end in the same way, print the same, and leave machines that are kin, so the next
  alike programs find what they need. Where the second program may go deeper on the stack,
  that is so unless it comes to the end of it.
-/

import Lox.Proofs.Alike.Evaluation
import Lox.Proofs.Run.Numbering

namespace Lox

/-! ## What is seen of a run -/

/-- How a run ended, what it printed, and the global names behind it with the texts of their values. -/
structure Shown where
  ending : Ending
  output : Array String
  globals : List (String × String)

namespace Session

/-- What a run shows of itself: how it ends, its output and the globals. -/
def shown (done : Report × Session) : Shown := ⟨done.1.ending, done.1.output, done.2.machine.globals⟩

end Session

/-- Two runs that execute their programs end alike: neither with an error, or both with the
same one at places that correspond, or both in a loop that used up its rounds, or both at the
end of the stack outside of any call. -/
def Ending.Like (place : Lexeme → Lexeme → Prop) : Ending → Ending → Prop
  | .finished, .finished => True
  | .stopped e, .stopped e' => place e.site e'.site ∧ e'.cause = e.cause
  | .failed .outOfFuel, .failed .outOfFuel => True
  | .exhausted, .exhausted => True
  | _, _ => False

/-- The run has come to the end of the host's stack, in a call or outside of any. -/
def Ending.isStackEnd : Ending → Bool
  | .stopped ⟨_, .stackOverflow⟩ | .exhausted => true
  | _ => false

theorem isStackEnd_ending (stop : Stop) : (Session.ending stop).isStackEnd = stop.isStackEnd := by
  cases stop with
  | outOfStack => rfl
  | fault fault =>
    cases fault with
    | runtime error =>
      obtain ⟨site, cause⟩ := error
      cases cause <;> rfl
    | _ => rfl

theorem Ending.Like.eq {e e' : Ending} (h : Ending.Like Eq e e') : e' = e := by
  unfold Ending.Like at h
  split at h
  next => rfl
  next error error' =>
    obtain ⟨site, cause⟩ := error
    obtain ⟨rfl, rfl⟩ := h
    rfl
  next => rfl
  next => rfl
  next => exact h.elim

/-! ## How a run executes its program -/

variable {host : Host} {s s' : Session} {source : String} {p p' : List Stmt} {D D' : Distances} {log log' : List Notice}
  {m m' : Machine}

open Session

theorem execute_ok {u : Unit} (s : Session) (log : List Notice)
    (h : p.forM (Eval.topLevel host s.interactive) (s.machine.load D) = .ok u m) :
    s.execute host log p D =
      (⟨.finished, m.output, log⟩, idle { m with current := globalEnv } s.nextSlot s.interactive) := by
  obtain ⟨machine, nextSlot, interactive⟩ := s
  unfold execute Eval.interpret
  simp only [h]

theorem execute_error {stop : Stop} (s : Session) (log : List Notice)
    (h : p.forM (Eval.topLevel host s.interactive) (s.machine.load D) = .error stop m) :
    s.execute host log p D = (⟨Session.ending stop, m.output, log ++ stopNotices stop⟩,
      idle { m with current := globalEnv } s.nextSlot s.interactive) := by
  obtain ⟨machine, nextSlot, interactive⟩ := s
  unfold execute Eval.interpret
  simp only [h]

theorem runProgram_resolved (host : Host) (s : Session) (log : List Notice) (h : (resolve p).errors = []) :
    ∃ log', s.runProgram host log p = s.execute host log' p (resolve p).distances := by
  unfold runProgram
  simp only [h, List.isEmpty_nil, if_true]
  exact ⟨_, rfl⟩

/-- A text without errors of the scanner and the parser is resolved and executed. -/
theorem run_program (host : Host) (hl : (tokenize source).2 = [])
    (he : (parse (tokenize source).1 s.nextSlot).errors = []) :
    ∃ log, s.run host source =
      { s with nextSlot := (parse (tokenize source).1 s.nextSlot).nextSlot }.runProgram host log
        (parse (tokenize source).1 s.nextSlot).program := by
  unfold run
  simp only [hl, he, List.append_nil, List.isEmpty_nil, if_true]
  exact ⟨_, rfl⟩

theorem run_runs (host : Host) (h : s.Runs source p) :
    ∃ log, s.run host source =
      { s with nextSlot := (parse (tokenize source).1 s.nextSlot).nextSlot }.execute host log p
        (resolve p).distances := by
  obtain ⟨log, hlog⟩ := run_program host h.lexical h.errors
  rw [hlog, h.program]
  exact runProgram_resolved host _ log h.resolved

/-- Up to the run of its program, what a text comes to depends on the next slot alone. -/
theorem run_decided (source : String) (n : Int) :
    (∃ log errors, ∀ host (s : Session), s.nextSlot = n → s.run host source =
      { s with nextSlot := (parse (tokenize source).1 n).nextSlot }.reject log errors) ∨
    ∃ p log, ∀ host (s : Session), s.nextSlot = n → s.Runs source p ∧ s.run host source =
      { s with nextSlot := (parse (tokenize source).1 n).nextSlot }.execute host log p (resolve p).distances := by
  let errors := (tokenize source).2 ++ (parse (tokenize source).1 n).errors
  let p := (parse (tokenize source).1 n).program
  let log := [Notice.scanned (tokenize source).1.count p.length]
  let resolved := log ++ [.resolved (resolve p).distances.size (resolve p).errors.length]
  by_cases he : errors = []
  · obtain ⟨hl, hp⟩ := List.append_eq_nil_iff.mp he
    by_cases hr : (resolve p).errors = []
    · refine Or.inr ⟨p, resolved, fun host s hn => ?_⟩
      subst hn
      refine ⟨⟨hl, hp, rfl, hr⟩, ?_⟩
      simp only [run, runProgram, hl, hp, p, hr, List.append_nil, List.isEmpty_nil, if_true, resolved, log]
    · have hne : (resolve p).errors.isEmpty = false := by simpa using hr
      refine Or.inl ⟨resolved, (resolve p).errors, fun host s hn => ?_⟩
      subst hn
      simp only [run, runProgram, hl, hp, p, hne, List.append_nil, List.isEmpty_nil, if_true, resolved, log]
      rfl
  · have hne : errors.isEmpty = false := by simpa using he
    refine Or.inl ⟨log, errors, fun host s hn => ?_⟩
    subst hn
    simp only [run, errors] at hne ⊢
    rw [hne]
    rfl

/-! ## A program of a session -/

theorem merge_outside {x : Int} (hx : x ∉ Stmt.slotsAll p) (D : Distances) :
    (D.merge (resolve p).distances)[x]? = D[x]? := by
  rw [Distances.merge_get?, resolve_outside hx, Option.none_or]

/-- The programs of a session up to and with the one that a text runs. -/
abbrev worldOf (host : Host) (interactive : Bool) (before : List String) (source : String) : World :=
  world host interactive (before ++ [source]) (before ++ [source])

/-- The machine on which a program begins is in order. -/
structure Begun (host : Host) (w : World) (s : Session) (source : String) (p : List Stmt) : Prop where
  accepted : Accepted p
  ranged : Ranged s.nextSlot (parse (tokenize source).1 s.nextSlot).nextSlot (Stmt.slotsAll p)
  known : w.known p
  inv : Inv w (s.machine.load (resolve p).distances)
  tabled : Tabled w (s.machine.load (resolve p).distances)
  slots : ∀ q, w.known q → ∀ x ∈ Stmt.slotsAll q, x < (parse (tokenize source).1 s.nextSlot).nextSlot
  current : s.machine.current = globalEnv
  fresh : ∀ x, s.nextSlot ≤ x → s.machine.distances[x]? = none
  safe : Safe w (p.forM (Eval.topLevel host s.interactive)) (s.machine.load (resolve p).distances) fun _ _ => True

/-- An accepted text begins with what its world says. -/
theorem begun {interactive : Bool} {before : List String} (hruns : (after host interactive before).Runs source p) :
    Begun host (worldOf host interactive before source) (after host interactive before) source p := by
  have hsplit : before ++ [source] = before ++ ([source] : List String) := rfl
  have hready : Ready (world host interactive (before ++ [source]) before) (after host interactive before) :=
    ready_after hsplit
  have hfits := fits_begins hready hruns
  obtain ⟨hp, hranged⟩ := accepted_of_runs hruns
  have hnext : Ready (worldOf host interactive before source) (after host interactive (before ++ [source])) :=
    ready_run rfl hready
  have hslots := hnext.slots
  rw [after_snoc, run_nextSlot] at hslots
  exact ⟨hp, hranged, ⟨before, source, [], rfl, hruns⟩, hfits.inv, hfits.tabled, hslots, hready.current, hready.fresh,
    sound_begins hready rfl hruns⟩

/-! ## Runs of alike programs -/

variable {Λ : Likeness} {before : Array String} {π : Pairing} {w : World}

/-- Two runs are seen to do the same, as far as the likeness goes. -/
structure LikeRuns (Λ : Likeness) (before : Array String) (done done' : Report × Session) : Prop where
  ending : Ending.Like Λ.place done.1.ending done'.1.ending
  output : done'.1.output = before ++ done.1.output
  machines : ∃ π, Kin Λ #[] π done.2.machine done'.2.machine

theorem LikeRuns.globals {done done' : Report × Session} (h : LikeRuns Λ before done done') :
    done'.2.machine.globals = done.2.machine.globals := by
  obtain ⟨π, hk⟩ := h.machines
  exact hk.sameGlobals

/-- A machine between two runs, with its output taken off. -/
abbrev Machine.atRest (m : Machine) : Machine := { m with current := globalEnv, output := #[] }

theorem Kin.atRest (h : Kin Λ before π m m') : Kin Λ #[] π m.atRest m'.atRest := by
  have hk : Kin Λ #[] π m.atRest m'.atRest ∧ Paired π m m' π m.atRest m'.atRest :=
    h.others rfl rfl rfl rfl rfl rfl rfl rfl h.instances (Array.empty_append ..).symm h.ticks
  exact hk.1

theorem like_of_expected {stop stop' : Stop} (h : stop.Like Λ stop') (he : stop.IsExpected) :
    Ending.Like Λ.place (Session.ending stop) (Session.ending stop') := by
  cases stop <;> cases stop'
  case fault.fault fault fault' =>
    have hlike : fault.Like Λ fault' := h
    rcases he with rfl | ⟨e, rfl⟩
    · cases fault' <;> first | exact hlike.elim | exact trivial
    · cases fault' <;> first | exact hlike.elim | exact hlike
  case outOfStack.outOfStack => trivial
  all_goals exact h.elim

/-- Alike programs are seen to do the same; if the second one may go deeper, unless it comes to
the end of the stack. -/
theorem execute_alike (s s' : Session) (hk : Kin Λ before π (s.machine.load D) (s'.machine.load D'))
    (hc : s.machine.current = globalEnv ∧ s'.machine.current = globalEnv) (hi : s'.interactive = s.interactive)
    (hb : s.interactive = true → ¬ Λ.boxes) (h : Alike Λ [] (.stmts p) (.stmts p'))
    (hsafe : Safe w (p.forM (Eval.topLevel host s.interactive)) (s.machine.load D) fun _ _ => True)
    (log log' : List Notice) (hroom : Λ.deeper → (s'.execute host log' p' D').1.ending.isStackEnd = false) :
    LikeRuns Λ before (s.execute host log p D) (s'.execute host log' p' D') := by
  have hrun := together_program host s.interactive hb h π _ _ hk hc
  cases hrun with
  | of_ok hm hm' hpassed =>
    rw [execute_ok s log hm, execute_ok s' log' (hi ▸ hm')]
    exact ⟨trivial, hpassed.kin.output, ⟨_, hpassed.kin.atRest⟩⟩
  | of_stops hm hm' hpassed hlike =>
    rw [execute_error s log hm, execute_error s' log' (hi ▸ hm')]
    exact ⟨like_of_expected hlike (hsafe.error hm).2, hpassed.kin.output, ⟨_, hpassed.kin.atRest⟩⟩
  | escaped hd hm' hend =>
    have hno := hroom hd
    rw [execute_error s' log' (hi ▸ hm'), isStackEnd_ending, hend] at hno
    cases hno

end Lox
