/-
  Lox.Proofs.Run.Echoed — a prompt runs a text as a script does, and behind each statement
  of the text itself that has a value for it to show it prints that value, as long as the
  script does not come to the end of the stack (`prompt_echoes`).

  A prompt takes expression statements another way, and reads a variable that has just been
  declared again. Neither does anything else to the machine, and what it has printed is not
  seen by what comes next (`Blind`); so from statement to statement, and from text to text,
  the two machines differ in what they have printed alone. Between two texts that has been
  taken off.

  The other way takes a level of the stack less. Where the script has the room for an
  expression, so has the prompt; but a program that calls without end makes a call more at
  a prompt (`prompt_seen`).
-/

import Lox.Proofs.Run.Endless
import Lox.Proofs.Run.Outlasts
import Mathlib.Data.List.Induction

namespace Lox

open Eval

variable {host : Host} {sources : List String} {s : Stmt} {ss : List Stmt} {m m' : Machine} {u : Unit} {stop : Stop}

/-! ## What a prompt adds -/

/-- The lines that a prompt prints behind a statement that has completed. -/
inductive Echo (host : Host) (m : Machine) : Stmt → Machine → Array String → Prop
  /-- The value of the expression. -/
  | value {e : Expr} {done : Completion} {v : Value} {m' : Machine} :
      stmt host (invoke host host.calls) host.stack (.expr e) m = .ok done m' →
      expr (invoke host host.calls) host.stack e m = .ok v m' → Echo host m (.expr e) m' #[m'.display v]
  /-- The value of the variable, which is that of its initializer. -/
  | declared {name : Lexeme} {init : Option Expr} {done : Completion} {v : Value} {m₁ m' : Machine} :
      exprOpt (invoke host host.calls) host.stack init m = .ok v m₁ →
      stmt host (invoke host host.calls) host.stack (.var name init) m = .ok done m' →
      m'.store.cell globalEnv name.text = some v → Echo host m (.var name init) m' #[m'.display v]
  | silent {s : Stmt} {done : Completion} {m' : Machine} : (∀ e, s ≠ .expr e) → (∀ name init, s ≠ .var name init) →
      stmt host (invoke host host.calls) host.stack s m = .ok done m' → Echo host m s m' #[]

/-- What a script and what a prompt prints of the statements that are left of a program. -/
inductive Echoed (host : Host) : Machine → List Stmt → Array String → Array String → Prop
  | done {m : Machine} : Echoed host m [] #[] #[]
  /-- The statement fails, and what it has printed by then is all. -/
  | stopped {m m' : Machine} {s : Stmt} {rest : List Stmt} {stop : Stop} {printed : Array String} :
      stmt host (invoke host host.calls) host.stack s m = .error stop m' → m'.output = m.output ++ printed →
      Echoed host m (s :: rest) printed printed
  /-- The prompt shows what it has to show right behind what the statement has printed. -/
  | completed {m m' : Machine} {s : Stmt} {rest : List Stmt} {printed echo script prompt : Array String} :
      Echo host m s m' echo → m'.output = m.output ++ printed → Echoed host m' rest script prompt →
      Echoed host m (s :: rest) (printed ++ script) (printed ++ echo ++ prompt)

/-! ## Room -/

theorem levels_le_two (v : Value) : v.textLevels ≤ 2 := by
  unfold Value.textLevels
  split <;> omega

/-- In one level there is room for literals alone. -/
theorem expr_one {enter : Enter} {e : Expr} (h : ∀ value, e ≠ .literal value) (m : Machine) :
    expr enter 1 e m = .error .outOfStack m := by
  have hpart (part : Expr) : expr enter 0 part m = .error .outOfStack m := by
    rw [expr_zero]
    rfl
  cases e with
  | literal value => exact absurd rfl (h value)
  | group inner => exact hpart inner
  | unary _ part | binary part _ _ | logical part _ _ | ternary part _ _ | assign _ part | get part _ | set part _ _ =>
    exact bind_error (hpart part) _
  | ref | this | call | super => rfl

/-- Where a value has been come to, there is room for its text. -/
theorem levels_of_expr {enter : Enter} {room : Nat} {e : Expr} {v : Value} (h : expr enter room e m = .ok v m') :
    v.textLevels ≤ room := by
  match room with
  | 0 =>
    rw [expr_zero] at h
    cases h
  | 1 =>
    by_cases he : ∃ value, e = .literal value
    · obtain ⟨value, rfl⟩ := he
      cases h
      cases value <;> exact Nat.le_refl 1
    · rw [expr_one fun value hvalue => he ⟨value, hvalue⟩] at h
      cases h
  | room + 2 => exact Nat.le_trans (levels_le_two v) (Nat.le_add_left 2 room)

theorem echo_behind {room : Nat} {v : Value} (h : v.textLevels + 1 ≤ room) (m : Machine) (lines : Array String) :
    echo room v { m with output := lines } = .ok () { m with output := lines ++ #[m.display v] } := by
  obtain ⟨left, rfl⟩ := Nat.exists_eq_add_of_le' (Nat.le_of_add_left_le h)
  show needs v.textLevels left (do print ((← get).display v)) { m with output := lines } = _
  rw [needs_of_le (Nat.le_of_succ_le_succ h)]
  show EStateM.Result.ok () { m with output := lines.push (m.display v) } = _
  rw [Array.push_eq_append]

/-- An expression that does not come to the end of the stack does the same with a level more. -/
theorem expr_level (host : Host) (room : Nat) (e : Expr) (m : Machine) :
    expr (invoke host host.calls) (room + 1) e m = expr (invoke host host.calls) room e m ∨
      ∃ stop m', expr (invoke host host.calls) room e m = .error stop m' ∧ stop.isStackEnd = true := by
  have hcalls : Both (Wider True) (Outlasts True) (invoke host host.calls) (invoke host host.calls) :=
    invoke_outlasts host host.calls host.stack (Nat.le_refl host.calls)
  have hwider : Wider True room (room + 1) := Or.inr ⟨trivial, Nat.le_succ room⟩
  rcases ((carried_outlasts True).expr hcalls e hwider).agrees m with hsame | ⟨stop, m', hstop, hyields, -⟩
  · exact Or.inl hsame
  · refine Or.inr ⟨stop, m', hstop, ?_⟩
    rcases hyields with hoverflow | ⟨-, rfl⟩
    · cases stop with
      | fault fault => exact hoverflow
      | outOfStack => rfl
    · rfl

/-- An expression that is left out or evaluated needs no more than one level more. -/
theorem exprOpt_level (host : Host) (room : Nat) (e : Option Expr) {v : Value}
    (h : exprOpt (invoke host host.calls) room e m = .ok v m') :
    exprOpt (invoke host host.calls) (room + 1) e m = .ok v m' := by
  cases e with
  | none => exact h
  | some e =>
    rcases expr_level host room e m with hsame | ⟨stop, m₁, hstop, -⟩
    · exact hsame.trans h
    · have hboth := h.symm.trans hstop
      cases hboth

/-! ## One statement -/

theorem topLevel_script (s : Stmt) :
    topLevel host false s = (do let _ ← stmt host (invoke host host.calls) host.stack s) := by
  cases s <;> rfl

theorem topLevel_prompt (he : ∀ e, s ≠ .expr e) (hv : ∀ name init, s ≠ .var name init) :
    topLevel host true s = topLevel host false s := by
  cases s with
  | expr e => exact absurd rfl (he e)
  | var name init => exact absurd rfl (hv name init)
  | _ => rfl

theorem of_topLevel_ok (h : topLevel host false s m = .ok u m') :
    ∃ done, stmt host (invoke host host.calls) host.stack s m = .ok done m' := by
  rw [topLevel_script] at h
  obtain ⟨done, m₁, hdone, hm⟩ := of_bind_ok h
  cases hm
  exact ⟨done, hdone⟩

theorem of_topLevel_error (h : topLevel host false s m = .error stop m') :
    stmt host (invoke host host.calls) host.stack s m = .error stop m' := by
  rw [topLevel_script] at h
  rcases of_bind_error h with hs | ⟨done, m₁, -, hdone⟩
  · exact hs
  · cases hdone

/-- An expression whose statement completes has a value at a prompt, and there is room to show it. -/
theorem prompt_value {e : Expr} {done : Completion}
    (h : stmt host (invoke host host.calls) host.stack (.expr e) m = .ok done m') :
    ∃ v, expr (invoke host host.calls) host.stack e m = .ok v m' ∧ v.textLevels + 1 ≤ host.stack := by
  obtain ⟨left, hleft, hdone⟩ := of_deeper_ok h
  obtain ⟨v, m₁, hv, hrest⟩ := of_bind_ok hdone
  cases hrest
  have hlevel := exprOpt_level host left (some e) hv
  rw [hleft]
  exact ⟨v, hlevel, Nat.succ_le_succ (levels_of_expr hv)⟩

/-- A variable of the program itself is a global one, and there is room to show its value. -/
theorem var_declared {name : Lexeme} {init : Option Expr} {done : Completion}
    (ho : Occurs host false sources ⟨host.calls, host.stack, .stmt (.var name init), m⟩) (hm : m.current = globalEnv)
    (h : stmt host (invoke host host.calls) host.stack (.var name init) m = .ok done m') :
    ∃ v m₁, exprOpt (invoke host host.calls) host.stack init m = .ok v m₁ ∧ m'.store.cell globalEnv name.text = some v ∧
      v.textLevels + 1 ≤ host.stack := by
  obtain ⟨left, hleft, hdone⟩ := of_deeper_ok h
  obtain ⟨v, m₁, hv, hrest⟩ := of_bind_ok hdone
  obtain ⟨u, m₂, hdefined, hend⟩ := of_bind_ok hrest
  obtain ⟨hneeds, hdefine⟩ := of_needs_ok hdefined
  cases hdefine
  cases hend
  have hcurrent : m₁.current = globalEnv := by
    rw [← final_ok hv, restores_exprOpt (restores_invoke host host.calls) init left m, hm]
  have hroom : v.textLevels ≤ left := by
    cases init with
    | none =>
      cases hv
      exact hneeds
    | some e => exact levels_of_expr hv
  have hsize : 0 < m₁.store.size := by
    obtain ⟨before, source, rest, hs, hf⟩ := occurs_fits ho
    cases init with
    | none =>
      cases hv
      exact hf.inv.globals.1
    | some e =>
      rw [hleft] at ho hf
      have hpart := (history host false sources (before ++ [source])).closed _ _ ho .init
      obtain ⟨-, hfits⟩ := fits_reaches (history host false sources (before ++ [source])) ho hf (.step .refl .init)
      exact (Safe.ok (sound (history host false sources (before ++ [source])) _ hpart hfits) hv).1.inv.globals.1
  refine ⟨v, m₁, hleft ▸ exprOpt_level host left init hv, ?_, hleft ▸ Nat.succ_le_succ hroom⟩
  show (m₁.store.define m₁.current name.text v).cell globalEnv name.text = some v
  rw [Store.cell_define, hcurrent, if_pos ⟨rfl, rfl, hsize⟩]

/-- A statement that completes at a prompt, behind any lines. -/
theorem prompt_completes (ho : Occurs host false sources ⟨host.calls, host.stack, .program false (s :: ss), m⟩)
    (hm : m.current = globalEnv) (h : topLevel host false s m = .ok u m') :
    ∃ printed echo, m'.output = m.output ++ printed ∧ Echo host m s m' echo ∧
      ∀ before, topLevel host true s { m with output := before } =
        .ok () { m' with output := before ++ printed ++ echo } := by
  obtain ⟨done, hdone⟩ := of_topLevel_ok h
  by_cases he : ∃ e, s = .expr e
  · obtain ⟨e, rfl⟩ := he
    obtain ⟨v, hv, hroom⟩ := prompt_value hdone
    obtain ⟨printed, houtput, hrun⟩ := (blind_expr host host.calls host.stack e).ok hv
    refine ⟨printed, #[m'.display v], houtput, .value hdone hv, fun before => ?_⟩
    show (expr (invoke host host.calls) host.stack e >>= fun v => Eval.echo host.stack v) _ = _
    rw [bind_ok (hrun before), echo_behind hroom]
  obtain ⟨printed, houtput, hrun⟩ := (blind_stmt host host.calls host.stack s).ok hdone
  by_cases hvar : ∃ name init, s = .var name init
  · obtain ⟨name, init, rfl⟩ := hvar
    have hpart := (history host false sources []).closed _ _ ho (.statement fun hf => by cases hf)
    obtain ⟨v, m₁, hv, hcell, hroom⟩ := var_declared hpart hm hdone
    refine ⟨printed, #[m'.display v], houtput, .declared hv hdone hcell, fun before => ?_⟩
    have hread (lines : Array String) :
        globalValue name.text { m' with output := lines } = .ok v { m' with output := lines } := by
      have hbound : (m'.store.values? globalEnv).bind (·.get? name.text) = some v := hcell
      show EStateM.Result.ok (((m'.store.values? globalEnv).bind (·.get? name.text)).getD .nil) _ = _
      rw [hbound]
      rfl
    show (stmt host (invoke host host.calls) host.stack (.var name init) >>= fun _ =>
      globalValue name.text >>= fun v => Eval.echo host.stack v) _ = _
    rw [bind_ok (hrun before), bind_ok (hread _), echo_behind hroom]
  · have hexpr : ∀ e, s ≠ .expr e := fun e h => he ⟨e, h⟩
    have hother : ∀ name init, s ≠ .var name init := fun name init h => hvar ⟨name, init, h⟩
    refine ⟨printed, #[], houtput, .silent hexpr hother hdone, fun before => ?_⟩
    rw [topLevel_prompt hexpr hother, topLevel_script, bind_ok (hrun before), Array.append_empty]
    rfl

/-- An expression whose statement fails with room left fails at a prompt. -/
theorem prompt_fails {e : Expr} (h : stmt host (invoke host host.calls) host.stack (.expr e) m = .error stop m')
    (hroom : stop.isStackEnd = false) : expr (invoke host host.calls) host.stack e m = .error stop m' := by
  cases hstack : host.stack with
  | zero =>
    rw [hstack, stmt_zero] at h
    cases h
    cases hroom
  | succ left =>
    rw [hstack] at h
    rcases of_bind_error h with hexpr | ⟨v, m₁, -, hdone⟩
    · rcases expr_level host left e m with hsame | ⟨stop', m₁, hstop, hend⟩
      · exact hsame.trans hexpr
      · have hboth := hexpr.symm.trans hstop
        cases hboth
        rw [hroom] at hend
        cases hend
    · cases hdone

/-- A statement that fails at a prompt with room left, behind any lines: there is nothing to show. -/
theorem prompt_stops (h : topLevel host false s m = .error stop m') (hroom : stop.isStackEnd = false) :
    ∃ printed, m'.output = m.output ++ printed ∧
      ∀ before, topLevel host true s { m with output := before }
        = .error stop { m' with output := before ++ printed } := by
  have hstop := of_topLevel_error h
  by_cases he : ∃ e, s = .expr e
  · obtain ⟨e, rfl⟩ := he
    obtain ⟨printed, houtput, hrun⟩ := (blind_expr host host.calls host.stack e).error (prompt_fails hstop hroom)
    exact ⟨printed, houtput, fun before => bind_error (hrun before) _⟩
  · obtain ⟨printed, houtput, hrun⟩ := (blind_stmt host host.calls host.stack s).error hstop
    refine ⟨printed, houtput, fun before => ?_⟩
    rw [topLevel_executed fun _ e h => he ⟨e, h⟩]
    exact bind_error (hrun before) _

/-! ## A program -/

/-- From the same machine, but for what has been printed, a prompt comes to the same machine, if
the script does not come to the end of the stack. -/
theorem prompt_program (ho : Occurs host false sources ⟨host.calls, host.stack, .program false ss, m⟩)
    (hm : m.current = globalEnv)
    (hroom : ∀ stop m', ss.forM (topLevel host false) m = .error stop m' → stop.isStackEnd = false)
    (before : Array String) : ∃ script prompt, Echoed host m ss script prompt ∧
      (final (ss.forM (topLevel host false)) m).output = m.output ++ script ∧
      ss.forM (topLevel host true) { m with output := before } =
        showing (before ++ prompt) (ss.forM (topLevel host false) m) := by
  induction ss generalizing m before with
  | nil => exact ⟨#[], #[], .done, (Array.append_empty ..).symm, by rw [Array.append_empty]; rfl⟩
  | cons s rest ih =>
    cases htop : topLevel host false s m with
    | ok u m₁ =>
      obtain ⟨printed, echo, houtput, hecho, hrun⟩ := prompt_completes ho hm htop
      have hm₁ : m₁.current = globalEnv := by
        obtain ⟨done, hdone⟩ := of_topLevel_ok htop
        rw [← final_ok hdone, restores_stmt (restores_invoke host host.calls) s host.stack m, hm]
      have hscript : (s :: rest).forM (topLevel host false) m = rest.forM (topLevel host false) m₁ := bind_ok htop _
      rw [hscript] at hroom
      obtain ⟨script, prompt, hrest, hfinal, hprompt⟩ :=
        ih ((history host false sources []).closed _ _ ho (.statements htop)) hm₁ hroom (before ++ printed ++ echo)
      refine ⟨printed ++ script, printed ++ echo ++ prompt, .completed hecho houtput hrest, ?_, ?_⟩
      · have hsame : final ((s :: rest).forM (topLevel host false)) m = final (rest.forM (topLevel host false)) m₁ :=
          final_bind_ok htop _
        rw [hsame, hfinal, houtput, Array.append_assoc]
      · calc (s :: rest).forM (topLevel host true) { m with output := before }
            = rest.forM (topLevel host true) { m₁ with output := before ++ printed ++ echo } := bind_ok (hrun before) _
          _ = showing (before ++ printed ++ echo ++ prompt) (rest.forM (topLevel host false) m₁) := hprompt
          _ = showing (before ++ (printed ++ echo ++ prompt)) ((s :: rest).forM (topLevel host false) m) := by
            rw [hscript]
            simp only [Array.append_assoc]
    | error stop m₁ =>
      have hscript : (s :: rest).forM (topLevel host false) m = .error stop m₁ := bind_error htop _
      obtain ⟨printed, houtput, hrun⟩ := prompt_stops htop (hroom stop m₁ hscript)
      refine ⟨printed, printed, .stopped (of_topLevel_error htop) houtput, ?_, ?_⟩
      · rw [final_error hscript, houtput]
      · rw [hscript]
        exact bind_error (hrun before) _

/-! ## Sessions -/

open Session

/-- Between two texts nothing printed is left on the machine. -/
theorem after_output (host : Host) (interactive : Bool) (sources : List String) :
    (after host interactive sources).machine.output = #[] := by
  have hrun (s : Session) (source : String) (h : s.machine.output = #[]) : (s.run host source).2.machine.output
    = #[] := by
    rcases run_cases host s source with ⟨-, -, hsession⟩ | ⟨p, m, -, hdone⟩
    · rw [hsession]
      exact h
    · rw [hdone.session]
  have hmore : ∀ s : Session, s.machine.output = #[] →
      (sources.foldl (fun s source => (s.run host source).2) s).machine.output = #[] := by
    induction sources with
    | nil => exact fun _ h => h
    | cons source rest ih => exact fun s h => ih _ (hrun s source h)
  exact hmore (.start interactive) rfl

/-- What a text comes to behind other texts, for a script and at a prompt. -/
structure EchoedRun (host : Host) (sources : List String) (source : String) (script prompt : Report × Session) :
    Prop where
  /-- The same errors, in the text or of the running program. -/
  ending : prompt.1.ending = script.1.ending
  notices : prompt.1.notices = script.1.notices
  /-- The same machine, so the same globals. -/
  session : prompt.2 = { script.2 with interactive := true }
  globals : prompt.2.machine.globals = script.2.machine.globals
  output : ((∃ errors, script.1.ending = .rejected errors) ∧ script.1.output = #[] ∧ prompt.1.output = #[]) ∨
    ∃ p, (after host false sources).Runs source p ∧
      Echoed host ((after host false sources).machine.load (resolve p).distances) p script.1.output prompt.1.output

/-- One text, run at the prompt and as a script from machines that are the same but for their
output. -/
theorem run_echoed (source : String)
    (h : after host true sources = { after host false sources with interactive := true })
    (hroom : ((after host false sources).run host source).1.ending.isStackEnd = false) :
    EchoedRun host sources source ((after host false sources).run host source)
      ((after host true sources).run host source) := by
  have hmode : (after host false sources).interactive = false := after_interactive host false sources
  have hslot : (after host true sources).nextSlot = (after host false sources).nextSlot := by rw [h]
  rcases run_decided source (after host false sources).nextSlot with ⟨log, errors, hrun⟩ | ⟨p, log, hrun⟩
  · rw [hrun host _ hslot, hrun host _ rfl, h]
    exact ⟨rfl, rfl, rfl, rfl, Or.inl ⟨⟨_, rfl⟩, rfl, rfl⟩⟩
  obtain ⟨hruns, hscript⟩ := hrun host (after host false sources) rfl
  obtain ⟨-, hprompt⟩ := hrun host (after host true sources) hslot
  let m := (after host false sources).machine.load (resolve p).distances
  have ho : Occurs host false (sources ++ [source]) ⟨host.calls, host.stack, .program false p, m⟩ := by
    refine ⟨sources, source, [], p, rfl, hruns, ?_⟩
    rw [Session.begins, hmode]
    exact .refl
  have hends : ∀ stop m', p.forM (topLevel host false) m = .error stop m' → stop.isStackEnd = false :=
    fun stop m' hstop => by
    rw [hscript, execute_error _ log (hmode.symm ▸ hstop), isStackEnd_ending] at hroom
    exact hroom
  have hbare : { m with output := #[] } = m := by rw [← after_output host false sources]; rfl
  obtain ⟨script, prompt, hechoed, hfinal, hsame⟩ :=
    prompt_program ho (interpreted_after host false sources).current hends #[]
  have hprinted : (final (p.forM (topLevel host false)) m).output = script := by
    rw [hfinal, ← hbare, Array.empty_append]
  rw [hbare, Array.empty_append] at hsame
  rw [hscript, hprompt, h]
  cases hp : p.forM (topLevel host false) m with
  | ok u m₁ =>
    rw [final_ok hp] at hprinted
    rw [hp] at hsame
    rw [execute_ok _ log (hmode.symm ▸ hp), execute_ok _ log hsame]
    exact ⟨rfl, rfl, rfl, rfl, Or.inr ⟨p, hruns, hprinted ▸ hechoed⟩⟩
  | error stop m₁ =>
    rw [final_error hp] at hprinted
    rw [hp] at hsame
    rw [execute_error _ log (hmode.symm ▸ hp), execute_error _ log hsame]
    exact ⟨rfl, rfl, rfl, rfl, Or.inr ⟨p, hruns, hprinted ▸ hechoed⟩⟩

/-- None of the texts brings the script that runs them to the end of the stack. -/
def WithinStack (host : Host) (texts : List String) : Prop :=
  ∀ before source rest, texts = before ++ source :: rest →
    ((after host false before).run host source).1.ending.isStackEnd = false

theorem withinStack_nil (host : Host) : WithinStack host [] := fun before _ _ h => by
  cases before <;> cases h

/-- The last text is one more that stays within the stack. -/
theorem withinStack_snoc {texts : List String} {source : String} : WithinStack host (texts ++ [source]) ↔
    WithinStack host texts ∧ ((after host false texts).run host source).1.ending.isStackEnd = false := by
  constructor
  · refine fun h => ⟨fun before text rest hs => h before text (rest ++ [source]) ?_, h texts source [] rfl⟩
    rw [hs, List.append_assoc]
    rfl
  · rintro ⟨hbefore, hlast⟩ before text rest hs
    rcases List.eq_nil_or_concat rest with rfl | ⟨rest, last, rfl⟩
    · obtain ⟨rfl, hsource⟩ := List.append_inj' hs rfl
      cases hsource
      exact hlast
    · refine hbefore before text rest ?_
      have hs' : texts ++ [source] = (before ++ text :: rest) ++ [last] := by simpa using hs
      exact (List.append_inj' hs' rfl).1

theorem prompt_after (h : WithinStack host sources) :
    after host true sources = { after host false sources with interactive := true } := by
  induction sources using List.reverseRecOn with
  | nil => rfl
  | append_singleton texts source ih =>
    obtain ⟨hbefore, hlast⟩ := withinStack_snoc.mp h
    rw [after_snoc, after_snoc]
    exact (run_echoed source (ih hbefore) hlast).session

/-- The slots are counted alike in both modes. -/
theorem prompt_nextSlot (host : Host) (sources : List String) :
    (after host true sources).nextSlot = (after host false sources).nextSlot := by
  induction sources using List.reverseRecOn with
  | nil => rfl
  | append_singleton texts source ih => rw [after_snoc, after_snoc, run_nextSlot, run_nextSlot, ih]

/-- What is wrong with a text depends on the next slot alone. -/
theorem run_diagnostics {s s' : Session} (source : String) (h : s'.nextSlot = s.nextSlot) :
    (s'.run host source).1.diagnostics = (s.run host source).1.diagnostics := by
  have hexecuted (s : Session) (log : List Notice) (p : List Stmt) (D : Distances) :
      (s.execute host log p D).1.diagnostics = [] := by
    cases hp : p.forM (topLevel host s.interactive) (s.machine.load D) with
    | ok u m => rw [execute_ok s log hp]; rfl
    | error stop m =>
      rw [execute_error s log hp]
      cases stop with
      | outOfStack => rfl
      | fault fault => cases fault <;> rfl
  rcases run_decided source s.nextSlot with ⟨log, errors, hrun⟩ | ⟨p, log, hrun⟩
  · rw [hrun host s' h, hrun host s rfl]
    rfl
  · rw [(hrun host s' h).2, (hrun host s rfl).2, hexecuted, hexecuted]

/-- Whatever texts have run, the next one has the same errors for a script and at a prompt. If
none has brought the script to the end of the stack, it comes to the same, and the lines that
the prompt prints are those of the script with the values shown between them. -/
theorem prompt_echoes (host : Host) (sources : List String) (source : String) :
    ((after host true sources).run host source).1.diagnostics
      = ((after host false sources).run host source).1.diagnostics ∧
    (WithinStack host (sources ++ [source]) →
      EchoedRun host sources source ((after host false sources).run host source)
        ((after host true sources).run host source)) := by
  refine ⟨run_diagnostics source (prompt_nextSlot host sources), fun h => ?_⟩
  obtain ⟨hbefore, hlast⟩ := withinStack_snoc.mp h
  exact run_echoed source (prompt_after hbefore) hlast

/-- A value that is shown, in front of an error. -/
theorem prompt_echoes_negation :
    ((after (.ofClock fun _ => 0) true ["var a = true;"]).run (.ofClock fun _ => 0) "a; -nil;").1.diagnostics =
      ((after (.ofClock fun _ => 0) false ["var a = true;"]).run (.ofClock fun _ => 0) "a; -nil;").1.diagnostics ∧
    WithinStack (.ofClock fun _ => 0) ["var a = true;", "a; -nil;"] ∧
    EchoedRun (.ofClock fun _ => 0) ["var a = true;"] "a; -nil;"
      ((after (.ofClock fun _ => 0) false ["var a = true;"]).run (.ofClock fun _ => 0) "a; -nil;")
      ((after (.ofClock fun _ => 0) true ["var a = true;"]).run (.ofClock fun _ => 0) "a; -nil;") := by
  have hfirst : ((after (.ofClock fun _ => 0) false []).run (.ofClock fun _ => 0) "var a = true;").1.ending.isStackEnd
    = false := by
    decide +kernel
  have hsecond : ((after (.ofClock fun _ => 0) false ["var a = true;"]).run (.ofClock fun _ => 0)
      "a; -nil;").1.ending.isStackEnd = false := by
    decide +kernel
  generalize Host.ofClock (fun _ => 0) = host at hfirst hsecond ⊢
  have hbefore : WithinStack host ([] ++ ["var a = true;"]) := withinStack_snoc.mpr ⟨withinStack_nil host, hfirst⟩
  have hwithin : WithinStack host (["var a = true;"] ++ ["a; -nil;"]) := withinStack_snoc.mpr ⟨hbefore, hsecond⟩
  obtain ⟨hdiagnostics, hechoed⟩ := prompt_echoes host ["var a = true;"] "a; -nil;"
  exact ⟨hdiagnostics, hwithin, hechoed hwithin⟩

/-- Where nothing is shown, a script and a prompt print the same. -/
theorem Echoed.silent {routine : Routine} {e : Expr} {script prompt : Array String} {lines : Nat}
    (hstack : 2 ≤ host.stack) (h : Echoed host m [.fun_ routine, .expr e] script prompt)
    (hstops : Stops (topLevel host false (.expr e)) (m.declaring routine) lines) : prompt = script := by
  cases h with
  | stopped => rfl
  | completed hecho houtput hrest =>
    cases hecho with
    | silent _ _ hdone =>
      have hdeclared := topLevel_fun false hstack routine m
      rw [topLevel_script, bind_ok hdone] at hdeclared
      cases hdeclared
      cases hrest with
      | stopped => rw [Array.append_empty]
      | completed hecho' =>
        cases hecho' with
        | value hvalue =>
          obtain ⟨stop, m₁, hstop, -⟩ := hstops
          rw [topLevel_script, bind_ok hvalue] at hstop
          cases hstop
        | silent hexpr => exact absurd rfl (hexpr e)

/-- A function that calls itself without end: a script prints 1427 lines until the stack comes to
its end, a prompt 1428, and nothing is shown. -/
theorem prompt_seen :
    ((after (.ofClock fun _ => 0) false []).run (.ofClock fun _ => 0) endlessText).1.output.size = 1427 ∧
    ((after (.ofClock fun _ => 0) true []).run (.ofClock fun _ => 0) endlessText).1.output.size = 1428 ∧
    ¬ EchoedRun (.ofClock fun _ => 0) [] endlessText
      ((after (.ofClock fun _ => 0) false []).run (.ofClock fun _ => 0) endlessText)
      ((after (.ofClock fun _ => 0) true []).run (.ofClock fun _ => 0) endlessText) := by
  have hscript := endless_lines (.ofClock fun _ => 0) false (by decide) (by decide) (by decide)
  have hprompt := endless_lines (.ofClock fun _ => 0) true (by decide) (by decide) (by decide)
  have hdiffer : endlessLines (Host.ofClock fun _ => 0).stack 2 true ≠ endlessLines (Host.ofClock fun _ => 0).stack
    2 false := by
    decide
  refine ⟨hscript, hprompt, fun h => ?_⟩
  rcases h.output with ⟨-, hnone, -⟩ | ⟨p, hruns, hechoed⟩
  · rw [hnone] at hscript
    cases hscript
  · have hp : p = endlessProgram endlessLoop := hruns.program.symm.trans (endless_runs _ false).program
    subst hp
    have hcall : Stops (topLevel (.ofClock fun _ => 0) false (callOf ⟨⟨"f", 1⟩, 1⟩ ⟨")", 1⟩))
        ((Machine.start.load (resolve (endlessProgram endlessLoop)).distances).declaring
          (endlessRoutine ⟨"f", 1⟩ endlessLoop)) (endlessLines (Host.ofClock fun _ => 0).stack 2 false) := by
      exact endless_call_stops (leads_loop (by decide) endlessCall (some (.literal .nil))) rfl rfl rfl
        Nat.zero_lt_one rfl rfl
        (by decide) (by decide)
    have hsame := hechoed.silent (by decide) hcall
    exact hdiffer (hprompt.symm.trans ((congrArg Array.size hsame).trans hscript))

/-- What is declared is shown, and what an expression comes to, but nothing of a block. -/
example : ((start true).run (.ofClock fun _ => 0) "var a = true; \x7b a; print a; \x7d a = nil;").1.output =
    #["true", "true", "nil"] := by
  decide +kernel

end Lox
