/-
  Lox.Proofs.Alike.Traces — texts that are rejected leave no trace (`rejected_untraced`):
  with them taken out, a session shows the same of every other text.

  What a rejected text leaves are the slots it took. So the two sessions number the same
  references differently, in their programs and in their tables, but machine for machine
  they are kin (`Twins`): alike texts have references with slots that are taken in the two
  sessions and find the same there (`taken`). A text that is accepted by one session is
  accepted by the other, with its slots shifted (`Twins.accepted`).
-/

import Lox.Proofs.Alike.Renamed
import Lox.Proofs.Alike.Runs
import Lox.Proofs.Grammar.Shifted
import Lox.Proofs.Run.Numbering
import Lox.Proofs.Scope.Shifted

namespace Lox

/-! ## What a session shows -/

def Ending.isRejected : Ending → Bool
  | .rejected _ => true
  | _ => false

namespace Session

/-- What is seen of some texts that run one after the other. -/
def shows (host : Host) (s : Session) : List String → List Shown
  | [] => []
  | source :: rest => shown (s.run host source) :: shows host (s.run host source).2 rest

/-- The texts that are not rejected when all of them run one after the other. -/
def accepted (host : Host) (s : Session) : List String → List String
  | [] => []
  | source :: rest =>
    let others := accepted host (s.run host source).2 rest
    if (s.run host source).1.ending.isRejected then others else source :: others

end Session

variable {host : Host} {interactive : Bool} {done done' : List String} {source : String} {s s' : Session}
  {p : List Stmt}

open Session

/-- A text that runs no program is rejected, and prints nothing. -/
theorem rejected_of_runs (host : Host) (h : ∀ p, ¬ s.Runs source p) :
    (s.run host source).1.ending.isRejected = true ∧ (s.run host source).1.output = #[] := by
  unfold run
  generalize hp : parse (tokenize source).1 s.nextSlot = parsed
  simp only [hp]
  split
  next he =>
    obtain ⟨hlexical, hparse⟩ := List.append_eq_nil_iff.mp (List.isEmpty_iff.mp he)
    have hresolved : (resolve parsed.program).errors.isEmpty = false := by
      rw [← Bool.not_eq_true, List.isEmpty_iff]
      exact fun hr => h parsed.program ⟨hlexical, hp ▸ hparse, hp ▸ rfl, hr⟩
    unfold runProgram
    simp only [hresolved]
    exact ⟨rfl, rfl⟩
  next => exact ⟨rfl, rfl⟩

/-- A text that runs a program is not rejected. -/
theorem accepted_of_executes (host : Host) (h : s.Runs source p) : (s.run host source).1.ending.isRejected = false := by
  obtain ⟨log, hrun⟩ := run_runs host h
  obtain ⟨m, hm⟩ := execute_executed host { s with nextSlot := (parse (tokenize source).1 s.nextSlot).nextSlot } log p
  rw [hrun]
  rcases hm.ending with ⟨u, -, he⟩ | ⟨stop, -, he⟩
  · rw [he]
    rfl
  · rw [he]
    cases stop with
    | outOfStack => rfl
    | fault fault => cases fault <;> rfl

/-! ## Two sessions -/

/-- References whose slots are taken, and that find the same. -/
def taken (n n' : Int) (D D' : Distances) : Likeness where
  place := Eq
  reference ss r r' := r.slot < n ∧ r'.slot < n' ∧ SameDistance D D' ss r r'
  boxes := False
  deeper := False
  deeper_of_boxes := id

/-- Sessions that have executed the same texts, one of them with slots of its own. -/
structure Twins (s s' : Session) : Prop where
  machines : ∃ π, Kin (taken s.nextSlot s'.nextSlot s.machine.distances s'.machine.distances) #[] π s.machine s'.machine
  interactive : s'.interactive = s.interactive

/-- More slots are taken. -/
theorem Twins.skip {n : Int} (h : Twins s s') (hn : s.nextSlot ≤ n) : Twins { s with nextSlot := n } s' := by
  obtain ⟨⟨π, hk⟩, hi⟩ := h
  have hmore : ∀ ss r r', (taken s.nextSlot s'.nextSlot s.machine.distances s'.machine.distances).reference ss r r' →
      (taken n s'.nextSlot s.machine.distances s'.machine.distances).reference ss r r' :=
    fun ss r r' hr => ⟨Int.lt_of_lt_of_le hr.1 hn, hr.2⟩
  exact ⟨⟨π, hk.relike (fun _ _ h => h) hmore id id fun ss r r' hr => hr.2.2⟩, hi⟩

/-! ## A text that both accept -/

/-- References of the program itself. -/
def own (p : List Stmt) : Likeness where
  place := Eq
  reference ss r r' := r.slot ∈ Stmt.slotsAll p ∧ r'.slot = r.slot ∧
    SameDistance (resolve p).distances (resolve p).distances ss r r'
  boxes := False
  deeper := False
  deeper_of_boxes := id

theorem alike_own (hp : Accepted p) : Alike (own p) [] (.stmts p) (.stmts p) := by
  have hallows : (own p).Allows p := ⟨fun _ => rfl, fun _ _ _ hm hs h => ⟨hm, hs, h⟩⟩
  exact alike_self hallows hp .root (renames_stmts p (noneChosen_map []))

/-- In another session a text runs the same program, with slots shifted. -/
theorem runs_shifted (h : s.Runs source p) (s' : Session) :
    s'.Runs source ((Shift.bySlots (s'.nextSlot - s.nextSlot)).stmts p) ∧
      (parse (tokenize source).1 s'.nextSlot).nextSlot =
        (parse (tokenize source).1 s.nextSlot).nextSlot + (s'.nextSlot - s.nextSlot) := by
  have hparse := parse_shift (.bySlots (s'.nextSlot - s.nextSlot)) (tokenize source).1 s.nextSlot
  rw [Shift.tokens_bySlots, show s.nextSlot + (Shift.bySlots (s'.nextSlot - s.nextSlot)).slots = s'.nextSlot from
    (by show s.nextSlot + (s'.nextSlot - s.nextSlot) = _; omega)] at hparse
  rw [hparse]
  refine ⟨⟨h.lexical, ?_, ?_, ?_⟩, rfl⟩
  · rw [hparse]
    simp [Parsed.shift, h.errors]
  · rw [hparse, ← h.program]
    rfl
  · rw [(resolve_shift _ p).1, h.resolved]
    rfl

/-- The program of a text is alike in both sessions, and its references find the same. -/
theorem alike_shifted {w w' : World} {δ : Int} (hb : Begun host w s source p)
    (hb' : Begun host w' s' source ((Shift.bySlots δ).stmts p)) (hδ : s'.nextSlot = s.nextSlot + δ)
    {n n' : Int} (hn : ∀ x ∈ Stmt.slotsAll p, x < n ∧ x + δ < n') :
    Alike (taken n n' (s.machine.distances.merge (resolve p).distances)
        (s'.machine.distances.merge (resolve ((Shift.bySlots δ).stmts p)).distances)) []
      (.stmts p) (.stmts ((Shift.bySlots δ).stmts p)) := by
  refine Alike.shift (.bySlots δ) (alike_own hb.accepted) (fun a a' h => ?_) (fun ss r r' hr => ?_) id id
  · rw [Shift.lexeme_bySlots]
    exact h
  · obtain ⟨hm, hs, hsame⟩ := hr
    have hslot : ((Shift.bySlots δ).reference r').slot = r.slot + δ := congrArg (· + δ) hs
    have hname : ((Shift.bySlots δ).reference r').name = r'.name := Shift.lexeme_bySlots δ r'.name
    obtain ⟨hlt, hlt'⟩ := hn r.slot hm
    refine ⟨hlt, by rw [hslot]; exact hlt', ?_⟩
    have hlow := (hb.ranged.2.2 r.slot hm).1
    have hentry := (resolve_shift (.bySlots δ) p).2 r.slot
    unfold SameDistance at hsame ⊢
    rw [hs] at hsame
    rw [hname, hslot, Distances.merge_get?, Distances.merge_get?, hb.fresh r.slot hlow, hb'.fresh
      (r.slot + δ) (by omega),
      Option.or_none, Option.or_none, show r.slot + δ = r.slot + (Shift.bySlots δ).slots from rfl, hentry]
    exact hsame

theorem execute_keeps (host : Host) (s : Session) (log : List Notice) (p : List Stmt) :
    (s.execute host log p (resolve p).distances).2.nextSlot = s.nextSlot ∧
      (s.execute host log p (resolve p).distances).2.interactive = s.interactive := by
  obtain ⟨m, hm⟩ := execute_executed host s log p
  rw [hm.session]
  exact ⟨rfl, rfl⟩

variable {w w' : World} {p' : List Stmt} {n n' : Int}

/-- What two sessions have taken when they have loaded their next programs. -/
abbrev takenBy (s s' : Session) (p p' : List Stmt) (n n' : Int) : Likeness :=
  taken n n' (s.machine.load (resolve p).distances).distances (s'.machine.load (resolve p').distances).distances

/-- Behind two tables that are loaded the machines are kin. -/
theorem Twins.loaded (h : Twins s s') (hb : Begun host w s source p) (hb' : Begun host w' s' source p')
    (hn : s.nextSlot ≤ n) (hn' : s'.nextSlot ≤ n') :
    ∃ π, Kin (takenBy s s' p p' n n') #[] π (s.machine.load (resolve p).distances)
      (s'.machine.load (resolve p').distances) := by
  obtain ⟨⟨π, hk⟩, -⟩ := h
  refine ⟨π, hk.relike (fun _ _ h => h) (fun ss r r' hr => ?_) id id fun ss r r' hr => hr.2.2⟩
  obtain ⟨hlt, hlt', hsame⟩ := hr
  have hnew : r.slot ∉ Stmt.slotsAll p := fun hm => by
    have := (hb.ranged.2.2 _ hm).1
    omega
  have hnew' : r'.slot ∉ Stmt.slotsAll p' := fun hm => by
    have := (hb'.ranged.2.2 _ hm).1
    omega
  exact ⟨by omega, by omega, hsame.congr (merge_outside hnew _) (merge_outside hnew' _)⟩

/-- The next programs of two sessions that do the same. -/
theorem Twins.execute (h : Twins s s') (hb : Begun host w s source p) (hb' : Begun host w' s' source p')
    (hn : s.nextSlot ≤ n) (hn' : s'.nextSlot ≤ n') (halike : Alike (takenBy s s' p p' n n') [] (.stmts p) (.stmts p'))
    (log log' : List Notice) :
    shown ({ s' with nextSlot := n' }.execute host log' p' (resolve p').distances) =
      shown ({ s with nextSlot := n }.execute host log p (resolve p).distances) ∧
    Twins ({ s with nextSlot := n }.execute host log p (resolve p).distances).2
      ({ s' with nextSlot := n' }.execute host log' p' (resolve p').distances).2 := by
  obtain ⟨π, hk⟩ := h.loaded hb hb' hn hn'
  have hlike :=
    execute_alike ⟨s.machine, n, s.interactive⟩ ⟨s'.machine, n', s'.interactive⟩ hk ⟨hb.current, hb'.current⟩
    h.interactive (fun _ => id) halike hb.safe log log' False.elim
  obtain ⟨hnext, hi⟩ := execute_keeps host ⟨s.machine, n, s.interactive⟩ log p
  obtain ⟨hnext', hi'⟩ := execute_keeps host ⟨s'.machine, n', s'.interactive⟩ log' p'
  constructor
  · have hglobals := hlike.globals
    have hending := hlike.ending.eq
    have houtput := hlike.output
    rw [Array.empty_append] at houtput
    unfold shown
    rw [hending, houtput, hglobals]
  · obtain ⟨π₁, hk₁⟩ := hlike.machines
    refine ⟨⟨π₁, hk₁.relike (fun _ _ h => h) (fun ss r r' hr => ?_) id id fun ss r r' hr => hr.2.2⟩, ?_⟩
    · rw [hnext, hnext']
      exact ⟨hr.1, hr.2.1, hk₁.distances ss r r' hr⟩
    · rw [hi, hi']
      exact h.interactive

/-- An accepted text does the same in both sessions, and they stay twins. -/
theorem Twins.accepted (h : Twins (after host interactive done) (after host interactive done'))
    (hruns : (after host interactive done).Runs source p) :
    ((after host interactive done').run host source).1.ending.isRejected = false ∧
    shown ((after host interactive done').run host source) = shown ((after host interactive done).run host source) ∧
    Twins ((after host interactive done).run host source).2 ((after host interactive done').run host source).2 := by
  obtain ⟨hruns', hnext⟩ := runs_shifted hruns (after host interactive done')
  refine ⟨accepted_of_executes host hruns', ?_⟩
  have hb := begun hruns
  have hb' := begun hruns'
  obtain ⟨log, hrun⟩ := run_runs host hruns
  obtain ⟨log', hrun'⟩ := run_runs host hruns'
  rw [hrun, hrun']
  refine h.execute hb hb' hb.ranged.1 hb'.ranged.1 (alike_shifted hb hb' (by omega) fun x hx => ?_) log log'
  have := (hb.ranged.2.2 x hx).2
  omega

/-! ## Any texts -/

theorem twins_start (host : Host) (interactive : Bool) :
    Twins (after host interactive []) (after host interactive []) := by
  have hinv : Inv (world host interactive [] []) Machine.start := inv_start _
  have hnone : ∀ p, (world host interactive [] []).known p → (taken 0 0 ∅ ∅).Allows p := by
    intro p ⟨before, source, rest, hs, _⟩
    cases before <;> cases hs
  exact ⟨⟨_, kin_self hnone hinv fun ss r r' hr => hr.2.2⟩, rfl⟩

/-- What a session shows without its rejected texts is the rest of what it shows. -/
theorem shows_accepted (sources : List String)
    (h : Twins (after host interactive done) (after host interactive done')) :
    (after host interactive done').shows host ((after host interactive done).accepted host sources) =
      ((after host interactive done).shows host sources).filter fun seen => !seen.ending.isRejected := by
  induction sources generalizing done done' with
  | nil => rfl
  | cons source rest ih =>
    rw [shows, Session.accepted]
    rcases run_cases host (after host interactive done) source with ⟨-, hnone, hsession⟩ | ⟨p, m, hruns, -⟩
    · obtain ⟨hrejected, -⟩ := rejected_of_runs host hnone
      have hskip : Twins (after host interactive (done ++ [source])) (after host interactive done') := by
        rw [after_snoc, hsession]
        exact h.skip (Grammar.parse_nextSlot ..)
      have hrest := ih hskip
      rw [after_snoc] at hrest
      rw [List.filter_cons_of_neg (by simp [shown, hrejected])]
      simp only [hrejected, if_true]
      exact hrest
    · obtain ⟨hkept', hshown, htwins⟩ := h.accepted hruns
      have hkept := accepted_of_executes host hruns
      rw [← after_snoc, ← after_snoc] at htwins
      have hrest := ih htwins
      rw [after_snoc, after_snoc] at hrest
      rw [List.filter_cons_of_pos (by simp [shown, hkept])]
      simp only [hkept, Bool.false_eq_true, if_false, shows, hshown, hrest]

/-- Texts that are rejected leave no trace: without them a session shows the same of all
the others, and they have printed nothing. -/
theorem rejected_untraced (host : Host) (interactive : Bool) (sources : List String) :
    (start interactive).shows host ((start interactive).accepted host sources) =
      ((start interactive).shows host sources).filter (fun seen => !seen.ending.isRejected) ∧
    ∀ seen ∈ (start interactive).shows host sources, seen.ending.isRejected = true → seen.output = #[] := by
  refine ⟨shows_accepted sources (twins_start host interactive), ?_⟩
  generalize start interactive = s
  induction sources generalizing s with
  | nil => exact fun _ h => absurd h List.not_mem_nil
  | cons source rest ih =>
    intro seen hm hrejected
    rcases List.mem_cons.mp hm with rfl | hm
    · rcases run_cases host s source with ⟨-, hnone, -⟩ | ⟨p, m, hruns, -⟩
      · exact (rejected_of_runs host hnone).2
      · have hkept := accepted_of_executes host hruns
        rw [show (shown (s.run host source)).ending = (s.run host source).1.ending from rfl, hkept] at hrejected
        cases hrejected
    · exact ih _ seen hm hrejected

end Lox
