/-
  Lox.Proofs.Run.Numbering — the references of a session are told apart by their slots,
  whatever became of the texts they stand in (`slots_apart`).

  The slots of a text begin where those of the text before it ended, also when that one
  was rejected, so all trees that a session has read have different slots
  (`ranged_trees`). A program that is executed brings distances for its own slots alone;
  those of the functions and methods that are still around are not touched
  (`closure_distances`), neither given a distance nor taken one.
-/

import Lox.Proofs.Grammar.Shifted
import Lox.Proofs.Grammar.Slots
import Lox.Proofs.Run.Sessions

namespace Lox

namespace Session

/-- The trees of some texts that run one after the other, errors or not. -/
def trees (host : Host) (s : Session) : List String → List (List Stmt)
  | [] => []
  | source :: rest => (parse (tokenize source).1 s.nextSlot).program :: trees host (s.run host source).2 rest

end Session

variable {host : Host} {interactive : Bool} {sources before more : List String} {source : String} {s : Session}
  {p : List Stmt} {m m' : Machine} {r : Routine}

theorem run_nextSlot (host : Host) (s : Session) (source : String) :
    (s.run host source).2.nextSlot = (parse (tokenize source).1 s.nextSlot).nextSlot := by
  rcases run_cases host s source with ⟨-, -, hs⟩ | ⟨p, m, -, hm⟩
  · rw [hs]
  · rw [hm.session]

theorem run_interactive (host : Host) (s : Session) (source : String) :
    (s.run host source).2.interactive = s.interactive := by
  rcases run_cases host s source with ⟨-, -, hs⟩ | ⟨p, m, -, hm⟩
  · rw [hs]
  · rw [hm.session]

theorem after_interactive (host : Host) (interactive : Bool) (sources : List String) :
    (Session.after host interactive sources).interactive = interactive := by
  unfold Session.after
  generalize hs : Session.start interactive = s
  have hstart : s.interactive = interactive := hs ▸ rfl
  clear hs
  induction sources generalizing s with
  | nil => exact hstart
  | cons source rest ih => exact ih _ ((run_interactive host s source).trans hstart)

theorem ranged_trees (host : Host) (sources : List String) (s : Session) :
    Ranged s.nextSlot (sources.foldl (fun s source => (s.run host source).2) s).nextSlot
      ((s.trees host sources).flatMap Stmt.slotsAll) := by
  induction sources generalizing s with
  | nil => exact ranged_nil (Int.le_refl _)
  | cons source rest ih =>
    have hfirst := parse_ranged (tokenize source).1 s.nextSlot
    rw [← run_nextSlot host s source] at hfirst
    exact hfirst.append (ih (s.run host source).2)

/-! ## The table of distances -/

/-- Entries are for slots that have been taken. -/
theorem entry_lt (host : Host) (interactive : Bool) (before : List String) {x d : Int}
    (h : (Session.after host interactive before).machine.distances[x]? = some d) :
    x < (Session.after host interactive before).nextSlot := by
  have hready : Ready (world host interactive before before) (Session.after host interactive before) :=
    have hnil : before = before ++ [] := (List.append_nil before).symm
    ready_after hnil
  by_cases hx : x < (Session.after host interactive before).nextSlot
  · exact hx
  · rw [hready.fresh x (by omega)] at h
    cases h

/-- The slots of a text are new, so its table leaves the earlier entries as they are. -/
theorem load_keeps (hruns : (Session.after host interactive before).Runs source p) {x d : Int}
    (h : (Session.after host interactive before).machine.distances[x]? = some d) :
    ((Session.after host interactive before).machine.load (resolve p).distances).distances[x]? = some d := by
  obtain ⟨hp, hranged⟩ := accepted_of_runs hruns
  have hlt := entry_lt host interactive before h
  have hnot : x ∉ Stmt.slotsAll p := fun hx => by
    have := (hranged.2.2 x hx).1
    omega
  show ((Session.after host interactive before).machine.distances.merge (resolve p).distances)[x]? = some d
  rw [Distances.merge_get?, resolve_outside hnot, h]
  rfl

/-! ## What is still around -/

/-- A machine while the last of some texts runs, or when all of them have run. -/
inductive Arises (host : Host) (interactive : Bool) : List String → Machine → Prop
  | between {sources : List String} : Arises host interactive sources (Session.after host interactive sources).machine
  | during {before : List String} {source : String} {p : List Stmt} {M : Moment} :
      (Session.after host interactive before).Runs source p →
      Reaches host ((Session.after host interactive before).begins host p) M →
      Arises host interactive (before ++ [source]) M.machine

/-- The routine of a function or of a method of a class. -/
def Machine.HasRoutine (m : Machine) (r : Routine) : Prop :=
  (∃ (i : Nat) (c : Closure), m.closures[i]? = some c ∧ c.routine = r) ∨
    ∃ (i : Nat) (c : Class) (x : String) (method : Closure),
      m.classes[i]? = some c ∧ c.methods.get? x = some method ∧ method.routine = r

/-- Every machine of a session holds its invariant, with the tables of all texts that have been
run. -/
theorem arises_inv (h : Arises host interactive sources m) :
    Inv (world host interactive sources sources) m ∧ Tabled (world host interactive sources sources) m := by
  cases h with
  | between =>
    have hready : Ready (world host interactive sources sources) (Session.after host interactive sources) :=
      have hnil : sources = sources ++ [] := (List.append_nil sources).symm
      ready_after hnil
    exact ⟨hready.inv, hready.tabled⟩
  | @during before source p M hruns hreach =>
    have hbegins : Occurs host interactive (before ++ [source])
      ((Session.after host interactive before).begins host p) :=
      ⟨before, source, [], p, rfl, hruns, .refl⟩
    have hsplit : before ++ [source] = before ++ ([source] : List String) := rfl
    have hready : Ready (world host interactive (before ++ [source]) before) (Session.after host interactive before) :=
      ready_after hsplit
    have hfits := fits_begins hready hruns
    obtain ⟨-, hf⟩ := fits_reaches (history host interactive _ _) hbegins hfits hreach
    exact ⟨hf.inv, hf.tabled⟩

/-- A routine that is around stands in a program that has been executed. -/
theorem known_routine {w : World} (h : Inv w m) (hr : m.HasRoutine r) :
    ∃ p, w.known p ∧ ∀ x ∈ Stmt.routineSlots r, x ∈ Stmt.slotsAll p := by
  rcases hr with ⟨i, c, hc, rfl⟩ | ⟨i, c, x, method, hc, hx, rfl⟩
  · obtain ⟨p, context, r, os, hp, hwithin, -⟩ := h.functions i c hc
    exact ⟨p, hp, within_slots hwithin⟩
  · obtain ⟨p, superclass, methods, r, os, hp, -, hwithin, -⟩ := h.methods i c x method hc hx
    exact ⟨p, hp, within_slots hwithin⟩

theorem closure_distances (h : Arises host interactive sources m) (h' : Arises host interactive (sources ++ more) m')
    (hr : m.HasRoutine r) {x : Int} (hx : x ∈ Stmt.routineSlots r) : m'.distances[x]? = m.distances[x]? := by
  obtain ⟨hinv, htabled⟩ := arises_inv h
  obtain ⟨-, htabled'⟩ := arises_inv h'
  obtain ⟨p, hp, hslots⟩ := known_routine hinv hr
  rw [htabled p hp x (hslots x hx), htabled' p (isProgram_append hp more) x (hslots x hx)]

/-! ## Slots of a session -/

/-- No two nodes of a session share a slot, the entries of a table stay when others are loaded,
a closure has or lacks the entry of a use for as long as it lives, and the first slot of a text
only shifts its tree. -/
theorem slots_apart (host : Host) (interactive : Bool) :
    (∀ sources, Ranged 0 (Session.after host interactive sources).nextSlot
      (((Session.start interactive).trees host sources).flatMap Stmt.slotsAll)) ∧
    (∀ before source p, (Session.after host interactive before).Runs source p →
      ∀ x d : Int, (Session.after host interactive before).machine.distances[x]? = some d →
        ((Session.after host interactive before).machine.load (resolve p).distances).distances[x]? = some d) ∧
    (∀ sources more m m' r, Arises host interactive sources m → Arises host interactive (sources ++ more) m' →
      m.HasRoutine r → ∀ x ∈ Stmt.routineSlots r, m'.distances[x]? = m.distances[x]?) ∧
    ∀ tokens k, parse tokens k = (parse tokens 0).shift (.bySlots k) := by
  refine ⟨fun sources => ?_, ?_, ?_, fun tokens k => ?_⟩
  · exact ranged_trees host sources (Session.start interactive)
  · intro before source p hruns x d hx
    exact load_keeps hruns hx
  · intro sources more m m' r h h' hr x hx
    exact closure_distances h h' hr hx
  · have hshift := parse_shift (.bySlots k) tokens 0
    rw [Shift.tokens_bySlots, show (0 : Int) + (Shift.bySlots k).slots = k from Int.zero_add k] at hshift
    exact hshift

/-- A function with a local variable that its body reads. -/
def localText : String := "fun f() \x7b var a = nil; a; \x7d"

/-- The slot of the only reference of the first function, with its distance. -/
def firstDistance? (m : Machine) : Option (Closure × Int × Int) := do
  let c ← m.closures[0]?
  let x ← (Stmt.routineSlots c.routine).head?
  return (c, x, ← m.distances[x]?)

theorem firstDistance?_some {c : Closure} {x d : Int} (h : firstDistance? m = some (c, x, d)) :
    m.HasRoutine c.routine ∧ x ∈ Stmt.routineSlots c.routine ∧ m.distances[x]? = some d := by
  simp only [firstDistance?, bind, pure, Option.bind_eq_some_iff, Option.some.injEq, Prod.mk.injEq] at h
  obtain ⟨c', hc, x', hx, d', hd, rfl, rfl, rfl⟩ := h
  exact ⟨Or.inl ⟨0, _, hc, rfl⟩, List.mem_of_mem_head? hx, hd⟩

/-- A function that reads its parameter, and a second text behind it. -/
theorem slots_apart_function : ∃ (r : Routine) (x d : Int),
    x ∈ Stmt.routineSlots r ∧ (Session.after (.ofClock fun _ => 0) false [localText]).machine.HasRoutine r ∧
    (Session.after (.ofClock fun _ => 0) false [localText]).machine.distances[x]? = some d ∧
    ((Session.after (.ofClock fun _ => 0) false [localText]).machine.load
      (resolve (parse (tokenize "f();").1 1).program).distances).distances[x]? = some d ∧
    (Session.after (.ofClock fun _ => 0) false ([localText] ++ ["f();"])).machine.distances[x]? = some d := by
  have hsome : (firstDistance? (Session.after (.ofClock fun _ => 0) false [localText]).machine).isSome = true := by
    decide +kernel
  have hnext : (Session.after (.ofClock fun _ => 0) false [localText]).nextSlot = 1 := by decide +kernel
  have hlexical : (tokenize "f();").2 = [] := by decide +kernel
  have herrors : (parse (tokenize "f();").1 1).errors = [] := by decide +kernel
  have hresolved : (resolve (parse (tokenize "f();").1 1).program).errors = [] := by decide +kernel
  obtain ⟨⟨c, x, d⟩, hentry⟩ := Option.isSome_iff_exists.mp hsome
  generalize Host.ofClock (fun _ => 0) = host at hentry hnext ⊢
  obtain ⟨hr, hx, hd⟩ := firstDistance?_some hentry
  have hruns : (Session.after host false [localText]).Runs "f();" (parse (tokenize "f();").1 1).program :=
    ⟨hlexical, by rw [hnext]; exact herrors, by rw [hnext], hresolved⟩
  obtain ⟨-, hload, hlater, -⟩ := slots_apart host false
  refine ⟨c.routine, x, d, hx, hr, hd, hload _ _ _ hruns x d hd, ?_⟩
  rw [hlater _ ["f();"] _ _ _ .between .between hr x hx, hd]

end Lox
