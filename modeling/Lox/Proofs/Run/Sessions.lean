/-
  Lox.Proofs.Run.Sessions — between two texts of a session the machine is in order and its
  table holds the distances of every program executed so far, whatever became of the texts
  (`ready_after`).

  The slots of a text follow those of the texts before it, so the distances that a program
  adds to the table leave those of the closures that are still around alone
  (`merge_get?`). A program is executed only when it was read and resolved without an
  error, and then it is as a resolved program should be (`accepted_of_runs`).
-/

import Lox.Proofs.Grammar.Programs
import Lox.Proofs.Run.Soundness
import Lox.Proofs.Scope.Framed
import Lox.Proofs.Token.Words

namespace Lox

/-! ## Tables of two programs -/

namespace Distances

variable {entries : List (Int × Int)} {table : Distances} {x d : Int}

theorem foldl_insert_of_not_mem (h : ∀ entry ∈ entries, entry.1 ≠ x) :
    (entries.foldl (fun table entry => table.insert entry.1 entry.2) table)[x]? = table[x]? := by
  induction entries generalizing table with
  | nil => rfl
  | cons entry rest ih =>
    rw [List.foldl_cons, ih fun e he => h e (List.mem_cons_of_mem _ he)]
    simp [Std.TreeMap.getElem?_insert, h entry (List.mem_cons_self ..)]

/-- With keys that differ, what is inserted is found. -/
theorem foldl_insert_of_mem (hd : entries.Pairwise fun a b => a.1 ≠ b.1) (h : (x, d) ∈ entries) :
    (entries.foldl (fun table entry => table.insert entry.1 entry.2) table)[x]? = some d := by
  induction entries generalizing table with
  | nil => cases h
  | cons entry rest ih =>
    obtain ⟨hfirst, hrest⟩ := List.pairwise_cons.mp hd
    rcases List.mem_cons.mp h with rfl | h
    · rw [List.foldl_cons, foldl_insert_of_not_mem fun e he => (hfirst e he).symm]
      simp
    · exact ih hrest h

/-- In a table that is merged the new entries go first. -/
theorem merge_get? (old new : Distances) (x : Int) : (old.merge new)[x]? = (new[x]?).or old[x]? := by
  unfold merge
  rw [Std.TreeMap.foldl_eq_foldl_toList]
  have hd : new.toList.Pairwise fun a b => a.1 ≠ b.1 :=
    Std.TreeMap.distinct_keys_toList.imp fun h he => h (by simp [he])
  cases hx : new[x]? with
  | some d => exact foldl_insert_of_mem hd (Std.TreeMap.mem_toList_iff_getElem?_eq_some.mpr hx)
  | none =>
    refine foldl_insert_of_not_mem fun entry he heq => ?_
    have hsome := Std.TreeMap.mem_toList_iff_getElem?_eq_some.mp he
    rw [heq, hx] at hsome
    cases hsome

end Distances

/-! ## Programs that are executed -/

open Session Grammar

variable {host : Host} {interactive : Bool} {sources before rest : List String} {source : String} {s : Session}
  {p : List Stmt}

/-- A name among the tokens of a text is never `this` or `super`. -/
theorem named_tokens (source : String) : Named (tokenize source).1.items := by
  intro t ht name hname
  have hspelled := tokenize_spelled ht
  rw [hname] at hspelled
  have hword := hspelled.noKeyword
  constructor
  · intro h
    subst h
    cases hword
  · intro h
    subst h
    cases hword

theorem accepted_of_runs (h : s.Runs source p) :
    Accepted p ∧ Ranged s.nextSlot (parse (tokenize source).1 s.nextSlot).nextSlot (Stmt.slotsAll p) := by
  have hread := reads_of_parse h.errors
  rw [h.program] at hread
  have hranged : Ranged s.nextSlot (parse (tokenize source).1 s.nextSlot).nextSlot (Stmt.slotsAll p) :=
    readsStmt_ranged hread
  exact ⟨⟨readsStmt_tidy hread (named_tokens source), hranged.2.1, h.resolved⟩, hranged⟩

theorem isProgram_accepted (h : IsProgram host interactive sources p) : Accepted p := by
  obtain ⟨before, source, rest, -, hruns⟩ := h
  exact (accepted_of_runs hruns).1

/-- The environments that a session makes, and the programs of its first texts. -/
def world (host : Host) (interactive : Bool) (sources texts : List String) : World where
  opened k frame := ∃ M, Occurs host interactive sources M ∧ Opens M k frame
  known := IsProgram host interactive texts
  accepted _ := isProgram_accepted

def history (host : Host) (interactive : Bool) (sources texts : List String) :
    History host (world host interactive sources texts) where
  occurs := Occurs host interactive sources
  closed M M' h he := by
    obtain ⟨before, source, rest, p, hs, hruns, hreach⟩ := h
    exact ⟨before, source, rest, p, hs, hruns, .step hreach he⟩
  opens M k frame h ho := ⟨M, h, ho⟩

/-- The last text of a session is one more program, if it is accepted. -/
theorem isProgram_snoc (h : IsProgram host interactive (before ++ [source]) p) :
    IsProgram host interactive before p ∨ (after host interactive before).Runs source p := by
  obtain ⟨first, text, rest, hs, hruns⟩ := h
  rcases List.eq_nil_or_concat rest with rfl | ⟨rest, last, rfl⟩
  · obtain ⟨rfl, h1⟩ := List.append_inj' hs rfl
    cases h1
    exact Or.inr hruns
  · left
    refine ⟨first, text, rest, ?_, hruns⟩
    have hs' : before ++ [source] = (first ++ text :: rest) ++ [last] := by simpa using hs
    exact (List.append_inj' hs' rfl).1

theorem isProgram_append (h : IsProgram host interactive before p) (more : List String) :
    IsProgram host interactive (before ++ more) p := by
  obtain ⟨first, text, rest, rfl, hruns⟩ := h
  exact ⟨first, text, rest ++ more, by simp, hruns⟩

/-! ## More programs -/

variable {w w' : World} {m : Machine}

/-- The same environments, and more programs. -/
structure World.Extends (w w' : World) : Prop where
  opened : w'.opened = w.opened
  known : ∀ p, w.known p → w'.known p

theorem Chain.extends (he : w.Extends w') {k : Nat} {os : List Opened} (h : Chain w m k os) : Chain w' m k os := by
  induction os generalizing k with
  | nil => exact h
  | cons o os ih =>
    obtain ⟨hopened, hholds, parent, hlink, hchain⟩ := h
    exact ⟨he.opened ▸ hopened, hholds, parent, hlink, ih hchain⟩

/-- A world with more programs is a world for the same machine. -/
theorem Inv.extends (he : w.Extends w') (h : Inv w m) : Inv w' m where
  globals := h.globals
  cells := h.cells
  functions i c hc := by
    obtain ⟨p, context, r, os, hp, hwithin, hchain, hinit⟩ := h.functions i c hc
    exact ⟨p, context, r, os, he.known p hp, hwithin, hchain.extends he, hinit⟩
  methods i c x method hc hx := by
    obtain ⟨p, superclass, methods, r, os, hp, hm, hwithin, hchain⟩ := h.methods i c x method hc hx
    exact ⟨p, superclass, methods, r, os, he.known p hp, hm, hwithin, hchain.extends he⟩
  fields := h.fields
  sealed := h.sealed

/-! ## Between two texts -/

/-- Between two texts the machine is one of the world, in the environment of the globals. -/
structure Ready (w : World) (s : Session) : Prop where
  inv : Inv w s.machine
  tabled : Tabled w s.machine
  current : s.machine.current = globalEnv
  /-- Slots from the next one on are free. -/
  slots : ∀ p, w.known p → ∀ x ∈ Stmt.slotsAll p, x < s.nextSlot
  fresh : ∀ x, s.nextSlot ≤ x → s.machine.distances[x]? = none

theorem Ready.extends (he : w.Extends w') (hk : ∀ p, w'.known p → w.known p) (h : Ready w s) : Ready w' s where
  inv := h.inv.extends he
  tabled p hp := h.tabled p (hk p hp)
  current := h.current
  slots p hp := h.slots p (hk p hp)
  fresh := h.fresh

/-- Slots that have been taken are not taken again. -/
theorem Ready.skip {n : Int} (h : Ready w s) (hn : s.nextSlot ≤ n) : Ready w { s with nextSlot := n } :=
  ⟨h.inv, h.tabled, h.current, fun p hp x hx => Int.lt_of_lt_of_le (h.slots p hp x hx) hn,
    fun x hx => h.fresh x (Int.le_trans hn hx)⟩

/-- The same environments, and a program that is about to be executed. -/
structure World.Adds (w w' : World) (p : List Stmt) : Prop extends w.Extends w' where
  added : w'.known p
  only : ∀ q, w'.known q → w.known q ∨ q = p

/-- Before a program is run, its resolved scopes are those of the globals. -/
theorem Ready.fits (h : Ready w s) (hw : w.Adds w' p) (hruns : s.Runs source p) : Fits host w' (s.begins host p) := by
  obtain ⟨hp, hranged⟩ := accepted_of_runs hruns
  have hinv : Inv w' (s.begins host p).machine ∧ Grows s.machine (s.begins host p).machine :=
    (h.inv.extends hw.toExtends).same rfl rfl rfl rfl
  have hhome : (s.begins host p).machine.IsOpen (s.begins host p).machine.current := by
    show Machine.IsOpen _ s.machine.current
    rw [h.current]
    exact hinv.1.sealed.globals
  refine ⟨hinv.1, fun q hq x hx => ?_, hhome, rfl, rfl, p, _, _, hw.added, .root, h.current⟩
  show (s.machine.distances.merge (resolve p).distances)[x]? = _
  rw [Distances.merge_get?]
  rcases hw.only q hq with hold | rfl
  · have hlt := h.slots q hold x hx
    have hnot : x ∉ Stmt.slotsAll p := fun hm => by
      have := (hranged.2.2 x hm).1
      omega
    rw [resolve_outside hnot, Option.none_or, h.tabled q hold x hx]
  · rw [h.fresh x (hranged.2.2 x hx).1, Option.or_none]

/-- The world in which the text behind `before` runs. -/
theorem extends_next (host : Host) (interactive : Bool) (sources before : List String) (source : String) :
    (world host interactive sources before).Extends (world host interactive sources (before ++ [source])) :=
  ⟨rfl, fun _ hp => isProgram_append hp _⟩

theorem adds_next (sources : List String) (hruns : (after host interactive before).Runs source p) :
    (world host interactive sources before).Adds (world host interactive sources (before ++ [source])) p where
  toExtends := extends_next host interactive sources before source
  added := ⟨before, source, [], rfl, hruns⟩
  only _ hq := (isProgram_snoc hq).imp_right fun hnew => hnew.program.symm.trans hruns.program

theorem fits_begins (h : Ready (world host interactive sources before) (after host interactive before))
    (hruns : (after host interactive before).Runs source p) :
    Fits host (world host interactive sources (before ++ [source])) ((after host interactive before).begins host p) :=
  h.fits (adds_next sources hruns) hruns

/-- A program is sound from its beginning on. -/
theorem sound_begins (h : Ready (world host interactive sources before) (after host interactive before))
    (hs : sources = before ++ source :: rest) (hruns : (after host interactive before).Runs source p) :
    Safe (world host interactive sources (before ++ [source]))
      (p.forM (Eval.topLevel host (after host interactive before).interactive))
      ((after host interactive before).machine.load (resolve p).distances) fun _ _ => True :=
  sound (history host interactive sources (before ++ [source])) _ ⟨before, source, rest, p, hs, hruns, .refl⟩
    (fits_begins h hruns)

/-! ## What a run comes to -/

/-- What a run that executes its program leaves behind, and how it may end. -/
structure Executed (host : Host) (s : Session) (p : List Stmt) (n : Int) (done : Report × Session) (m : Machine) :
    Prop where
  ending : (∃ u, p.forM (Eval.topLevel host s.interactive) (s.machine.load (resolve p).distances) = .ok u m ∧
      done.1.ending = .finished) ∨
    ∃ stop, p.forM (Eval.topLevel host s.interactive) (s.machine.load (resolve p).distances) = .error stop m ∧
      done.1.ending = Session.ending stop
  session : done.2 = ⟨{ m with current := globalEnv, output := #[] }, n, s.interactive⟩

theorem execute_executed (host : Host) (s : Session) (log : List Notice) (p : List Stmt) :
    ∃ m, Executed host s p s.nextSlot (s.execute host log p (resolve p).distances) m := by
  obtain ⟨machine, nextSlot, interactive⟩ := s
  unfold execute Eval.interpret
  cases hrun : p.forM (Eval.topLevel host interactive) (machine.load (resolve p).distances) with
  | ok u m => exact ⟨m, Or.inl ⟨u, hrun, by simp only [hrun]⟩, by simp only [hrun]; rfl⟩
  | error stop m => exact ⟨m, Or.inr ⟨stop, hrun, by simp only [hrun]⟩, by simp only [hrun]; rfl⟩

/-- A run is rejected, with the machine as it was, or executes its program. -/
theorem run_cases (host : Host) (s : Session) (source : String) :
    ((∃ errors, (s.run host source).1.ending = .rejected errors) ∧ (∀ p, ¬ s.Runs source p) ∧
      (s.run host source).2 = { s with nextSlot := (parse (tokenize source).1 s.nextSlot).nextSlot }) ∨
    ∃ p m, s.Runs source p ∧
      Executed host s p (parse (tokenize source).1 s.nextSlot).nextSlot (s.run host source) m := by
  unfold run
  generalize hp : parse (tokenize source).1 s.nextSlot = parsed
  simp only [hp]
  by_cases he : (tokenize source).2 ++ parsed.errors = []
  · obtain ⟨hlexical, hparse⟩ := List.append_eq_nil_iff.mp he
    rw [he, List.isEmpty_nil, if_pos rfl]
    unfold runProgram
    by_cases hr : (resolve parsed.program).errors = []
    · simp only [hr, List.isEmpty_nil, if_true]
      obtain ⟨m, hm⟩ := execute_executed host { s with nextSlot := parsed.nextSlot } _ parsed.program
      exact Or.inr ⟨parsed.program, m, ⟨hlexical, hp ▸ hparse, hp ▸ rfl, hr⟩, hm.ending, hm.session⟩
    · have hne : (resolve parsed.program).errors.isEmpty = false := by simpa using hr
      simp only [hne]
      refine Or.inl ⟨⟨_, rfl⟩, fun q hq => hr ?_, rfl⟩
      have hsame : parsed.program = q := hp ▸ hq.program
      exact hsame ▸ hq.resolved
  · have hne : ((tokenize source).2 ++ parsed.errors).isEmpty = false := by simpa using he
    rw [hne]
    refine Or.inl ⟨⟨_, rfl⟩, fun q hq => he ?_, rfl⟩
    rw [hq.lexical, ← hp, hq.errors]
    rfl

theorem after_snoc (host : Host) (interactive : Bool) (before : List String) (source : String) :
    after host interactive (before ++ [source]) = ((after host interactive before).run host source).2 := by
  simp [after]

/-! ## After any texts -/

/-- At the start there is one name, that of the clock. -/
theorem valid_start {k : Nat} {x : String} {v : Value} (hv : Machine.start.store.cell k x = some v) :
    Machine.start.Valid v := by
  have hcell : Machine.start.store.cell k x = if k = 0 then (Bindings.single clockName Value.clock).get? x
    else none := by
    show (Store.empty.push _ none).cell k x = _
    rw [Store.cell_push]
    rfl
  rw [hcell] at hv
  split at hv
  · rw [Bindings.get?_single] at hv
    split at hv <;> cases hv
    trivial
  · cases hv

theorem inv_start (w : World) : Inv w Machine.start where
  globals := ⟨by decide, rfl⟩
  cells _ _ _ hv := valid_start hv
  functions i c hc := by cases hc
  methods i c x method hc := by cases hc
  fields i c x v hc := by cases hc
  sealed := sealed_start

theorem ready_start (host : Host) (interactive : Bool) (sources : List String) :
    Ready (world host interactive sources []) (start interactive) := by
  have hnone : ∀ p, ¬ IsProgram host interactive [] p := by
    intro p ⟨before, source, rest, hs, _⟩
    cases before <;> cases hs
  exact ⟨inv_start _, fun p hp => absurd hp (hnone p), rfl, fun p hp => absurd hp (hnone p), fun _ _ => rfl⟩

/-- A run that executes its program leaves the session ready, if it leaves the machine in order. -/
theorem Ready.executed {m : Machine} (h : Ready w s) (hw : w.Adds w' p) (hruns : s.Runs source p)
    (hdone : Executed host s p (parse (tokenize source).1 s.nextSlot).nextSlot (s.run host source) m)
    (hsafe : Safe w' (p.forM (Eval.topLevel host s.interactive)) (s.machine.load (resolve p).distances) fun _ _ =>
    True) :
    Ready w' (s.run host source).2 := by
  obtain ⟨hp, hranged⟩ := accepted_of_runs hruns
  have hstays : Stays w' (s.machine.load (resolve p).distances) m := by
    rcases hdone.ending with ⟨u, hok, -⟩ | ⟨stop, herror, -⟩
    · exact (hsafe.ok hok).1
    · exact (hsafe.error herror).1
  have htabled : Tabled w' (s.begins host p).machine := (h.fits hw hruns).tabled
  have hinv : Inv w' { m with current := globalEnv, output := #[] } ∧
    Grows m { m with current := globalEnv, output := #[] } :=
    hstays.inv.same rfl rfl rfl rfl
  rw [hdone.session]
  refine ⟨hinv.1, htabled.same hstays.distances, rfl, fun q hq x hx => ?_, fun x hx => ?_⟩
  · rcases hw.only q hq with hold | rfl
    · exact Int.lt_of_lt_of_le (h.slots q hold x hx) (parse_nextSlot ..)
    · exact (hranged.2.2 x hx).2
  · show m.distances[x]? = none
    rw [hstays.distances]
    show (s.machine.distances.merge (resolve p).distances)[x]? = none
    have hx : (parse (tokenize source).1 s.nextSlot).nextSlot ≤ x := hx
    have hnot : x ∉ Stmt.slotsAll p := fun hm => by
      have := (hranged.2.2 x hm).2
      omega
    rw [Distances.merge_get?, resolve_outside hnot, h.fresh x (Int.le_trans hranged.1 hx)]
    rfl

theorem ready_run (hs : sources = before ++ source :: rest)
    (h : Ready (world host interactive sources before) (after host interactive before)) :
    Ready (world host interactive sources (before ++ [source])) (after host interactive (before ++ [source])) := by
  rw [after_snoc]
  rcases run_cases host (after host interactive before) source with ⟨-, hnone, hsession⟩ | ⟨p, m, hruns, hdone⟩
  · rw [hsession]
    refine Ready.extends (extends_next host interactive sources before source) (fun q hq => ?_)
      (h.skip (parse_nextSlot ..))
    exact (isProgram_snoc hq).resolve_right (hnone q)
  · exact h.executed (adds_next sources hruns) hruns hdone (sound_begins h hs hruns)

theorem ready_more (texts : List String) (hs : sources = before ++ (texts ++ rest))
    (h : Ready (world host interactive sources before) (after host interactive before)) :
    Ready (world host interactive sources (before ++ texts)) (after host interactive (before ++ texts)) := by
  induction texts generalizing before with
  | nil => simpa using h
  | cons source texts ih =>
    have hnext : Ready (world host interactive sources ((before ++ [source]) ++ texts))
        (after host interactive ((before ++ [source]) ++ texts)) := ih (by simpa using hs) (ready_run hs h)
    simpa using hnext

theorem ready_after (hs : sources = before ++ rest) :
    Ready (world host interactive sources before) (after host interactive before) :=
  ready_more before hs (ready_start host interactive sources)

/-! ## After any texts, on any hosts -/

/-- A session that has come about by running texts, each on a host of its own. -/
inductive Session.Reachable : Session → Prop
  | start (interactive : Bool) : Reachable (.start interactive)
  | run {s : Session} (host : Host) (source : String) : Reachable s → Reachable (s.run host source).2

/-- A world whose programs have been read from texts, and that asks nothing of its environments. -/
structure World.Wide (w : World) : Prop where
  opened : ∀ k frame, w.opened k frame
  read : ∀ p, w.known p → ∃ (s : Session) (source : String), s.Runs source p

/-- In a wide world everything may occur. -/
def wideHistory (host : Host) (hw : w.Wide) : History host w where
  occurs _ := True
  closed _ _ _ _ := trivial
  opens _ k frame _ _ := hw.opened k frame

/-- The world with a program that has been read. -/
def World.adding (w : World) (hp : Accepted p) : World where
  opened := w.opened
  known q := w.known q ∨ q = p
  accepted q hq := hq.elim (w.accepted q) fun h => h ▸ hp

theorem adds_adding (w : World) (hp : Accepted p) : w.Adds (w.adding hp) p where
  opened := rfl
  known _ hq := Or.inl hq
  added := Or.inr rfl
  only _ hq := hq

theorem World.Wide.adding (hw : w.Wide) (hruns : s.Runs source p) : (w.adding (accepted_of_runs hruns).1).Wide where
  opened := hw.opened
  read q hq := hq.elim (hw.read q) fun h => ⟨s, source, h ▸ hruns⟩

/-- Every session that can be reached has a world that its machine fits in. -/
theorem reachable_ready (h : s.Reachable) : ∃ w : World, w.Wide ∧ Ready w s := by
  induction h with
  | start interactive =>
    let w : World := ⟨fun _ _ => True, fun _ => False, fun _ hp => hp.elim⟩
    exact ⟨w, ⟨fun _ _ => trivial, fun _ hp => hp.elim⟩,
      inv_start w, fun _ hp => hp.elim, rfl, fun _ hp => hp.elim, fun _ _ => rfl⟩
  | @run s host source _ ih =>
    obtain ⟨w, hw, hready⟩ := ih
    rcases run_cases host s source with ⟨-, -, hsession⟩ | ⟨p, m, hruns, hdone⟩
    · rw [hsession]
      exact ⟨w, hw, hready.skip (parse_nextSlot ..)⟩
    · have hadds := adds_adding w (accepted_of_runs hruns).1
      have hwide := hw.adding hruns
      exact ⟨_, hwide, hready.executed hadds hruns hdone
        (sound (wideHistory host hwide) (s.begins host p) trivial (hready.fits hadds hruns))⟩

/-- What a run of a reachable session comes to is a part of a program that has been read. -/
theorem reachable_at {n room : Nat} {e : Expr} {m : Machine} (h : s.Reachable) (hruns : s.Runs source p)
    (hreach : Reaches host (s.begins host p) ⟨n, room, .expr e, m⟩) :
    ∃ (s' : Session) (source' : String) (q : List Stmt) (r : Resolver) (os : List Opened),
      s'.Runs source' q ∧ Within q (.expr e) r os := by
  obtain ⟨w, hw, hready⟩ := reachable_ready h
  have hwide := hw.adding hruns
  obtain ⟨-, hfits⟩ := fits_reaches (wideHistory host hwide) trivial
    (hready.fits (adds_adding w (accepted_of_runs hruns).1) hruns) hreach
  obtain ⟨q, r, os, hq, hwithin, -⟩ := hfits.task
  obtain ⟨s', source', hread⟩ := hwide.read q hq
  exact ⟨s', source', q, r, os, hread, hwithin⟩

end Lox
