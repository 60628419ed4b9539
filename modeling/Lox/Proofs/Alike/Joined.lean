/-
  Lox.Proofs.Alike.Joined — running two texts one after the other is running them as one,
  with a newline in between (`joined_at_once`).

  The joined text has the tokens of both, is read as the statements of both with the slots
  that the session would give them, and has the distances of both (`runs_joined`). When it
  has executed the first text it is where the session is after that one, but for what it
  has printed and for the distances that it has loaded ahead (`kin_between`); from there on
  both execute alike statements, those of the joined text on later lines.
-/

import Lox.Proofs.Alike.Traces
import Lox.Proofs.Token.Lines

namespace Lox

open Grammar Session

variable {host : Host} {interactive : Bool} {before : List String} {a b source : String} {s s' : Session}
  {p q : List Stmt}

/-! ## What the joined text is read as -/

theorem reads_append {loop : Bool} {ss ss' : List Stmt} {k k₁ k' : Int} {ts us : List Token}
    (h : ReadsStmt (.declarations loop ss) k ts k₁) (h' : ReadsStmt (.declarations loop ss') k₁ us k') :
    ReadsStmt (.declarations loop (ss ++ ss')) k (ts ++ us) k' := by
  induction ss generalizing k ts with
  | nil =>
    cases h
    exact h'
  | cons s ss ih =>
    cases h with
    | cons hs hrest =>
      rw [List.append_assoc]
      exact .cons hs (ih hrest)

theorem parse_joined {tokens tokens' : Tokens} {k : Int} (h : (parse tokens k).errors = [])
    (h' : (parse tokens' (parse tokens k).nextSlot).errors = []) (endLine : Nat) :
    parse ⟨tokens.items ++ tokens'.items, endLine⟩ k =
      ⟨(parse tokens k).program ++ (parse tokens' (parse tokens k).nextSlot).program,
        (parse tokens' (parse tokens k).nextSlot).nextSlot, []⟩ :=
  parse_of_reads (reads_append (reads_of_parse h) (reads_of_parse h'))

/-- Both texts as one. -/
def joined (a b : String) : String := a ++ "\n" ++ b

theorem tokenize_joined (ha : (tokenize a).2 = []) (hb : (tokenize b).2 = []) :
    tokenize (joined a b) = (⟨(tokenize a).1.items ++ ((Shift.behindText a).tokens (tokenize b).1).items,
      ((Shift.behindText a).tokens (tokenize b).1).endLine⟩, []) := by
  have hnone : ∀ d ∈ (tokenize a).2, ¬ Scan.IsUnterminated d := fun d hd => absurd (ha ▸ hd) List.not_mem_nil
  rw [joined, tokenize_lines hnone, ha, hb]
  rfl

theorem runs_joined (ha : s.Runs a p) (hs : s'.nextSlot = (parse (tokenize a).1 s.nextSlot).nextSlot)
    (hb : s'.Runs b q) :
    s.Runs (joined a b) (p ++ (Shift.behindText a).stmts q) ∧
      (parse (tokenize (joined a b)).1 s.nextSlot).nextSlot = (parse (tokenize b).1 s'.nextSlot).nextSlot := by
  have htokens := tokenize_joined ha.lexical hb.lexical
  have hshift := parse_shift (Shift.behindText a) (tokenize b).1 s'.nextSlot
  rw [show s'.nextSlot + (Shift.behindText a).slots = s'.nextSlot from Int.add_zero _, hs] at hshift
  have herrors : (parse ((Shift.behindText a).tokens (tokenize b).1)
      (parse (tokenize a).1 s.nextSlot).nextSlot).errors = [] := by
    rw [hshift, Parsed.shift, ← hs, hb.errors]
    rfl
  have hparse := parse_joined ha.errors herrors ((Shift.behindText a).tokens (tokenize b).1).endLine
  rw [hshift, Parsed.shift, ← hs, hb.program, ha.program] at hparse
  have hnext : (parse (tokenize b).1 s'.nextSlot).nextSlot + (Shift.behindText a).slots =
      (parse (tokenize b).1 s'.nextSlot).nextSlot :=
    Int.add_zero _
  refine ⟨⟨by rw [htokens], by rw [htokens, hparse], by rw [htokens, hparse], ?_⟩, by rw [htokens, hparse, hnext]⟩
  rw [(resolve_append p q _).1, ha.resolved, hb.resolved]
  rfl

/-! ## The first text, with the distances of both -/

/-- The same references, as far as slots have been taken. -/
def upTo (n : Int) (D : Distances) : Likeness where
  place := Eq
  reference ss r r' := r'.slot = r.slot ∧ r.slot < n ∧ SameDistance D D ss r r'
  boxes := False
  deeper := False
  deeper_of_boxes := id

variable {w : World} {m : Machine} {n : Int} {D : Distances}

theorem allows_upTo (ht : Tabled w m) (hp : w.known p) (hn : ∀ x ∈ Stmt.slotsAll p, x < n) :
    (upTo n m.distances).Allows p where
  place _ := rfl
  reference _ _ _ hm hs h := ⟨hs, hn _ hm, h.congr (ht p hp _ hm) (hs ▸ ht p hp _ hm)⟩

/-- With distances for more slots a program does the same. -/
theorem first_ahead {u : Unit} (hb : Begun host w s source p)
    (hn : (parse (tokenize source).1 s.nextSlot).nextSlot = n)
    (hD : ∀ x, x < n → D[x]? = (s.machine.load (resolve p).distances).distances[x]?)
    (hrun : p.forM (Eval.topLevel host s.interactive) (s.machine.load (resolve p).distances) = .ok u m) :
    ∃ m' π, p.forM (Eval.topLevel host s.interactive) { s.machine with distances := D } = .ok u m' ∧
      Kin (upTo n (s.machine.load (resolve p).distances).distances) #[] π m m' ∧
      m.distances = (s.machine.load (resolve p).distances).distances ∧ m'.distances = D ∧ m'.current = globalEnv := by
  have hallows : ∀ q, w.known q → (upTo n (s.machine.load (resolve p).distances).distances).Allows q :=
    fun q hq => allows_upTo hb.tabled hq fun x hx => hn ▸ hb.slots q hq x hx
  have hkin :=
    kin_self hallows hb.inv (D := D) fun ss r r' hr => hr.2.2.congr rfl (by rw [hr.1]; exact hD r.slot hr.2.1)
  have halike := alike_self (hallows p hb.known) hb.accepted .root (renames_stmts p (noneChosen_map []))
  have hboth := together_program host s.interactive (fun _ => id) halike _ _ _ hkin ⟨hb.current, hb.current⟩
  obtain ⟨u', m', π, hrun', hpassed, -⟩ := hboth.ok id hrun
  exact ⟨m', π, hrun', hpassed.kin, hpassed.distances.1, hpassed.distances.2, hpassed.current'.trans hb.current⟩

/-! ## The second text, on lines further down -/

/-- On any lines; references with the same entry. -/
def sameTexts (D : Distances) : Likeness where
  place a a' := a'.text = a.text
  reference ss r r' := r'.slot = r.slot ∧ SameDistance D D ss r r'
  boxes := False
  deeper := False
  deeper_of_boxes := id

/-- Between the two texts the machines are kin, when the session has loaded the second one. -/
theorem kin_between {m' : Machine} {π : Pairing} {D₁ D₂ : Distances} (h : Kin (upTo n D₁) #[] π m m')
    (hD : ∀ x : Int, x < n → m'.distances[x]? = D₁[x]?)
    (hD' : ∀ x : Int, (m.distances.merge D₂)[x]? = m'.distances[x]?) :
    Kin (sameTexts m'.distances) m.output π (m.atRest.load D₂) m' := by
  have hmore : ∀ ss r r', (upTo n D₁).reference ss r r' → (sameTexts m'.distances).reference ss r r' := by
    intro ss r r' ⟨hs, hlt, hsame⟩
    exact ⟨hs, hsame.congr (hD _ hlt) (by rw [hs]; exact hD _ hlt)⟩
  have hk : Kin (sameTexts m'.distances) #[] π { m with distances := m.distances.merge D₂ } m' :=
    h.relike (fun a a' ha => congrArg Lexeme.text ha.symm) hmore id id fun ss r r' hr => hr.2.congr (hD' r.slot) rfl
  have hprinted : m'.output = m.output ++ #[] := by rw [h.output, Array.empty_append, Array.append_empty]
  have hall : Kin (sameTexts m'.distances) m.output π (m.atRest.load D₂) m' ∧
      Paired π { m with distances := m.distances.merge D₂ } m' π (m.atRest.load D₂) m' :=
    hk.others rfl rfl rfl rfl rfl rfl rfl rfl h.instances hprinted h.ticks
  exact hall.1

theorem alike_lines {g : Shift} (hg : g.slots = 0) (hp : Accepted p)
    (hD : ∀ x ∈ Stmt.slotsAll p, D[x]? = (resolve p).distances[x]?) :
    Alike (sameTexts D) [] (.stmts p) (.stmts (g.stmts p)) := by
  refine Alike.shift g (alike_own hp) (fun a a' ha => by cases ha; rfl) (fun ss r r' hr => ?_) id id
  obtain ⟨hm, hs, hsame⟩ := hr
  have hslot : (g.reference r').slot = r.slot := by
    show r'.slot + g.slots = r.slot
    rw [hg, hs, Int.add_zero]
  refine ⟨hslot, ?_⟩
  have hboth := hsame.congr (hD r.slot hm) (hs ▸ hD r.slot hm)
  unfold SameDistance at hboth ⊢
  rw [hslot]
  rw [hs] at hboth
  exact hboth

/-! ## Both texts at once -/

theorem load_empty (m : Machine) : m.load ∅ = m := rfl

theorem forM_append {u : Unit} {f : Stmt → Eval Unit} {m₀ : Machine} (h : p.forM f m₀ = .ok u m) :
    (p ++ q).forM f m₀ = q.forM f m := by
  induction p generalizing m₀ with
  | nil =>
    cases h
    rfl
  | cons st rest ih =>
    obtain ⟨v, m₁, hfirst, hrest⟩ := Eval.of_bind_ok (f := fun _ => rest.forM f) h
    exact (Eval.bind_ok hfirst fun _ => (rest ++ q).forM f).trans (ih hrest)

theorem execute_append {u : Unit} (s : Session) (log : List Notice) (q : List Stmt)
    (h : p.forM (Eval.topLevel host s.interactive) (s.machine.load D) = .ok u m) :
    s.execute host log (p ++ q) D = { s with machine := m }.execute host log q ∅ := by
  obtain ⟨machine, nextSlot, interactive⟩ := s
  unfold execute Eval.interpret
  simp only [forM_append h, load_empty]

/-- The run of the joined text does what the two runs did. -/
structure AtOnce (first second whole : Report × Session) : Prop where
  accepted : whole.1.ending.isRejected = false
  output : whole.1.output = first.1.output ++ second.1.output
  globals : whole.2.machine.globals = second.2.machine.globals
  nextSlot : whole.2.nextSlot = second.2.nextSlot
  /-- An error is the second one's: the same message, at the same word of the text. -/
  ending : Ending.Like (fun x x' => x'.text = x.text) second.1.ending whole.1.ending

theorem runs_of_finished (h : (s.run host source).1.ending = .finished) :
    ∃ p u m, s.Runs source p ∧
      p.forM (Eval.topLevel host s.interactive) (s.machine.load (resolve p).distances) = .ok u m ∧
      (s.run host source).1.output = m.output ∧
      (s.run host source).2 = ⟨m.atRest, (parse (tokenize source).1 s.nextSlot).nextSlot, s.interactive⟩ := by
  rcases run_cases host s source with ⟨⟨errors, he⟩, -, -⟩ | ⟨p, m, hruns, hdone⟩
  · rw [he] at h
    cases h
  · rcases hdone.ending with ⟨u, hok, -⟩ | ⟨stop, -, he⟩
    · obtain ⟨log, hrun⟩ := run_runs host hruns
      have hexecute := execute_ok { s with nextSlot := (parse (tokenize source).1 s.nextSlot).nextSlot } log hok
      refine ⟨p, u, m, hruns, hok, ?_, hdone.session⟩
      rw [hrun, hexecute]
    · rw [he] at h
      cases stop with
      | outOfStack => cases h
      | fault fault => cases fault <;> cases h

theorem runs_of_accepted (h : (s.run host source).1.ending.isRejected = false) : ∃ p, s.Runs source p := by
  rcases run_cases host s source with ⟨-, hnone, -⟩ | ⟨p, m, hruns, -⟩
  · rw [(rejected_of_runs host hnone).1] at h
    cases h
  · exact ⟨p, hruns⟩

/-! ### Tables -/

variable {g : Shift}

theorem distances_joined (p q : List Stmt) (hg : g.slots = 0) (x : Int) :
    (resolve (p ++ g.stmts q)).distances[x]? = ((resolve q).distances[x]?).or (resolve p).distances[x]? := by
  have h := (resolve_append p q g).2 x
  rwa [hg, Int.add_zero] at h

/-- Up to the slots of the second text the joined one has the table of the first. -/
theorem table_first (hg : g.slots = 0) {x : Int} (hx : x ∉ Stmt.slotsAll q)
    (T : Distances) :
    (T.merge (resolve (p ++ g.stmts q)).distances)[x]? = (T.merge (resolve p).distances)[x]? := by
  rw [Distances.merge_get?, Distances.merge_get?, distances_joined p q hg, resolve_outside hx, Option.none_or]

/-- With both tables a session has that of the joined text. -/
theorem table_second (hg : g.slots = 0) (T : Distances) (x : Int) :
    ((T.merge (resolve p).distances).merge (resolve q).distances)[x]? =
      (T.merge (resolve (p ++ g.stmts q)).distances)[x]? := by
  rw [Distances.merge_get?, Distances.merge_get?, Distances.merge_get?, distances_joined p q hg, Option.or_assoc]

/-- The second text finds its own distances there. -/
theorem table_own (hg : g.slots = 0) {T : Distances} {x : Int} (hx : x ∉ Stmt.slotsAll p)
    (hT : T[x]? = none) :
    (T.merge (resolve (p ++ g.stmts q)).distances)[x]? = (resolve q).distances[x]? := by
  rw [Distances.merge_get?, distances_joined p q hg, resolve_outside hx, hT, Option.or_none, Option.or_none]

/-! ### Runs -/

/-- Behind the first text the joined one does what the second does. -/
theorem second_joined {w w' : World} {u : Unit} (ha : Begun host w s a p)
    (hb : Begun host w' ⟨m.atRest, (parse (tokenize a).1 s.nextSlot).nextSlot, s.interactive⟩ b q)
    (hg : g.slots = 0) (hrun : p.forM (Eval.topLevel host s.interactive) (s.machine.load (resolve p).distances)
    = .ok u m)
    (k k' : Int) (log log' : List Notice) : ∃ D, LikeRuns (sameTexts D) m.output
      (Session.execute host ⟨m.atRest, k, s.interactive⟩ log q (resolve q).distances)
      ({ s with nextSlot := k' }.execute host log' (p ++ g.stmts q) (resolve (p ++ g.stmts q)).distances) := by
  have hlow : ∀ x ∈ Stmt.slotsAll q, (parse (tokenize a).1 s.nextSlot).nextSlot ≤ x :=
    fun x hx => (hb.ranged.2.2 x hx).1
  have hfirst : ∀ x : Int, x < (parse (tokenize a).1 s.nextSlot).nextSlot →
      (s.machine.distances.merge (resolve (p ++ g.stmts q)).distances)[x]? =
        (s.machine.distances.merge (resolve p).distances)[x]? := by
    intro x hx
    exact table_first hg (fun hm => by have := hlow x hm; omega) _
  obtain ⟨m', π, hrun', hkin, htable, htable', hcurrent⟩ := first_ahead ha rfl hfirst hrun
  have hbetween : Kin (sameTexts m'.distances) m.output π (m.atRest.load (resolve q).distances) (m'.load ∅) :=
    kin_between hkin (fun x hx => by rw [htable']; exact hfirst x hx)
      (fun x => by rw [htable, htable']; exact table_second hg _ x)
  have hown : ∀ x ∈ Stmt.slotsAll q, m'.distances[x]? = (resolve q).distances[x]? := by
    intro x hx
    have hnext := hlow x hx
    have hnot : x ∉ Stmt.slotsAll p := fun hm => by
      have := (ha.ranged.2.2 x hm).2
      omega
    rw [htable']
    exact table_own hg hnot (ha.fresh x (Int.le_trans ha.ranged.1 hnext))
  have hlike := execute_alike ⟨m.atRest, k, s.interactive⟩ ⟨m', k', s.interactive⟩
    hbetween ⟨rfl, hcurrent⟩ rfl (fun _ => id) (alike_lines hg hb.accepted hown) hb.safe log log' False.elim
  have hcut := execute_append ⟨s.machine, k', s.interactive⟩ log' (g.stmts q) hrun'
  exact ⟨m'.distances, hcut ▸ hlike⟩

/-- Running two texts in pieces is running them at once. -/
theorem joined_at_once (host : Host) (interactive : Bool) (before : List String) (a b : String)
    (ha : ((after host interactive before).run host a).1.ending = .finished)
    (hb : (((after host interactive before).run host a).2.run host b).1.ending.isRejected = false) :
    AtOnce ((after host interactive before).run host a) (((after host interactive before).run host a).2.run host b)
      ((after host interactive before).run host (joined a b)) := by
  obtain ⟨p, u, m, hruns, hok, hprinted, hsession⟩ := runs_of_finished ha
  obtain ⟨q, hruns'⟩ := runs_of_accepted hb
  obtain ⟨hjoined, hslot⟩ := runs_joined hruns (run_nextSlot host (after host interactive before) a) hruns'
  have hbegun : Begun host (worldOf host interactive (before ++ [a]) b)
      ((after host interactive before).run host a).2 b q := by
    rw [← after_snoc] at hruns' ⊢
    exact begun hruns'
  obtain ⟨log, hrun⟩ := run_runs host hruns'
  obtain ⟨log', hrun'⟩ := run_runs host hjoined
  have haccepted := accepted_of_executes host hjoined
  have hslots : (Shift.behindText a).slots = 0 := rfl
  obtain ⟨D, hlike⟩ := second_joined (begun hruns) (hsession ▸ hbegun) hslots hok
    (parse (tokenize b).1 ((after host interactive before).run host a).2.nextSlot).nextSlot
    (parse (tokenize (joined a b)).1 (after host interactive before).nextSlot).nextSlot log log'
  have hlike' : LikeRuns (sameTexts D) m.output (((after host interactive before).run host a).2.run host b)
      ((after host interactive before).run host (joined a b)) := by
    rw [hrun, hrun']
    simp only [hsession] at hlike ⊢
    exact hlike
  refine ⟨haccepted, ?_, hlike'.globals, ?_, hlike'.ending⟩
  · rw [hlike'.output, hprinted]
  · rw [run_nextSlot, run_nextSlot, hslot]

def Ending.isFinished : Ending → Bool
  | .finished => true
  | _ => false

theorem Ending.isFinished_iff {e : Ending} : e.isFinished = true ↔ e = .finished := by
  cases e <;> simp [isFinished]

/-- A variable in one text, a wrong use of it in the next. -/
theorem joined_at_once_variable :
    AtOnce ((after (.ofClock fun _ => 0) false []).run (.ofClock fun _ => 0) "var a = nil;")
      (((after (.ofClock fun _ => 0) false []).run (.ofClock fun _ => 0) "var a = nil;").2.run (.ofClock fun _ => 0)
        "print a; a();")
      ((after (.ofClock fun _ => 0) false []).run (.ofClock fun _ => 0) (joined "var a = nil;" "print a; a();")) := by
  have hfinished : ((after (.ofClock fun _ => 0) false []).run (.ofClock fun _ => 0)
      "var a = nil;").1.ending.isFinished = true := by
    decide +kernel
  have haccepted : (((after (.ofClock fun _ => 0) false []).run (.ofClock fun _ => 0) "var a = nil;").2.run
      (.ofClock fun _ => 0) "print a; a();").1.ending.isRejected = false := by
    decide +kernel
  generalize Host.ofClock (fun _ => 0) = host at hfinished haccepted ⊢
  exact joined_at_once host false [] "var a = nil;" "print a; a();" (Ending.isFinished_iff.mp hfinished) haccepted

end Lox
