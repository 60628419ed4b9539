/-
  Lox.Proofs.Run.Chains — the chains of environments and of classes are well-founded in
  every state that an interpreter comes to, and no link ever changes (`chains_founded`).

  The states of a history are the machines between its programs and those within them
  (`Past`): where something begins and where it ends, and in between where a statement makes
  environments, functions and classes in steps of its own (`Moment.Shows`). A class that is
  declared shows a machine after each of its steps, also if the declaration fails midway. All
  of them are founded, and what a later one adds leaves the links that are there as they are,
  so one number stands for one chain in all states of a history. Then the walks of the
  searches end, with no bound put on them.
-/

import Lox.Proofs.Run.Underway

namespace Lox

open Eval

variable {α : Type} {host : Host} {m m' D : Machine} {M : Moment}

/-! ## The states of a history -/

/-- The machines at a moment, but for those of what is evaluated within it. -/
inductive Moment.Shows (host : Host) : Moment → Machine → Prop
  | begun {M : Moment} : M.Shows host M.machine
  | done {M : Moment} : M.Shows host (M.done host)
  | block {n room : Nat} {body : List Stmt} {m : Machine} :
      Moment.Shows host ⟨n, room + 2, .stmt (.block body), m⟩ (final (newEnvironment ∅ m.current) m)
  | call {n room : Nat} {c : Closure} {values : List Value} {m : Machine} :
      Moment.Shows host ⟨n, room + 2, .call c values, m⟩
        (final (newEnvironment (arguments c.routine.params values ∅) c.env) m)
  /-- A function is made before its name is declared. -/
  | function {n room : Nat} {routine : Routine} {m : Machine} :
      Moment.Shows host ⟨n, room + 2, .stmt (.fun_ routine), m⟩ (final (newFunction ⟨routine, m.current, false⟩) m)
  | nameClass {n room : Nat} {name : Lexeme} {superclass : Option Reference} {methods : List Routine} {m : Machine} :
      Moment.Shows host ⟨n, room + 2, .stmt (.class_ name superclass methods), m⟩
        (final (nameClass room name superclass) m)
  | openClass {n room : Nat} {name : Lexeme} {superclass : Option Reference} {methods : List Routine} {m : Machine} :
      Moment.Shows host ⟨n, room + 2, .stmt (.class_ name superclass methods), m⟩
        (final (openClass room name superclass) m)
  | makeClass {n room : Nat} {name : Lexeme} {superclass : Option Reference} {methods : List Routine} {m : Machine} :
      Moment.Shows host ⟨n, room + 2, .stmt (.class_ name superclass methods), m⟩
        (final (makeClass room name superclass methods) m)

/-- `Past host D m`: an interpreter comes to `D` between two programs, whatever the trees and
their distances are, and on the way there its machine is `m`. -/
inductive Past (host : Host) : Machine → Machine → Prop
  | now {D : Machine} : Interpreted host D → Past host D D
  | load {D m : Machine} (distances : Distances) : Past host D m → Past host (D.load distances) m
  | program {D m : Machine} (interactive : Bool) (p : List Stmt) :
      Past host D m → Past host (final (interpret host interactive p) D) m
  | during {D m : Machine} {M : Moment} (interactive : Bool) (p : List Stmt) : Interpreted host D →
      Reaches host ⟨host.calls, host.stack, .program interactive p, D⟩ M → M.Shows host m →
      Past host (final (interpret host interactive p) D) m
  /-- What has been printed is taken off. -/
  | take {D m : Machine} : Past host D m → Past host { D with output := #[] } m

/-! ## All of them are founded -/

/-- The machines that the declaration of a class shows, one after the other. -/
theorem class_continues (host : Host) (hm : m.Founded) (n room : Nat) (name : Lexeme) (superclass : Option Reference)
    (methods : List Routine) :
    Continues m (final (nameClass room name superclass) m) ∧
      Continues (final (nameClass room name superclass) m) (final (openClass room name superclass) m) ∧
      Continues (final (openClass room name superclass) m) (final (makeClass room name superclass methods) m) ∧
      Continues (final (makeClass room name superclass methods) m)
        (Moment.done host ⟨n, room + 2, .stmt (.class_ name superclass methods), m⟩) := by
  obtain ⟨hname, hopen⟩ := (upholds_nameClass room name superclass).onward hm fun _ _ hc hparent =>
    upholds_enterSuper hc.founded hparent
  have hmake := ((upholds_openClass room name superclass).onward hm fun _ _ hc hopened =>
    upholds_addClass name methods hc.founded hopened).2
  have hleave := ((upholds_makeClass room name superclass methods).onward hm fun _ _ _ hmade =>
    upholds_leaveClass room name hmade).2
  have hdone : Continues (final (declareClass room name superclass methods) m)
      (Moment.done host ⟨n, room + 2, .stmt (.class_ name superclass methods), m⟩) :=
    ((upholds_declareClass room name superclass methods).onward hm fun _ _ _ _ => upholds_pure returns_normal).2
  rw [declareClass_steps] at hdone
  exact ⟨hname, hopen, hmake, hleave.trans hdone⟩

/-- What is shown comes after the beginning of a moment and before its end. -/
theorem shows_continues (h : M.Founded) (hs : M.Shows host m) : Continues M.machine m ∧ Continues m (M.done host) := by
  have hm := h.machine
  cases hs with
  | begun => exact ⟨.refl hm, h.done host⟩
  | done => exact ⟨h.done host, .refl (h.done host).founded⟩
  | @block n room body m =>
    exact (upholds_newEnvironment valid_empty fun _ => hm.current).onward hm fun _ _ _ henv =>
      (upholds_stmts (upholds_invoke host n) body room).inside (fun _ => henv) returns_inEnv
  | @call n room c values m =>
    have harguments := arguments_valid c.routine.params ∅ h.task.2 valid_empty
    refine (upholds_newEnvironment harguments fun _ => h.task.1).onward (R := Gives) hm fun _ _ hc henv => ?_
    refine ((upholds_stmts (upholds_invoke host n) c.routine.body room).inside (fun _ => henv) returns_inEnv).bind
      fun done _ hc' => ?_
    exact upholds_result (Nat.lt_of_lt_of_le h.task.1 (hc.trans hc').kept.size) _ done
  | @function n room routine m =>
    exact (upholds_newFunction fun _ => hm.current).onward hm fun _ _ _ hv =>
      (upholds_define routine.name.text hv).bind fun _ _ _ _ => upholds_pure returns_normal
  | @nameClass n room name superclass methods m =>
    obtain ⟨hname, hopen, hmake, hdone⟩ := class_continues host hm n room name superclass methods
    exact ⟨hname, hopen.trans (hmake.trans hdone)⟩
  | @openClass n room name superclass methods m =>
    obtain ⟨hname, hopen, hmake, hdone⟩ := class_continues host hm n room name superclass methods
    exact ⟨hname.trans hopen, hmake.trans hdone⟩
  | @makeClass n room name superclass methods m =>
    obtain ⟨hname, hopen, hmake, hdone⟩ := class_continues host hm n room name superclass methods
    exact ⟨hname.trans (hopen.trans hmake), hdone⟩

theorem continues_load (hm : m.Founded) (distances : Distances) : Continues m (m.load distances) :=
  continues_same hm rfl rfl rfl rfl hm.current

theorem continues_take (hm : m.Founded) : Continues m { m with output := #[] } :=
  continues_same hm rfl rfl rfl rfl hm.current

theorem interpreted_founded (h : Interpreted host D) : D.Founded := by
  induction h with
  | start => exact founded_start
  | load distances _ ih => exact (continues_load ih distances).founded
  | program interactive p _ ih => exact (continues_interpret ih host interactive p).founded
  | take _ ih => exact (continues_take ih).founded

theorem Past.interpreted (h : Past host D m) : Interpreted host D := by
  induction h with
  | now h => exact h
  | load distances _ ih => exact ih.load distances
  | program interactive p _ ih => exact ih.program interactive p
  | during interactive p h _ _ => exact h.program interactive p
  | take _ ih => exact ih.take

/-- A state of a history is founded, and nothing that it has is taken away or linked elsewhere. -/
theorem past_founded (h : Past host D m) : m.Founded ∧ Extends m D := by
  induction h with
  | now h => exact ⟨interpreted_founded h, .refl _⟩
  | load distances hpast ih =>
    exact ⟨ih.1, ih.2.trans (continues_load (interpreted_founded hpast.interpreted) distances).kept⟩
  | program interactive p hpast ih =>
    exact ⟨ih.1, ih.2.trans (continues_interpret (interpreted_founded hpast.interpreted) host interactive p).kept⟩
  | @during D m M interactive p hD hreaches hshows =>
    have hlies := reaches_lies (M := ⟨host.calls, host.stack, .program interactive p, D⟩)
      ⟨interpreted_founded hD, trivial⟩ hreaches
    obtain ⟨hbegun, hdone⟩ := shows_continues hlies.founded hshows
    rw [final_interpret_eq]
    exact ⟨hbegun.founded, (hdone.kept.trans hlies.before).trans (grows_inEnv _ _).extends⟩
  | take hpast ih => exact ⟨ih.1, ih.2.trans (continues_take (interpreted_founded hpast.interpreted)).kept⟩

/-! ## Chains -/

/-- The chain of environments from `k` outward ends in `last`. -/
def Store.EndsIn (s : Store α) (k last : Nat) : Prop :=
  k < s.size ∧ (∃ hops, s.ancestor? hops k = some last) ∧ s.outer? last = none

/-- Whoever goes from environment to environment comes to the globals. -/
theorem Machine.Founded.endsIn (h : m.Founded) {k : Nat} (hk : k < m.store.size) : m.store.EndsIn k globalEnv := by
  refine ⟨hk, ?_, h.globals.2⟩
  induction k using Nat.strongRecOn with
  | ind k ih =>
    by_cases hglobal : k = globalEnv
    · exact ⟨0, by rw [hglobal]; rfl⟩
    · obtain ⟨p, hlink, hp⟩ := h.links k hk hglobal
      obtain ⟨hops, hends⟩ := ih p hp (Nat.lt_trans hp hk)
      refine ⟨hops + 1, ?_⟩
      show (m.store.outer? k).bind (m.store.ancestor? hops) = _
      rw [hlink]
      exact hends

structure Machine.Chained (m : Machine) : Prop where
  /-- An environment lies in one that was made before it. -/
  environments : ∀ k p, m.store.outer? k = some p → p < k
  superclasses : ∀ k p, superclass? m.classes k = some p → p < k
  current : m.store.EndsIn m.current globalEnv
  closures : ∀ (i : Nat) c, m.closures[i]? = some c → m.store.EndsIn c.env globalEnv
  methods : ∀ (k : Nat) c x f, m.classes[k]? = some c → c.methods.get? x = some f → m.store.EndsIn f.env globalEnv

theorem Machine.Founded.superclass_older (h : m.Founded) {k p : Nat} (hp : superclass? m.classes k = some p) :
    p < k := by
  obtain ⟨c, hc, hparent⟩ := Option.bind_eq_some_iff.mp hp
  exact h.superclasses k c p hc hparent

theorem Machine.Founded.chained (h : m.Founded) : m.Chained where
  environments _ _ hp := h.older hp
  superclasses _ _ hp := h.superclass_older hp
  current := h.endsIn h.current
  closures i c hc := h.endsIn (h.closures i c hc)
  methods k c x f hc hf := h.endsIn (h.methods k c x f hc hf)

/-- What two states have in common has the same links in both. -/
structure SameLinks (m m' : Machine) : Prop where
  environments : ∀ k, k < m.store.size → k < m'.store.size → m.store.outer? k = m'.store.outer? k
  closures : ∀ (i : Nat) c c', m.closures[i]? = some c → m'.closures[i]? = some c' → c = c'
  classes : ∀ (k : Nat) c c', m.classes[k]? = some c → m'.classes[k]? = some c' → c = c'

theorem Extends.sameLinks (h : Extends m D) (h' : Extends m' D) : SameLinks m m' where
  environments k hk hk' := (h.links k hk).symm.trans (h'.links k hk')
  closures i _ _ hc hc' := Option.some.inj ((h.closures i _ hc).symm.trans (h'.closures i _ hc'))
  classes k _ _ hc hc' := Option.some.inj ((h.classes k _ hc).symm.trans (h'.classes k _ hc'))

/-! ## Searches -/

/-- Whatever is looked for, from wherever, the walk along the links comes to an end, and what is
found there, or that nothing is, is the outcome. -/
structure Machine.SearchesEnd (m : Machine) : Prop where
  get : ∀ i name, ∃ found, Walks (m.store.cell · name.text) m.store.outer? (some i) found ∧
    m.store.read i name = found.elim (.error (.runtime ⟨name, .undefinedVariable name.text⟩)) .ok
  assign : ∀ i name v, ∃ found, Walks (m.store.holds name.text) m.store.outer? (some i) found ∧
    m.store.assign i name v =
      found.elim (.error (.runtime ⟨name, .undefinedVariable name.text⟩)) fun k => .ok (m.store.define k name.text v)
  ancestor : ∀ i d, (∃ k, k + Distances.hops d ≤ i ∧ m.store.ancestor i d = .ok k) ∨
    m.store.ancestor i d = .error (.chainExceeded d)
  findMethod : ∀ name k, Walks (ownMethod? m.classes name) (superclass? m.classes) (some k)
    (findMethod? m.classes name k)

theorem Machine.Founded.searchesEnd (h : m.Founded) : m.SearchesEnd where
  get i name := Store.read_walks (fun _ _ hp => h.older hp) i name
  assign i name v := Store.assign_walks (fun _ _ hp => h.older hp) i name v
  ancestor i d := Store.ancestor_ends (fun _ _ hp => h.older hp) i d
  findMethod name k := findMethod?_walks (fun _ _ hp => h.superclass_older hp) name k

/-- In every state of every history, whatever is run with whatever distances, environments and
superclasses are older than what is in them or of them and the chains end in the globals; what is
there stays with its links, in all later states; and the searches end. -/
theorem chains_founded (h : Past host D m) :
    m.Chained ∧ Extends m D ∧ (∀ m', Past host D m' → SameLinks m m') ∧ m.SearchesEnd := by
  obtain ⟨hm, hext⟩ := past_founded h
  exact ⟨hm.chained, hext, fun m' h' => hext.sameLinks (past_founded h').2, hm.searchesEnd⟩

/-! ### A class and one derived from it -/

def baseName : Lexeme := ⟨"A", 1⟩
def derivedName : Lexeme := ⟨"B", 2⟩
def baseUse : Reference := ⟨⟨"A", 2⟩, 0⟩

def stillHost : Host := .ofClock fun _ => 0

/-- The base class is there. -/
def baseDeclared : Machine := final (interpret stillHost false [.class_ baseName none []]) .start

/-- The class derived from it is being declared. -/
def derivedOpened : Machine := final (openClass 9993 derivedName (some baseUse)) baseDeclared

/-- Between the steps of a class declaration, with the environment of `super` open. -/
theorem chains_founded_opened : derivedOpened.current = 1 ∧ derivedOpened.store.EndsIn 1 globalEnv := by
  have hcurrent : derivedOpened.current = 1 := by decide +kernel
  have hpast : Past stillHost (final (interpret stillHost false [.class_ derivedName (some baseUse) []]) baseDeclared)
      derivedOpened :=
    .during false _ (.program false _ .start) (.step .refl (.statement fun h => by cases h)) .openClass
  exact ⟨hcurrent, hcurrent ▸ (chains_founded hpast).1.current⟩

end Lox
