/-
  Lox.Proofs.Run.Agreement — the resolver and the running program agree, at every moment
  of every session (`resolver_agrees`): where a statement is executed or a use of a name is
  evaluated, the environments from the current one outward are activations, one for one,
  of the scopes that the resolver had open there, and behind them are the globals. The
  distance of the name leads to the activation of the scope that lexical scoping selects,
  a name that is read is bound there, and a name without a distance is declared in none of
  the scopes. So no text of a session ends in a fault of the tables: a run that does not
  come to its end stops with an error of the program, or in a loop that used up its
  rounds, or with the stack of the host used up outside of any call.
-/

import Lox.Proofs.Run.Sessions

namespace Lox

/-- A use of a name at a moment: its node, the name it stands for, and whether it is read there. -/
structure Use where
  target : Reference
  name : String
  isRead : Bool

/-- The part of a text that is executed or evaluated at a moment, if it is a statement or a
use of a name. -/
def Task.site? : Task → Option (Site × Option Use)
  | .stmt s => some (.stmt s, none)
  | .parent name target => some (.parent name target, some ⟨target, target.name.text, true⟩)
  | .expr (.ref target) => some (.expr (.ref target), some ⟨target, target.name.text, true⟩)
  | .expr (.assign target value) => some (.expr (.assign target value), some ⟨target, target.name.text, false⟩)
  | .expr (.this keyword) => some (.expr (.this keyword), some ⟨keyword, thisName, true⟩)
  | .expr (.super keyword method) => some (.expr (.super keyword method), some ⟨keyword, superName, true⟩)
  | _ => none

/-- At a part of the text, in environments that are activations of the scopes around it. -/
structure Stands (host : Host) (interactive : Bool) (sources : List String) (m : Machine) (site : Site) (p : List Stmt)
    (r : Resolver) (os : List Opened) : Prop where
  program : IsProgram host interactive sources p
  within : Within p site r os
  /-- The scopes of the resolver are the open ones. -/
  scopes : r.scopes.length = os.length
  chain : Chain (world host interactive sources sources) m m.current os
  outermost : m.store.outer? globalEnv = none

/-- What the table says of a use of a name. -/
structure Resolves (host : Host) (interactive : Bool) (sources : List String) (m : Machine) (os : List Opened)
    (u : Use) : Prop where
  finds : Finds (world host interactive sources sources) m os u.target u.name
  bound : u.isRead = true → IsBound m u.target u.name
  /-- A `super` reads its receiver too, one environment further in. -/
  receiver : u.name = superName → ∀ d, m.distances[u.target.slot]? = some d →
    ∃ id, m.store.readAt m.current (d - 1) thisName = .ok (.instance_ id)

/-- Where a name is used, the environments from the current one outward are the scopes of the
resolver, and the use reaches its binding. -/
def Agrees (host : Host) (interactive : Bool) (sources : List String) (M : Moment) : Prop :=
  ∀ site use?, M.task.site? = some (site, use?) →
    ∃ p r os, Stands host interactive sources M.machine site p r os ∧
      ∀ u, use? = some u → Resolves host interactive sources M.machine os u

/-! ## Every moment -/

variable {host : Host} {interactive : Bool} {sources : List String} {M : Moment} {w w' : World} {m : Machine}
  {p : List Stmt} {site : Site} {r : Resolver} {os : List Opened}

theorem length_completeName (x : String) (names : List Names) :
    (Resolver.completeName x names).length = names.length := by
  cases names <;> rfl

theorem scopes_length (hp : Accepted p) (h : Within p site r os) : r.scopes.length = os.length := by
  have houtline : r.scopes.length = (outline r.scopes).length := by simp [outline]
  have hnames : (namesOf os).length = os.length := by simp [namesOf]
  have hv := (resolved hp h).stands
  cases site with
  | stmts | stmt | routine | methods => rw [houtline, hv.1.scopes, hnames]
  | exprs | expr => rw [houtline, Standing.scopes hv, hnames]
  | parent => rw [houtline, AtParent.scopes hv, length_completeName, hnames]

theorem Finds.extends (he : w.Extends w') {target : Reference} {x : String} (h : Finds w m os target x) :
    Finds w' m os target x := by
  unfold Finds at h ⊢
  rwa [he.opened]

theorem IsBound.of_readAt {target : Reference} {x : String} {d : Int} {v : Value}
    (hd : m.distances[target.slot]? = some d) (hv : m.store.readAt m.current d x = .ok v) : IsBound m target x := by
  intro d' hd'
  rw [hd, Option.some.injEq] at hd'
  exact ⟨v, hd' ▸ hv⟩

/-- What is known of a use of a name where its text stands in the right environments. -/
theorem resolves_of_chain (he : w.Extends (world host interactive sources sources)) (ht : Tabled w m) (hp : w.known p)
    (h : Within p site r os) (hc : Chain w m m.current os) {t : Task} {u : Use}
    (hsite : t.site? = some (site, some u)) :
    Resolves host interactive sources m os u := by
  unfold Task.site? at hsite
  split at hsite <;> cases hsite
  next name target =>
    obtain ⟨hf, hb⟩ := finds_of_parent ht hp h hc
    have hname : target.name.IsPlain := (resolved (w.accepted p hp) h).tidy
    exact ⟨hf.extends he, fun _ => hb, fun hs => absurd hs hname.2⟩
  next target =>
    obtain ⟨hf, hb⟩ := finds_of_ref ht hp h hc
    have hname : target.name.IsPlain := (resolved (w.accepted p hp) h).tidy
    exact ⟨hf.extends he, fun _ => hb, fun hs => absurd hs hname.2⟩
  next target value =>
    have hname : target.name.IsPlain := (resolved (w.accepted p hp) h).tidy.1
    exact ⟨(finds_of_assign ht hp h hc).extends he, fun hr => (by cases hr), fun hs => absurd hs hname.2⟩
  next keyword =>
    obtain ⟨hf, d, id, hd, hid⟩ := finds_of_this ht hp h hc
    exact ⟨hf.extends he, fun _ => .of_readAt hd hid, fun hs => absurd hs this_ne_super⟩
  next keyword method =>
    obtain ⟨hf, d, k, id, hd, hk, hid⟩ := finds_of_super ht hp h hc
    refine ⟨hf.extends he, fun _ => .of_readAt hd hk, fun _ d' hd' => ⟨id, ?_⟩⟩
    have hd' : m.distances[keyword.slot]? = some d' := hd'
    rw [hd, Option.some.injEq] at hd'
    exact hd' ▸ hid

theorem at_of_fits {n room : Nat} {t : Task} {use? : Option Use} (hf : Fits host w ⟨n, room, t, m⟩)
    (hsite : t.site? = some (site, use?)) : At w m site := by
  have htask := hf.task
  unfold Task.site? at hsite
  split at hsite <;> cases hsite <;> exact htask

theorem agrees_of_fits (he : w.Extends (world host interactive sources sources)) (hf : Fits host w M) :
    Agrees host interactive sources M := by
  intro site use? hsite
  obtain ⟨p, r, os, hp, hwithin, hchain⟩ := at_of_fits hf hsite
  refine ⟨p, r, os, ⟨he.known p hp, hwithin, scopes_length (w.accepted p hp) hwithin, hchain.extends he,
    hf.inv.globals.2⟩,
    fun u hu => ?_⟩
  subst hu
  exact resolves_of_chain he hf.tabled hp hwithin hchain hsite

/-- At every moment that comes up in a session the environments from the current one outward are
the scopes that the resolver has open there, a use reaches the binding of the scope that it
stands in, and no fault of the host's own leaves a run. -/
theorem resolver_agrees (host : Host) (interactive : Bool) (sources : List String) :
    (∀ M, Occurs host interactive sources M → Agrees host interactive sources M) ∧
    ∀ before source rest, sources = before ++ source :: rest →
      ∀ fault, ((Session.after host interactive before).run host source).1.ending = .failed fault → fault
        = .outOfFuel := by
  constructor
  · intro M ⟨before, source, rest, p, hs, hruns, hreach⟩
    have hfits := fits_begins (ready_after hs) hruns
    have hbegins : Occurs host interactive sources ((Session.after host interactive before).begins host p) :=
      ⟨before, source, rest, p, hs, hruns, .refl⟩
    obtain ⟨-, hf⟩ := fits_reaches (history host interactive sources (before ++ [source])) hbegins hfits hreach
    have he : (world host interactive sources (before ++ [source])).Extends
      (world host interactive sources sources) := by
      refine ⟨rfl, fun q hq => ?_⟩
      have hmore := isProgram_append hq rest
      rw [List.append_assoc, List.singleton_append, ← hs] at hmore
      exact hmore
    exact agrees_of_fits he hf
  · intro before source rest hs fault hfailed
    rcases run_cases host (Session.after host interactive before) source with ⟨⟨errors, he⟩, -, -⟩
      | ⟨p, m, hruns, hdone⟩
    · rw [he] at hfailed
      cases hfailed
    · rcases hdone.ending with ⟨u, -, he⟩ | ⟨stop, herror, he⟩
      · rw [he] at hfailed
        cases hfailed
      · rw [he] at hfailed
        have hexpected := ((sound_begins (ready_after hs) hs hruns).error herror).2
        cases stop with
        | outOfStack => cases hfailed
        | fault cause =>
          rcases hexpected with rfl | ⟨e, rfl⟩
          · cases hfailed
            rfl
          · cases hfailed

/-- A block with a local variable, and a use of it. -/
def blockText : String := "\x7b var a = nil; a; \x7d"

def isLocalUse : List Stmt → Bool
  | [.block [.var _ (some (.literal .nil)), .expr (.ref _)]] => true
  | _ => false

theorem isLocalUse_eq (h : isLocalUse p = true) :
    ∃ name target, p = [.block [.var name (some (.literal .nil)), .expr (.ref target)]] := by
  unfold isLocalUse at h
  split at h
  next name target => exact ⟨name, target, rfl⟩
  next => cases h

theorem reaches_use {room : Nat} (hroom : host.stack = room + 4) (name : Lexeme) (target : Reference) (m : Machine) :
    ∃ m', Reaches host
      ⟨host.calls, host.stack, .program false [.block [.var name (some (.literal .nil)), .expr (.ref target)]], m⟩
      ⟨host.calls, room + 1, .expr (.ref target), m'⟩ := by
  have hblock : Reaches host
      ⟨host.calls, host.stack, .program false [.block [.var name (some (.literal .nil)), .expr (.ref target)]], m⟩
      ⟨host.calls, room + 4, .stmt (.block [.var name (some (.literal .nil)), .expr (.ref target)]), m⟩ :=
    hroom ▸ .step .refl (.statement fun h => by cases h)
  exact ⟨_, .step (.step (.step (.step hblock .block) (.next rfl)) .first) .effect⟩

/-- A variable of a block, read within it. -/
theorem resolver_agrees_block : ∃ M target, M.task = .expr (.ref target) ∧
    Occurs (.ofClock fun _ => 0) false [blockText] M ∧ Agrees (.ofClock fun _ => 0) false [blockText] M := by
  have hlexical : (tokenize blockText).2 = [] := by decide +kernel
  have herrors : (parse (tokenize blockText).1 0).errors = [] := by decide +kernel
  have hresolved : (resolve (parse (tokenize blockText).1 0).program).errors = [] := by decide +kernel
  have hshape : isLocalUse (parse (tokenize blockText).1 0).program = true := by decide +kernel
  obtain ⟨name, target, hp⟩ := isLocalUse_eq hshape
  obtain ⟨room, hroom⟩ : ∃ room, (Host.ofClock fun _ => 0).stack = room + 4 := ⟨9991, rfl⟩
  generalize Host.ofClock (fun _ => 0) = host at hroom ⊢
  have hruns : (Session.after host false []).Runs blockText (parse (tokenize blockText).1 0).program :=
    ⟨hlexical, herrors, rfl, hresolved⟩
  rw [hp] at hruns
  obtain ⟨m, hreach⟩ := reaches_use hroom name target ((Session.after host false []).begins host _).machine
  have hoccurs : Occurs host false [blockText] ⟨_, _, _, m⟩ := ⟨[], blockText, [], _, rfl, hruns, hreach⟩
  exact ⟨_, target, rfl, hoccurs, (resolver_agrees host false [blockText]).1 _ hoccurs⟩

end Lox
