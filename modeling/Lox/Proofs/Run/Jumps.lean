/-
  Lox.Proofs.Run.Jumps — `break`, `continue` and `return` reach the construct that they
  belong to, and go no further (`jumps_owned`).

  What a statement can complete with is read off its place in the text (`allowed_stmt`): a
  program, a loop and a routine are left with nothing that they do not take in. The other
  half is that nothing in between takes a jump in. From a moment inside the body of a loop
  or of a routine there is a path of statements back to where the body began (`Passes`),
  and what completes abruptly at its end completes the same way at its beginning
  (`Passes.ends`). That there is such a path wherever a jump is executed is an invariant
  of the run (`situated_step`).
-/

import Lox.Proofs.Run.Sessions
import Lox.Proofs.Scope.Placement
import Lox.Proofs.Tree.Parts

namespace Lox

/-! ## Completions -/

namespace Completion

/-- What a statement in a loop or in a routine may complete with. -/
def Allowed (inLoop inRoutine : Bool) : Completion → Prop
  | .normal => True
  | .broken => inLoop = true
  | .continued => inLoop = true
  | .returned _ => inRoutine = true

/-- What a loop and the body of a routine may complete with. -/
def IsNormalOrReturned (done : Completion) : Prop := done = .normal ∨ ∃ v, done = .returned v

theorem Allowed.isNormal {done : Completion} (h : done.Allowed false false) : done = .normal := by
  cases done <;> cases h
  rfl

theorem Allowed.isNormalOrReturned {done : Completion} {r : Bool} (h : done.Allowed false r) :
    done.IsNormalOrReturned := by
  cases done with
  | normal => exact Or.inl rfl
  | returned v => exact Or.inr ⟨v, rfl⟩
  | broken | continued => cases h

end Completion

open Completion Eval Stmt

variable {host : Host} {enter : Enter} {done : Completion} {m m' : Machine}

/-- A loop takes in the jumps of its body that are meant for it. -/
theorem allowed_rounds {r : Bool} {test : Eval Bool} {body : Eval Completion} {step : Eval Value} {n : Nat}
    (hb : ∀ m done m', body m = .ok done m' → done.Allowed true r) (h : rounds test body step n m = .ok done m') :
    done.Allowed false r := by
  induction n generalizing m with
  | zero => cases h
  | succ n ih =>
    obtain ⟨yes, m₁, -, h⟩ := of_bind_ok h
    cases yes with
    | false =>
      cases h
      trivial
    | true =>
      obtain ⟨left, m₂, hbody, h⟩ := of_bind_ok h
      have hleft := hb _ _ _ hbody
      cases left with
      | broken =>
        cases h
        trivial
      | returned v =>
        cases h
        exact hleft
      | normal | continued =>
        obtain ⟨v, m₃, -, h⟩ := of_bind_ok h
        exact ih h

theorem allowed_normal {a : Eval Unit} {b r : Bool}
    (h : (do a; return Completion.normal : Eval Completion) m = .ok done m') :
    done.Allowed b r := by
  obtain ⟨-, m₁, -, h⟩ := of_bind_ok h
  cases h
  trivial

mutual

/-- A statement ends by the jumps that it is placed for, and no others. -/
theorem allowed_stmt (s : Stmt) {b r : Bool} {room : Nat} {m : Machine} {done : Completion} {m' : Machine}
    (hp : s.Placed b r) (h : stmt host enter room s m = .ok done m') : done.Allowed b r := by
  obtain ⟨room, rfl⟩ := room_of_stmt h
  cases s with
  | expr =>
    obtain ⟨v, m₁, -, h⟩ := of_bind_ok h
    cases h
    trivial
  | print_ | var =>
    obtain ⟨v, m₁, -, h⟩ := of_bind_ok h
    exact allowed_normal h
  | block body =>
    obtain ⟨left, -, h⟩ := of_deeper_ok (show deeper room _ m = _ from h)
    obtain ⟨m₁, m₂, -, h⟩ := of_bind_ok h
    obtain ⟨env, m₃, -, h⟩ := of_bind_ok h
    obtain ⟨m₄, h, -⟩ := of_inside_ok h
    exact allowed_stmts body hp h
  | cond _ yes no =>
    obtain ⟨t, m₁, -, h⟩ := of_bind_ok h
    cases t with
    | true => exact allowed_stmt yes hp.1 h
    | false => exact allowed_stmtOpt no hp.2 h
  | loop _ body _ =>
    obtain ⟨left, -, h⟩ := of_deeper_ok (show deeper room _ m = _ from h)
    have hdone := allowed_rounds (fun _ _ _ hb => allowed_stmt body hp hb) h
    rcases hdone.isNormalOrReturned with rfl | ⟨v, rfl⟩
    · trivial
    · exact hdone
  | break_ | continue_ =>
    cases h
    exact hp
  | fun_ =>
    obtain ⟨-, h⟩ := of_needs_ok (show needs 1 room _ m = _ from h)
    obtain ⟨m₁, m₂, -, h⟩ := of_bind_ok h
    obtain ⟨v, m₃, -, h⟩ := of_bind_ok h
    exact allowed_normal h
  | return_ =>
    obtain ⟨v, m₁, -, h⟩ := of_bind_ok h
    cases (of_needs_ok h).2
    exact hp
  | class_ =>
    obtain ⟨left, -, h⟩ := of_deeper_ok (show deeper room _ m = _ from h)
    exact allowed_normal h

/-- A list of statements ends as its last one does, or as the first that does not end normally. -/
theorem allowed_stmts (ss : List Stmt) {b r : Bool} {room : Nat} {m : Machine} {done : Completion} {m' : Machine}
    (hp : PlacedAll b r ss) (h : stmts host enter room ss m = .ok done m') : done.Allowed b r := by
  cases ss with
  | nil =>
    cases h
    trivial
  | cons s rest =>
    obtain ⟨left, m₁, hs, h⟩ := of_bind_ok h
    have hleft := allowed_stmt s hp.1 hs
    cases left with
    | normal => exact allowed_stmts rest hp.2 h
    | broken | continued | returned =>
      cases h
      exact hleft

theorem allowed_stmtOpt (s : Option Stmt) {b r : Bool} {room : Nat} {m : Machine} {done : Completion} {m' : Machine}
    (hp : PlacedOpt b r s) (h : stmtOpt host enter room s m = .ok done m') : done.Allowed b r := by
  cases s with
  | none =>
    cases h
    trivial
  | some s => exact allowed_stmt s hp h

end

/-- A loop takes in the jumps of its body. -/
theorem allowed_loop {e : Expr} {body : Stmt} {step : Option Expr} {r : Bool} {room : Nat} (hp : body.Placed true r)
    (h : stmt host enter room (.loop e body step) m = .ok done m') : done.Allowed false r := by
  obtain ⟨room, rfl⟩ := room_of_stmt h
  obtain ⟨left, -, h⟩ := of_deeper_ok (show deeper room _ m = _ from h)
  exact allowed_rounds (fun _ _ _ hb => allowed_stmt body hp hb) h

/-! ## Parts of a body -/

namespace Task

/-- A statement or several; what is left of a loop is one if loops count. -/
def IsPart (loops : Bool) : Task → Prop
  | .stmts _ => True
  | .stmt _ => True
  | .rounds .. => loops = true
  | _ => False

def Contains (loops : Bool) (t : Stmt) : Task → Prop
  | .stmts ss => ∃ s ∈ ss, s.Contains loops t
  | .stmt s => s.Contains loops t
  | .rounds _ body _ _ => body.Contains loops t
  | _ => False

end Task

/-- A moment within another one, with nothing but statements in between. -/
inductive Passes (host : Host) (loops : Bool) (M : Moment) : Moment → Prop
  | refl : M.task.IsPart loops → Passes host loops M M
  | step {M₁ M₂ : Moment} : Passes host loops M M₁ → Evaluates host M₁ M₂ → M₂.task.IsPart loops →
      Passes host loops M M₂

variable {loops : Bool} {M M' M₀ : Moment} {t : Stmt} {n : Nat}

theorem Passes.isPart (h : Passes host loops M M') : M'.task.IsPart loops := by
  cases h <;> assumption

/-- What a part contains outside of loops and routines is contained in the whole. -/
theorem Evaluates.contains (he : Evaluates host M M') (hp : M.task.IsPart loops) (hp' : M'.task.IsPart loops)
    (h : M'.task.Contains loops t) : M.task.Contains loops t := by
  cases he with
  | first => exact ⟨_, List.mem_cons_self .., h⟩
  | next =>
    obtain ⟨s, hs, h⟩ := h
    exact ⟨s, List.mem_cons_of_mem _ hs, h⟩
  | block =>
    obtain ⟨s, hs, h⟩ := h
    exact .block hs h
  | condYes => exact .yes h
  | condNo => exact .no h
  | loop => exact .loop hp' h
  | loopBody | loopAgain => exact h
  | _ => first | exact absurd hp id | exact absurd hp' id

theorem Passes.contains (h : Passes host loops M M') (ht : M'.task.Contains loops t) : M.task.Contains loops t := by
  induction h with
  | refl => exact ht
  | step h he hp ih => exact ih (he.contains h.isPart hp ht)

theorem Evaluates.room_le (he : Evaluates host M M') (hp : M.task.IsPart loops) (hp' : M'.task.IsPart loops) :
    M'.room ≤ M.room := by
  cases he with
  | first | next | loopBody | loopAgain => exact Nat.le_refl _
  | condYes | condNo => exact Nat.le_succ _
  | block | loop => exact Nat.le_add_right _ 2
  | _ => first | exact absurd hp id | exact absurd hp' id

theorem Passes.room_le (h : Passes host loops M M') : M'.room ≤ M.room := by
  induction h with
  | refl => exact Nat.le_refl _
  | step h he hp ih => exact Nat.le_trans (he.room_le h.isPart hp) ih

theorem Reaches.trans (h : Reaches host M₀ M) (h' : Reaches host M M') : Reaches host M₀ M' := by
  induction h' with
  | refl => exact h
  | step _ he ih => exact .step ih he

theorem Passes.reaches (h : Passes host loops M M') (hr : Reaches host M₀ M) : Reaches host M₀ M' := by
  induction h with
  | refl => exact hr
  | step _ he _ ih => exact .step ih he

/-! ## Abrupt completion -/

/-- What the statements at a moment come to. -/
def Moment.Ends (host : Host) (M : Moment) (done : Completion) (m' : Machine) : Prop :=
  let enter := invoke host M.calls
  match M.task with
  | .stmts ss => stmts host enter M.room ss M.machine = .ok done m'
  | .stmt s => stmt host enter M.room s M.machine = .ok done m'
  | .rounds e body step left =>
    rounds (test enter M.room e) (stmt host enter M.room body) (exprOpt enter M.room step) left M.machine = .ok done m'
  | _ => False

/-- The environment is the one before. -/
def Moment.Steady (host : Host) (M : Moment) : Prop := ∀ done m', M.Ends host done m' → m'.current = M.machine.current

/-- A part that ends by a jump makes the whole end by it, back in the environment that it began
in. -/
theorem Evaluates.ends (he : Evaluates host M M') (hp : M.task.IsPart loops) (hp' : M'.task.IsPart loops)
    (hs : M.Steady host) (hd : done ≠ .normal) (hl : loops = true → ∃ v, done = .returned v)
    (h : M'.Ends host done m') :
    M.Ends host done { m' with current := M.machine.current } := by
  -- Outside of blocks the environment is the same one anyway.
  have same (h : M.Ends host done m') : M.Ends host done { m' with current := M.machine.current } := by
    rw [← hs done m' h]
    exact h
  cases he with
  | first =>
    refine same ((bind_ok h _).trans ?_)
    cases done with
    | normal => exact absurd rfl hd
    | _ => rfl
  | next hok => exact same ((bind_ok hok _).trans h)
  | @block n room body m =>
    have hin : inside m.store.size (stmts host (invoke host n) room body)
      { m with store := m.store.push ∅ (some m.current) }
        = .ok done { m' with current := m.current } := inside_ok h rfl
    exact hin
  | condYes hok => exact same ((bind_ok hok _).trans h)
  | condNo hok => exact same ((bind_ok hok _).trans h)
  | loop => exact same h
  | loopBody hok =>
    obtain ⟨v, rfl⟩ := hl hp
    exact same ((bind_ok hok _).trans (bind_ok h _))
  | loopAgain hok hbody hdone hstep =>
    refine same ((bind_ok hok _).trans ((bind_ok hbody _).trans ?_))
    rcases hdone with rfl | rfl <;> exact (bind_ok hstep _).trans h
  | _ => first | exact absurd hp id | exact absurd hp' id

/-- What ends abruptly ends all that is around it. -/
theorem Passes.ends (h : Passes host loops M M') (hs : ∀ M₁, Reaches host M M₁ → M₁.Steady host)
    (hd : done ≠ .normal) (hl : loops = true → ∃ v, done = .returned v) (he : M'.Ends host done m') :
    M.Ends host done { m' with current := M.machine.current } := by
  induction h generalizing m' with
  | refl =>
    rw [← hs _ .refl done m' he]
    exact he
  | @step M₁ M₂ h hstep hp ih =>
    have hup := ih (hstep.ends h.isPart hp (hs _ (h.reaches .refl)) hd hl he)
    exact hup

/-! ## Rounds and calls -/

/-- A round of a loop whose test has come out true. -/
structure Round where
  calls : Nat
  /-- The levels of the stack that are left for the body. -/
  room : Nat
  test : Expr
  body : Stmt
  step : Option Expr
  /-- How many rounds may follow. -/
  left : Nat
  /-- The machine before the loop. -/
  entered : Machine
  /-- The machine before the body. -/
  begun : Machine

namespace Round

def loop (r : Round) : Stmt := .loop r.test r.body r.step

/-- The step and the rounds that follow. -/
def again (host : Host) (r : Round) : Eval Completion := do
  let _ ← exprOpt (invoke host r.calls) r.room r.step
  rounds (Eval.test (invoke host r.calls) r.room r.test) (stmt host (invoke host r.calls) r.room r.body)
    (exprOpt (invoke host r.calls) r.room r.step) r.left

/-- The round from its body on. -/
def rest (host : Host) (r : Round) : Eval Completion := do
  match ← stmt host (invoke host r.calls) r.room r.body with
  | .broken => return .normal
  | .returned v => return .returned v
  | _ => r.again host

/-- The round of the innermost loop around a moment, in the same call. -/
structure Around (host : Host) (M₀ M : Moment) (r : Round) : Prop where
  reached : Reaches host M₀ ⟨r.calls, r.room + 2, .stmt r.loop, r.entered⟩
  begins : Reaches host M₀ ⟨r.calls, r.room, .stmt r.body, r.begun⟩
  /-- The loop comes to what is left of it from this body on. -/
  runs : stmt host (invoke host r.calls) (r.room + 2) r.loop r.entered = r.rest host r.begun
  passes : Passes host false ⟨r.calls, r.room, .stmt r.body, r.begun⟩ M

end Round

/-- A call of a closure. -/
structure Activation where
  calls : Nat
  /-- The levels of the stack that are left for the body. -/
  room : Nat
  closure : Closure
  values : List Value
  /-- The machine before the call. -/
  entered : Machine

namespace Activation

def task (a : Activation) : Task := .call a.closure a.values

/-- The machine before the body. -/
def begun (a : Activation) : Machine :=
  a.entered.inNew (Eval.arguments a.closure.routine.params a.values ∅) a.closure.env

/-- The innermost call around a moment. -/
structure Around (host : Host) (M₀ M : Moment) (a : Activation) : Prop where
  reached : Reaches host M₀ ⟨a.calls, a.room + 2, a.task, a.entered⟩
  passes : Passes host true ⟨a.calls, a.room, .stmts a.closure.routine.body, a.begun⟩ M

end Activation

/-! ## What is around a moment -/

/-- A moment in a loop or in a routine, as far as its statements need it. -/
structure Surrounded (host : Host) (M₀ M : Moment) (inLoop inRoutine : Bool) : Prop where
  round : inLoop = true → ∃ r : Round, r.Around host M₀ M
  call : inRoutine = true → ∃ a : Activation, a.Around host M₀ M

/-- The jumps at a moment stand in what is around it. -/
def Situated (host : Host) (M₀ M : Moment) : Prop :=
  match M.task with
  | .program _ ss => PlacedAll false false ss
  | .stmts ss => ∃ inLoop inRoutine, PlacedAll inLoop inRoutine ss ∧ Surrounded host M₀ M inLoop inRoutine
  | .stmt s => ∃ inLoop inRoutine, s.Placed inLoop inRoutine ∧ Surrounded host M₀ M inLoop inRoutine
  | .rounds e body step left => ∃ inRoutine, body.Placed true inRoutine ∧ Surrounded host M₀ M false inRoutine ∧
      ∃ entered, Reaches host M₀ ⟨M.calls, M.room + 2, .stmt (.loop e body step), entered⟩ ∧
        stmt host (invoke host M.calls) (M.room + 2) (.loop e body step) entered =
          rounds (Eval.test (invoke host M.calls) M.room e) (stmt host (invoke host M.calls) M.room body)
            (exprOpt (invoke host M.calls) M.room step) left M.machine
  | .call c _ => RoutinePlaced c.routine
  | _ => True

variable {b r : Bool}

/-- What is around a moment is around its parts too. -/
theorem Surrounded.step (h : Surrounded host M₀ M b r) (he : Evaluates host M M') (hp : M'.task.IsPart false) :
    Surrounded host M₀ M' b r where
  round hb := by
    obtain ⟨round, hr⟩ := h.round hb
    exact ⟨round, hr.reached, hr.begins, hr.runs, .step hr.passes he hp⟩
  call hr := by
    have hp' : M'.task.IsPart true := by
      revert hp
      cases M'.task <;> intro hp <;> trivial
    obtain ⟨a, ha⟩ := h.call hr
    exact ⟨a, ha.reached, .step ha.passes he hp'⟩

/-- On to what is left of a loop, or on with it: the loops further out are not asked for. -/
theorem Surrounded.toRounds (h : Surrounded host M₀ M b r) (he : Evaluates host M M') (hp : M'.task.IsPart true) :
    Surrounded host M₀ M' false r where
  round hb := by cases hb
  call hr := by
    obtain ⟨a, ha⟩ := h.call hr
    exact ⟨a, ha.reached, .step ha.passes he hp⟩

/-- Each part of a moment lies in the round and in the activation that the moment lies in, or
begins one of its own. -/
theorem situated_step (hr : Reaches host M₀ M) (h : Situated host M₀ M) (he : Evaluates host M M')
    (hc : ∀ c vs, M'.task = .call c vs → RoutinePlaced c.routine) : Situated host M₀ M' := by
  cases he with
  | statement => exact ⟨false, false, h.1, fun hb => (by cases hb), fun hb => by cases hb⟩
  | statements => exact h.2
  | first =>
    obtain ⟨b, r, hp, hs⟩ := h
    exact ⟨b, r, hp.1, hs.step .first trivial⟩
  | next hok =>
    obtain ⟨b, r, hp, hs⟩ := h
    exact ⟨b, r, hp.2, hs.step (.next hok) trivial⟩
  | block =>
    obtain ⟨b, r, hp, hs⟩ := h
    exact ⟨b, r, hp, hs.step .block trivial⟩
  | condYes hok =>
    obtain ⟨b, r, hp, hs⟩ := h
    exact ⟨b, r, hp.1, hs.step (.condYes hok) trivial⟩
  | condNo hok =>
    obtain ⟨b, r, hp, hs⟩ := h
    exact ⟨b, r, hp.2, hs.step (.condNo hok) trivial⟩
  | @loop n room e body step m =>
    obtain ⟨b, r, hp, hs⟩ := h
    exact ⟨r, hp, hs.toRounds .loop rfl, m, hr, rfl⟩
  | @loopBody n room left e body step m m' hok =>
    obtain ⟨r, hp, hs, entered, hentered, hruns⟩ := h
    have hstep : Evaluates host ⟨n, room, .rounds e body step (left + 1), m⟩ ⟨n, room, .stmt body, m'⟩ := .loopBody hok
    have hround : (⟨n, room, e, body, step, left, entered, m'⟩ : Round).Around host M₀ ⟨n, room, .stmt body, m'⟩ :=
      ⟨hentered, .step hr hstep, hruns.trans (bind_ok hok _), .refl trivial⟩
    have hinner : Surrounded host M₀ ⟨n, room, .stmt body, m'⟩ true r :=
      ⟨fun _ => ⟨_, hround⟩, (hs.step hstep trivial).call⟩
    exact ⟨true, r, hp, hinner⟩
  | @loopAgain n room left e step body done v m m₁ m₂ m₃ hok hbody hdone hstep =>
    obtain ⟨r, hp, hs, entered, hentered, hruns⟩ := h
    refine ⟨r, hp, hs.toRounds (.loopAgain hok hbody hdone hstep) rfl, entered, hentered, hruns.trans ?_⟩
    refine (bind_ok hok _).trans ((bind_ok hbody _).trans ?_)
    rcases hdone with rfl | rfl <;> exact bind_ok hstep _
  | function => exact hc _ _ rfl
  | construct => exact hc _ _ rfl
  | @body n room c vs m =>
    have hplaced := RoutinePlaced.body h
    have hcall : (⟨n, room, c, vs, m⟩ : Activation).Around host M₀
        ⟨n, room, .stmts c.routine.body, m.inNew (Eval.arguments c.routine.params vs ∅) c.env⟩ := ⟨hr, .refl trivial⟩
    exact ⟨false, true, hplaced, fun hb => (by cases hb), fun _ => ⟨_, hcall⟩⟩
  | _ => trivial

/-! ## In a session -/

variable {interactive : Bool} {before : List String} {source : String} {p : List Stmt} {w : World}

open Session

theorem placed_of_runs {s : Session} (h : s.Runs source p) : PlacedAll false false p := by
  have hread := Grammar.reads_of_parse h.errors
  rw [h.program] at hread
  exact placed_program (accepted_of_runs h).1 hread

theorem stays_of_ends (hist : History host w) (ho : hist.occurs M) (hf : Fits host w M) (h : M.Ends host done m') :
    Stays w M.machine m' := by
  have hsound := sound hist M ho hf
  obtain ⟨n, room, task, m⟩ := M
  cases task with
  | stmts | rounds => exact (Safe.ok hsound h).1
  | stmt => exact (Safe.ok hsound h).1
  | _ => cases h

/-- What is known of every moment of a run. -/
structure Settled (host : Host) (M₀ M : Moment) : Prop where
  situated : Situated host M₀ M
  steady : M.Steady host
  grows : ∀ done m', M.Ends host done m' → Grows M.machine m'
  /-- The environment of an initializer holds its receiver. -/
  receiver : ∀ c vs, M.task = .call c vs → c.isInit = true → ∃ id, M.machine.store.cell c.env thisName
    = some (.instance_ id)

/-- Every moment of a run is steady, placed, and lies in the rounds and activations that are
open. -/
theorem settled (hruns : (after host interactive before).Runs source p)
    (h : Reaches host ((after host interactive before).begins host p) M) :
    Settled host ((after host interactive before).begins host p) M := by
  have hsplit : before ++ [source] = before ++ ([source] : List String) := rfl
  have hready : Ready (world host interactive (before ++ [source]) before) (after host interactive before) :=
    ready_after hsplit
  have hfits := fits_begins hready hruns
  let hist := history host interactive (before ++ [source]) (before ++ [source])
  have hbegins : hist.occurs ((after host interactive before).begins host p) :=
    ⟨before, source, [], p, rfl, hruns, .refl⟩
  have hplaced : ∀ q, IsProgram host interactive (before ++ [source]) q → PlacedAll false false q := by
    rintro q ⟨first, text, rest, -, hq⟩
    exact placed_of_runs hq
  have hcalls : ∀ M', Reaches host ((after host interactive before).begins host p) M' → ∀ c vs, M'.task = .call c vs →
      IsFunction (world host interactive (before ++ [source]) (before ++ [source])) M'.machine c := by
    intro M' hreach c vs ht
    have htask := (fits_reaches hist hbegins hfits hreach).2.task
    rw [ht] at htask
    exact htask.1
  obtain ⟨hoccurs, hf⟩ := fits_reaches hist hbegins hfits h
  refine ⟨?_, fun _ _ he => (stays_of_ends hist hoccurs hf he).current, fun _ _ he =>
    (stays_of_ends hist hoccurs hf he).grows,
    fun c vs ht hi => ?_⟩
  · clear hoccurs hf
    induction h with
    | refl => exact placed_of_runs hruns
    | @step M₁ M₂ hreach he ih =>
      refine situated_step hreach ih he fun c vs ht => ?_
      obtain ⟨q, context, r, os, hq, hwithin, -⟩ := hcalls _ (.step hreach he) c vs ht
      exact within_placed (hplaced q hq) hwithin
  · obtain ⟨q, context, r, os, -, -, hchain, hinit⟩ := hcalls _ h c vs ht
    obtain ⟨superclass, methods, names, rest, rfl⟩ := hinit hi
    exact hchain.2.1.receiver superclass methods rfl

/-! ## Jumps -/

/-- A jump out of a loop ends the round of the innermost loop around it, with what `left`
says: nothing in between is run any more, and the environment of the loop is current again. -/
def LeavesRound (host : Host) (M₀ M : Moment) (t : Stmt) (left : Round → Prop) : Prop :=
  ∃ r : Round, r.Around host M₀ M ∧ r.body.Contains false t ∧ left r

/-- A `return` ends the innermost call around it. -/
def LeavesCall (host : Host) (M₀ M : Moment) (t : Stmt) (v : Value) (m' : Machine) : Prop :=
  ∃ a : Activation, a.Around host M₀ M ∧ (∃ s ∈ a.closure.routine.body, s.Contains true t) ∧
    ∃ result, call (stmts host (invoke host a.calls)) (a.room + 2) a.closure a.values a.entered
        = .ok result { m' with current := a.entered.current } ∧
      if a.closure.isInit then a.entered.store.cell a.closure.env thisName = some result ∧ ∃ id, result = .instance_ id
      else result = v

/-- What statements, loops and calls come to, and where the jumps at a moment go. -/
def Owned (host : Host) (M₀ M : Moment) : Prop :=
  match M.task with
  | .program _ (s :: _) => ∀ done m', stmt host (invoke host M.calls) M.room s M.machine = .ok done m' → done = .normal
  | .call c vs => ∀ done m', stmts host (invoke host M.calls) (M.room - 2) c.routine.body
      (M.machine.inNew (Eval.arguments c.routine.params vs ∅) c.env) = .ok done m' → done.IsNormalOrReturned
  | .stmt (.loop e body step) => ∀ done m', stmt host (invoke host M.calls) M.room (.loop e body step) M.machine
    = .ok done m' →
      done.IsNormalOrReturned
  | .stmt (.break_ keyword) => 0 < M.room → LeavesRound host M₀ M (.break_ keyword) fun r =>
      stmt host (invoke host r.calls) (r.room + 2) r.loop r.entered
        = .ok .normal { M.machine with current := r.entered.current }
  | .stmt (.continue_ keyword) => 0 < M.room → LeavesRound host M₀ M (.continue_ keyword) fun r =>
      stmt host (invoke host r.calls) (r.room + 2) r.loop r.entered
        = r.again host { M.machine with current := r.begun.current }
  | .stmt (.return_ keyword value) => 2 ≤ M.room → ∀ v m',
      exprOpt (invoke host M.calls) (M.room - 1) value M.machine = .ok v m' → LeavesCall host M₀ M
        (.return_ keyword value) v m'
  | _ => True

section Owned

variable {keyword : Lexeme} {value : Option Expr}

/-- An abrupt completion at a moment in a round is that of the body of the loop. -/
theorem Round.Around.ends {r : Round} (h : r.Around host M₀ M) (hs : ∀ M₁, Reaches host M₀ M₁ → M₁.Steady host)
    (hd : done ≠ .normal) (he : M.Ends host done m') :
    stmt host (invoke host r.calls) r.room r.body r.begun = .ok done { m' with current := r.begun.current } := by
  refine h.passes.ends (fun M₁ hreach => hs M₁ ?_) hd (fun h => by cases h) he
  exact h.begins.trans hreach

/-- A `break` ends the innermost round that it lies in. -/
theorem owned_break {m : Machine} (hs : ∀ M₁, Reaches host M₀ M₁ → M₁.Steady host)
    (h : Situated host M₀ ⟨n, room, .stmt (.break_ keyword), m⟩) :
    Owned host M₀ ⟨n, room, .stmt (.break_ keyword), m⟩ := by
  intro hroom
  obtain ⟨left, rfl⟩ := Nat.exists_eq_add_of_lt hroom
  obtain ⟨b, c, rfl, hsurrounded⟩ := h
  obtain ⟨r, hr⟩ := hsurrounded.round rfl
  have hbody : stmt host (invoke host r.calls) r.room r.body r.begun
    = .ok .broken { m with current := r.begun.current } :=
    hr.ends hs (fun h => by cases h) rfl
  have hloop : stmt host (invoke host r.calls) (r.room + 2) r.loop r.entered
    = .ok .normal { m with current := r.begun.current } := by
    rw [hr.runs]
    exact bind_ok hbody _
  have hcurrent : r.begun.current = r.entered.current :=
    hs _ hr.reached .normal { m with current := r.begun.current } hloop
  rw [hcurrent] at hloop
  exact ⟨r, hr, hr.passes.contains .self, hloop⟩

/-- A `continue` ends the body of the innermost round that it lies in. -/
theorem owned_continue {m : Machine} (hs : ∀ M₁, Reaches host M₀ M₁ → M₁.Steady host)
    (h : Situated host M₀ ⟨n, room, .stmt (.continue_ keyword), m⟩) :
    Owned host M₀ ⟨n, room, .stmt (.continue_ keyword), m⟩ := by
  intro hroom
  obtain ⟨left, rfl⟩ := Nat.exists_eq_add_of_lt hroom
  obtain ⟨b, c, rfl, hsurrounded⟩ := h
  obtain ⟨r, hr⟩ := hsurrounded.round rfl
  have hbody : stmt host (invoke host r.calls) r.room r.body r.begun
    = .ok .continued { m with current := r.begun.current } :=
    hr.ends hs (fun h => by cases h) rfl
  have hloop : stmt host (invoke host r.calls) (r.room + 2) r.loop r.entered
    = r.again host { m with current := r.begun.current } := by
    rw [hr.runs]
    exact bind_ok hbody _
  exact ⟨r, hr, hr.passes.contains .self, hloop⟩

/-- A `return` ends the innermost activation that it lies in, and an initializer gives its
receiver. -/
theorem owned_return {m : Machine} (hs : ∀ M₁, Reaches host M₀ M₁ → Settled host M₀ M₁)
    (h : Situated host M₀ ⟨n, room, .stmt (.return_ keyword value), m⟩) :
    Owned host M₀ ⟨n, room, .stmt (.return_ keyword value), m⟩ := by
  intro hroom v m' hv
  obtain ⟨left, rfl⟩ := Nat.exists_eq_add_of_le' hroom
  obtain ⟨b, c, rfl, hsurrounded⟩ := h
  obtain ⟨a, ha⟩ := hsurrounded.call rfl
  have hreached : Reaches host M₀ ⟨a.calls, a.room, .stmts a.closure.routine.body, a.begun⟩ := .step ha.reached .body
  have hbody : stmts host (invoke host a.calls) a.room a.closure.routine.body a.begun
      = .ok (.returned v) { m' with current := a.begun.current } := by
    refine ha.passes.ends (fun M₁ hreach => (hs M₁ (hreached.trans hreach)).steady) (fun h => by cases h)
      (fun _ => ⟨v, rfl⟩) ?_
    exact bind_ok hv _
  have hinside : inside a.entered.store.size (stmts host (invoke host a.calls) a.room a.closure.routine.body)
      { a.entered with
        store := a.entered.store.push (Eval.arguments a.closure.routine.params a.values ∅) (some a.closure.env) }
      = .ok (.returned v) { m' with current := a.entered.current } := inside_ok hbody rfl
  refine ⟨a, ha, ha.passes.contains .self, ?_⟩
  by_cases hi : a.closure.isInit = true
  · obtain ⟨id, hid⟩ := (hs _ ha.reached).receiver a.closure a.values rfl hi
    have hgrows : Grows a.entered { m' with current := a.begun.current } :=
      ((grows_push _ _).trans (grows_inEnv _ _)).trans ((hs _ hreached).grows _ _ hbody)
    have hread : readAt 0 thisName { m' with current := a.closure.env } =
        .ok (.instance_ id) { m' with current := a.closure.env } := by
      have hcell : m'.store.cell a.closure.env thisName = some (.instance_ id) := hgrows.fixed _ _ _ (Or.inl rfl) hid
      refine (bind_ok rfl _).trans ?_
      rw [show m'.store.readAt a.closure.env 0 thisName = .ok (.instance_ id) from Store.valueIn_of_cell hcell]
      rfl
    have hreceiver : inside a.closure.env (readAt 0 thisName) { m' with current := a.entered.current } =
        .ok (.instance_ id) { m' with current := a.entered.current } := inside_ok hread rfl
    -- The body had levels left for its `return`, so there are enough of them to read the receiver.
    have hlevels : 2 ≤ a.room + 1 := Nat.le_succ_of_le (Nat.le_trans hroom (ha.passes.room_le))
    refine ⟨.instance_ id, (bind_ok rfl _).trans ((bind_ok hinside _).trans ?_), ?_⟩
    · rw [if_pos hi, needs_of_le hlevels]
      exact hreceiver
    · rw [if_pos hi]
      exact ⟨hid, id, rfl⟩
  · refine ⟨v, (bind_ok rfl _).trans ((bind_ok hinside _).trans ?_), ?_⟩
    · rw [if_neg hi]
      rfl
    · rw [if_neg hi]

end Owned

/-- Statements at the top end normally, bodies and loops normally or by `return`; and each jump
ends the innermost round or activation that it lies in. -/
theorem jumps_owned (host : Host) (interactive : Bool) (before : List String) (source : String) (p : List Stmt)
    (hruns : (after host interactive before).Runs source p) (M : Moment)
    (h : Reaches host ((after host interactive before).begins host p) M) :
    Owned host ((after host interactive before).begins host p) M := by
  have hs : ∀ M₁, Reaches host ((after host interactive before).begins host p) M₁ →
      Settled host ((after host interactive before).begins host p) M₁ := fun M₁ hreach => settled hruns hreach
  have hsituated := (hs M h).situated
  unfold Owned
  split
  next s rest ht =>
    intro done m' hdone
    unfold Situated at hsituated
    rw [ht] at hsituated
    exact (allowed_stmt s hsituated.1 hdone).isNormal
  next c vs ht =>
    intro done m' hdone
    unfold Situated at hsituated
    rw [ht] at hsituated
    exact (allowed_stmts _ (RoutinePlaced.body hsituated) hdone).isNormalOrReturned
  next e body step ht =>
    intro done m' hdone
    unfold Situated at hsituated
    rw [ht] at hsituated
    obtain ⟨b, r, hp, -⟩ := hsituated
    exact (allowed_loop hp hdone).isNormalOrReturned
  next keyword ht =>
    obtain ⟨n, room, task, m⟩ := M
    cases ht
    exact owned_break (fun M₁ hreach => (hs M₁ hreach).steady) hsituated
  next keyword ht =>
    obtain ⟨n, room, task, m⟩ := M
    cases ht
    exact owned_continue (fun M₁ hreach => (hs M₁ hreach).steady) hsituated
  next keyword value ht =>
    obtain ⟨n, room, task, m⟩ := M
    cases ht
    exact owned_return hs hsituated
  next => trivial

def isEndlessLoop : List Stmt → Bool
  | [.loop (.literal (.bool true)) (.break_ _) none] => true
  | _ => false

theorem isEndlessLoop_eq (h : isEndlessLoop p = true) :
    ∃ keyword, p = [.loop (.literal (.bool true)) (.break_ keyword) none] := by
  unfold isEndlessLoop at h
  split at h
  next keyword => exact ⟨keyword, rfl⟩
  next => cases h

/-- A loop without end, whose body is a `break`. -/
theorem reaches_break {n room : Nat} (hn : host.rounds = n + 1) (hroom : host.stack = room + 3) (keyword : Lexeme)
    (m : Machine) :
    Reaches host ⟨host.calls, host.stack, .program false [.loop (.literal (.bool true)) (.break_ keyword) none], m⟩
      ⟨host.calls, room + 1, .stmt (.break_ keyword), m⟩ := by
  have hstmt : Reaches host
    ⟨host.calls, host.stack, .program false [.loop (.literal (.bool true)) (.break_ keyword) none], m⟩
      ⟨host.calls, room + 3, .stmt (.loop (.literal (.bool true)) (.break_ keyword) none), m⟩ :=
    hroom ▸ .step .refl (.statement fun h => by cases h)
  have hloop := Reaches.step hstmt .loop
  rw [hn] at hloop
  have htest : test (invoke host host.calls) (room + 1) (.literal (.bool true)) m = .ok true m := rfl
  exact .step hloop (.loopBody htest)

/-- A `break` that ends a loop without end. -/
theorem jumps_owned_break : ∃ p M keyword, (after (.ofClock fun _ => 0) false []).Runs "while (true) break;" p ∧
    Reaches (.ofClock fun _ => 0) ((after (.ofClock fun _ => 0) false []).begins (.ofClock fun _ => 0) p) M ∧
    0 < M.room ∧ M.task = .stmt (.break_ keyword) ∧
    Owned (.ofClock fun _ => 0) ((after (.ofClock fun _ => 0) false []).begins (.ofClock fun _ => 0) p) M := by
  have hlexical : (tokenize "while (true) break;").2 = [] := by decide +kernel
  have herrors : (parse (tokenize "while (true) break;").1 0).errors = [] := by decide +kernel
  have hresolved : (resolve (parse (tokenize "while (true) break;").1 0).program).errors = [] := by decide +kernel
  have hshape : isEndlessLoop (parse (tokenize "while (true) break;").1 0).program = true := by decide +kernel
  obtain ⟨keyword, hp⟩ := isEndlessLoop_eq hshape
  obtain ⟨n, hn⟩ : ∃ n, (Host.ofClock fun _ => 0).rounds = n + 1 := Nat.exists_eq_succ_of_ne_zero (by decide)
  obtain ⟨room, hroom⟩ : ∃ room, (Host.ofClock fun _ => 0).stack = room + 3 := ⟨9992, rfl⟩
  generalize Host.ofClock (fun _ => 0) = host at hn hroom ⊢
  have hruns : (after host false []).Runs "while (true) break;" (parse (tokenize "while (true) break;").1 0).program :=
    ⟨hlexical, herrors, rfl, hresolved⟩
  rw [hp] at hruns
  have hreach : Reaches host ((after host false []).begins host _) ⟨host.calls, room + 1, .stmt (.break_ keyword), _⟩ :=
    reaches_break hn hroom keyword _
  exact ⟨_, _, keyword, hruns, hreach, Nat.succ_pos room, rfl, jumps_owned host false [] _ _ hruns _ hreach⟩

end Lox
