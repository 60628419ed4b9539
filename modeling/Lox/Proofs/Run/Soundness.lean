/-
  Lox.Proofs.Run.Soundness — every moment of a run stands in the right environments, and
  what is evaluated there is safe.

  `Fits host w M` is what a moment needs: a heap in order, and for a part of a program,
  environments that are activations of the scopes around the part. Evaluating a moment
  that fits is `Sound`. The two are proved together, by the number of calls that may be
  open and the size of what is evaluated: a moment that is evaluated within another one
  fits (`fits_step`), since what came before it was sound, and with all of them sound the
  whole is (`sound_of_parts`).
-/

import Lox.Proofs.Run.Effects

namespace Lox

variable {host : Host} {w : World} {m m' : Machine} {site site' : Site}

/-! ## What a moment needs -/

/-- The task is one that the resolver has seen, in the scopes that the current environments are
activations of. -/
def Task.Fits (host : Host) (w : World) (n room : Nat) (m : Machine) : Task → Prop
  | .program _ ss => n = host.calls ∧ room = host.stack ∧ At w m (.stmts ss)
  | .stmts ss => At w m (.stmts ss)
  | .stmt s => At w m (.stmt s)
  | .rounds test body step _ => At w m (.stmt (.loop test body step))
  | .parent name target => At w m (.parent name target)
  | .exprs es => At w m (.exprs es)
  | .expr e => At w m (.expr e)
  | .enter _ callee values =>
    m.Valid callee ∧ (∀ v ∈ values, m.Valid v) ∧ Eval.arity? room callee m = .ok (some values.length) m
  | .call c values => IsFunction w m c ∧ (∀ v ∈ values, m.Valid v) ∧ values.length = c.routine.params.length
  | .bind method id => IsMethod w m method ∧ id < m.instances.size ∧ m.HasMethodIn method.env

/-- The machine is one of the world, and the task fits it. -/
structure Fits (host : Host) (w : World) (M : Moment) : Prop where
  inv : Inv w M.machine
  tabled : Tabled w M.machine
  /-- Names are declared in the current environment. -/
  home : M.machine.IsOpen M.machine.current
  task : M.task.Fits host w M.calls M.room M.machine

/-- A returned value stands for something. -/
def Returns (done : Completion) (m : Machine) : Prop := ∀ v, done = .returned v → m.Valid v

/-- What the moment evaluates is safe, and gives values of the machine. -/
def Sound (host : Host) (w : World) (M : Moment) : Prop :=
  let m := M.machine
  let enter := Eval.invoke host M.calls
  match M.task with
  | .program interactive ss => Safe w (ss.forM (Eval.topLevel host interactive)) m fun _ _ => True
  | .stmts ss => Safe w (Eval.stmts host enter M.room ss) m Returns
  | .stmt s => Safe w (Eval.stmt host enter M.room s) m fun done m' =>
      Returns done m' ∧ ∀ x ∈ Resolver.declared s, (m'.store.cell m.current x).isSome
  | .rounds test body step left =>
    Safe w (Eval.rounds (Eval.test enter M.room test) (Eval.stmt host enter M.room body)
      (Eval.exprOpt enter M.room step) left) m Returns
  | .parent _ target => Safe w (Eval.superclassValue M.room target) m fun k m' => m'.Valid (.class_ k) ∧ m' = m
  | .exprs es => Safe w (Eval.exprs enter M.room es) m fun vs m' => ∀ v ∈ vs, m'.Valid v
  | .expr e => Safe w (Eval.expr enter M.room e) m fun v m' => m'.Valid v
  | .enter paren callee values => Safe w (enter M.room paren callee values) m fun v m' => m'.Valid v
  | .call c values => Safe w (Eval.call (Eval.stmts host enter) M.room c values) m fun v m' => m'.Valid v
  | .bind method id => SafeBind w m method id

/-- Moments that occur, with all that is evaluated within them. -/
structure History (host : Host) (w : World) where
  occurs : Moment → Prop
  closed : ∀ M M', occurs M → Evaluates host M M' → occurs M'
  opens : ∀ M k frame, occurs M → Opens M k frame → w.opened k frame

/-! ## Fewer calls, or less to evaluate -/

noncomputable def Task.size : Task → Nat
  | .program _ ss => 2 * sizeOf ss + 1
  | .stmts ss => 2 * sizeOf ss
  | .stmt s => 2 * sizeOf s
  | .rounds test body step _ => 2 * (sizeOf test + sizeOf body + sizeOf step) + 1
  | .exprs es => 2 * sizeOf es
  | .expr e => 2 * sizeOf e
  | .call c _ => 2 * sizeOf c.routine.body + 1
  | .parent .. | .enter .. | .bind .. => 0

def Task.left : Task → Nat
  | .rounds _ _ _ left => left
  | _ => 0

noncomputable def Moment.rank (M : Moment) : Nat × Nat × Nat := (M.calls, M.task.size, M.task.left)

def Smaller (M' M : Moment) : Prop := Prod.Lex (· < ·) (Prod.Lex (· < ·) (· < ·)) M'.rank M.rank

theorem smaller_of_size {n room room' : Nat} {t t' : Task} (h : t'.size < t.size) :
    Smaller ⟨n, room', t', m'⟩ ⟨n, room, t, m⟩ :=
  .right _ (.left _ _ h)

/-- A part comes before the whole: it has fewer calls left, or a smaller tree, or fewer rounds. -/
theorem Evaluates.smaller {M M' : Moment} (h : Evaluates host M M') : Smaller M' M := by
  cases h with
  | function | initializer | construct => exact .left _ _ (Nat.lt_succ_self _)
  | loopAgain => exact .right _ (.right _ (Nat.lt_succ_self _))
  | _ =>
    apply smaller_of_size
    simp only [Task.size, Stmt.expr.sizeOf_spec, Stmt.print_.sizeOf_spec, Stmt.var.sizeOf_spec, Stmt.block.sizeOf_spec,
      Stmt.cond.sizeOf_spec, Stmt.loop.sizeOf_spec, Stmt.return_.sizeOf_spec, Stmt.class_.sizeOf_spec,
      Expr.group.sizeOf_spec, Expr.unary.sizeOf_spec, Expr.binary.sizeOf_spec, Expr.logical.sizeOf_spec,
      Expr.ternary.sizeOf_spec, Expr.assign.sizeOf_spec, Expr.call.sizeOf_spec, Expr.get.sizeOf_spec,
      Expr.set.sizeOf_spec, Expr.super.sizeOf_spec, List.cons.sizeOf_spec, Option.some.sizeOf_spec]
    omega

/-! ## Within the same scopes -/

/-- On to another part of the text, in the same environments. -/
theorem At.move (h : At w m site) (hs : Stays w m m')
    (f : ∀ {p : List Stmt} {r : Resolver} {os : List Opened}, Within p site r os → ∃ r', Within p site' r' os) :
    At w m' site' := by
  obtain ⟨p, r, os, hp, hwithin, hchain⟩ := h
  obtain ⟨r', hwithin'⟩ := f hwithin
  exact ⟨p, r', os, hp, hwithin', hs.current ▸ hchain.grows hs.grows⟩

theorem Tabled.same (h : Tabled w m) (hd : m'.distances = m.distances) : Tabled w m' :=
  fun p hp x hx => by rw [hd, h p hp x hx]

/-- A moment of the same run, some time later. -/
theorem Fits.later {n n' room room' : Nat} {t t' : Task} (h : Fits host w ⟨n, room, t, m⟩) (hs : Stays w m m')
    (ht : t'.Fits host w n' room' m') : Fits host w ⟨n', room', t', m'⟩ :=
  ⟨hs.inv, h.tabled.same hs.distances, hs.current ▸ hs.grows.opens _ h.home, ht⟩

theorem Fits.now {n n' room room' : Nat} {t t' : Task} (h : Fits host w ⟨n, room, t, m⟩)
    (ht : t'.Fits host w n' room' m) :
    Fits host w ⟨n', room', t', m⟩ :=
  h.later (Stays.refl h.inv) ht

/-! ## Optional parts -/

section Optional

variable {n room : Nat}

theorem safe_test {e : Expr} (h : Sound host w ⟨n, room, .expr e, m⟩) :
    Safe w (Eval.test (Eval.invoke host n) room e) m fun _ _ => True :=
  Safe.map h fun _ _ _ _ _ => trivial

theorem safe_exprOpt {e : Option Expr} (hm : Inv w m) (h : ∀ x, e = some x → Sound host w ⟨n, room, .expr x, m⟩) :
    Safe w (Eval.exprOpt (Eval.invoke host n) room e) m fun v m' => m'.Valid v := by
  cases e with
  | none => exact Safe.pure hm trivial
  | some x => exact h x rfl

end Optional

/-! ## New environments -/

theorem Chain.inNew {o : Opened} {os : List Opened} {k : Nat} {values : Bindings Value} (h : Chain w m k os)
    (ho : w.opened m.store.size o.frame) (hn : ∀ x, (x, true) ∈ o.names → (values.get? x).isSome)
    (hr : ∀ superclass methods, o.frame = .receiver superclass methods → ∃ id, values.get? thisName
    = some (.instance_ id))
    (hs : ∀ target methods, o.frame = .superclass target methods → ∃ c, values.get? superName = some (.class_ c)) :
    Chain w (m.inNew values k) (m.inNew values k).current (o :: os) :=
  (h.push ho hn hr hs).grows (grows_inEnv _ _)

/-- Every parameter is bound in the table of the arguments. -/
theorem arguments_isSome {params : List Lexeme} {vs : List Value} {table : Bindings Value} {x : String}
    (hlen : vs.length = params.length) (hx : (table.get? x).isSome ∨ x ∈ params.map (·.text)) :
    ((Eval.arguments params vs table).get? x).isSome := by
  induction params generalizing vs table with
  | nil =>
    cases vs with
    | nil => simpa [Eval.arguments] using hx
    | cons => cases hlen
  | cons p params ih =>
    cases vs with
    | nil => cases hlen
    | cons v vs =>
      refine ih (Nat.succ.inj hlen) ?_
      by_cases hp : p.text = x
      · exact Or.inl (by simp [hp])
      · rcases hx with hx | hx
        · exact Or.inl (by simpa [hp] using hx)
        · rcases List.mem_cons.mp hx with rfl | hx
          · exact absurd rfl hp
          · exact Or.inr hx

theorem valid_empty (x : String) (v : Value) (h : (∅ : Bindings Value).get? x = some v) : m.Valid v := by cases h

/-- The table of the arguments has values of the machine. -/
theorem arguments_valid (params : List Lexeme) {vs : List Value} (table : Bindings Value) (hvs : ∀ v ∈ vs, m.Valid v)
    (ht : ∀ x v, table.get? x = some v → m.Valid v) :
    ∀ x v, (Eval.arguments params vs table).get? x = some v → m.Valid v := by
  induction params generalizing vs table with
  | nil => simpa [Eval.arguments] using ht
  | cons p params ih =>
    cases vs with
    | nil => simpa [Eval.arguments] using ht
    | cons v vs =>
      refine ih _ (fun u hu => hvs u (List.mem_cons_of_mem _ hu)) fun x u hx => ?_
      rw [Bindings.get?_set] at hx
      split at hx
      · cases hx
        exact hvs _ (List.mem_cons_self ..)
      · exact ht x u hx

/-- Names other than the parameters stay as they are. -/
theorem arguments_other {params : List Lexeme} (vs : List Value) (table : Bindings Value) {x : String}
    (hx : ∀ p ∈ params, p.text ≠ x) : (Eval.arguments params vs table).get? x = table.get? x := by
  induction params generalizing vs table with
  | nil => simp [Eval.arguments]
  | cons p params ih =>
    cases vs with
    | nil => simp [Eval.arguments]
    | cons v vs =>
      rw [Eval.arguments, ih vs _ fun q hq => hx q (List.mem_cons_of_mem _ hq), Bindings.get?_set,
        if_neg (hx p (List.mem_cons_self ..))]

/-- No parameter has the name of a receiver or of a superclass. -/
theorem arguments_plain {f : Routine} (h : Stmt.RoutineTidy f) (vs : List Value) :
    (Eval.arguments f.params vs ∅).get? thisName = none ∧ (Eval.arguments f.params vs ∅).get? superName = none := by
  obtain ⟨name, params, body⟩ := f
  exact ⟨arguments_other vs ∅ fun p hp => (h.1 p hp).1, arguments_other vs ∅ fun p hp => (h.1 p hp).2⟩

theorem open_inNew {values : Bindings Value} {k : Nat} (hthis : values.get? thisName = none)
    (hsuper : values.get? superName = none) : (m.inNew values k).IsOpen (m.inNew values k).current := by
  refine ⟨values, ?_, hthis, hsuper⟩
  show (m.store.push values (some k)).values? m.store.size = some values
  rw [Store.values?_push, if_pos rfl]

theorem safe_print (h : Inv w m) (line : String) : Safe w (Eval.print line) m fun _ m' => m'.store = m.store := by
  have hs : Inv w { m with output := m.output.push line } ∧ Grows m { m with output := m.output.push line } :=
    h.same rfl rfl rfl rfl
  exact Safe.of_ok rfl ⟨hs.1, hs.2, rfl, rfl⟩ rfl

theorem safe_printValue (h : Inv w m) (room : Nat) (v : Value) :
    Safe w (Eval.printValue room v) m fun _ m' => m'.store = m.store :=
  Safe.needs h fun _ => Safe.get (safe_print h _)

theorem safe_echo (h : Inv w m) (room : Nat) (v : Value) : Safe w (Eval.echo room v) m fun _ m' => m'.store = m.store :=
  Safe.deeper h fun _ _ => safe_printValue h _ v

/-- A statement of the program itself, at a prompt or not. -/
theorem safe_topLevel (interactive : Bool) (s : Stmt)
    (he : ∀ e, interactive = true → s = .expr e → Sound host w ⟨host.calls, host.stack, .expr e, m⟩)
    (hs : (interactive = true → ∀ e, s ≠ .expr e) → Sound host w ⟨host.calls, host.stack, .stmt s, m⟩) :
    Safe w (Eval.topLevel host interactive s) m fun _ m' => ∀ x ∈ Resolver.declared s,
      (m'.store.cell m.current x).isSome := by
  unfold Eval.topLevel
  split
  next e =>
    exact Safe.bind (he e rfl rfl) fun v m' _ hstays _ =>
      (safe_echo hstays.inv _ v).mono fun _ _ _ _ _ _ h => by cases h
  next name init =>
    refine Safe.bind (hs fun _ _ h => by cases h) fun done m' _ hstays hdone => ?_
    refine Safe.get ((safe_echo hstays.inv _ _).mono fun _ m'' _ _ hsame x hx => ?_)
    rw [hsame]
    exact hdone.2 x hx
  next hne _ => exact Safe.map (hs fun hi e he => hne e hi he) fun done m' _ _ hdone => hdone.2

/-! ## What is evaluated within a moment that fits -/

theorem newInstance_ok {k id : Nat} (h : Eval.newInstance k m = .ok id m') :
    id = m.instances.size ∧ m' = { m with instances := m.instances.push ⟨k, ∅⟩ } := by
  cases h
  exact ⟨rfl, rfl⟩

/-- An initializer is bound to an instance that has just been made. -/
theorem initializer_fits {k id : Nat} {paren : Lexeme} {found : Closure} {vs : List Value} {n : Nat}
    {room : Nat}
    (h : Fits host w ⟨n + 1, room + 3, .enter paren (.class_ k) vs, m⟩) (hnew : Eval.newInstance k m = .ok id m')
    (hfound : findMethod? m'.classes initName k = some found) :
    Stays w m m' ∧ Fits host w ⟨n, room, .bind found id, m'⟩ := by
  obtain ⟨rfl, rfl⟩ := newInstance_ok hnew
  have hs := stays_newInstance h.inv k
  refine ⟨hs, h.later hs ⟨findMethod?_isMethod hs.inv hfound, ?_, findMethod?_hasMethodIn hfound⟩⟩
  show m.instances.size < (m.instances.push _).size
  simp

/-- What is evaluated within the moment is sound where it fits. -/
def SoundWhereFit (host : Host) (w : World) (M : Moment) : Prop :=
  ∀ M', Evaluates host M M' → Fits host w M' → Sound host w M'

/-- What follows an expression that has gone through. -/
theorem Fits.behind {n n' room room' inner : Nat} {t t' : Task} {e : Expr} {v : Value} (h : Fits host w ⟨n, room, t, m⟩)
    (he : Sound host w ⟨n', inner, .expr e, m⟩) (hok : Eval.expr (Eval.invoke host n') inner e m = .ok v m')
    (ht : Stays w m m' → t'.Fits host w n' room' m') : Fits host w ⟨n', room', t', m'⟩ :=
  h.later (Safe.ok he hok).1 (ht (Safe.ok he hok).1)

/-- What follows a test. -/
theorem Fits.decided {n n' room room' inner : Nat} {t t' : Task} {e : Expr} {truth : Bool}
    (h : Fits host w ⟨n, room, t, m⟩)
    (he : Sound host w ⟨n', inner, .expr e, m⟩) (hok : Eval.test (Eval.invoke host n') inner e m = .ok truth m')
    (ht : Stays w m m' → t'.Fits host w n' room' m') : Fits host w ⟨n', room', t', m'⟩ :=
  h.later ((safe_test he).ok hok).1 (ht ((safe_test he).ok hok).1)

section Fitting

variable {n room : Nat} {M : Moment}

/-- A statement of a program fits behind those before it. -/
theorem program_fits {interactive : Bool} {ss : List Stmt} (hf : Fits host w ⟨n, room, .program interactive ss, m⟩)
    (earlier : SoundWhereFit host w ⟨n, room, .program interactive ss, m⟩)
    (h : Evaluates host ⟨n, room, .program interactive ss, m⟩ M) : Fits host w M := by
  have stay : Stays w m m := Stays.refl hf.inv
  obtain ⟨hcalls, hroom, hat⟩ := hf.task
  cases h with
  | prompt => exact hf.now (hat.move stay fun h => ⟨_, .effect (.first h)⟩)
  | statement => exact hf.now (hat.move stay fun h => ⟨_, .first h⟩)
  | @statements _ s rest u _ m' hok =>
    have hs := safe_topLevel interactive s
      (fun e hi he => by
        subst hi he
        exact earlier _ .prompt (hf.now (hat.move stay fun h => ⟨_, .effect (.first h)⟩)))
      fun hs => earlier _ (.statement hs) (hf.now (hat.move stay fun h => ⟨_, .first h⟩))
    obtain ⟨hstays, hbound⟩ := hs.ok hok
    obtain ⟨p, r, os, hp, hwithin, hchain⟩ := hat
    refine hf.later hstays ⟨hcalls, hroom, p, _, _, hp, .next hwithin, ?_⟩
    rw [hstays.current]
    exact (hchain.grows hstays.grows).declare hbound

/-- A statement of a list fits behind those before it. -/
theorem stmts_fit {ss : List Stmt} (hf : Fits host w ⟨n, room, .stmts ss, m⟩)
    (earlier : SoundWhereFit host w ⟨n, room, .stmts ss, m⟩)
    (h : Evaluates host ⟨n, room, .stmts ss, m⟩ M) : Fits host w M := by
  have stay : Stays w m m := Stays.refl hf.inv
  have hat : At w m (.stmts ss) := hf.task
  cases h with
  | first => exact hf.now (hat.move stay fun h => ⟨_, .first h⟩)
  | @next _ _ s rest _ m' hok =>
    have hs := earlier _ .first (hf.now (hat.move stay fun h => ⟨_, .first h⟩))
    obtain ⟨hstays, -, hbound⟩ := Safe.ok hs hok
    obtain ⟨p, r, os, hp, hwithin, hchain⟩ := hat
    refine hf.later hstays ⟨p, _, _, hp, .next hwithin, ?_⟩
    rw [hstays.current]
    exact (hchain.grows hstays.grows).declare hbound

/-- What a statement is made of fits where the resolver has seen it. -/
theorem stmt_fits (hist : History host w) {s : Stmt} (ho : hist.occurs ⟨n, room, .stmt s, m⟩)
    (hf : Fits host w ⟨n, room, .stmt s, m⟩)
    (earlier : SoundWhereFit host w ⟨n, room, .stmt s, m⟩) (h : Evaluates host ⟨n, room, .stmt s, m⟩ M) :
    Fits host w M := by
  have stay : Stays w m m := Stays.refl hf.inv
  have hat : At w m (.stmt s) := hf.task
  cases h with
  | effect => exact hf.now (hat.move stay fun h => ⟨_, .effect h⟩)
  | printed => exact hf.now (hat.move stay fun h => ⟨_, .printed h⟩)
  | init =>
    obtain ⟨p, r, os, hp, hwithin, hchain⟩ := hat
    exact hf.now ⟨p, _, _, hp, .init hwithin, hchain.begin_⟩
  | @block _ _ body =>
    obtain ⟨p, r, os, hp, hwithin, hchain⟩ := hat
    have hs : Stays w m { m with store := m.store.push ∅ (some m.current) } :=
      stays_push hf.inv (fun _ _ h => by cases h) (.own rfl rfl)
    refine ⟨hs.inv.inEnv _, hf.tabled.same hs.distances, open_inNew rfl rfl, p, _, _, hp, .block hwithin, ?_⟩
    exact hchain.inNew (hist.opens _ _ (.block body) ho ⟨rfl, Nat.le_add_left .., rfl⟩) (fun _ h => by cases h)
      (fun _ _ h => by cases h)
      fun _ _ h => by cases h
  | condTest => exact hf.now (hat.move stay fun h => ⟨_, .condTest h⟩)
  | condYes hok =>
    have ht := earlier _ .condTest (hf.now (hat.move stay fun h => ⟨_, .condTest h⟩))
    exact hf.decided ht hok fun hs => hat.move hs fun h => ⟨_, .condYes h⟩
  | condNo hok =>
    have ht := earlier _ .condTest (hf.now (hat.move stay fun h => ⟨_, .condTest h⟩))
    exact hf.decided ht hok fun hs => hat.move hs fun h => ⟨_, .condNo h⟩
  | loop => exact hf.now hat
  | returned => exact hf.now (hat.move stay fun h => ⟨_, .returned h⟩)
  | parent =>
    obtain ⟨p, r, os, hp, hwithin, hchain⟩ := hat
    exact hf.now ⟨p, _, _, hp, .parent hwithin, hchain.begin_⟩

/-- The parts of each round fit as those of the first one do. -/
theorem rounds_fit {e : Expr} {body : Stmt} {step : Option Expr} {left : Nat}
    (hf : Fits host w ⟨n, room, .rounds e body step left, m⟩)
    (earlier : SoundWhereFit host w ⟨n, room, .rounds e body step left, m⟩)
    (h : Evaluates host ⟨n, room, .rounds e body step left, m⟩ M) : Fits host w M := by
  have stay : Stays w m m := Stays.refl hf.inv
  have hat : At w m (.stmt (.loop e body step)) := hf.task
  cases h with
  | loopTest => exact hf.now (hat.move stay fun h => ⟨_, .loopTest h⟩)
  | loopBody hok =>
    have ht := earlier _ .loopTest (hf.now (hat.move stay fun h => ⟨_, .loopTest h⟩))
    exact hf.decided ht hok fun hs => hat.move hs fun h => ⟨_, .loopBody h⟩
  | loopStep hok hbody hdone =>
    have ht := safe_test (earlier _ .loopTest (hf.now (hat.move stay fun h => ⟨_, .loopTest h⟩)))
    have hs := (ht.ok hok).1
    have hb := earlier _ (.loopBody hok) (hf.later hs (hat.move hs fun h => ⟨_, .loopBody h⟩))
    have hs' := hs.trans (Safe.ok hb hbody).1
    exact hf.later hs' (hat.move hs' fun h => ⟨_, .loopStep h⟩)
  | @loopAgain _ _ left _ _ _ done v _ m₁ m₂ m₃ hok hbody hdone hstep =>
    have ht := safe_test (earlier _ .loopTest (hf.now (hat.move stay fun h => ⟨_, .loopTest h⟩)))
    have hs := (ht.ok hok).1
    have hb := earlier _ (.loopBody hok) (hf.later hs (hat.move hs fun h => ⟨_, .loopBody h⟩))
    have hs' := hs.trans (Safe.ok hb hbody).1
    have he : Safe w (Eval.exprOpt (Eval.invoke host n) room step) m₂ fun v m' => m'.Valid v := by
      refine safe_exprOpt hs'.inv fun x hx => ?_
      subst hx
      exact earlier _ (.loopStep hok hbody hdone) (hf.later hs' (hat.move hs' fun h => ⟨_, .loopStep h⟩))
    have hs'' := hs'.trans (he.ok hstep).1
    exact hf.later hs'' (hat.move hs'' fun h => ⟨_, h⟩)

theorem exprs_fit {es : List Expr} (hf : Fits host w ⟨n, room, .exprs es, m⟩)
    (earlier : SoundWhereFit host w ⟨n, room, .exprs es, m⟩)
    (h : Evaluates host ⟨n, room, .exprs es, m⟩ M) : Fits host w M := by
  have stay : Stays w m m := Stays.refl hf.inv
  have hat : At w m (.exprs es) := hf.task
  cases h with
  | argument => exact hf.now (hat.move stay fun h => ⟨_, .argument h⟩)
  | nextArguments hok =>
    have hl := earlier _ .argument (hf.now (hat.move stay fun h => ⟨_, .argument h⟩))
    exact hf.behind hl hok fun hs => hat.move hs fun h => ⟨_, .nextArguments h⟩

/-- What an expression is made of fits where the resolver has seen it. -/
theorem expr_fits {e : Expr} (hf : Fits host w ⟨n, room, .expr e, m⟩)
    (earlier : SoundWhereFit host w ⟨n, room, .expr e, m⟩)
    (h : Evaluates host ⟨n, room, .expr e, m⟩ M) : Fits host w M := by
  have stay : Stays w m m := Stays.refl hf.inv
  have hat : At w m (.expr e) := hf.task
  cases h with
  | group => exact hf.now (hat.move stay fun h => ⟨_, .group h⟩)
  | operand => exact hf.now (hat.move stay fun h => ⟨_, .operand h⟩)
  | left => exact hf.now (hat.move stay fun h => ⟨_, .left h⟩)
  | right hok =>
    have hl := earlier _ .left (hf.now (hat.move stay fun h => ⟨_, .left h⟩))
    exact hf.behind hl hok fun hs => hat.move hs fun h => ⟨_, .right h⟩
  | logicalLeft => exact hf.now (hat.move stay fun h => ⟨_, .logicalLeft h⟩)
  | logicalRight hok =>
    have hl := earlier _ .logicalLeft (hf.now (hat.move stay fun h => ⟨_, .logicalLeft h⟩))
    exact hf.behind hl hok fun hs => hat.move hs fun h => ⟨_, .logicalRight h⟩
  | ternaryTest => exact hf.now (hat.move stay fun h => ⟨_, .ternaryTest h⟩)
  | ternaryYes hok =>
    have hl := earlier _ .ternaryTest (hf.now (hat.move stay fun h => ⟨_, .ternaryTest h⟩))
    exact hf.behind hl hok fun hs => hat.move hs fun h => ⟨_, .ternaryYes h⟩
  | ternaryNo hok =>
    have hl := earlier _ .ternaryTest (hf.now (hat.move stay fun h => ⟨_, .ternaryTest h⟩))
    exact hf.behind hl hok fun hs => hat.move hs fun h => ⟨_, .ternaryNo h⟩
  | value => exact hf.now (hat.move stay fun h => ⟨_, .value h⟩)
  | callee => exact hf.now (hat.move stay fun h => ⟨_, .callee h⟩)
  | arguments hok =>
    have hl := earlier _ .callee (hf.now (hat.move stay fun h => ⟨_, .callee h⟩))
    exact hf.behind hl hok fun hs => hat.move hs fun h => ⟨_, .arguments h⟩
  | entered hok hargs hcheck =>
    have hl := earlier _ .callee (hf.now (hat.move stay fun h => ⟨_, .callee h⟩))
    obtain ⟨hs, hv⟩ := Safe.ok hl hok
    have ha := earlier _ (.arguments hok) (hf.later hs (hat.move hs fun h => ⟨_, .arguments h⟩))
    obtain ⟨hs', hvs⟩ := Safe.ok ha hargs
    obtain ⟨-, rfl, harity⟩ := (safe_checkCall hs'.inv (hv.grows hs'.grows)).ok hcheck
    exact hf.later (hs.trans hs') ⟨hv.grows hs'.grows, hvs, harity⟩
  | object => exact hf.now (hat.move stay fun h => ⟨_, .object h⟩)
  | method hok _ _ hfound =>
    have hl := earlier _ .object (hf.now (hat.move stay fun h => ⟨_, .object h⟩))
    obtain ⟨hs, hv⟩ := Safe.ok hl hok
    exact hf.later hs ⟨findMethod?_isMethod hs.inv hfound, hv, findMethod?_hasMethodIn hfound⟩
  | setObject => exact hf.now (hat.move stay fun h => ⟨_, .setObject h⟩)
  | setValue hok =>
    have hl := earlier _ .setObject (hf.now (hat.move stay fun h => ⟨_, .setObject h⟩))
    exact hf.behind hl hok fun hs => hat.move hs fun h => ⟨_, .setValue h⟩
  | super _ _ hid hfound =>
    obtain ⟨k, hk⟩ := Store.cell_of_readAt hid
    exact hf.now ⟨findMethod?_isMethod hf.inv hfound, hf.inv.cells k _ _ hk, findMethod?_hasMethodIn hfound⟩

/-- A function that is called fits in the environment that it closes over. -/
theorem enter_fits {paren : Lexeme} {callee : Value} {vs : List Value}
    (hf : Fits host w ⟨n, room, .enter paren callee vs, m⟩)
    (earlier : SoundWhereFit host w ⟨n, room, .enter paren callee vs, m⟩)
    (h : Evaluates host ⟨n, room, .enter paren callee vs, m⟩ M) :
    Fits host w M := by
  obtain ⟨-, hvs, harity⟩ := hf.task
  cases h with
  | function hc =>
    rw [arity_function hc] at harity
    injection harity with harity
    exact hf.now ⟨hf.inv.functions _ _ hc, hvs, (Option.some.inj harity).symm⟩
  | initializer hnew hfound => exact (initializer_fits hf hnew hfound).2
  | @construct n _ k id _ found c _ _ m₁ m₂ hnew hfound hbind =>
    obtain ⟨hs, hfits⟩ := initializer_fits hf hnew hfound
    have hsafe : SafeBind w _ _ _ := earlier _ (.initializer hnew hfound) hfits
    obtain ⟨hs', hc, -, hroutine⟩ := Safe.ok hsafe hbind
    refine hf.later (hs.trans hs') ⟨hc, fun v hv => (hvs v hv).grows (hs.trans hs').grows, ?_⟩
    obtain ⟨-, rfl⟩ := newInstance_ok hnew
    rw [arity_class (m := m) hfound] at harity
    injection harity with harity
    rw [hroutine, Option.some.inj harity]

/-- A body fits in the environment of its arguments. -/
theorem call_fits (hist : History host w) {c : Closure} {vs : List Value} (ho : hist.occurs ⟨n, room, .call c vs, m⟩)
    (hf : Fits host w ⟨n, room, .call c vs, m⟩) (h : Evaluates host ⟨n, room, .call c vs, m⟩ M) : Fits host w M := by
  cases h with
  | body =>
    obtain ⟨⟨p, context, r, os, hp, hwithin, hchain, -⟩, hvs, hlen⟩ := hf.task
    have hvalid := arguments_valid c.routine.params ∅ hvs valid_empty
    obtain ⟨hthis, hsuper⟩ := arguments_plain (resolved (w.accepted p hp) hwithin).tidy vs
    have hs : Stays w m { m with store := m.store.push (Eval.arguments c.routine.params vs ∅) (some c.env) } :=
      stays_push hf.inv hvalid (.own hthis hsuper)
    refine ⟨hs.inv.inEnv _, hf.tabled.same hs.distances, open_inNew hthis hsuper, p, _, _, hp, .body hwithin, ?_⟩
    refine hchain.inNew (hist.opens _ _ (.routine c.routine) ho ⟨rfl, Nat.le_add_left .., rfl⟩) (fun x hx => ?_)
      (fun _ _ h => by cases h)
      fun _ _ h => by cases h
    refine arguments_isSome hlen (Or.inr ?_)
    obtain ⟨p, hp, he⟩ := List.mem_map.mp hx
    cases he
    exact List.mem_map_of_mem hp

end Fitting

/-- By one case for each way to come from a moment to a part of it. -/
theorem fits_step (hist : History host w) {M M' : Moment} (ho : hist.occurs M) (hf : Fits host w M)
    (ih : ∀ M', Smaller M' M → hist.occurs M' → Fits host w M' → Sound host w M') (h : Evaluates host M M') :
    Fits host w M' := by
  -- What is evaluated before `M'` within `M` has been sound.
  have earlier : SoundWhereFit host w M := fun M₁ he => ih M₁ he.smaller (hist.closed _ _ ho he)
  obtain ⟨n, room, task, m⟩ := M
  cases task with
  | program => exact program_fits hf earlier h
  | stmts => exact stmts_fit hf earlier h
  | stmt => exact stmt_fits hist ho hf earlier h
  | rounds => exact rounds_fit hf earlier h
  | exprs => exact exprs_fit hf earlier h
  | expr => exact expr_fits hf earlier h
  | enter => exact enter_fits hf earlier h
  | call => exact call_fits hist ho hf h
  | parent | bind => cases h

/-! ## A moment whose parts are sound -/

theorem At.tidy (h : At w m site) : site.Tidy := by
  obtain ⟨p, r, os, hp, hwithin, -⟩ := h
  exact (resolved (w.accepted p hp) hwithin).tidy

theorem Returns.normal (m : Machine) : Returns .normal m := fun _ h => by cases h

theorem Returns.grows {done : Completion} (h : Returns done m) (g : Grows m m') : Returns done m' :=
  fun v hv => (h v hv).grows g

/-- Every part of a moment is sound. -/
def PartsSound (host : Host) (w : World) (M : Moment) : Prop := ∀ M', Evaluates host M M' → Sound host w M'

section Parts

variable {n room : Nat}

/-- A program is sound if its statements are. -/
theorem sound_program {interactive : Bool} {ss : List Stmt} (hf : Fits host w ⟨n, room, .program interactive ss, m⟩)
    (parts : PartsSound host w ⟨n, room, .program interactive ss, m⟩) :
    Sound host w ⟨n, room, .program interactive ss, m⟩ := by
  obtain ⟨rfl, rfl, -⟩ := hf.task
  cases ss with
  | nil =>
    show Safe w (pure ()) m fun _ _ => True
    exact Safe.pure hf.inv trivial
  | cons s rest =>
    have hs := safe_topLevel interactive s
      (fun e hi he => by subst hi he; exact parts _ .prompt) fun hs => parts _ (.statement hs)
    exact Safe.bind hs fun u m' hok _ _ => parts _ (.statements hok)

theorem sound_stmts {ss : List Stmt} (hf : Fits host w ⟨n, room, .stmts ss, m⟩)
    (parts : PartsSound host w ⟨n, room, .stmts ss, m⟩) :
    Sound host w ⟨n, room, .stmts ss, m⟩ := by
  cases ss with
  | nil => exact Safe.pure hf.inv (Returns.normal m)
  | cons s rest =>
    refine Safe.bind (parts _ .first) fun done m' hok hs hdone => ?_
    cases done with
    | normal => exact parts _ (.next hok)
    | _ => exact Safe.pure hs.inv hdone.1

/-- Arguments are sound if each of them is. -/
theorem sound_exprs {es : List Expr} (hf : Fits host w ⟨n, room, .exprs es, m⟩)
    (parts : PartsSound host w ⟨n, room, .exprs es, m⟩) :
    Sound host w ⟨n, room, .exprs es, m⟩ := by
  cases es with
  | nil =>
    show Safe w (pure []) m fun vs m' => ∀ v ∈ vs, m'.Valid v
    exact Safe.pure hf.inv fun _ h => absurd h List.not_mem_nil
  | cons e rest =>
    refine Safe.bind (parts _ .argument) fun v m' hok _ hv => ?_
    refine Safe.map (parts _ (.nextArguments hok)) fun vs m'' _ hs hvs u hu => ?_
    rcases List.mem_cons.mp hu with rfl | hu
    · exact Machine.Valid.grows hv hs.grows
    · exact hvs u hu

/-- A loop is sound if its rounds are. -/
theorem sound_rounds {e : Expr} {body : Stmt} {step : Option Expr} {left : Nat}
    (hf : Fits host w ⟨n, room, .rounds e body step left, m⟩)
    (parts : PartsSound host w ⟨n, room, .rounds e body step left, m⟩) :
    Sound host w ⟨n, room, .rounds e body step left, m⟩ := by
  cases left with
  | zero => exact ⟨Stays.refl hf.inv, Or.inl rfl⟩
  | succ left =>
    refine Safe.bind (safe_test (parts _ .loopTest)) fun yes m' hok hs _ => ?_
    cases yes with
    | false => exact Safe.pure hs.inv (Returns.normal m')
    | true =>
      refine Safe.bind (parts _ (.loopBody hok)) fun done m'' hbody hs' hdone => ?_
      have again (hd : done = .normal ∨ done = .continued) : Safe w (do
          let _ ← Eval.exprOpt (Eval.invoke host n) room step
          Eval.rounds (Eval.test (Eval.invoke host n) room e) (Eval.stmt host (Eval.invoke host n) room body)
            (Eval.exprOpt (Eval.invoke host n) room step) left) m'' Returns := by
        have hstep : Safe w (Eval.exprOpt (Eval.invoke host n) room step) m'' fun v m' => m'.Valid v := by
          refine safe_exprOpt hs'.inv fun x hx => ?_
          subst hx
          exact parts _ (.loopStep hok hbody hd)
        exact Safe.bind hstep fun v _ hv _ _ => parts _ (.loopAgain hok hbody hd hv)
      cases done with
      | broken => exact Safe.pure hs'.inv (Returns.normal m'')
      | returned v => exact Safe.pure hs'.inv hdone.1
      | normal => exact again (Or.inl rfl)
      | continued => exact again (Or.inr rfl)

theorem sound_parent {name : Lexeme} {target : Reference} (hf : Fits host w ⟨n, room, .parent name target, m⟩) :
    Sound host w ⟨n, room, .parent name target, m⟩ := by
  obtain ⟨p, r, os, hp, hwithin, hchain⟩ := hf.task
  refine Safe.deeper hf.inv fun left _ => ?_
  refine Safe.bind (safe_read hf.inv (finds_of_parent hf.tabled hp hwithin hchain).2) fun v m' hok hs hv => ?_
  cases v with
  | class_ k => exact Safe.pure hs.inv ⟨hv, (read_ok hok).1⟩
  | _ => exact Safe.fail hs.inv _ _

/-- A call is sound if the body that is called is. -/
theorem sound_enter {paren : Lexeme} {callee : Value} {vs : List Value}
    (hf : Fits host w ⟨n, room, .enter paren callee vs, m⟩)
    (parts : PartsSound host w ⟨n, room, .enter paren callee vs, m⟩) :
    Sound host w ⟨n, room, .enter paren callee vs, m⟩ := by
  cases n with
  | zero =>
    show Safe w (Eval.fail paren .stackOverflow) m fun v m' => m'.Valid v
    exact Safe.fail hf.inv _ _
  | succ n =>
    refine Safe.catchStack ?_ paren
    cases callee with
    | clock =>
      have hs : Inv w { m with ticks := m.ticks + 1 } ∧ Grows m { m with ticks := m.ticks + 1 } :=
        hf.inv.same rfl rfl rfl rfl
      exact Safe.needs hf.inv fun _ => Safe.of_ok rfl ⟨hs.1, hs.2, rfl, rfl⟩ trivial
    | function id =>
      have hid : m.closures[id]?.isSome := by
        rw [Array.getElem?_eq_getElem hf.task.1]
        rfl
      refine Safe.get (Safe.bind (Q := fun c m' => m' = m ∧ m.closures[id]? = some c)
        (Safe.deref hf.inv hid fun c hc => ⟨rfl, hc⟩) fun c m' _ _ hc => ?_)
      obtain ⟨rfl, hc⟩ := hc
      exact parts _ (.function hc)
    | class_ k =>
      refine Safe.deeper hf.inv fun outer houter => Safe.deeper hf.inv fun inner hinner => ?_
      have hs := stays_newInstance hf.inv k
      have hid : m.instances.size < (m.instances.push (⟨k, ∅⟩ : Instance)).size := by simp
      refine Safe.bind (Q := fun id m' => id = m.instances.size ∧ m' = { m with instances := m.instances.push ⟨k, ∅⟩ })
        (Safe.of_ok rfl hs ⟨rfl, rfl⟩) fun id m' hnew _ hm => ?_
      obtain ⟨rfl, rfl⟩ := hm
      refine Safe.bind (safe_findMethod hs.inv 0 0 initName k) fun found m' _ _ hfound => ?_
      obtain ⟨rfl, hfound⟩ := hfound
      cases found with
      | none => exact Safe.pure hs.inv hid
      | some found =>
        -- The initializer is bound where there is a level for its environment.
        refine Safe.bind (Q := fun c m'' => 1 ≤ inner ∧ Eval.bindThis found m.instances.size
          { m with instances := m.instances.push ⟨k, ∅⟩ } = .ok c m'') (Safe.needs hs.inv fun hlevel => ?_)
          fun c m'' _ hs' hc => ?_
        · obtain ⟨left, rfl⟩ := Nat.exists_eq_add_of_le' hlevel
          subst hinner houter
          have hbind : SafeBind w _ found m.instances.size := parts _ (.initializer hnew hfound)
          exact Safe.mono hbind fun c m'' hc _ _ => ⟨hlevel, hc⟩
        · obtain ⟨left, rfl⟩ := Nat.exists_eq_add_of_le' hc.1
          subst hinner houter
          refine Safe.bind (parts _ (.construct hnew hfound hc.2)) fun v _ _ hs'' _ => Safe.pure hs''.inv ?_
          exact Nat.lt_of_lt_of_le hid (hs'.grows.trans hs''.grows).instances
    | _ => exact Safe.fail hf.inv _ _

/-- A value that is ready to be assigned. -/
theorem safe_assigned {target : Reference} {e : Expr} {v : Value}
    (hf : Fits host w ⟨n, room, .expr (.assign target e), m⟩)
    (hs : Stays w m m') (hv : m'.Valid v) (left : Nat) : Safe w (Eval.assign left target v) m' fun _ _ => True := by
  obtain ⟨p, r, os, hp, hwithin, hchain⟩ := hf.task
  have hchain' : Chain w m' m'.current os := hs.current ▸ hchain.grows hs.grows
  have hfinds := finds_of_assign (hf.tabled.same hs.distances) hp hwithin hchain'
  have hname := (resolved (w.accepted p hp) hwithin).tidy.1
  have houter := (resolved (w.accepted p hp) hwithin).stands.outer
  exact safe_assign hs.inv hfinds hchain' (hs.current ▸ hs.grows.opens _ hf.home) houter hname hv

/-- An expression is sound if its parts are. -/
theorem sound_expr {e : Expr} (hf : Fits host w ⟨n, room, .expr e, m⟩)
    (parts : PartsSound host w ⟨n, room, .expr e, m⟩) :
    Sound host w ⟨n, room, .expr e, m⟩ := by
  obtain ⟨p, r, os, hp, hwithin, hchain⟩ := hf.task
  cases room with
  | zero =>
    show Safe w (Eval.expr _ 0 e) m _
    rw [Eval.expr_zero]
    exact ⟨Stays.refl hf.inv, trivial⟩
  | succ room =>
  cases e with
  | literal value =>
    show Safe w (pure value.value) m fun v m' => m'.Valid v
    refine Safe.pure hf.inv ?_
    cases value <;> trivial
  | group e =>
    have hs : Sound host w ⟨n, room, .expr e, m⟩ := parts _ .group
    exact hs
  | unary op e =>
    exact Safe.bind (parts _ .operand) fun v m' _ hs _ => Safe.ofOperator hs.inv fun u hu => valid_unary hu
  | binary a op b =>
    refine Safe.bind (parts _ .left) fun u m' hok _ _ => Safe.bind (parts _ (.right hok)) fun v m'' _ hs hv => ?_
    refine Safe.deeper hs.inv fun _ _ => Safe.needs hs.inv fun _ => ?_
    exact Safe.get (Safe.ofOperator hs.inv fun _ hx => valid_binary hv hx)
  | logical a op b =>
    refine Safe.bind (parts _ .logicalLeft) fun u m' hok hs hu => ?_
    split
    next => exact Safe.pure hs.inv hu
    next hd => exact parts _ (.logicalRight hok (Bool.not_eq_true _ ▸ hd))
  | ternary a b c =>
    refine Safe.bind (parts _ .ternaryTest) fun u m' hok _ _ => ?_
    split
    next ht => exact parts _ (.ternaryYes hok ht)
    next ht => exact parts _ (.ternaryNo hok (Bool.not_eq_true _ ▸ ht))
  | ref target => exact safe_read hf.inv (finds_of_ref hf.tabled hp hwithin hchain).2
  | assign target e =>
    refine Safe.bind (parts _ .value) fun v m' _ hs hv => ?_
    exact Safe.bind (safe_assigned hf hs hv room) fun _ m'' _ hs' _ =>
      Safe.pure hs'.inv (Machine.Valid.grows hv hs'.grows)
  | call f paren es =>
    cases room with
    | zero => exact ⟨Stays.refl hf.inv, trivial⟩
    | succ room =>
    refine Safe.bind (parts _ .callee) fun v m' hok _ hv => ?_
    refine Safe.bind (parts _ (.arguments hok)) fun vs m'' hvs hs' _ => ?_
    exact Safe.bind (safe_checkCall hs'.inv (Machine.Valid.grows hv hs'.grows)) fun _ _ hcheck _ _ =>
      parts _ (.entered hok hvs hcheck)
  | get e name =>
    refine Safe.bind (parts _ .object) fun v m' hok hs hv =>
      safe_property hs.inv hv fun id i found hroom he hi hnone hfound => ?_
    subst he
    obtain ⟨left, rfl⟩ := Nat.exists_eq_add_of_le' hroom
    exact parts _ (.method hok hi hnone hfound)
  | set o name e =>
    refine Safe.bind (parts _ .setObject) fun v m' hok hs _ => ?_
    refine Safe.bind (safe_fieldOwner hs.inv) fun id m'' _ _ hid => ?_
    obtain ⟨rfl, rfl⟩ := hid
    refine Safe.bind (parts _ (.setValue hok)) fun u m₃ _ hs' hu => ?_
    exact Safe.bind (safe_setField hs'.inv hu id) fun _ _ _ hs'' _ =>
      Safe.pure hs''.inv (Machine.Valid.grows hu hs''.grows)
  | this keyword =>
    obtain ⟨-, d, id, hd, hid⟩ := finds_of_this hf.tabled hp hwithin hchain
    have hname : keyword.name.text = thisName := (resolved (w.accepted p hp) hwithin).tidy
    refine safe_read hf.inv fun d' hd' => ?_
    rw [hd, Option.some.injEq] at hd'
    exact ⟨_, hname ▸ hd' ▸ hid⟩
  | super keyword method =>
    obtain ⟨-, d, k, id, hd, hk, hid⟩ := finds_of_super hf.tabled hp hwithin hchain
    refine safe_superMethod hf.inv hd hk hid fun found hroom hfound => ?_
    obtain ⟨left, rfl⟩ := Nat.exists_eq_add_of_le' hroom
    exact parts _ (.super hd hk hid hfound)

/-- An initializer gives the receiver that its environment holds. -/
theorem safe_receiver {c : Closure} (h : Inv w m) (hc : IsFunction w m c) (hi : c.isInit = true) :
    Safe w (Eval.inside c.env (Eval.readAt 0 thisName)) m fun v m' => m'.Valid v := by
  obtain ⟨p, context, r, os, -, -, hchain, hinit⟩ := hc
  obtain ⟨superclass, methods, names, rest, rfl⟩ := hinit hi
  obtain ⟨-, hholds, -⟩ := hchain
  obtain ⟨id, hid⟩ := hholds.receiver superclass methods rfl
  have hread : m.store.readAt c.env 0 thisName = .ok (.instance_ id) := by
    have hanc : m.store.ancestor c.env 0 = .ok c.env := rfl
    rw [Store.readAt, hanc]
    exact Store.valueIn_of_cell hid
  have hvalid := h.cells c.env thisName _ hid
  refine Safe.inside (Q := fun v m' => m'.Valid v)
    (Safe.get (Safe.ofExcept (h.inEnv _) (fun v hv => ?_) fun fault hf => ?_))
    fun v m' _ _ hv => hv.grows (grows_inEnv _ _)
  · have hv' : m.store.readAt c.env 0 thisName = .ok v := hv
    rw [hread] at hv'
    cases hv'
    exact hvalid.grows (grows_inEnv _ _)
  · have hf' : m.store.readAt c.env 0 thisName = .error fault := hf
    rw [hread] at hf'
    cases hf'

/-- A call of a closure is sound if its body is. -/
theorem sound_call {c : Closure} {vs : List Value} (hf : Fits host w ⟨n, room, .call c vs, m⟩)
    (parts : PartsSound host w ⟨n, room, .call c vs, m⟩) : Sound host w ⟨n, room, .call c vs, m⟩ := by
  obtain ⟨hc, hvs, -⟩ := hf.task
  have hvalid := arguments_valid c.routine.params ∅ hvs valid_empty
  obtain ⟨p, context, r, os, hp, hwithin, -⟩ := hf.task.1
  obtain ⟨hthis, hsuper⟩ := arguments_plain (resolved (w.accepted p hp) hwithin).tidy vs
  match room with
  | 0 | 1 => exact ⟨Stays.refl hf.inv, trivial⟩
  | room + 2 =>
  refine Safe.bind (Q := fun env m' => env = m.store.size ∧
      m' = { m with store := m.store.push (Eval.arguments c.routine.params vs ∅) (some c.env) })
    (Safe.of_ok rfl (stays_push hf.inv hvalid (.own hthis hsuper)) ⟨rfl, rfl⟩) fun env m' _ hs hm => ?_
  obtain ⟨rfl, rfl⟩ := hm
  refine Safe.bind (Q := Returns) (Safe.inside (parts _ .body) fun done m' _ _ hd => hd.grows (grows_inEnv _ _))
    fun done m' _ hs' hd => ?_
  split
  next hi => exact Safe.needs hs'.inv fun _ => safe_receiver hs'.inv (hc.grows (hs.trans hs').grows) hi
  next =>
    cases done with
    | returned v => exact Safe.pure hs'.inv (hd v rfl)
    | _ => exact Safe.pure hs'.inv trivial

theorem sound_bind (hist : History host w) {method : Closure} {id : Nat}
    (ho : hist.occurs ⟨n, room, .bind method id, m⟩)
    (hf : Fits host w ⟨n, room, .bind method id, m⟩) : Sound host w ⟨n, room, .bind method id, m⟩ :=
  safe_bindThis hf.inv hf.task.1 hf.task.2.1 hf.task.2.2 fun superclass methods hm =>
    hist.opens _ _ (.receiver superclass methods) ho ⟨rfl, hm⟩

/-! ### Declarations -/

theorem within_method {p : List Stmt} {ms : List Routine} {f : Routine} {r : Resolver} {os : List Opened}
    (h : Within p (.methods ms) r os) (hf : f ∈ ms) : ∃ r', Within p (.routine (methodContext f) f) r' os := by
  induction ms generalizing r with
  | nil => cases hf
  | cons first rest ih =>
    rcases List.mem_cons.mp hf with rfl | hf
    · exact ⟨r, .method h⟩
    · exact ih (.nextMethod h) hf

/-- Among methods of one name the last one is the one that a class has. -/
theorem get?_methodTable (env : Nat) (ms : List Routine) (x : String) :
    (Eval.methodTable env ms).get? x =
      (ms.reverse.find? fun f => f.name.text == x).map fun f => ⟨f, env, f.isInit⟩ := by
  obtain ⟨rest, rfl⟩ : ∃ rest, ms = rest.reverse := ⟨ms.reverse, (List.reverse_reverse ms).symm⟩
  unfold Eval.methodTable
  rw [List.foldl_reverse, List.reverse_reverse]
  induction rest with
  | nil => rfl
  | cons f rest ih =>
    rw [List.foldr_cons, Bindings.get?_set, ih]
    by_cases hf : f.name.text = x <;> simp [hf]

theorem methodTable_get {env : Nat} {ms : List Routine} {x : String} {c : Closure}
    (h : (Eval.methodTable env ms).get? x = some c) : c.routine ∈ ms ∧ c.env = env := by
  rw [get?_methodTable] at h
  obtain ⟨f, hf, rfl⟩ := Option.map_eq_some_iff.mp h
  exact ⟨List.mem_reverse.mp (List.mem_of_find?_eq_some hf), rfl⟩

theorem methodTable_some {env : Nat} {ms : List Routine} {f : Routine} (hf : f ∈ ms) :
    ∃ c, (Eval.methodTable env ms).get? f.name.text = some c := by
  rw [get?_methodTable]
  have hfound : (ms.reverse.find? fun g => g.name.text == f.name.text).isSome :=
    List.find?_isSome.mpr ⟨f, List.mem_reverse.mpr hf, beq_self_eq_true _⟩
  exact Option.isSome_iff_exists.mp (Option.isSome_map.trans hfound)

/-- The environment that the methods of a class are declared in. -/
theorem safe_methodEnv {superclass : Option Reference} {parent : Option Nat} {methods : List Routine} {os : List Opened}
    (h : Inv w m) (hchain : Chain w m m.current os) (hhome : m.IsOpen m.current)
    (hparent : parent.isSome = superclass.isSome) (hvalid : ∀ k, parent = some k → m.Valid (.class_ k))
    (ho : ∀ target, superclass = some target → w.opened m.store.size (.superclass target methods)) :
    Safe w (Eval.methodEnv parent) m fun env m' => Chain w m' env (Opened.ofClass superclass methods os).tail ∧
      m'.DeclaresIn env parent ∧ (m'.IsOpen env ∨ ¬ m'.HasMethodIn env) := by
  cases parent with
  | none =>
    cases superclass with
    | none => exact Safe.of_ok rfl (Stays.refl h) ⟨hchain, hhome, Or.inl hhome⟩
    | some => cases hparent
  | some k =>
    cases superclass with
    | none => cases hparent
    | some target =>
      have hvalues : ∀ x v, (Bindings.single superName (Value.class_ k)).get? x = some v → m.Valid v := by
        intro x v hx
        rw [Bindings.get?_single] at hx
        split at hx <;> cases hx
        exact hvalid k rfl
      have hfree : ¬ m.HasMethodIn m.store.size := fun hm => Nat.lt_irrefl _ (h.sealed.method_lt hm)
      refine Safe.of_ok rfl (stays_push h hvalues (.superclass rfl)) ⟨?_, hasOnly_push m superName _ _, Or.inr hfree⟩
      refine hchain.push (ho target rfl) (fun x hx => ?_) (fun _ _ hf => by cases hf) fun _ _ _ => ⟨k, rfl⟩
      cases List.mem_singleton.mp hx
      rfl

/-- A superclass is read before anything is made, so that the environment for the methods comes next. -/
theorem safe_parent (hist : History host w) {name : Lexeme} {superclass : Option Reference} {methods : List Routine}
    (ho : hist.occurs ⟨n, room + 2, .stmt (.class_ name superclass methods), m⟩) (hm : Inv w m)
    (parts : PartsSound host w ⟨n, room + 2, .stmt (.class_ name superclass methods), m⟩) :
    Safe w (superclass.mapM (Eval.superclassValue room)) m fun parent m' =>
      m' = m ∧ parent.isSome = superclass.isSome ∧ (∀ k, parent = some k → m.Valid (.class_ k)) ∧
      ∀ target, superclass = some target → w.opened m.store.size (.superclass target methods) := by
  cases superclass with
  | none => exact Safe.pure hm ⟨rfl, rfl, fun _ h => (by cases h), fun _ h => (by cases h)⟩
  | some target =>
    refine Safe.bind (parts _ .parent) fun k m' hok _ hk => Safe.pure (hk.2 ▸ hm) ?_
    obtain ⟨hvalid, rfl⟩ := hk
    refine ⟨rfl, rfl, fun _ h => by cases h; exact hvalid, fun _ h => ?_⟩
    cases h
    exact hist.opens _ _ (.superclass target methods) ho ⟨rfl, rfl, rfl, k, m', hok⟩

/-- A class is sound: its superclass is read in its place, and its methods close over its own
environment. -/
theorem sound_class (hist : History host w) {name : Lexeme} {superclass : Option Reference} {methods : List Routine}
    (ho : hist.occurs ⟨n, room + 2, .stmt (.class_ name superclass methods), m⟩)
    (hf : Fits host w ⟨n, room + 2, .stmt (.class_ name superclass methods), m⟩)
    (parts : PartsSound host w ⟨n, room + 2, .stmt (.class_ name superclass methods), m⟩) :
    Sound host w ⟨n, room + 2, .stmt (.class_ name superclass methods), m⟩ := by
  have hname := hf.task.tidy.1
  have hcurrent := hf.home.lt
  obtain ⟨p, r, os, hp, hwithin, hchain⟩ := hf.task
  refine Safe.bind (Q := fun _ m' => (m'.store.cell m.current name.text).isSome) ?_ fun _ m' _ hs hx => Safe.pure hs.inv
    ⟨Returns.normal m', fun x hm => List.mem_singleton.mp hm ▸ hx⟩
  refine Safe.bind (safe_parent hist ho hf.inv parts) fun parent m' _ _ hpar => ?_
  obtain ⟨rfl, hsome, hvalid, hopened⟩ := hpar
  have hhome : m'.IsOpen m'.current := hf.home
  refine Safe.deeper hf.inv fun _ _ => ?_
  have hstays := stays_define (v := .nil) hf.inv hname trivial hhome
  refine Safe.bind (Q := fun _ m₁ => m₁ = { m' with store := m'.store.define m'.current name.text .nil })
    (Safe.of_ok rfl hstays rfl) fun _ m₁ _ _ hm => ?_
  subst hm
  have hbound : ((m'.store.define m'.current name.text .nil).cell m'.current name.text).isSome := by
    rw [Store.cell_define, if_pos ⟨rfl, rfl, hcurrent⟩]
    rfl
  have hdeclared : Chain w { m' with store := m'.store.define m'.current name.text .nil } m'.current
      (Opened.declare [name.text] os) :=
    (hchain.grows hstays.grows).declare fun x hx => List.mem_singleton.mp hx ▸ hbound
  have hopened' : ∀ target, superclass = some target →
      w.opened (m'.store.define m'.current name.text .nil).size (.superclass target methods) := by
    intro target ht
    rw [Store.size_define]
    exact hopened target ht
  have henv := safe_methodEnv hstays.inv hdeclared (hstays.grows.opens _ hhome) hsome hvalid hopened'
  refine Safe.bind henv fun env m₂ _ hs₂ ⟨hchain₂, hd, hfree⟩ => ?_
  have hmethods : ∀ x c, (Eval.methodTable env methods).get? x = some c → IsMethod w m₂ c ∧ c.env = env := by
    intro x c hx
    obtain ⟨hmem, rfl⟩ := methodTable_get hx
    obtain ⟨r', hmethod⟩ := within_method (.methods hwithin) hmem
    exact ⟨⟨p, superclass, methods, r', _, hp, hmem, hmethod, hchain₂⟩, rfl⟩
  refine Safe.bind (Q := fun v m₃ => m₃.Valid v) (Safe.of_ok rfl (stays_newClass hs₂.inv hmethods hd hfree) ?_)
    fun v m₃ _ hs₃ hv => ?_
  · show m₂.classes.size < (m₂.classes.push _).size
    simp
  refine Safe.get ((safe_assignIn hs₃.inv hname hv _).mono fun _ m₄ _ hs₄ _ => ?_)
  exact (hs₂.trans (hs₃.trans hs₄)).grows.bound _ _ hbound

/-- A function is declared in the environment that it is made in. -/
theorem sound_fun {f : Routine} (hf : Fits host w ⟨n, room + 2, .stmt (.fun_ f), m⟩) :
    Sound host w ⟨n, room + 2, .stmt (.fun_ f), m⟩ := by
  have hname := hf.task.tidy.1
  have hcurrent := hf.home.lt
  obtain ⟨p, r, os, hp, hwithin, hchain⟩ := hf.task
  -- The closure is as it should be only when its name is bound, so both effects are taken together.
  have hvalid : Machine.Valid { m with closures := m.closures.push ⟨f, m.current, false⟩ }
    (.function m.closures.size) := by
    show m.closures.size < (m.closures.push _).size
    simp
  let m' : Machine := { m with
    closures := m.closures.push ⟨f, m.current, false⟩
    store := m.store.define m.current f.name.text (.function m.closures.size) }
  have g : Grows m m' :=
    (grows_newFunction ⟨f, m.current, false⟩).trans (grows_define (v := .function m.closures.size) hname hf.home)
  have hbound : (m'.store.cell m.current f.name.text).isSome := by
    rw [Store.cell_define, if_pos ⟨rfl, rfl, hcurrent⟩]
    rfl
  have hchain' := (hchain.grows g).declare fun x hx => List.mem_singleton.mp hx ▸ hbound
  have hinv : Inv w m' := by
    have hsealed := sealed_define (v := .function m.closures.size)
      (sealed_newFunction (c := ⟨f, m.current, false⟩) hf.inv.sealed (Or.inl hf.home)) hname hf.home
    refine hf.inv.grow g hsealed (fun k x v hv => ?_) (fun i c hc => ?_) (fun _ _ _ _ hc _ => Or.inl hc)
      fun _ c _ _ hc hx => Or.inl ⟨c, hc, hx⟩
    · rw [Store.cell_define] at hv
      split at hv
      · cases hv
        exact Or.inr hvalid
      · exact Or.inl hv
    · rw [Array.getElem?_push] at hc
      split at hc
      · cases hc
        exact Or.inr ⟨p, _, _, _, hp, .fun_ hwithin, hchain', fun h => by cases h⟩
      · exact Or.inl hc
  have hstays : Stays w m m' := ⟨hinv, g, rfl, rfl⟩
  have hrun : Eval.stmt host (Eval.invoke host n) (room + 2) (.fun_ f) m = .ok .normal m' := rfl
  have hdone : Returns .normal m' ∧ ∀ x ∈ Resolver.declared (.fun_ f), (m'.store.cell m.current x).isSome :=
    ⟨Returns.normal m', fun x hx => List.mem_singleton.mp hx ▸ hbound⟩
  unfold Sound
  exact Safe.of_ok hrun hstays hdone

/-- A statement is sound if its parts are. -/
theorem sound_stmt (hist : History host w) {s : Stmt} (ho : hist.occurs ⟨n, room, .stmt s, m⟩)
    (hf : Fits host w ⟨n, room, .stmt s, m⟩)
    (parts : PartsSound host w ⟨n, room, .stmt s, m⟩) : Sound host w ⟨n, room, .stmt s, m⟩ := by
  have other {done : Completion} {m' : Machine} (hd : Returns done m') :
      Returns done m' ∧ ∀ x ∈ ([] : List String), (m'.store.cell m.current x).isSome :=
    ⟨hd, fun _ h => by cases h⟩
  cases room with
  | zero =>
    show Safe w (Eval.stmt host _ 0 s) m _
    rw [Eval.stmt_zero]
    exact ⟨Stays.refl hf.inv, trivial⟩
  | succ room =>
  have stopped : Stays w m m ∧ Stop.outOfStack.IsExpected := ⟨Stays.refl hf.inv, trivial⟩
  cases s with
  | expr e => exact Safe.map (parts _ .effect) fun _ m' _ _ _ => other (Returns.normal m')
  | print_ e =>
    refine Safe.bind (parts _ .printed) fun v m' _ hs _ => ?_
    exact Safe.bind (safe_printValue hs.inv room v) fun _ m'' _ hs' _ => Safe.pure hs'.inv (other (Returns.normal m''))
  | var name init =>
    have hinit : Safe w (Eval.exprOpt (Eval.invoke host n) room init) m fun v m' => m'.Valid v := by
      refine safe_exprOpt hf.inv fun x hx => ?_
      subst hx
      exact parts _ .init
    refine Safe.bind hinit fun v m' _ hs hv => ?_
    have hhome : m'.IsOpen m'.current := hs.current ▸ hs.grows.opens _ hf.home
    refine Safe.bind (Safe.needs hs.inv fun _ => safe_define hs.inv hf.task.tidy.1 hv hhome) fun _ m'' _ hs' hbound =>
      Safe.pure hs'.inv ⟨Returns.normal m'', fun x hx => ?_⟩
    rw [List.mem_singleton.mp hx, ← hs.current]
    exact hbound
  | block body =>
    cases room with
    | zero => exact stopped
    | succ room =>
    refine Safe.get (Safe.bind (Q := fun env m' => env = m.store.size ∧ m'
      = { m with store := m.store.push ∅ (some m.current) })
      (Safe.of_ok rfl (stays_push hf.inv (fun _ _ h => by cases h) (.own rfl rfl)) ⟨rfl, rfl⟩) fun env m' _ _ hm => ?_)
    obtain ⟨rfl, rfl⟩ := hm
    exact Safe.inside (parts _ .block) fun done m' _ _ hd => other (hd.grows (grows_inEnv _ _))
  | cond e yes no =>
    have htidy := hf.task.tidy
    refine Safe.bind (safe_test (parts _ .condTest)) fun b m' hok hs _ => ?_
    cases b with
    | true => exact Safe.mono (parts _ (.condYes hok)) fun _ _ _ _ hd => other hd.1
    | false =>
      cases no with
      | none => exact Safe.pure hs.inv (other (Returns.normal m'))
      | some no => exact Safe.mono (parts _ (.condNo hok)) fun _ _ _ _ hd => other hd.1
  | loop e body step =>
    cases room with
    | zero => exact stopped
    | succ room => exact Safe.mono (parts _ .loop) fun _ _ _ _ hd => other hd
  | break_ | continue_ =>
    unfold Sound
    exact Safe.pure hf.inv (other fun _ h => by cases h)
  | fun_ f =>
    cases room with
    | zero => exact stopped
    | succ room => exact sound_fun hf
  | return_ keyword value =>
    have hvalue : Safe w (Eval.exprOpt (Eval.invoke host n) room value) m fun v m' => m'.Valid v := by
      refine safe_exprOpt hf.inv fun x hx => ?_
      subst hx
      exact parts _ .returned
    refine Safe.bind hvalue fun v m' _ hs hv => Safe.needs hs.inv fun _ => Safe.pure hs.inv (other fun u hu => ?_)
    cases hu
    exact hv
  | class_ name superclass methods =>
    cases room with
    | zero => exact stopped
    | succ room => exact sound_class hist ho hf parts

/-- By one case for each kind of task. -/
theorem sound_of_parts (hist : History host w) {M : Moment} (ho : hist.occurs M) (hf : Fits host w M)
    (parts : PartsSound host w M) : Sound host w M := by
  obtain ⟨n, room, task, m⟩ := M
  cases task with
  | program => exact sound_program hf parts
  | stmts => exact sound_stmts hf parts
  | stmt => exact sound_stmt hist ho hf parts
  | rounds => exact sound_rounds hf parts
  | parent => exact sound_parent hf
  | exprs => exact sound_exprs hf parts
  | expr => exact sound_expr hf parts
  | enter => exact sound_enter hf parts
  | call => exact sound_call hf parts
  | bind => exact sound_bind hist ho hf

end Parts

/-! ## Every moment -/

theorem wellFounded_smaller : WellFounded Smaller :=
  InvImage.wf Moment.rank (Prod.lex Nat.lt_wfRel (Prod.lex Nat.lt_wfRel Nat.lt_wfRel)).wf

theorem sound (hist : History host w) (M : Moment) (ho : hist.occurs M) (hf : Fits host w M) : Sound host w M := by
  induction M using wellFounded_smaller.induction with
  | h M ih =>
    refine sound_of_parts hist ho hf fun M' he => ?_
    exact ih M' he.smaller (hist.closed M M' ho he) (fits_step hist ho hf (fun M₁ hlt => ih M₁ hlt) he)

theorem fits_reaches (hist : History host w) {M M' : Moment} (ho : hist.occurs M) (hf : Fits host w M)
    (h : Reaches host M M') : hist.occurs M' ∧ Fits host w M' := by
  induction h with
  | refl => exact ⟨ho, hf⟩
  | step _ he ih =>
    obtain ⟨ho', hf'⟩ := ih
    exact ⟨hist.closed _ _ ho' he, fits_step hist ho' hf' (fun M₁ _ => sound hist M₁) he⟩

end Lox
