/-
  Lox.Proofs.Run.Endless — a function that calls itself until the stack comes to its end, and
  how often it does (`endless_calls`).

  Each time it prints a line and calls itself again; how it comes to that call is left open
  (`Leads`). A call takes five levels of the stack, and what leads to it takes levels of its
  own. So of two programs that say the same, one that goes deeper is told by the lines that
  it prints (`endless_output`), as is one that begins deeper.
-/

import Lox.Proofs.Alike.Runs

namespace Lox

open Eval

variable {α β : Type} {host : Host} {enter : Enter} {n room levels levels' lines id env : Nat} {m m₁ m₂ : Machine}
  {target : Reference} {paren name : Lexeme} {again s t u : Stmt}

/-! ## Actions that stop -/

/-- The action is stopped, and has printed so many lines by then. -/
def Stops (a : Eval α) (m : Machine) (lines : Nat) : Prop :=
  ∃ stop m', a m = .error stop m' ∧ m'.output.size = m.output.size + lines

namespace Stops

variable {a : Eval α} {f : α → Eval β} {v : α}

theorem of_eq {b : Eval α} (h : Stops b m lines) (hab : a m = b m) : Stops a m lines := by
  obtain ⟨stop, m', hb, hsize⟩ := h
  exact ⟨stop, m', hab.trans hb, hsize⟩

theorem at_once {stop : Stop} (h : a m = .error stop m) : Stops a m 0 := ⟨stop, m, h, rfl⟩

theorem bind (h : Stops a m lines) (f : α → Eval β) : Stops (a >>= f) m lines := by
  obtain ⟨stop, m', ha, hsize⟩ := h
  exact ⟨stop, m', bind_error ha f, hsize⟩

/-- What follows an action that has gone through is stopped. -/
theorem after {printed : Nat} (ha : a m = .ok v m₁) (hsize : m₁.output.size = m.output.size + printed)
    (h : Stops (f v) m₁ lines) : Stops (a >>= f) m (printed + lines) := by
  obtain ⟨stop, m', hf, hmore⟩ := h
  exact ⟨stop, m', (bind_ok ha f).trans hf, by omega⟩

theorem inNew {values : Bindings Value} {enclosing : Nat} (h : Stops a (m.inNew values enclosing) lines) :
    Stops (do let env ← newEnvironment values enclosing; Eval.inside env a) m lines := by
  obtain ⟨stop, m', ha, hsize⟩ := h
  exact ⟨stop, _, inside_error ha, hsize⟩

theorem catchStack (h : Stops a m lines) (paren : Lexeme) : Stops (Eval.catchStack paren a) m lines := by
  obtain ⟨stop, m', ha, hsize⟩ := h
  rcases catchStack_cases paren a m with hsame | ⟨m₂, hend, hcaught⟩
  · exact ⟨stop, m', hsame.trans ha, hsize⟩
  · rw [ha] at hend
    cases hend
    exact ⟨_, m', hcaught, hsize⟩

end Stops

theorem stops_stmt_zero (host : Host) (enter : Enter) (s : Stmt) (m : Machine) : Stops (stmt host enter 0 s) m 0 :=
  .at_once (by rw [stmt_zero]; rfl)

theorem stops_expr_zero (enter : Enter) (e : Expr) (m : Machine) : Stops (expr enter 0 e) m 0 :=
  .at_once (by rw [expr_zero]; rfl)

theorem lines_of_stmt_zero (h : Stops (stmt host enter 0 s) m lines) : lines = 0 := by
  obtain ⟨stop, m', hs, hsize⟩ := h
  rw [stmt_zero] at hs
  cases hs
  omega

theorem stops_rounds {test : Eval Bool} {body : Eval Completion} {step : Eval Value} {left : Nat}
    (ht : test m = .ok true m) (h : Stops body m lines) : Stops (rounds test body step (left + 1)) m lines := by
  obtain ⟨stop, m', hbody, hsize⟩ := h
  refine ⟨stop, m', ?_, hsize⟩
  show (test >>= _) m = _
  rw [bind_ok ht]
  exact bind_error hbody _

/-! ## What leads to a statement -/

/-- A machine, and what it is with more environments that hold nothing. -/
inductive Inner (m : Machine) : Machine → Prop
  | refl : Inner m m
  | opened {m₁ : Machine} : Inner m m₁ → Inner m (m₁.inNew ∅ m₁.current)

theorem Inner.trans (h : Inner m m₁) (h' : Inner m₁ m₂) : Inner m m₂ := by
  induction h' with
  | refl => exact h
  | opened _ ih => exact .opened ih

/-- The first thing that `s` does is to run `t`, so many levels deeper; where `t` is stopped, so
is `s`. -/
def Leads (host : Host) (levels : Nat) (s t : Stmt) : Prop :=
  ∀ enter m room,
    (room < levels → Stops (stmt host enter room s) m 0) ∧
    ∀ lines, (∀ m₁, Inner m m₁ → Stops (stmt host enter room t) m₁ lines) →
      Stops (stmt host enter (room + levels) s) m lines

/-- Levels add up along the way. -/
theorem Leads.trans (h : Leads host levels s t) (h' : Leads host levels' t u) : Leads host (levels + levels') s u := by
  intro enter m room
  constructor
  · intro hroom
    by_cases hfirst : room < levels
    · exact (h enter m room).1 hfirst
    · obtain ⟨left, rfl⟩ := Nat.exists_eq_add_of_le' (Nat.le_of_not_lt hfirst)
      exact (h enter m left).2 0 fun m₁ _ => (h' enter m₁ left).1 (by omega)
  · intro lines hu
    have ht : ∀ m₁, Inner m m₁ → Stops (stmt host enter (room + levels') t) m₁ lines := fun m₁ hm₁ =>
      (h' enter m₁ room).2 lines fun m₂ hm₂ => hu m₂ (hm₁.trans hm₂)
    have hs := (h enter m (room + levels')).2 lines ht
    rwa [show room + (levels + levels') = room + levels' + levels by omega]

/-- A block runs its first statement in an environment of its own. -/
theorem leads_block (host : Host) (t : Stmt) (rest : List Stmt) : Leads host 2 (.block (t :: rest)) t := by
  intro enter m room
  constructor
  · intro hroom
    match room, hroom with
    | 0, _ => exact stops_stmt_zero ..
    | 1, _ => exact .at_once rfl
  · intro lines ht
    have hbody : Stops (stmts host enter room (t :: rest)) (m.inNew ∅ m.current) lines := (ht _ (.opened .refl)).bind _
    exact hbody.inNew

/-- A loop that is entered runs its body. -/
theorem leads_loop (hrounds : 0 < host.rounds) (t : Stmt) (step : Option Expr) :
    Leads host 2 (.loop (.literal (.bool true)) t step) t := by
  intro enter m room
  constructor
  · intro hroom
    match room, hroom with
    | 0, _ => exact stops_stmt_zero ..
    | 1, _ => exact .at_once rfl
  · intro lines ht
    show Stops (rounds (test enter room (.literal (.bool true))) (stmt host enter room t) (exprOpt enter room step)
      host.rounds) m lines
    obtain ⟨left, hleft⟩ := Nat.exists_eq_add_of_le' hrounds
    rw [hleft]
    cases room with
    | zero =>
      rw [lines_of_stmt_zero (ht m .refl)]
      exact .at_once rfl
    | succ room => exact stops_rounds rfl (ht m .refl)

/-! ## The call -/

/-- What a name stands for outside of all scopes is this function. -/
structure Knows (m : Machine) (target : Reference) (id : Nat) (c : Closure) : Prop where
  free : m.distances[target.slot]? = none
  bound : m.store.cell globalEnv target.name.text = some (.function id)
  closure : m.closures[id]? = some c

namespace Knows

variable {c : Closure}

theorem inNew (h : Knows m target id c) (values : Bindings Value) (enclosing : Nat) :
    Knows (m.inNew values enclosing) target id c := by
  refine ⟨h.free, ?_, h.closure⟩
  have hlt := Store.cell_lt h.bound
  show (m.store.push values (some enclosing)).cell globalEnv target.name.text = _
  rw [Store.cell_push, if_neg (Nat.ne_of_lt hlt)]
  exact h.bound

theorem inner (h : Knows m target id c) (hm : Inner m m₁) : Knows m₁ target id c := by
  induction hm with
  | refl => exact h
  | opened _ ih => exact ih.inNew ..

theorem read (h : Knows m target id c) (room : Nat) : Eval.read (room + 2) target m = .ok (.function id) m := by
  have hread : m.store.read globalEnv target.name = .ok (.function id) := by
    unfold Store.read Store.holder
    rw [Store.holder?_self (h.bound ▸ rfl)]
    exact Store.valueIn_of_cell h.bound
  rw [read_global h.free]
  show Eval.orFail room (m.store.read globalEnv target.name) m = _
  rw [hread]
  rfl

/-- A call of the function has three levels to itself at least: its name is looked up in them. -/
theorem call (h : Knows m target id c) (hp : c.routine.params = []) (enter : Enter) (room : Nat) (paren : Lexeme) :
    expr enter (room + 5) (.call (.ref target) paren []) m = enter (room + 3) paren (.function id) [] m := by
  have hcheck : checkCall (room + 3) paren (.function id) 0 m = .ok () m := by
    have harity : arity? (room + 3) (.function id) m = .ok (some 0) m := by
      show (deref m.closures[id]? >>= fun c => pure (some c.routine.params.length) : Eval (Option Nat)) m = _
      rw [h.closure]
      show EStateM.Result.ok (some c.routine.params.length) m = _
      rw [hp]
      rfl
    unfold checkCall
    rw [bind_ok harity]
    rfl
  have hname : expr enter (room + 3) (.ref target) m = .ok (.function id) m := h.read room
  show (expr enter (room + 3) (.ref target) >>= _ : Eval Value) m = _
  rw [bind_ok hname]
  show (checkCall (room + 3) paren (.function id) 0 >>= fun _ => enter (room + 3) paren (.function id) []) m = _
  rw [bind_ok hcheck]

/-- There is no room for the call itself. -/
theorem call_stops (h : Knows m target id c) (hroom : room < 5) (enter : Enter) (paren : Lexeme) :
    Stops (expr enter room (.call (.ref target) paren [])) m 0 := by
  match room, hroom with
  | 0, _ => exact stops_expr_zero ..
  | 1, _ => exact .at_once rfl
  | 2, _ => exact .at_once rfl
  | 3, _ => exact .at_once rfl
  | 4, _ =>
    have hname : expr enter 2 (.ref target) m = .error .outOfStack m := read_global h.free 0
    exact .at_once (bind_error hname _)

end Knows

/-- A statement that calls a function without arguments. -/
abbrev callOf (target : Reference) (paren : Lexeme) : Stmt := .expr (.call (.ref target) paren [])

/-- A function that prints a line and goes on to call itself. -/
def endlessRoutine (name : Lexeme) (again : Stmt) : Routine := ⟨name, [], [.print_ (.literal .nil), again]⟩

theorem print_nil (host : Host) (enter : Enter) (room : Nat) (m : Machine) :
    stmt host enter (room + 2) (.print_ (.literal .nil)) m = .ok .normal { m with output := m.output.push "nil" } := rfl

/-- In a call the body runs in the room that is left. -/
theorem stops_entered {c : Closure} (hc : m.closures[id]? = some c) (hp : c.routine.params = []) (site : Lexeme)
    (h : Stops (stmts host (invoke host n) room c.routine.body) (m.inNew ∅ c.env) lines) :
    Stops (invoke host (n + 1) (room + 2) site (.function id) []) m lines := by
  have hcall : Stops (call (stmts host (invoke host n)) (room + 2) c []) m lines := by
    obtain ⟨stop, m', hbody, hsize⟩ := h
    have hinside : Eval.inside m.store.size (stmts host (invoke host n) room c.routine.body)
        { m with store := m.store.push ∅ (some c.env) } = .error stop { m' with current := m.current } :=
      inside_error hbody
    refine ⟨stop, { m' with current := m.current }, ?_, hsize⟩
    unfold call
    rw [hp]
    exact bind_error hinside _
  have henter : Stops (enterCall host (stmts host (invoke host n)) (room + 2) site (.function id) []) m lines := by
    refine hcall.of_eq ?_
    show (deref m.closures[id]? >>= fun c => call (stmts host (invoke host n)) (room + 2) c [] : Eval Value) m = _
    rw [hc]
    rfl
  exact henter.catchStack site

/-- There is no room for the body of the function. -/
theorem stops_unentered {c : Closure} (hc : m.closures[id]? = some c) (hroom : room < 2) (site : Lexeme) :
    Stops (invoke host (n + 1) room site (.function id) []) m 0 := by
  have henter : Stops (enterCall host (stmts host (invoke host n)) room site (.function id) []) m 0 := by
    refine ⟨.outOfStack, m, ?_, rfl⟩
    show (deref m.closures[id]? >>= fun c => call (stmts host (invoke host n)) room c [] : Eval Value) m = _
    rw [hc]
    match room, hroom with
    | 0, _ => rfl
    | 1, _ => rfl
  exact henter.catchStack site

/-- A call of the function that leads on to a call of it, in the room that is left there. -/
theorem Knows.callOf_stops {c : Closure} (h : Knows m target id c) (hp : c.routine.params = []) (enter : Enter)
    (paren : Lexeme) (hcall : ∀ left, room = left + 3 → Stops (enter left paren (.function id) []) m lines)
    (hnone : room < 6 → lines = 0) : Stops (stmt host enter room (callOf target paren)) m lines := by
  cases room with
  | zero =>
    rw [hnone (by omega)]
    exact stops_stmt_zero ..
  | succ room =>
    by_cases hshort : room < 5
    · rw [hnone (by omega)]
      exact (h.call_stops hshort enter paren).bind _
    · obtain ⟨left, rfl⟩ := Nat.exists_eq_add_of_le' (Nat.le_of_not_lt hshort)
      exact ((hcall (left + 3) rfl).of_eq (h.call hp enter left paren)).bind _

/-- A call with room for a line prints it, and what its own call prints in the room behind that. -/
theorem lines_step (h : 2 ≤ room + levels) :
    (room + levels + 2 + 1 + levels) / (5 + levels) = 1 + (room - 3 + 1 + levels) / (5 + levels) := by
  by_cases hshort : room < 3
  · have hnone : (room - 3 + 1 + levels) / (5 + levels) = 0 := Nat.div_eq_of_lt (by omega)
    rw [hnone]
    exact Nat.div_eq_of_lt_le (by omega) (by omega)
  · rw [show room + levels + 2 + 1 + levels = room - 3 + 1 + levels + (5 + levels) by omega,
      Nat.add_div_right _ (by omega), Nat.add_comm]

/-- The function prints a line in each of its calls, and there are as many of them as the stack
has room for: a call takes five levels, and as many more as lead to it. -/
theorem endless_calls (hagain : Leads host levels again (callOf target paren))
    (h : Knows m target id ⟨endlessRoutine name again, env, false⟩) (hroom : room ≤ n) (site : Lexeme) :
    Stops (invoke host n room site (.function id) []) m ((room + 1 + levels) / (5 + levels)) := by
  induction room using Nat.strongRecOn generalizing n m site with
  | _ room ih =>
    have hnone (hlt : room < 4) : (room + 1 + levels) / (5 + levels) = 0 := Nat.div_eq_of_lt (by omega)
    cases n with
    | zero =>
      rw [hnone (by omega)]
      exact .at_once rfl
    | succ n =>
    by_cases hshort : room < 2
    · rw [hnone (by omega)]
      exact stops_unentered h.closure hshort site
    obtain ⟨room, rfl⟩ := Nat.exists_eq_add_of_le' (Nat.le_of_not_lt hshort)
    refine stops_entered h.closure rfl site ?_
    have hm := h.inNew ∅ env
    show Stops (stmts host (invoke host n) room [.print_ (.literal .nil), again]) (m.inNew ∅ env) _
    match room with
    | 0 | 1 =>
      rw [hnone (by omega)]
      exact (Stops.at_once rfl).bind _
    | room + 2 =>
      have hprinted : Knows { m.inNew ∅ env with output := m.output.push "nil" } target id
          ⟨endlessRoutine name again, env, false⟩ := ⟨hm.free, hm.bound, hm.closure⟩
      have hsize : (m.output.push "nil").size = m.output.size + 1 := Array.size_push ..
      have hgoes {lines : Nat} (hstop : Stops (stmt host (invoke host n) (room + 2) again)
          { m.inNew ∅ env with output := m.output.push "nil" } lines) :
          Stops (stmts host (invoke host n) (room + 2) [.print_ (.literal .nil), again]) (m.inNew ∅ env)
            (1 + lines) := by
        rw [← stmts_single] at hstop
        exact .after (print_nil host (invoke host n) room _) hsize hstop
      by_cases hdeep : room + 2 < levels
      · have hone : (room + 2 + 2 + 1 + levels) / (5 + levels) = 1 := Nat.div_eq_of_lt_le (by omega) (by omega)
        rw [hone]
        exact hgoes ((hagain _ _ _).1 hdeep)
      · obtain ⟨left, hleft⟩ := Nat.exists_eq_add_of_le' (Nat.le_of_not_lt hdeep)
        rw [hleft] at hgoes ⊢
        rw [lines_step (by omega)]
        refine hgoes ((hagain _ _ left).2 _ fun m₃ hm₃ => (hprinted.inner hm₃).callOf_stops rfl _ paren ?_ ?_)
        · rintro inner rfl
          exact ih inner (by omega) (hprinted.inner hm₃) (by omega) paren
        · exact fun hlt => Nat.div_eq_of_lt (by omega)

/-! ## The program -/

/-- Declares the function and calls it. -/
def endless (name : Lexeme) (again : Stmt) (target : Reference) (paren : Lexeme) : List Stmt :=
  [.fun_ (endlessRoutine name again), callOf target paren]

/-- So many lines are printed: a script takes a level more than a prompt for the first call. -/
def endlessLines (stack levels : Nat) (interactive : Bool) : Nat :=
  ((if interactive then stack - 1 else stack - 2) + levels) / (5 + levels)

/-- The machine behind the declaration of a function. -/
def Machine.declaring (m : Machine) (routine : Routine) : Machine :=
  { m with
    closures := m.closures.push ⟨routine, m.current, false⟩
    store := m.store.define m.current routine.name.text (.function m.closures.size) }

theorem topLevel_fun (interactive : Bool) (hstack : 2 ≤ host.stack) (routine : Routine) (m : Machine) :
    topLevel host interactive (.fun_ routine) m = .ok () (m.declaring routine) := by
  obtain ⟨left, hleft⟩ := Nat.exists_eq_add_of_le' hstack
  have hstmt : topLevel host interactive (.fun_ routine) =
      (do let _ ← stmt host (invoke host host.calls) (left + 2) (.fun_ routine)) := by
    rw [← hleft]
    cases interactive <;> rfl
  rw [hstmt]
  rfl

/-- Behind its declaration a global function is known by its name. -/
theorem knows_declaring {routine : Routine} (hm : m.current = globalEnv) (hsize : 0 < m.store.size)
    (htext : target.name.text = routine.name.text) (hfree : m.distances[target.slot]? = none) :
    Knows (m.declaring routine) target m.closures.size ⟨routine, globalEnv, false⟩ where
  free := hfree
  bound := by
    show (m.store.define m.current routine.name.text (.function m.closures.size)).cell globalEnv target.name.text = _
    rw [Store.cell_define, if_pos ⟨hm, htext.symm, hsize⟩]
  closure := by
    show (m.closures.push ⟨routine, m.current, false⟩)[m.closures.size]? = _
    rw [Array.getElem?_push_size, hm]

/-- The call of the program itself enters the function three levels deeper than a statement of
it would at a prompt, and four in a script. -/
theorem Knows.topLevel_stops {c : Closure} {left : Nat} (h : Knows m target id c) (hp : c.routine.params = [])
    (interactive : Bool) (hstack : host.stack = left + 6)
    (hcall : Stops (invoke host host.calls (left + if interactive then 4 else 3) paren (.function id) []) m lines) :
    Stops (topLevel host interactive (callOf target paren)) m lines := by
  cases interactive with
  | true =>
    show Stops (expr (invoke host host.calls) host.stack (.call (.ref target) paren []) >>= fun v =>
      echo host.stack v) m lines
    rw [hstack]
    exact (hcall.of_eq (h.call hp (invoke host host.calls) (left + 1) paren)).bind _
  | false =>
    show Stops (stmt host (invoke host host.calls) host.stack (callOf target paren) >>= fun _ => pure ()) m lines
    refine (h.callOf_stops hp (invoke host host.calls) paren (fun room hroom => ?_) fun hlt => by omega).bind _
    have hsame : room = left + 3 := by omega
    exact hsame ▸ hcall

section Program

variable {inner outer : Reference} {interactive : Bool}

/-- The call of the program itself. -/
theorem endless_call_stops (hagain : Leads host levels again (callOf inner paren))
    (hinner : inner.name.text = name.text) (houter : outer.name.text = name.text) (hm : m.current = globalEnv) (hsize : 0 < m.store.size)
    (hfree : m.distances[inner.slot]? = none) (hfree' : m.distances[outer.slot]? = none) (hstack : 6 ≤ host.stack)
    (hcalls : host.stack ≤ host.calls) :
    Stops (topLevel host interactive (callOf outer paren)) (m.declaring (endlessRoutine name again))
      (endlessLines host.stack levels interactive) := by
  obtain ⟨left, hleft⟩ := Nat.exists_eq_add_of_le' hstack
  have hlines : endlessLines host.stack levels interactive =
      ((left + if interactive then 4 else 3) + 1 + levels) / (5 + levels) := by
    unfold endlessLines
    rw [hleft]
    cases interactive <;> rfl
  have hentered : (left + if interactive then 4 else 3) ≤ host.calls := by split <;> omega
  have hcall := endless_calls hagain (knows_declaring hm hsize hinner hfree) hentered paren
  rw [hlines]
  exact (knows_declaring hm hsize houter hfree').topLevel_stops rfl interactive hleft hcall

/-- The program on a machine that knows nothing of its references yet. -/
theorem endless_stops (hagain : Leads host levels again (callOf inner paren)) (hinner : inner.name.text = name.text)
    (houter : outer.name.text = name.text) (hm : m.current = globalEnv) (hsize : 0 < m.store.size)
    (hfree : m.distances[inner.slot]? = none) (hfree' : m.distances[outer.slot]? = none) (hstack : 6 ≤ host.stack)
    (hcalls : host.stack ≤ host.calls) :
    Stops ((endless name again outer paren).forM (topLevel host interactive)) m
      (endlessLines host.stack levels interactive) := by
  have hdeclared := topLevel_fun interactive (by omega : 2 ≤ host.stack) (endlessRoutine name again) m
  have hfirst : Stops (topLevel host interactive (callOf outer paren)) (m.declaring (endlessRoutine name again))
      (endlessLines host.stack levels interactive) :=
    endless_call_stops hagain hinner houter hm hsize hfree hfree' hstack hcalls
  rw [← Nat.zero_add (endlessLines ..)]
  exact .after hdeclared rfl (hfirst.bind _)

end Program

/-! ## Its text -/

/-- A text with the program, whose function calls itself in a loop with a step. -/
def endlessText : String := "fun f() \x7b print nil; for (;; nil) f(); \x7d f();"

/-- The parts of the program: the name, the call in the loop, and the call of the program itself. -/
def endless? : List Stmt → Option (Lexeme × Reference × Lexeme × Reference × Lexeme)
  | [.fun_ ⟨name, [], [.print_ (.literal .nil),
      .loop (.literal (.bool true)) (.expr (.call (.ref inner) site [])) (some (.literal .nil))]⟩,
      .expr (.call (.ref outer) paren [])] => some (name, inner, site, outer, paren)
  | _ => none

theorem endless?_some {p : List Stmt} {site : Lexeme} {inner outer : Reference}
    (h : endless? p = some (name, inner, site, outer, paren)) :
    p = endless name (.loop (.literal (.bool true)) (callOf inner site) (some (.literal .nil))) outer paren := by
  unfold endless? at h
  split at h <;> cases h
  rfl

/-- The call that the function makes. -/
def endlessCall : Stmt := callOf ⟨⟨"f", 1⟩, 0⟩ ⟨")", 1⟩

/-- The loop that it makes it in. -/
def endlessLoop : Stmt := .loop (.literal (.bool true)) endlessCall (some (.literal .nil))

/-- The program with the loop of the text, or with something else in its place. -/
abbrev endlessProgram (again : Stmt) : List Stmt := endless ⟨"f", 1⟩ again ⟨⟨"f", 1⟩, 1⟩ ⟨")", 1⟩

theorem endless_runs (host : Host) (interactive : Bool) :
    (Session.after host interactive []).Runs endlessText (endlessProgram endlessLoop) := by
  have hlexical : (tokenize endlessText).2 = [] := by decide +kernel
  have herrors : (parse (tokenize endlessText).1 0).errors = [] := by decide +kernel
  have hshape : endless? (parse (tokenize endlessText).1 0).program =
      some (⟨"f", 1⟩, ⟨⟨"f", 1⟩, 0⟩, ⟨")", 1⟩, ⟨⟨"f", 1⟩, 1⟩, ⟨")", 1⟩) := by
    decide +kernel
  exact ⟨hlexical, herrors, endless?_some hshape, rfl⟩

/-- The lines that the program prints tell how many levels lead to each call. -/
theorem endless_output {D : Distances} (interactive : Bool) (log : List Notice) (nextSlot : Int)
    (hagain : Leads host levels again endlessCall) (hinner : D[(0 : Int)]? = none) (houter : D[(1 : Int)]? = none)
    (hstack : 6 ≤ host.stack) (hcalls : host.stack ≤ host.calls) :
    ({ Session.start interactive with nextSlot }.execute host log (endlessProgram again) D).1.output.size =
      endlessLines host.stack levels interactive := by
  have hfree (x : Int) (hx : D[x]? = none) : (Machine.start.load D).distances[x]? = none := by
    show ((∅ : Distances).merge D)[x]? = none
    rw [Distances.merge_get?, hx]
    rfl
  have hstops : Stops ((endlessProgram again).forM (topLevel host interactive)) (Machine.start.load D)
      (endlessLines host.stack levels interactive) :=
    endless_stops hagain rfl rfl rfl Nat.zero_lt_one (hfree 0 hinner) (hfree 1 houter) hstack hcalls
  obtain ⟨stop, m', hrun, hsize⟩ := hstops
  rw [execute_error _ log hrun, hsize]
  exact Nat.zero_add _

/-- As many lines as there is room for, with two levels for the loop. -/
theorem endless_lines (host : Host) (interactive : Bool) (hstack : 6 ≤ host.stack) (hcalls : host.stack ≤ host.calls)
    (hrounds : 0 < host.rounds) : ((Session.after host interactive []).run host endlessText).1.output.size =
      endlessLines host.stack 2 interactive := by
  obtain ⟨log, hrun⟩ := run_runs host (endless_runs host interactive)
  rw [hrun]
  exact endless_output interactive log _ (leads_loop hrounds endlessCall (some (.literal .nil))) rfl rfl hstack hcalls

end Lox
