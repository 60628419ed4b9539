/-
  Lox.Proofs.Run.Safe — actions that keep a machine in order: however such an action ends,
  the heap is as `Inv` says, the machine has only grown and the environment is the one
  before; and if it is stopped, the program itself is at fault, a loop has used up its
  rounds or the host its stack.
-/

import Lox.Proofs.Run.Heap

namespace Lox

/-- An error of the running program, or a loop that does not end. -/
def Fault.IsExpected (fault : Fault) : Prop := fault = .outOfFuel ∨ ∃ e, fault = .runtime e

def Stop.IsExpected : Stop → Prop
  | .fault cause => cause.IsExpected
  | .outOfStack => True

variable {α β : Type} {w : World} {m m' : Machine}

/-- However the action ends, the machine stays one of the world, and no fault of the host's own
stops it. -/
def Safe (w : World) (a : Eval α) (m : Machine) (Q : α → Machine → Prop) : Prop :=
  match a m with
  | .ok v m' => Stays w m m' ∧ Q v m'
  | .error stop m' => Stays w m m' ∧ stop.IsExpected

variable {a : Eval α} {Q : α → Machine → Prop} {R : β → Machine → Prop}

theorem Safe.ok {v : α} (h : Safe w a m Q) (ha : a m = .ok v m') : Stays w m m' ∧ Q v m' := by
  unfold Safe at h
  rwa [ha] at h

theorem Safe.error {stop : Stop} (h : Safe w a m Q) (ha : a m = .error stop m') :
    Stays w m m' ∧ stop.IsExpected := by
  unfold Safe at h
  rwa [ha] at h

theorem Safe.of_ok {v : α} (ha : a m = .ok v m') (hs : Stays w m m') (hv : Q v m') : Safe w a m Q := by
  unfold Safe
  rw [ha]
  exact ⟨hs, hv⟩

theorem Safe.of_eq {b : Eval α} (h : Safe w b m Q) (hab : a m = b m) : Safe w a m Q := by
  unfold Safe at h ⊢
  rwa [hab]

theorem Safe.mono {Q' : α → Machine → Prop} (h : Safe w a m Q)
    (hQ : ∀ v m', a m = .ok v m' → Stays w m m' → Q v m' → Q' v m') :
    Safe w a m Q' := by
  unfold Safe at h ⊢
  split at h
  next v m' ha => exact ⟨h.1, hQ v m' ha h.1 h.2⟩
  next => exact h

theorem Safe.pure {v : α} (h : Inv w m) (hv : Q v m) : Safe w (pure v) m Q := ⟨Stays.refl h, hv⟩

theorem Safe.fail (h : Inv w m) (site : Lexeme) (cause : RuntimeCause) : Safe w (Eval.fail site cause) m Q :=
  ⟨Stays.refl h, Or.inr ⟨_, rfl⟩⟩

/-! ## One action after the other -/

theorem Eval.bind_ok {v : α} (ha : a m = .ok v m') (f : α → Eval β) : (a >>= f) m = f v m' := by
  show EStateM.bind a f m = _
  unfold EStateM.bind
  rw [ha]

theorem Eval.bind_error {stop : Stop} (ha : a m = .error stop m') (f : α → Eval β) :
    (a >>= f) m = .error stop m' := by
  show EStateM.bind a f m = _
  unfold EStateM.bind
  rw [ha]

/-- What is done when one action after the other is. -/
theorem Eval.of_bind_ok {f : α → Eval β} {v : β} (h : (a >>= f) m = .ok v m') :
    ∃ u m₁, a m = .ok u m₁ ∧ f u m₁ = .ok v m' := by
  cases ha : a m with
  | ok u m₁ => exact ⟨u, m₁, rfl, Eval.bind_ok ha f ▸ h⟩
  | error stop m₁ =>
    rw [Eval.bind_error ha] at h
    cases h

theorem Eval.inside_ok {env : Nat} {v : α} {m₁ : Machine} (ha : a { m with current := env } = .ok v m₁)
    (hm : m' = { m₁ with current := m.current }) : Eval.inside env a m = .ok v m' := by
  unfold Eval.inside
  rw [ha, hm]

theorem Eval.inside_error {env : Nat} {stop : Stop} {m₁ : Machine} (ha : a { m with current := env } = .error stop m₁) :
    Eval.inside env a m = .error stop { m₁ with current := m.current } := by
  unfold Eval.inside
  rw [ha]

theorem Eval.of_inside_ok {env : Nat} {v : α} (h : Eval.inside env a m = .ok v m') :
    ∃ m₁, a { m with current := env } = .ok v m₁ ∧ m' = { m₁ with current := m.current } := by
  unfold Eval.inside at h
  split at h <;> cases h
  next ha => exact ⟨_, ha, rfl⟩

/-- Two actions one behind the other are safe, if the second is where the first one leaves the
machine. -/
theorem Safe.bind {f : α → Eval β} (h : Safe w a m Q)
    (hf : ∀ v m', a m = .ok v m' → Stays w m m' → Q v m' → Safe w (f v) m' R) : Safe w (a >>= f) m R := by
  cases ha : a m with
  | ok v m' =>
    obtain ⟨hs, hq⟩ := h.ok ha
    have hv := hf v m' ha hs hq
    unfold Safe at hv ⊢
    rw [Eval.bind_ok ha]
    split at hv <;> exact ⟨hs.trans hv.1, hv.2⟩
  | error stop m' =>
    unfold Safe
    rw [Eval.bind_error ha]
    exact h.error ha

theorem Safe.map {f : α → β} (h : Safe w a m Q) (hf : ∀ v m', a m = .ok v m' → Stays w m m' → Q v m' → R (f v) m') :
    Safe w (do return f (← a)) m R :=
  h.bind fun v m' ha hs hv => Safe.pure hs.inv (hf v m' ha hs hv)

/-- Reading the machine. -/
theorem Safe.get {f : Machine → Eval β} (h : Safe w (f m) m R) : Safe w (MonadState.get >>= f) m R := h

theorem Safe.ofExcept {x : Except Fault α} (h : Inv w m) (hv : ∀ v, x = .ok v → Q v m)
    (he : ∀ fault, x = .error fault → fault.IsExpected) : Safe w (Eval.ofExcept x) m Q := by
  cases x with
  | ok v => exact Safe.pure h (hv v rfl)
  | error fault => exact ⟨Stays.refl h, he fault rfl⟩

theorem Safe.deref {x : Option α} (h : Inv w m) (hx : x.isSome) (hv : ∀ v, x = some v → Q v m) :
    Safe w (Eval.deref x) m Q := by
  cases x with
  | some v => exact Safe.pure h (hv v rfl)
  | none => cases hx

/-! ## The stack -/

/-- Two rooms on the stack: the same one, or where they may differ (`loose`) as much or more. -/
def Wider (loose : Prop) (room room' : Nat) : Prop := room' = room ∨ loose ∧ room ≤ room'

/-- There is no level left in either, or only in the wider one, or one less of each. -/
theorem Wider.cases {loose : Prop} {k k' : Nat} (h : Wider loose k k') : (k = 0 ∧ k' = 0) ∨
    (loose ∧ k = 0 ∧ ∃ j', k' = j' + 1) ∨ ∃ j j', k = j + 1 ∧ k' = j' + 1 ∧ Wider loose j j' := by
  cases k with
  | zero =>
    cases k' with
    | zero => exact Or.inl ⟨rfl, rfl⟩
    | succ j' =>
      rcases h with h | ⟨hl, -⟩
      · cases h
      · exact Or.inr (Or.inl ⟨hl, rfl, j', rfl⟩)
  | succ j =>
    cases k' with
    | zero =>
      rcases h with h | ⟨-, h⟩
      · cases h
      · cases h
    | succ j' =>
      refine Or.inr (Or.inr ⟨j, j', rfl, rfl, ?_⟩)
      rcases h with h | ⟨hl, h⟩
      · exact Or.inl (Nat.succ.inj h)
      · exact Or.inr ⟨hl, Nat.le_of_succ_le_succ h⟩

variable {room : Nat}

theorem Eval.of_deeper_ok {p : Nat → Eval α} {v : α} (h : Eval.deeper room p m = .ok v m') :
    ∃ left, room = left + 1 ∧ p left m = .ok v m' := by
  cases room with
  | zero => cases h
  | succ left => exact ⟨left, rfl, h⟩

theorem Eval.of_needs_ok {levels : Nat} {v : α} (h : Eval.needs levels room a m = .ok v m') :
    levels ≤ room ∧ a m = .ok v m' := by
  induction levels generalizing room with
  | zero => exact ⟨Nat.zero_le _, h⟩
  | succ levels ih =>
    obtain ⟨left, rfl, hleft⟩ := Eval.of_deeper_ok h
    exact ⟨Nat.succ_le_succ (ih hleft).1, (ih hleft).2⟩

theorem Eval.needs_of_le {levels : Nat} (h : levels ≤ room) (a : Eval α) : Eval.needs levels room a = a := by
  induction levels generalizing room with
  | zero => rfl
  | succ levels ih =>
    obtain ⟨left, rfl⟩ := Nat.exists_eq_add_of_le' (Nat.lt_of_lt_of_le (Nat.zero_lt_succ levels) h)
    exact ih (Nat.le_of_succ_le_succ h)

theorem Eval.needs_congr {b : Eval α} (h : a m = b m) (levels room : Nat) :
    Eval.needs levels room a m = Eval.needs levels room b m := by
  induction levels generalizing room with
  | zero => exact h
  | succ levels ih =>
    cases room with
    | zero => rfl
    | succ left => exact ih left

/-- What completes has had a level of the stack. -/
theorem Eval.room_of_stmt {host : Host} {enter : Enter} {s : Stmt} {done : Completion}
    (h : Eval.stmt host enter room s m = .ok done m') : ∃ left, room = left + 1 := by
  cases room with
  | zero =>
    rw [stmt_zero] at h
    cases h
  | succ left => exact ⟨left, rfl⟩

theorem Eval.stmts_single (host : Host) (enter : Enter) (room : Nat) (st : Stmt) :
    Eval.stmts host enter room [st] = Eval.stmt host enter room st := by
  funext m
  show (Eval.stmt host enter room st >>= _) m = _
  cases hs : Eval.stmt host enter room st m with
  | ok done m₁ =>
    rw [Eval.bind_ok hs]
    cases done <;> rfl
  | error fault m₁ => rw [Eval.bind_error hs]

theorem Eval.of_orFail_ok {x : Except Fault α} {v : α} (h : Eval.orFail room x m = .ok v m') : x = .ok v ∧ m' = m := by
  cases x with
  | ok u => cases h; exact ⟨rfl, rfl⟩
  | error fault => cases (Eval.of_needs_ok h).2

/-- Where there is no room, the action stops and leaves the machine as it is. -/
theorem Safe.deeper {p : Nat → Eval α} (hm : Inv w m) (h : ∀ left, room = left + 1 → Safe w (p left) m Q) :
    Safe w (Eval.deeper room p) m Q := by
  cases room with
  | zero => exact ⟨Stays.refl hm, trivial⟩
  | succ left => exact h left rfl

theorem Safe.needs {levels : Nat} (hm : Inv w m) (h : levels ≤ room → Safe w a m Q) :
    Safe w (Eval.needs levels room a) m Q := by
  induction levels generalizing room with
  | zero => exact h (Nat.zero_le _)
  | succ levels ih => exact Safe.deeper hm fun left hroom => ih fun hle => h (hroom ▸ Nat.succ_le_succ hle)

theorem Safe.orFail {x : Except Fault α} (h : Inv w m) (hv : ∀ v, x = .ok v → Q v m)
    (he : ∀ fault, x = .error fault → fault.IsExpected) : Safe w (Eval.orFail room x) m Q := by
  cases x with
  | ok v => exact Safe.pure h (hv v rfl)
  | error fault => exact Safe.needs h fun _ => ⟨Stays.refl h, he fault rfl⟩

theorem Safe.ofOperator {x : Except RuntimeError α} (h : Inv w m) (hv : ∀ v, x = .ok v → Q v m) :
    Safe w (Eval.ofOperator room x) m Q := by
  cases x with
  | ok v => exact Safe.pure h (hv v rfl)
  | error e => exact Safe.orFail h (fun _ hx => by cases hx) fun _ hx => by cases hx; exact Or.inr ⟨e, rfl⟩

/-- What comes of an action in a call: the end of the stack has become an error. -/
theorem Eval.catchStack_cases (paren : Lexeme) (a : Eval α) (m : Machine) : Eval.catchStack paren a m = a m ∨
    ∃ m', a m = .error .outOfStack m' ∧ Eval.catchStack paren a m = Eval.fail paren .stackOverflow m' := by
  unfold Eval.catchStack
  split
  next m' ha => exact Or.inr ⟨m', ha, rfl⟩
  next => exact Or.inl rfl

theorem Safe.catchStack (h : Safe w a m Q) (paren : Lexeme) : Safe w (Eval.catchStack paren a) m Q := by
  rcases Eval.catchStack_cases paren a m with hsame | ⟨m', ha, hcaught⟩
  · exact Safe.of_eq h hsame
  · unfold Safe
    rw [hcaught]
    exact ⟨(h.error ha).1, Or.inr ⟨_, rfl⟩⟩

/-! ## Where an action runs -/

theorem Inv.inEnv (h : Inv w m) (k : Nat) : Inv w { m with current := k } := by
  have hsame : Inv w { m with current := k } ∧ Grows m { m with current := k } := h.same rfl rfl rfl rfl
  exact hsame.1

theorem Grows.inEnv {k k' : Nat} (h : Grows { m with current := k } m') : Grows m { m' with current := k' } :=
  (grows_inEnv m k).trans (h.trans (grows_inEnv m' k'))

/-- In another environment of the machine, as in the current one. -/
theorem Safe.inside {env : Nat} {Q' : α → Machine → Prop} (h : Safe w a { m with current := env } Q)
    (hQ : ∀ v m', a { m with current := env } = .ok v m' → Grows m { m' with current := m.current } → Q v m' →
      Q' v { m' with current := m.current }) : Safe w (Eval.inside env a) m Q' := by
  unfold Safe
  cases ha : a { m with current := env } with
  | ok v m' =>
    obtain ⟨hs, hv⟩ := h.ok ha
    rw [Eval.inside_ok ha rfl]
    have g : Grows m { m' with current := m.current } := hs.grows.inEnv
    exact ⟨⟨hs.inv.inEnv _, g, rfl, hs.distances⟩, hQ v m' ha g hv⟩
  | error stop m' =>
    obtain ⟨hs, he⟩ := h.error ha
    rw [Eval.inside_error ha]
    exact ⟨⟨hs.inv.inEnv _, hs.grows.inEnv, rfl, hs.distances⟩, he⟩

end Lox
