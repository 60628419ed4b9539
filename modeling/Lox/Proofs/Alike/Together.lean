/-
  Lox.Proofs.Alike.Together — two actions on machines that are kin and stay so: both end
  well or both are stopped, and what stops them is of one kind, with the same cause where
  the program itself is at fault.

  A second text that goes deeper on the stack may come to its end where the first one does
  not (`Together.escaped`). From there on nothing is said of the two.
-/

import Lox.Proofs.Alike.Machines
import Lox.Proofs.Run.Primitive

namespace Lox

/-- Faults that stop alike texts. -/
def Fault.Like (Λ : Likeness) : Fault → Fault → Prop
  | .runtime e, .runtime e' => Λ.place e.site e'.site ∧ e'.cause = e.cause
  | .runtime _, _ => False
  | _, .runtime _ => False
  | .outOfFuel, .outOfFuel => True
  | .outOfFuel, _ => False
  | _, .outOfFuel => False
  | _, _ => True

/-- What stops alike texts. -/
def Stop.Like (Λ : Likeness) : Stop → Stop → Prop
  | .fault cause, .fault cause' => cause.Like Λ cause'
  | .outOfStack, .outOfStack => True
  | _, _ => False

/-- The rooms that two texts have on the stack. -/
def Likeness.Rooms (Λ : Likeness) (room room' : Nat) : Prop := Wider Λ.deeper room' room

theorem Likeness.Rooms.same (Λ : Likeness) (room : Nat) : Λ.Rooms room room := Or.inl rfl

variable {α β γ δ : Type} {Λ : Likeness} {before : Array String} {π π₁ π₂ : Pairing} {m m' m₁ m₁' m₂ m₂' : Machine}
  {ss : List Layer} {k k' : Nat}

/-- What is left when both machines have done a part of their runs. -/
structure Passed (Λ : Likeness) (before : Array String) (π : Pairing) (m m' : Machine) (π₁ : Pairing)
    (m₁ m₁' : Machine) : Prop where
  kin : Kin Λ before π₁ m₁ m₁'
  paired : Paired π m m' π₁ m₁ m₁'
  current : m₁.current = m.current
  current' : m₁'.current = m'.current
  distances : m₁.distances = m.distances ∧ m₁'.distances = m'.distances

namespace Passed

theorem refl (h : Kin Λ before π m m') : Passed Λ before π m m' π m m' := ⟨h, .refl .., rfl, rfl, rfl, rfl⟩

theorem trans (h : Passed Λ before π m m' π₁ m₁ m₁') (h' : Passed Λ before π₁ m₁ m₁' π₂ m₂ m₂') :
    Passed Λ before π m m' π₂ m₂ m₂' :=
  ⟨h'.kin, h.paired.trans h'.paired, h'.current.trans h.current, h'.current'.trans h.current',
    h'.distances.1.trans h.distances.1, h'.distances.2.trans h.distances.2⟩

/-- The environments around are still those. -/
theorem around (h : Passed Λ before π m m' π₁ m₁ m₁') (ha : Around π m m' m.current m'.current ss) :
    Around π₁ m₁ m₁' m₁.current m₁'.current ss := by
  rw [h.current, h.current']
  exact h.paired.around ha

/-- Each machine is back in the environment that it left for another one. -/
theorem back (h : Passed Λ before π { m with current := k } { m' with current := k' } π₁ m₁ m₁') :
    Paired π m m' π₁ m₁ m₁' ∧
      Passed Λ before π m m' π₁ { m₁ with current := m.current } { m₁' with current := m'.current } := by
  obtain ⟨hpairs, hlinks, hlinks', hsize, hsize'⟩ := h.paired
  have hback : Kin Λ before π₁ { m₁ with current := m.current } { m₁' with current := m'.current } ∧
      Paired π₁ m₁ m₁' π₁ { m₁ with current := m.current } { m₁' with current := m'.current } :=
    h.kin.others rfl rfl rfl rfl rfl rfl rfl rfl h.kin.instances h.kin.output h.kin.ticks
  exact ⟨⟨hpairs, hlinks, hlinks', hsize, hsize'⟩, hback.1, ⟨hpairs, hlinks, hlinks', hsize, hsize'⟩, rfl, rfl,
    h.distances⟩

/-- The second machine is back in the environment that it left for one of its own. -/
theorem backAlone (h : Passed Λ before π m { m' with current := k' } π₁ m₁ m₁') :
    Passed Λ before π m m' π₁ m₁ { m₁' with current := m'.current } := by
  have hboth : Passed Λ before π { m with current := m.current } { m' with current := k' } π₁ m₁ m₁' := h
  have hback := hboth.back.2
  rwa [← h.current] at hback

end Passed

/-- What holds of two results. -/
abbrev Related (α β : Type) := Pairing → Machine → Machine → α → β → Prop

/-- The same result. -/
def Same : Related α α := fun _ _ _ v v' => v' = v

/-- Two actions on machines that are kin end alike, and leave machines that are kin. -/
inductive Together (Λ : Likeness) (before : Array String) (π : Pairing) (m m' : Machine) (a : Eval α) (a' : Eval β)
    (Q : Related α β) : Prop
  | of_ok {v : α} {v' : β} {m₁ m₁' : Machine} {π₁ : Pairing} : a m = .ok v m₁ → a' m' = .ok v' m₁' →
      Passed Λ before π m m' π₁ m₁ m₁' → Q π₁ m₁ m₁' v v' → Together Λ before π m m' a a' Q
  | of_stops {f f' : Stop} {m₁ m₁' : Machine} {π₁ : Pairing} : a m = .error f m₁ → a' m' = .error f' m₁' →
      Passed Λ before π m m' π₁ m₁ m₁' → f.Like Λ f' → Together Λ before π m m' a a' Q
  /-- The second text has come to the end of the stack. -/
  | escaped {f' : Stop} {m₁' : Machine} : Λ.deeper → a' m' = .error f' m₁' → f'.isStackEnd →
      Together Λ before π m m' a a' Q

namespace Together

variable {a : Eval α} {a' : Eval β} {Q : Related α β} {R : Related γ δ}

theorem of_error {f f' : Stop} (ha : a m = .error f m) (ha' : a' m' = .error f' m') (h : Kin Λ before π m m')
    (hf : f.Like Λ f') : Together Λ before π m m' a a' Q := .of_stops ha ha' (.refl h) hf

/-- Where the first action ends well, so does the second one, if it goes no deeper. -/
theorem ok {v : α} (h : Together Λ before π m m' a a' Q) (hd : ¬ Λ.deeper) (ha : a m = .ok v m₁) :
    ∃ v' m₁' π₁, a' m' = .ok v' m₁' ∧ Passed Λ before π m m' π₁ m₁ m₁' ∧ Q π₁ m₁ m₁' v v' := by
  cases h with
  | of_ok ha₁ ha' hp hq =>
    rw [ha] at ha₁
    cases ha₁
    exact ⟨_, _, _, ha', hp, hq⟩
  | of_stops ha₁ =>
    rw [ha] at ha₁
    cases ha₁
  | escaped hdeeper => exact absurd hdeeper hd

theorem of_eq {b : Eval α} {b' : Eval β} (h : Together Λ before π m m' b b' Q) (hab : a m = b m)
    (hab' : a' m' = b' m') :
    Together Λ before π m m' a a' Q := by
  cases h with
  | of_ok hb hb' hp hq => exact .of_ok (hab.trans hb) (hab'.trans hb') hp hq
  | of_stops hb hb' hp hf => exact .of_stops (hab.trans hb) (hab'.trans hb') hp hf
  | escaped hd hb' hend => exact .escaped hd (hab'.trans hb') hend

theorem pure {v : α} {v' : β} (h : Kin Λ before π m m') (hq : Q π m m' v v') :
    Together Λ before π m m' (pure v) (pure v') Q :=
  .of_ok rfl rfl (.refl h) hq

theorem fail {site site' : Lexeme} (h : Kin Λ before π m m') (hs : Λ.place site site') (cause : RuntimeCause) :
    Together Λ before π m m' (Eval.fail site cause) (Eval.fail site' cause) Q :=
  have hlike : Stop.Like Λ (.fault (.runtime ⟨site, cause⟩)) (.fault (.runtime ⟨site', cause⟩)) := ⟨hs, rfl⟩
  .of_error rfl rfl h hlike

/-- What is left to be done when both machines have done a part. -/
theorem later {b : Eval γ} {b' : Eval δ} {f : Eval γ} {f' : Eval δ} (h : Together Λ before π₁ m₁ m₁' f f' R)
    (hp : Passed Λ before π m m' π₁ m₁ m₁') (hb : b m = f m₁) (hb' : b' m' = f' m₁') :
    Together Λ before π m m' b b' R := by
  cases h with
  | of_ok hf hf' hp' hr => exact .of_ok (hb.trans hf) (hb'.trans hf') (hp.trans hp') hr
  | of_stops hf hf' hp' hlike => exact .of_stops (hb.trans hf) (hb'.trans hf') (hp.trans hp') hlike
  | escaped hd hf' hend => exact .escaped hd (hb'.trans hf') hend

theorem bind {f : α → Eval γ} {f' : β → Eval δ} (h : Together Λ before π m m' a a' Q)
    (hf : ∀ π₁ m₁ m₁' v v', Passed Λ before π m m' π₁ m₁ m₁' → Q π₁ m₁ m₁' v v' →
      Together Λ before π₁ m₁ m₁' (f v) (f' v') R) : Together Λ before π m m' (a >>= f) (a' >>= f') R := by
  cases h with
  | of_ok ha ha' hp hq => exact (hf _ _ _ _ _ hp hq).later hp (Eval.bind_ok ha f) (Eval.bind_ok ha' f')
  | of_stops ha ha' hp hlike => exact .of_stops (Eval.bind_error ha f) (Eval.bind_error ha' f') hp hlike
  | escaped hd ha' hend => exact .escaped hd (Eval.bind_error ha' f') hend

theorem map {f : α → γ} {f' : β → δ} (h : Together Λ before π m m' a a' Q)
    (hf : ∀ π₁ m₁ m₁' v v', Passed Λ before π m m' π₁ m₁ m₁' → Q π₁ m₁ m₁' v v' → R π₁ m₁ m₁' (f v) (f' v')) :
    Together Λ before π m m' (do return f (← a)) (do return f' (← a')) R :=
  h.bind fun _ _ _ _ _ hpassed hq => .pure hpassed.kin (hf _ _ _ _ _ hpassed hq)

/-- Reading the machine. -/
theorem get {f : Machine → Eval α} {f' : Machine → Eval β} (h : Together Λ before π m m' (f m) (f' m') Q) :
    Together Λ before π m m' (MonadState.get >>= f) (MonadState.get >>= f') Q :=
  h.of_eq rfl rfl

/-- Each machine in an environment of its own; then each is back where it was. -/
theorem inside {Q' : Related α β}
    (h : Together Λ before π { m with current := k } { m' with current := k' } a a' Q)
    (hq : ∀ π₁ m₁ m₁' v v', Paired π m m' π₁ m₁ m₁' → Q π₁ m₁ m₁' v v' →
      Q' π₁ { m₁ with current := m.current } { m₁' with current := m'.current } v v') :
    Together Λ before π m m' (Eval.inside k a) (Eval.inside k' a') Q' := by
  cases h with
  | of_ok ha ha' hp hv =>
    obtain ⟨hpaired, hback⟩ := hp.back
    exact .of_ok (Eval.inside_ok ha rfl) (Eval.inside_ok ha' rfl) hback (hq _ _ _ _ _ hpaired hv)
  | of_stops ha ha' hp hlike => exact .of_stops (Eval.inside_error ha) (Eval.inside_error ha') hp.back.2 hlike
  | escaped hd ha' hend => exact .escaped hd (Eval.inside_error ha') hend

/-- The second machine in an environment of its own; then it is back where it was. -/
theorem insideAlone {b : Eval α} {b' : Eval α} (h : Together Λ before π m { m' with current := k' } b b' Same) :
    Together Λ before π m m' b (Eval.inside k' b') Same := by
  cases h with
  | of_ok hb hb' hp hv => exact .of_ok hb (Eval.inside_ok hb' rfl) hp.backAlone hv
  | of_stops hb hb' hp hlike => exact .of_stops hb (Eval.inside_error hb') hp.backAlone hlike
  | escaped hd hb' hend => exact .escaped hd (Eval.inside_error hb') hend

/-! ### The stack -/

variable {room room' : Nat}

/-- One level deeper on both stacks. -/
theorem deeper {p : Nat → Eval α} {p' : Nat → Eval β} (hroom : Λ.Rooms room room') (hk : Kin Λ before π m m')
    (h : ∀ left left', Λ.Rooms left left' → Together Λ before π m m' (p left) (p' left') Q) :
    Together Λ before π m m' (Eval.deeper room p) (Eval.deeper room' p') Q := by
  rcases hroom.cases with ⟨rfl, rfl⟩ | ⟨hd, rfl, left, rfl⟩ | ⟨left', left, rfl, rfl, hleft⟩
  · exact .of_error rfl rfl hk trivial
  · exact .escaped hd rfl rfl
  · exact h left left' hleft

theorem needs (hroom : Λ.Rooms room room') (hk : Kin Λ before π m m') (h : Together Λ before π m m' a a' Q)
    (levels : Nat) :
    Together Λ before π m m' (Eval.needs levels room a) (Eval.needs levels room' a') Q := by
  induction levels generalizing room room' with
  | zero => exact h
  | succ levels ih => exact .deeper hroom hk fun _ _ hleft => ih hleft

/-- A level of the second stack alone. -/
theorem deeperAlone {p' : Nat → Eval β} (hd : Λ.deeper) (hroom : Λ.Rooms room room')
    (h : ∀ left', Λ.Rooms room left' → Together Λ before π m m' a (p' left') Q) :
    Together Λ before π m m' a (Eval.deeper room' p') Q := by
  cases room' with
  | zero => exact .escaped hd rfl rfl
  | succ left' =>
    refine h left' (Or.inr ⟨hd, ?_⟩)
    rcases hroom with rfl | ⟨-, hle⟩
    · exact Nat.le_succ left'
    · exact Nat.le_of_succ_le hle

/-- A stack that is exhausted is caught on both sides. -/
theorem catchStack {paren paren' : Lexeme} (h : Together Λ before π m m' a a' Q) (hn : Λ.place paren paren') :
    Together Λ before π m m' (Eval.catchStack paren a) (Eval.catchStack paren' a') Q := by
  cases h with
  | of_ok ha ha' hp hq =>
    exact .of_ok (by rw [Eval.catchStack, ha]) (by rw [Eval.catchStack, ha']) hp hq
  | @of_stops f f' _ _ _ ha ha' hp hlike =>
    cases f with
    | fault fault =>
      cases f' with
      | fault fault' => exact .of_stops (by rw [Eval.catchStack, ha]) (by rw [Eval.catchStack, ha']) hp hlike
      | outOfStack => exact hlike.elim
    | outOfStack =>
      cases f' with
      | fault fault' => exact hlike.elim
      | outOfStack =>
        have hfails : Stop.Like Λ (.fault (.runtime ⟨paren, .stackOverflow⟩))
          (.fault (.runtime ⟨paren', .stackOverflow⟩)) :=
          ⟨hn, rfl⟩
        exact .of_stops (by rw [Eval.catchStack, ha]; rfl) (by rw [Eval.catchStack, ha']; rfl) hp hfails
  | @escaped f' _ hd ha' hend =>
    cases f' with
    | fault fault' => exact .escaped hd (by rw [Eval.catchStack, ha']) hend
    | outOfStack => exact .escaped hd (by rw [Eval.catchStack, ha']; rfl) rfl

end Together

end Lox
