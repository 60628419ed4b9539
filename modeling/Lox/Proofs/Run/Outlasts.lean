/-
  Lox.Proofs.Run.Outlasts — with more calls that may be open and more room on the stack, a
  run goes as it did before, or it goes on where it overflowed or came to the end of the
  stack (`Outlasts`).

  Nothing but a call takes in the end of the stack, and nothing at all an overflow; so what
  has been printed by then is all that is printed. The longer run prints that too, since it
  did the same up to there, and what is printed is never taken back.
-/

import Lox.Proofs.Run.Carried
import Lox.Proofs.Run.Course

namespace Lox

namespace Eval

variable {α β : Type} {loose : Prop} {a a' : Eval α} {f f' : α → Eval β} {m m' : Machine}

/-- What stops an action that would go on with more calls or, where the stack may differ (`loose`),
with more room on it. -/
def Yields (loose : Prop) (stop : Stop) : Prop := stop.isOverflow ∨ loose ∧ stop = .outOfStack

/-- The second action is the first one with more calls and more room at hand. -/
structure Outlasts (loose : Prop) (a a' : Eval α) : Prop where
  agrees : ∀ m, a' m = a m ∨ ∃ stop m₁, a m = .error stop m₁ ∧ Yields loose stop ∧
    m₁.output.toList <+: (final a' m).output.toList
  /-- What is printed stays so. -/
  adds : ∀ m, m.output.toList <+: (final a' m).output.toList

theorem Blind.adds (h : Blind a) (m : Machine) : m.output.toList <+: (final a m).output.toList := by
  obtain ⟨printed, houtput, -⟩ := h.prints m
  rw [houtput, Array.toList_append]
  exact List.prefix_append ..

/-- Two actions one behind the other, each run within two bounds. -/
theorem Outlasts.bind (h : Outlasts loose a a') (hf : ∀ v, MayGive a' v → Outlasts loose (f v) (f' v)) :
    Outlasts loose (a >>= f) (a' >>= f') := by
  have hadds (m : Machine) : (final a' m).output.toList <+: (final (a' >>= f') m).output.toList := by
    cases ha : a' m with
    | ok v m₁ =>
      rw [final_ok ha, final_bind_ok ha]
      exact (hf v ⟨m, m₁, ha⟩).adds m₁
    | error stop m₁ =>
      have hsame : final (a' >>= f') m = final a' m := by rw [final_error ha, final_error (bind_error ha f')]
      exact hsame ▸ List.prefix_refl _
  refine ⟨fun m => ?_, fun m => (h.adds m).trans (hadds m)⟩
  rcases h.agrees m with heq | ⟨stop, m₁, ha, hyields, hprinted⟩
  · cases ha : a m with
    | ok v m₁ =>
      rw [ha] at heq
      rw [bind_ok ha, bind_ok heq, final_bind_ok heq]
      exact (hf v ⟨m, m₁, heq⟩).agrees m₁
    | error stop m₁ =>
      rw [ha] at heq
      rw [bind_error ha, bind_error heq]
      exact Or.inl rfl
  · exact Or.inr ⟨stop, m₁, bind_error ha f, hyields, hprinted.trans (hadds m)⟩

/-- The environment in which something is done is no output. -/
theorem output_inside (env : Nat) (a : Eval α) (m : Machine) :
    (final (inside env a) m).output = (final a { m with current := env }).output := by
  unfold final inside
  cases a { m with current := env } <;> rfl

/-- In another environment the bounds make the same difference. -/
theorem Outlasts.inside (env : Nat) (h : Outlasts loose a a') : Outlasts loose (inside env a) (inside env a') where
  agrees m := by
    rw [output_inside]
    rcases h.agrees { m with current := env } with heq | ⟨stop, m₁, ha, hyields, hprinted⟩
    · left
      unfold Eval.inside
      rw [heq]
    · exact Or.inr ⟨stop, _, inside_error ha, hyields, hprinted⟩
  adds m := by
    rw [output_inside]
    exact h.adds { m with current := env }

theorem outlasts_deeper {k k' : Nat} {p p' : Nat → Eval α} (hk : Wider loose k k')
    (h : ∀ j j', Wider loose j j' → Outlasts loose (p j) (p' j')) : Outlasts loose (deeper k p) (deeper k' p') := by
  rcases hk.cases with ⟨rfl, rfl⟩ | ⟨hl, rfl, j', rfl⟩ | ⟨j, j', rfl, rfl, hj⟩
  · exact ⟨fun _ => Or.inl rfl, fun _ => List.prefix_refl _⟩
  · have hadds := (h 0 j' (Or.inr ⟨hl, Nat.zero_le _⟩)).adds
    exact ⟨fun m => Or.inr ⟨_, m, rfl, Or.inr ⟨hl, rfl⟩, hadds m⟩, hadds⟩
  · exact h j j' hj

/-- What a call makes of the end of the stack is an overflow. -/
theorem Outlasts.catchStack (paren : Lexeme) (h : Outlasts loose a a') :
    Outlasts loose (catchStack paren a) (catchStack paren a') where
  agrees m := by
    rw [final_catchStack]
    rcases h.agrees m with heq | ⟨stop, m₁, ha, hyields, hprinted⟩
    · left
      unfold Eval.catchStack
      rw [heq]
    · unfold Eval.catchStack
      rw [ha]
      cases stop with
      | fault fault => exact Or.inr ⟨_, m₁, rfl, hyields, hprinted⟩
      | outOfStack => exact Or.inr ⟨_, m₁, rfl, Or.inl rfl, hprinted⟩
  adds m := by
    rw [final_catchStack]
    exact h.adds m

theorem carried_outlasts (loose : Prop) : Carried (Wider loose) (Outlasts loose) where
  primitive h := ⟨fun _ => Or.inl rfl, h.blind.adds⟩
  bind := Outlasts.bind
  inside := Outlasts.inside
  deeper := outlasts_deeper
  catchStack := Outlasts.catchStack

/-! ## Programs -/

variable {calls stack : Nat}

/-- By induction on the calls that are left under the smaller bound. -/
theorem invoke_outlasts (host : Host) (calls stack : Nat) {n n' : Nat} (hn : n ≤ n') :
    Both (Wider loose) (Outlasts loose) (invoke host n) (invoke { host with calls, stack } n') := by
  induction n generalizing n' with
  | zero =>
    intro k k' _ paren callee values
    have hblind : Blind (invoke { host with calls, stack } n' k' paren callee values) :=
      (blind_invoke _ n' rfl paren callee values).2
    exact ⟨fun m => Or.inr ⟨_, m, rfl, Or.inl rfl, hblind.adds m⟩, hblind.adds⟩
  | succ n ih =>
    obtain ⟨i, rfl⟩ : ∃ i, n' = i + 1 := ⟨n' - 1, by omega⟩
    have hclock : { host with calls, stack }.clock = host.clock := rfl
    have hrounds : { host with calls, stack }.rounds = host.rounds := rfl
    exact (carried_outlasts loose).invoke hclock hrounds (ih (Nat.le_of_succ_le_succ hn))

theorem program_outlasts (host : Host) (hcalls : host.calls ≤ calls) (hstack : Wider loose host.stack stack)
    (interactive : Bool) (ss : List Stmt) :
    Outlasts loose (ss.forM (topLevel host interactive))
      (ss.forM (topLevel { host with calls, stack } interactive)) := by
  have hrounds : { host with calls, stack }.rounds = host.rounds := rfl
  exact (carried_outlasts loose).program hrounds hstack (invoke_outlasts host calls stack hcalls) interactive ss

end Eval

end Lox
