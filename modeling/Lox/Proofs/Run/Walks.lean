/-
  Lox.Proofs.Run.Walks — walks along the links of environments and of classes.

  A walk looks at one thing after the other: where something is held, that is its result;
  where nothing is held it goes on along the link, and past the last link nothing is found
  (`Walks`). Nothing bounds a walk but the links themselves. The searches of the machine
  follow a link only to something older, so they end whatever the links are. Where all
  links go to older things, the unbounded walk ends too, and finds the same
  (`walks_search`).
-/

import Lox.Proofs.Store.Shadowing

namespace Lox

/-! ## Walks -/

/-- What is found along the links, from a start outward. -/
inductive Walks {β : Type} (held : Nat → Option β) (link : Nat → Option Nat) : Option Nat → Option β → Prop
  | past : Walks held link none none
  | found {i : Nat} {b : β} : held i = some b → Walks held link (some i) (some b)
  | onward {i : Nat} {r : Option β} : held i = none → Walks held link (link i) r → Walks held link (some i) r

section Links

variable {β : Type} {held : Nat → Option β} {link : Nat → Option Nat}

/-- A search that follows links to older things only finds what a walk finds, if there are no others. -/
theorem walks_search (search : Nat → Option β) (older : ∀ i p, link i = some p → p < i)
    (hsearch : ∀ i, search i = (held i).or ((link i).bind fun p => if p < i then search p else none)) (i : Nat) :
    Walks held link (some i) (search i) := by
  induction i using Nat.strongRecOn with
  | ind i ih =>
    rw [hsearch i]
    cases hheld : held i with
    | some b => exact .found hheld
    | none =>
      refine .onward hheld ?_
      cases hlink : link i with
      | none => exact .past
      | some p =>
        have hp := older i p hlink
        simp only [Option.none_or, Option.bind_some, if_pos hp]
        exact ih p hp

end Links

/-! ## Environments -/

namespace Store

variable {α : Type} {s : Store α}

/-- Where the name is held, as far as one environment tells. -/
def holds (s : Store α) (x : String) (k : Nat) : Option Nat := if (s.cell k x).isSome then some k else none

theorem holder?_walks (older : ∀ i p, s.outer? i = some p → p < i) (x : String) (i : Nat) :
    Walks (s.holds x) s.outer? (some i) (s.holder? x i) := by
  refine walks_search (s.holder? x) older (fun i => ?_) i
  rw [holder?_eq]
  unfold holds
  split <;> simp

/-- The walk that a read is: it ends at the value of the name, or finds none. -/
theorem read_walks (older : ∀ i p, s.outer? i = some p → p < i) (i : Nat) (name : Lexeme) :
    ∃ found, Walks (s.cell · name.text) s.outer? (some i) found ∧
      s.read i name = found.elim (.error (.runtime ⟨name, .undefinedVariable name.text⟩)) .ok := by
  refine ⟨(s.holder? name.text i).bind (s.cell · name.text), ?_, ?_⟩
  · refine walks_search (fun i => (s.holder? name.text i).bind (s.cell · name.text)) older (fun i => ?_) i
    rw [holder?_eq]
    cases hcell : s.cell i name.text with
    | some v => simp [hcell]
    | none =>
      cases s.outer? i with
      | none => simp
      | some p => by_cases hp : p < i <;> simp [hp]
  · cases hholder : s.holder? name.text i with
    | none => exact read_none hholder
    | some k =>
      obtain ⟨v, hv⟩ := Option.isSome_iff_exists.mp (holder?_isSome hholder)
      rw [read_some hholder, valueIn_of_cell hv, Option.bind_some, hv]
      rfl

/-- The walk that an assignment is: it ends at the environment that is written. -/
theorem assign_walks (older : ∀ i p, s.outer? i = some p → p < i) (i : Nat) (name : Lexeme) (v : α) :
    ∃ found, Walks (s.holds name.text) s.outer? (some i) found ∧
      s.assign i name v =
        found.elim (.error (.runtime ⟨name, .undefinedVariable name.text⟩)) fun k => .ok (s.define k name.text v) := by
  refine ⟨_, holder?_walks older name.text i, ?_⟩
  unfold assign holder
  cases s.holder? name.text i <;> rfl

/-- Every hop goes to an older environment, so there are no more hops than such environments. -/
theorem ancestor?_older (older : ∀ i p, s.outer? i = some p → p < i) {n i k : Nat} (h : s.ancestor? n i = some k) :
    k + n ≤ i := by
  induction n generalizing i with
  | zero =>
    cases h
    exact Nat.le_refl _
  | succ n ih =>
    obtain ⟨p, hlink, hrest⟩ := Option.bind_eq_some_iff.mp h
    have hp := older i p hlink
    have hk := ih hrest
    omega

theorem ancestor_ends (older : ∀ i p, s.outer? i = some p → p < i) (i : Nat) (d : Int) :
    (∃ k, k + Distances.hops d ≤ i ∧ s.ancestor i d = .ok k) ∨ s.ancestor i d = .error (.chainExceeded d) := by
  unfold ancestor
  cases h : s.ancestor? (Distances.hops d) i with
  | some k => exact Or.inl ⟨k, ancestor?_older older h, rfl⟩
  | none => exact Or.inr rfl

end Store

/-! ## Classes -/

/-- The method of a name that a class has of its own. -/
def ownMethod? (classes : Array Class) (name : String) (k : Nat) : Option Closure :=
  classes[k]?.bind fun c => c.methods.get? name

def superclass? (classes : Array Class) (k : Nat) : Option Nat := classes[k]?.bind fun c => c.superclass

/-- A method is looked for along the superclasses, and every one of them is older. -/
theorem findMethod?_walks {classes : Array Class} (older : ∀ k p, superclass? classes k = some p → p < k)
    (name : String)
    (k : Nat) : Walks (ownMethod? classes name) (superclass? classes) (some k) (findMethod? classes name k) := by
  refine walks_search (findMethod? classes name) older (fun k => ?_) k
  rw [findMethod?]
  unfold ownMethod? superclass?
  cases classes[k]? with
  | none => rfl
  | some c =>
    cases hmethod : c.methods.get? name with
    | some method => simp [hmethod]
    | none => cases hparent : c.superclass <;> simp [hmethod, hparent]

end Lox
