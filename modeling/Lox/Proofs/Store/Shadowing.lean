/-
  Lox.Proofs.Store.Shadowing — environments that are made inside of one another, however
  they came about (`Forest`), obey the laws of shadowing (`environments_shadow`).

  `LeadsTo x j k`: from `j` outward to `k` no environment before `k` holds the name; the
  nearest holder is where that ends at one that does (`Nearest`). A name is assigned where
  it is read (`assign_ok`), so assigning and defining are both writes to one environment,
  and one lemma says who sees a write: those that it leads to, before another holder
  (`read_define`).
-/

import Lox.Proofs.Run.Effects

namespace Lox

namespace Store

variable {α : Type} {s s' : Store α} {i j k p : Nat} {x y : String} {v : α}

/-- Environments that have come about by making and writing them, in any order. -/
inductive Forest : Store α → Prop
  | empty : Forest empty
  /-- A new environment, inside of one that is there or of none. -/
  | new {s : Store α} (values : Bindings α) {enclosing : Option Nat} :
      Forest s → (∀ p, enclosing = some p → p < s.size) → Forest (s.push values enclosing)
  | define {s : Store α} (i : Nat) (name : String) (value : α) : Forest s → Forest (s.define i name value)
  | assign {s s' : Store α} {i : Nat} {name : Lexeme} {value : α} :
      Forest s → s.assign i name value = .ok s' → Forest s'
  | assignAt {s s' : Store α} {i : Nat} {distance : Int} {name : String} {value : α} :
      Forest s → s.assignAt i distance name value = .ok s' → Forest s'

/-- From an environment outward to another, past environments that do not hold the name. -/
inductive LeadsTo (s : Store α) (x : String) : Nat → Nat → Prop
  | here (i : Nat) : LeadsTo s x i i
  | outward {i p k : Nat} : s.cell i x = none → s.outer? i = some p → LeadsTo s x p k → LeadsTo s x i k

/-- The nearest environment on the chain of another that holds the name. -/
def Nearest (s : Store α) (x : String) (i k : Nat) : Prop := s.LeadsTo x i k ∧ (s.cell k x).isSome

/-! ## Links -/

/-- An assignment goes to the environment that has the name. -/
theorem assign_ok {name : Lexeme} :
    s.assign i name v = .ok s' ↔ ∃ k, s.holder? name.text i = some k ∧ s' = s.define k name.text v := by
  unfold assign holder
  cases s.holder? name.text i with
  | none =>
    constructor
    · intro h
      cases h
    · rintro ⟨k, hk, -⟩
      cases hk
  | some k =>
    constructor
    · intro h
      cases h
      exact ⟨k, rfl, rfl⟩
    · rintro ⟨_, hk, rfl⟩
      cases hk
      rfl

theorem assignAt_ok {distance : Int} (h : s.assignAt i distance x v = .ok s') : ∃ k, s' = s.define k x v := by
  unfold assignAt at h
  cases ha : s.ancestor i distance with
  | error fault =>
    rw [ha] at h
    cases h
  | ok k =>
    rw [ha] at h
    cases h
    exact ⟨k, rfl⟩

/-- Links go to environments that were made before. -/
theorem Forest.older (h : Forest s) (hp : s.outer? i = some p) : p < i := by
  induction h with
  | empty => cases hp
  | @new s values enclosing _ henclosing ih =>
    rw [outer?_push] at hp
    split at hp
    next hi => exact hi ▸ henclosing p hp
    next => exact ih hp
  | define k name value _ ih => exact ih (by rwa [outer?_define] at hp)
  | assign _ hassign ih =>
    obtain ⟨k, -, rfl⟩ := assign_ok.mp hassign
    exact ih (by rwa [outer?_define] at hp)
  | assignAt _ hassign ih =>
    obtain ⟨k, rfl⟩ := assignAt_ok hassign
    exact ih (by rwa [outer?_define] at hp)

/-! ## The nearest holder -/

theorem cell_isSome_contains {e : Environment α} (he : s.environments[i]? = some e) :
    (s.cell i x).isSome = e.values.contains x := by
  unfold cell values?
  rw [he]
  rfl

/-- The search, told by what the environments hold and where they lead. -/
theorem holder?_eq (s : Store α) (x : String) (i : Nat) :
    s.holder? x i = if (s.cell i x).isSome then some i
      else (s.outer? i).bind fun p => if p < i then s.holder? x p else none := by
  rw [holder?]
  unfold outer?
  cases he : s.environments[i]? with
  | none =>
    have hnone : s.cell i x = none := by
      unfold cell values?
      rw [he]
      rfl
    simp [hnone]
  | some e =>
    obtain ⟨values, enclosing⟩ := e
    rw [cell_isSome_contains he]
    cases enclosing <;> simp

/-- The search depends on which environments hold the name, and not on its values. -/
theorem holder?_congr (hlinks : ∀ k, s'.outer? k = s.outer? k)
    (hcells : ∀ k, (s'.cell k x).isSome = (s.cell k x).isSome) (i : Nat) : s'.holder? x i = s.holder? x i := by
  induction i using Nat.strongRecOn with
  | _ i ih =>
    rw [holder?_eq s', holder?_eq s, hlinks, hcells]
    cases s.outer? i with
    | none => rfl
    | some p =>
      by_cases hp : p < i
      · simp only [Option.bind_some, hp, if_true, ih p hp]
      · simp only [Option.bind_some, hp, if_false]

/-- The environment that has the name is the nearest one along the links. -/
theorem nearest_iff (hs : Forest s) : s.Nearest x i k ↔ s.holder? x i = some k := by
  constructor
  · rintro ⟨hleads, hheld⟩
    induction hleads with
    | here i => rw [holder?_eq, if_pos hheld]
    | @outward i p k hnone hlink _ ih =>
      have hpast : s.holder? x i = s.holder? x p := by
        rw [holder?_eq, hnone, hlink]
        exact if_pos (hs.older hlink)
      rw [hpast, ih hheld]
  · intro h
    refine ⟨?_, holder?_isSome h⟩
    induction i using Nat.strongRecOn with
    | _ i ih =>
      rw [holder?_eq] at h
      split at h
      next =>
        cases h
        exact .here _
      next hnone =>
        obtain ⟨p, hlink, hp⟩ := Option.bind_eq_some_iff.mp h
        rw [if_pos (hs.older hlink)] at hp
        exact .outward (by simpa using hnone) hlink (ih p (hs.older hlink) hp)

theorem Nearest.unique (hs : Forest s) {k' : Nat} (h : s.Nearest x i k) (h' : s.Nearest x i k') : k' = k :=
  Option.some.inj (((nearest_iff hs).mp h').symm.trans ((nearest_iff hs).mp h))

/-! ## Reading -/

theorem read_none {name : Lexeme} (h : s.holder? name.text i = none) :
    s.read i name = .error (.runtime ⟨name, .undefinedVariable name.text⟩) := by
  unfold read holder
  rw [h]
  rfl

theorem read_some {name : Lexeme} (h : s.holder? name.text i = some k) : s.read i name = s.valueIn k name.text := by
  unfold read holder
  rw [h]
  rfl

/-- What is read depends on the nearest holder and its cell. -/
theorem read_congr {name : Lexeme} (hholder : s'.holder? name.text j = s.holder? name.text j)
    (hcell : ∀ k, s.holder? name.text j = some k → s'.cell k name.text = s.cell k name.text) :
    s'.read j name = s.read j name := by
  cases hk : s.holder? name.text j with
  | none => rw [read_none hk, read_none (hholder.trans hk)]
  | some k =>
    rw [read_some hk, read_some (hholder.trans hk)]
    unfold valueIn
    rw [show (s'.values? k).bind (·.get? name.text) = _ from hcell k hk]
    rfl

/-- A name can be read where there is an environment that has it. -/
theorem read_ok_iff {name : Lexeme} : (∃ u, s.read i name = .ok u) ↔ ∃ k, s.holder? name.text i = some k := by
  cases hk : s.holder? name.text i with
  | none =>
    rw [read_none hk]
    exact ⟨fun ⟨u, hu⟩ => (by cases hu), fun ⟨k, h⟩ => by cases h⟩
  | some k =>
    obtain ⟨u, hu⟩ := Option.isSome_iff_exists.mp (holder?_isSome hk)
    exact ⟨fun _ => ⟨k, rfl⟩, fun _ => ⟨u, (read_some hk).trans (valueIn_of_cell hu)⟩⟩

/-! ## Writing -/

/-- A write to an environment is found from where the name leads to that environment. -/
theorem holder?_define (hs : Forest s) (hi : i < s.size) :
    (s.LeadsTo x j i → (s.define i x v).holder? x j = some i) ∧
      (¬ s.LeadsTo x j i → (s.define i x v).holder? x j = s.holder? x j) := by
  induction j using Nat.strongRecOn with
  | _ j ih =>
    rw [holder?_eq (s.define i x v), holder?_eq s, outer?_define, cell_define]
    by_cases hij : i = j
    · subst hij
      refine ⟨fun _ => by simp [hi], fun hnot => absurd (.here i) hnot⟩
    · have hother : ¬ (i = j ∧ x = x ∧ j < s.size) := fun h => hij h.1
      rw [if_neg hother]
      by_cases hheld : (s.cell j x).isSome
      · rw [if_pos hheld, if_pos hheld]
        refine ⟨fun hleads => ?_, fun _ => rfl⟩
        cases hleads with
        | here => exact absurd rfl hij
        | outward hnone => rw [hnone] at hheld; cases hheld
      · have hnone : s.cell j x = none := by simpa using hheld
        rw [if_neg hheld, if_neg hheld]
        cases hlink : s.outer? j with
        | none =>
          refine ⟨fun hleads => ?_, fun _ => rfl⟩
          cases hleads with
          | here => exact absurd rfl hij
          | outward _ hlink' => rw [hlink] at hlink'; cases hlink'
        | some p =>
          have hp := hs.older hlink
          simp only [Option.bind_some, hp, if_true]
          refine ⟨fun hleads => (ih p hp).1 ?_, fun hnot => (ih p hp).2 fun hleads =>
            hnot (.outward hnone hlink hleads)⟩
          cases hleads with
          | here => exact absurd rfl hij
          | outward _ hlink' hrest =>
            cases Option.some.inj (hlink.symm.trans hlink')
            exact hrest

/-- Who sees a write, and that nobody else notices it. -/
theorem read_define (hs : Forest s) (hi : i < s.size) (x : String) (v : α) (j : Nat) (name : Lexeme) :
    (name.text = x → s.LeadsTo x j i → (s.define i x v).read j name = .ok v) ∧
      (¬ (name.text = x ∧ s.LeadsTo x j i) → (s.define i x v).read j name = s.read j name) := by
  have hcell := cell_define s i x v
  constructor
  · rintro rfl hleads
    have hwritten : (s.define i name.text v).cell i name.text = some v := by rw [hcell, if_pos ⟨rfl, rfl, hi⟩]
    rw [read_some ((holder?_define hs hi).1 hleads), valueIn_of_cell hwritten]
  · intro hnot
    by_cases hx : name.text = x
    · subst hx
      have hleads : ¬ s.LeadsTo name.text j i := fun h => hnot ⟨rfl, h⟩
      refine read_congr ((holder?_define hs hi).2 hleads) fun k hk => ?_
      rw [hcell, if_neg]
      rintro ⟨rfl, -⟩
      exact hleads ((nearest_iff hs).mpr hk).1
    · have hother : ∀ k, (s.define i x v).cell k name.text = s.cell k name.text := by
        intro k
        rw [hcell, if_neg]
        rintro ⟨-, rfl, -⟩
        exact hx rfl
      exact read_congr (holder?_congr (outer?_define s i x v) (fun k => congrArg Option.isSome (hother k)) j)
        fun k _ => hother k

/-! ## What a write has done -/

/-- One cell has been written, and no environment was made or moved. -/
structure Writes (s s' : Store α) (k : Nat) (x : String) (v : α) : Prop where
  size : s'.size = s.size
  links : ∀ j, s'.outer? j = s.outer? j
  cells : ∀ j y, s'.cell j y = if j = k ∧ y = x then some v else s.cell j y

/-- A definition writes one cell. -/
theorem writes_define (hk : k < s.size) (x : String) (v : α) : Writes s (s.define k x v) k x v where
  size := size_define s k x v
  links := outer?_define s k x v
  cells j y := by
    rw [cell_define]
    by_cases h : j = k ∧ y = x
    · obtain ⟨rfl, rfl⟩ := h
      rw [if_pos ⟨rfl, rfl, hk⟩, if_pos ⟨rfl, rfl⟩]
    · rw [if_neg h, if_neg]
      rintro ⟨rfl, rfl, -⟩
      exact h ⟨rfl, rfl⟩

/-- A name is assigned in its nearest holder, and read there by all that have the same one. -/
structure Assigned (s s' : Store α) (i : Nat) (x : String) (v : α) (k : Nat) : Prop where
  nearest : s.Nearest x i k
  unique : ∀ k', s.Nearest x i k' → k' = k
  writes : Writes s s' k x v
  seen : ∀ j (name : Lexeme), name.text = x → s.Nearest x j k → s'.read j name = .ok v
  unseen : ∀ j (name : Lexeme), ¬ (name.text = x ∧ s.Nearest x j k) → s'.read j name = s.read j name

/-- A name is defined in an environment, and read there by all that come to it before another
holder. -/
structure Defined (s s' : Store α) (i : Nat) (x : String) (v : α) : Prop where
  writes : Writes s s' i x v
  seen : ∀ j (name : Lexeme), name.text = x → s.LeadsTo x j i → s'.read j name = .ok v
  unseen : ∀ j (name : Lexeme), ¬ (name.text = x ∧ s.LeadsTo x j i) → s'.read j name = s.read j name

theorem defined_define (hs : Forest s) (hi : i < s.size) (x : String) (v : α) : Defined s (s.define i x v) i x v where
  writes := writes_define hi x v
  seen j name := (read_define hs hi x v j name).1
  unseen j name := (read_define hs hi x v j name).2

theorem assigned_define (hs : Forest s) (hk : s.Nearest x i k) (v : α) : Assigned s (s.define k x v) i x v k := by
  obtain ⟨u, hu⟩ := Option.isSome_iff_exists.mp hk.2
  have hdefined := defined_define hs (cell_lt hu) x v
  exact ⟨hk, fun k' h => hk.unique hs h, hdefined.writes, fun j name hx h => hdefined.seen j name hx h.1,
    fun j name hnot => hdefined.unseen j name fun ⟨hx, h⟩ => hnot ⟨hx, h, hk.2⟩⟩

end Store

open Store

/-- On the machine, assigning does what it does to the environments, or nothing. -/
theorem assignIn_eq (room i : Nat) (name : Lexeme) (v : Value) (m : Machine) :
    Eval.assignIn room i name v m =
      match m.store.assign i name v with
      | .ok s => .ok () { m with store := s }
      | .error fault => Eval.needs 1 room (throw (.fault fault)) m := by
  unfold Store.assign
  cases hk : m.store.holder i name with
  | error fault =>
    have hfault : Eval.orFail room (m.store.holder i name) m = Eval.needs 1 room (throw (.fault fault)) m := by
      rw [hk]
      rfl
    cases room with
    | zero => exact Eval.bind_error hfault _
    | succ room => exact Eval.bind_error hfault _
  | ok k =>
    have hholder : Eval.orFail room (m.store.holder i name) m = .ok k m := by
      rw [hk]
      rfl
    exact Eval.bind_ok hholder _

/-- A name can be assigned exactly where it can be read; failing changes nothing. Assigning
writes the cell of the nearest holder, defining that of the environment itself, and the new
value is read wherever the name leads to that cell, and nowhere else. -/
theorem environments_shadow {s : Store Value} (hs : s.Forest) {i : Nat} (hi : i < s.size) (name : Lexeme) (v : Value) :
    ((∃ s', s.assign i name v = .ok s') ↔ ∃ u, s.read i name = .ok u) ∧
      (∀ room m stop m', m.store = s → Eval.assignIn room i name v m = .error stop m' → m' = m ∧
        ∃ fault, s.read i name = .error fault ∧ stop = if room = 0 then .outOfStack else .fault fault) ∧
      (∀ s', s.assign i name v = .ok s' → (∃ k, Assigned s s' i name.text v k) ∧
        ∀ room m, m.store = s → Eval.assignIn room i name v m = .ok () { m with store := s' }) ∧
      Defined s (s.define i name.text v) i name.text v := by
  refine ⟨?_, ?_, fun s' hok => ⟨?_, fun room m hm => ?_⟩, defined_define hs hi name.text v⟩
  · rw [read_ok_iff]
    exact ⟨fun ⟨s', h⟩ => (assign_ok.mp h).imp fun _ hk => hk.1, fun ⟨k, hk⟩ => ⟨_, assign_ok.mpr ⟨k, hk, rfl⟩⟩⟩
  · rintro room m stop m' rfl herror
    rw [assignIn_eq] at herror
    cases hassign : m.store.assign i name v with
    | ok s' => rw [hassign] at herror; cases herror
    | error fault =>
      rw [hassign] at herror
      have hread : m.store.read i name = .error fault := by
        unfold Store.assign Store.holder at hassign
        cases hk : m.store.holder? name.text i with
        | none =>
          rw [hk] at hassign
          cases hassign
          exact read_none hk
        | some k => rw [hk] at hassign; cases hassign
      cases room <;> cases herror <;> exact ⟨rfl, fault, hread, rfl⟩
  · obtain ⟨k, hk, rfl⟩ := assign_ok.mp hok
    exact ⟨k, assigned_define hs ((nearest_iff hs).mpr hk) v⟩
  · rw [assignIn_eq, hm, hok]

/-- A name in an environment, a second environment inside of it that shadows it, and a third
one beside that one. -/
def shadowed : Store Value :=
  (((Store.empty.push (.single "a" .nil) none).push ∅ (some 0)).define 1 "a" (.bool true)).push ∅ (some 0)

theorem forest_shadowed : shadowed.Forest := by
  refine .new ∅ (.define 1 "a" _ (.new ∅ (.new _ .empty fun p hp => ?_) fun p hp => ?_)) fun p hp => ?_
  · cases hp
  · cases hp
    decide
  · cases hp
    decide

/-- From the third environment the outermost cell is written; the second one still reads its own. -/
theorem environments_shadow_beside :
    shadowed.Forest ∧ 2 < shadowed.size ∧ ∃ s', shadowed.assign 2 ⟨"a", 1⟩ (.bool false) = .ok s' ∧
      ∃ k, Assigned shadowed s' 2 "a" (.bool false) k := by
  have hsize : 2 < shadowed.size := by decide
  obtain ⟨hiff, -, hok, -⟩ := environments_shadow forest_shadowed hsize ⟨"a", 1⟩ (.bool false)
  obtain ⟨s', hs'⟩ := hiff.mpr (read_ok_iff.mpr ⟨0, by decide +kernel⟩)
  exact ⟨forest_shadowed, hsize, s', hs', (hok s' hs').1⟩

end Lox
