/-
  Lox.Proofs.Scope.Table — the table of a program without errors gives each use of a name
  the innermost open scope that declares the name, and no entry where there is none.

  A name that is read is completely declared where it is found (`table_of_ref`,
  `table_of_parent`); one that is assigned need not be (`table_of_assign`). A `this`
  stands in a class (`table_of_this`), and a `super` in one with a superclass, its
  receiver one scope further in (`table_of_super`).
-/

import Lox.Proofs.Scope.Resolved

namespace Lox

open Resolver Opened

variable {p : List Stmt} {r : Resolver} {os : List Opened} {x : String} {d : Nat}

/-! ## The scope that a name selects -/

/-- The innermost open scope with a declaration of the name is `d` scopes out. -/
def Selects (os : List Opened) (x : String) (d : Nat) : Prop :=
  (∃ o, os[d]? = some o ∧ o.Declares x) ∧ ∀ i < d, ∀ o, os[i]? = some o → ¬ o.Declares x

/-- No open scope declares the name. -/
def IsGlobal (os : List Opened) (x : String) : Prop := ∀ o ∈ os, ¬ o.Declares x

theorem mem_of_find {names : Names} {c : Bool} (h : Bindings.find x names = some c) : (x, c) ∈ names := by
  induction names with
  | nil => cases h
  | cons entry rest ih =>
    obtain ⟨key, value⟩ := entry
    by_cases hk : key = x
    · subst hk
      simp only [Bindings.find, if_true, Option.some.injEq] at h
      subst h
      exact List.mem_cons_self ..
    · simp only [Bindings.find, hk, if_false] at h
      exact List.mem_cons_of_mem _ (ih h)

theorem declares_iff (o : Opened) (x : String) : o.Declares x ↔ (Bindings.find x o.names).isSome := by
  constructor
  · intro h
    obtain ⟨c, hc⟩ := h
    rw [Option.isSome_iff_ne_none, Ne, Bindings.find_eq_none_iff]
    exact fun hn => hn (List.mem_map.mpr ⟨_, hc, rfl⟩)
  · intro h
    obtain ⟨c, hc⟩ := Option.isSome_iff_exists.mp h
    exact ⟨c, mem_of_find hc⟩

theorem isGlobal_iff (os : List Opened) (x : String) : select? x (namesOf os) = none ↔ IsGlobal os x := by
  induction os with
  | nil => simp [namesOf, select?, IsGlobal]
  | cons o os ih =>
    unfold IsGlobal at ih ⊢
    rw [List.forall_mem_cons, ← ih, declares_iff]
    by_cases h : (Bindings.find x o.names).isSome <;> simp [namesOf, select?, h]

/-- The scope that is found first is the innermost one that declares the name. -/
theorem selects_iff (os : List Opened) (x : String) (d : Nat) : select? x (namesOf os) = some d ↔ Selects os x d := by
  induction os generalizing d with
  | nil => simp [namesOf, select?, Selects]
  | cons o os ih =>
    by_cases h : (Bindings.find x o.names).isSome
    · have hd := (declares_iff o x).mpr h
      have hs : select? x (namesOf (o :: os)) = some 0 := by simp [namesOf, select?, h]
      rw [hs, Option.some.injEq]
      constructor
      · intro h0
        subst h0
        exact ⟨⟨o, rfl, hd⟩, by omega⟩
      · intro h
        obtain ⟨-, hn⟩ := h
        by_cases h0 : 0 = d
        · exact h0
        · exact absurd hd (hn 0 (by omega) o rfl)
    · have hd : ¬ o.Declares x := fun hd => h ((declares_iff o x).mp hd)
      have hs : select? x (namesOf (o :: os)) = (select? x (namesOf os)).map (· + 1) := by simp [namesOf, select?, h]
      rw [hs, Option.map_eq_some_iff]
      constructor
      · intro h
        obtain ⟨i, hi, rfl⟩ := h
        obtain ⟨hfound, hinner⟩ := (ih i).mp hi
        refine ⟨hfound, fun j hj o' ho' => ?_⟩
        cases j with
        | zero => cases ho'; exact hd
        | succ j => exact hinner j (by omega) o' ho'
      · intro h
        obtain ⟨⟨o', ho', hx⟩, hinner⟩ := h
        cases d with
        | zero => cases ho'; exact absurd hx hd
        | succ i => exact ⟨i, (ih i).mpr ⟨⟨o', ho', hx⟩, fun j hj => hinner (j + 1) (by omega)⟩, rfl⟩

/-! ## Reading and writing a name -/

/-- An entry leads to the scope that the name selects; without an entry there is none. -/
def IsEntry (entry : Option Int) (os : List Opened) (x : String) : Prop :=
  match entry with
  | some d => ∃ i : Nat, d = i ∧ Selects os x i
  | none => IsGlobal os x

theorem isEntry_of_select {entry : Option Int} (h : entry = (select? x (namesOf os)).map Int.ofNat) :
    IsEntry entry os x := by
  subst h
  cases hs : select? x (namesOf os) with
  | some i => exact ⟨i, rfl, (selects_iff os x i).mp hs⟩
  | none => exact (isGlobal_iff os x).mp hs

theorem record_same (r : Resolver) (slot : Int) (hops : Nat) :
    (r.record slot hops).distances[slot]? = some (hops : Int) := by
  simp [record]

theorem distances_write (r : Resolver) (target : Reference) (hf : r.distances[target.slot]? = none) :
    (r.write target).distances[target.slot]? = (hops? target.name.text r.scopes).map Int.ofNat := by
  unfold write
  split
  next d hd =>
    rw [hd, record_same]
    rfl
  next hd => rw [hd, hf]; rfl

/-- A slot that is free is entered with the distance of its name. -/
theorem distances_read (r : Resolver) (target : Reference) (hf : r.distances[target.slot]? = none) :
    (r.read target).distances[target.slot]? = (hops? target.name.text r.scopes).map Int.ofNat := by
  unfold Resolver.read
  split
  next d hd =>
    rw [hd]
    exact record_same r target.slot d
  next hd => rw [hd, hf]; rfl

theorem isPending_eq (r : Resolver) (x : String) :
    r.isPending x = ((outline r.scopes).head?.any fun names => Bindings.find x names == some false) := by
  unfold isPending
  split
  next h => simp [h, outline]
  next s rest h =>
    simp only [h, outline, List.map_cons, List.head?_cons, Option.any_some, find_outline, Bindings.get?]
    cases Bindings.find x s.entries with
    | none => rfl
    | some entry => cases h : entry.defined <;> simp [h]

/-- A read without an error is of no pending name. -/
theorem readVariable_eq {target : Reference} (he : (r.readVariable target).errors = #[]) :
    r.isPending target.name.text = false ∧ r.readVariable target = r.read target := by
  by_cases h : r.isPending target.name.text = true
  · rw [readVariable, if_pos h] at he
    simp [report, record] at he
  · rw [Bool.not_eq_true] at h
    exact ⟨h, by rw [readVariable, h]; rfl⟩

/-- What a name selects, if it is complete in the innermost scope and all others are complete. -/
theorem complete_of_selects (ho : Complete os.tail) (hp : ∀ o, os.head? = some o → Bindings.find x o.names ≠ some false)
    (h : Selects os x d) : ∃ o, os[d]? = some o ∧ (x, true) ∈ o.names := by
  obtain ⟨⟨o, hfound, hx⟩, -⟩ := h
  refine ⟨o, hfound, ?_⟩
  obtain ⟨c, hc⟩ := Option.isSome_iff_exists.mp ((declares_iff o x).mp hx)
  have hm := mem_of_find hc
  cases c with
  | true => exact hm
  | false =>
    cases os with
    | nil => cases hfound
    | cons first os =>
      cases d with
      | zero =>
        cases hfound
        exact absurd hc (hp o rfl)
      | succ d => exact absurd (ho o (List.mem_of_getElem? hfound) _ hm) Bool.false_ne_true

/-- The entry of an assignment is the distance of its name. -/
theorem table_of_assign {target : Reference} {e : Expr} (hp : Accepted p)
    (h : Within p (.expr (.assign target e)) r os) :
    IsEntry (resolve p).distances[target.slot]? os target.name.text := by
  obtain ⟨-, hpart, hs⟩ := resolved hp h
  have hw := walked_expr e r
  have hpart' : Part (resolve p).distances [target.slot] (expr e r) ((expr e r).write target) := hpart.right hw.table
  have hstand := hs.walked hw (hpart'.before (walked_write _ target))
  apply isEntry_of_select
  rw [hpart'.table _ (List.mem_singleton_self _), distances_write _ _ (hpart'.fresh _ (List.mem_singleton_self _)),
    hops?_eq, hstand.scopes]

/-- The entry of a reference is the distance of its name, which is complete there. -/
theorem table_of_ref {target : Reference} (hp : Accepted p) (h : Within p (.expr (.ref target)) r os) :
    IsEntry (resolve p).distances[target.slot]? os target.name.text ∧
    ∀ d, Selects os target.name.text d → ∃ o, os[d]? = some o ∧ (target.name.text, true) ∈ o.names := by
  obtain ⟨-, hpart, hs⟩ := resolved hp h
  obtain ⟨hpending, hread⟩ := readVariable_eq hpart.errors
  rw [isPending_eq, hs.scopes] at hpending
  refine ⟨isEntry_of_select ?_, fun d hd => complete_of_selects hs.outer (fun o ho => ?_) hd⟩
  · have ht := hpart.table _ (List.mem_singleton_self _)
    rw [show Site.walk (.expr (.ref target)) r = r.readVariable target from rfl, hread,
      distances_read _ _ (hpart.fresh _ (List.mem_singleton_self _)), hops?_eq, hs.scopes] at ht
    exact ht
  · cases os with
    | nil => cases ho
    | cons first os =>
      cases ho
      simpa [namesOf] using hpending

/-- The name of the class itself is complete where its superclass is read. -/
theorem table_of_parent {name : Lexeme} {target : Reference} (hp : Accepted p)
    (h : Within p (.parent name target) r os) :
    IsEntry (resolve p).distances[target.slot]? os target.name.text ∧
    ∀ d, Selects os target.name.text d → ∃ o, os[d]? = some o ∧ (target.name.text, true) ∈ o.names := by
  obtain ⟨-, hpart, hs⟩ := resolved hp h
  obtain ⟨hdistances, hscopes, herrors⟩ := beforeParent_same r name target
  obtain ⟨hpending, hread⟩ := readVariable_eq hpart.errors
  obtain ⟨-, hne⟩ := herrors ((walked_readVariable _ target).errors hpart.errors)
  have hfind : ∀ names, Bindings.find target.name.text
      (names.map fun entry : String × Bool => (entry.1, if entry.1 = name.text then true else entry.2)) =
      Bindings.find target.name.text names := by
    intro names
    rw [Bindings.find_map target.name.text (fun x c => if x = name.text then true else c)]
    simp [hne]
  have hselect : select? target.name.text (completeName name.text (namesOf os)) = select? target.name.text
    (namesOf os) := by
    cases os with
    | nil => rfl
    | cons o os => simp only [namesOf, List.map_cons, completeName, select?, hfind]
  constructor
  · apply isEntry_of_select
    have ht := hpart.table _ (List.mem_singleton_self _)
    rw [show Site.walk (.parent name target) r = (r.beforeParent name target).readVariable target from rfl, hread,
      distances_read _ _ (hdistances ▸ hpart.fresh _ (List.mem_singleton_self _)), hops?_eq, hscopes, hs.scopes,
      hselect] at ht
    exact ht
  · intro d hd
    rw [isPending_eq, hscopes, hs.scopes] at hpending
    refine complete_of_selects hs.outer (fun o ho => ?_) hd
    cases os with
    | nil => cases ho
    | cons first os =>
      cases ho
      simp only [namesOf, List.map_cons, completeName, List.head?_cons, Option.any_some, hfind] at hpending
      simpa using hpending

/-! ## Receiver and superclass -/

/-- The scope `d` scopes out is that of `this` around the methods of a class. -/
def IsReceiver (os : List Opened) (d : Nat) : Prop :=
  ∃ superclass methods, os[d]? = some ⟨.receiver superclass methods, [(thisName, true)]⟩

/-- The scope `d` scopes out is that of `super`. -/
def IsSuperclass (os : List Opened) (d : Nat) : Prop :=
  ∃ target methods, os[d]? = some ⟨.superclass target methods, [(superName, true)]⟩

theorem this_ne_super : thisName ≠ superName := by decide

/-- Within a class there is a scope for the receiver. -/
theorem select_this (hl : Layered os) (hc : classContext (os.map (·.frame)) ≠ .none) :
    ∃ d, select? thisName (namesOf os) = some d ∧ IsReceiver os d := by
  induction hl with
  | nil => exact absurd rfl hc
  | block hn _ ih | routine hn _ ih =>
    obtain ⟨d, hd, hr⟩ := ih hc
    refine ⟨d + 1, ?_, hr⟩
    have hnone := (Bindings.find_eq_none_iff thisName _).mpr fun hm => by
      obtain ⟨entry, he, hx⟩ := List.mem_map.mp hm
      exact (hn entry he).1 hx
    unfold namesOf at hd ⊢
    simp only [List.map_cons, select?, hnone, hd]
    rfl
  | class_ => exact ⟨0, rfl, _, _, rfl⟩

/-- The two scopes that a class with a superclass opens around its methods, the inner one `d` scopes out. -/
structure IsSubclass (os : List Opened) (d : Nat) (target : Reference) (methods : List Routine) : Prop where
  receiver : os[d]? = some ⟨.receiver (some target) methods, [(thisName, true)]⟩
  superclass : os[d + 1]? = some ⟨.superclass target methods, [(superName, true)]⟩

/-- Within a subclass there is a scope for the superclass right behind the one for the receiver. -/
theorem select_class (hl : Layered os) (hc : classContext (os.map (·.frame)) = .subclass) :
    ∃ d target methods, IsSubclass os d target methods ∧ select? thisName (namesOf os) = some d ∧
      select? superName (namesOf os) = some (d + 1) := by
  induction hl with
  | nil => cases hc
  | block hn _ ih | routine hn _ ih =>
    obtain ⟨d, target, methods, hclass, hthis, hsuper⟩ := ih hc
    have hnone {x : String} (hx : IsReserved x) := (Bindings.find_eq_none_iff x _).mpr fun hm => by
      obtain ⟨entry, he, hname⟩ := List.mem_map.mp hm
      exact hx.elim (fun h => (hn entry he).1 (hname.trans h)) fun h => (hn entry he).2 (hname.trans h)
    refine ⟨d + 1, target, methods, ⟨hclass.receiver, hclass.superclass⟩, ?_, ?_⟩
    · unfold namesOf at hthis ⊢
      simp only [List.map_cons, select?, hnone (Or.inl rfl), hthis]
      rfl
    · unfold namesOf at hsuper ⊢
      simp only [List.map_cons, select?, hnone (Or.inr rfl), hsuper]
      rfl
  | @class_ superclass ms os _ _ =>
    cases superclass with
    | none => cases hc
    | some target => exact ⟨0, target, ms, ⟨rfl, rfl⟩, rfl, rfl⟩

/-- The entry of a `this` is the distance of the receiver. -/
theorem table_of_this {keyword : Reference} (hp : Accepted p) (h : Within p (.expr (.this keyword)) r os) :
    ∃ d : Nat, (resolve p).distances[keyword.slot]? = some (d : Int) ∧ Selects os thisName d ∧ IsReceiver os d := by
  obtain ⟨hname, hpart, hs⟩ := resolved hp h
  have hpart' : Part (resolve p).distances [keyword.slot] r (r.this keyword) := hpart
  have hc : r.class_ ≠ .none := by
    intro hc
    have he := hpart'.errors
    simp [this, hc, report] at he
  have hwalk : r.this keyword = r.read keyword := by
    unfold this
    split
    next hn => exact absurd hn hc
    next => rfl
  obtain ⟨d, hd, hr⟩ := select_this hs.layered (hs.context ▸ hc)
  refine ⟨d, ?_, (selects_iff os thisName d).mp hd, hr⟩
  rw [hpart'.table _ (List.mem_singleton_self _), hwalk, distances_read _ _
    (hpart'.fresh _ (List.mem_singleton_self _)),
    hops?_eq, hs.scopes, show keyword.name.text = thisName from hname, hd]
  rfl

/-- The innermost class around a `super` has a superclass. -/
theorem class_of_super {keyword : Reference} {method : Lexeme} (hp : Accepted p)
    (h : Within p (.expr (.super keyword method)) r os) :
    ∃ (d : Nat) (target : Reference) (methods : List Routine), IsSubclass os d target methods ∧
      (resolve p).distances[keyword.slot]? = some ((d + 1 : Nat) : Int) ∧ Selects os thisName d ∧
        Selects os superName (d + 1) := by
  obtain ⟨hname, hpart, hs⟩ := resolved hp h
  have hpart' : Part (resolve p).distances [keyword.slot] r (r.super keyword) := hpart
  have hc : r.class_ = .subclass := by
    have he := hpart'.errors
    cases hc : r.class_ with
    | subclass => rfl
    | _ => simp [super, hc, report] at he
  have hwalk : r.super keyword = r.read keyword := by simp only [super, hc]
  obtain ⟨d, target, methods, hclass, hthis, hsuper⟩ := select_class hs.layered (hs.context ▸ hc)
  refine ⟨d, target, methods, hclass, ?_, (selects_iff os thisName _).mp hthis, (selects_iff os superName _).mp hsuper⟩
  rw [hpart'.table _ (List.mem_singleton_self _), hwalk, distances_read _ _
    (hpart'.fresh _ (List.mem_singleton_self _)),
    hops?_eq, hs.scopes, show keyword.name.text = superName from hname, hsuper]
  rfl

theorem table_of_super {keyword : Reference} {method : Lexeme} (hp : Accepted p)
    (h : Within p (.expr (.super keyword method)) r os) :
    ∃ d : Nat, (resolve p).distances[keyword.slot]? = some ((d + 1 : Nat) : Int) ∧ Selects os superName (d + 1) ∧
      IsReceiver os d ∧ IsSuperclass os (d + 1) := by
  obtain ⟨d, target, methods, hclass, hd, -, hsuper⟩ := class_of_super hp h
  exact ⟨d, hd, hsuper, ⟨_, _, hclass.receiver⟩, _, _, hclass.superclass⟩

end Lox
