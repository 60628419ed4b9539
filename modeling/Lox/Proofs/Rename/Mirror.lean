/-
  Lox.Proofs.Rename.Mirror — the resolver walks a renamed program as it walks the program:
  its scopes are the same but for the names (`Resolver.respell`), it finds the same
  distances, and where the program is without an error so is the renamed one
  (`mirror`, `resolve_renamed`).

  A chosen scope, and every scope inside of it, is without the new name (`Apart`): so the
  new name is found where the old one was.
-/

import Lox.Proofs.Rename.Names

namespace Lox

variable {ρ : Renaming} {fs : List Bool} {os : List Opened} {f : Bool} {a : String}

/-! ## Scopes with other names -/

namespace Renaming

variable (ρ)

def local_ (renamed : Bool) (l : Local) : Local := { l with watched := l.watched.map (ρ.name renamed) }

def scope (renamed : Bool) (s : Scope) : Scope :=
  ⟨s.entries.map fun entry => (ρ.text renamed entry.1, ρ.local_ renamed entry.2)⟩

def scopes : List Bool → List Scope → List Scope
  | _, [] => []
  | fs, s :: rest => ρ.scope (fs.headD false) s :: scopes fs.tail rest

end Renaming

def Resolver.respell (ρ : Renaming) (fs : List Bool) (r : Resolver) : Resolver :=
  { r with scopes := ρ.scopes fs r.scopes }

/-- A scope that is chosen, or inside of one that is, is without the new name. -/
def Apart (ρ : Renaming) : List Bool → List Names → Prop
  | _, [] => True
  | fs, names :: rest => (true ∈ fs → ρ.new ∉ names.map (·.1)) ∧ Apart ρ fs.tail rest

theorem mem_of_tail (h : true ∈ fs.tail) : true ∈ fs := List.mem_of_mem_tail h

namespace Renaming

theorem find_scope {entries : List (String × Local)} (ha : f = true → a ≠ ρ.new)
    (he : f = true → ρ.new ∉ entries.map (·.1)) :
    Bindings.find (ρ.text f a) (entries.map fun entry => (ρ.text f entry.1, ρ.local_ f entry.2)) =
      (Bindings.find a entries).map (ρ.local_ f) := by
  induction entries with
  | nil => rfl
  | cons entry rest ih =>
    have hrest : f = true → ρ.new ∉ rest.map (·.1) := fun hf hm => he hf (List.mem_cons_of_mem _ hm)
    have hkey : f = true → entry.1 ≠ ρ.new := fun hf hk => he hf (hk ▸ List.mem_cons_self ..)
    by_cases hx : entry.1 = a
    · subst hx
      simp [Bindings.find]
    · have hne : ρ.text f entry.1 ≠ ρ.text f a := fun h => hx (text_inj id id hkey ha h)
      simp only [List.map_cons, Bindings.find, hx, hne, if_false]
      exact ih hrest

theorem get?_scope {s : Scope} (ha : f = true → a ≠ ρ.new) (hs : f = true → ρ.new ∉ s.keys) :
    (ρ.scope f s).get? (ρ.text f a) = (s.get? a).map (ρ.local_ f) :=
  find_scope ha hs

theorem contains_scope {s : Scope} (ha : f = true → a ≠ ρ.new) (hs : f = true → ρ.new ∉ s.keys) :
    (ρ.scope f s).contains (ρ.text f a) = s.contains a := by
  unfold Bindings.contains
  rw [get?_scope ha hs, Option.isSome_map]

theorem adjust_scope {s : Scope} {change : Local → Local} (ha : f = true → a ≠ ρ.new) (hs : f = true → ρ.new ∉ s.keys)
    (hc : ∀ l, change (ρ.local_ f l) = ρ.local_ f (change l)) :
    (ρ.scope f s).adjust (ρ.text f a) change = ρ.scope f (s.adjust a change) := by
  unfold Bindings.adjust scope
  simp only [List.map_map]
  congr 1
  refine List.map_congr_left fun entry hm => ?_
  have hkey : f = true → entry.1 ≠ ρ.new := fun hf hk => hs hf (hk ▸ List.mem_map_of_mem hm)
  by_cases hx : entry.1 = a
  · subst hx
    simp [hc]
  · have hne : ρ.text f entry.1 ≠ ρ.text f a := fun h => hx (text_inj id id hkey ha h)
    simp [hx, hne]

theorem put_scope {entries : List (String × Local)} {l : Local} (ha : f = true → a ≠ ρ.new)
    (he : f = true → ρ.new ∉ entries.map (·.1)) :
    Bindings.put (ρ.text f a) (ρ.local_ f l) (entries.map fun entry => (ρ.text f entry.1, ρ.local_ f entry.2)) =
      (Bindings.put a l entries).map fun entry => (ρ.text f entry.1, ρ.local_ f entry.2) := by
  induction entries with
  | nil => rfl
  | cons entry rest ih =>
    have hrest : f = true → ρ.new ∉ rest.map (·.1) := fun hf hm => he hf (List.mem_cons_of_mem _ hm)
    have hkey : f = true → entry.1 ≠ ρ.new := fun hf hk => he hf (hk ▸ List.mem_cons_self ..)
    by_cases hx : entry.1 = a
    · subst hx
      simp [Bindings.put]
    · have hne : ρ.text f entry.1 ≠ ρ.text f a := fun h => hx (text_inj id id hkey ha h)
      simp only [List.map_cons, Bindings.put, hx, hne, if_false, ih hrest]

end Renaming

/-! ## The scope that a name selects -/

theorem keys_outline (s : Scope) : (s.entries.map fun entry => (entry.1, entry.2.defined)).map (·.1) = s.keys := by
  simp [Bindings.keys, Function.comp_def]

theorem Apart.keys {s : Scope} {rest : List Scope} (h : Apart ρ fs (outline (s :: rest))) :
    (true ∈ fs → ρ.new ∉ s.keys) ∧ Apart ρ fs.tail (outline rest) := by
  obtain ⟨hs, hrest⟩ := h
  exact ⟨fun hm => keys_outline s ▸ hs hm, hrest⟩

theorem isChosen_here {s : Scope} {rest : List Scope} (h : s.contains a = true) :
    isChosen fs (outline (s :: rest)) a = fs.headD false := by
  unfold isChosen
  rw [← hops?_eq, hops?, if_pos h]
  cases fs <;> rfl

theorem isChosen_further {s : Scope} {rest : List Scope} (h : ¬ s.contains a = true) :
    isChosen fs (outline (s :: rest)) a = isChosen fs.tail (outline rest) a := by
  unfold isChosen
  rw [← hops?_eq, ← hops?_eq, hops?, if_neg h]
  cases hops? a rest with
  | none => rfl
  | some d => cases fs <;> simp

/-- A scope without the name is without it in its other spelling. -/
theorem not_contains_scope {s : Scope} {c : Bool} (hc : c = true → true ∈ fs) (ha : ρ.Free fs a)
    (hs : true ∈ fs → ρ.new ∉ s.keys) (h : ¬ s.contains a = true) :
    ¬ (ρ.scope (fs.headD false) s).contains (ρ.text c a) = true := by
  have hkeys : a ∉ s.keys := by
    rw [← Bindings.get?_eq_none_iff]
    simpa [Bindings.contains] using h
  have hnone : ρ.text c a ∉ (ρ.scope (fs.headD false) s).keys := by
    intro hm
    have hm : ρ.text c a ∈ (s.entries.map fun entry => (ρ.text (fs.headD false) entry.1, _)).map (·.1) := hm
    rw [List.map_map] at hm
    obtain ⟨entry, he, hx⟩ := List.mem_map.mp hm
    have hkey : true ∈ fs → entry.1 ≠ ρ.new := fun hf hk => hs hf (hk ▸ List.mem_map_of_mem he)
    have hsame : entry.1 = a := Renaming.text_inj Renaming.head_mem hc hkey ha hx
    exact hkeys (hsame ▸ List.mem_map_of_mem he)
  rw [← Bindings.get?_eq_none_iff] at hnone
  rw [Bindings.contains, hnone]
  exact Bool.false_ne_true

/-- A name that is respelled has the same distance. -/
theorem hops?_scopes {scopes : List Scope} (h : Apart ρ fs (outline scopes)) (ha : ρ.Free fs a) :
    hops? (ρ.text (isChosen fs (outline scopes) a) a) (ρ.scopes fs scopes) = hops? a scopes := by
  induction scopes generalizing fs with
  | nil => rfl
  | cons s rest ih =>
    obtain ⟨hs, hrest⟩ := h.keys
    unfold Renaming.scopes hops?
    by_cases hc : s.contains a = true
    · rw [isChosen_here hc, Renaming.contains_scope (fun hf => ha (Renaming.head_mem hf))
        (fun hf => hs (Renaming.head_mem hf)), if_pos hc, if_pos hc]
    · have hnot := not_contains_scope (c := isChosen fs.tail (outline rest) a)
        (fun ht => mem_of_tail (isChosen_mem ht)) ha hs hc
      rw [isChosen_further hc, if_neg hnot, if_neg hc, ih hrest fun hm => ha (mem_of_tail hm)]

/-- A name that is respelled is touched in the same scope. -/
theorem touch_scopes {scopes : List Scope} (h : Apart ρ fs (outline scopes)) (ha : ρ.Free fs a) :
    touch (ρ.text (isChosen fs (outline scopes) a) a) (ρ.scopes fs scopes) = ρ.scopes fs (touch a scopes) := by
  induction scopes generalizing fs with
  | nil => rfl
  | cons s rest ih =>
    obtain ⟨hs, hrest⟩ := h.keys
    by_cases hc : s.contains a = true
    · have ha' : fs.headD false = true → a ≠ ρ.new := fun hf => ha (Renaming.head_mem hf)
      have hs' : fs.headD false = true → ρ.new ∉ s.keys := fun hf => hs (Renaming.head_mem hf)
      have hadjust : (ρ.scope (fs.headD false) s).adjust (ρ.text (fs.headD false) a) ({ · with used := true }) =
          ρ.scope (fs.headD false) (s.adjust a ({ · with used := true })) := Renaming.adjust_scope ha' hs' fun _ => rfl
      rw [isChosen_here hc, Renaming.scopes, touch, touch, if_pos hc, Renaming.contains_scope ha' hs',
        if_pos hc, hadjust,
        Renaming.scopes]
    · have hnot := not_contains_scope (c := isChosen fs.tail (outline rest) a)
        (fun ht => mem_of_tail (isChosen_mem ht)) ha hs hc
      rw [isChosen_further hc, Renaming.scopes, touch, touch, if_neg hc, if_neg hnot, Renaming.scopes,
        ih hrest fun hm => ha (mem_of_tail hm)]

/-! ## Names that are kept apart -/

/-- The names of each scope, complete or not. -/
def keysOf (names : List Names) : List (List String) := names.map fun n => n.map (·.1)

theorem apart_of_keys {names names' : List Names} (h : Apart ρ fs names)
    (hk : keysOf names' = keysOf names) : Apart ρ fs names' := by
  induction names generalizing fs names' with
  | nil =>
    cases names' with
    | nil => trivial
    | cons => cases hk
  | cons n rest ih =>
    cases names' with
    | nil => cases hk
    | cons n' rest' =>
      obtain ⟨hn, hrest⟩ := List.cons.inj hk
      have hn : n'.map (·.1) = n.map (·.1) := hn
      exact ⟨fun hm => hn ▸ h.1 hm, ih h.2 hrest⟩

theorem apart_add {names : Names} {rest : List Names} {more : Names} (h : Apart ρ fs (names :: rest))
    (hm : ∀ entry ∈ more, ρ.Free fs entry.1) : Apart ρ fs ((names ++ more) :: rest) := by
  refine ⟨fun ht => ?_, h.2⟩
  rw [List.map_append, List.mem_append]
  intro hx
  rcases hx with hx | hx
  · exact h.1 ht hx
  · obtain ⟨entry, he, hx⟩ := List.mem_map.mp hx
    exact hm entry he ht hx

theorem apart_addNames {names : List Names} {xs : List String} (h : Apart ρ fs names) (hx : ∀ x ∈ xs, ρ.Free fs x) :
    Apart ρ fs (Resolver.addNames xs names) := by
  cases names with
  | nil => trivial
  | cons n rest =>
    apply apart_add h
    intro entry he
    obtain ⟨x, hm, rfl⟩ := List.mem_map.mp he
    exact hx x hm

theorem apart_begin {names : List Names} {x : String} (h : Apart ρ fs names) (hx : ρ.Free fs x) :
    Apart ρ fs (Resolver.beginName x names) := by
  cases names with
  | nil => trivial
  | cons n rest =>
    apply apart_add h
    intro entry he
    rw [List.mem_singleton.mp he]
    exact hx

theorem keys_completeName (x : String) (names : List Names) :
    keysOf (Resolver.completeName x names) = keysOf names := by
  cases names with
  | nil => rfl
  | cons n rest => simp [keysOf, Resolver.completeName, Function.comp_def]

/-- The distance of a name depends on the keys of the scopes only. -/
theorem select?_of_keys {names names' : List Names} (a : String)
    (hk : keysOf names' = keysOf names) : select? a names' = select? a names := by
  induction names generalizing names' with
  | nil =>
    cases names' with
    | nil => rfl
    | cons => cases hk
  | cons n rest ih =>
    cases names' with
    | nil => cases hk
    | cons n' rest' =>
      obtain ⟨hn, hrest⟩ := List.cons.inj hk
      have hn : n'.map (·.1) = n.map (·.1) := hn
      have hfind : (Bindings.find a n').isSome = (Bindings.find a n).isSome := by
        rw [Bool.eq_iff_iff, Option.isSome_iff_ne_none, Option.isSome_iff_ne_none, Ne, Ne, Bindings.find_eq_none_iff,
          Bindings.find_eq_none_iff, hn]
      rw [select?, select?, hfind, ih hrest]

theorem isChosen_of_keys {names names' : List Names} (fs : List Bool) (a : String)
    (hk : keysOf names' = keysOf names) :
    isChosen fs names' a = isChosen fs names a := by
  unfold isChosen
  rw [select?_of_keys a hk]

/-! ## Effects on the resolver -/

namespace Resolver

variable {r : Resolver} {name : Lexeme} {watched : Bool} {target : Reference}

theorem enter_respell (r : Resolver) (f : Bool) (s : Scope) :
    (r.respell ρ fs).enter (ρ.scope f s) = (r.enter s).respell ρ (f :: fs) := rfl

theorem enter_empty (r : Resolver) (f : Bool) : (r.respell ρ fs).enter ∅ = (r.enter ∅).respell ρ (f :: fs) := rfl

/-- Nothing is reported of a name that is read or not watched. -/
def IsQuiet (l : Local) : Prop := l.watched = none ∨ l.used = true

theorem reportUnused_quiet {entry : String × Local} (h : IsQuiet entry.2) (r : Resolver) :
    r.reportUnused entry = r := by
  unfold reportUnused
  rcases h with h | h
  · rw [h]
  · rw [h]
    split
    next hu => cases hu
    next => rfl

theorem errors_of_foldl {entries : List (String × Local)} (h : (entries.foldl reportUnused r).errors = #[]) :
    r.errors = #[] := by
  induction entries generalizing r with
  | nil => exact h
  | cons entry rest ih =>
    obtain ⟨errors, he, hmono⟩ := reportUnused_eq r entry
    have hfirst := ih h
    rw [he] at hfirst
    exact hmono hfirst

theorem quiet_of_report {entry : String × Local} (h : (r.reportUnused entry).errors = #[]) : IsQuiet entry.2 := by
  unfold reportUnused at h
  split at h
  next => simp [report] at h
  next hne =>
    cases hw : entry.2.watched with
    | none => exact Or.inl hw
    | some declaration =>
      cases hu : entry.2.used with
      | true => exact Or.inr hu
      | false => exact (hne declaration hw hu).elim

/-- Without an error at its end every account of a scope is quiet. -/
theorem quiet_of_errors {entries : List (String × Local)} (h : (entries.foldl reportUnused r).errors = #[]) :
    ∀ entry ∈ entries, IsQuiet entry.2 := by
  induction entries generalizing r with
  | nil => exact fun _ hm => absurd hm List.not_mem_nil
  | cons entry rest ih =>
    intro e hm
    rcases List.mem_cons.mp hm with rfl | hm
    · exact quiet_of_report (errors_of_foldl h)
    · exact ih h e hm

theorem foldl_quiet {entries : List (String × Local)} (h : ∀ entry ∈ entries, IsQuiet entry.2) (r : Resolver) :
    entries.foldl reportUnused r = r := by
  induction entries generalizing r with
  | nil => rfl
  | cons entry rest ih =>
    rw [List.foldl_cons, reportUnused_quiet (h entry (List.mem_cons_self ..))]
    exact ih (fun e he => h e (List.mem_cons_of_mem _ he)) r

/-- A scope that is closed without a report. -/
theorem leave_respell (h : r.leave.errors = #[]) : (r.respell ρ (f :: fs)).leave = r.leave.respell ρ fs := by
  unfold leave at h ⊢
  cases hs : r.scopes with
  | nil => simp [respell, hs, Renaming.scopes]
  | cons s rest =>
    simp only [hs] at h
    have hquiet := quiet_of_errors h
    have hquiet' : ∀ entry ∈ (ρ.scope f s).entries, IsQuiet entry.2 := by
      intro entry he
      obtain ⟨e, hm, rfl⟩ := List.mem_map.mp he
      rcases hquiet e hm with hw | hu
      · exact Or.inl (by simp [Renaming.local_, hw])
      · exact Or.inr hu
    simp only [respell, hs, Renaming.scopes, List.headD_cons, List.tail_cons]
    rw [foldl_quiet hquiet, foldl_quiet hquiet']

/-- A declaration is respelled in the scope that is chosen. -/
theorem declare_respell (ha : Apart ρ fs (outline r.scopes)) (hn : ρ.Free fs name.text)
    (he : (r.declare name watched).errors = #[]) :
    (r.respell ρ fs).declare (ρ.name (fs.headD false) name) watched = (r.declare name watched).respell ρ fs := by
  unfold declare at he ⊢
  cases hs : r.scopes with
  | nil => simp [respell, hs, Renaming.scopes]
  | cons s rest =>
    rw [hs] at ha
    have hn' : fs.headD false = true → name.text ≠ ρ.new := fun hf => hn (Renaming.head_mem hf)
    have hs' : fs.headD false = true → ρ.new ∉ s.keys := fun hf => ha.keys.1 (Renaming.head_mem hf)
    have hcontains := Renaming.contains_scope hn' hs'
    have hfresh : ¬ s.contains name.text = true := by
      intro hc
      simp [hs, hc, report] at he
    have hput := Renaming.put_scope (l := ⟨if watched then some name else none, false, false⟩) hn' hs'
    have hlocal : ρ.local_ (fs.headD false) ⟨if watched then some name else none, false, false⟩ =
        ⟨if watched then some (ρ.name (fs.headD false) name) else none, false, false⟩ := by
      cases watched <;> rfl
    rw [hlocal] at hput
    simp only [respell, hs, Renaming.scopes, Renaming.name_text, hcontains, hfresh]
    unfold Bindings.set
    rw [Renaming.scope, hput]
    rfl

/-- A definition is respelled with its declaration. -/
theorem define_respell (ha : Apart ρ fs (outline r.scopes)) (hn : ρ.Free fs name.text) :
    (r.respell ρ fs).define (ρ.name (fs.headD false) name) = (r.define name).respell ρ fs := by
  unfold define
  cases hs : r.scopes with
  | nil => simp [respell, hs, Renaming.scopes]
  | cons s rest =>
    rw [hs] at ha
    have hn' : fs.headD false = true → name.text ≠ ρ.new := fun hf => hn (Renaming.head_mem hf)
    have hs' : fs.headD false = true → ρ.new ∉ s.keys := fun hf => ha.keys.1 (Renaming.head_mem hf)
    have hadjust : (ρ.scope (fs.headD false) s).adjust (ρ.text (fs.headD false) name.text)
      ({ · with defined := true }) =
        ρ.scope (fs.headD false) (s.adjust name.text ({ · with defined := true })) :=
      Renaming.adjust_scope hn' hs' fun _ => rfl
    simp only [respell, hs, Renaming.scopes, Renaming.name_text]
    rw [hadjust]

/-- A use of a name as it is spelled where its declaration may be renamed. -/
abbrev used (ρ : Renaming) (fs : List Bool) (r : Resolver) (target : Reference) : Reference :=
  ρ.reference (isChosen fs (outline r.scopes) target.name.text) target

theorem hops?_used (ha : Apart ρ fs (outline r.scopes)) (hn : ρ.Free fs target.name.text) :
    hops? (used ρ fs r target).name.text (r.respell ρ fs).scopes = hops? target.name.text r.scopes :=
  hops?_scopes ha hn

theorem write_respell (ha : Apart ρ fs (outline r.scopes)) (hn : ρ.Free fs target.name.text) :
    (r.respell ρ fs).write (used ρ fs r target) = (r.write target).respell ρ fs := by
  unfold write
  rw [hops?_used ha hn]
  cases hops? target.name.text r.scopes <;> rfl

/-- A read is respelled where the scope that it finds is chosen. -/
theorem read_respell (ha : Apart ρ fs (outline r.scopes)) (hn : ρ.Free fs target.name.text) :
    (r.respell ρ fs).read (used ρ fs r target) = (r.read target).respell ρ fs := by
  have htouch : touch (used ρ fs r target).name.text (r.respell ρ fs).scopes =
      ρ.scopes fs (touch target.name.text r.scopes) :=
    touch_scopes ha hn
  unfold read
  rw [hops?_used ha hn, htouch]
  cases hops? target.name.text r.scopes <;> rfl

/-- A name that is respelled is pending as it was. -/
theorem isPending_respell (ha : Apart ρ fs (outline r.scopes)) (hn : ρ.Free fs target.name.text) :
    (r.respell ρ fs).isPending (used ρ fs r target).name.text = r.isPending target.name.text := by
  unfold isPending used
  cases hs : r.scopes with
  | nil => simp [respell, hs, Renaming.scopes]
  | cons s rest =>
    rw [hs] at ha
    simp only [respell, hs, Renaming.scopes, Renaming.reference, Renaming.name_text]
    by_cases hc : s.contains target.name.text = true
    · have hget := Renaming.get?_scope (s := s) (f := fs.headD false) (fun hf => hn (Renaming.head_mem hf))
        fun hf => ha.keys.1 (Renaming.head_mem hf)
      rw [isChosen_here hc, hget]
      cases s.get? target.name.text <;> rfl
    · have hnot := not_contains_scope (c := isChosen fs.tail (outline rest) target.name.text)
        (fun ht => mem_of_tail (isChosen_mem ht)) hn ha.keys.1 hc
      rw [Bindings.contains, Bool.not_eq_true, Option.isSome_eq_false_iff, Option.isNone_iff_eq_none] at hnot
      have hnone : s.get? target.name.text = none := by simpa [Bindings.contains] using hc
      rw [isChosen_further hc, hnot, hnone]

theorem readVariable_respell (ha : Apart ρ fs (outline r.scopes)) (hn : ρ.Free fs target.name.text)
    (he : (r.readVariable target).errors = #[]) :
    (r.respell ρ fs).readVariable (used ρ fs r target) = (r.readVariable target).respell ρ fs := by
  obtain ⟨hpending, hread⟩ := readVariable_eq he
  rw [hread, ← read_respell ha hn, readVariable, isPending_respell ha hn, hpending]
  rfl

/-- A name with a meaning of its own is never respelled. -/
theorem used_self {a : String} (hx : target.name.text = a) (hn : ρ.old ≠ a) : used ρ fs r target = target := by
  unfold used Renaming.reference
  rw [Renaming.name_of_ne fun _ ht => hn (ht.symm.trans hx)]

theorem this_respell (hp : ρ.IsPlain) (ha : Apart ρ fs (outline r.scopes)) (hx : target.name.text = thisName)
    (he : (r.this target).errors = #[]) : (r.respell ρ fs).this target = (r.this target).respell ρ fs := by
  have hread : (r.respell ρ fs).read (used ρ fs r target) = (r.read target).respell ρ fs :=
    read_respell ha fun _ ht => hp.new.1 (ht.symm.trans hx)
  rw [used_self hx hp.old.1] at hread
  unfold this at he ⊢
  cases hc : r.class_ with
  | none => simp [hc, report] at he
  | _ => simpa only [respell, hc] using hread

theorem super_respell (hp : ρ.IsPlain) (ha : Apart ρ fs (outline r.scopes)) (hx : target.name.text = superName)
    (he : (r.super target).errors = #[]) : (r.respell ρ fs).super target = (r.super target).respell ρ fs := by
  have hread : (r.respell ρ fs).read (used ρ fs r target) = (r.read target).respell ρ fs :=
    read_respell ha fun _ ht => hp.new.2 (ht.symm.trans hx)
  rw [used_self hx hp.old.2] at hread
  unfold super at he ⊢
  cases hc : r.class_ with
  | subclass => simpa only [respell, hc] using hread
  | _ => simp [hc, report] at he

theorem checkReturn_respell (r : Resolver) (keyword : Lexeme) (hasValue : Bool) :
    (r.respell ρ fs).checkReturn keyword hasValue = (r.checkReturn keyword hasValue).respell ρ fs := by
  unfold checkReturn
  cases hr : r.routine with
  | initializer => cases hasValue <;> simp [respell, hr, report]
  | _ => simp [respell, hr, report]

/-- A declaration with nothing between its two halves. -/
theorem declared_respell (ha : Apart ρ fs (outline r.scopes)) (hn : ρ.Free fs name.text)
    (he : ((r.declare name watched).define name).errors = #[]) :
    ((r.respell ρ fs).declare (ρ.name (fs.headD false) name) watched).define (ρ.name (fs.headD false) name) =
      ((r.declare name watched).define name).respell ρ fs := by
  obtain ⟨-, -, -, hs⟩ := declare_spec r name watched
  have he' : (r.declare name watched).errors = #[] := (define_same (r.declare name watched) name).1 ▸ he
  have ha' : Apart ρ fs (outline (r.declare name watched).scopes) := by
    rw [(hs he').2.2]
    exact apart_begin ha hn
  rw [declare_respell ha hn he', define_respell ha' hn]

/-- Parameters are respelled with the scope of their routine. -/
theorem params_respell {params : List Lexeme} (ha : Apart ρ (f :: fs) (outline r.scopes))
    (hn : ∀ p ∈ params, ρ.Free (f :: fs) p.text) (he : (params.foldl param r).errors = #[]) :
    (params.map (ρ.name f)).foldl param (r.respell ρ (f :: fs)) = (params.foldl param r).respell ρ (f :: fs) := by
  induction params generalizing r with
  | nil => rfl
  | cons p params ih =>
    have hp := hn p (List.mem_cons_self ..)
    have hfirst : (param r p).errors = #[] := (walked_params params (param r p)).errors he
    have ha' : Apart ρ (f :: fs) (outline (param r p).scopes) := by
      show Apart ρ (f :: fs) (outline ((r.declare p false).define p).scopes)
      rw [(walked_declared r p false).scopes hfirst]
      exact apart_addNames ha fun x hx => List.mem_singleton.mp hx ▸ hp
    have hstep : param (r.respell ρ (f :: fs)) (ρ.name f p) = (param r p).respell ρ (f :: fs) :=
      declared_respell ha hp hfirst
    rw [List.map_cons, List.foldl_cons, hstep]
    exact ih ha' (fun q hq => hn q (List.mem_cons_of_mem _ hq)) he

end Resolver

/-! ## The walk -/

open Resolver Opened

variable {site site' : Site} {p : List Stmt}

/-- The names that a statement declares are free. -/
theorem free_declared {s s' : Stmt} (h : Renames ρ fs os (.stmt s) (.stmt s')) : ∀ x ∈ declared s, ρ.Free fs x := by
  cases h with
  | var hn | varInit hn _ => intro x hx; cases List.mem_singleton.mp hx; exact hn
  | fun_ hn _ | class_ hn _ | subclass hn _ _ => intro x hx; cases List.mem_singleton.mp hx; exact hn.1
  | _ => intro x hx; cases hx

theorem name_of_routine {context : RoutineContext} {g g' : Routine}
    (h : Renames ρ fs os (.routine context g) (.routine context g')) : g'.name = g.name := by
  cases h
  rfl

theorem apart_declare {xs : List String} (h : Apart ρ fs (namesOf os)) (hx : ∀ x ∈ xs, ρ.Free fs x) :
    Apart ρ fs (namesOf (declare xs os)) := by
  rw [namesOf_declare]
  exact apart_addNames h hx

theorem apart_open {o : Opened} (h : Apart ρ fs (namesOf os)) (ho : ∀ entry ∈ o.names, ρ.Free (f :: fs) entry.1) :
    Apart ρ (f :: fs) (namesOf (o :: os)) := by
  refine ⟨fun ht hm => ?_, h⟩
  obtain ⟨entry, he, hx⟩ := List.mem_map.mp hm
  exact ho entry he ht hx

/-- The scopes of a class are never chosen. -/
theorem apart_class (superclass : Option Reference) (ms : List Routine) (hp : ρ.IsPlain) (h : Apart ρ fs (namesOf os)) :
    Apart ρ (false :: superclass.elim fs fun _ => false :: fs) (namesOf (ofClass superclass ms os)) := by
  cases superclass with
  | none =>
    apply apart_open h
    intro entry he
    rw [List.mem_singleton.mp he]
    exact fun _ hx => hp.new.1 hx.symm
  | some parent =>
    apply apart_open
    · apply apart_open h
      intro entry he
      rw [List.mem_singleton.mp he]
      exact fun _ hx => hp.new.2 hx.symm
    · intro entry he
      rw [List.mem_singleton.mp he]
      exact fun _ hx => hp.new.1 hx.symm

/-- The resolver comes through a renamed part of a program as through the part. -/
def Mirrored (ρ : Renaming) (p : List Stmt) (fs : List Bool) (os : List Opened) (site site' : Site) : Prop :=
  ∀ r, Within p site r os → Apart ρ fs (namesOf os) → site'.walk (r.respell ρ fs) = (site.walk r).respell ρ fs

/-- A reference, respelled if its scope is chosen. -/
theorem mirror_ref {target : Reference} (hp : Accepted p) (hn : ρ.Free fs target.name.text) :
    Mirrored ρ p fs os (.expr (.ref target))
      (.expr (.ref (ρ.reference (isChosen fs (namesOf os) target.name.text) target))) := by
  intro r hw ha
  have hv := resolved hp hw
  have hs : outline r.scopes = namesOf os := Standing.scopes hv.stands
  rw [← hs] at ha ⊢
  exact readVariable_respell ha hn hv.part.errors

/-- An assignment, respelled if its scope is chosen. -/
theorem mirror_assign {target : Reference} {e e' : Expr} (hp : Accepted p) (hn : ρ.Free fs target.name.text)
    (h : Mirrored ρ p fs os (.expr e) (.expr e')) : Mirrored ρ p fs os (.expr (.assign target e))
      (.expr (.assign (ρ.reference (isChosen fs (namesOf os) target.name.text) target) e')) := by
  intro r hw ha
  have hv := resolved hp hw
  have hwalk := walked_expr e r
  have he : (expr e r).errors = #[] := (walked_write _ target).errors hv.part.errors
  have hs : outline (expr e r).scopes = namesOf os := (Standing.walked hv.stands hwalk he).scopes
  have hvalue : expr e' (r.respell ρ fs) = (expr e r).respell ρ fs := h r (.value hw) ha
  show (expr e' (r.respell ρ fs)).write _ = ((expr e r).write target).respell ρ fs
  rw [hvalue]
  rw [← hs] at ha ⊢
  exact write_respell ha hn

theorem mirror_var {name : Lexeme} (hp : Accepted p) (hn : ρ.Free fs name.text) :
    Mirrored ρ p fs os (.stmt (.var name none)) (.stmt (.var (ρ.name (fs.headD false) name) none)) := by
  intro r hw ha
  have hv := resolved hp hw
  have hs : outline r.scopes = namesOf os := hv.stands.1.scopes
  rw [← hs] at ha
  exact declared_respell ha hn hv.part.errors

/-- A variable with its initializer. -/
theorem mirror_varInit {name : Lexeme} {e e' : Expr} (hp : Accepted p) (hn : ρ.Free fs name.text)
    (h : Mirrored ρ p fs (begin_ name.text os) (.expr e) (.expr e')) :
    Mirrored ρ p fs os (.stmt (.var name (some e))) (.stmt (.var (ρ.name (fs.headD false) name) (some e'))) := by
  intro r hw ha
  have hv := resolved hp (.init hw)
  have hs : outline r.scopes = namesOf os := (resolved hp hw).stands.1.scopes
  have hwalk := walked_expr e (r.declare name true)
  have ha' : Apart ρ fs (namesOf (begin_ name.text os)) := by
    rw [namesOf_begin]
    exact apart_begin ha hn
  have hinit : expr e' ((r.declare name true).respell ρ fs) = (expr e (r.declare name true)).respell ρ fs :=
    h _ (.init hw) ha'
  have hscopes : outline (expr e (r.declare name true)).scopes = namesOf (begin_ name.text os) :=
    (Standing.walked hv.stands hwalk hv.part.errors).scopes
  show (expr e' ((r.respell ρ fs).declare _ true)).define _ = ((expr e (r.declare name true)).define name).respell ρ fs
  rw [declare_respell (hs ▸ ha) hn (hv.part.before hwalk), hinit, define_respell (hscopes ▸ ha') hn]

/-- A block with its statements. -/
theorem mirror_block {body body' : List Stmt} (hp : Accepted p)
    (h : Mirrored ρ p (f :: fs) (⟨.block body, []⟩ :: os) (.stmts body) (.stmts body')) :
    Mirrored ρ p fs os (.stmt (.block body)) (.stmt (.block body')) := by
  intro r hw ha
  have hbody : stmts body' ((r.enter ∅).respell ρ (f :: fs)) = (stmts body (r.enter ∅)).respell ρ (f :: fs) :=
    h _ (.block hw) (apart_open ha fun _ he => absurd he List.not_mem_nil)
  show (stmts body' ((r.respell ρ fs).enter ∅)).leave = (stmts body (r.enter ∅)).leave.respell ρ fs
  rw [enter_empty r f, hbody, leave_respell (resolved hp hw).part.errors]

/-- A function, whose own name is kept. -/
theorem mirror_fun {g g' : Routine} (hp : Accepted p) (hn : ρ.Keeps fs g.name.text) (hname : g'.name = g.name)
    (h : Mirrored ρ p fs (declare [g.name.text] os) (.routine .function g) (.routine .function g')) :
    Mirrored ρ p fs os (.stmt (.fun_ g)) (.stmt (.fun_ g')) := by
  intro r hw ha
  have hs : outline r.scopes = namesOf os := (resolved hp hw).stands.1.scopes
  have hv := resolved hp (.fun_ hw)
  have he : ((r.declare g.name true).define g.name).errors = #[] :=
    hv.part.before (walked_routine .function g hv.tidy _)
  have hdeclared : ((r.respell ρ fs).declare (ρ.name (fs.headD false) g.name) true).define
    (ρ.name (fs.headD false) g.name) =
      ((r.declare g.name true).define g.name).respell ρ fs := declared_respell (hs ▸ ha) hn.1 he
  rw [Renaming.name_of_ne hn.2] at hdeclared
  have hroutine := h _ (.fun_ hw) (apart_declare ha fun x hx => List.mem_singleton.mp hx ▸ hn.1)
  show routineBody .function g' (((r.respell ρ fs).declare g'.name true).define g'.name) = _
  rw [hname, hdeclared]
  exact hroutine

theorem mirror_returned {keyword : Lexeme} {e e' : Expr} (h : Mirrored ρ p fs os (.expr e) (.expr e')) :
    Mirrored ρ p fs os (.stmt (.return_ keyword (some e))) (.stmt (.return_ keyword (some e'))) := by
  intro r hw ha
  have hvalue : expr e' ((r.checkReturn keyword true).respell ρ fs)
    = (expr e (r.checkReturn keyword true)).respell ρ fs :=
    h _ (.returned hw) ha
  show expr e' ((r.respell ρ fs).checkReturn keyword true) = _
  rw [checkReturn_respell, hvalue]
  rfl

/-- A routine with its parameters and its body. -/
theorem mirror_routine {context : RoutineContext} {name : Lexeme} {params : List Lexeme} {body body' : List Stmt}
    (hp : Accepted p) (hn : ∀ q ∈ params, ρ.Free (f :: fs) q.text)
    (h : Mirrored ρ p (f :: fs) (ofRoutine ⟨name, params, body⟩ :: os) (.stmts body) (.stmts body')) :
    Mirrored ρ p fs os (.routine context ⟨name, params, body⟩)
      (.routine context ⟨name, params.map (ρ.name f), body'⟩) := by
  intro r hw ha
  have hs : outline r.scopes = namesOf os := (resolved hp hw).stands.1.scopes
  have hv := resolved hp (.body hw)
  have he := hv.part.before (walked_stmts body hv.tidy _)
  have hopen : Apart ρ (f :: fs) (namesOf (ofRoutine ⟨name, params, body⟩ :: os)) := by
    apply apart_open ha
    intro entry he
    obtain ⟨q, hq, rfl⟩ := List.mem_map.mp he
    exact hn q hq
  have hempty : Apart ρ (f :: fs) (outline (({ r with routine := context } : Resolver).enter ∅).scopes) := by
    refine ⟨fun _ => List.not_mem_nil, ?_⟩
    show Apart ρ fs (outline r.scopes)
    rw [hs]
    exact ha
  have hparams := params_respell hempty hn he
  have hbody : stmts body' ((params.foldl param (({ r with routine := context } : Resolver).enter ∅)).respell ρ
    (f :: fs)) =
      (stmts body (params.foldl param (({ r with routine := context } : Resolver).enter ∅))).respell ρ (f :: fs) :=
    h _ (.body hw) hopen
  have hleave : (stmts body (params.foldl param (({ r with routine := context } : Resolver).enter ∅))).leave.errors
    = #[] :=
    (resolved hp hw).part.errors
  show ({ (stmts body' ((params.map (ρ.name f)).foldl param
    (({ r.respell ρ fs with routine := context } : Resolver).enter ∅))).leave with routine := r.routine } : Resolver)
      = _
  rw [show (({ r.respell ρ fs with routine := context } : Resolver).enter ∅) =
    (({ r with routine := context } : Resolver).enter ∅).respell ρ (f :: fs) from rfl, hparams, hbody,
      leave_respell hleave]
  rfl

/-! ### Classes -/

/-- A superclass, respelled if its scope is chosen. -/
theorem mirror_parent {name : Lexeme} {target : Reference} (hp : Accepted p) (hname : ρ.Free fs name.text)
    (hn : ρ.Free fs target.name.text) : Mirrored ρ p fs os (.parent name target)
      (.parent name (ρ.reference (isChosen fs (namesOf os) target.name.text) target)) := by
  intro r hw ha
  have hv := resolved hp hw
  have hs : outline r.scopes = completeName name.text (namesOf os) := AtParent.scopes hv.stands
  have hkeys : keysOf (outline r.scopes) = keysOf (namesOf os) := hs ▸ keys_completeName ..
  have he : ((r.beforeParent name target).readVariable target).errors = #[] := hv.part.errors
  obtain ⟨-, -, hown⟩ := beforeParent_same r name target
  have hne : target.name.text ≠ name.text := (hown ((walked_readVariable _ target).errors he)).2
  have hne' : (used ρ fs r target).name.text ≠ name.text := by
    intro h
    have h : ρ.text (isChosen fs (outline r.scopes) target.name.text) target.name.text = ρ.text false name.text := h
    exact hne (Renaming.text_inj isChosen_mem (fun hf => by cases hf) hn hname h)
  have hbefore : r.beforeParent name target = { r with class_ := .subclass } := by
    rw [beforeParent, if_neg hne]
  have hbefore' : (r.respell ρ fs).beforeParent name (used ρ fs r target) =
      ({ r with class_ := .subclass } : Resolver).respell ρ fs := by
    rw [beforeParent, if_neg hne']
    rfl
  have hread := readVariable_respell (r := { r with class_ := .subclass }) (apart_of_keys ha hkeys) hn (hbefore ▸ he)
  rw [← isChosen_of_keys fs _ hkeys]
  show ((r.respell ρ fs).beforeParent name (used ρ fs r target)).readVariable (used ρ fs r target) =
    ((r.beforeParent name target).readVariable target).respell ρ fs
  rw [hbefore, hbefore']
  exact hread

theorem named_respell {r : Resolver} {name : Lexeme} (ha : Apart ρ fs (outline r.scopes)) (hn : ρ.Keeps fs name.text)
    (he : (r.named name).errors = #[]) : (r.respell ρ fs).named name = (r.named name).respell ρ fs := by
  have hdeclared := declared_respell (r := { r with class_ := .class_ }) ha hn.1 he
  rwa [Renaming.name_of_ne hn.2] at hdeclared

theorem named_errors (hp : Accepted p) {r : Resolver} {name : Lexeme} {superclass : Option Reference}
    {ms : List Routine} (hw : Within p (.stmt (.class_ name superclass ms)) r os) : (r.named name).errors = #[] := by
  have hv := resolved hp (.methods hw)
  exact errors_openClass (hv.part.before (walked_methods ms hv.tidy _))

theorem scope_implicit (ρ : Renaming) (x : String) : ρ.scope false (implicitScope x) = implicitScope x := rfl

/-- A class with its methods. -/
theorem mirror_class {name : Lexeme} {ms ms' : List Routine} (hp : Accepted p) (hρ : ρ.IsPlain)
    (hn : ρ.Keeps fs name.text)
    (h : Mirrored ρ p (false :: fs) (ofClass none ms (declare [name.text] os)) (.methods ms) (.methods ms')) :
    Mirrored ρ p fs os (.stmt (.class_ name none ms)) (.stmt (.class_ name none ms')) := by
  intro r hw ha
  have hs : outline r.scopes = namesOf os := (resolved hp hw).stands.1.scopes
  have hdeclare := apart_declare ha fun x hx => List.mem_singleton.mp hx ▸ hn.1
  have hnamed := named_respell (hs ▸ ha) hn (named_errors hp hw)
  have hopen : (r.respell ρ fs).openClass name none = (r.openClass name none).respell ρ (false :: fs) := by
    show ((r.respell ρ fs).named name).enter (implicitScope thisName) = _
    rw [hnamed, ← scope_implicit ρ, enter_respell]
    rfl
  have hmethods : methodBodies ms' ((r.openClass name none).respell ρ (false :: fs)) =
      (methodBodies ms (r.openClass name none)).respell ρ (false :: fs) :=
    h _ (.methods hw) (apart_class none ms hρ hdeclare)
  have hleave : (methodBodies ms (r.openClass name none)).leave.errors = #[] := (resolved hp hw).part.errors
  show ({ (methodBodies ms' ((r.respell ρ fs).openClass name none)).leave with class_ := r.class_ } : Resolver) = _
  rw [hopen, hmethods, leave_respell hleave]
  rfl

/-- A class with its superclass and its methods. -/
theorem mirror_subclass {name : Lexeme} {target target' : Reference} {ms ms' : List Routine} (hp : Accepted p)
    (hρ : ρ.IsPlain) (hn : ρ.Keeps fs name.text)
    (hparent : Mirrored ρ p fs (begin_ name.text os) (.parent name target) (.parent name target'))
    (h : Mirrored ρ p (false :: false :: fs) (ofClass (some target) ms (declare [name.text] os)) (.methods ms)
      (.methods ms')) :
    Mirrored ρ p fs os (.stmt (.class_ name (some target) ms)) (.stmt (.class_ name (some target') ms')) := by
  intro r hw ha
  have hs : outline r.scopes = namesOf os := (resolved hp hw).stands.1.scopes
  have hdeclare := apart_declare ha fun x hx => List.mem_singleton.mp hx ▸ hn.1
  have hnamed := named_respell (hs ▸ ha) hn (named_errors hp hw)
  have hbegin : Apart ρ fs (namesOf (begin_ name.text os)) := by
    rw [namesOf_begin]
    exact apart_begin ha hn.1
  have hread : (((r.named name).respell ρ fs).beforeParent name target').readVariable target' =
      (((r.named name).beforeParent name target).readVariable target).respell ρ fs :=
    hparent _ (.parent hw) hbegin
  have hopen : (r.respell ρ fs).openClass name (some target') =
      (r.openClass name (some target)).respell ρ (false :: false :: fs) := by
    show (((((r.respell ρ fs).named name).beforeParent name target').readVariable target').enter
      (implicitScope superName)).enter (implicitScope thisName) = _
    rw [hnamed, hread, ← scope_implicit ρ, ← scope_implicit ρ thisName, enter_respell, enter_respell]
    rfl
  have hmethods : methodBodies ms' ((r.openClass name (some target)).respell ρ (false :: false :: fs)) =
      (methodBodies ms (r.openClass name (some target))).respell ρ (false :: false :: fs) :=
    h _ (.methods hw) (apart_class (some target) ms hρ hdeclare)
  have hleave : (methodBodies ms (r.openClass name (some target))).leave.leave.errors = #[] :=
    (resolved hp hw).part.errors
  obtain ⟨errors, he, hm⟩ := leave_eq (methodBodies ms (r.openClass name (some target))).leave
  have hinner : (methodBodies ms (r.openClass name (some target))).leave.errors = #[] := by
    rw [he] at hleave
    exact hm hleave
  show ({ (methodBodies ms' ((r.respell ρ fs).openClass name (some target'))).leave.leave with
    class_ := r.class_ } : Resolver) = _
  rw [hopen, hmethods, leave_respell hinner, leave_respell hleave]
  rfl

/-! ### Every part -/

/-- A renamed tree is resolved as the tree, by one case for each rule of renaming. -/
theorem mirror (hp : Accepted p) (hρ : ρ.IsPlain) (h : Renames ρ fs os site site') : Mirrored ρ p fs os site site' := by
  induction h with
  | nil | noMethod | noExpr | literal | break_ | continue_ => exact fun _ _ _ => rfl
  | cons hs _ ih ih' =>
    intro r hw ha
    have hfirst := ih r (.first hw) ha
    have hrest := ih' _ (.next hw) (apart_declare ha (free_declared hs))
    exact (congrArg (stmts _) hfirst).trans hrest
  | effect _ ih => exact fun r hw ha => ih r (.effect hw) ha
  | printed _ ih => exact fun r hw ha => ih r (.printed hw) ha
  | var hn => exact mirror_var hp hn
  | varInit hn _ ih => exact mirror_varInit hp hn ih
  | block _ ih => exact mirror_block hp ih
  | cond _ _ ih ih' =>
    intro r hw ha
    exact (congrArg (stmt _) (ih r (.condTest hw) ha)).trans (ih' _ (.condYes hw) ha)
  | condElse _ _ _ ih ih' ih'' =>
    intro r hw ha
    have hyes := (congrArg (stmt _) (ih r (.condTest hw) ha)).trans (ih' _ (.condYes hw) ha)
    exact (congrArg (stmt _) hyes).trans (ih'' _ (.condNo hw) ha)
  | loop _ _ ih ih' =>
    intro r hw ha
    exact (congrArg (stmt _) (ih r (.loopTest hw) ha)).trans (ih' _ (.loopBody hw) ha)
  | loopStep _ _ _ ih ih' ih'' =>
    intro r hw ha
    have hbody := (congrArg (stmt _) (ih r (.loopTest hw) ha)).trans (ih' _ (.loopBody hw) ha)
    exact (congrArg (expr _) hbody).trans (ih'' _ (.loopStep hw) ha)
  | fun_ hn hg ih => exact mirror_fun hp hn (name_of_routine hg) ih
  | returned => exact fun r _ _ => checkReturn_respell r _ false
  | returnedValue _ ih => exact mirror_returned ih
  | class_ hn _ ih => exact mirror_class hp hρ hn ih
  | subclass hn _ _ ih ih' => exact mirror_subclass hp hρ hn ih ih'
  | parent hname hn => exact mirror_parent hp hname hn
  | @method fs os m m' rest rest' hm _ ih ih' =>
    intro r hw ha
    have hfirst := ih r (.method hw) ha
    have hcontext : methodContext m' = methodContext m := by
      unfold methodContext Routine.isInit
      rw [name_of_routine hm]
    show methodBodies rest' (routineBody (methodContext m') m' (r.respell ρ fs)) = _
    rw [hcontext]
    exact (congrArg (methodBodies rest') hfirst).trans (ih' _ (.nextMethod hw) ha)
  | routine hn _ ih => exact mirror_routine hp hn ih
  | moreExprs _ _ ih ih' =>
    intro r hw ha
    exact (congrArg (exprs _) (ih r (.argument hw) ha)).trans (ih' _ (.nextArguments hw) ha)
  | group _ ih => exact fun r hw ha => ih r (.group hw) ha
  | unary _ ih => exact fun r hw ha => ih r (.operand hw) ha
  | binary _ _ ih ih' =>
    intro r hw ha
    exact (congrArg (expr _) (ih r (.left hw) ha)).trans (ih' _ (.right hw) ha)
  | logical _ _ ih ih' =>
    intro r hw ha
    exact (congrArg (expr _) (ih r (.logicalLeft hw) ha)).trans (ih' _ (.logicalRight hw) ha)
  | ternary _ _ _ ih ih' ih'' =>
    intro r hw ha
    have hyes := (congrArg (expr _) (ih r (.ternaryTest hw) ha)).trans (ih' _ (.ternaryYes hw) ha)
    exact (congrArg (expr _) hyes).trans (ih'' _ (.ternaryNo hw) ha)
  | ref hn => exact mirror_ref hp hn
  | assign hn _ ih => exact mirror_assign hp hn ih
  | call _ _ ih ih' =>
    intro r hw ha
    exact (congrArg (exprs _) (ih r (.callee hw) ha)).trans (ih' _ (.arguments hw) ha)
  | get _ ih => exact fun r hw ha => ih r (.object hw) ha
  | set _ _ ih ih' =>
    intro r hw ha
    exact (congrArg (expr _) (ih' r (.setValue hw) ha)).trans (ih _ (.setObject hw) ha)
  | this =>
    intro r hw ha
    have hv := resolved hp hw
    have hs : outline r.scopes = namesOf _ := Standing.scopes hv.stands
    exact this_respell hρ (hs ▸ ha) hv.tidy hv.part.errors
  | super =>
    intro r hw ha
    have hv := resolved hp hw
    have hs : outline r.scopes = namesOf _ := Standing.scopes hv.stands
    exact super_respell hρ (hs ▸ ha) hv.tidy hv.part.errors

/-- A renamed program is without an error too, and its uses have the same distances. -/
theorem resolve_renamed {p' : List Stmt} (hp : Accepted p) (hρ : ρ.IsPlain)
    (h : Renames ρ [] [] (.stmts p) (.stmts p')) :
    resolve p' = resolve p := by
  have hwalk : stmts p' start = (stmts p start).respell ρ [] := mirror hp hρ h start .root trivial
  unfold resolve
  rw [hwalk]
  rfl

end Lox
