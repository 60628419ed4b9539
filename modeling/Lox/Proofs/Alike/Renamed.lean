/-
  Lox.Proofs.Alike.Renamed — a renamed program is alike to the program (`alike_of_renames`):
  where the table gives a use its distance, the scope at that distance says how the second
  text writes the name. With no scope chosen, this makes every machine in order kin to
  itself (`kin_self`).
-/

import Lox.Proofs.Alike.Machines
import Lox.Proofs.Rename.Names
import Lox.Proofs.Run.Lookup

namespace Lox

/-! ## Spellings of a renaming -/

namespace Renaming

variable {ρ : Renaming} {fs : List Bool} {name : Lexeme}

/-- How a scope spells its names, chosen or not. -/
def spelling (hρ : ρ.IsPlain) : Bool → Spelling
  | false => .plain
  | true =>
    { text := ρ.text true
      Used := fun a => a ≠ ρ.new
      injective := fun _ _ ha hb h => text_inj (fun _ => trivial) (fun _ => trivial) (fun _ => ha) (fun _ => hb) h
      this := ⟨hρ.new.1.symm, text_of_ne fun _ => hρ.old.1.symm⟩
      super := ⟨hρ.new.2.symm, text_of_ne fun _ => hρ.old.2.symm⟩ }

variable (hρ : ρ.IsPlain)

theorem writes_spelling (f : Bool) (h : f = true → name.text ≠ ρ.new) :
    (spelling hρ f).Writes name (ρ.name f name) := by
  cases f with
  | false => exact ⟨trivial, rfl⟩
  | true => exact ⟨h rfl, rfl⟩

/-- The scopes of a text, chosen or not. -/
def layers (fs : List Bool) : List Layer := fs.map fun f => .shared (spelling hρ f)

theorem declares_spelling (h : ρ.Free fs name.text) : Declares (layers hρ fs) name (ρ.name (fs.headD false) name) := by
  cases fs with
  | nil => exact ⟨.plain, rfl, trivial, rfl⟩
  | cons f fs => exact ⟨spelling hρ f, rfl, writes_spelling hρ f fun hf => h (hf ▸ List.mem_cons_self ..)⟩

theorem declares_kept (h : ρ.Keeps fs name.text) : Declares (layers hρ fs) name name := by
  have hd := declares_spelling hρ h.1
  rwa [name_of_ne h.2] at hd

theorem writesAll_spelling {f : Bool} {params : List Lexeme} (h : ∀ p ∈ params, ρ.Free (f :: fs) p.text) :
    (spelling hρ f).WritesAll params (params.map (ρ.name f)) := by
  have hp : ∀ p ∈ params, (spelling hρ f).Writes p (ρ.name f p) := fun p hp =>
    writes_spelling hρ f fun hf => h p hp (hf ▸ List.mem_cons_self ..)
  refine ⟨fun p hm => (hp p hm).1, ?_⟩
  rw [List.map_map]
  exact List.map_congr_left fun p hm => (hp p hm).2

end Renaming

/-! ## References -/

open Renaming

variable {p : List Stmt} {ρ : Renaming} {fs : List Bool} {os : List Opened} {r : Resolver} {target : Reference}

/-- No scope is added, so one scope further in there is one that meets itself. -/
theorem meets_inner (hρ : ρ.IsPlain) {d : Nat} (hd : d < fs.length) :
    ∃ t, Meets (layers hρ fs) (Distances.hops ((d : Int) - 1)) (Distances.hops ((d : Int) - 1)) t := by
  have hlt : Distances.hops ((d : Int) - 1) < fs.length := by
    unfold Distances.hops
    omega
  exact ⟨_, meets_map _ (List.getElem?_eq_getElem hlt)⟩

theorem same_of_entry (hρ : ρ.IsPlain) (hlen : fs.length = os.length) (hn : ρ.Free fs target.name.text) {D : Distances}
    (h : IsEntry D[target.slot]? os target.name.text) :
    SameDistance D D (layers hρ fs) target (ρ.reference (isChosen fs (namesOf os) target.name.text) target) := by
  unfold SameDistance
  unfold IsEntry at h
  cases hd : D[target.slot]? with
  | none =>
    rw [hd] at h
    refine ⟨hd, ?_⟩
    have hnone : isChosen fs (namesOf os) target.name.text = false := by
      unfold isChosen
      rw [(isGlobal_iff os _).mpr h]
      rfl
    rw [hnone]
    rfl
  | some d =>
    rw [hd] at h
    obtain ⟨i, rfl, hi⟩ := h
    obtain ⟨⟨o, ho, -⟩, -⟩ := id hi
    have hlt : i < fs.length := by
      rw [hlen]
      exact (List.getElem?_eq_some_iff.mp ho).1
    have hchosen : isChosen fs (namesOf os) target.name.text = fs[i] := by
      unfold isChosen
      rw [(selects_iff os _ i).mpr hi, Option.any_some, List.getD_eq_getElem?_getD, List.getElem?_eq_getElem hlt]
      rfl
    refine ⟨i, spelling hρ fs[i], hd, meets_map _ (List.getElem?_eq_getElem hlt), ?_, fun _ => ?_⟩
    · rw [hchosen]
      exact writes_spelling hρ fs[i] fun hf => hn (hf ▸ List.getElem_mem hlt)
    · exact meets_inner hρ hlt

/-- A keyword is written the same in every scope. -/
theorem same_of_keyword (hρ : ρ.IsPlain) (hlen : fs.length = os.length) {D : Distances} {d : Nat} {x : String}
    (hx : x = thisName ∨ x = superName) (hname : target.name.text = x) (hd : D[target.slot]? = some (d : Int))
    (h : Selects os x d) : SameDistance D D (layers hρ fs) target target := by
  obtain ⟨⟨o, ho, -⟩, -⟩ := h
  have hlt : d < fs.length := by
    rw [hlen]
    exact (List.getElem?_eq_some_iff.mp ho).1
  unfold SameDistance
  rw [hd]
  refine ⟨d, spelling hρ fs[d], rfl, meets_map _ (List.getElem?_eq_getElem hlt), ?_, fun _ => meets_inner hρ hlt⟩
  · unfold Spelling.Writes
    rw [hname]
    rcases hx with rfl | rfl
    · exact ⟨(spelling hρ fs[d]).this.1, (spelling hρ fs[d]).this.2.symm⟩
    · exact ⟨(spelling hρ fs[d]).super.1, (spelling hρ fs[d]).super.2.symm⟩

/-! ## Renamed texts -/

open Resolver Opened

theorem length_declare (xs : List String) (os : List Opened) : (declare xs os).length = os.length := by cases os <;> rfl

theorem length_begin (x : String) (os : List Opened) : (begin_ x os).length = os.length := by cases os <;> rfl

/-- What a likeness has to allow for a program and a renaming. -/
structure Admits (Λ : Likeness) (ρ : Renaming) (p : List Stmt) : Prop where
  place : ∀ f a, Λ.place a (ρ.name f a)
  reference : ∀ ss r r', r.slot ∈ Stmt.slotsAll p → r'.slot = r.slot →
    SameDistance (resolve p).distances (resolve p).distances ss r r' → Λ.reference ss r r'

namespace Admits

variable {Λ : Likeness}

theorem names (h : Admits Λ ρ p) (a : Lexeme) : Λ.Names a a := ⟨rfl, h.place false a⟩

theorem refers (h : Admits Λ ρ p) (hρ : ρ.IsPlain) (hlen : fs.length = os.length) (hn : ρ.Free fs target.name.text)
    (hs : target.slot ∈ Stmt.slotsAll p) (he : IsEntry (resolve p).distances[target.slot]? os target.name.text) :
    Λ.Refers (layers hρ fs) target (ρ.reference (isChosen fs (namesOf os) target.name.text) target) :=
  ⟨h.reference _ _ _ hs rfl (same_of_entry hρ hlen hn he), h.place _ _⟩

theorem keyword (h : Admits Λ ρ p) (hρ : ρ.IsPlain) (hlen : fs.length = os.length) {d : Nat} {x : String}
    (hs : target.slot ∈ Stmt.slotsAll p) (hx : x = thisName ∨ x = superName) (hname : target.name.text = x)
    (hd : (resolve p).distances[target.slot]? = some (d : Int)) (hsel : Selects os x d) :
    Λ.Refers (layers hρ fs) target target :=
  ⟨h.reference _ _ _ hs rfl (same_of_keyword hρ hlen hx hname hd hsel), h.place false _⟩

end Admits

theorem alike_of_renames {Λ : Likeness} (hΛ : Admits Λ ρ p) (hρ : ρ.IsPlain) (hp : Accepted p) {site site' : Site}
    (h : Renames ρ fs os site site') (hw : Within p site r os) (hlen : fs.length = os.length) :
    Alike Λ (layers hρ fs) site site' := by
  have slots {site : Site} {r : Resolver} {os : List Opened} {target : Reference} (hw : Within p site r os)
      (hs : target.slot ∈ site.slots) : target.slot ∈ Stmt.slotsAll p := within_slots hw _ hs
  induction h generalizing r with
  | nil => exact .nil
  | cons _ _ ih ih' => exact .cons (ih (.first hw) hlen) (ih' (.next hw) (by rw [length_declare, hlen]))
  | effect _ ih => exact .effect (ih (.effect hw) hlen)
  | printed _ ih => exact .printed (ih (.printed hw) hlen)
  | var hn => exact .var (declares_spelling hρ hn)
  | varInit hn _ ih => exact .varInit (declares_spelling hρ hn) (ih (.init hw) (by rw [length_begin, hlen]))
  | @block f fs os body body' _ ih => exact .block (ih (.block hw) (congrArg (· + 1) hlen))
  | cond _ _ ih ih' => exact .cond (ih (.condTest hw) hlen) (ih' (.condYes hw) hlen)
  | condElse _ _ _ ih ih' ih'' =>
    exact .condElse (ih (.condTest hw) hlen) (ih' (.condYes hw) hlen) (ih'' (.condNo hw) hlen)
  | loop _ _ ih ih' => exact .loop (ih (.loopTest hw) hlen) (ih' (.loopBody hw) hlen)
  | loopStep _ _ _ ih ih' ih'' =>
    exact .loopStep (ih (.loopTest hw) hlen) (ih' (.loopBody hw) hlen) (ih'' (.loopStep hw) hlen)
  | break_ => exact .break_
  | continue_ => exact .continue_
  | @fun_ fs os f f' hk hr ih =>
    have hname : f'.name = f.name := by
      cases hr
      rfl
    refine .fun_ ?_ (ih (.fun_ hw) (by rw [length_declare, hlen]))
    rw [hname]
    exact declares_kept hρ hk
  | returned => exact .returned
  | returnedValue _ ih => exact .returnedValue (ih (.returned hw) hlen)
  | class_ hk _ ih =>
    exact .class_ (declares_kept hρ hk) rfl (ih (.methods hw) (by simp [ofClass, length_declare, hlen]))
  | @subclass fs os name target target' ms ms' hk _ _ ih ih' =>
    have hms : Alike Λ (.shared .plain :: .shared .plain :: layers hρ fs) (.methods ms) (.methods ms') :=
      ih' (.methods hw) (by simp [ofClass, length_declare, hlen])
    exact .subclass (declares_kept hρ hk) rfl (ih (.parent hw) (by rw [length_begin, hlen])) hms
  | parent _ hn =>
    exact .parent (hΛ.refers hρ hlen hn (slots hw (List.mem_singleton_self _)) (table_of_parent hp hw).1)
  | noMethod => exact .noMethod
  | @method fs os m m' rest rest' hm _ ih ih' =>
    have hcontext : methodContext m' = methodContext m := by
      cases hm
      rfl
    refine .method ?_ (ih' (.nextMethod hw) hlen)
    rw [hcontext]
    exact ih (.method hw) hlen
  | @routine f fs os context name params body body' hn _ ih =>
    exact .routine rfl (writesAll_spelling hρ hn) (ih (.body hw) (congrArg (· + 1) hlen))
  | noExpr => exact .noExpr
  | moreExprs _ _ ih ih' => exact .moreExprs (ih (.argument hw) hlen) (ih' (.nextArguments hw) hlen)
  | literal => exact .literal
  | group _ ih => exact .group (ih (.group hw) hlen)
  | unary _ ih => exact .unary (hΛ.names _) (ih (.operand hw) hlen)
  | binary _ _ ih ih' => exact .binary (hΛ.names _) (ih (.left hw) hlen) (ih' (.right hw) hlen)
  | logical _ _ ih ih' => exact .logical (hΛ.names _) (ih (.logicalLeft hw) hlen) (ih' (.logicalRight hw) hlen)
  | ternary _ _ _ ih ih' ih'' =>
    exact .ternary (ih (.ternaryTest hw) hlen) (ih' (.ternaryYes hw) hlen) (ih'' (.ternaryNo hw) hlen)
  | ref hn => exact .ref (hΛ.refers hρ hlen hn (slots hw (List.mem_singleton_self _)) (table_of_ref hp hw).1)
  | assign hn _ ih =>
    refine .assign (hΛ.refers hρ hlen hn (slots hw ?_) (table_of_assign hp hw)) (ih (.value hw) hlen)
    exact List.mem_append_right _ (List.mem_singleton_self _)
  | call _ _ ih ih' => exact .call (hΛ.names _) (ih (.callee hw) hlen) (ih' (.arguments hw) hlen)
  | get _ ih => exact .get (hΛ.names _) (ih (.object hw) hlen)
  | set _ _ ih ih' => exact .set (hΛ.names _) (ih (.setObject hw) hlen) (ih' (.setValue hw) hlen)
  | this =>
    obtain ⟨d, hd, hsel, -⟩ := table_of_this hp hw
    exact .this (hΛ.keyword hρ hlen (slots hw (List.mem_singleton_self _)) (Or.inl rfl) (resolved hp hw).tidy hd hsel)
  | super =>
    obtain ⟨d, hd, hsel, -⟩ := table_of_super hp hw
    have hname := (resolved hp hw).tidy
    refine .super hname (hΛ.keyword hρ hlen (slots hw (List.mem_singleton_self _)) (Or.inr rfl) hname hd hsel) ?_
    exact hΛ.names _

/-! ## A machine and itself -/

namespace Renaming

/-- The renaming that changes nothing. -/
def trivial : Renaming := ⟨"", ""⟩

theorem trivial_isPlain : trivial.IsPlain := ⟨by decide, by decide⟩

theorem trivial_name (f : Bool) (a : Lexeme) : trivial.name f a = a := by
  have htext : trivial.text f a.text = a.text := by
    unfold text
    split
    next h => exact h.2.symm
    next => rfl
  unfold name
  rw [htext]

end Renaming

/-- A likeness that every part of a program has to itself. -/
structure Likeness.Allows (Λ : Likeness) (p : List Stmt) : Prop where
  place : ∀ a, Λ.place a a
  reference : ∀ ss r r', r.slot ∈ Stmt.slotsAll p → r'.slot = r.slot →
    SameDistance (resolve p).distances (resolve p).distances ss r r' → Λ.reference ss r r'

def allPlain (os : List Opened) : List Layer := os.map fun _ => .shared .plain

variable {Λ : Likeness} {site : Site} {w : World} {m : Machine} {k : Nat} {c : Closure}

theorem Likeness.Allows.admits (h : Λ.Allows p) : Admits Λ .trivial p :=
  ⟨fun f a => by rw [trivial_name]; exact h.place a, h.reference⟩

theorem alike_self (hΛ : Λ.Allows p) (hp : Accepted p) (hw : Within p site r os)
    (h : Renames .trivial (os.map fun _ => false) os site site) : Alike Λ (allPlain os) site site := by
  have hlen : (os.map fun _ => false).length = os.length := List.length_map ..
  have halike := alike_of_renames hΛ.admits trivial_isPlain hp h hw hlen
  rwa [Renaming.layers, List.map_map] at halike

theorem noneChosen_map (os : List Opened) : NoneChosen (os.map fun _ => false) := by
  intro h
  obtain ⟨o, -, ho⟩ := List.mem_map.mp h
  cases ho

/-- Every environment with itself. -/
def Pairing.identity (m : Machine) : Pairing := fun k => if k < m.store.size then some (k, .plain) else none

theorem around_identity (h : Chain w m k os) (D : Distances) :
    Around (.identity m) m { m with distances := D } k k (allPlain os) := by
  induction os generalizing k with
  | nil => exact ⟨h, h⟩
  | cons o os ih =>
    obtain ⟨-, -, parent, hlink, hchain⟩ := h
    exact ⟨if_pos (Store.outer?_lt hlink), parent, parent, hlink, hlink, ih hchain⟩

theorem alikeFunction_self (hΛ : ∀ p, w.known p → Λ.Allows p) (h : IsFunction w m c) (D : Distances) :
    AlikeFunction Λ (.identity m) m { m with distances := D } c c := by
  obtain ⟨p, context, r, os, hp, hwithin, hchain, -⟩ := h
  refine ⟨rfl, allPlain os, context, context, ?_, around_identity hchain D, ?_⟩
  · cases os <;> rfl
  exact alike_self (hΛ p hp) (w.accepted p hp) hwithin (renames_routine c.routine context (noneChosen_map os))

theorem alikeMethod_self (hΛ : ∀ p, w.known p → Λ.Allows p) (h : IsMethod w m c) (D : Distances) :
    AlikeMethod Λ (.identity m) m { m with distances := D } c c := by
  obtain ⟨p, superclass, methods, r, os, hp, -, hwithin, hchain⟩ := h
  have halike : Alike Λ (.shared .plain :: allPlain os) (.routine (methodContext c.routine) c.routine)
      (.routine (methodContext c.routine) c.routine) :=
    alike_self (hΛ p hp) (w.accepted p hp) hwithin (renames_routine c.routine _ (noneChosen_map _))
  exact ⟨rfl, .plain, allPlain os, _, _, around_identity hchain D, halike⟩

/-- A machine in order is kin to itself, also with another table that finds the same. -/
theorem kin_self (hΛ : ∀ p, w.known p → Λ.Allows p) (h : Inv w m) {D : Distances}
    (hD : ∀ ss r r', Λ.reference ss r r' → SameDistance m.distances D ss r r') :
    Kin Λ #[] (.identity m) m { m with distances := D } where
  globals := if_pos h.globals.1
  outermost := ⟨h.globals.2, h.globals.2⟩
  tables k k' s hk := by
    unfold Pairing.identity at hk
    split at hk
    next hlt =>
      cases hk
      obtain ⟨t, ht⟩ := Option.isSome_iff_exists.mp ((Store.values?_isSome m.store k).mpr hlt)
      exact ⟨t, t, ht, ht, .plain t⟩
    next => cases hk
  apart k₁ k₂ k' s₁ s₂ h₁ h₂ := by
    unfold Pairing.identity at h₁ h₂
    split at h₁ <;> cases h₁
    split at h₂ <;> cases h₂
    rfl
  functions i := by
    show BothOr _ m.closures[i]? m.closures[i]?
    cases hc : m.closures[i]? with
    | none => exact True.intro
    | some c => exact alikeFunction_self hΛ (h.functions i c hc) D
  classes i := by
    show BothOr _ m.classes[i]? m.classes[i]?
    cases hc : m.classes[i]? with
    | none => exact True.intro
    | some c =>
      refine ⟨rfl, rfl, fun x => ?_⟩
      cases hx : c.methods.get? x with
      | none => exact True.intro
      | some method => exact alikeMethod_self hΛ (h.methods i c x method hc hx) D
  instances := rfl
  output := (Array.empty_append ..).symm
  ticks := rfl
  distances := hD

end Lox
