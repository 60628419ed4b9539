/-
  Lox.Proofs.Scope.Walk — what walking a part of a program changes in the resolver.

  `Walked slots names r r'`: the table changes at the slots of the part only, errors are
  never taken back, what is around the part is around what follows it, and if there is no
  error the innermost scope has the names that the part declares, all of them complete,
  and the other scopes are as they were (`walked_expr`, `walked_stmt`). Which names have
  been read does not matter to this: an `outline` leaves it out.
-/

import Lox.Proofs.Scope.Shape
import Lox.Scope.Resolution

namespace Lox

/-- The names declared in a scope, and whether each declaration is complete. -/
abbrev Names := List (String × Bool)

def outline (scopes : List Scope) : List Names :=
  scopes.map fun s => s.entries.map fun entry => (entry.1, entry.2.defined)

/-- The number of scopes inside of the innermost one with the name. -/
def select? (name : String) : List Names → Option Nat
  | [] => none
  | names :: rest => if (Bindings.find name names).isSome then some 0 else (select? name rest).map (· + 1)

theorem contains_iff {s : Scope} {x : String} : s.contains x = true ↔ x ∈ s.keys := by
  have hnone := s.get?_eq_none_iff x
  unfold Bindings.contains
  cases hs : s.get? x with
  | none => simp [hnone.mp hs]
  | some l =>
    have hx : x ∈ s.keys := Decidable.byContradiction fun h => by simp [hnone.mpr h] at hs
    simp [hx]

theorem find_outline (name : String) (entries : List (String × Local)) :
    Bindings.find name (entries.map fun entry => (entry.1, entry.2.defined)) =
      (Bindings.find name entries).map (·.defined) := by
  induction entries with
  | nil => rfl
  | cons entry rest ih =>
    by_cases h : entry.1 = name
    · simp [Bindings.find, h]
    · simpa [Bindings.find, h] using ih

/-- The distance of a name is the index of the scope that has it. -/
theorem hops?_eq (name : String) (scopes : List Scope) : hops? name scopes = select? name (outline scopes) := by
  induction scopes with
  | nil => rfl
  | cons s rest ih =>
    have hs : s.contains name
      = (Bindings.find name (s.entries.map fun entry => (entry.1, entry.2.defined))).isSome := by
      rw [find_outline, Option.isSome_map]
      rfl
    rw [hops?, hs, ih]
    rfl

theorem outline_adjust (s : Scope) (name : String) :
    (s.adjust name ({ · with used := true })).entries.map (fun entry => (entry.1, entry.2.defined)) =
      s.entries.map fun entry => (entry.1, entry.2.defined) := by
  simp only [Bindings.adjust, List.map_map]
  refine List.map_congr_left fun entry _ => ?_
  by_cases h : entry.1 = name <;> simp [h]

/-- To touch a name changes no outline. -/
theorem outline_touch (name : String) (scopes : List Scope) : outline (touch name scopes) = outline scopes := by
  induction scopes with
  | nil => rfl
  | cons s rest ih =>
    unfold touch
    split
    · simp only [outline, List.map_cons, outline_adjust]
    · simp only [outline, List.map_cons] at ih ⊢
      rw [ih]

/-! ## Errors of one kind -/

/-- The error that a fault is reported as. -/
def Lexeme.faulty (name : Lexeme) (fault : BindingFault) : Diagnostic :=
  ⟨name.line, .atToken name.text, .binding fault⟩

def Diagnostic.isOf (kind : BindingFault → Bool) (d : Diagnostic) : Bool :=
  match d.cause with
  | .binding fault => kind fault
  | _ => false

namespace Resolver

/-- What has been reported of one kind. -/
def errorsOf (kind : BindingFault → Bool) (r : Resolver) : List Diagnostic := r.errors.toList.filter (·.isOf kind)

theorem errorsOf_report (kind : BindingFault → Bool) (r : Resolver) (name : Lexeme) (fault : BindingFault) :
    (r.report name fault).errorsOf kind = r.errorsOf kind ++ if kind fault then [name.faulty fault] else [] := by
  unfold errorsOf report
  rw [Array.toList_push, List.filter_append, List.filter_cons, List.filter_nil]
  rfl

/-! ## One part after the other -/

/-- Names whose declaration is complete, in the innermost scope. -/
def addNames (xs : List String) : List Names → List Names
  | [] => []
  | names :: rest => (names ++ xs.map fun x => (x, true)) :: rest

theorem addNames_nil (os : List Names) : addNames [] os = os := by
  cases os <;> simp [addNames]

theorem addNames_append (xs ys : List String) (os : List Names) :
    addNames (xs ++ ys) os = addNames ys (addNames xs os) := by
  cases os <;> simp [addNames]

/-- What has been walked enters its own slots only, and adds these names to the innermost scope. -/
structure Walked (slots : List Int) (names : List String) (r r' : Resolver) : Prop where
  errors : r'.errors = #[] → r.errors = #[]
  table : ∀ x, x ∉ slots → r'.distances[x]? = r.distances[x]?
  routine : r'.routine = r.routine
  class_ : r'.class_ = r.class_
  scopes : r'.errors = #[] → outline r'.scopes = addNames names (outline r.scopes)

variable {slots slots' : List Int} {names names' : List String} {r r₁ r' : Resolver}

theorem Walked.refl (slots : List Int) (r : Resolver) : Walked slots [] r r :=
  ⟨id, fun _ _ => rfl, rfl, rfl, fun _ => (addNames_nil _).symm⟩

/-- Two walks one behind the other. -/
theorem Walked.trans (h : Walked slots names r r₁) (h' : Walked slots' names' r₁ r') :
    Walked (slots ++ slots') (names ++ names') r r' where
  errors he := h.errors (h'.errors he)
  table x hx := by
    simp only [List.mem_append, not_or] at hx
    rw [h'.table x hx.2, h.table x hx.1]
  routine := h'.routine.trans h.routine
  class_ := h'.class_.trans h.class_
  scopes he := by rw [h'.scopes he, h.scopes (h'.errors he), addNames_append]

/-! ## Closing scopes -/

theorem reportUnused_eq (r : Resolver) (entry : String × Local) :
    ∃ errors, r.reportUnused entry = { r with errors } ∧ (errors = #[] → r.errors = #[]) := by
  unfold reportUnused
  split
  · exact ⟨_, rfl, fun h => absurd h (by simp)⟩
  · exact ⟨_, rfl, id⟩

/-- To leave a scope drops it and may report errors. -/
theorem leave_eq (r : Resolver) :
    ∃ errors, r.leave = { r with scopes := r.scopes.tail, errors } ∧ (errors = #[] → r.errors = #[]) := by
  unfold leave
  split
  next h => exact ⟨r.errors, by rw [h]; cases r; simp_all, id⟩
  next s rest h =>
    rw [h, List.tail_cons]
    generalize s.entries = entries
    generalize hr : ({ r with scopes := rest } : Resolver) = r₁
    have hsame : r₁ = { r with scopes := rest, errors := r₁.errors } := by rw [← hr]
    have hmono : r₁.errors = #[] → r.errors = #[] := by rw [← hr]; exact id
    clear hr
    induction entries generalizing r₁ with
    | nil => exact ⟨_, hsame, hmono⟩
    | cons entry entries ih =>
      obtain ⟨errors, he, hm⟩ := reportUnused_eq r₁ entry
      rw [List.foldl_cons, he]
      exact ih _ (by rw [hsame]) fun h => hmono (hm h)

/-- A part in a scope of its own. -/
theorem Walked.leave {scope : Scope} (h : Walked slots names (r.enter scope) r₁) : Walked slots [] r r₁.leave := by
  obtain ⟨errors, he, hm⟩ := leave_eq r₁
  rw [he]
  refine ⟨fun h' => h.errors (hm h'), h.table, h.routine, h.class_, fun h' => ?_⟩
  have hs := h.scopes (hm h')
  rw [addNames_nil]
  simp only [enter, outline, List.map_cons, addNames] at hs ⊢
  rw [List.map_tail, hs, List.tail_cons]

/-! ## Uses -/

theorem walked_report (slots : List Int) (r : Resolver) (name : Lexeme) (fault : BindingFault) :
    Walked slots [] r (r.report name fault) := by
  refine ⟨fun h => ?_, fun _ _ => rfl, rfl, rfl, fun _ => (addNames_nil _).symm⟩
  simp [report] at h

theorem walked_record (r : Resolver) (slot : Int) (hops : Nat) : Walked [slot] [] r (r.record slot hops) := by
  refine ⟨id, fun x hx => ?_, rfl, rfl, fun _ => (addNames_nil _).symm⟩
  have hne : slot ≠ x := fun h => hx (List.mem_singleton.mpr h.symm)
  simp [record, Std.TreeMap.getElem?_insert, hne]

theorem walked_write (r : Resolver) (target : Reference) : Walked [target.slot] [] r (r.write target) := by
  unfold write
  split
  · exact walked_record ..
  · exact Walked.refl ..

theorem walked_read (r : Resolver) (target : Reference) : Walked [target.slot] [] r (r.read target) := by
  unfold read
  split
  next d _ =>
    have h := walked_record r target.slot d
    refine ⟨h.errors, h.table, h.routine, h.class_, fun _ => ?_⟩
    rw [addNames_nil]
    exact outline_touch ..
  next => exact Walked.refl ..

theorem walked_readVariable (r : Resolver) (target : Reference) :
    Walked [target.slot] [] r (r.readVariable target) := by
  unfold readVariable
  split
  · exact (walked_report [] r _ _).trans (walked_record ..)
  · exact walked_read ..

theorem walked_this (r : Resolver) (keyword : Reference) : Walked [keyword.slot] [] r (r.this keyword) := by
  unfold this
  split
  · exact walked_report ..
  · exact walked_read ..

theorem walked_super (r : Resolver) (keyword : Reference) : Walked [keyword.slot] [] r (r.super keyword) := by
  unfold super
  split
  · exact walked_report ..
  · exact walked_report ..
  · exact walked_read ..

/-! ## Expressions -/

mutual

/-- An expression leaves the outline as it is. -/
theorem walked_expr : ∀ (e : Expr) (r : Resolver), Walked e.slots [] r (expr e r)
  | .literal _, r => Walked.refl _ r
  | .group inner, r => walked_expr inner r
  | .unary _ operand, r => walked_expr operand r
  | .binary left _ right, r => (walked_expr left r).trans (walked_expr right _)
  | .logical left _ right, r => (walked_expr left r).trans (walked_expr right _)
  | .ternary cond yes no, r => (walked_expr cond r).trans ((walked_expr yes _).trans (walked_expr no _))
  | .ref target, r => walked_readVariable r target
  | .assign target value, r => (walked_expr value r).trans (walked_write _ target)
  | .call callee _ args, r => (walked_expr callee r).trans (walked_exprs args _)
  | .get object _, r => walked_expr object r
  | .set object _ value, r => by
    have h := (walked_expr value r).trans (walked_expr object _)
    refine ⟨h.errors, fun x hx => h.table x fun hm => hx ?_, h.routine, h.class_, h.scopes⟩
    rw [Expr.slots]
    exact List.mem_append.mpr (List.mem_append.mp hm).symm
  | .this keyword, r => walked_this r keyword
  | .super keyword _, r => walked_super r keyword

theorem walked_exprs : ∀ (es : List Expr) (r : Resolver), Walked (Expr.slotsAll es) [] r (exprs es r)
  | [], r => Walked.refl _ r
  | e :: rest, r => (walked_expr e r).trans (walked_exprs rest _)

end

theorem walked_exprOpt (e : Option Expr) (r : Resolver) : Walked (Expr.slotsOpt e) [] r (exprOpt e r) := by
  cases e with
  | none => exact Walked.refl _ r
  | some e => exact walked_expr e r

/-! ## Declarations -/

/-- A name whose declaration has begun, in the innermost scope. -/
def beginName (x : String) : List Names → List Names
  | [] => []
  | names :: rest => (names ++ [(x, false)]) :: rest

def completeName (x : String) : List Names → List Names
  | [] => []
  | names :: rest => (names.map fun entry => (entry.1, if entry.1 = x then true else entry.2)) :: rest

/-- The innermost scope does not have the name. -/
def IsFresh (x : String) (os : List Names) : Prop := ∀ names ∈ os.head?, Bindings.find x names = none

theorem put_of_find {α : Type} {x : String} {v : α} {entries : List (String × α)} (h : Bindings.find x entries = none) :
    Bindings.put x v entries = entries ++ [(x, v)] := by
  induction entries with
  | nil => rfl
  | cons entry rest ih =>
    by_cases hx : entry.1 = x
    · simp [Bindings.find, hx] at h
    · simp only [Bindings.find, hx, if_false] at h
      simp [Bindings.put, hx, ih h]

theorem completeName_beginName {x : String} {os : List Names} (h : IsFresh x os) :
    completeName x (beginName x os) = addNames [x] os := by
  cases os with
  | nil => rfl
  | cons names rest =>
    have hx := h names rfl
    rw [Bindings.find_eq_none_iff] at hx
    have hsame : names.map (fun entry => (entry.1, if entry.1 = x then true else entry.2)) = names := by
      refine (List.map_congr_left fun entry hm => ?_).trans (List.map_id names)
      have hne : ¬ entry.1 = x := fun he => hx (List.mem_map.mpr ⟨entry, hm, he⟩)
      simp [hne]
    simp only [beginName, completeName, addNames, List.map_append, hsame, List.map_cons, List.map_nil, if_true]

/-- A declaration that begins without an error. -/
theorem declare_spec (r : Resolver) (name : Lexeme) (watched : Bool) :
    (r.declare name watched).distances = r.distances ∧ (r.declare name watched).routine = r.routine ∧
    (r.declare name watched).class_ = r.class_ ∧
    ((r.declare name watched).errors = #[] → r.errors = #[] ∧ IsFresh name.text (outline r.scopes) ∧
      outline (r.declare name watched).scopes = beginName name.text (outline r.scopes)) := by
  unfold declare
  split
  next h => exact ⟨rfl, rfl, rfl, fun he => ⟨he, by simp [h, outline, IsFresh], by simp [h, outline, beginName]⟩⟩
  next s rest h =>
    by_cases hc : s.contains name.text = true
    · rw [if_pos hc]
      exact ⟨rfl, rfl, rfl, fun he => by simp [report] at he⟩
    · rw [if_neg hc]
      have hfind : Bindings.find name.text s.entries = none := by
        simpa [Bindings.contains, Bindings.get?] using hc
      refine ⟨rfl, rfl, rfl, fun he => ⟨he, ?_, ?_⟩⟩
      · simp [h, outline, IsFresh, find_outline, hfind]
      · simp [h, outline, beginName, Bindings.set, put_of_find hfind]

/-- A definition completes a name in the outline. -/
theorem outline_define (r : Resolver) (name : Lexeme) :
    outline (r.define name).scopes = completeName name.text (outline r.scopes) := by
  unfold define
  split
  next h => simp [h, outline, completeName]
  next s rest h =>
    simp only [h, outline, List.map_cons, completeName, Bindings.adjust, List.map_map, List.cons.injEq, and_true]
    refine List.map_congr_left fun entry _ => ?_
    by_cases hx : entry.1 = name.text <;> simp [hx]

theorem define_same (r : Resolver) (name : Lexeme) :
    (r.define name).errors = r.errors ∧ (r.define name).distances = r.distances ∧
    (r.define name).routine = r.routine ∧ (r.define name).class_ = r.class_ := by
  unfold define
  split <;> exact ⟨rfl, rfl, rfl, rfl⟩

/-- A declaration around the walk of its initializer. -/
theorem Walked.declared {name : Lexeme} {watched : Bool} (h : Walked slots [] (r.declare name watched) r₁) :
    Walked slots [name.text] r (r₁.define name) := by
  obtain ⟨hd, hr, hc, hs⟩ := declare_spec r name watched
  obtain ⟨he', hd', hr', hc'⟩ := define_same r₁ name
  refine ⟨fun he => (hs (h.errors (he' ▸ he))).1, fun x hx => by rw [hd', h.table x hx, hd],
    by rw [hr', h.routine, hr], by rw [hc', h.class_, hc], fun he => ?_⟩
  rw [he'] at he
  obtain ⟨-, hfresh, hbegin⟩ := hs (h.errors he)
  rw [outline_define, h.scopes he, addNames_nil, hbegin, completeName_beginName hfresh]

theorem walked_declared (r : Resolver) (name : Lexeme) (watched : Bool) :
    Walked [] [name.text] r ((r.declare name watched).define name) :=
  (Walked.refl [] _).declared

theorem walked_params (params : List Lexeme) (r : Resolver) :
    Walked [] (params.map (·.text)) r (params.foldl param r) := by
  induction params generalizing r with
  | nil => exact Walked.refl [] r
  | cons p params ih => exact (walked_declared r p false).trans (ih _)

/-! ## What is around a part -/

theorem Walked.inRoutine (h : Walked slots names { r with routine := context } r₁) :
    Walked slots names r { r₁ with routine := r.routine } :=
  ⟨h.errors, h.table, rfl, h.class_, h.scopes⟩

theorem Walked.inClass (h : Walked slots names r r') (c : ClassContext) :
    Walked slots names { r with class_ := c } { r' with class_ := c } :=
  ⟨h.errors, h.table, h.routine, rfl, h.scopes⟩

theorem walked_checkReturn (r : Resolver) (keyword : Lexeme) (hasValue : Bool) :
    Walked [] [] r (r.checkReturn keyword hasValue) := by
  unfold checkReturn
  split
  · exact walked_report ..
  · split
    · exact walked_report ..
    · exact Walked.refl ..
  · exact Walked.refl ..

/-! ## Statements -/

/-- A class around the walk of its methods. -/
theorem walked_class {name : Lexeme} {superclass : Option Reference} {methods : List Routine}
    (h : ∀ r, Walked slots [] r (methodBodies methods r)) (r : Resolver) :
    Walked (superclass.elim [] (fun parent => [parent.slot]) ++ slots) [name.text] r
      ((methodBodies methods (r.openClass name superclass)).closeClass r.class_ superclass) := by
  have hname := (walked_declared { r with class_ := .class_ } name true).inClass r.class_
  unfold openClass
  generalize (({ r with class_ := .class_ } : Resolver).declare name true).define name = r₁ at hname ⊢
  cases superclass with
  | none => exact hname.trans ((h (r₁.enter _)).leave.inClass r.class_)
  | some parent =>
    have hown : Walked [] [] r₁ (if parent.name.text = name.text then r₁.report parent.name .ownSuperclass
      else r₁) := by
      split
      · exact walked_report ..
      · exact Walked.refl ..
    simp only [superclassClause]
    generalize (if parent.name.text = name.text then r₁.report parent.name .ownSuperclass else r₁) = r₂ at hown ⊢
    have hread := walked_readVariable { r₂ with class_ := .subclass } parent
    have hmethods :=
      hread.trans (h ((Resolver.enter _ (implicitScope superName)).enter (implicitScope thisName))).leave.leave
    exact (hname.trans (hown.inClass r.class_)).trans (hmethods.inClass r.class_)

/-- The name that a statement adds to the scope it stands in. -/
def declared (s : Stmt) : List String := (s.declares?.map (·.text)).toList

def declaredAll : List Stmt → List String
  | [] => []
  | s :: rest => declared s ++ declaredAll rest

theorem declared_none {s : Stmt} (h : s.declares? = none) : declared s = [] := by rw [declared, h]; rfl

mutual

/-- A statement adds the names that it declares to the outline. -/
theorem walked_stmt : ∀ (s : Stmt), s.Tidy → ∀ r, Walked s.slots (declared s) r (stmt s r)
  | .expr e, _, r => walked_expr e r
  | .print_ e, _, r => walked_expr e r
  | .var _ init, _, _ => (walked_exprOpt init _).declared
  | .block body, h, r => (walked_stmts body h (r.enter ∅)).leave
  | .cond test yes no, h, r => by
    have hyes := walked_stmt yes h.2.1.1 (expr test r)
    rw [declared_none h.2.1.2] at hyes
    exact (walked_expr test r).trans (hyes.trans (walked_stmtOpt no h.2.2 _))
  | .loop test body step, h, r => by
    have hbody := walked_stmt body h.2.1.1 (expr test r)
    rw [declared_none h.2.1.2] at hbody
    exact (walked_expr test r).trans (hbody.trans (walked_exprOpt step _))
  | .break_ _, _, r => Walked.refl _ r
  | .continue_ _, _, r => Walked.refl _ r
  | .fun_ routine, h, r => (walked_declared r routine.name true).trans (walked_routine .function routine h.2 _)
  | .return_ keyword value, _, r => (walked_checkReturn r keyword _).trans (walked_exprOpt value _)
  | .class_ _ _ methods, h, r => walked_class (walked_methods methods h.2.2) r

theorem walked_stmts :
    ∀ (ss : List Stmt), Stmt.TidyAll ss → ∀ r, Walked (Stmt.slotsAll ss) (declaredAll ss) r (stmts ss r)
  | [], _, r => Walked.refl _ r
  | s :: rest, h, r => (walked_stmt s h.1 r).trans (walked_stmts rest h.2 _)

theorem walked_stmtOpt : ∀ (s : Option Stmt), Stmt.TidyOpt s → ∀ r, Walked (Stmt.slotsOpt s) [] r (stmtOpt s r)
  | none, _, r => Walked.refl _ r
  | some s, h, r => by
    have hs := walked_stmt s h.1 r
    rw [declared_none h.2] at hs
    exact hs

theorem walked_routine : ∀ (context : RoutineContext) (routine : Routine), Stmt.RoutineTidy routine →
    ∀ r, Walked (Stmt.routineSlots routine) [] r (routineBody context routine r)
  | context, ⟨_, params, body⟩, h, r => by
    have hparams := walked_params params (({ r with routine := context } : Resolver).enter ∅)
    have hbody := walked_stmts body h.2 (params.foldl param (({ r with routine := context } : Resolver).enter ∅))
    exact (hparams.trans hbody).leave.inRoutine

theorem walked_methods : ∀ (methods : List Routine), Stmt.MethodsTidy methods →
    ∀ r, Walked (Stmt.methodSlots methods) [] r (methodBodies methods r)
  | [], _, r => Walked.refl _ r
  | m :: rest, h, r => (walked_routine _ m h.1 r).trans (walked_methods rest h.2 _)

end

end Resolver

end Lox
