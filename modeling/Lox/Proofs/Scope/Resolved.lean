/-
  Lox.Proofs.Scope.Resolved — the resolver agrees with lexical scoping: wherever its walk
  over a program without errors comes, its scopes are the open ones, with the names that
  are declared in them by then (`resolved`).

  What is carried along the walk is `Part`: the part ends without an error, and the final
  table has what the part leaves for its slots, none of which had an entry before it.
-/

import Lox.Proofs.Scope.Lexical

namespace Lox

open Resolver Opened

/-! ## A part of a walk -/

/-- The part has been resolved without an error, and its entries are those of the table. -/
structure Part (table : Distances) (slots : List Int) (r r' : Resolver) : Prop where
  errors : r'.errors = #[]
  nodup : slots.Nodup
  table : ∀ x ∈ slots, table[x]? = r'.distances[x]?
  fresh : ∀ x ∈ slots, r.distances[x]? = none

variable {table : Distances} {slots slots' : List Int} {names : List String} {r r₁ r₂ r' : Resolver}

theorem Part.left (h : Part table (slots ++ slots') r r') (hw : Walked slots' names r₁ r') : Part table slots r r₁ := by
  obtain ⟨hs, -, hd⟩ := List.nodup_append.mp h.nodup
  refine ⟨hw.errors h.errors, hs, fun x hx => ?_, fun x hx => h.fresh x (List.mem_append_left _ hx)⟩
  rw [h.table x (List.mem_append_left _ hx), hw.table x fun hm => hd x hx x hm rfl]

theorem Part.right (h : Part table (slots ++ slots') r r')
    (ht : ∀ x, x ∉ slots → r₁.distances[x]? = r.distances[x]?) : Part table slots' r₁ r' := by
  obtain ⟨-, hs', hd⟩ := List.nodup_append.mp h.nodup
  refine ⟨h.errors, hs', fun x hx => h.table x (List.mem_append_right _ hx), fun x hx => ?_⟩
  rw [ht x fun hm => hd x hm x hx rfl]
  exact h.fresh x (List.mem_append_right _ hx)

/-- The part without what is around it. -/
theorem Part.inner (h : Part table slots r r') (hr : r₁.distances = r.distances)
    (he : r'.errors = #[] → r₂.errors = #[]) (hd : r'.distances = r₂.distances) : Part table slots r₁ r₂ :=
  ⟨he h.errors, h.nodup, fun x hx => hd ▸ h.table x hx, fun x hx => hr ▸ h.fresh x hx⟩

theorem Part.leave (h : Part table slots r r'.leave) : Part table slots r r' := by
  obtain ⟨errors, he, hm⟩ := leave_eq r'
  rw [he] at h
  exact h.inner rfl hm rfl

/-! ## Names of open scopes -/

/-- Every declaration is through. -/
def Complete (os : List Opened) : Prop := ∀ o ∈ os, ∀ entry ∈ o.names, entry.2 = true

variable {os : List Opened}

theorem namesOf_declare (xs : List String) (os : List Opened) : namesOf (declare xs os) = addNames xs (namesOf os) := by
  cases os <;> rfl

theorem namesOf_begin (x : String) (os : List Opened) : namesOf (begin_ x os) = beginName x (namesOf os) := by
  cases os <;> rfl

theorem complete_declare (xs : List String) (h : Complete os) : Complete (declare xs os) := by
  cases os with
  | nil => exact h
  | cons o os =>
    intro o' ho
    rcases List.mem_cons.mp ho with rfl | ho
    · intro entry he
      rcases List.mem_append.mp he with he | he
      · exact h o (List.mem_cons_self ..) entry he
      · obtain ⟨x, -, rfl⟩ := List.mem_map.mp he
        rfl
    · exact h o' (List.mem_cons_of_mem _ ho)

theorem complete_tail (h : Complete os) : Complete os.tail := fun o ho => h o (List.mem_of_mem_tail ho)

theorem complete_ofClass (superclass : Option Reference) (methods : List Routine) (h : Complete os) :
    Complete (ofClass superclass methods os) := by
  intro o ho
  rcases List.mem_cons.mp ho with rfl | ho
  · simp
  · cases superclass with
    | none => exact h o ho
    | some parent =>
      rcases List.mem_cons.mp ho with rfl | ho
      · simp
      · exact h o ho

theorem tail_begin (x : String) (os : List Opened) : (begin_ x os).tail = os.tail := by cases os <;> rfl

theorem frames_declare (xs : List String) (os : List Opened) : (declare xs os).map (·.frame) = os.map (·.frame) := by
  cases os <;> rfl

theorem frames_begin (x : String) (os : List Opened) : (begin_ x os).map (·.frame) = os.map (·.frame) := by
  cases os <;> rfl

/-! ## Classes around a part -/

def classContext : List Frame → ClassContext
  | [] => .none
  | .receiver superclass _ :: _ => if superclass.isSome then .subclass else .class_
  | _ :: rest => classContext rest

theorem class_openClass (r : Resolver) (name : Lexeme) (superclass : Option Reference) :
    (r.openClass name superclass).class_ = if superclass.isSome then .subclass else .class_ := by
  have hname := (walked_declared { r with class_ := .class_ } name true).class_
  cases superclass with
  | none => exact hname
  | some parent => exact (walked_readVariable _ parent).class_

theorem beforeParent_same (r : Resolver) (name : Lexeme) (parent : Reference) :
    (r.beforeParent name parent).distances = r.distances ∧ (r.beforeParent name parent).scopes = r.scopes ∧
    ((r.beforeParent name parent).errors = #[] → r.errors = #[] ∧ parent.name.text ≠ name.text) := by
  unfold beforeParent
  split
  · refine ⟨rfl, rfl, fun h => ?_⟩
    simp [report] at h
  next h => exact ⟨rfl, rfl, fun he => ⟨he, h⟩⟩

theorem distances_named (r : Resolver) (name : Lexeme) : (r.named name).distances = r.distances := by
  obtain ⟨hd, -, -, -⟩ := declare_spec { r with class_ := .class_ } name true
  obtain ⟨-, hd', -, -⟩ := define_same ({ r with class_ := .class_ }.declare name true) name
  exact hd'.trans hd

theorem errors_openClass {name : Lexeme} {superclass : Option Reference}
    (he : (r.openClass name superclass).errors = #[]) : (r.named name).errors = #[] := by
  cases superclass with
  | none => exact he
  | some parent =>
    have hread := walked_readVariable ((r.named name).beforeParent name parent) parent
    exact ((beforeParent_same ..).2.2 (hread.errors he)).1

/-- A class opens a scope for `super`, if there is one, and another for `this`. -/
theorem outline_openClass {name : Lexeme} {superclass : Option Reference} {ms : List Routine}
    (h : outline r.scopes = namesOf os) (he : (r.openClass name superclass).errors = #[]) :
    outline (r.openClass name superclass).scopes = namesOf (ofClass superclass ms (declare [name.text] os)) := by
  have hname := walked_declared { r with class_ := .class_ } name true
  have hscopes (he : (r.named name).errors = #[]) :
      outline (r.named name).scopes = namesOf (declare [name.text] os) := by
    rw [namesOf_declare, ← h]
    exact hname.scopes he
  cases superclass with
  | none =>
    simp only [namesOf, ofClass, List.map_cons]
    rw [← namesOf, ← hscopes he]
    rfl
  | some parent =>
    have hread := walked_readVariable ((r.named name).beforeParent name parent) parent
    have hafter := hread.scopes he
    rw [addNames_nil, (beforeParent_same ..).2.1, hscopes (errors_openClass he)] at hafter
    simp only [namesOf, ofClass, List.map_cons]
    rw [← namesOf, ← hafter]
    rfl

/-! ## What the open scopes are like -/

/-- Scopes of `this` and `super` are opened together, by a class, and hold nothing else; no
other scope has a name spelled so. -/
inductive Layered : List Opened → Prop
  | nil : Layered []
  | block {body : List Stmt} {names : Names} {os : List Opened} :
      (∀ entry ∈ names, entry.1 ≠ thisName ∧ entry.1 ≠ superName) → Layered os →
      Layered (⟨.block body, names⟩ :: os)
  | routine {f : Routine} {names : Names} {os : List Opened} :
      (∀ entry ∈ names, entry.1 ≠ thisName ∧ entry.1 ≠ superName) → Layered os →
      Layered (⟨.routine f, names⟩ :: os)
  | class_ {superclass : Option Reference} {ms : List Routine} {os : List Opened} : Layered os →
      Layered (ofClass superclass ms os)

/-- The innermost scope is none of a class. -/
def IsPlainHead (os : List Opened) : Prop :=
  match os with
  | ⟨.receiver .., _⟩ :: _ | ⟨.superclass .., _⟩ :: _ => False
  | _ => True

theorem layered_add {o : Opened} {os : List Opened} {more : Names} (h : Layered (o :: os)) (hp : IsPlainHead (o :: os))
    (hm : ∀ entry ∈ more, entry.1 ≠ thisName ∧ entry.1 ≠ superName) :
    Layered ({ o with names := o.names ++ more } :: os) := by
  cases h with
  | block hn hos => exact .block (fun entry he => (List.mem_append.mp he).elim (hn entry) (hm entry)) hos
  | routine hn hos => exact .routine (fun entry he => (List.mem_append.mp he).elim (hn entry) (hm entry)) hos
  | class_ => exact hp.elim

theorem layered_declare {xs : List String} (h : Layered os) (hp : IsPlainHead os)
    (hx : ∀ x ∈ xs, x ≠ thisName ∧ x ≠ superName) : Layered (declare xs os) := by
  cases os with
  | nil => exact h
  | cons o os => exact layered_add h hp (by simpa using hx)

theorem layered_begin {x : String} (h : Layered os) (hp : IsPlainHead os) (hx : x ≠ thisName ∧ x ≠ superName) :
    Layered (begin_ x os) := by
  cases os with
  | nil => exact h
  | cons o os => exact layered_add h hp (by simpa using hx)

theorem isPlainHead_declare (xs : List String) (hp : IsPlainHead os) : IsPlainHead (declare xs os) := by
  match os, hp with
  | [], hp => exact hp
  | ⟨.block _, _⟩ :: _, hp => exact hp
  | ⟨.routine _, _⟩ :: _, hp => exact hp

theorem declared_plain {s : Stmt} (h : s.Tidy) : ∀ x ∈ declared s, x ≠ thisName ∧ x ≠ superName := by
  cases s with
  | var | fun_ | class_ => intro x hx; cases List.mem_singleton.mp hx; exact h.1
  | _ => intro x hx; cases hx

/-! ## What is known wherever the walk comes -/

/-- The scopes of the resolver are the ones that are open. -/
structure Standing (r : Resolver) (os : List Opened) : Prop where
  scopes : outline r.scopes = namesOf os
  context : r.class_ = classContext (os.map (·.frame))
  layered : Layered os
  outer : Complete os.tail

theorem Standing.walked (h : Standing r os) (hw : Walked slots [] r r₁) (he : r₁.errors = #[]) : Standing r₁ os := by
  refine ⟨?_, hw.class_.trans h.context, h.layered, h.outer⟩
  rw [hw.scopes he, addNames_nil, h.scopes]

theorem Standing.declared {xs : List String} (h : Standing r os) (hp : IsPlainHead os) (hw : Walked slots xs r r₁)
    (he : r₁.errors = #[]) (hx : ∀ x ∈ xs, x ≠ thisName ∧ x ≠ superName) : Standing r₁ (declare xs os) := by
  refine ⟨?_, ?_, layered_declare h.layered hp hx, ?_⟩
  · rw [hw.scopes he, namesOf_declare, h.scopes]
  · rw [frames_declare, hw.class_, h.context]
  · cases os <;> exact h.outer

/-- The clause of a superclass: the name of the class is declared, but not yet made. -/
structure AtParent (r : Resolver) (name : Lexeme) (os : List Opened) : Prop where
  scopes : outline r.scopes = completeName name.text (namesOf os)
  layered : Layered os
  outer : Complete os.tail

def Standings : Site → Resolver → List Opened → Prop
  | .stmts _, r, os | .stmt _, r, os => Standing r os ∧ Complete os ∧ IsPlainHead os
  | .exprs _, r, os | .expr _, r, os => Standing r os
  | .parent name _, r, os => AtParent r name os
  | .routine _ _, r, os | .methods _, r, os => Standing r os ∧ Complete os

/-- The part is tidy, it is resolved without an error, and its scopes are the ones that are
open. -/
structure Visited (p : List Stmt) (site : Site) (r : Resolver) (os : List Opened) : Prop where
  tidy : site.Tidy
  part : Part (resolve p).distances site.slots r (site.walk r)
  stands : Standings site r os

variable {p : List Stmt} {site : Site}

/-- A part walked first, and one walked after it, in the same scopes. -/
theorem Part.before (h : Part table slots r r') (hw : Walked slots names r r') : r.errors = #[] := hw.errors h.errors

/-- An initializer is resolved while its name is announced. -/
theorem visited_init {name : Lexeme} {e : Expr} (h : Visited p (.stmt (.var name (some e))) r os) :
    Visited p (.expr e) (r.declare name true) (begin_ name.text os) := by
  obtain ⟨⟨hname, htidy⟩, hpart, hstand, hcomplete, hhead⟩ := h
  have hw := walked_expr e (r.declare name true)
  obtain ⟨hd, hr, hc, hs⟩ := declare_spec r name true
  obtain ⟨he', hd', -, -⟩ := define_same (expr e (r.declare name true)) name
  have hpart' : Part (resolve p).distances e.slots (r.declare name true) (expr e (r.declare name true)) :=
    hpart.inner hd (fun h => he' ▸ h) hd'
  obtain ⟨-, -, hbegin⟩ := hs (hpart'.before hw)
  refine ⟨htidy e rfl, hpart', ?_, ?_, layered_begin hstand.layered hhead hname, ?_⟩
  · rw [hbegin, namesOf_begin, hstand.scopes]
  · rw [frames_begin, hc, hstand.context]
  · rw [tail_begin]
    exact complete_tail hcomplete

/-- A block is resolved in a scope of its own. -/
theorem visited_block {body : List Stmt} (h : Visited p (.stmt (.block body)) r os) :
    Visited p (.stmts body) (r.enter ∅) (⟨.block body, []⟩ :: os) := by
  obtain ⟨htidy, hpart, hstand, hcomplete, -⟩ := h
  have hpart' : Part (resolve p).distances (Stmt.slotsAll body) (r.enter ∅) (stmts body (r.enter ∅)) :=
    Part.leave (hpart.inner rfl id rfl)
  refine ⟨htidy, hpart', ⟨?_, hstand.context, .block (by simp) hstand.layered, hcomplete⟩, ?_, trivial⟩
  · show _ :: outline r.scopes = _
    rw [hstand.scopes]
    rfl
  · intro o ho
    rcases List.mem_cons.mp ho with rfl | ho
    · simp
    · exact hcomplete o ho

/-- A function is resolved behind its own name. -/
theorem visited_fun {f : Routine} (h : Visited p (.stmt (.fun_ f)) r os) :
    Visited p (.routine .function f) ((r.declare f.name true).define f.name) (declare [f.name.text] os) := by
  obtain ⟨⟨hname, htidy⟩, hpart, hstand, hcomplete, hhead⟩ := h
  have hw := walked_declared r f.name true
  have hpart' : Part (resolve p).distances (Stmt.routineSlots f) ((r.declare f.name true).define f.name) _ :=
    Part.right hpart hw.table
  have he := hpart'.before (walked_routine .function f htidy _)
  refine ⟨htidy, hpart', hstand.declared hhead hw he ?_, complete_declare _ hcomplete⟩
  intro x hx
  rw [List.mem_singleton.mp hx]
  exact hname

theorem closeClass_eq (r : Resolver) (outer : ClassContext) (superclass : Option Reference) :
    (r.closeClass outer superclass).distances = r.distances ∧
    ((r.closeClass outer superclass).errors = #[] → r.errors = #[]) := by
  obtain ⟨errors, he, hm⟩ := leave_eq r
  cases superclass with
  | none =>
    show r.leave.distances = r.distances ∧ (r.leave.errors = #[] → r.errors = #[])
    rw [he]
    exact ⟨rfl, hm⟩
  | some parent =>
    obtain ⟨errors', he', hm'⟩ := leave_eq r.leave
    show r.leave.leave.distances = r.distances ∧ (r.leave.leave.errors = #[] → r.errors = #[])
    rw [he'] at *
    rw [he] at hm' ⊢
    exact ⟨rfl, fun h => hm (hm' h)⟩

theorem table_openClass (r : Resolver) (name : Lexeme) (superclass : Option Reference) (x : Int)
    (hx : x ∉ superclass.elim [] fun parent => [parent.slot]) :
    (r.openClass name superclass).distances[x]? = r.distances[x]? := by
  cases superclass with
  | none =>
    show (r.named name).distances[x]? = _
    rw [distances_named]
  | some parent =>
    have hread := (walked_readVariable ((r.named name).beforeParent name parent) parent).table x hx
    rw [(beforeParent_same ..).1, distances_named] at hread
    exact hread

/-- The walk of the methods in the walk of their class. -/
theorem part_methods {name : Lexeme} {superclass : Option Reference} {ms : List Routine}
    (h : Part table (Stmt.class_ name superclass ms).slots r (stmt (.class_ name superclass ms) r)) :
    Part table (superclass.elim [] (fun parent => [parent.slot]) ++ Stmt.methodSlots ms) r
      (methodBodies ms (r.openClass name superclass)) := by
  obtain ⟨hd, he⟩ := closeClass_eq (methodBodies ms (r.openClass name superclass)) r.class_ superclass
  exact Part.inner h rfl he hd

/-- A superclass is resolved while the class is announced. -/
theorem visited_parent {name : Lexeme} {target : Reference} {ms : List Routine}
    (h : Visited p (.stmt (.class_ name (some target) ms)) r os) :
    Visited p (.parent name target) (r.named name) (begin_ name.text os) := by
  obtain ⟨⟨hname, htarget, htidy⟩, hpart, hstand, hcomplete, hhead⟩ := h
  have hopen := (part_methods hpart).left (walked_methods ms htidy _)
  have hpart' : Part (resolve p).distances [target.slot] (r.named name)
      (((r.named name).beforeParent name target).readVariable target) :=
    hopen.inner (distances_named ..) id rfl
  have hopened : (r.openClass name (some target)).errors = #[] := hopen.errors
  have hnamed := errors_openClass hopened
  obtain ⟨-, -, -, hs⟩ := declare_spec { r with class_ := .class_ } name true
  obtain ⟨he', -, -, -⟩ := define_same ({ r with class_ := .class_ }.declare name true) name
  obtain ⟨-, -, hbegin⟩ := hs (he' ▸ hnamed)
  refine ⟨htarget target rfl, hpart', ?_, layered_begin hstand.layered hhead hname, ?_⟩
  · show outline (r.named name).scopes = _
    rw [named, outline_define, hbegin, namesOf_begin, ← hstand.scopes]
  · rw [tail_begin]
    exact complete_tail hcomplete

/-- Methods are resolved in the scopes that their class opens. -/
theorem visited_methods {name : Lexeme} {superclass : Option Reference} {ms : List Routine}
    (h : Visited p (.stmt (.class_ name superclass ms)) r os) :
    Visited p (.methods ms) (r.openClass name superclass) (ofClass superclass ms (declare [name.text] os)) := by
  obtain ⟨⟨hname, htarget, htidy⟩, hpart, hstand, hcomplete, hhead⟩ := h
  have hpart' := (part_methods hpart).right (table_openClass r name superclass)
  have he := hpart'.before (walked_methods ms htidy _)
  have hcomplete' := complete_ofClass superclass ms (complete_declare [name.text] hcomplete)
  have hplain : ∀ x ∈ [name.text], x ≠ thisName ∧ x ≠ superName := fun x hx => List.mem_singleton.mp hx ▸ hname
  have hlayered := layered_declare hstand.layered hhead hplain
  refine ⟨htidy, hpart', ⟨outline_openClass hstand.scopes he, ?_, .class_ hlayered, complete_tail hcomplete'⟩,
    hcomplete'⟩
  exact class_openClass r name superclass

/-- A body is resolved in a scope with the parameters. -/
theorem visited_body {context : RoutineContext} {f : Routine} (h : Visited p (.routine context f) r os) :
    Visited p (.stmts f.body) (f.params.foldl param ({ r with routine := context }.enter ∅)) (ofRoutine f :: os) := by
  obtain ⟨htidy, hpart, hstand, hcomplete⟩ := h
  obtain ⟨name, params, body⟩ := f
  obtain ⟨hparams, hbody⟩ := htidy
  have hw := walked_params params (({ r with routine := context } : Resolver).enter ∅)
  have hinner : Part (resolve p).distances (Stmt.slotsAll body) (({ r with routine := context } : Resolver).enter ∅)
      (stmts body (params.foldl param (({ r with routine := context } : Resolver).enter ∅))) :=
    Part.leave (hpart.inner rfl id rfl)
  have hpart' : Part (resolve p).distances (Stmt.slotsAll body)
      (params.foldl param (({ r with routine := context } : Resolver).enter ∅)) _ :=
    Part.right hinner hw.table
  have he := hpart'.before (walked_stmts body hbody _)
  have hnames : ∀ entry ∈ (ofRoutine ⟨name, params, body⟩).names, entry.1 ≠ thisName ∧ entry.1 ≠ superName := by
    intro entry hm
    obtain ⟨x, hx, rfl⟩ := List.mem_map.mp hm
    exact hparams x hx
  have hcomplete' : Complete (ofRoutine ⟨name, params, body⟩ :: os) := by
    intro o ho
    rcases List.mem_cons.mp ho with rfl | ho
    · intro entry hm
      obtain ⟨x, -, rfl⟩ := List.mem_map.mp hm
      rfl
    · exact hcomplete o ho
  refine ⟨hbody, hpart', ⟨?_, ?_, .routine hnames hstand.layered, hcomplete⟩, hcomplete', trivial⟩
  · rw [hw.scopes he]
    show addNames _ ([] :: outline r.scopes) = _
    rw [hstand.scopes]
    simp [addNames, namesOf, ofRoutine]
  · rw [hw.class_]
    exact hstand.context

theorem Standing.same (h : Standing r os ∧ Complete os ∧ IsPlainHead os) (hw : Walked slots [] r r₁)
    (he : r₁.errors = #[]) : Standing r₁ os ∧ Complete os ∧ IsPlainHead os :=
  ⟨h.1.walked hw he, h.2⟩

/-- A statement that declares nothing, and what is walked after it. -/
theorem walked_branch {s : Stmt} (h : s.Tidy ∧ s.declares? = none) (r : Resolver) : Walked s.slots [] r (stmt s r) := by
  have hw := walked_stmt s h.1 r
  rwa [declared_none h.2] at hw

/-- A statement is resolved behind those before it. -/
theorem visited_next {s : Stmt} {rest : List Stmt} (h : Visited p (.stmts (s :: rest)) r os) :
    Visited p (.stmts rest) (stmt s r) (declare (declared s) os) := by
  obtain ⟨⟨hs, hrest⟩, hpart, hstand, hcomplete, hhead⟩ := h
  have hw := walked_stmt s hs r
  have hpart' : Part (resolve p).distances (Stmt.slotsAll rest) (stmt s r) (stmts rest (stmt s r)) :=
    hpart.right hw.table
  have he := hpart'.before (walked_stmts rest hrest _)
  exact ⟨hrest, hpart', hstand.declared hhead hw he (declared_plain hs), complete_declare _ hcomplete,
    isPlainHead_declare _ hhead⟩

/-- A condition, then its branches. -/
theorem visited_cond {e : Expr} {yes : Stmt} {no : Option Stmt} (h : Visited p (.stmt (.cond e yes no)) r os) :
    Visited p (.expr e) r os ∧ Visited p (.stmt yes) (expr e r) os ∧
    ∀ s ∈ no, Visited p (.stmt s) (stmt yes (expr e r)) os := by
  obtain ⟨⟨htest, hyes, hno⟩, hpart, hstand⟩ := h
  have hw := walked_expr e r
  have hw' := walked_branch hyes (expr e r)
  have hw'' := walked_stmtOpt no hno (stmt yes (expr e r))
  have hpart' : Part (resolve p).distances _ (expr e r) (stmtOpt no (stmt yes (expr e r))) := hpart.right hw.table
  refine ⟨⟨htest, hpart.left (hw'.trans hw''), hstand.1⟩,
    ⟨hyes.1, hpart'.left hw'', Standing.same hstand hw (hpart'.before (hw'.trans hw''))⟩, fun s hs => ?_⟩
  cases hs
  have hpart'' := hpart'.right hw'.table
  have he := hpart''.before hw''
  exact ⟨hno.1, hpart'', Standing.same hstand (hw.trans hw') he⟩

/-- A condition, then the body, then the step. -/
theorem visited_loop {e : Expr} {body : Stmt} {step : Option Expr} (h : Visited p (.stmt (.loop e body step)) r os) :
    Visited p (.expr e) r os ∧ Visited p (.stmt body) (expr e r) os ∧
    ∀ x ∈ step, Visited p (.expr x) (stmt body (expr e r)) os := by
  obtain ⟨⟨htest, hbody, hstep⟩, hpart, hstand⟩ := h
  have hw := walked_expr e r
  have hw' := walked_branch hbody (expr e r)
  have hw'' := walked_exprOpt step (stmt body (expr e r))
  have hpart' : Part (resolve p).distances _ (expr e r) (exprOpt step (stmt body (expr e r))) := hpart.right hw.table
  refine ⟨⟨htest, hpart.left (hw'.trans hw''), hstand.1⟩,
    ⟨hbody.1, hpart'.left hw'', Standing.same hstand hw (hpart'.before (hw'.trans hw''))⟩, fun x hx => ?_⟩
  cases hx
  have hpart'' := hpart'.right hw'.table
  exact ⟨hstep x rfl, hpart'', hstand.1.walked (hw.trans hw') (hpart''.before hw'')⟩

theorem visited_returned {keyword : Lexeme} {e : Expr} (h : Visited p (.stmt (.return_ keyword (some e))) r os) :
    Visited p (.expr e) (r.checkReturn keyword true) os := by
  obtain ⟨htidy, hpart, hstand⟩ := h
  have hw := walked_checkReturn r keyword true
  have hsplit : Part (resolve p).distances ([] ++ e.slots) r (expr e (r.checkReturn keyword true)) := hpart
  have hpart' := hsplit.right hw.table
  exact ⟨htidy e rfl, hpart', hstand.1.walked hw (hpart'.before (walked_expr e _))⟩

theorem visited_method {m : Routine} {rest : List Routine} (h : Visited p (.methods (m :: rest)) r os) :
    Visited p (.routine (methodContext m) m) r os ∧ Visited p (.methods rest) (routineBody (methodContext m) m r)
      os := by
  obtain ⟨⟨hm, hrest⟩, hpart, hstand, hcomplete⟩ := h
  have hw := walked_routine (methodContext m) m hm r
  have hw' := walked_methods rest hrest (routineBody (methodContext m) m r)
  have hpart' : Part (resolve p).distances _ (routineBody (methodContext m) m r) _ := hpart.right hw.table
  exact ⟨⟨hm, hpart.left hw', hstand, hcomplete⟩, hrest, hpart', hstand.walked hw (hpart'.before hw'), hcomplete⟩

/-! ### Expressions -/

/-- Two expressions, one walked after the other. -/
theorem visited_both {a b : Expr} (ha : a.Tidy) (hb : b.Tidy)
    (h : Part (resolve p).distances (a.slots ++ b.slots) r (expr b (expr a r))) (hs : Standing r os) :
    Visited p (.expr a) r os ∧ Visited p (.expr b) (expr a r) os := by
  have hw := walked_expr a r
  have hw' := walked_expr b (expr a r)
  exact ⟨⟨ha, h.left hw', hs⟩, hb, h.right hw.table, hs.walked hw (hw'.errors h.errors)⟩

theorem visited_ternary {a b c : Expr} (h : Visited p (.expr (.ternary a b c)) r os) :
    Visited p (.expr a) r os ∧ Visited p (.expr b) (expr a r) os ∧ Visited p (.expr c) (expr b (expr a r)) os := by
  obtain ⟨⟨ha, hb, hc⟩, hpart, hs⟩ := h
  have hw := walked_expr a r
  have hw' := (walked_expr b (expr a r)).trans (walked_expr c _)
  have hpart' := Part.right hpart hw.table
  exact ⟨⟨ha, hpart.left hw', hs⟩, visited_both hb hc hpart' (hs.walked hw (hpart'.before hw'))⟩

theorem visited_set {o v : Expr} {name : Lexeme} (h : Visited p (.expr (.set o name v)) r os) :
    Visited p (.expr v) r os ∧ Visited p (.expr o) (expr v r) os := by
  obtain ⟨⟨ho, hv⟩, hpart, hs⟩ := h
  refine visited_both hv ho ⟨hpart.errors, ?_, fun x hx => hpart.table x ?_, fun x hx => hpart.fresh x ?_⟩ hs
  · exact List.perm_append_comm.nodup_iff.mp hpart.nodup
  all_goals exact List.perm_append_comm.mem_iff.mp hx

theorem visited_value {target : Reference} {e : Expr} (h : Visited p (.expr (.assign target e)) r os) :
    Visited p (.expr e) r os := by
  obtain ⟨htidy, hpart, hs⟩ := h
  exact ⟨htidy.2, hpart.left (walked_write _ target), hs⟩

theorem visited_call {f : Expr} {paren : Lexeme} {es : List Expr} (h : Visited p (.expr (.call f paren es)) r os) :
    Visited p (.expr f) r os ∧ Visited p (.exprs es) (expr f r) os := by
  obtain ⟨⟨hf, hes⟩, hpart, hs⟩ := h
  have hw := walked_expr f r
  have hw' := walked_exprs es (expr f r)
  exact ⟨⟨hf, hpart.left hw', hs⟩, hes, hpart.right hw.table, hs.walked hw (hw'.errors hpart.errors)⟩

theorem visited_arguments {e : Expr} {es : List Expr} (h : Visited p (.exprs (e :: es)) r os) :
    Visited p (.expr e) r os ∧ Visited p (.exprs es) (expr e r) os := by
  obtain ⟨⟨he, hes⟩, hpart, hs⟩ := h
  have hw := walked_expr e r
  have hw' := walked_exprs es (expr e r)
  exact ⟨⟨he, hpart.left hw', hs⟩, hes, hpart.right hw.table, hs.walked hw (hw'.errors hpart.errors)⟩

/-! ### The whole walk -/

/-- A program that has been read and resolved without an error. -/
structure Accepted (p : List Stmt) : Prop where
  tidy : Stmt.TidyAll p
  slots : (Stmt.slotsAll p).Nodup
  resolved : (resolve p).errors = []

theorem visited_root (h : Accepted p) : Visited p (.stmts p) start [] := by
  have he : (stmts p start).errors = #[] := by
    have := h.resolved
    simpa [resolve] using this
  refine ⟨h.tidy, ⟨he, h.slots, fun _ _ => rfl, fun _ _ => rfl⟩, ⟨rfl, rfl, .nil, ?_⟩, ?_, trivial⟩
  all_goals exact fun _ ho => absurd ho List.not_mem_nil

/-- Wherever the walk comes, the scopes of the resolver are the open ones. -/
theorem resolved (hp : Accepted p) (h : Within p site r os) : Visited p site r os := by
  induction h with
  | root => exact visited_root hp
  | @first s rest r os _ ih =>
    obtain ⟨htidy, hpart, hstand⟩ := ih
    exact ⟨htidy.1, hpart.left (walked_stmts rest htidy.2 _), hstand⟩
  | next _ ih => exact visited_next ih
  | effect _ ih | printed _ ih => exact ⟨ih.tidy, ih.part, ih.stands.1⟩
  | init _ ih => exact visited_init ih
  | block _ ih => exact visited_block ih
  | condTest _ ih => exact (visited_cond ih).1
  | condYes _ ih => exact (visited_cond ih).2.1
  | condNo _ ih => exact (visited_cond ih).2.2 _ rfl
  | loopTest _ ih => exact (visited_loop ih).1
  | loopBody _ ih => exact (visited_loop ih).2.1
  | loopStep _ ih => exact (visited_loop ih).2.2 _ rfl
  | fun_ _ ih => exact visited_fun ih
  | returned _ ih => exact visited_returned ih
  | parent _ ih => exact visited_parent ih
  | methods _ ih => exact visited_methods ih
  | method _ ih => exact (visited_method ih).1
  | nextMethod _ ih => exact (visited_method ih).2
  | body _ ih => exact visited_body ih
  | group _ ih | operand _ ih | object _ ih => exact ⟨ih.tidy, ih.part, ih.stands⟩
  | left _ ih | logicalLeft _ ih => exact (visited_both ih.tidy.1 ih.tidy.2 ih.part ih.stands).1
  | right _ ih | logicalRight _ ih => exact (visited_both ih.tidy.1 ih.tidy.2 ih.part ih.stands).2
  | ternaryTest _ ih => exact (visited_ternary ih).1
  | ternaryYes _ ih => exact (visited_ternary ih).2.1
  | ternaryNo _ ih => exact (visited_ternary ih).2.2
  | value _ ih => exact visited_value ih
  | callee _ ih => exact (visited_call ih).1
  | arguments _ ih => exact (visited_call ih).2
  | argument _ ih => exact (visited_arguments ih).1
  | nextArguments _ ih => exact (visited_arguments ih).2
  | setObject _ ih => exact (visited_set ih).2
  | setValue _ ih => exact (visited_set ih).1

end Lox
