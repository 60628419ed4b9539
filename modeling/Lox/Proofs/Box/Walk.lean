/-
  Lox.Proofs.Box.Walk — the resolver walks a program with blocks around parts of it as it
  walks the program: its scopes are the same but for empty ones between them (`Beside`),
  and where the program is without an error so is the other one (`beside_walk`,
  `accepted_wrapped`).

  A list of marks says which scopes the second walk alone has. Nothing is declared in
  those, so a name is found in the same scope, further out or not, and closing one of
  them reports nothing.
-/

import Lox.Proofs.Box.Wraps
import Lox.Proofs.Scope.Table

namespace Lox

/-! ## Scopes with empty ones between them -/

/-- The second scopes are the first ones and, at the marks, empty ones. -/
inductive Padded : List Bool → List Scope → List Scope → Prop
  | nil : Padded [] [] []
  | shared {s : Scope} {fs : List Bool} {ss ss' : List Scope} : Padded fs ss ss' → Padded (false :: fs)
    (s :: ss) (s :: ss')
  | added {fs : List Bool} {ss ss' : List Scope} : Padded fs ss ss' → Padded (true :: fs) ss (∅ :: ss')

/-- The innermost scope is in both walks. -/
def IsShared (fs : List Bool) : Prop := fs.headD false = false

theorem isShared_cons (fs : List Bool) : IsShared (false :: fs) := rfl

variable {fs : List Bool} {ss ss' : List Scope} {x : String}

/-- A scope without names hides nothing. -/
theorem Padded.found (h : Padded fs ss ss') (x : String) : (hops? x ss').isSome = (hops? x ss).isSome := by
  induction h with
  | nil => rfl
  | @shared s fs ss ss' _ ih =>
    unfold hops?
    split
    · rfl
    · rw [Option.isSome_map, Option.isSome_map, ih]
  | added _ ih =>
    show (Option.map (· + 1) _).isSome = _
    rw [Option.isSome_map, ih]

/-- A name is touched in the same scope. -/
theorem Padded.touch (h : Padded fs ss ss') (x : String) : Padded fs (touch x ss) (touch x ss') := by
  induction h with
  | nil => exact .nil
  | @shared s fs ss ss' hrest ih =>
    unfold Lox.touch
    split
    · exact .shared hrest
    · exact .shared ih
  | added _ ih => exact .added ih

/-! ## Two walks -/

namespace Resolver

variable {r r' : Resolver} {name : Lexeme} {target : Reference} {watched : Bool}

/-- Two walks at the same place: all but the table is the same, empty scopes apart. -/
structure Beside (fs : List Bool) (r r' : Resolver) : Prop where
  scopes : Padded fs r.scopes r'.scopes
  routine : r'.routine = r.routine
  class_ : r'.class_ = r.class_
  errors : r'.errors = r.errors

namespace Beside

theorem report (h : Beside fs r r') (name : Lexeme) (fault : BindingFault) :
    Beside fs (r.report name fault) (r'.report name fault) := by
  refine ⟨h.scopes, h.routine, h.class_, ?_⟩
  unfold Resolver.report
  rw [h.errors]

theorem inClass (h : Beside fs r r') (c : ClassContext) : Beside fs { r with class_ := c } { r' with class_ := c } :=
  ⟨h.scopes, h.routine, rfl, h.errors⟩

theorem inRoutine (h : Beside fs r r') (c : RoutineContext) :
    Beside fs { r with routine := c } { r' with routine := c } :=
  ⟨h.scopes, rfl, h.class_, h.errors⟩

/-! ### Opening and closing -/

theorem enter (h : Beside fs r r') (s : Scope) : Beside (false :: fs) (r.enter s) (r'.enter s) :=
  ⟨.shared h.scopes, h.routine, h.class_, h.errors⟩

theorem enterAlone (h : Beside fs r r') : Beside (true :: fs) r (r'.enter ∅) :=
  ⟨.added h.scopes, h.routine, h.class_, h.errors⟩

theorem reportUnused (h : Beside fs r r') (entry : String × Local) :
    Beside fs (r.reportUnused entry) (r'.reportUnused entry) := by
  unfold Resolver.reportUnused
  split
  · exact h.report ..
  · exact h

theorem reportAll (h : Beside fs r r') (entries : List (String × Local)) :
    Beside fs (entries.foldl Resolver.reportUnused r) (entries.foldl Resolver.reportUnused r') := by
  induction entries generalizing r r' with
  | nil => exact h
  | cons entry rest ih => exact ih (h.reportUnused entry)

/-- The scope that is left is not a padding one. -/
theorem leave (h : Beside (false :: fs) r r') : Beside fs r.leave r'.leave := by
  obtain ⟨scopes, context, outer, distances, errors⟩ := r
  obtain ⟨scopes', context', outer', distances', errors'⟩ := r'
  obtain ⟨hs, hr, hc, he⟩ := h
  cases hs with
  | @shared s _ ss ss' hrest =>
    have hleft : Beside fs ⟨ss, context, outer, distances, errors⟩ ⟨ss', context', outer', distances', errors'⟩ :=
      ⟨hrest, hr, hc, he⟩
    exact hleft.reportAll s.entries

/-- Of a scope in which nothing is declared nothing is reported. -/
theorem leaveAlone (h : Beside (true :: fs) r r') : Beside fs r r'.leave := by
  obtain ⟨scopes', context', outer', distances', errors'⟩ := r'
  obtain ⟨hs, hr, hc, he⟩ := h
  cases hs with
  | added hrest => exact ⟨hrest, hr, hc, he⟩

/-! ### Declarations and uses -/

/-- A declaration goes to the innermost scope, which both have. -/
theorem declare (h : Beside fs r r') (hf : IsShared fs) (name : Lexeme) (watched : Bool) :
    Beside fs (r.declare name watched) (r'.declare name watched) := by
  obtain ⟨scopes, context, outer, distances, errors⟩ := r
  obtain ⟨scopes', context', outer', distances', errors'⟩ := r'
  have hscopes := h.scopes
  cases hscopes with
  | nil => exact h
  | added => cases hf
  | @shared s fs ss ss' hrest =>
    unfold Resolver.declare
    simp only
    split
    · exact h.report ..
    · exact ⟨.shared hrest, h.routine, h.class_, h.errors⟩

theorem define (h : Beside fs r r') (hf : IsShared fs) (name : Lexeme) :
    Beside fs (r.define name) (r'.define name) := by
  obtain ⟨scopes, context, outer, distances, errors⟩ := r
  obtain ⟨scopes', context', outer', distances', errors'⟩ := r'
  have hscopes := h.scopes
  cases hscopes with
  | nil => exact h
  | added => cases hf
  | shared hrest => exact ⟨.shared hrest, h.routine, h.class_, h.errors⟩

theorem write (h : Beside fs r r') (target : Reference) : Beside fs (r.write target) (r'.write target) := by
  unfold Resolver.write
  split <;> split <;> exact ⟨h.scopes, h.routine, h.class_, h.errors⟩

/-- A name has the same scope in both, at its own distance in each. -/
theorem read (h : Beside fs r r') (target : Reference) : Beside fs (r.read target) (r'.read target) := by
  have hfound := h.scopes.found target.name.text
  unfold Resolver.read
  split
  next d hd =>
    split
    next d' hd' => exact ⟨h.scopes.touch _, h.routine, h.class_, h.errors⟩
    next hd' => simp [hd, hd'] at hfound
  next hd =>
    split
    next d' hd' => simp [hd, hd'] at hfound
    next => exact h

theorem isPending (h : Beside fs r r') (hp : r.isPending x = false) : r'.isPending x = false := by
  obtain ⟨scopes, context, outer, distances, errors⟩ := r
  obtain ⟨scopes', context', outer', distances', errors'⟩ := r'
  have hscopes := h.scopes
  cases hscopes with
  | nil => rfl
  | added => rfl
  | shared => exact hp

theorem readVariable (h : Beside fs r r') (he : (r.readVariable target).errors = #[]) :
    Beside fs (r.readVariable target) (r'.readVariable target) := by
  obtain ⟨hpending, hread⟩ := readVariable_eq he
  have hread' : r'.readVariable target = r'.read target := by
    rw [Resolver.readVariable, h.isPending hpending]
    rfl
  rw [hread, hread']
  exact h.read target

theorem this (h : Beside fs r r') (keyword : Reference) : Beside fs (r.this keyword) (r'.this keyword) := by
  unfold Resolver.this
  rw [h.class_]
  split
  · exact h.report ..
  · exact h.read _

theorem super (h : Beside fs r r') (keyword : Reference) : Beside fs (r.super keyword) (r'.super keyword) := by
  unfold Resolver.super
  rw [h.class_]
  split
  · exact h.report ..
  · exact h.report ..
  · exact h.read _

/-! ### Expressions -/

mutual

/-- Expressions, by recursion on the tree. -/
theorem expr : ∀ (e : Expr) {r r' : Resolver}, Beside fs r r' → (expr e r).errors = #[] →
    Beside fs (Resolver.expr e r) (Resolver.expr e r')
  | .literal _, _, _, h, _ => h
  | .group inner, _, _, h, he => expr inner h he
  | .unary _ operand, _, _, h, he => expr operand h he
  | .binary left _ right, _, _, h, he => expr right (expr left h ((walked_expr right _).errors he)) he
  | .logical left _ right, _, _, h, he => expr right (expr left h ((walked_expr right _).errors he)) he
  | .ternary cond yes no, _, _, h, he => by
    have hyes := (walked_expr no _).errors he
    exact expr no (expr yes (expr cond h ((walked_expr yes _).errors hyes)) hyes) he
  | .ref _, _, _, h, he => h.readVariable he
  | .assign target value, _, _, h, he => (expr value h ((walked_write _ target).errors he)).write target
  | .call callee _ args, _, _, h, he => exprs args (expr callee h ((walked_exprs args _).errors he)) he
  | .get object _, _, _, h, he => expr object h he
  | .set object _ value, _, _, h, he => expr object (expr value h ((walked_expr object _).errors he)) he
  | .this keyword, _, _, h, _ => h.this keyword
  | .super keyword _, _, _, h, _ => h.super keyword

theorem exprs : ∀ (es : List Expr) {r r' : Resolver}, Beside fs r r' → (exprs es r).errors = #[] →
    Beside fs (Resolver.exprs es r) (Resolver.exprs es r')
  | [], _, _, h, _ => h
  | e :: rest, _, _, h, he => exprs rest (expr e h ((walked_exprs rest _).errors he)) he

end

theorem exprOpt (e : Option Expr) (h : Beside fs r r') (he : (exprOpt e r).errors = #[]) :
    Beside fs (Resolver.exprOpt e r) (Resolver.exprOpt e r') := by
  cases e with
  | none => exact h
  | some e => exact h.expr e he

/-! ### Around routines and methods -/

theorem params (h : Beside fs r r') (hf : IsShared fs) (params : List Lexeme) :
    Beside fs (params.foldl param r) (params.foldl param r') := by
  induction params generalizing r r' with
  | nil => exact h
  | cons p rest ih => exact ih ((h.declare hf p false).define hf p)

theorem checkReturn (h : Beside fs r r') (keyword : Lexeme) (hasValue : Bool) :
    Beside fs (r.checkReturn keyword hasValue) (r'.checkReturn keyword hasValue) := by
  unfold Resolver.checkReturn
  rw [h.routine]
  split
  · exact h.report ..
  · split
    · exact h.report ..
    · exact h
  · exact h

theorem beforeParent (h : Beside fs r r') (name : Lexeme) (parent : Reference) :
    Beside fs (r.beforeParent name parent) (r'.beforeParent name parent) := by
  unfold Resolver.beforeParent
  split
  · exact (h.report ..).inClass _
  · exact h.inClass _

/-- The scopes that a class opens. -/
def ofClass (superclass : Option Reference) (fs : List Bool) : List Bool :=
  false :: superclass.elim fs fun _ => false :: fs

theorem openClass {superclass : Option Reference} (h : Beside fs r r') (hf : IsShared fs)
    (he : (r.openClass name superclass).errors = #[]) :
    Beside (ofClass superclass fs) (r.openClass name superclass) (r'.openClass name superclass) := by
  have hname : Beside fs (r.named name) (r'.named name) := ((h.inClass .class_).declare hf name true).define hf name
  cases superclass with
  | none => exact hname.enter _
  | some parent => exact (((hname.beforeParent name parent).readVariable he).enter _).enter _

theorem closeClass {superclass : Option Reference} (h : Beside (ofClass superclass fs) r r') (outer : ClassContext) :
    Beside fs (r.closeClass outer superclass) (r'.closeClass outer superclass) := by
  cases superclass with
  | none => exact h.leave.inClass outer
  | some parent => exact h.leave.leave.inClass outer

end Beside

end Resolver

/-! ### Statements -/

/-- What is declared where the site stands is declared in both walks. -/
def Site.Fits (fs : List Bool) : Site → Prop
  | .stmts _ => IsShared fs
  | .stmt s => s.declares? = none ∨ IsShared fs
  | _ => True

theorem fits_declaring {s : Stmt} {name : Lexeme} (h : Site.Fits fs (.stmt s)) (hs : s.declares? = some name) :
    IsShared fs := by
  rcases h with h | h
  · rw [hs] at h
    cases h
  · exact h

open Resolver

variable {boxes : Prop} {site site' : Site} {r r' : Resolver} {p p' : List Stmt}

theorem errors_of_leave (h : r.leave.errors = #[]) : r.errors = #[] := by
  obtain ⟨errors, hleave, hmono⟩ := leave_eq r
  rw [hleave] at h
  exact hmono h

/-- A part without an error and the same part with blocks. -/
theorem beside_walk (h : Wraps boxes site site') (ht : site.Tidy) (hf : site.Fits fs) (hr : Beside fs r r')
    (he : (site.walk r).errors = #[]) : Beside fs (site.walk r) (site'.walk r') := by
  induction h generalizing fs r r' with
  | nil | noMethod => exact hr
  | @cons s s' rest rest' _ _ ih ih' =>
    -- No error is ever taken back, so there is none behind the first statement either.
    have hfirst := (walked_stmts rest ht.2 (stmt s r)).errors he
    exact ih' ht.2 hf (ih ht.1 (Or.inr hf) hr hfirst) he
  | effect | printed => exact hr.expr _ he
  | @var name init =>
    have hshared := fits_declaring hf rfl
    have hinit : (exprOpt init (r.declare name true)).errors = #[] := (define_same _ name).1 ▸ he
    exact ((hr.declare hshared name true).exprOpt init hinit).define hshared name
  | @block body body' _ ih =>
    have hbody : (stmts body (r.enter ∅)).errors = #[] := errors_of_leave he
    exact (ih ht (isShared_cons fs) (hr.enter ∅) hbody).leave
  | @cond e yes yes' _ ih =>
    have htest := (walked_stmt yes ht.2.1.1 (expr e r)).errors he
    exact ih ht.2.1.1 (Or.inl ht.2.1.2) (hr.expr e htest) he
  | @condElse e yes yes' no no' _ _ ih ih' =>
    have hyes := (walked_stmt no ht.2.2.1 (stmt yes (expr e r))).errors he
    have htest := (walked_stmt yes ht.2.1.1 (expr e r)).errors hyes
    exact ih' ht.2.2.1 (Or.inl ht.2.2.2) (ih ht.2.1.1 (Or.inl ht.2.1.2) (hr.expr e htest) hyes) he
  | @loop e body body' step _ ih =>
    have hbody := (walked_exprOpt step (stmt body (expr e r))).errors he
    have htest := (walked_stmt body ht.2.1.1 (expr e r)).errors hbody
    exact (ih ht.2.1.1 (Or.inl ht.2.1.2) (hr.expr e htest) hbody).exprOpt step he
  | break_ | continue_ => exact hr
  | @fun_ f f' hb ih =>
    have hshared := fits_declaring hf rfl
    have hname : f'.name = f.name := hb.parts.2.1
    have hdeclared := (hr.declare hshared f.name true).define hshared f.name
    have hbody := ih ht.2 trivial hdeclared he
    simp only [Site.walk, Resolver.stmt, hname] at hbody ⊢
    exact hbody
  | @returned keyword value => exact (hr.checkReturn keyword value.isSome).exprOpt value he
  | @class_ name superclass ms ms' _ ih =>
    have hshared := fits_declaring hf rfl
    have hmethods : (methodBodies ms (r.openClass name superclass)).errors = #[] := (closeClass_eq _ _ _).2 he
    have hopen := (walked_methods ms ht.2.2 (r.openClass name superclass)).errors hmethods
    have hbody := ih ht.2.2 trivial (hr.openClass hshared hopen) hmethods
    have hclosed := hbody.closeClass r.class_
    simp only [Site.walk, Resolver.stmt, hr.class_]
    exact hclosed
  | @method m m' rest rest' hb _ ih ih' =>
    have hname : methodContext m' = methodContext m := by
      unfold methodContext Routine.isInit
      rw [hb.parts.2.1]
    have hfirst := (walked_methods rest ht.2 (routineBody (methodContext m) m r)).errors he
    have hrest := ih' ht.2 trivial (ih ht.1 trivial hr hfirst) he
    simp only [Site.walk, Resolver.methodBodies] at hrest ⊢
    rw [← methodContext, ← methodContext, hname]
    exact hrest
  | @routine context name params body body' _ ih =>
    have hopened := ((hr.inRoutine context).enter ∅).params (isShared_cons fs) params
    have hbody : (stmts body (params.foldl param ({ r with routine := context }.enter ∅))).errors = #[] :=
      errors_of_leave he
    have hwalked := (ih ht.2 (isShared_cons fs) hopened hbody).leave.inRoutine r.routine
    simp only [Site.walk, Resolver.routineBody, hr.routine]
    exact hwalked
  | box _ hs _ ih => exact (ih ht (Or.inl hs) hr.enterAlone he).leaveAlone
  | @step e step body body' _ _ ih =>
    -- The step is resolved behind the body in both, in the scope of the block in the second.
    have hbody := (walked_exprOpt (some step) (stmt body (expr e r))).errors he
    have htest := (walked_stmt body ht.2.1.1 (expr e r)).errors hbody
    exact ((ih ht.2.1.1 (Or.inl ht.2.1.2) (hr.expr e htest).enterAlone hbody).expr step he).leaveAlone

/-- A program with blocks around parts of it is accepted when the program is. -/
theorem accepted_wrapped (hp : Accepted p) (h : Wraps boxes (.stmts p) (.stmts p')) : Accepted p' := by
  have he : (stmts p start).errors = #[] := by simpa [resolve] using hp.resolved
  have hshared : IsShared [] := rfl
  have hwalk := beside_walk h hp.tidy hshared ⟨.nil, rfl, rfl, rfl⟩ he
  have hslots : Stmt.slotsAll p' = Stmt.slotsAll p := h.slots
  refine ⟨h.tidy hp.tidy, hslots ▸ hp.slots, ?_⟩
  have hsame : (stmts p' start).errors = (stmts p start).errors := hwalk.errors
  rw [resolve, hsame, he]

end Lox
