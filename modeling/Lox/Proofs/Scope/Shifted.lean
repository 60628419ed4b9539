/-
  Lox.Proofs.Scope.Shifted — the resolver walks a shifted program as it walks the program,
  also behind another one (`moved_stmts`): it reports the same on the shifted lines, behind
  what it has reported, and puts the same distances at the shifted slots, beside those that
  it has.

  So a program with other slots and on other lines is accepted when the program is
  (`resolve_shift`), and two programs one behind the other have the errors and the
  distances of both (`resolve_append`).
-/

import Lox.Proofs.Scope.Framed
import Lox.Proofs.Tree.Shift

namespace Lox

namespace Shift

variable (g : Shift)

def local_ (l : Local) : Local := { l with watched := l.watched.map g.lexeme }

def scope (s : Scope) : Scope := ⟨s.entries.map fun (name, l) => (name, g.local_ l)⟩

variable {g : Shift} {x : String} {s : Scope} {scopes : List Scope}

/-! ## Scopes -/

theorem get?_scope (s : Scope) (x : String) : (g.scope s).get? x = (s.get? x).map g.local_ :=
  Bindings.find_map x (fun _ l => g.local_ l) s.entries

theorem contains_scope (s : Scope) (x : String) : (g.scope s).contains x = s.contains x := by
  unfold Bindings.contains
  rw [get?_scope, Option.isSome_map]

theorem adjust_scope (change : Local → Local) (hc : ∀ l, change (g.local_ l) = g.local_ (change l)) (s : Scope)
    (x : String) :
    (g.scope s).adjust x change = g.scope (s.adjust x change) := by
  unfold Bindings.adjust scope
  simp only [List.map_map]
  congr 1
  refine List.map_congr_left fun entry _ => ?_
  by_cases h : entry.1 = x <;> simp [h, hc]

theorem set_scope (s : Scope) (x : String) (l : Local) : (g.scope s).set x (g.local_ l) = g.scope (s.set x l) :=
  congrArg Bindings.mk (Bindings.put_map g.local_ x l s.entries)

theorem hops?_scopes (x : String) (scopes : List Scope) : hops? x (scopes.map g.scope) = hops? x scopes := by
  induction scopes with
  | nil => rfl
  | cons s rest ih => simp only [List.map_cons, hops?, contains_scope, ih]

theorem touch_scopes (x : String) (scopes : List Scope) :
    touch x (scopes.map g.scope) = (touch x scopes).map g.scope := by
  induction scopes with
  | nil => rfl
  | cons s rest ih =>
    have hadjust : (g.scope s).adjust x ({ · with used := true }) = g.scope (s.adjust x ({ · with used := true })) :=
      adjust_scope ({ · with used := true }) (fun _ => rfl) s x
    simp only [List.map_cons, touch, contains_scope, hadjust, ih]
    split <;> rfl

end Shift

/-! ## Resolvers -/

/-- The resolver of a shifted walk, behind a table and errors that it had before. -/
structure Moved (g : Shift) (base : Distances) (earlier : Array Diagnostic) (r r' : Resolver) : Prop where
  scopes : r'.scopes = r.scopes.map g.scope
  routine : r'.routine = r.routine
  class_ : r'.class_ = r.class_
  errors : r'.errors = earlier ++ r.errors.map g.diagnostic
  distances : ∀ x, r'.distances[x + g.slots]? = (r.distances[x]?).or base[x + g.slots]?
  /-- Where lines alone move, the tables are one and the same. -/
  table : g.slots = 0 → base = ∅ → r'.distances = r.distances

variable {g : Shift} {base : Distances} {earlier : Array Diagnostic} {r r' : Resolver}

open Resolver

namespace Moved

theorem report (h : Moved g base earlier r r') (name : Lexeme) (fault : BindingFault) :
    Moved g base earlier (r.report name fault) (r'.report (g.lexeme name) fault) := by
  refine ⟨h.scopes, h.routine, h.class_, ?_, h.distances, h.table⟩
  show r'.errors.push _ = earlier ++ (r.errors.push _).map g.diagnostic
  rw [h.errors, Array.map_push, Array.append_push]
  rfl

/-- An entry goes to the shifted slot. -/
theorem record (h : Moved g base earlier r r') (slot : Int) (hops : Nat) :
    Moved g base earlier (r.record slot hops) (r'.record (slot + g.slots) hops) := by
  refine ⟨h.scopes, h.routine, h.class_, h.errors, fun x => ?_, fun hg hbase => ?_⟩
  · show (r'.distances.insert (slot + g.slots) (hops : Int))[x + g.slots]?
    = ((r.distances.insert slot (hops : Int))[x]?).or _
    rw [Std.TreeMap.getElem?_insert, Std.TreeMap.getElem?_insert, h.distances]
    by_cases hx : slot = x
    · subst hx
      simp
    · have hx' : ¬ slot + g.slots = x + g.slots := by omega
      simp [hx, hx']
  · show r'.distances.insert (slot + g.slots) (hops : Int) = r.distances.insert slot (hops : Int)
    rw [hg, Int.add_zero, h.table hg hbase]

theorem enter (h : Moved g base earlier r r') (s : Scope) : Moved g base earlier (r.enter s) (r'.enter (g.scope s)) :=
  ⟨congrArg (g.scope s :: ·) h.scopes, h.routine, h.class_, h.errors, h.distances, h.table⟩

theorem inRoutine (h : Moved g base earlier r r') (context : RoutineContext) :
    Moved g base earlier { r with routine := context } { r' with routine := context } :=
  ⟨h.scopes, rfl, h.class_, h.errors, h.distances, h.table⟩

theorem inClass (h : Moved g base earlier r r') (context : ClassContext) :
    Moved g base earlier { r with class_ := context } { r' with class_ := context } :=
  ⟨h.scopes, h.routine, rfl, h.errors, h.distances, h.table⟩

theorem reportUnused (h : Moved g base earlier r r') (entry : String × Local) :
    Moved g base earlier (r.reportUnused entry) (r'.reportUnused (entry.1, g.local_ entry.2)) := by
  obtain ⟨name, watched, defined, used⟩ := entry
  cases watched with
  | none => exact h
  | some declaration =>
    cases used with
    | true => exact h
    | false => exact h.report declaration _

/-- What is reported at the end of a scope is on the shifted line. -/
theorem leave (h : Moved g base earlier r r') : Moved g base earlier r.leave r'.leave := by
  unfold Resolver.leave
  rw [h.scopes]
  cases r.scopes with
  | nil => exact h
  | cons s rest =>
    have hrest : Moved g base earlier { r with scopes := rest } { r' with scopes := rest.map g.scope } :=
      ⟨rfl, h.routine, h.class_, h.errors, h.distances, h.table⟩
    show Moved g base earlier (s.entries.foldl _ _) ((s.entries.map fun (name, l) => (name, g.local_ l)).foldl _ _)
    generalize ({ r with scopes := rest } : Resolver) = r₁ at hrest ⊢
    generalize ({ r' with scopes := rest.map g.scope } : Resolver) = r₁' at hrest ⊢
    generalize s.entries = entries
    induction entries generalizing r₁ r₁' with
    | nil => exact hrest
    | cons entry entries ih => exact ih _ _ (hrest.reportUnused entry)

/-- A second declaration is reported on the shifted line. -/
theorem declare (h : Moved g base earlier r r') (name : Lexeme) (watched : Bool) :
    Moved g base earlier (r.declare name watched) (r'.declare (g.lexeme name) watched) := by
  unfold Resolver.declare
  rw [h.scopes]
  cases r.scopes with
  | nil => exact h
  | cons s rest =>
    simp only [List.map_cons, Shift.contains_scope]
    show Moved g base earlier (if s.contains name.text then _ else _) (if s.contains name.text then _ else _)
    split
    · exact h.report name _
    · refine ⟨?_, h.routine, h.class_, h.errors, h.distances, h.table⟩
      have hset := Shift.set_scope (g := g) s name.text ⟨if watched then some name else none, false, false⟩
      show (g.scope s).set name.text _ :: _ = g.scope _ :: _
      rw [← hset]
      cases watched <;> rfl

theorem define (h : Moved g base earlier r r') (name : Lexeme) :
    Moved g base earlier (r.define name) (r'.define (g.lexeme name)) := by
  unfold Resolver.define
  rw [h.scopes]
  cases r.scopes with
  | nil => exact h
  | cons s rest =>
    refine ⟨?_, h.routine, h.class_, h.errors, h.distances, h.table⟩
    exact congrArg (· :: rest.map g.scope) (Shift.adjust_scope ({ · with defined := true }) (fun _ => rfl) s name.text)

theorem write (h : Moved g base earlier r r') (target : Reference) :
    Moved g base earlier (r.write target) (r'.write (g.reference target)) := by
  have hhops : hops? (g.reference target).name.text r'.scopes = hops? target.name.text r.scopes := by
    rw [h.scopes, Shift.hops?_scopes]
    rfl
  unfold Resolver.write
  rw [hhops]
  split
  · exact h.record target.slot _
  · exact h

/-- A reference is entered at its shifted slot. -/
theorem read (h : Moved g base earlier r r') (target : Reference) :
    Moved g base earlier (r.read target) (r'.read (g.reference target)) := by
  have hhops : hops? (g.reference target).name.text r'.scopes = hops? target.name.text r.scopes := by
    rw [h.scopes, Shift.hops?_scopes]
    rfl
  unfold Resolver.read
  rw [hhops]
  split
  next d _ =>
    have hr := h.record target.slot d
    refine ⟨?_, hr.routine, hr.class_, hr.errors, hr.distances, hr.table⟩
    show touch target.name.text r'.scopes = _
    rw [h.scopes, Shift.touch_scopes]
  next => exact h

theorem isPending (h : Moved g base earlier r r') (x : String) : r'.isPending x = r.isPending x := by
  unfold Resolver.isPending
  rw [h.scopes]
  cases r.scopes with
  | nil => rfl
  | cons s rest =>
    simp only [List.map_cons, Shift.get?_scope]
    cases s.get? x <;> rfl

theorem readVariable (h : Moved g base earlier r r') (target : Reference) :
    Moved g base earlier (r.readVariable target) (r'.readVariable (g.reference target)) := by
  unfold Resolver.readVariable
  rw [h.isPending]
  show Moved g base earlier (if r.isPending target.name.text then _ else _)
    (if r.isPending target.name.text then _ else _)
  split
  · exact (h.report target.name _).record target.slot 0
  · exact h.read target

theorem this (h : Moved g base earlier r r') (keyword : Reference) :
    Moved g base earlier (r.this keyword) (r'.this (g.reference keyword)) := by
  unfold Resolver.this
  rw [h.class_]
  split
  · exact h.report keyword.name _
  · exact h.read keyword

theorem super (h : Moved g base earlier r r') (keyword : Reference) :
    Moved g base earlier (r.super keyword) (r'.super (g.reference keyword)) := by
  unfold Resolver.super
  rw [h.class_]
  split
  · exact h.report keyword.name _
  · exact h.report keyword.name _
  · exact h.read keyword

end Moved

/-! ## Expressions -/

mutual

/-- Expressions, by recursion on the tree. -/
theorem moved_expr : ∀ (e : Expr) {r r' : Resolver}, Moved g base earlier r r' →
    Moved g base earlier (expr e r) (expr (g.expr e) r')
  | .literal _, _, _, h => h
  | .group inner, _, _, h => moved_expr inner h
  | .unary _ operand, _, _, h => moved_expr operand h
  | .binary left _ right, _, _, h => moved_expr right (moved_expr left h)
  | .logical left _ right, _, _, h => moved_expr right (moved_expr left h)
  | .ternary cond yes no, _, _, h => moved_expr no (moved_expr yes (moved_expr cond h))
  | .ref target, _, _, h => h.readVariable target
  | .assign target value, _, _, h => (moved_expr value h).write target
  | .call callee _ args, _, _, h => moved_exprs args (moved_expr callee h)
  | .get object _, _, _, h => moved_expr object h
  | .set object _ value, _, _, h => moved_expr object (moved_expr value h)
  | .this keyword, _, _, h => h.this keyword
  | .super keyword _, _, _, h => h.super keyword

theorem moved_exprs : ∀ (es : List Expr) {r r' : Resolver}, Moved g base earlier r r' →
    Moved g base earlier (exprs es r) (exprs (g.exprs es) r')
  | [], _, _, h => h
  | e :: rest, _, _, h => moved_exprs rest (moved_expr e h)

end

theorem moved_exprOpt (e : Option Expr) (h : Moved g base earlier r r') :
    Moved g base earlier (exprOpt e r) (exprOpt (g.exprOpt e) r') := by
  cases e with
  | none => exact h
  | some e => exact moved_expr e h

/-! ## Statements -/

theorem moved_params (params : List Lexeme) (h : Moved g base earlier r r') :
    Moved g base earlier (params.foldl param r) ((params.map g.lexeme).foldl param r') := by
  induction params generalizing r r' with
  | nil => exact h
  | cons p params ih => exact ih ((h.declare p false).define p)

theorem moved_checkReturn (h : Moved g base earlier r r') (keyword : Lexeme) (hasValue : Bool) :
    Moved g base earlier (r.checkReturn keyword hasValue) (r'.checkReturn (g.lexeme keyword) hasValue) := by
  unfold Resolver.checkReturn
  rw [h.routine]
  split
  · exact h.report keyword _
  · split
    · exact h.report keyword _
    · exact h
  · exact h

theorem moved_superclass (h : Moved g base earlier r r') (name : Lexeme) (parent : Reference) :
    Moved g base earlier (r.superclassClause name parent)
      (r'.superclassClause (g.lexeme name) (g.reference parent)) := by
  have hown : Moved g base earlier (if parent.name.text = name.text then r.report parent.name .ownSuperclass else r)
      (if parent.name.text = name.text then r'.report (g.lexeme parent.name) .ownSuperclass else r') := by
    split
    · exact h.report parent.name _
    · exact h
  exact ((hown.inClass .subclass).readVariable parent).enter (implicitScope superName)

theorem moved_openClass (h : Moved g base earlier r r') (name : Lexeme) (superclass : Option Reference) :
    Moved g base earlier (r.openClass name superclass) (r'.openClass (g.lexeme name) (superclass.map g.reference)) := by
  have hname := ((h.inClass .class_).declare name true).define name
  cases superclass with
  | none => exact hname.enter (implicitScope thisName)
  | some parent => exact (moved_superclass hname name parent).enter (implicitScope thisName)

theorem moved_closeClass (h : Moved g base earlier r r') (outer : ClassContext) (superclass : Option Reference) :
    Moved g base earlier (r.closeClass outer superclass) (r'.closeClass outer (superclass.map g.reference)) := by
  cases superclass with
  | none => exact h.leave.inClass outer
  | some parent => exact h.leave.leave.inClass outer

mutual

/-- Statements, by recursion on the tree. -/
theorem moved_stmt : ∀ (s : Stmt) {r r' : Resolver}, Moved g base earlier r r' →
    Moved g base earlier (stmt s r) (stmt (g.stmt s) r')
  | .expr e, _, _, h => moved_expr e h
  | .print_ e, _, _, h => moved_expr e h
  | .var name init, _, _, h => (moved_exprOpt init (h.declare name true)).define name
  | .block body, _, _, h => (moved_stmts body (h.enter ∅)).leave
  | .cond test yes no, _, _, h => moved_stmtOpt no (moved_stmt yes (moved_expr test h))
  | .loop test body step, _, _, h => moved_exprOpt step (moved_stmt body (moved_expr test h))
  | .break_ _, _, _, h => h
  | .continue_ _, _, _, h => h
  | .fun_ ⟨name, params, body⟩, _, _, h =>
    moved_routine .function ⟨name, params, body⟩ ((h.declare name true).define name)
  | .return_ keyword value, r, r', h => by
    have hsome : (g.exprOpt value).isSome = value.isSome := by cases value <;> rfl
    show Moved g base earlier (exprOpt value _) (exprOpt (g.exprOpt value) (r'.checkReturn _ (g.exprOpt value).isSome))
    rw [hsome]
    exact moved_exprOpt value (moved_checkReturn h keyword value.isSome)
  | .class_ name superclass methods, r, r', h => by
    have hmethods := moved_methods methods (moved_openClass h name superclass)
    show Moved g base earlier (Resolver.closeClass _ r.class_ superclass) (Resolver.closeClass _ r'.class_ _)
    rw [h.class_]
    exact moved_closeClass hmethods r.class_ superclass

theorem moved_stmts : ∀ (ss : List Stmt) {r r' : Resolver}, Moved g base earlier r r' →
    Moved g base earlier (stmts ss r) (stmts (g.stmts ss) r')
  | [], _, _, h => h
  | s :: rest, _, _, h => moved_stmts rest (moved_stmt s h)

theorem moved_stmtOpt : ∀ (s : Option Stmt) {r r' : Resolver}, Moved g base earlier r r' →
    Moved g base earlier (stmtOpt s r) (stmtOpt (g.stmtOpt s) r')
  | none, _, _, h => h
  | some s, _, _, h => moved_stmt s h

theorem moved_routine : ∀ (context : RoutineContext) (f : Routine) {r r' : Resolver}, Moved g base earlier r r' →
    Moved g base earlier (routineBody context f r) (routineBody context (g.routine f) r')
  | context, ⟨_, params, body⟩, r, r', h => by
    have hbody := (moved_stmts body (moved_params params ((h.inRoutine context).enter ∅))).leave.inRoutine r.routine
    show Moved g base earlier _ { Resolver.leave _ with routine := r'.routine }
    rw [h.routine]
    exact hbody

theorem moved_methods : ∀ (ms : List Routine) {r r' : Resolver}, Moved g base earlier r r' →
    Moved g base earlier (methodBodies ms r) (methodBodies (g.routines ms) r')
  | [], _, _, h => h
  | m :: rest, r, r', h => by
    have hm := moved_routine (if m.isInit then .initializer else .method) m h
    show Moved g base earlier _
      (methodBodies (g.routines rest) (routineBody (if (g.routine m).isInit then _ else _) _ r'))
    rw [Shift.isInit_routine]
    exact moved_methods rest hm

end

/-! ## Programs -/

theorem moved_start (g : Shift) : Moved g ∅ #[] start start := by
  refine ⟨rfl, rfl, rfl, (by simp [start]), fun x => ?_, fun _ _ => rfl⟩
  show (∅ : Distances)[x + g.slots]? = ((∅ : Distances)[x]?).or (∅ : Distances)[x + g.slots]?
  simp

/-- A program with other slots and on other lines has the same errors and the same distances there. -/
theorem resolve_shift (g : Shift) (p : List Stmt) :
    (resolve (g.stmts p)).errors = (resolve p).errors.map g.diagnostic ∧
      ∀ x, (resolve (g.stmts p)).distances[x + g.slots]? = (resolve p).distances[x]? := by
  have h := moved_stmts p (moved_start g)
  refine ⟨?_, fun x => ?_⟩
  · have herrors := h.errors
    simp only [Array.empty_append] at herrors
    simp only [resolve, herrors, Array.toList_map]
  · have hx := h.distances x
    rw [show (∅ : Distances)[x + g.slots]? = none from Std.TreeMap.getElem?_emptyc, Option.or_none] at hx
    exact hx

theorem resolve_lines (line : Nat → Nat) (p : List Stmt) :
    (resolve ((Shift.byLines line).stmts p)).distances = (resolve p).distances :=
  (moved_stmts p (moved_start (.byLines line))).table rfl rfl

theorem stmts_append (p q : List Stmt) (r : Resolver) : stmts (p ++ q) r = stmts q (stmts p r) := by
  induction p generalizing r with
  | nil => rfl
  | cons s rest ih => exact ih (stmt s r)

/-- Behind a program the resolver is as at its start, but for the table and the errors. -/
theorem moved_behind (p : List Stmt) (g : Shift) :
    Moved g (resolve p).distances (stmts p start).errors start (stmts p start) := by
  have hframed := framed_stmts p start
  have hnone : start.errors.map g.diagnostic = #[] := by simp [start]
  refine ⟨?_, hframed.routine, hframed.class_, by rw [hnone, Array.append_empty], fun x => ?_, fun _ hbase => hbase⟩
  · have hnames : Gains _ [] (scopeNames (stmts p start).scopes) := hframed.names
    cases hscopes : (stmts p start).scopes with
    | nil => rfl
    | cons s rest =>
      rw [hscopes] at hnames
      cases hnames
  · show (resolve p).distances[x + g.slots]? = ((∅ : Distances)[x]?).or _
    simp

/-- Two programs one behind the other. -/
theorem resolve_append (p q : List Stmt) (g : Shift) :
    (resolve (p ++ g.stmts q)).errors = (resolve p).errors ++ (resolve q).errors.map g.diagnostic ∧
      ∀ x, (resolve (p ++ g.stmts q)).distances[x + g.slots]? =
        ((resolve q).distances[x]?).or (resolve p).distances[x + g.slots]? := by
  have h := moved_stmts q (moved_behind p g)
  unfold resolve
  rw [stmts_append]
  refine ⟨?_, h.distances⟩
  simp only [h.errors, Array.toList_append, Array.toList_map]

end Lox
