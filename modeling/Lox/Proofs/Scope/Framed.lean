/-
  Lox.Proofs.Scope.Framed — what a statement leaves as it was, whatever is wrong with it and
  from whatever state of the resolver: the routine and the class around it, the table
  outside of its slots and the names of all scopes, but for the innermost, which gains at
  most the names that the statement declares there (`Framed`, `framed_stmt`).

  So a declaration that is completed is there to be completed, and a scope that is closed
  is there to be closed: a walk that would stop where they are not never does (`stmt?_eq`).
-/

import Lox.Proofs.Scope.Walk

namespace Lox

namespace Stmt

mutual

/-- The names that a statement declares in the scope that it stands in: its own, or those of
the branches of an `if` and of the body of a loop, which open no scope. -/
def owns : Stmt → List String
  | .cond _ yes no => yes.owns ++ ownsOpt no
  | .loop _ body _ => body.owns
  | .var name _ => [name.text]
  | .fun_ routine => [routine.name.text]
  | .class_ name _ _ => [name.text]
  | _ => []

def ownsOpt : Option Stmt → List String
  | none => []
  | some s => s.owns

end

def ownsAll : List Stmt → List String
  | [] => []
  | s :: rest => s.owns ++ ownsAll rest

end Stmt

/-! ## Names of scopes -/

def scopeNames (scopes : List Scope) : List (List String) := scopes.map (·.keys)

theorem scopeNames_touch (x : String) (scopes : List Scope) : scopeNames (touch x scopes) = scopeNames scopes := by
  induction scopes with
  | nil => rfl
  | cons s rest ih =>
    unfold touch
    split
    · simp only [scopeNames, List.map_cons, Bindings.keys_adjust]
    · exact congrArg (s.keys :: ·) ih

/-- The innermost scope has gained some of these names, and nothing else has changed. -/
inductive Gains (own : List String) : List (List String) → List (List String) → Prop
  | outside : Gains own [] []
  | inside {names gained : List String} {rest : List (List String)} : (∀ x ∈ gained, x ∈ own) →
      Gains own (names :: rest) ((names ++ gained) :: rest)

variable {own own' : List String} {ks ks₁ ks' : List (List String)}

namespace Gains

theorem refl (own : List String) (ks : List (List String)) : Gains own ks ks := by
  cases ks with
  | nil => exact .outside
  | cons names rest =>
    have h : Gains own (names :: rest) ((names ++ []) :: rest) := .inside (by simp)
    rwa [List.append_nil] at h

theorem trans (h : Gains own ks ks₁) (h' : Gains own' ks₁ ks') : Gains (own ++ own') ks ks' := by
  cases h with
  | outside =>
    cases h'
    exact .outside
  | @inside names gained rest hg =>
    cases h' with
    | inside hg' =>
      rw [List.append_assoc]
      refine .inside fun x hx => ?_
      rcases List.mem_append.mp hx with hx | hx
      · exact List.mem_append_left _ (hg x hx)
      · exact List.mem_append_right _ (hg' x hx)

theorem tail (h : Gains own ks ks') : ks'.tail = ks.tail := by cases h <;> rfl

theorem has {x : String} (h : Gains own ks ks') (hx : ∀ names ∈ ks.head?, x ∈ names) :
    ∀ names ∈ ks'.head?, x ∈ names := by
  cases h with
  | outside => exact hx
  | inside =>
    intro names hm
    cases hm
    exact List.mem_append_left _ (hx _ rfl)

end Gains

namespace Resolver

/-! ## Frames -/

/-- What a part of a program with these slots, which declares these names, leaves as it was. -/
structure Framed (slots : List Int) (own : List String) (r r' : Resolver) : Prop where
  routine : r'.routine = r.routine
  class_ : r'.class_ = r.class_
  table : ∀ x, x ∉ slots → r'.distances[x]? = r.distances[x]?
  names : Gains own (scopeNames r.scopes) (scopeNames r'.scopes)

variable {slots slots' : List Int} {r r₁ r' : Resolver} {scope : Scope} {name : Lexeme} {watched : Bool}

namespace Framed

theorem refl (slots : List Int) (own : List String) (r : Resolver) : Framed slots own r r :=
  ⟨rfl, rfl, fun _ _ => rfl, .refl own _⟩

theorem trans (h : Framed slots own r r₁) (h' : Framed slots' own' r₁ r') :
    Framed (slots ++ slots') (own ++ own') r r' where
  routine := h'.routine.trans h.routine
  class_ := h'.class_.trans h.class_
  table x hx := by
    simp only [List.mem_append, not_or] at hx
    rw [h'.table x hx.2, h.table x hx.1]
  names := h.names.trans h'.names

/-- Behind a part that declares nothing. -/
theorem after (h : Framed slots [] r r₁) (h' : Framed slots' own r₁ r') : Framed (slots ++ slots') own r r' :=
  h.trans h'

theorem before (h : Framed slots own r r₁) (h' : Framed slots' [] r₁ r') : Framed (slots ++ slots') own r r' := by
  have hboth := h.trans h'
  rwa [List.append_nil] at hboth

/-- Before a part that has no slots either. -/
theorem ended (h : Framed slots own r r₁) (h' : Framed [] [] r₁ r') : Framed slots own r r' := by
  have hboth := h.before h'
  rwa [List.append_nil] at hboth

theorem inRoutine {context : RoutineContext} (h : Framed slots own { r with routine := context } r₁) :
    Framed slots own r { r₁ with routine := r.routine } :=
  ⟨rfl, h.class_, h.table, h.names⟩

theorem inClass (h : Framed slots own r r') (c : ClassContext) :
    Framed slots own { r with class_ := c } { r' with class_ := c } :=
  ⟨h.routine, rfl, h.table, h.names⟩

/-- A part in a scope of its own. -/
theorem leave (h : Framed slots own (r.enter scope) r₁) : Framed slots [] r r₁.leave := by
  obtain ⟨errors, he, -⟩ := leave_eq r₁
  rw [he]
  refine ⟨h.routine, h.class_, h.table, ?_⟩
  have htail : (scopeNames r₁.scopes).tail = scopeNames r.scopes := h.names.tail
  show Gains [] (scopeNames r.scopes) (scopeNames r₁.scopes.tail)
  rw [← htail, scopeNames, scopeNames, List.map_tail]
  exact .refl ..

end Framed

/-! ## Effects -/

theorem framed_report (slots : List Int) (own : List String) (r : Resolver) (name : Lexeme) (fault : BindingFault) :
    Framed slots own r (r.report name fault) :=
  ⟨rfl, rfl, fun _ _ => rfl, .refl ..⟩

theorem framed_record (r : Resolver) (slot : Int) (hops : Nat) : Framed [slot] [] r (r.record slot hops) :=
  ⟨rfl, rfl, (walked_record r slot hops).table, .refl ..⟩

theorem framed_write (r : Resolver) (target : Reference) : Framed [target.slot] [] r (r.write target) := by
  unfold write
  split
  · exact framed_record ..
  · exact .refl ..

/-- A read enters its own slot only. -/
theorem framed_read (r : Resolver) (target : Reference) : Framed [target.slot] [] r (r.read target) := by
  unfold read
  split
  next d _ =>
    refine ⟨rfl, rfl, (walked_record r target.slot d).table, ?_⟩
    show Gains [] (scopeNames r.scopes) (scopeNames (touch target.name.text r.scopes))
    rw [scopeNames_touch]
    exact .refl ..
  next => exact .refl ..

theorem framed_readVariable (r : Resolver) (target : Reference) :
    Framed [target.slot] [] r (r.readVariable target) := by
  unfold readVariable
  split
  · exact (framed_report [] [] r _ _).after (framed_record ..)
  · exact framed_read ..

theorem framed_this (r : Resolver) (keyword : Reference) : Framed [keyword.slot] [] r (r.this keyword) := by
  unfold this
  split
  · exact framed_report ..
  · exact framed_read ..

theorem framed_super (r : Resolver) (keyword : Reference) : Framed [keyword.slot] [] r (r.super keyword) := by
  unfold super
  split
  · exact framed_report ..
  · exact framed_report ..
  · exact framed_read ..

theorem framed_checkReturn (r : Resolver) (keyword : Lexeme) (hasValue : Bool) :
    Framed [] [] r (r.checkReturn keyword hasValue) := by
  unfold checkReturn
  split
  · exact framed_report ..
  · split
    · exact framed_report ..
    · exact .refl ..
  · exact .refl ..

/-- A declaration opens its name in the innermost scope. -/
theorem framed_declare (r : Resolver) (name : Lexeme) (watched : Bool) :
    Framed [] [name.text] r (r.declare name watched) := by
  unfold declare
  split
  · exact .refl ..
  next s rest hr =>
    split
    · exact framed_report ..
    next hc =>
      have hfresh : name.text ∉ s.keys := by
        rw [← Bindings.get?_eq_none_iff]
        simpa [Bindings.contains] using hc
      refine ⟨rfl, rfl, fun _ _ => rfl, ?_⟩
      rw [hr]
      simp only [scopeNames, List.map_cons, Bindings.keys_set, if_neg hfresh]
      exact .inside fun x hx => hx

/-- A name that is defined was there before. -/
theorem framed_define (r : Resolver) (name : Lexeme) : Framed [] [] r (r.define name) := by
  unfold define
  split
  · exact .refl ..
  next s rest hr =>
    refine ⟨rfl, rfl, fun _ _ => rfl, ?_⟩
    rw [hr]
    simp only [scopeNames, List.map_cons, Bindings.keys_adjust]
    exact .refl ..

theorem framed_declared (r : Resolver) (name : Lexeme) (watched : Bool) :
    Framed [] [name.text] r ((r.declare name watched).define name) :=
  (framed_declare r name watched).ended (framed_define _ name)

theorem framed_params (params : List Lexeme) (r : Resolver) :
    Framed [] (params.map (·.text)) r (params.foldl param r) := by
  induction params generalizing r with
  | nil => exact .refl ..
  | cons p rest ih => exact (framed_declared r p false).trans (ih _)

/-! ## Expressions -/

mutual

/-- An expression enters the slots of its own nodes, and opens no name. -/
theorem framed_expr : ∀ (e : Expr) (r : Resolver), Framed e.slots [] r (expr e r)
  | .literal _, r => .refl [] [] r
  | .group inner, r => framed_expr inner r
  | .unary _ operand, r => framed_expr operand r
  | .binary left _ right, r => (framed_expr left r).after (framed_expr right _)
  | .logical left _ right, r => (framed_expr left r).after (framed_expr right _)
  | .ternary cond yes no, r => (framed_expr cond r).after ((framed_expr yes _).after (framed_expr no _))
  | .ref target, r => framed_readVariable r target
  | .assign target value, r => (framed_expr value r).after (framed_write _ target)
  | .call callee _ args, r => (framed_expr callee r).after (framed_exprs args _)
  | .get object _, r => framed_expr object r
  | .set object _ value, r => by
    -- The value is walked first, its slots come last.
    have h := (framed_expr value r).after (framed_expr object _)
    refine ⟨h.routine, h.class_, fun x hx => h.table x fun hm => hx ?_, h.names⟩
    exact List.mem_append.mpr (List.mem_append.mp hm).symm
  | .this keyword, r => framed_this r keyword
  | .super keyword _, r => framed_super r keyword

theorem framed_exprs : ∀ (es : List Expr) (r : Resolver), Framed (Expr.slotsAll es) [] r (exprs es r)
  | [], r => .refl [] [] r
  | e :: rest, r => (framed_expr e r).after (framed_exprs rest _)

end

theorem framed_exprOpt (e : Option Expr) (r : Resolver) : Framed (Expr.slotsOpt e) [] r (exprOpt e r) := by
  cases e with
  | none => exact .refl ..
  | some e => exact framed_expr e r

/-! ## Classes -/

theorem framed_superclassClause (r : Resolver) (name : Lexeme) (parent : Reference) : ∃ r₁,
    Framed [parent.slot] [] { r with class_ := .subclass } r₁ ∧
    r.superclassClause name parent = r₁.enter (implicitScope superName) := by
  have hown : Framed [] [] r (if parent.name.text = name.text then r.report parent.name .ownSuperclass else r) := by
    split
    · exact framed_report ..
    · exact .refl ..
  exact ⟨_, (hown.inClass .subclass).after (framed_readVariable _ parent), rfl⟩

/-- A class around the walk of its methods. -/
theorem framed_class {superclass : Option Reference} {methods : List Routine}
    (h : ∀ r, Framed slots [] r (methodBodies methods r)) (r : Resolver) (name : Lexeme) :
    Framed (superclass.elim [] (fun parent => [parent.slot]) ++ slots) [name.text] r
      ((methodBodies methods (r.openClass name superclass)).closeClass r.class_ superclass) := by
  have hname := (framed_declared { r with class_ := .class_ } name true).inClass r.class_
  unfold openClass
  generalize (({ r with class_ := .class_ } : Resolver).declare name true).define name = r₁ at hname ⊢
  cases superclass with
  | none => exact hname.before ((h (r₁.enter _)).leave.inClass r.class_)
  | some parent =>
    obtain ⟨r₂, hclause, heq⟩ := framed_superclassClause r₁ name parent
    have hmethods := h ((r₂.enter (implicitScope superName)).enter (implicitScope thisName))
    simp only [heq]
    exact hname.before ((hclause.after hmethods.leave.leave).inClass r.class_)

/-! ## Statements -/

mutual

/-- A statement enters the slots of its own nodes, and opens the names that it declares. -/
theorem framed_stmt : ∀ (s : Stmt) (r : Resolver), Framed s.slots s.owns r (stmt s r)
  | .expr e, r => framed_expr e r
  | .print_ e, r => framed_expr e r
  | .var name init, r => ((framed_declare r name true).before (framed_exprOpt init _)).ended (framed_define _ name)
  | .block body, r => (framed_stmts body (r.enter ∅)).leave
  | .cond test yes no, r => (framed_expr test r).after ((framed_stmt yes _).trans (framed_stmtOpt no _))
  | .loop test body step, r => (framed_expr test r).after ((framed_stmt body _).before (framed_exprOpt step _))
  | .break_ _, r => .refl [] [] r
  | .continue_ _, r => .refl [] [] r
  | .fun_ routine, r => (framed_declared r routine.name true).before (framed_routine .function routine _)
  | .return_ keyword value, r => (framed_checkReturn r keyword _).after (framed_exprOpt value _)
  | .class_ name _ methods, r => framed_class (framed_methods methods) r name

theorem framed_stmts : ∀ (ss : List Stmt) (r : Resolver), Framed (Stmt.slotsAll ss) (Stmt.ownsAll ss) r (stmts ss r)
  | [], r => .refl [] [] r
  | s :: rest, r => (framed_stmt s r).trans (framed_stmts rest _)

theorem framed_stmtOpt : ∀ (s : Option Stmt) (r : Resolver),
    Framed (Stmt.slotsOpt s) (Stmt.ownsOpt s) r (stmtOpt s r)
  | none, r => .refl [] [] r
  | some s, r => framed_stmt s r

theorem framed_routine : ∀ (context : RoutineContext) (routine : Routine) (r : Resolver),
    Framed (Stmt.routineSlots routine) [] r (routineBody context routine r)
  | context, ⟨_, params, body⟩, r =>
    have hparams := framed_params params (({ r with routine := context } : Resolver).enter ∅)
    (hparams.trans (framed_stmts body _)).leave.inRoutine

theorem framed_methods : ∀ (methods : List Routine) (r : Resolver),
    Framed (Stmt.methodSlots methods) [] r (methodBodies methods r)
  | [], r => .refl [] [] r
  | m :: rest, r => (framed_routine _ m r).after (framed_methods rest _)

end

/-! ## A walk that may stop -/

/-- Completes a declaration, and stops if the innermost scope does not have it. -/
def define? (r : Resolver) (name : Lexeme) : Option Resolver :=
  match r.scopes with
  | [] => some r
  | s :: _ => if s.contains name.text then some (r.define name) else none

/-- Closes the innermost scope, and stops if there is none. -/
def leave? (r : Resolver) : Option Resolver :=
  match r.scopes with
  | [] => none
  | _ :: _ => some r.leave

def param? (r : Resolver) (name : Lexeme) : Option Resolver := (r.declare name false).define? name

def openClass? (r : Resolver) (name : Lexeme) (superclass : Option Reference) : Option Resolver := do
  let r ← (({ r with class_ := .class_ } : Resolver).declare name true).define? name
  let r := match superclass with
    | none => r
    | some parent => r.superclassClause name parent
  return r.enter (implicitScope thisName)

def closeClass? (r : Resolver) (outer : ClassContext) (superclass : Option Reference) : Option Resolver := do
  let r ← match superclass with
    | none => r.leave?
    | some _ => r.leave?.bind leave?
  return { r with class_ := outer }

mutual

/-- The walk over a statement, with every completion and every closing checked. -/
def stmt? : Stmt → Resolver → Option Resolver
  | .expr e, r => expr e r
  | .print_ e, r => expr e r
  | .var name init, r => (exprOpt init (r.declare name true)).define? name
  | .block body, r => do (← stmts? body (r.enter ∅)).leave?
  | .cond test yes no, r => do stmtOpt? no (← stmt? yes (expr test r))
  | .loop test body step, r => do return exprOpt step (← stmt? body (expr test r))
  | .break_ _, r => r
  | .continue_ _, r => r
  | .fun_ routine, r => do routineBody? .function routine (← (r.declare routine.name true).define? routine.name)
  | .return_ keyword value, r => exprOpt value (r.checkReturn keyword value.isSome)
  | .class_ name superclass methods, r => do
    (← methodBodies? methods (← r.openClass? name superclass)).closeClass? r.class_ superclass

def stmts? : List Stmt → Resolver → Option Resolver
  | [], r => r
  | s :: rest, r => do stmts? rest (← stmt? s r)

def stmtOpt? : Option Stmt → Resolver → Option Resolver
  | none, r => r
  | some s, r => stmt? s r

def routineBody? : RoutineContext → Routine → Resolver → Option Resolver
  | context, ⟨_, params, body⟩, r => do
    let inner ← params.foldlM param? (({ r with routine := context } : Resolver).enter ∅)
    return { ← (← stmts? body inner).leave? with routine := r.routine }

def methodBodies? : List Routine → Resolver → Option Resolver
  | [], r => r
  | m :: rest, r => do methodBodies? rest (← routineBody? (if m.isInit then .initializer else .method) m r)

end

/-! ### It does not -/

/-- A name that is declared is there. -/
theorem declare_has (r : Resolver) (name : Lexeme) (watched : Bool) :
    ∀ names ∈ (scopeNames (r.declare name watched).scopes).head?, name.text ∈ names := by
  unfold declare
  split
  next hr =>
    rw [hr]
    simp [scopeNames]
  next s rest hr =>
    split
    next hc =>
      simp only [report, hr, scopeNames, List.map_cons, List.head?_cons, Option.mem_some_iff, forall_eq']
      exact contains_iff.mp hc
    next =>
      simp only [scopeNames, List.map_cons, List.head?_cons, Option.mem_some_iff, forall_eq', Bindings.keys_set]
      split
      next hm => exact hm
      next => exact List.mem_append_right _ (List.mem_singleton_self _)

/-- A name that has been declared is there until it is completed. -/
theorem define?_eq (h : Framed slots own (r.declare name watched) r₁) : r₁.define? name = some (r₁.define name) := by
  have hhas := h.names.has (declare_has r name watched)
  unfold define?
  split
  next hr =>
    unfold define
    rw [hr]
  next s rest hr =>
    rw [hr] at hhas
    rw [if_pos (contains_iff.mpr (hhas s.keys rfl))]

/-- A scope that has been opened is there until it is closed. -/
theorem leave?_eq (h : Framed slots own (r.enter scope) r₁) : r₁.leave? = some r₁.leave := by
  have hnames := h.names
  unfold leave?
  split
  next hr =>
    rw [hr] at hnames
    cases hnames
  next => rfl

theorem params?_eq (params : List Lexeme) (r : Resolver) : params.foldlM param? r = some (params.foldl param r) := by
  induction params generalizing r with
  | nil => rfl
  | cons p rest ih =>
    have hp : param? r p = some (param r p) := define?_eq (.refl [] [] _)
    rw [List.foldlM_cons, hp]
    exact ih (param r p)

theorem openClass?_eq (r : Resolver) (name : Lexeme) (superclass : Option Reference) :
    r.openClass? name superclass = some (r.openClass name superclass) := by
  unfold openClass?
  rw [define?_eq (.refl [] [] _)]
  rfl

/-- Behind a class there are the scopes to be closed. -/
theorem closeClass?_eq {superclass : Option Reference} (h : Framed slots own (r.openClass name superclass) r₁)
    (outer : ClassContext) : r₁.closeClass? outer superclass = some (r₁.closeClass outer superclass) := by
  unfold closeClass?
  cases superclass with
  | none =>
    rw [leave?_eq h]
    rfl
  | some parent =>
    obtain ⟨r₂, -, heq⟩ :=
      framed_superclassClause ((({ r with class_ := .class_ } : Resolver).declare name true).define name) name parent
    have hinner : Framed slots own ((r₂.enter (implicitScope superName)).enter (implicitScope thisName)) r₁ := heq ▸ h
    rw [leave?_eq hinner, Option.bind_some, leave?_eq hinner.leave]
    rfl

mutual

/-- No check of the host fails while a statement is resolved. -/
theorem stmt?_eq : ∀ (s : Stmt) (r : Resolver), stmt? s r = some (stmt s r)
  | .expr _, _ | .print_ _, _ | .break_ _, _ | .continue_ _, _ | .return_ _ _, _ => rfl
  | .var name init, r => define?_eq (framed_exprOpt init _)
  | .block body, r => by
    unfold stmt? stmt
    rw [stmts?_eq]
    exact leave?_eq (framed_stmts body _)
  | .cond test yes no, r => by
    unfold stmt? stmt
    rw [stmt?_eq]
    exact stmtOpt?_eq no _
  | .loop test body step, r => by
    unfold stmt? stmt
    rw [stmt?_eq]
    rfl
  | .fun_ routine, r => by
    unfold stmt? stmt
    rw [define?_eq (.refl [] [] _)]
    exact routineBody?_eq .function routine _
  | .class_ name superclass methods, r => by
    unfold stmt? stmt
    rw [openClass?_eq]
    show (methodBodies? methods (r.openClass name superclass)).bind _ = _
    rw [methodBodies?_eq]
    exact closeClass?_eq (framed_methods methods _) r.class_

theorem stmts?_eq : ∀ (ss : List Stmt) (r : Resolver), stmts? ss r = some (stmts ss r)
  | [], _ => rfl
  | s :: rest, r => by
    unfold stmts? stmts
    rw [stmt?_eq]
    exact stmts?_eq rest _

theorem stmtOpt?_eq : ∀ (s : Option Stmt) (r : Resolver), stmtOpt? s r = some (stmtOpt s r)
  | none, _ => rfl
  | some s, r => stmt?_eq s r

/-- No check of the host fails while a routine is resolved. -/
theorem routineBody?_eq : ∀ (context : RoutineContext) (routine : Routine) (r : Resolver),
    routineBody? context routine r = some (routineBody context routine r)
  | context, ⟨_, params, body⟩, r => by
    have hparams := framed_params params (({ r with routine := context } : Resolver).enter ∅)
    have hbody := hparams.trans (framed_stmts body _)
    unfold routineBody? routineBody
    rw [params?_eq]
    show (stmts? body _).bind _ = _
    rw [stmts?_eq]
    show (leave? _).bind _ = _
    rw [leave?_eq hbody]
    rfl

theorem methodBodies?_eq : ∀ (methods : List Routine) (r : Resolver),
    methodBodies? methods r = some (methodBodies methods r)
  | [], _ => rfl
  | m :: rest, r => by
    unfold methodBodies? methodBodies
    rw [routineBody?_eq]
    exact methodBodies?_eq rest _

end

end Resolver

/-- A program has distances for its own references alone. -/
theorem resolve_outside {p : List Stmt} {x : Int} (hx : x ∉ Stmt.slotsAll p) : (resolve p).distances[x]? = none :=
  (Resolver.framed_stmts p .start).table x hx

end Lox
