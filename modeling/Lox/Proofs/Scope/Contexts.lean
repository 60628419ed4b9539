/-
  Lox.Proofs.Scope.Contexts — the errors in `return`, `this` and `super` are exact
  (`context_errors`).

  Which of these nodes are faulty is said without the resolver: `Stmt.guarded` lists them
  in the order of the walk, each with the functions, methods and classes around it, the
  innermost first, and `Guarded.faults` decides by those. The resolver has two fields
  instead, which it sets on the way in and sets back on the way out; at every node they
  say the same (`Stands`), for every part of a program leaves them as it found them and
  adds the errors of its own nodes (`Adds`).
-/

import Lox.Proofs.Scope.Walk

namespace Lox

/-- A fault of a `return`, a `this` or a `super`. -/
def BindingFault.isContextual : BindingFault → Bool
  | .topLevelReturn | .initializerValue | .thisOutsideClass | .superOutsideClass | .superWithoutSuperclass => true
  | _ => false

/-! ## Nodes and what is around them -/

/-- What a statement may stand in. -/
inductive Construct where
  | function
  | method (name : String)
  | class_ (hasSuperclass : Bool)
  deriving DecidableEq

namespace Construct

def isRoutine : Construct → Bool
  | .class_ _ => false
  | _ => true

def isClass : Construct → Bool
  | .class_ _ => true
  | _ => false

end Construct

/-- What is not allowed everywhere. -/
inductive Guarded where
  | return_ (keyword : Lexeme) (hasValue : Bool)
  | this (keyword : Lexeme)
  | super (keyword : Lexeme)

namespace Guarded

def keyword : Guarded → Lexeme
  | .return_ keyword _ => keyword
  | .this keyword => keyword
  | .super keyword => keyword

/-- What is wrong with a node, if anything, inside of these constructs. -/
def fault? (around : List Construct) : Guarded → Option BindingFault
  | .return_ _ hasValue =>
    match around.find? Construct.isRoutine with
    | none => some .topLevelReturn
    | some innermost => if hasValue ∧ innermost = .method initName then some .initializerValue else none
  | .this _ =>
    match around.find? Construct.isClass with
    | none => some .thisOutsideClass
    | some _ => none
  | .super _ =>
    match around.find? Construct.isClass with
    | none => some .superOutsideClass
    | some innermost => if innermost = .class_ true then none else some .superWithoutSuperclass

def errors (around : List Construct) (node : Guarded) : List Diagnostic :=
  ((node.fault? around).map node.keyword.faulty).toList

end Guarded

/-- A node and the constructs around it, the innermost first. -/
abbrev Placed := List Construct × Guarded

namespace Expr

mutual

/-- The guarded nodes in an expression, with what is around each. -/
def guarded (around : List Construct) : Expr → List Placed
  | .literal _ => []
  | .group inner => inner.guarded around
  | .unary _ operand => operand.guarded around
  | .binary left _ right => left.guarded around ++ right.guarded around
  | .logical left _ right => left.guarded around ++ right.guarded around
  | .ternary cond yes no => cond.guarded around ++ (yes.guarded around ++ no.guarded around)
  | .ref _ => []
  | .assign _ value => value.guarded around
  | .call callee _ args => callee.guarded around ++ guardedAll around args
  | .get object _ => object.guarded around
  | .set object _ value => value.guarded around ++ object.guarded around
  | .this keyword => [(around, .this keyword.name)]
  | .super keyword _ => [(around, .super keyword.name)]

def guardedAll (around : List Construct) : List Expr → List Placed
  | [] => []
  | e :: rest => e.guarded around ++ guardedAll around rest

end

def guardedOpt (around : List Construct) (e : Option Expr) : List Placed := e.elim [] (guarded around)

end Expr

namespace Stmt

mutual

def guarded (around : List Construct) : Stmt → List Placed
  | .expr e => e.guarded around
  | .print_ e => e.guarded around
  | .var _ init => Expr.guardedOpt around init
  | .block body => guardedAll around body
  | .cond test yes no => test.guarded around ++ (yes.guarded around ++ guardedOpt around no)
  | .loop test body step => test.guarded around ++ (body.guarded around ++ Expr.guardedOpt around step)
  | .break_ _ => []
  | .continue_ _ => []
  | .fun_ routine => guardedRoutine (.function :: around) routine
  | .return_ keyword value => (around, .return_ keyword value.isSome) :: Expr.guardedOpt around value
  | .class_ _ superclass methods => guardedMethods (.class_ superclass.isSome :: around) methods

def guardedAll (around : List Construct) : List Stmt → List Placed
  | [] => []
  | s :: rest => s.guarded around ++ guardedAll around rest

def guardedOpt (around : List Construct) : Option Stmt → List Placed
  | none => []
  | some s => s.guarded around

def guardedRoutine (around : List Construct) : Routine → List Placed
  | ⟨_, _, body⟩ => guardedAll around body

def guardedMethods (around : List Construct) : List Routine → List Placed
  | [] => []
  | m :: rest => guardedRoutine (.method m.name.text :: around) m ++ guardedMethods around rest

end

end Stmt

/-- The errors of some nodes, in their order. -/
def contextErrors (nodes : List Placed) : List Diagnostic := nodes.flatMap fun node => node.2.errors node.1

theorem contextErrors_append (nodes nodes' : List Placed) :
    contextErrors (nodes ++ nodes') = contextErrors nodes ++ contextErrors nodes' := List.flatMap_append

/-! ## The two fields of the resolver -/

/-- The kind of the innermost routine. -/
def routineAround (around : List Construct) : RoutineContext :=
  match around.find? Construct.isRoutine with
  | some (.method name) => if name = initName then .initializer else .method
  | some _ => .function
  | none => .none

/-- The kind of the innermost class. -/
def classAround (around : List Construct) : ClassContext :=
  match around.find? Construct.isClass with
  | some innermost => if innermost = .class_ true then .subclass else .class_
  | none => .none

namespace Resolver

/-- The resolver is inside of these constructs. -/
structure Stands (around : List Construct) (r : Resolver) : Prop where
  routine : r.routine = routineAround around
  class_ : r.class_ = classAround around

/-- What has been reported about `return`, `this` and `super`. -/
abbrev contextual (r : Resolver) : List Diagnostic := r.errorsOf BindingFault.isContextual

/-- A part of a program adds these errors and leaves both fields as they were. -/
structure Adds (found : List Diagnostic) (r r' : Resolver) : Prop where
  routine : r'.routine = r.routine
  class_ : r'.class_ = r.class_
  errors : r'.contextual = r.contextual ++ found

variable {around : List Construct} {found found' : List Diagnostic} {nodes nodes' : List Placed} {r r₁ r' : Resolver}
  {context : RoutineContext} {outer : ClassContext}

namespace Adds

theorem refl (r : Resolver) : Adds [] r r := ⟨rfl, rfl, (List.append_nil _).symm⟩

theorem trans (h : Adds found r r₁) (h' : Adds found' r₁ r') : Adds (found ++ found') r r' := by
  refine ⟨h'.routine.trans h.routine, h'.class_.trans h.class_, ?_⟩
  rw [h'.errors, h.errors, List.append_assoc]

theorem stands (h : Adds found r r') (hs : Stands around r) : Stands around r' :=
  ⟨h.routine.trans hs.routine, h.class_.trans hs.class_⟩

/-- One part of a program after the other. -/
theorem next (h : Adds (contextErrors nodes) r r₁) (h' : Adds (contextErrors nodes') r₁ r') :
    Adds (contextErrors (nodes ++ nodes')) r r' := by
  rw [contextErrors_append]
  exact h.trans h'

/-- Nothing that the two fields or the errors depend on. -/
theorem silent (hr : r'.routine = r.routine) (hc : r'.class_ = r.class_) (he : r'.errors = r.errors) :
    Adds [] r r' := by
  refine ⟨hr, hc, ?_⟩
  rw [List.append_nil, contextual, errorsOf, he]
  rfl

/-- Behind what reports nothing of the kind. -/
theorem after (h : Adds [] r r₁) (h' : Adds found r₁ r') : Adds found r r' := h.trans h'

theorem before (h : Adds found r r₁) (h' : Adds [] r₁ r') : Adds found r r' := by
  have := h.trans h'
  rwa [List.append_nil] at this

end Adds

/-! ## Effects -/

theorem adds_report (r : Resolver) (name : Lexeme) (fault : BindingFault) :
    Adds (if fault.isContextual then [name.faulty fault] else []) r (r.report name fault) :=
  ⟨rfl, rfl, errorsOf_report ..⟩

theorem adds_record (r : Resolver) (slot : Int) (hops : Nat) : Adds [] r (r.record slot hops) := .silent rfl rfl rfl

theorem adds_write (r : Resolver) (target : Reference) : Adds [] r (r.write target) := by
  unfold write
  split
  · exact adds_record ..
  · exact .refl r

theorem adds_read (r : Resolver) (target : Reference) : Adds [] r (r.read target) := by
  unfold read
  split
  · exact .silent rfl rfl rfl
  · exact .refl r

theorem adds_readVariable (r : Resolver) (target : Reference) : Adds [] r (r.readVariable target) := by
  unfold readVariable
  split
  · exact (adds_report r _ .ownInitializer).after (adds_record ..)
  · exact adds_read ..

theorem adds_declare (r : Resolver) (name : Lexeme) (watched : Bool) : Adds [] r (r.declare name watched) := by
  unfold declare
  split
  · exact .refl r
  · split
    · exact adds_report r name .duplicate
    · exact .silent rfl rfl rfl

theorem adds_define (r : Resolver) (name : Lexeme) : Adds [] r (r.define name) := by
  unfold define
  split
  · exact .refl r
  · exact .silent rfl rfl rfl

theorem adds_declared (r : Resolver) (name : Lexeme) (watched : Bool) :
    Adds [] r ((r.declare name watched).define name) :=
  (adds_declare r name watched).after (adds_define _ name)

theorem adds_params (params : List Lexeme) (r : Resolver) : Adds [] r (params.foldl param r) := by
  induction params generalizing r with
  | nil => exact .refl r
  | cons p rest ih => exact (adds_declared r p false).after (ih _)

theorem adds_reportUnused (r : Resolver) (entry : String × Local) : Adds [] r (r.reportUnused entry) := by
  unfold reportUnused
  split
  · exact adds_report r _ (.unused _)
  · exact .refl r

theorem adds_leave (r : Resolver) : Adds [] r r.leave := by
  unfold leave
  cases r.scopes with
  | nil => exact .refl r
  | cons s rest =>
    have hrest : Adds [] r { r with scopes := rest } := .silent rfl rfl rfl
    show Adds [] r (s.entries.foldl reportUnused { r with scopes := rest })
    generalize ({ r with scopes := rest } : Resolver) = r₁ at hrest ⊢
    induction s.entries generalizing r₁ with
    | nil => exact hrest
    | cons entry entries ih => exact ih _ (hrest.after (adds_reportUnused r₁ entry))

/-- A part in a scope of its own. -/
theorem Adds.inScope {scope : Scope} (h : Adds found (r.enter scope) r₁) : Adds found r r₁.leave :=
  have hentered : Adds [] r (r.enter scope) := .silent rfl rfl rfl
  hentered.after (h.before (adds_leave r₁))

/-! ## Nodes -/

theorem fault?_contextual {node : Guarded} {fault : BindingFault} (h : node.fault? around = some fault) :
    fault.isContextual = true := by
  cases node with
  | return_ keyword hasValue =>
    unfold Guarded.fault? at h
    cases hf : around.find? Construct.isRoutine <;> grind [BindingFault.isContextual]
  | this keyword | super keyword =>
    unfold Guarded.fault? at h
    cases hf : around.find? Construct.isClass <;> grind [BindingFault.isContextual]

/-- A node that is reported if it is faulty, and otherwise looked up. -/
theorem adds_node (node : Guarded) (h : Adds [] r r₁) :
    Adds (contextErrors [(around, node)]) r ((node.fault? around).elim r₁ (r.report node.keyword)) := by
  have hsingle : contextErrors [(around, node)] = node.errors around := List.append_nil _
  rw [hsingle, Guarded.errors]
  cases hfault : node.fault? around with
  | none => exact h
  | some fault =>
    have hreport := adds_report r node.keyword fault
    rw [if_pos (fault?_contextual hfault)] at hreport
    exact hreport

/-- A `this` is read, or reported outside of all classes. -/
theorem this_eq (hs : Stands around r) (keyword : Reference) :
    r.this keyword = ((Guarded.this keyword.name).fault? around).elim (r.read keyword) (r.report keyword.name) := by
  unfold this Guarded.fault?
  rw [hs.class_, classAround]
  cases around.find? Construct.isClass with
  | none => rfl
  | some innermost =>
    by_cases h : innermost = .class_ true <;> simp [h]

/-- A `super` is read, or reported where there is no superclass. -/
theorem super_eq (hs : Stands around r) (keyword : Reference) :
    r.super keyword = ((Guarded.super keyword.name).fault? around).elim (r.read keyword) (r.report keyword.name) := by
  unfold super Guarded.fault?
  rw [hs.class_, classAround]
  cases around.find? Construct.isClass with
  | none => rfl
  | some innermost =>
    by_cases h : innermost = .class_ true <;> simp [h]

/-- A `return` is reported outside of all routines, and one with a value in an initializer. -/
theorem checkReturn_eq (hs : Stands around r) (keyword : Lexeme) (hasValue : Bool) :
    r.checkReturn keyword hasValue = ((Guarded.return_ keyword hasValue).fault? around).elim r (r.report keyword) := by
  unfold checkReturn Guarded.fault?
  rw [hs.routine, routineAround]
  cases around.find? Construct.isRoutine with
  | none => rfl
  | some innermost =>
    cases innermost with
    | function | class_ => simp
    | method name =>
      by_cases h : name = initName <;> cases hasValue <;> simp [h]

theorem adds_this (hs : Stands around r) (keyword : Reference) :
    Adds (contextErrors [(around, .this keyword.name)]) r (r.this keyword) := by
  rw [this_eq hs]
  exact adds_node _ (adds_read r keyword)

theorem adds_super (hs : Stands around r) (keyword : Reference) :
    Adds (contextErrors [(around, .super keyword.name)]) r (r.super keyword) := by
  rw [super_eq hs]
  exact adds_node _ (adds_read r keyword)

theorem adds_checkReturn (hs : Stands around r) (keyword : Lexeme) (hasValue : Bool) :
    Adds (contextErrors [(around, .return_ keyword hasValue)]) r (r.checkReturn keyword hasValue) := by
  rw [checkReturn_eq hs]
  exact adds_node _ (.refl r)

/-! ## Expressions -/

mutual

/-- An expression adds the errors of its guarded nodes, in their order. -/
theorem adds_expr : ∀ (e : Expr) {r : Resolver}, Stands around r → Adds (contextErrors (e.guarded around)) r (expr e r)
  | .literal _, r, _ => .refl r
  | .group inner, _, hs => adds_expr inner hs
  | .unary _ operand, _, hs => adds_expr operand hs
  | .binary left _ right, _, hs =>
    have hleft := adds_expr left hs
    hleft.next (adds_expr right (hleft.stands hs))
  | .logical left _ right, _, hs =>
    have hleft := adds_expr left hs
    hleft.next (adds_expr right (hleft.stands hs))
  | .ternary cond yes no, _, hs =>
    have hcond := adds_expr cond hs
    have hyes := adds_expr yes (hcond.stands hs)
    hcond.next (hyes.next (adds_expr no (hyes.stands (hcond.stands hs))))
  | .ref target, r, _ => adds_readVariable r target
  | .assign target value, _, hs => (adds_expr value hs).before (adds_write _ target)
  | .call callee _ args, _, hs =>
    have hcallee := adds_expr callee hs
    hcallee.next (adds_exprs args (hcallee.stands hs))
  | .get object _, _, hs => adds_expr object hs
  | .set object _ value, _, hs =>
    have hvalue := adds_expr value hs
    hvalue.next (adds_expr object (hvalue.stands hs))
  | .this keyword, _, hs => adds_this hs keyword
  | .super keyword _, _, hs => adds_super hs keyword

theorem adds_exprs : ∀ (es : List Expr) {r : Resolver}, Stands around r →
    Adds (contextErrors (Expr.guardedAll around es)) r (exprs es r)
  | [], r, _ => .refl r
  | e :: rest, _, hs =>
    have hfirst := adds_expr e hs
    hfirst.next (adds_exprs rest (hfirst.stands hs))

end

theorem adds_exprOpt (e : Option Expr) (hs : Stands around r) :
    Adds (contextErrors (Expr.guardedOpt around e)) r (exprOpt e r) := by
  cases e with
  | none => exact .refl r
  | some e => exact adds_expr e hs

/-! ## Routines and classes -/

theorem Stands.inRoutine (hs : Stands around r) (construct : Construct) (hc : construct.isClass = false)
    (hcontext : context = routineAround (construct :: around)) :
    Stands (construct :: around) { r with routine := context } := by
  refine ⟨hcontext, hs.class_.trans ?_⟩
  unfold classAround
  rw [List.find?_cons, hc]

theorem routineAround_method (m : Routine) (around : List Construct) :
    (if m.isInit then .initializer else .method) = routineAround (.method m.name.text :: around) := by
  show _ = if m.name.text = initName then RoutineContext.initializer else .method
  simp [Routine.isInit]

theorem Adds.ofRoutine (h : Adds found { r with routine := context } r₁) :
    Adds found r { r₁ with routine := r.routine } :=
  ⟨rfl, h.class_, h.errors⟩

theorem Stands.inClass (hs : Stands around r) (hasSuperclass : Bool) :
    Stands (.class_ hasSuperclass :: around) { r with class_ := classAround (.class_ hasSuperclass :: around) } :=
  ⟨hs.routine, rfl⟩

theorem Adds.inClass (h : Adds found r r') (c : ClassContext) :
    Adds found { r with class_ := c } { r' with class_ := c } :=
  ⟨h.routine, rfl, h.errors⟩

/-- What stands before the methods of a class, from where they are walked. -/
theorem adds_openClass (r : Resolver) (name : Lexeme) (superclass : Option Reference) :
    Adds [] { r with class_ := classAround (.class_ superclass.isSome :: around) } (r.openClass name superclass) := by
  have hname := adds_declared { r with class_ := .class_ } name true
  unfold openClass
  generalize (({ r with class_ := .class_ } : Resolver).declare name true).define name = r₁ at hname ⊢
  cases superclass with
  | none => exact hname.after (.silent rfl rfl rfl)
  | some parent =>
    have hown : Adds [] r₁ (if parent.name.text = name.text then r₁.report parent.name .ownSuperclass else r₁) := by
      split
      · exact adds_report r₁ _ .ownSuperclass
      · exact .refl r₁
    simp only [superclassClause]
    generalize (if parent.name.text = name.text then r₁.report parent.name .ownSuperclass else r₁) = r₂ at hown ⊢
    have hread := adds_readVariable { r₂ with class_ := .subclass } parent
    exact (((hname.after hown).inClass .subclass).after hread).after (.silent rfl rfl rfl)

theorem Adds.closeClass {superclass : Option Reference} (h : Adds found { r with class_ := outer } r₁) :
    Adds found r (r₁.closeClass r.class_ superclass) := by
  have hleft : ∀ r₂, Adds [] r₁ r₂ → Adds found r { r₂ with class_ := r.class_ } := fun r₂ h₂ =>
    ⟨(h.before h₂).routine, rfl, (h.before h₂).errors⟩
  cases superclass with
  | none => exact hleft _ (adds_leave r₁)
  | some parent => exact hleft _ ((adds_leave r₁).after (adds_leave _))

/-! ## Statements -/

mutual

/-- A statement adds the errors of its guarded nodes, in their order. -/
theorem adds_stmt : ∀ (s : Stmt) {around : List Construct} {r : Resolver}, Stands around r →
    Adds (contextErrors (s.guarded around)) r (stmt s r)
  | .expr e, _, _, hs => adds_expr e hs
  | .print_ e, _, _, hs => adds_expr e hs
  | .var name init, _, r, hs =>
    have hdeclared := adds_declare r name true
    hdeclared.after ((adds_exprOpt init (hdeclared.stands hs)).before (adds_define _ name))
  | .block body, _, r, hs => (adds_stmts body (r := r.enter ∅) ⟨hs.routine, hs.class_⟩).inScope
  | .cond test yes no, _, _, hs =>
    have htest := adds_expr test hs
    have hyes := adds_stmt yes (htest.stands hs)
    htest.next (hyes.next (adds_stmtOpt no (hyes.stands (htest.stands hs))))
  | .loop test body step, _, _, hs =>
    have htest := adds_expr test hs
    have hbody := adds_stmt body (htest.stands hs)
    htest.next (hbody.next (adds_exprOpt step (hbody.stands (htest.stands hs))))
  | .break_ _, _, r, _ => .refl r
  | .continue_ _, _, r, _ => .refl r
  | .fun_ routine, _, r, hs =>
    have hname := adds_declared r routine.name true
    hname.after (adds_routine routine ((hname.stands hs).inRoutine .function rfl rfl))
  | .return_ keyword value, _, _, hs =>
    have hkeyword := adds_checkReturn hs keyword value.isSome
    hkeyword.next (adds_exprOpt value (hkeyword.stands hs))
  | .class_ name superclass methods, _, r, hs =>
    have hopened := adds_openClass r name superclass
    (hopened.after (adds_methods methods (hopened.stands (hs.inClass superclass.isSome)))).closeClass

theorem adds_stmts : ∀ (ss : List Stmt) {around : List Construct} {r : Resolver}, Stands around r →
    Adds (contextErrors (Stmt.guardedAll around ss)) r (stmts ss r)
  | [], _, r, _ => .refl r
  | s :: rest, _, _, hs =>
    have hfirst := adds_stmt s hs
    hfirst.next (adds_stmts rest (hfirst.stands hs))

theorem adds_stmtOpt : ∀ (s : Option Stmt) {around : List Construct} {r : Resolver}, Stands around r →
    Adds (contextErrors (Stmt.guardedOpt around s)) r (stmtOpt s r)
  | none, _, r, _ => .refl r
  | some s, _, _, hs => adds_stmt s hs

theorem adds_routine : ∀ (routine : Routine) {around : List Construct} {context : RoutineContext} {r : Resolver},
    Stands around { r with routine := context } →
    Adds (contextErrors (Stmt.guardedRoutine around routine)) r (routineBody context routine r)
  | ⟨_, params, body⟩, _, context, r, hs =>
    have hparams := adds_params params (({ r with routine := context } : Resolver).enter ∅)
    have hentered : Stands _ (({ r with routine := context } : Resolver).enter ∅) := ⟨hs.routine, hs.class_⟩
    (hparams.after (adds_stmts body (hparams.stands hentered))).inScope.ofRoutine

theorem adds_methods : ∀ (methods : List Routine) {around : List Construct} {r : Resolver}, Stands around r →
    Adds (contextErrors (Stmt.guardedMethods around methods)) r (methodBodies methods r)
  | [], _, r, _ => .refl r
  | m :: rest, _, _, hs =>
    have hfirst := adds_routine m (hs.inRoutine (.method m.name.text) rfl (routineAround_method m _))
    hfirst.next (adds_methods rest (hfirst.stands hs))

end

end Resolver

/-- The errors about `return`, `this` and `super` are exact: for every list of statements they
are those of its faulty nodes, one for each, in the order of the walk. -/
theorem context_errors (p : List Stmt) :
    (resolve p).errors.filter (·.isOf BindingFault.isContextual) = contextErrors (Stmt.guardedAll [] p) := by
  exact (@Resolver.adds_stmts p [] .start ⟨rfl, rfl⟩).errors

end Lox
