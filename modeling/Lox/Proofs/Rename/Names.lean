/-
  Lox.Proofs.Rename.Names — giving local variables and parameters another name.

  Every open scope is marked as chosen or not: in a chosen one the declaration of the old
  name is renamed. `Renames ρ chosen os site site'`: `site'` is `site`, where the scopes
  `os` are open, with the new name in place of the old one in the declarations of chosen
  scopes and in exactly the uses that lexical scoping binds to them (`isChosen`). Slots
  and lines are kept.

  Only variables and parameters are renamed: a function or a class in a chosen scope is
  not of the old name (`Keeps`). Inside a chosen scope the new name is not in use (`Free`).
  Where nothing is chosen, nothing changes (`renames_stmts`).
-/

import Lox.Proofs.Scope.Table

namespace Lox

/-- One name, and another to be used in its place. -/
structure Renaming where
  old : String
  new : String

namespace Renaming

/-- Neither name has a meaning of its own. -/
structure IsPlain (ρ : Renaming) : Prop where
  old : ρ.old ≠ thisName ∧ ρ.old ≠ superName
  new : ρ.new ≠ thisName ∧ ρ.new ≠ superName

variable (ρ : Renaming)

/-- The text of a name whose declaration is renamed or not. -/
def text (renamed : Bool) (a : String) : String := if renamed ∧ a = ρ.old then ρ.new else a

def name (renamed : Bool) (n : Lexeme) : Lexeme := ⟨ρ.text renamed n.text, n.line⟩

def reference (renamed : Bool) (r : Reference) : Reference := ⟨ρ.name renamed r.name, r.slot⟩

/-- Inside a chosen scope the new name is not in use. -/
def Free (chosen : List Bool) (a : String) : Prop := true ∈ chosen → a ≠ ρ.new

/-- The innermost scope does not rename the declaration. -/
def Keeps (chosen : List Bool) (a : String) : Prop := ρ.Free chosen a ∧ (chosen.headD false = true → a ≠ ρ.old)

@[simp] theorem name_text (renamed : Bool) (n : Lexeme) : (ρ.name renamed n).text = ρ.text renamed n.text := rfl

variable {ρ}

theorem text_of_ne {renamed : Bool} {a : String} (h : renamed = true → a ≠ ρ.old) : ρ.text renamed a = a := by
  unfold text
  rw [if_neg fun hr => h hr.1 hr.2]

theorem name_of_ne {renamed : Bool} {n : Lexeme} (h : renamed = true → n.text ≠ ρ.old) : ρ.name renamed n = n := by
  unfold name
  rw [text_of_ne h]

/-- Names other than the new one stay apart, each renamed or not. -/
theorem text_inj {renamed renamed' : Bool} {a b : String} {q : Prop} (hr : renamed = true → q)
    (hr' : renamed' = true → q)
    (ha : q → a ≠ ρ.new) (hb : q → b ≠ ρ.new) (h : ρ.text renamed a = ρ.text renamed' b) : a = b := by
  unfold text at h
  by_cases hao : renamed = true ∧ a = ρ.old
  · by_cases hbo : renamed' = true ∧ b = ρ.old
    · rw [hao.2, hbo.2]
    · rw [if_pos hao, if_neg hbo] at h
      exact absurd h.symm (hb (hr hao.1))
  · by_cases hbo : renamed' = true ∧ b = ρ.old
    · rw [if_neg hao, if_pos hbo] at h
      exact absurd h (ha (hr' hbo.1))
    · rwa [if_neg hao, if_neg hbo] at h

theorem head_mem {chosen : List Bool} (h : chosen.headD false = true) : true ∈ chosen := by
  cases chosen with
  | nil => cases h
  | cons f fs =>
    cases h
    exact List.mem_cons_self ..

end Renaming

/-- The declaration that lexical scoping binds a name to is in a chosen scope. -/
def isChosen (chosen : List Bool) (scopes : List Names) (a : String) : Bool :=
  (select? a scopes).any fun d => chosen.getD d false

open Resolver Opened

/-- A tree with the new name at the declarations of the old one in chosen scopes and at the uses
that reach them. -/
inductive Renames (ρ : Renaming) : List Bool → List Opened → Site → Site → Prop
  | nil {fs : List Bool} {os : List Opened} : Renames ρ fs os (.stmts []) (.stmts [])
  | cons {fs : List Bool} {os : List Opened} {s s' : Stmt} {rest rest' : List Stmt} :
      Renames ρ fs os (.stmt s) (.stmt s') → Renames ρ fs (declare (declared s) os) (.stmts rest) (.stmts rest') →
      Renames ρ fs os (.stmts (s :: rest)) (.stmts (s' :: rest'))
  | effect {fs : List Bool} {os : List Opened} {e e' : Expr} : Renames ρ fs os (.expr e) (.expr e') →
      Renames ρ fs os (.stmt (.expr e)) (.stmt (.expr e'))
  | printed {fs : List Bool} {os : List Opened} {e e' : Expr} : Renames ρ fs os (.expr e) (.expr e') →
      Renames ρ fs os (.stmt (.print_ e)) (.stmt (.print_ e'))
  | var {fs : List Bool} {os : List Opened} {name : Lexeme} : ρ.Free fs name.text →
      Renames ρ fs os (.stmt (.var name none)) (.stmt (.var (ρ.name (fs.headD false) name) none))
  | varInit {fs : List Bool} {os : List Opened} {name : Lexeme} {e e' : Expr} : ρ.Free fs name.text →
      Renames ρ fs (begin_ name.text os) (.expr e) (.expr e') →
      Renames ρ fs os (.stmt (.var name (some e))) (.stmt (.var (ρ.name (fs.headD false) name) (some e')))
  | block {f : Bool} {fs : List Bool} {os : List Opened} {body body' : List Stmt} :
      Renames ρ (f :: fs) (⟨.block body, []⟩ :: os) (.stmts body) (.stmts body') →
      Renames ρ fs os (.stmt (.block body)) (.stmt (.block body'))
  | cond {fs : List Bool} {os : List Opened} {e e' : Expr} {yes yes' : Stmt} : Renames ρ fs os (.expr e) (.expr e') →
      Renames ρ fs os (.stmt yes) (.stmt yes') →
      Renames ρ fs os (.stmt (.cond e yes none)) (.stmt (.cond e' yes' none))
  | condElse {fs : List Bool} {os : List Opened} {e e' : Expr} {yes yes' no no' : Stmt} :
      Renames ρ fs os (.expr e) (.expr e') → Renames ρ fs os (.stmt yes) (.stmt yes') →
      Renames ρ fs os (.stmt no) (.stmt no') →
      Renames ρ fs os (.stmt (.cond e yes (some no))) (.stmt (.cond e' yes' (some no')))
  | loop {fs : List Bool} {os : List Opened} {e e' : Expr} {body body' : Stmt} : Renames ρ fs os (.expr e) (.expr e') →
      Renames ρ fs os (.stmt body) (.stmt body') →
      Renames ρ fs os (.stmt (.loop e body none)) (.stmt (.loop e' body' none))
  | loopStep {fs : List Bool} {os : List Opened} {e e' step step' : Expr} {body body' : Stmt} :
      Renames ρ fs os (.expr e) (.expr e') → Renames ρ fs os (.stmt body) (.stmt body') →
      Renames ρ fs os (.expr step) (.expr step') →
      Renames ρ fs os (.stmt (.loop e body (some step))) (.stmt (.loop e' body' (some step')))
  | break_ {fs : List Bool} {os : List Opened} {keyword : Lexeme} :
      Renames ρ fs os (.stmt (.break_ keyword)) (.stmt (.break_ keyword))
  | continue_ {fs : List Bool} {os : List Opened} {keyword : Lexeme} :
      Renames ρ fs os (.stmt (.continue_ keyword)) (.stmt (.continue_ keyword))
  | fun_ {fs : List Bool} {os : List Opened} {f f' : Routine} : ρ.Keeps fs f.name.text →
      Renames ρ fs (declare [f.name.text] os) (.routine .function f) (.routine .function f') →
      Renames ρ fs os (.stmt (.fun_ f)) (.stmt (.fun_ f'))
  | returned {fs : List Bool} {os : List Opened} {keyword : Lexeme} :
      Renames ρ fs os (.stmt (.return_ keyword none)) (.stmt (.return_ keyword none))
  | returnedValue {fs : List Bool} {os : List Opened} {keyword : Lexeme} {e e' : Expr} :
      Renames ρ fs os (.expr e) (.expr e') →
      Renames ρ fs os (.stmt (.return_ keyword (some e))) (.stmt (.return_ keyword (some e')))
  | class_ {fs : List Bool} {os : List Opened} {name : Lexeme} {ms ms' : List Routine} : ρ.Keeps fs name.text →
      Renames ρ (false :: fs) (ofClass none ms (declare [name.text] os)) (.methods ms) (.methods ms') →
      Renames ρ fs os (.stmt (.class_ name none ms)) (.stmt (.class_ name none ms'))
  | subclass {fs : List Bool} {os : List Opened} {name : Lexeme} {target target' : Reference} {ms ms' : List Routine} :
      ρ.Keeps fs name.text →
      Renames ρ fs (begin_ name.text os) (.parent name target) (.parent name target') →
      Renames ρ (false :: false :: fs) (ofClass (some target) ms (declare [name.text] os)) (.methods ms)
        (.methods ms') →
      Renames ρ fs os (.stmt (.class_ name (some target) ms)) (.stmt (.class_ name (some target') ms'))
  | parent {fs : List Bool} {os : List Opened} {name : Lexeme} {target : Reference} : ρ.Free fs name.text →
      ρ.Free fs target.name.text → Renames ρ fs os (.parent name target)
        (.parent name (ρ.reference (isChosen fs (namesOf os) target.name.text) target))
  | noMethod {fs : List Bool} {os : List Opened} : Renames ρ fs os (.methods []) (.methods [])
  | method {fs : List Bool} {os : List Opened} {m m' : Routine} {rest rest' : List Routine} :
      Renames ρ fs os (.routine (methodContext m) m) (.routine (methodContext m) m') →
      Renames ρ fs os (.methods rest) (.methods rest') →
      Renames ρ fs os (.methods (m :: rest)) (.methods (m' :: rest'))
  | routine {f : Bool} {fs : List Bool} {os : List Opened} {context : RoutineContext} {name : Lexeme}
      {params : List Lexeme} {body body' : List Stmt} : (∀ p ∈ params, ρ.Free (f :: fs) p.text) →
      Renames ρ (f :: fs) (ofRoutine ⟨name, params, body⟩ :: os) (.stmts body) (.stmts body') →
      Renames ρ fs os (.routine context ⟨name, params, body⟩) (.routine context ⟨name, params.map (ρ.name f), body'⟩)
  | noExpr {fs : List Bool} {os : List Opened} : Renames ρ fs os (.exprs []) (.exprs [])
  | moreExprs {fs : List Bool} {os : List Opened} {e e' : Expr} {es es' : List Expr} :
      Renames ρ fs os (.expr e) (.expr e') → Renames ρ fs os (.exprs es) (.exprs es') →
      Renames ρ fs os (.exprs (e :: es)) (.exprs (e' :: es'))
  | literal {fs : List Bool} {os : List Opened} {value : Literal} :
      Renames ρ fs os (.expr (.literal value)) (.expr (.literal value))
  | group {fs : List Bool} {os : List Opened} {e e' : Expr} : Renames ρ fs os (.expr e) (.expr e') →
      Renames ρ fs os (.expr (.group e)) (.expr (.group e'))
  | unary {fs : List Bool} {os : List Opened} {op : Lexeme} {e e' : Expr} : Renames ρ fs os (.expr e) (.expr e') →
      Renames ρ fs os (.expr (.unary op e)) (.expr (.unary op e'))
  | binary {fs : List Bool} {os : List Opened} {op : Lexeme} {a a' b b' : Expr} : Renames ρ fs os (.expr a) (.expr a') →
      Renames ρ fs os (.expr b) (.expr b') → Renames ρ fs os (.expr (.binary a op b)) (.expr (.binary a' op b'))
  | logical {fs : List Bool} {os : List Opened} {op : Lexeme} {a a' b b' : Expr} : Renames ρ fs os (.expr a)
    (.expr a') →
      Renames ρ fs os (.expr b) (.expr b') → Renames ρ fs os (.expr (.logical a op b)) (.expr (.logical a' op b'))
  | ternary {fs : List Bool} {os : List Opened} {a a' b b' c c' : Expr} : Renames ρ fs os (.expr a) (.expr a') →
      Renames ρ fs os (.expr b) (.expr b') → Renames ρ fs os (.expr c) (.expr c') →
      Renames ρ fs os (.expr (.ternary a b c)) (.expr (.ternary a' b' c'))
  | ref {fs : List Bool} {os : List Opened} {target : Reference} : ρ.Free fs target.name.text →
      Renames ρ fs os (.expr (.ref target))
        (.expr (.ref (ρ.reference (isChosen fs (namesOf os) target.name.text) target)))
  | assign {fs : List Bool} {os : List Opened} {target : Reference} {e e' : Expr} : ρ.Free fs target.name.text →
      Renames ρ fs os (.expr e) (.expr e') →
      Renames ρ fs os (.expr (.assign target e))
        (.expr (.assign (ρ.reference (isChosen fs (namesOf os) target.name.text) target) e'))
  | call {fs : List Bool} {os : List Opened} {f f' : Expr} {paren : Lexeme} {es es' : List Expr} :
      Renames ρ fs os (.expr f) (.expr f') → Renames ρ fs os (.exprs es) (.exprs es') →
      Renames ρ fs os (.expr (.call f paren es)) (.expr (.call f' paren es'))
  | get {fs : List Bool} {os : List Opened} {o o' : Expr} {name : Lexeme} : Renames ρ fs os (.expr o) (.expr o') →
      Renames ρ fs os (.expr (.get o name)) (.expr (.get o' name))
  | set {fs : List Bool} {os : List Opened} {o o' v v' : Expr} {name : Lexeme} : Renames ρ fs os (.expr o) (.expr o') →
      Renames ρ fs os (.expr v) (.expr v') → Renames ρ fs os (.expr (.set o name v)) (.expr (.set o' name v'))
  | this {fs : List Bool} {os : List Opened} {keyword : Reference} :
      Renames ρ fs os (.expr (.this keyword)) (.expr (.this keyword))
  | super {fs : List Bool} {os : List Opened} {keyword : Reference} {method : Lexeme} :
      Renames ρ fs os (.expr (.super keyword method)) (.expr (.super keyword method))

/-! ## Where nothing is chosen -/

variable {ρ : Renaming} {fs : List Bool} {os : List Opened}

def NoneChosen (chosen : List Bool) : Prop := true ∉ chosen

theorem NoneChosen.free (h : NoneChosen fs) (a : String) : ρ.Free fs a := fun hm => absurd hm h

theorem NoneChosen.head (h : NoneChosen fs) : fs.headD false = false := by
  rw [← Bool.not_eq_true]
  exact fun ht => h (Renaming.head_mem ht)

theorem NoneChosen.keeps (h : NoneChosen fs) (a : String) : ρ.Keeps fs a :=
  ⟨h.free a, fun ht => by rw [h.head] at ht; cases ht⟩

theorem NoneChosen.cons (h : NoneChosen fs) : NoneChosen (false :: fs) := by
  intro hm
  rcases List.mem_cons.mp hm with hm | hm
  · cases hm
  · exact h hm

theorem isChosen_mem {scopes : List Names} {a : String} (h : isChosen fs scopes a = true) : true ∈ fs := by
  unfold isChosen at h
  cases hs : select? a scopes with
  | none => simp [hs] at h
  | some d =>
    rw [hs, Option.any_some, List.getD_eq_getElem?_getD] at h
    cases hd : fs[d]? with
    | none => simp [hd] at h
    | some f =>
      rw [hd, Option.getD_some] at h
      subst h
      exact List.mem_of_getElem? hd

theorem NoneChosen.isChosen (h : NoneChosen fs) (scopes : List Names) (a : String) : isChosen fs scopes a = false := by
  rw [← Bool.not_eq_true]
  exact fun ht => h (isChosen_mem ht)

theorem NoneChosen.ref (h : NoneChosen fs) (target : Reference) :
    Renames ρ fs os (.expr (.ref target)) (.expr (.ref target)) := by
  have hr : Renames ρ fs os _ _ := Renames.ref (h.free target.name.text)
  rwa [h.isChosen] at hr

mutual

/-- Where no scope is chosen an expression stays as it is. -/
theorem renames_expr : ∀ (e : Expr) {fs : List Bool} {os : List Opened}, NoneChosen fs →
    Renames ρ fs os (.expr e) (.expr e)
  | .literal _, _, _, _ => .literal
  | .group inner, _, _, h => .group (renames_expr inner h)
  | .unary _ operand, _, _, h => .unary (renames_expr operand h)
  | .binary left _ right, _, _, h => .binary (renames_expr left h) (renames_expr right h)
  | .logical left _ right, _, _, h => .logical (renames_expr left h) (renames_expr right h)
  | .ternary cond yes no, _, _, h => .ternary (renames_expr cond h) (renames_expr yes h) (renames_expr no h)
  | .ref target, _, _, h => h.ref target
  | .assign target value, _, os, h => by
    have ha : Renames ρ _ os _ _ := Renames.assign (h.free target.name.text) (renames_expr value h)
    rwa [h.isChosen] at ha
  | .call callee _ args, _, _, h => .call (renames_expr callee h) (renames_exprs args h)
  | .get object _, _, _, h => .get (renames_expr object h)
  | .set object _ value, _, _, h => .set (renames_expr object h) (renames_expr value h)
  | .this _, _, _, _ => .this
  | .super _ _, _, _, _ => .super

theorem renames_exprs : ∀ (es : List Expr) {fs : List Bool} {os : List Opened}, NoneChosen fs →
    Renames ρ fs os (.exprs es) (.exprs es)
  | [], _, _, _ => .noExpr
  | e :: rest, _, _, h => .moreExprs (renames_expr e h) (renames_exprs rest h)

end

mutual

/-- Where no scope is chosen a statement stays as it is. -/
theorem renames_stmt : ∀ (s : Stmt) {fs : List Bool} {os : List Opened}, NoneChosen fs →
    Renames ρ fs os (.stmt s) (.stmt s)
  | .expr e, _, _, h => .effect (renames_expr e h)
  | .print_ e, _, _, h => .printed (renames_expr e h)
  | .var name none, _, os, h => by
    have hv : Renames ρ _ os _ _ := Renames.var (h.free name.text)
    rwa [h.head] at hv
  | .var name (some e), _, os, h => by
    have hv : Renames ρ _ os _ _ := Renames.varInit (h.free name.text) (renames_expr e h)
    rwa [h.head] at hv
  | .block body, _, _, h => .block (renames_stmts body h.cons)
  | .cond e yes none, _, _, h => .cond (renames_expr e h) (renames_stmt yes h)
  | .cond e yes (some no), _, _, h => .condElse (renames_expr e h) (renames_stmt yes h) (renames_stmt no h)
  | .loop e body none, _, _, h => .loop (renames_expr e h) (renames_stmt body h)
  | .loop e body (some step), _, _, h => .loopStep (renames_expr e h) (renames_stmt body h) (renames_expr step h)
  | .break_ _, _, _, _ => .break_
  | .continue_ _, _, _, _ => .continue_
  | .fun_ f, _, _, h => .fun_ (h.keeps _) (renames_routine f .function h)
  | .return_ _ none, _, _, _ => .returned
  | .return_ _ (some e), _, _, h => .returnedValue (renames_expr e h)
  | .class_ _ none methods, _, _, h => .class_ (h.keeps _) (renames_methods methods h.cons)
  | .class_ name (some target) methods, _, os, h => by
    have hp : Renames ρ _ (begin_ name.text os) _ _ := Renames.parent (h.free name.text) (h.free target.name.text)
    rw [h.isChosen] at hp
    exact .subclass (h.keeps _) hp (renames_methods methods h.cons.cons)

theorem renames_stmts : ∀ (ss : List Stmt) {fs : List Bool} {os : List Opened}, NoneChosen fs →
    Renames ρ fs os (.stmts ss) (.stmts ss)
  | [], _, _, _ => .nil
  | s :: rest, _, _, h => .cons (renames_stmt s h) (renames_stmts rest h)

theorem renames_routine :
    ∀ (f : Routine) (context : RoutineContext) {fs : List Bool} {os : List Opened}, NoneChosen fs →
    Renames ρ fs os (.routine context f) (.routine context f)
  | ⟨name, params, body⟩, context, _, os, h => by
    have hr : Renames ρ _ os (.routine context ⟨name, params, body⟩) _ :=
      Renames.routine (fun p _ => h.cons.free p.text) (renames_stmts body h.cons)
    have hsame : params.map (ρ.name false) = params := List.map_id params
    rwa [hsame] at hr

theorem renames_methods : ∀ (ms : List Routine) {fs : List Bool} {os : List Opened}, NoneChosen fs →
    Renames ρ fs os (.methods ms) (.methods ms)
  | [], _, _, _ => .noMethod
  | m :: rest, _, _, h => .method (renames_routine m _ h) (renames_methods rest h)

end

end Lox
