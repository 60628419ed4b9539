/-
  Lox.Proofs.Rename.Program — the program with a local name renamed: `Renaming.program`
  gives the variable or parameter of the old name the new one, in every scope that is
  picked, with the uses that lexical scoping binds to it.

  A scope is picked by where it stands in the text. One that does not declare the old
  name, or declares it as a function or a class, is left as it is; in a program that is
  accepted it cannot do both (`declared_once`). If the new name is not in use, what comes
  out is related to the program by `Renames` (`renames_program`).
-/

import Lox.Proofs.Rename.Names

namespace Lox

/-! ## The names in a program -/

namespace Expr

mutual

/-- The names of the variables that an expression uses. -/
def names : Expr → List String
  | .literal _ => []
  | .group inner => inner.names
  | .unary _ operand => operand.names
  | .binary left _ right => left.names ++ right.names
  | .logical left _ right => left.names ++ right.names
  | .ternary cond yes no => cond.names ++ (yes.names ++ no.names)
  | .ref target => [target.name.text]
  | .assign target value => target.name.text :: value.names
  | .call callee _ args => callee.names ++ namesAll args
  | .get object _ => object.names
  | .set object _ value => object.names ++ value.names
  | .this _ => []
  | .super _ _ => []

def namesAll : List Expr → List String
  | [] => []
  | e :: rest => e.names ++ namesAll rest

end

def namesOpt (e : Option Expr) : List String := e.elim [] names

end Expr

namespace Stmt

mutual

/-- The names that a statement declares or uses. Properties and methods have none of these names. -/
def names : Stmt → List String
  | .expr e => e.names
  | .print_ e => e.names
  | .var name init => name.text :: Expr.namesOpt init
  | .block body => namesAll body
  | .cond test yes no => test.names ++ (yes.names ++ namesOpt no)
  | .loop test body step => test.names ++ (body.names ++ Expr.namesOpt step)
  | .break_ _ => []
  | .continue_ _ => []
  | .fun_ routine => routine.name.text :: routineNames routine
  | .return_ _ value => Expr.namesOpt value
  | .class_ name superclass methods =>
    name.text :: (superclass.elim [] (fun r => [r.name.text]) ++ methodNames methods)

def namesAll : List Stmt → List String
  | [] => []
  | s :: rest => s.names ++ namesAll rest

def namesOpt : Option Stmt → List String
  | none => []
  | some s => s.names

def routineNames : Routine → List String
  | ⟨_, params, body⟩ => params.map (·.text) ++ namesAll body

def methodNames : List Routine → List String
  | [] => []
  | m :: rest => routineNames m ++ methodNames rest

end

def isVariable (x : String) : Stmt → Bool
  | .var name _ => name.text = x
  | _ => false

end Stmt

/-- A scope that declares the name as a variable or a parameter. -/
def Frame.hasVariable (x : String) : Frame → Bool
  | .block body => body.any (Stmt.isVariable x)
  | .routine r => r.params.any (·.text = x) || r.body.any (Stmt.isVariable x)
  | _ => false

/-! ## Renaming -/

open Resolver Opened

namespace Renaming

variable (ρ : Renaming)

/-- A use of a name, renamed if it is bound to a declaration that is. -/
def use (chosen : List Bool) (os : List Opened) (r : Reference) : Reference :=
  ρ.reference (isChosen chosen (namesOf os) r.name.text) r

mutual

def inExpr (chosen : List Bool) (os : List Opened) : Expr → Expr
  | .literal value => .literal value
  | .group inner => .group (inExpr chosen os inner)
  | .unary op operand => .unary op (inExpr chosen os operand)
  | .binary left op right => .binary (inExpr chosen os left) op (inExpr chosen os right)
  | .logical left op right => .logical (inExpr chosen os left) op (inExpr chosen os right)
  | .ternary cond yes no => .ternary (inExpr chosen os cond) (inExpr chosen os yes) (inExpr chosen os no)
  | .ref target => .ref (ρ.use chosen os target)
  | .assign target value => .assign (ρ.use chosen os target) (inExpr chosen os value)
  | .call callee paren args => .call (inExpr chosen os callee) paren (inExprs chosen os args)
  | .get object name => .get (inExpr chosen os object) name
  | .set object name value => .set (inExpr chosen os object) name (inExpr chosen os value)
  | .this keyword => .this keyword
  | .super keyword method => .super keyword method

def inExprs (chosen : List Bool) (os : List Opened) : List Expr → List Expr
  | [] => []
  | e :: rest => inExpr chosen os e :: inExprs chosen os rest

end

/-- Picks scopes by where they stand in the text: the steps that lead there, the last one first. -/
abbrev Pick := List Nat → Bool

variable (pick : Pick)

/-- A picked scope is chosen if it has the name. -/
def chooses (path : List Nat) (frame : Frame) : Bool := pick path && frame.hasVariable ρ.old

mutual

def inStmt (path : List Nat) (chosen : List Bool) (os : List Opened) : Stmt → Stmt
  | .expr e => .expr (ρ.inExpr chosen os e)
  | .print_ e => .print_ (ρ.inExpr chosen os e)
  | .var name none => .var (ρ.name (chosen.headD false) name) none
  | .var name (some init) => .var (ρ.name (chosen.headD false) name) (some (ρ.inExpr chosen (begin_ name.text os) init))
  | .block body =>
    .block (inStmts (0 :: path) (ρ.chooses pick path (.block body) :: chosen) (⟨.block body, []⟩ :: os) body)
  | .cond test yes none => .cond (ρ.inExpr chosen os test) (inStmt (0 :: path) chosen os yes) none
  | .cond test yes (some no) =>
    .cond (ρ.inExpr chosen os test) (inStmt (0 :: path) chosen os yes) (some (inStmt (1 :: path) chosen os no))
  | .loop test body none => .loop (ρ.inExpr chosen os test) (inStmt (0 :: path) chosen os body) none
  | .loop test body (some step) =>
    .loop (ρ.inExpr chosen os test) (inStmt (0 :: path) chosen os body) (some (ρ.inExpr chosen os step))
  | .break_ keyword => .break_ keyword
  | .continue_ keyword => .continue_ keyword
  | .fun_ routine => .fun_ (inRoutine (0 :: path) chosen (declare [routine.name.text] os) routine)
  | .return_ keyword none => .return_ keyword none
  | .return_ keyword (some value) => .return_ keyword (some (ρ.inExpr chosen os value))
  | .class_ name none methods =>
    .class_ name none (inMethods (0 :: path) (false :: chosen) (ofClass none methods (declare [name.text] os)) methods)
  | .class_ name (some parent) methods =>
    .class_ name (some (ρ.use chosen (begin_ name.text os) parent))
      (inMethods (0 :: path) (false :: false :: chosen) (ofClass (some parent) methods (declare [name.text] os))
        methods)

def inStmts (path : List Nat) (chosen : List Bool) (os : List Opened) : List Stmt → List Stmt
  | [] => []
  | s :: rest => inStmt (0 :: path) chosen os s :: inStmts (1 :: path) chosen (declare (declared s) os) rest

def inRoutine (path : List Nat) (chosen : List Bool) (os : List Opened) : Routine → Routine
  | ⟨name, params, body⟩ =>
    let renamed := ρ.chooses pick path (.routine ⟨name, params, body⟩)
    ⟨name, params.map (ρ.name renamed), inStmts (0 :: path) (renamed :: chosen) (ofRoutine ⟨name, params, body⟩ :: os)
      body⟩

def inMethods (path : List Nat) (chosen : List Bool) (os : List Opened) : List Routine → List Routine
  | [] => []
  | m :: rest => inRoutine (0 :: path) chosen os m :: inMethods (1 :: path) chosen os rest

end

/-- The program with the old name renamed in the scopes that are picked. -/
def program (p : List Stmt) : List Stmt := ρ.inStmts pick [] [] [] p

end Renaming

/-! ## A scope declares a name once -/

variable {ρ : Renaming} {p ss : List Stmt} {s : Stmt} {r : Resolver} {os : List Opened} {o : Opened} {x : String}

/-- What a statement declares is not declared in the scope it stands in. -/
theorem fresh_of_declared (hp : Accepted p) (h : Within p (.stmt s) r os) (hx : x ∈ declared s) :
    IsFresh x (namesOf os) := by
  obtain ⟨htidy, hpart, hstand, -⟩ := resolved hp h
  rw [← hstand.scopes]
  cases s with
  | var name init =>
    cases List.mem_singleton.mp hx
    have herrors : ((exprOpt init (r.declare name true)).define name).errors = #[] := hpart.errors
    rw [(define_same ..).1] at herrors
    exact ((declare_spec r name true).2.2.2 ((walked_exprOpt init _).errors herrors)).2.1
  | fun_ f =>
    cases List.mem_singleton.mp hx
    have hdefined := (walked_routine .function f htidy.2 _).errors hpart.errors
    rw [(define_same ..).1] at hdefined
    exact ((declare_spec r f.name true).2.2.2 hdefined).2.1
  | class_ name superclass methods =>
    cases List.mem_singleton.mp hx
    have hopen := (walked_methods methods htidy.2.2 _).errors ((closeClass_eq _ r.class_ superclass).2 hpart.errors)
    have hnamed := errors_openClass hopen
    unfold named at hnamed
    rw [(define_same ..).1] at hnamed
    exact ((declare_spec { r with class_ := .class_ } name true).2.2.2 hnamed).2.1
  | _ => cases hx

theorem fresh_head (h : IsFresh x (namesOf (o :: os))) : ∀ entry ∈ o.names, entry.1 ≠ x := by
  intro entry he hx
  have hnone := (Bindings.find_eq_none_iff ..).mp (h o.names rfl)
  exact hnone (List.mem_map.mpr ⟨entry, he, hx⟩)

theorem fresh_of_declaredAll (hp : Accepted p) (h : Within p (.stmts ss) r (o :: os)) (hx : x ∈ declaredAll ss) :
    ∀ entry ∈ o.names, entry.1 ≠ x := by
  induction ss generalizing r o with
  | nil => cases hx
  | cons s rest ih =>
    rcases List.mem_append.mp hx with hx | hx
    · exact fresh_head (fresh_of_declared hp (.first h) hx)
    · intro entry he
      exact ih (.next h) hx entry (List.mem_append_left _ he)

theorem mem_declaredAll : x ∈ declaredAll ss ↔ ∃ s ∈ ss, x ∈ declared s := by
  induction ss with
  | nil => simp [declaredAll]
  | cons s rest ih => simp [declaredAll, ih]

theorem declared_apart (hp : Accepted p) (h : Within p (.stmts ss) r (o :: os)) :
    ss.Pairwise fun s s' => ∀ x ∈ declared s, x ∉ declared s' := by
  induction ss generalizing r o with
  | nil => exact .nil
  | cons s rest ih =>
    refine .cons (fun s' hs' x hx hx' => ?_) (ih (.next h))
    refine fresh_of_declaredAll hp (.next h) (mem_declaredAll.mpr ⟨s', hs', hx'⟩) (x, true) ?_ rfl
    exact List.mem_append_right _ (List.mem_map.mpr ⟨x, hx, rfl⟩)

/-- In a scope that has the name as a variable or a parameter nothing else declares it. -/
theorem declared_once (hp : Accepted p) (h : Within p (.stmts ss) r (o :: os))
    (hv : (∃ entry ∈ o.names, entry.1 = x) ∨ ss.any (Stmt.isVariable x) = true) :
    ∀ s ∈ ss, x ∈ declared s → s.isVariable x = true := by
  intro s hs hx
  rcases hv with ⟨entry, he, hentry⟩ | hv
  · exact absurd hentry (fresh_of_declaredAll hp h (mem_declaredAll.mpr ⟨s, hs, hx⟩) entry he)
  · obtain ⟨v, hv, hvar⟩ := List.any_eq_true.mp hv
    have hxv : x ∈ declared v := by
      unfold Stmt.isVariable at hvar
      split at hvar
      next name init => exact List.mem_singleton.mpr (of_decide_eq_true hvar).symm
      next => cases hvar
    obtain ⟨front, back, rfl⟩ := List.append_of_mem hv
    obtain ⟨-, hback, hfront⟩ := List.pairwise_append.mp (declared_apart hp h)
    rcases List.mem_append.mp hs with hs | hs
    · exact absurd hxv (hfront s hs v (List.mem_cons_self ..) x hx)
    · rcases List.mem_cons.mp hs with rfl | hs
      · exact hvar
      · exact absurd hx ((List.pairwise_cons.mp hback).1 s hs x hxv)

/-! ## Chosen scopes -/

def Frame.body : Frame → List Stmt
  | .block body => body
  | .routine r => r.body
  | _ => []

/-- Where a statement stands in the innermost scope. -/
def StandsIn (body : List Stmt) : Site → Prop
  | .stmts ss => ∃ front, body = front ++ ss
  | .stmt s => s ∈ body ∨ s.declares? = none
  | _ => True

/-- What is in a scope stands in the body of its frame. -/
theorem standsIn_of_within {site : Site} (hp : Accepted p) (h : Within p site r os) :
    ∀ o ∈ os.head?, StandsIn o.frame.body site := by
  induction h with
  | root => intro o ho; cases ho
  | first _ ih =>
    intro o ho
    obtain ⟨front, hbody⟩ := ih o ho
    exact Or.inl (hbody ▸ List.mem_append_right _ (List.mem_cons_self ..))
  | @next s rest r os _ ih =>
    cases os with
    | nil => intro o ho; cases ho
    | cons first os =>
      intro o ho
      cases ho
      obtain ⟨front, hbody⟩ := ih first rfl
      exact ⟨front ++ [s], by simpa using hbody⟩
  | block | body => intro o ho; cases ho; exact ⟨[], rfl⟩
  | condYes h => exact fun _ _ => Or.inr (resolved hp h).tidy.2.1.2
  | condNo h => exact fun _ _ => Or.inr (resolved hp h).tidy.2.2.2
  | loopBody h => exact fun _ _ => Or.inr (resolved hp h).tidy.2.1.2
  | _ => exact fun _ _ => trivial

/-- A chosen scope has the old name for a variable or a parameter. -/
def Chosen (ρ : Renaming) : List Bool → List Opened → Prop
  | [], [] => True
  | f :: fs, o :: os => (f = true → ∀ s ∈ o.frame.body, ρ.old ∈ declared s → s.isVariable ρ.old = true) ∧ Chosen ρ fs os
  | _, _ => False

variable {fs : List Bool} {pick : Renaming.Pick}

theorem chosen_declare (xs : List String) (h : Chosen ρ fs os) : Chosen ρ fs (declare xs os) := by
  cases fs <;> cases os <;> exact h

theorem chosen_block {path : List Nat} {body : List Stmt} (hp : Accepted p) (h : Within p (.stmt (.block body)) r os)
    (hc : Chosen ρ fs os) : Chosen ρ (ρ.chooses pick path (.block body) :: fs) (⟨.block body, []⟩ :: os) :=
  ⟨fun hf => declared_once hp (.block h) (Or.inr (Bool.and_eq_true_iff.mp hf).2), hc⟩

theorem chosen_routine {path : List Nat} {context : RoutineContext} {f : Routine} (hp : Accepted p)
    (h : Within p (.routine context f) r os) (hc : Chosen ρ fs os) :
    Chosen ρ (ρ.chooses pick path (.routine f) :: fs) (ofRoutine f :: os) := by
  refine ⟨fun hf => declared_once hp (.body h) ?_, hc⟩
  rcases Bool.or_eq_true_iff.mp (Bool.and_eq_true_iff.mp hf).2 with hparam | hbody
  · obtain ⟨a, ha, hx⟩ := List.any_eq_true.mp hparam
    exact Or.inl ⟨(a.text, true), List.mem_map.mpr ⟨a, ha, rfl⟩, of_decide_eq_true hx⟩
  · exact Or.inr hbody

/-- A function or a class is not renamed. -/
theorem keeps_of_chosen {name : Lexeme} (hp : Accepted p) (h : Within p (.stmt s) r os) (hc : Chosen ρ fs os)
    (hd : s.declares? = some name) (hv : s.isVariable ρ.old = false) (hn : name.text ≠ ρ.new) :
    ρ.Keeps fs name.text := by
  refine ⟨fun _ => hn, fun hf hx => ?_⟩
  cases fs with
  | nil => cases hf
  | cons f fs =>
    cases os with
    | nil => exact hc
    | cons o os =>
      rcases standsIn_of_within hp h o rfl with hs | hs
      · have hdeclared : ρ.old ∈ declared s := by
          unfold declared
          rw [hd, ← hx]
          exact List.mem_singleton_self _
        rw [hc.1 hf s hs hdeclared] at hv
        cases hv
      · rw [hs] at hd
        cases hd

/-! ## The renamed program is related to the program -/

theorem free_of_ne {a : String} (h : a ≠ ρ.new) : ρ.Free fs a := fun _ => h

mutual

/-- To rename an expression in its scopes is one way of renaming. -/
theorem renames_inExpr : ∀ (e : Expr) (fs : List Bool) (os : List Opened), ρ.new ∉ e.names →
    Renames ρ fs os (.expr e) (.expr (ρ.inExpr fs os e))
  | .literal _, _, _, _ => .literal
  | .group inner, fs, os, h => .group (renames_inExpr inner fs os h)
  | .unary _ operand, fs, os, h => .unary (renames_inExpr operand fs os h)
  | .binary left _ right, fs, os, h => by
    simp only [Expr.names, List.mem_append, not_or] at h
    exact .binary (renames_inExpr left fs os h.1) (renames_inExpr right fs os h.2)
  | .logical left _ right, fs, os, h => by
    simp only [Expr.names, List.mem_append, not_or] at h
    exact .logical (renames_inExpr left fs os h.1) (renames_inExpr right fs os h.2)
  | .ternary cond yes no, fs, os, h => by
    simp only [Expr.names, List.mem_append, not_or] at h
    exact .ternary (renames_inExpr cond fs os h.1) (renames_inExpr yes fs os h.2.1) (renames_inExpr no fs os h.2.2)
  | .ref target, _, _, h => .ref (free_of_ne fun he => h (List.mem_singleton.mpr he.symm))
  | .assign target value, fs, os, h => by
    simp only [Expr.names, List.mem_cons, not_or] at h
    exact .assign (free_of_ne fun he => h.1 he.symm) (renames_inExpr value fs os h.2)
  | .call callee _ args, fs, os, h => by
    simp only [Expr.names, List.mem_append, not_or] at h
    exact .call (renames_inExpr callee fs os h.1) (renames_inExprs args fs os h.2)
  | .get object _, fs, os, h => .get (renames_inExpr object fs os h)
  | .set object _ value, fs, os, h => by
    simp only [Expr.names, List.mem_append, not_or] at h
    exact .set (renames_inExpr object fs os h.1) (renames_inExpr value fs os h.2)
  | .this _, _, _, _ => .this
  | .super _ _, _, _, _ => .super

theorem renames_inExprs : ∀ (es : List Expr) (fs : List Bool) (os : List Opened), ρ.new ∉ Expr.namesAll es →
    Renames ρ fs os (.exprs es) (.exprs (ρ.inExprs fs os es))
  | [], _, _, _ => .noExpr
  | e :: rest, fs, os, h => by
    simp only [Expr.namesAll, List.mem_append, not_or] at h
    exact .moreExprs (renames_inExpr e fs os h.1) (renames_inExprs rest fs os h.2)

end

mutual

/-- To rename a statement in its scopes is one way of renaming. -/
theorem renames_inStmt (hp : Accepted p) :
    ∀ (s : Stmt) (path : List Nat) {fs : List Bool} {r : Resolver} {os : List Opened},
    Within p (.stmt s) r os → Chosen ρ fs os → ρ.new ∉ s.names →
    Renames ρ fs os (.stmt s) (.stmt (ρ.inStmt pick path fs os s))
  | .expr e, _, fs, _, os, _, _, h => .effect (renames_inExpr e fs os h)
  | .print_ e, _, fs, _, os, _, _, h => .printed (renames_inExpr e fs os h)
  | .var name none, _, _, _, _, _, _, h => .var (free_of_ne fun he => h (List.mem_singleton.mpr he.symm))
  | .var name (some e), _, fs, _, os, _, _, h => by
    simp only [Stmt.names, List.mem_cons, not_or] at h
    exact .varInit (free_of_ne fun he => h.1 he.symm) (renames_inExpr e fs (begin_ name.text os) h.2)
  | .block body, _, _, _, _, hw, hc, h => .block (renames_inStmts hp body _ (.block hw) (chosen_block hp hw hc) h)
  | .cond e yes none, path, fs, _, os, hw, hc, h => by
    simp only [Stmt.names, List.mem_append, not_or] at h
    exact .cond (renames_inExpr e fs os h.1) (renames_inStmt hp yes (0 :: path) (.condYes hw) hc h.2.1)
  | .cond e yes (some no), path, fs, _, os, hw, hc, h => by
    simp only [Stmt.names, List.mem_append, not_or] at h
    exact .condElse (renames_inExpr e fs os h.1) (renames_inStmt hp yes (0 :: path) (.condYes hw) hc h.2.1)
      (renames_inStmt hp no (1 :: path) (.condNo hw) hc h.2.2)
  | .loop e body none, path, fs, _, os, hw, hc, h => by
    simp only [Stmt.names, List.mem_append, not_or] at h
    exact .loop (renames_inExpr e fs os h.1) (renames_inStmt hp body (0 :: path) (.loopBody hw) hc h.2.1)
  | .loop e body (some step), path, fs, _, os, hw, hc, h => by
    simp only [Stmt.names, List.mem_append, not_or] at h
    exact .loopStep (renames_inExpr e fs os h.1) (renames_inStmt hp body (0 :: path) (.loopBody hw) hc h.2.1)
      (renames_inExpr step fs os h.2.2)
  | .break_ _, _, _, _, _, _, _, _ => .break_
  | .continue_ _, _, _, _, _, _, _, _ => .continue_
  | .fun_ f, path, _, _, _, hw, hc, h => by
    simp only [Stmt.names, List.mem_cons, not_or] at h
    exact .fun_ (keeps_of_chosen hp hw hc rfl rfl fun he => h.1 he.symm)
      (renames_inRoutine hp f .function (0 :: path) (.fun_ hw) (chosen_declare _ hc) h.2)
  | .return_ _ none, _, _, _, _, _, _, _ => .returned
  | .return_ _ (some e), _, fs, _, os, _, _, h => .returnedValue (renames_inExpr e fs os h)
  | .class_ name none methods, path, _, _, os, hw, hc, h => by
    simp only [Stmt.names, List.mem_cons, List.mem_append, not_or] at h
    refine .class_ (keeps_of_chosen hp hw hc rfl rfl fun he => h.1 he.symm) ?_
    exact renames_inMethods hp methods (0 :: path) (.methods hw) ⟨nofun, chosen_declare _ hc⟩ h.2.2
  | .class_ name (some target) methods, path, fs, _, os, hw, hc, h => by
    simp only [Stmt.names, List.mem_cons, List.mem_append, not_or] at h
    have htarget : target.name.text ≠ ρ.new := fun he => h.2.1 (List.mem_singleton.mpr he.symm)
    refine .subclass (keeps_of_chosen hp hw hc rfl rfl fun he => h.1 he.symm)
      (.parent (free_of_ne fun he => h.1 he.symm) (free_of_ne htarget)) ?_
    exact renames_inMethods hp methods (0 :: path) (.methods hw) ⟨nofun, nofun, chosen_declare _ hc⟩ h.2.2

theorem renames_inStmts (hp : Accepted p) : ∀ (ss : List Stmt) (path : List Nat) {fs : List Bool} {r : Resolver}
    {os : List Opened},
    Within p (.stmts ss) r os → Chosen ρ fs os → ρ.new ∉ Stmt.namesAll ss →
    Renames ρ fs os (.stmts ss) (.stmts (ρ.inStmts pick path fs os ss))
  | [], _, _, _, _, _, _, _ => .nil
  | s :: rest, path, _, _, _, hw, hc, h => by
    simp only [Stmt.namesAll, List.mem_append, not_or] at h
    exact .cons (renames_inStmt hp s (0 :: path) (.first hw) hc h.1)
      (renames_inStmts hp rest (1 :: path) (.next hw) (chosen_declare _ hc) h.2)

theorem renames_inRoutine (hp : Accepted p) :
    ∀ (f : Routine) (context : RoutineContext) (path : List Nat) {fs : List Bool}
    {r : Resolver} {os : List Opened}, Within p (.routine context f) r os → Chosen ρ fs os →
      ρ.new ∉ Stmt.routineNames f →
    Renames ρ fs os (.routine context f) (.routine context (ρ.inRoutine pick path fs os f))
  | ⟨name, params, body⟩, context, path, _, _, _, hw, hc, h => by
    simp only [Stmt.routineNames, List.mem_append, not_or] at h
    refine .routine (fun a ha => free_of_ne fun he => h.1 (List.mem_map.mpr ⟨a, ha, he⟩)) ?_
    exact renames_inStmts hp body (0 :: path) (.body hw) (chosen_routine hp hw hc) h.2

theorem renames_inMethods (hp : Accepted p) : ∀ (ms : List Routine) (path : List Nat) {fs : List Bool} {r : Resolver}
    {os : List Opened}, Within p (.methods ms) r os → Chosen ρ fs os → ρ.new ∉ Stmt.methodNames ms →
    Renames ρ fs os (.methods ms) (.methods (ρ.inMethods pick path fs os ms))
  | [], _, _, _, _, _, _, _ => .noMethod
  | m :: rest, path, _, _, _, hw, hc, h => by
    simp only [Stmt.methodNames, List.mem_append, not_or] at h
    exact .method (renames_inRoutine hp m (methodContext m) (0 :: path) (.method hw) hc h.1)
      (renames_inMethods hp rest (1 :: path) (.nextMethod hw) hc h.2)

end

theorem renames_program (hp : Accepted p) (h : ρ.new ∉ Stmt.namesAll p) (pick : Renaming.Pick) :
    Renames ρ [] [] (.stmts p) (.stmts (ρ.program pick p)) :=
  renames_inStmts hp p [] .root trivial h

end Lox
