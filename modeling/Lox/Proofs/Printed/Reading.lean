/-
  Lox.Proofs.Printed.Reading — a printed tree read back: its form gives the tree without
  lines and slots (`bareStmts_printed`).

  A word is a number, a literal, `this`, or else a name; the head of a form and the number
  of its parts tell what the form is. Names are read as variables and made into what they
  are where they stand: behind a point, and before an equals sign. No operator of two operands
  is the head of another form, and no name is `super`. Which number a word stands for is left
  open.
-/

import Lox.Proofs.Printed.Numbers
import Lox.Proofs.Printed.Spelled
import Lox.Proofs.Token.Cuts

namespace Lox

namespace Printed

/-! ## Expressions -/

def lexeme (w : String) : Lexeme := ⟨w, 0⟩

def reference (w : String) : Reference := ⟨lexeme w, 0⟩

def assigned : Expr → Expr → Expr
  | .ref target, value => .assign target value
  | .get object name, value => .set object name value
  | _, _ => default

def member : Expr → Expr → Expr
  | .ref object, .ref name =>
    if object.name.text = superName then .super object name.name else .get (.ref object) name.name
  | object, .ref name => .get object name.name
  | _, _ => default

def called : List Expr → Expr
  | callee :: args => .call callee (lexeme Symbol.rightParen.text) args
  | [] => default

def built (head : String) (parts : List Expr) : Expr :=
  if head = "call" then called parts
  else
    match parts with
    | [a] => if head = "group" then .group a else .unary (lexeme head) a
    | [a, b] =>
      if head = "=" then assigned a b
      else if head = "." then member a b
      else if head ∈ logicalHeads then .logical a (lexeme head) b
      else .binary a (lexeme head) b
    | [a, b, c] => .ternary a b c
    | _ => default

variable (value : String → Float)

def atom (w : String) : Expr :=
  if w.toList.head?.any Number.isFirst then .literal (.number (value w))
  else
    match Keyword.ofText? w with
    | some .nil => .literal .nil
    | some .true_ => .literal (.bool true)
    | some .false_ => .literal (.bool false)
    | some .this => .this (reference w)
    | _ => .ref (reference w)

mutual

def bareExpr : Printed → Expr
  | word w => atom value w
  | quoted text => .literal (.string text)
  | form (word head :: parts) => built head (bareExprs parts)
  | form _ => default

def bareExprs : List Printed → List Expr
  | [] => []
  | p :: rest => bareExpr p :: bareExprs rest

end

/-! ## Statements -/

def params : Printed → List Lexeme
  | form parts => parts.map fun p => lexeme p.text
  | _ => []

mutual

def bareStmt : Printed → Stmt
  | form [word ";", e] => .expr (bareExpr value e)
  | form [word "print", e] => .print_ (bareExpr value e)
  | form (word "var" :: word x :: init) => .var (lexeme x) (bareExprs value init).head?
  | form (word "block" :: body) => .block (bareStmts body)
  | form (word "if" :: test :: yes :: no) => .cond (bareExpr value test) (bareStmt yes) (bareStmts no).head?
  | form (word "while" :: test :: body :: step) =>
    .loop (bareExpr value test) (bareStmt body) (bareExprs value step).head?
  | form (word "fun" :: parts) => .fun_ (bareRoutine parts)
  | form (word "return" :: result) => .return_ (lexeme Keyword.return_.text) (bareExprs value result).head?
  | form (word "class" :: word x :: word "<" :: word parent :: methods) =>
    .class_ (lexeme x) (some (reference parent)) (bareMethods methods)
  | form (word "class" :: word x :: methods) => .class_ (lexeme x) none (bareMethods methods)
  | form [word "break"] => .break_ (lexeme Keyword.break_.text)
  | form [word "continue"] => .continue_ (lexeme Keyword.continue_.text)
  | _ => default

def bareStmts : List Printed → List Stmt
  | [] => []
  | p :: rest => bareStmt p :: bareStmts rest

def bareRoutine : List Printed → Routine
  | word x :: parameters :: body => ⟨lexeme x, params parameters, bareStmts body⟩
  | _ => default

def bareMethods : List Printed → List Routine
  | [] => []
  | form (_ :: parts) :: rest => bareRoutine parts :: bareMethods rest
  | _ :: rest => bareMethods rest

end

/-! ## A tree from what it is printed as -/

/-- A finite number that is known from its text. -/
def Known (x : Float) : Prop := Number.IsFinite x ∧ value (Number.plain x) = x

variable {value : String → Float}

theorem not_first_of_letter {c : Char} (h : Piece.isLetter c = true) : Number.isFirst c = false := by
  have hminus : c ≠ '-' := Piece.ne_of_letter h rfl
  rw [Number.isFirst, Piece.not_digit_of_letter h, Bool.false_or, decide_eq_false_iff_not]
  exact hminus

theorem atom_name {w : String} (h : IsName w) : atom value w = .ref (reference w) := by
  have hfirst : w.toList.head?.any Number.isFirst = false := by
    have hletter := h.first
    cases hw : w.toList.head? with
    | none => rfl
    | some c =>
      rw [hw] at hletter
      exact not_first_of_letter hletter
  unfold atom
  rw [hfirst, h.noKeyword]
  rfl

theorem atom_number {x : Float} (h : Known value x) : atom value (Number.plain x) = .literal (.number x) := by
  unfold atom
  rw [(Number.written_plain h.1).first, h.2]
  rfl

theorem bareExpr_literal {l : Literal} (h : l.Spelled (Known value)) : bareExpr value l.printed = .literal l := by
  cases l with
  | number x => exact atom_number h
  | bool b => cases b <;> rfl
  | nil => rfl
  | string text => rfl

theorem built_unary {head : String} (h : head ∈ unaryHeads) (a : Expr) : built head [a] = .unary (lexeme head) a := by
  have hother : ∀ head ∈ unaryHeads, head ≠ "call" ∧ head ≠ "group" := by decide
  obtain ⟨hcall, hgroup⟩ := hother head h
  simp only [built, hcall, hgroup, if_false]

theorem built_binary {head : String} (h : head ∈ binaryHeads) (a b : Expr) :
    built head [a, b] = .binary a (lexeme head) b := by
  have hother : ∀ head ∈ binaryHeads, head ≠ "call" ∧ head ≠ "=" ∧ head ≠ "." ∧ head ∉ logicalHeads := by decide
  obtain ⟨hcall, hequal, hpoint, hlogical⟩ := hother head h
  simp only [built, hcall, hequal, hpoint, hlogical, if_false]

theorem built_logical {head : String} (h : head ∈ logicalHeads) (a b : Expr) :
    built head [a, b] = .logical a (lexeme head) b := by
  have hother : ∀ head ∈ logicalHeads, head ≠ "call" ∧ head ≠ "=" ∧ head ≠ "." := by decide
  obtain ⟨hcall, hequal, hpoint⟩ := hother head h
  simp only [built, hcall, hequal, hpoint, h, if_false, if_true]

theorem not_super_of_name {w : String} (h : IsName w) : w ≠ superName := by
  rintro rfl
  exact absurd h.noKeyword (by decide)

/-- A variable is not taken for `super`. -/
theorem member_bare {N : Float → Prop} {object : Expr} (h : object.Spelled N) (x : String) :
    member object.bare (.ref (reference x)) = .get object.bare (lexeme x) := by
  cases object with
  | ref target => exact if_neg (not_super_of_name h)
  | _ => rfl

mutual

/-- An expression is read back from its printed form. -/
theorem bareExpr_printed : ∀ e : Expr, e.Spelled (Known value) → bareExpr value e.printed = e.bare
  | .literal _, h => bareExpr_literal h
  | .group inner, h => by
    simp only [Expr.printed, bareExpr, bareExprs, bareExpr_printed inner h]
    rfl
  | .unary op operand, h => by
    simp only [Expr.printed, bareExpr, bareExprs, bareExpr_printed operand h.2]
    exact built_unary h.1 _
  | .binary left op right, h => by
    simp only [Expr.printed, bareExpr, bareExprs, bareExpr_printed left h.2.1, bareExpr_printed right h.2.2]
    exact built_binary h.1 _ _
  | .logical left op right, h => by
    simp only [Expr.printed, bareExpr, bareExprs, bareExpr_printed left h.2.1, bareExpr_printed right h.2.2]
    exact built_logical h.1 _ _
  | .ternary cond yes no, h => by
    simp only [Expr.printed, bareExpr, bareExprs, bareExpr_printed cond h.1, bareExpr_printed yes h.2.1,
      bareExpr_printed no h.2.2]
    rfl
  | .ref _, h => atom_name h
  | .assign target value', h => by
    simp only [Expr.printed, bareExpr, bareExprs, atom_name h.1, bareExpr_printed value' h.2]
    rfl
  | .call callee paren args, h => by
    simp only [Expr.printed, bareExpr, bareExprs, bareExpr_printed callee h.2.1, bareExprs_printed args h.2.2,
      Expr.bare,
      Lexeme.bare, h.1]
    rfl
  | .get object name, h => by
    simp only [Expr.printed, bareExpr, bareExprs, atom_name h.1, bareExpr_printed object h.2]
    exact member_bare h.2 _
  | .set object name value', h => by
    have hmember : built "." [object.bare, .ref (reference name.text)] = .get object.bare (lexeme name.text) :=
      member_bare h.2.1 _
    simp only [Expr.printed, bareExpr, bareExprs, atom_name h.1, bareExpr_printed object h.2.1,
      bareExpr_printed value' h.2.2, hmember]
    rfl
  | .this keyword, h => by
    have hword : keyword.name.text = "this" := h
    simp only [Expr.printed, Expr.bare, Reference.bare, Lexeme.bare, hword]
    rfl
  | .super keyword method, h => by
    have hword : keyword.name.text = "super" := h.1
    simp only [Expr.printed, bareExpr, bareExprs, atom_name h.2, Expr.bare, Reference.bare, Lexeme.bare, hword]
    rfl

theorem bareExprs_printed : ∀ es : List Expr, Expr.SpelledAll (Known value) es →
    bareExprs value (Expr.printedAll es) = Expr.bareAll es
  | [], _ => rfl
  | e :: rest, h => by
    simp only [Expr.printedAll, bareExprs, bareExpr_printed e h.1, bareExprs_printed rest h.2, Expr.bareAll]

end

theorem bareExprOpt_printed {e : Option Expr} (h : Expr.SpelledOpt (Known value) e) :
    (bareExprs value (Expr.printedOpt e)).head? = e.map Expr.bare := by
  cases e with
  | none => rfl
  | some e => exact congrArg some (bareExpr_printed e (h e rfl))

theorem params_printed (ps : List Lexeme) : params (printedParams ps) = ps.map Lexeme.bare := by
  rw [printedParams, params, List.map_map]
  rfl

mutual

/-- A statement is read back from its printed form. -/
theorem bareStmt_printed : ∀ s : Stmt, s.Spelled (Known value) → bareStmt value s.printed = s.bare
  | .expr e, h => congrArg Stmt.expr (bareExpr_printed e h)
  | .print_ e, h => congrArg Stmt.print_ (bareExpr_printed e h)
  | .var name init, h => congrArg (Stmt.var name.bare) (bareExprOpt_printed h.2)
  | .block body, h => congrArg Stmt.block (bareStmts_printed body h)
  | .cond test yes no, h => by
    simp only [Stmt.printed, bareStmt, bareExpr_printed test h.1, bareStmt_printed yes h.2.1,
      bareStmtOpt_printed no h.2.2, Stmt.bare]
  | .loop test body step, h => by
    simp only [Stmt.printed, bareStmt, bareExpr_printed test h.1, bareStmt_printed body h.2.1,
      bareExprOpt_printed h.2.2, Stmt.bare]
  | .break_ keyword, h => by
    simp only [Stmt.printed, bareStmt, Stmt.bare, Lexeme.bare, show keyword.text = Keyword.break_.text from h]
    rfl
  | .continue_ keyword, h => by
    simp only [Stmt.printed, bareStmt, Stmt.bare, Lexeme.bare, show keyword.text = Keyword.continue_.text from h]
    rfl
  | .fun_ routine, h => congrArg Stmt.fun_ (bareRoutine_printed routine h)
  | .return_ keyword result, h => by
    simp only [Stmt.printed, bareStmt, bareExprOpt_printed h.2, Stmt.bare, Lexeme.bare, h.1]
    rfl
  | .class_ name superclass methods, h => by
    have hmethods := bareMethods_printed methods h.2.2
    cases superclass with
    | some parent => exact congrArg (Stmt.class_ name.bare (some parent.bare)) hmethods
    | none =>
      cases methods with
      | nil => rfl
      | cons m rest => exact congrArg (Stmt.class_ name.bare none) hmethods

theorem bareStmts_printed : ∀ ss : List Stmt, Stmt.SpelledAll (Known value) ss →
    bareStmts value (Stmt.printedAll ss) = Stmt.bareAll ss
  | [], _ => rfl
  | s :: rest, h => by
    simp only [Stmt.printedAll, bareStmts, bareStmt_printed s h.1, bareStmts_printed rest h.2, Stmt.bareAll]

theorem bareStmtOpt_printed : ∀ s : Option Stmt, Stmt.SpelledOpt (Known value) s →
    (bareStmts value (Stmt.printedOpt s)).head? = Stmt.bareOpt s
  | none, _ => rfl
  | some s, h => congrArg some (bareStmt_printed s h)

theorem bareRoutine_printed : ∀ r : Routine, Stmt.SpelledRoutine (Known value) r →
    bareRoutine value (Stmt.printedRoutine r) = Stmt.bareRoutine r
  | ⟨name, ps, body⟩, h => by
    simp only [Stmt.printedRoutine, bareRoutine, params_printed, bareStmts_printed body h.2.2, Stmt.bareRoutine]
    rfl

theorem bareMethods_printed : ∀ ms : List Routine, Stmt.SpelledMethods (Known value) ms →
    bareMethods value (Stmt.printedMethods ms) = Stmt.bareMethods ms
  | [], _ => rfl
  | m :: rest, h => by
    simp only [Stmt.printedMethods, bareMethods, bareRoutine_printed m h.1, bareMethods_printed rest h.2,
      Stmt.bareMethods]

end

end Printed

end Lox
