/-
  Lox.Proofs.Box.Trees — programs with statements put into blocks of their own.

  `Boxes site site'`: the second text has blocks around some statements of the first, at
  any depth, a statement in a block of its own included; none of them is a declaration,
  which would be moved to another scope. A text with no such block is a case
  (`Boxes.refl_stmts`), so one statement alone may be the boxed one (`Boxes.once`).
-/

import Lox.Proofs.Scope.Lexical

namespace Lox

/-- Statements are put into blocks of their own, any number of them and at any depth. -/
inductive Boxes : Site → Site → Prop
  | nil : Boxes (.stmts []) (.stmts [])
  | cons {s s' : Stmt} {rest rest' : List Stmt} : Boxes (.stmt s) (.stmt s') → Boxes (.stmts rest) (.stmts rest') →
      Boxes (.stmts (s :: rest)) (.stmts (s' :: rest'))
  | effect {e : Expr} : Boxes (.stmt (.expr e)) (.stmt (.expr e))
  | printed {e : Expr} : Boxes (.stmt (.print_ e)) (.stmt (.print_ e))
  | var {name : Lexeme} {init : Option Expr} : Boxes (.stmt (.var name init)) (.stmt (.var name init))
  | block {body body' : List Stmt} : Boxes (.stmts body) (.stmts body') →
      Boxes (.stmt (.block body)) (.stmt (.block body'))
  | cond {e : Expr} {yes yes' : Stmt} : Boxes (.stmt yes) (.stmt yes') →
      Boxes (.stmt (.cond e yes none)) (.stmt (.cond e yes' none))
  | condElse {e : Expr} {yes yes' no no' : Stmt} : Boxes (.stmt yes) (.stmt yes') → Boxes (.stmt no) (.stmt no') →
      Boxes (.stmt (.cond e yes (some no))) (.stmt (.cond e yes' (some no')))
  | loop {e : Expr} {body body' : Stmt} {step : Option Expr} : Boxes (.stmt body) (.stmt body') →
      Boxes (.stmt (.loop e body step)) (.stmt (.loop e body' step))
  | break_ {keyword : Lexeme} : Boxes (.stmt (.break_ keyword)) (.stmt (.break_ keyword))
  | continue_ {keyword : Lexeme} : Boxes (.stmt (.continue_ keyword)) (.stmt (.continue_ keyword))
  | fun_ {f f' : Routine} : Boxes (.routine .function f) (.routine .function f') →
      Boxes (.stmt (.fun_ f)) (.stmt (.fun_ f'))
  | returned {keyword : Lexeme} {value : Option Expr} :
      Boxes (.stmt (.return_ keyword value)) (.stmt (.return_ keyword value))
  | class_ {name : Lexeme} {superclass : Option Reference} {ms ms' : List Routine} :
      Boxes (.methods ms) (.methods ms') → Boxes (.stmt (.class_ name superclass ms))
        (.stmt (.class_ name superclass ms'))
  | noMethod : Boxes (.methods []) (.methods [])
  | method {m m' : Routine} {rest rest' : List Routine} : Boxes (.routine (methodContext m) m)
    (.routine (methodContext m) m') →
      Boxes (.methods rest) (.methods rest') → Boxes (.methods (m :: rest)) (.methods (m' :: rest'))
  | routine {context : RoutineContext} {name : Lexeme} {params : List Lexeme} {body body' : List Stmt} :
      Boxes (.stmts body) (.stmts body') → Boxes (.routine context ⟨name, params, body⟩)
        (.routine context ⟨name, params, body'⟩)
  /-- A statement in a block of its own. -/
  | box {s s' : Stmt} : s.declares? = none → Boxes (.stmt s) (.stmt s') → Boxes (.stmt s) (.stmt (.block [s']))

namespace Boxes

/-! ## No block, and one -/

mutual

theorem refl_stmt : ∀ s : Stmt, Boxes (.stmt s) (.stmt s)
  | .expr _ => .effect
  | .print_ _ => .printed
  | .var _ _ => .var
  | .block body => .block (refl_stmts body)
  | .cond _ yes none => .cond (refl_stmt yes)
  | .cond _ yes (some no) => .condElse (refl_stmt yes) (refl_stmt no)
  | .loop _ body _ => .loop (refl_stmt body)
  | .break_ _ => .break_
  | .continue_ _ => .continue_
  | .fun_ f => .fun_ (refl_routine .function f)
  | .return_ _ _ => .returned
  | .class_ _ _ ms => .class_ (refl_methods ms)

theorem refl_stmts : ∀ ss : List Stmt, Boxes (.stmts ss) (.stmts ss)
  | [] => .nil
  | s :: rest => .cons (refl_stmt s) (refl_stmts rest)

theorem refl_routine : ∀ (context : RoutineContext) (f : Routine), Boxes (.routine context f) (.routine context f)
  | _, ⟨_, _, body⟩ => .routine (refl_stmts body)

theorem refl_methods : ∀ ms : List Routine, Boxes (.methods ms) (.methods ms)
  | [] => .noMethod
  | m :: rest => .method (refl_routine (methodContext m) m) (refl_methods rest)

end

/-- One statement in a block, and nothing else changed. -/
theorem once {s : Stmt} (h : s.declares? = none) : Boxes (.stmt s) (.stmt (.block [s])) := .box h (refl_stmt s)

end Boxes

end Lox
