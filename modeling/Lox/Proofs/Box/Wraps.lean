/-
  Lox.Proofs.Box.Wraps — programs with blocks around parts of them.

  `Wraps boxes site site'`: in the second text the bodies of some loops have the loop's step
  behind them, in one block with it, and if `boxes` holds there are blocks around other
  statements, too. Only a body that never continues the loop takes the step in, for a
  `continue` would pass it over. References keep their slots, and what a statement
  declares stays the same.

  Blocks alone are a case of this (`Boxes.wraps`); steps alone make a `for` loop the
  `while` loop that it stands for (`Inlines`, `Inlines.once`).
-/

import Lox.Proofs.Box.Trees
import Lox.Proofs.Tree.Parts

namespace Lox

variable {boxes : Prop} {site site' : Site} {s s' : Stmt} {context context' : RoutineContext} {f f' : Routine}

/-- Statements are put into blocks, if that is asked for, and steps are moved into the bodies of
their loops. -/
inductive Wraps (boxes : Prop) : Site → Site → Prop
  | nil : Wraps boxes (.stmts []) (.stmts [])
  | cons {s s' : Stmt} {rest rest' : List Stmt} : Wraps boxes (.stmt s) (.stmt s') →
      Wraps boxes (.stmts rest) (.stmts rest') → Wraps boxes (.stmts (s :: rest)) (.stmts (s' :: rest'))
  | effect {e : Expr} : Wraps boxes (.stmt (.expr e)) (.stmt (.expr e))
  | printed {e : Expr} : Wraps boxes (.stmt (.print_ e)) (.stmt (.print_ e))
  | var {name : Lexeme} {init : Option Expr} : Wraps boxes (.stmt (.var name init)) (.stmt (.var name init))
  | block {body body' : List Stmt} : Wraps boxes (.stmts body) (.stmts body') →
      Wraps boxes (.stmt (.block body)) (.stmt (.block body'))
  | cond {e : Expr} {yes yes' : Stmt} : Wraps boxes (.stmt yes) (.stmt yes') →
      Wraps boxes (.stmt (.cond e yes none)) (.stmt (.cond e yes' none))
  | condElse {e : Expr} {yes yes' no no' : Stmt} : Wraps boxes (.stmt yes) (.stmt yes') →
      Wraps boxes (.stmt no) (.stmt no') → Wraps boxes (.stmt (.cond e yes (some no))) (.stmt (.cond e yes' (some no')))
  | loop {e : Expr} {body body' : Stmt} {step : Option Expr} : Wraps boxes (.stmt body) (.stmt body') →
      Wraps boxes (.stmt (.loop e body step)) (.stmt (.loop e body' step))
  | break_ {keyword : Lexeme} : Wraps boxes (.stmt (.break_ keyword)) (.stmt (.break_ keyword))
  | continue_ {keyword : Lexeme} : Wraps boxes (.stmt (.continue_ keyword)) (.stmt (.continue_ keyword))
  | fun_ {f f' : Routine} : Wraps boxes (.routine .function f) (.routine .function f') →
      Wraps boxes (.stmt (.fun_ f)) (.stmt (.fun_ f'))
  | returned {keyword : Lexeme} {value : Option Expr} :
      Wraps boxes (.stmt (.return_ keyword value)) (.stmt (.return_ keyword value))
  | class_ {name : Lexeme} {superclass : Option Reference} {ms ms' : List Routine} :
      Wraps boxes (.methods ms) (.methods ms') →
      Wraps boxes (.stmt (.class_ name superclass ms)) (.stmt (.class_ name superclass ms'))
  | noMethod : Wraps boxes (.methods []) (.methods [])
  | method {m m' : Routine} {rest rest' : List Routine} :
      Wraps boxes (.routine (methodContext m) m) (.routine (methodContext m) m') →
      Wraps boxes (.methods rest) (.methods rest') → Wraps boxes (.methods (m :: rest)) (.methods (m' :: rest'))
  | routine {context : RoutineContext} {name : Lexeme} {params : List Lexeme} {body body' : List Stmt} :
      Wraps boxes (.stmts body) (.stmts body') →
      Wraps boxes (.routine context ⟨name, params, body⟩) (.routine context ⟨name, params, body'⟩)
  /-- A statement in a block of its own. -/
  | box {s s' : Stmt} : boxes → s.declares? = none → Wraps boxes (.stmt s) (.stmt s') →
      Wraps boxes (.stmt s) (.stmt (.block [s']))
  /-- A body with the step behind it. -/
  | step {e step : Expr} {body body' : Stmt} : body.NeverContinues → Wraps boxes (.stmt body) (.stmt body') →
      Wraps boxes (.stmt (.loop e body (some step))) (.stmt (.loop e (.block [body', .expr step]) none))

/-- Some loops have their step at the end of their body, and nothing else is changed. -/
abbrev Inlines (site site' : Site) : Prop := Wraps False site site'

/-- To wrap a body in a block is one way of wrapping. -/
theorem Boxes.wraps (h : Boxes site site') : Wraps True site site' := by
  induction h with
  | nil => exact .nil
  | cons _ _ ih ih' => exact .cons ih ih'
  | effect => exact .effect
  | printed => exact .printed
  | var => exact .var
  | block _ ih => exact .block ih
  | cond _ ih => exact .cond ih
  | condElse _ _ ih ih' => exact .condElse ih ih'
  | loop _ ih => exact .loop ih
  | break_ => exact .break_
  | continue_ => exact .continue_
  | fun_ _ ih => exact .fun_ ih
  | returned => exact .returned
  | class_ _ ih => exact .class_ ih
  | noMethod => exact .noMethod
  | method _ _ ih ih' => exact .method ih ih'
  | routine _ ih => exact .routine ih
  | box hs _ ih => exact .box trivial hs ih

/-! ## No loop, and one -/

namespace Inlines

mutual

theorem refl_stmt : ∀ s : Stmt, Inlines (.stmt s) (.stmt s)
  | .expr _ => .effect
  | .print_ _ => .printed
  | .var _ _ => .var
  | .block body => .block (refl_stmts body)
  | .cond _ yes none => .cond (refl_stmt yes)
  | .cond _ yes (some no) => .condElse (refl_stmt yes) (refl_stmt no)
  | .loop _ body _ => .loop (refl_stmt body)
  | .break_ _ => .break_
  | .continue_ _ => .continue_
  | .fun_ f => .fun_ (refl_routine .function f)
  | .return_ _ _ => .returned
  | .class_ _ _ ms => .class_ (refl_methods ms)

theorem refl_stmts : ∀ ss : List Stmt, Inlines (.stmts ss) (.stmts ss)
  | [] => .nil
  | s :: rest => .cons (refl_stmt s) (refl_stmts rest)

theorem refl_routine : ∀ (context : RoutineContext) (f : Routine), Inlines (.routine context f) (.routine context f)
  | _, ⟨_, _, body⟩ => .routine (refl_stmts body)

theorem refl_methods : ∀ ms : List Routine, Inlines (.methods ms) (.methods ms)
  | [] => .noMethod
  | m :: rest => .method (refl_routine (methodContext m) m) (refl_methods rest)

end

/-- One loop with its step in the body, and nothing else changed. -/
theorem once {e step : Expr} {body : Stmt} (h : body.NeverContinues) :
    Inlines (.stmt (.loop e body (some step))) (.stmt (.loop e (.block [body, .expr step]) none)) :=
  .step h (refl_stmt body)

end Inlines

/-! ## What stays the same -/

namespace Wraps

theorem parts (h : Wraps boxes (.routine context f) (.routine context' f')) :
    context' = context ∧ f'.name = f.name ∧ f'.params = f.params ∧ Wraps boxes (.stmts f.body) (.stmts f'.body) := by
  cases h with
  | routine hb => exact ⟨rfl, rfl, rfl, hb⟩

theorem declares (h : Wraps boxes (.stmt s) (.stmt s')) : s'.declares? = s.declares? := by
  cases h with
  | fun_ hf => exact congrArg some hf.parts.2.1
  | box _ hs => exact hs.symm
  | _ => rfl

theorem append_same {xs xs' ys ys' : List Int} (h : xs' = xs) (h' : ys' = ys) : xs' ++ ys' = xs ++ ys := by rw [h, h']

/-- Blocks have no slots. -/
theorem slots (h : Wraps boxes site site') : site'.slots = site.slots := by
  induction h with
  | cons _ _ ih ih' | method _ _ ih ih' => exact append_same ih ih'
  | block _ ih | fun_ _ ih | routine _ ih => exact ih
  | cond _ ih | loop _ ih => exact append_same rfl (append_same ih rfl)
  | condElse _ _ ih ih' => exact append_same rfl (append_same ih ih')
  | class_ _ ih => exact append_same rfl ih
  | box _ _ _ ih => exact (List.append_nil _).trans ih
  | step _ _ ih =>
    refine append_same rfl ((List.append_nil _).trans ?_)
    exact append_same ih (List.append_nil _)
  | _ => rfl

/-- A wrapped tree is tidy. -/
theorem tidy (h : Wraps boxes site site') (ht : site.Tidy) : site'.Tidy := by
  induction h with
  | cons _ _ ih ih' => exact ⟨ih ht.1, ih' ht.2⟩
  | block _ ih => exact ih ht
  | cond hs ih => exact ⟨ht.1, ⟨ih ht.2.1.1, hs.declares.trans ht.2.1.2⟩, trivial⟩
  | condElse hs hs' ih ih' =>
    exact ⟨ht.1, ⟨ih ht.2.1.1, hs.declares.trans ht.2.1.2⟩, ih' ht.2.2.1, hs'.declares.trans ht.2.2.2⟩
  | loop hs ih => exact ⟨ht.1, ⟨ih ht.2.1.1, hs.declares.trans ht.2.1.2⟩, ht.2.2⟩
  | fun_ hf ih =>
    refine ⟨?_, ih ht.2⟩
    rw [hf.parts.2.1]
    exact ht.1
  | class_ _ ih => exact ⟨ht.1, ht.2.1, ih ht.2.2⟩
  | method _ _ ih ih' => exact ⟨ih ht.1, ih' ht.2⟩
  | routine _ ih => exact ⟨ht.1, ih ht.2⟩
  | box _ _ _ ih => exact ⟨ih ht, trivial⟩
  | step _ _ ih => exact ⟨ht.1, ⟨⟨ih ht.2.1.1, ht.2.2 _ rfl, trivial⟩, rfl⟩, nofun⟩
  | _ => exact ht

end Wraps

end Lox
