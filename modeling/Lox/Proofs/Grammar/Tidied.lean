/-
  Lox.Proofs.Grammar.Tidied — what is read of a text is tidy even where it has errors
  (`parse_tidy`): names stand where names may, and no branch and no body of a loop is a
  declaration.
-/

import Lox.Proofs.Grammar.Spelled
import Lox.Proofs.Scope.Shape

namespace Lox

namespace Grammar

theorem plain_of_name {x : Lexeme} (h : IsName x.text) : x.IsPlain := by
  refine ⟨fun he => ?_, fun he => ?_⟩
  all_goals
    have hk := h.noKeyword
    rw [he] at hk
    cases hk

mutual

/-- An expression that is spelled is tidy. -/
theorem tidy_of_spelled : ∀ e : Expr, e.Spelled anyNumber → e.Tidy
  | .literal _, _ => trivial
  | .group inner, h => tidy_of_spelled inner h
  | .unary _ operand, h => tidy_of_spelled operand h.2
  | .binary left _ right, h => ⟨tidy_of_spelled left h.2.1, tidy_of_spelled right h.2.2⟩
  | .logical left _ right, h => ⟨tidy_of_spelled left h.2.1, tidy_of_spelled right h.2.2⟩
  | .ternary cond yes no, h => ⟨tidy_of_spelled cond h.1, tidy_of_spelled yes h.2.1, tidy_of_spelled no h.2.2⟩
  | .ref _, h => plain_of_name h
  | .assign _ value, h => ⟨plain_of_name h.1, tidy_of_spelled value h.2⟩
  | .call callee _ args, h => ⟨tidy_of_spelled callee h.2.1, tidyAll_of_spelled args h.2.2⟩
  | .get object _, h => tidy_of_spelled object h.2
  | .set object _ value, h => ⟨tidy_of_spelled object h.2.1, tidy_of_spelled value h.2.2⟩
  | .this _, h => h
  | .super _ _, h => h.1

theorem tidyAll_of_spelled : ∀ es : List Expr, Expr.SpelledAll anyNumber es → Expr.TidyAll es
  | [], _ => trivial
  | e :: rest, h => ⟨tidy_of_spelled e h.1, tidyAll_of_spelled rest h.2⟩

end

theorem tidyOpt_of_spelled {e : Option Expr} (h : Expr.SpelledOpt anyNumber e) : Expr.TidyOpt e :=
  fun x hx => tidy_of_spelled x (h x hx)

def tidyTrees : Family where
  stmt s := s.Tidy
  branch s := s.Tidy ∧ s.declares? = none
  stmts ss := Stmt.TidyAll ss
  routine f := f.name.IsPlain ∧ Stmt.RoutineTidy f
  methods ms := Stmt.MethodsTidy ms

/-- Every tree that the parser makes is tidy. -/
theorem tidy_kept : Kept tidyTrees where
  branch h := h.1
  expr h := ⟨tidy_of_spelled _ h, rfl⟩
  print_ h := ⟨tidy_of_spelled _ h, rfl⟩
  var hn he := ⟨plain_of_name hn, tidyOpt_of_spelled he⟩
  block h := ⟨h, rfl⟩
  cond {test yes no} ht hy hn := by
    refine ⟨⟨tidy_of_spelled test ht, hy, ?_⟩, rfl⟩
    cases no with
    | none => trivial
    | some no => exact hn no rfl
  loop ht hb hs := ⟨⟨tidy_of_spelled _ ht, hb, tidyOpt_of_spelled hs⟩, rfl⟩
  break_ _ := ⟨trivial, rfl⟩
  continue_ _ := ⟨trivial, rfl⟩
  fun_ h := h
  return_ _ he := ⟨tidyOpt_of_spelled he, rfl⟩
  class_ hn hp hm := ⟨plain_of_name hn, fun r hr => plain_of_name (hp r hr), hm⟩
  nil := trivial
  cons h h' := ⟨h, h'⟩
  routine hn hp hb := ⟨plain_of_name hn, fun p hm => plain_of_name (hp p hm), hb⟩
  noMethod := trivial
  method h h' := ⟨h.2, h'⟩

end Grammar

theorem parse_tidy (source : String) (k : Int) : Stmt.TidyAll (parse (tokenize source).1 k).program :=
  Grammar.parse_kept Grammar.tidy_kept (fun _ => tokenize_spelled) k

end Lox
