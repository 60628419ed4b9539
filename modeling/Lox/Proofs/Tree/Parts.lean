/-
  Lox.Proofs.Tree.Parts — what a statement has inside of it that runs in the same call.

  A `break` or a `continue` belongs to a loop if it is a part of its body without another
  loop in between, so where loops do not count, `Contains` is that.
-/

import Lox.Tree

namespace Lox

/-- A statement inside of another one, in no other routine, and if loops do not count, in
no other loop. -/
inductive Stmt.Contains (loops : Bool) : Stmt → Stmt → Prop
  | self {t : Stmt} : Contains loops t t
  | block {s t : Stmt} {body : List Stmt} : s ∈ body → Contains loops s t → Contains loops (.block body) t
  | yes {e : Expr} {yes t : Stmt} {no : Option Stmt} : Contains loops yes t → Contains loops (.cond e yes no) t
  | no {e : Expr} {yes no t : Stmt} : Contains loops no t → Contains loops (.cond e yes (some no)) t
  | loop {e : Expr} {body t : Stmt} {step : Option Expr} : loops = true → Contains loops body t →
      Contains loops (.loop e body step) t

/-- No `continue` in the body of a loop belongs to the loop. -/
def Stmt.NeverContinues (body : Stmt) : Prop := ∀ keyword, ¬ body.Contains false (.continue_ keyword)

end Lox
