/-
  Lox.Proofs.Printed.Spelled — how the names, operators and texts of a tree are written that
  is read from a text, with errors or without (`Stmt.Spelled`), and that such a tree is
  printed with words and quoted texts that end where they are seen to end (`clear_stmts`).

  A name is a word that is no keyword, a text has no quote in it, and an operator is one of
  those that are read in its place. What is asked of numbers is left open; where they are
  finite, their texts are words.
-/

import Lox.Proofs.Printed.Numbers
import Lox.Proofs.Printed.Trees
import Lox.Proofs.Token.Words

namespace Lox

open Grammar

/-! ## Spelling -/

def unaryHeads : List String := unaryOperators.map Terminal.text

def binaryHeads : List String :=
  ([Level.comma, .equality, .comparison, .term, .factor].flatMap Level.operators).map Terminal.text

def logicalHeads : List String := ([Level.or_, .and_].flatMap Level.operators).map Terminal.text

def Literal.Spelled (N : Float → Prop) : Literal → Prop
  | number x => N x
  | string text => '"' ∉ text.toList
  | nil | bool _ => True

section

variable (N : Float → Prop)

namespace Expr

mutual

def Spelled : Expr → Prop
  | literal value => value.Spelled N
  | group inner => Spelled inner
  | unary op operand => op.text ∈ unaryHeads ∧ Spelled operand
  | binary left op right => op.text ∈ binaryHeads ∧ Spelled left ∧ Spelled right
  | logical left op right => op.text ∈ logicalHeads ∧ Spelled left ∧ Spelled right
  | ternary cond yes no => Spelled cond ∧ Spelled yes ∧ Spelled no
  | ref target => IsName target.name.text
  | assign target value => IsName target.name.text ∧ Spelled value
  | call callee paren args => paren.text = Symbol.rightParen.text ∧ Spelled callee ∧ SpelledAll args
  | get object name => IsName name.text ∧ Spelled object
  | set object name value => IsName name.text ∧ Spelled object ∧ Spelled value
  | this keyword => keyword.name.text = thisName
  | super keyword method => keyword.name.text = superName ∧ IsName method.text

def SpelledAll : List Expr → Prop
  | [] => True
  | e :: rest => Spelled e ∧ SpelledAll rest

end

def SpelledOpt (e : Option Expr) : Prop := ∀ e' ∈ e, e'.Spelled N

end Expr

namespace Stmt

mutual

def Spelled : Stmt → Prop
  | expr e => e.Spelled N
  | print_ e => e.Spelled N
  | var name init => IsName name.text ∧ Expr.SpelledOpt N init
  | block body => SpelledAll body
  | cond test yes no => test.Spelled N ∧ Spelled yes ∧ SpelledOpt no
  | loop test body step => test.Spelled N ∧ Spelled body ∧ Expr.SpelledOpt N step
  | break_ keyword => keyword.text = Keyword.break_.text
  | continue_ keyword => keyword.text = Keyword.continue_.text
  | fun_ routine => SpelledRoutine routine
  | return_ keyword value => keyword.text = Keyword.return_.text ∧ Expr.SpelledOpt N value
  | class_ name superclass methods =>
    IsName name.text ∧ (∀ parent ∈ superclass, IsName parent.name.text) ∧ SpelledMethods methods

def SpelledAll : List Stmt → Prop
  | [] => True
  | s :: rest => Spelled s ∧ SpelledAll rest

def SpelledOpt : Option Stmt → Prop
  | none => True
  | some s => Spelled s

def SpelledRoutine : Routine → Prop
  | ⟨name, params, body⟩ => IsName name.text ∧ (∀ p ∈ params, IsName p.text) ∧ SpelledAll body

def SpelledMethods : List Routine → Prop
  | [] => True
  | m :: rest => SpelledRoutine m ∧ SpelledMethods rest

end

end Stmt

end

/-! ## Numbers -/

def Literal.numbers : Literal → List Float
  | number x => [x]
  | nil | bool _ | string _ => []

namespace Expr

mutual

def numbers : Expr → List Float
  | literal value => value.numbers
  | group inner => numbers inner
  | unary _ operand => numbers operand
  | binary left _ right => numbers left ++ numbers right
  | logical left _ right => numbers left ++ numbers right
  | ternary cond yes no => numbers cond ++ (numbers yes ++ numbers no)
  | ref _ => []
  | assign _ value => numbers value
  | call callee _ args => numbers callee ++ numbersAll args
  | get object _ => numbers object
  | set object _ value => numbers object ++ numbers value
  | this _ => []
  | super _ _ => []

def numbersAll : List Expr → List Float
  | [] => []
  | e :: rest => numbers e ++ numbersAll rest

end

def numbersOpt (e : Option Expr) : List Float := e.elim [] numbers

end Expr

namespace Stmt

mutual

def numbers : Stmt → List Float
  | expr e => e.numbers
  | print_ e => e.numbers
  | var _ init => Expr.numbersOpt init
  | block body => numbersAll body
  | cond test yes no => test.numbers ++ (numbers yes ++ numbersOpt no)
  | loop test body step => test.numbers ++ (numbers body ++ Expr.numbersOpt step)
  | break_ _ => []
  | continue_ _ => []
  | fun_ routine => routineNumbers routine
  | return_ _ value => Expr.numbersOpt value
  | class_ _ _ methods => methodNumbers methods

def numbersAll : List Stmt → List Float
  | [] => []
  | s :: rest => numbers s ++ numbersAll rest

def numbersOpt : Option Stmt → List Float
  | none => []
  | some s => numbers s

def routineNumbers : Routine → List Float
  | ⟨_, _, body⟩ => numbersAll body

def methodNumbers : List Routine → List Float
  | [] => []
  | m :: rest => routineNumbers m ++ methodNumbers rest

end

end Stmt

/-! ### What holds of all numbers -/

section

variable {N : Float → Prop}

mutual

/-- An expression is spelled with the numbers that are in it. -/
theorem spelled_expr : ∀ e : Expr, e.Spelled (fun _ => True) → (∀ x ∈ e.numbers, N x) → e.Spelled N
  | .literal value, h, hn => by
    cases value with
    | number x => exact hn x (List.mem_singleton_self x)
    | string text => exact h
    | nil => trivial
    | bool b => trivial
  | .group inner, h, hn => spelled_expr inner h hn
  | .unary _ operand, h, hn => ⟨h.1, spelled_expr operand h.2 hn⟩
  | .binary left _ right, h, hn => by
    obtain ⟨hl, hr⟩ := List.forall_mem_append.mp hn
    exact ⟨h.1, spelled_expr left h.2.1 hl, spelled_expr right h.2.2 hr⟩
  | .logical left _ right, h, hn => by
    obtain ⟨hl, hr⟩ := List.forall_mem_append.mp hn
    exact ⟨h.1, spelled_expr left h.2.1 hl, spelled_expr right h.2.2 hr⟩
  | .ternary cond yes no, h, hn => by
    obtain ⟨hc, hbranches⟩ := List.forall_mem_append.mp hn
    obtain ⟨hy, hno⟩ := List.forall_mem_append.mp hbranches
    exact ⟨spelled_expr cond h.1 hc, spelled_expr yes h.2.1 hy, spelled_expr no h.2.2 hno⟩
  | .ref _, h, _ => h
  | .assign _ value, h, hn => ⟨h.1, spelled_expr value h.2 hn⟩
  | .call callee _ args, h, hn => by
    obtain ⟨hc, ha⟩ := List.forall_mem_append.mp hn
    exact ⟨h.1, spelled_expr callee h.2.1 hc, spelled_exprs args h.2.2 ha⟩
  | .get object _, h, hn => ⟨h.1, spelled_expr object h.2 hn⟩
  | .set object _ value, h, hn => by
    obtain ⟨ho, hv⟩ := List.forall_mem_append.mp hn
    exact ⟨h.1, spelled_expr object h.2.1 ho, spelled_expr value h.2.2 hv⟩
  | .this _, h, _ => h
  | .super _ _, h, _ => h

theorem spelled_exprs : ∀ es : List Expr, Expr.SpelledAll (fun _ => True) es → (∀ x ∈ Expr.numbersAll es, N x) →
    Expr.SpelledAll N es
  | [], _, _ => trivial
  | e :: rest, h, hn => by
    obtain ⟨he, hrest⟩ := List.forall_mem_append.mp hn
    exact ⟨spelled_expr e h.1 he, spelled_exprs rest h.2 hrest⟩

end

theorem spelled_exprOpt (e : Option Expr) (h : Expr.SpelledOpt (fun _ => True) e) (hn : ∀ x ∈ Expr.numbersOpt e, N x) :
    Expr.SpelledOpt N e := by
  intro e' he
  cases he
  exact spelled_expr e' (h e' rfl) hn

mutual

/-- A statement is spelled with the numbers that are in it. -/
theorem spelled_stmt : ∀ s : Stmt, s.Spelled (fun _ => True) → (∀ x ∈ s.numbers, N x) → s.Spelled N
  | .expr e, h, hn => spelled_expr e h hn
  | .print_ e, h, hn => spelled_expr e h hn
  | .var _ init, h, hn => ⟨h.1, spelled_exprOpt init h.2 hn⟩
  | .block body, h, hn => spelled_stmts body h hn
  | .cond test yes no, h, hn => by
    obtain ⟨ht, hbranches⟩ := List.forall_mem_append.mp hn
    obtain ⟨hy, hno⟩ := List.forall_mem_append.mp hbranches
    exact ⟨spelled_expr test h.1 ht, spelled_stmt yes h.2.1 hy, spelled_stmtOpt no h.2.2 hno⟩
  | .loop test body step, h, hn => by
    obtain ⟨ht, hround⟩ := List.forall_mem_append.mp hn
    obtain ⟨hb, hs⟩ := List.forall_mem_append.mp hround
    exact ⟨spelled_expr test h.1 ht, spelled_stmt body h.2.1 hb, spelled_exprOpt step h.2.2 hs⟩
  | .break_ _, h, _ => h
  | .continue_ _, h, _ => h
  | .fun_ routine, h, hn => spelled_routine routine h hn
  | .return_ _ value, h, hn => ⟨h.1, spelled_exprOpt value h.2 hn⟩
  | .class_ _ _ methods, h, hn => ⟨h.1, h.2.1, spelled_methods methods h.2.2 hn⟩

theorem spelled_stmts : ∀ ss : List Stmt, Stmt.SpelledAll (fun _ => True) ss → (∀ x ∈ Stmt.numbersAll ss, N x) →
    Stmt.SpelledAll N ss
  | [], _, _ => trivial
  | s :: rest, h, hn => by
    obtain ⟨hs, hrest⟩ := List.forall_mem_append.mp hn
    exact ⟨spelled_stmt s h.1 hs, spelled_stmts rest h.2 hrest⟩

theorem spelled_stmtOpt : ∀ s : Option Stmt, Stmt.SpelledOpt (fun _ => True) s → (∀ x ∈ Stmt.numbersOpt s, N x) →
    Stmt.SpelledOpt N s
  | none, _, _ => trivial
  | some s, h, hn => spelled_stmt s h hn

theorem spelled_routine : ∀ r : Routine, Stmt.SpelledRoutine (fun _ => True) r → (∀ x ∈ Stmt.routineNumbers r, N x) →
    Stmt.SpelledRoutine N r
  | ⟨_, _, body⟩, h, hn => ⟨h.1, h.2.1, spelled_stmts body h.2.2 hn⟩

theorem spelled_methods : ∀ ms : List Routine, Stmt.SpelledMethods (fun _ => True) ms →
    (∀ x ∈ Stmt.methodNumbers ms, N x) → Stmt.SpelledMethods N ms
  | [], _, _ => trivial
  | m :: rest, h, hn => by
    obtain ⟨hm, hrest⟩ := List.forall_mem_append.mp hn
    exact ⟨spelled_routine m h.1 hm, spelled_methods rest h.2 hrest⟩

end

/-! ## Pieces that end where they are seen to end -/

theorem IsName.isWord {x : String} (h : IsName x) : Printed.IsWord x := by
  refine ⟨?_, fun c hc hsep => ?_⟩
  · rintro rfl
    exact absurd h.first (by decide)
  · have hno : ∀ c ∈ Printed.separators, (!Piece.isWordChar c) = true := List.all_eq_true.mp (by decide)
    simpa [h.chars c hc] using hno c hsep

namespace Printed

theorem isWord_unary : ∀ head ∈ unaryHeads, IsWord head := by decide

theorem isWord_binary : ∀ head ∈ binaryHeads, IsWord head := by decide

theorem isWord_logical : ∀ head ∈ logicalHeads, IsWord head := by decide

variable (hN : ∀ x, N x → Number.IsFinite x)

include hN

theorem clear_literal {l : Literal} (h : l.Spelled N) : l.printed.Clear := by
  cases l with
  | number x => exact (Number.written_plain (hN x h)).isWord
  | string text => exact h
  | nil => show IsWord "nil"; decide
  | bool b => cases b <;> (show IsWord _; decide)

omit hN

mutual

/-- The printed form of an expression is made of words, numbers and quoted texts. -/
theorem clear_expr (hN : ∀ x, N x → Number.IsFinite x) : ∀ e : Expr, e.Spelled N → e.printed.Clear
  | .literal _, h => clear_literal hN h
  | .group inner, h => ⟨(by decide : IsWord "group"), clear_expr hN inner h, trivial⟩
  | .unary _ operand, h => ⟨isWord_unary _ h.1, clear_expr hN operand h.2, trivial⟩
  | .binary left _ right, h => ⟨isWord_binary _ h.1, clear_expr hN left h.2.1, clear_expr hN right h.2.2, trivial⟩
  | .logical left _ right, h => ⟨isWord_logical _ h.1, clear_expr hN left h.2.1, clear_expr hN right h.2.2, trivial⟩
  | .ternary cond yes no, h =>
    ⟨(by decide : IsWord "?:"), clear_expr hN cond h.1, clear_expr hN yes h.2.1, clear_expr hN no h.2.2, trivial⟩
  | .ref _, h => IsName.isWord h
  | .assign _ value, h => ⟨(by decide : IsWord "="), h.1.isWord, clear_expr hN value h.2, trivial⟩
  | .call callee _ args, h => ⟨(by decide : IsWord "call"), clear_expr hN callee h.2.1, clear_exprs hN args h.2.2⟩
  | .get object _, h => ⟨(by decide : IsWord "."), clear_expr hN object h.2, h.1.isWord, trivial⟩
  | .set object _ value, h =>
    ⟨(by decide : IsWord "="), ⟨(by decide : IsWord "."), clear_expr hN object h.2.1, h.1.isWord, trivial⟩,
      clear_expr hN value h.2.2, trivial⟩
  | .this _, _ => (by decide : IsWord "this")
  | .super _ _, h => ⟨(by decide : IsWord "."), (by decide : IsWord "super"), h.2.isWord, trivial⟩

theorem clear_exprs (hN : ∀ x, N x → Number.IsFinite x) : ∀ es : List Expr, Expr.SpelledAll N es →
    AllClear (Expr.printedAll es)
  | [], _ => trivial
  | e :: rest, h => ⟨clear_expr hN e h.1, clear_exprs hN rest h.2⟩

end

theorem clear_exprOpt (hN : ∀ x, N x → Number.IsFinite x) {e : Option Expr} (h : Expr.SpelledOpt N e) :
    AllClear (Expr.printedOpt e) := by
  cases e with
  | none => trivial
  | some e => exact ⟨clear_expr hN e (h e rfl), trivial⟩

theorem clear_params {ps : List Lexeme} (h : ∀ p ∈ ps, IsName p.text) : (printedParams ps).Clear := by
  show AllClear (ps.map fun p => word p.text)
  induction ps with
  | nil => trivial
  | cons p rest ih =>
    obtain ⟨hp, hrest⟩ := List.forall_mem_cons.mp h
    exact ⟨hp.isWord, ih hrest⟩

theorem clear_append {ps qs : List Printed} (hp : AllClear ps) (hq : AllClear qs) : AllClear (ps ++ qs) := by
  induction ps with
  | nil => exact hq
  | cons p rest ih => exact ⟨hp.1, ih hp.2⟩

theorem clear_superclass {superclass : Option Reference} (h : ∀ parent ∈ superclass, IsName parent.name.text) :
    AllClear (printedSuperclass superclass) := by
  cases superclass with
  | none => trivial
  | some parent => exact ⟨(by decide : IsWord "<"), (h parent rfl).isWord, trivial⟩

mutual

/-- The printed form of a statement is made of words, numbers and quoted texts. -/
theorem clear_stmt (hN : ∀ x, N x → Number.IsFinite x) : ∀ s : Stmt, s.Spelled N → s.printed.Clear
  | .expr e, h => ⟨(by decide : IsWord ";"), clear_expr hN e h, trivial⟩
  | .print_ e, h => ⟨(by decide : IsWord "print"), clear_expr hN e h, trivial⟩
  | .var _ _, h => ⟨(by decide : IsWord "var"), h.1.isWord, clear_exprOpt hN h.2⟩
  | .block body, h => ⟨(by decide : IsWord "block"), clear_stmts hN body h⟩
  | .cond test yes no, h =>
    ⟨(by decide : IsWord "if"), clear_expr hN test h.1, clear_stmt hN yes h.2.1, clear_stmtOpt hN no h.2.2⟩
  | .loop test body _, h =>
    ⟨(by decide : IsWord "while"), clear_expr hN test h.1, clear_stmt hN body h.2.1, clear_exprOpt hN h.2.2⟩
  | .break_ _, _ => ⟨(by decide : IsWord "break"), trivial⟩
  | .continue_ _, _ => ⟨(by decide : IsWord "continue"), trivial⟩
  | .fun_ routine, h => ⟨(by decide : IsWord "fun"), clear_routine hN routine h⟩
  | .return_ _ _, h => ⟨(by decide : IsWord "return"), clear_exprOpt hN h.2⟩
  | .class_ _ _ methods, h =>
    ⟨(by decide : IsWord "class"), h.1.isWord, clear_append (clear_superclass h.2.1) (clear_methods hN methods h.2.2)⟩

theorem clear_stmts (hN : ∀ x, N x → Number.IsFinite x) : ∀ ss : List Stmt, Stmt.SpelledAll N ss →
    AllClear (Stmt.printedAll ss)
  | [], _ => trivial
  | s :: rest, h => ⟨clear_stmt hN s h.1, clear_stmts hN rest h.2⟩

theorem clear_stmtOpt (hN : ∀ x, N x → Number.IsFinite x) : ∀ s : Option Stmt, Stmt.SpelledOpt N s →
    AllClear (Stmt.printedOpt s)
  | none, _ => trivial
  | some s, h => ⟨clear_stmt hN s h, trivial⟩

theorem clear_routine (hN : ∀ x, N x → Number.IsFinite x) : ∀ r : Routine, Stmt.SpelledRoutine N r →
    AllClear (Stmt.printedRoutine r)
  | ⟨_, _, body⟩, h => ⟨h.1.isWord, clear_params h.2.1, clear_stmts hN body h.2.2⟩

theorem clear_methods (hN : ∀ x, N x → Number.IsFinite x) : ∀ ms : List Routine, Stmt.SpelledMethods N ms →
    AllClear (Stmt.printedMethods ms)
  | [], _ => trivial
  | m :: rest, h => ⟨⟨(by decide : IsWord "method"), clear_routine hN m h.1⟩, clear_methods hN rest h.2⟩

end

end Printed

end

end Lox
