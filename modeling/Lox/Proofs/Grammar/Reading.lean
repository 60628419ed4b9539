/-
  Lox.Proofs.Grammar.Reading — which tree a token list stands for.

  `ReadsExpr p k ts k'` says that the tokens `ts` are a phrase `p`, a tree at its place in
  the grammar, whose references are numbered from slot `k` up to `k'`; `ReadsStmt` says it
  of statements and of what contains them. There is a rule for every production: the
  tokens of a phrase are the tokens of its parts in order, with the terminals between
  them, and its operands are phrases of the levels that the production names. Chains of
  binary operators group to the left, assignments to the right. The slot of an
  assignment's target is taken before its value and thrown away.

  Where the grammar is ambiguous one tree is chosen. The left operand of an `and` or `or`
  does not end in a ternary without parentheses. A phrase for a statement says whether it
  ends in an `if` that an `else` could still join (`isOpen`); the branch before an `else`
  does not, so an `else` belongs to the nearest `if`.
-/

import Lox.Grammar.Statement

namespace Lox

/-- Ends in a ternary that no parentheses close. -/
def Expr.endsInTernary : Expr → Bool
  | .ternary .. => true
  | .unary _ e | .binary _ _ e | .logical _ _ e | .assign _ e | .set _ _ e => e.endsInTernary
  | _ => false

namespace Grammar

/-! ## Expressions -/

/-- What is read as an expression or a part of one. -/
inductive Phrase where
  | level (l : Level) (e : Expr)
  | primary (e : Expr)
  /-- At least one argument. -/
  | arguments (es : List Expr)

/-- The tokens are read as the phrase, with the slots from the first number up to the second. -/
inductive ReadsExpr : Phrase → Int → List Token → Int → Prop
  | true_ {k : Int} {t : Token} : t.terminal = .keyword .true_ →
      ReadsExpr (.primary (.literal (.bool true))) k [t] k
  | false_ {k : Int} {t : Token} : t.terminal = .keyword .false_ →
      ReadsExpr (.primary (.literal (.bool false))) k [t] k
  | nil {k : Int} {t : Token} : t.terminal = .keyword .nil → ReadsExpr (.primary (.literal .nil)) k [t] k
  | number {k : Int} {t : Token} {literal : String} : t.terminal = .number literal →
      ReadsExpr (.primary (.literal (.number (Number.read literal)))) k [t] k
  | string {k : Int} {t : Token} {text : String} : t.terminal = .string text →
      ReadsExpr (.primary (.literal (.string text))) k [t] k
  | ref {k : Int} {t : Token} {name : String} : t.terminal = .ident name →
      ReadsExpr (.primary (.ref ⟨⟨name, t.line⟩, k⟩)) k [t] (k + 1)
  | this {k : Int} {t : Token} : t.terminal = .keyword .this →
      ReadsExpr (.primary (.this ⟨⟨thisName, t.line⟩, k⟩)) k [t] (k + 1)
  | super {k : Int} {t dot method : Token} {name : String} : t.terminal = .keyword .super →
      dot.terminal = .symbol .dot → method.terminal = .ident name →
      ReadsExpr (.primary (.super ⟨⟨superName, t.line⟩, k⟩ ⟨name, method.line⟩)) k [t, dot, method] (k + 1)
  | group {k k' : Int} {opening closing : Token} {ts : List Token} {e : Expr} :
      opening.terminal = .symbol .leftParen → ReadsExpr (.level .comma e) k ts k' →
      closing.terminal = .symbol .rightParen →
      ReadsExpr (.primary (.group e)) k (opening :: ts ++ [closing]) k'
  | atom {k k' : Int} {ts : List Token} {e : Expr} : ReadsExpr (.primary e) k ts k' →
      ReadsExpr (.level .call e) k ts k'
  | get {k k' : Int} {ts : List Token} {dot property : Token} {name : String} {e : Expr} :
      ReadsExpr (.level .call e) k ts k' → dot.terminal = .symbol .dot → property.terminal = .ident name →
      ReadsExpr (.level .call (.get e ⟨name, property.line⟩)) k (ts ++ [dot, property]) k'
  | callEmpty {k k' : Int} {ts : List Token} {opening closing : Token} {e : Expr} :
      ReadsExpr (.level .call e) k ts k' → opening.terminal = .symbol .leftParen →
      closing.terminal = .symbol .rightParen →
      ReadsExpr (.level .call (.call e closing.lexeme [])) k (ts ++ [opening, closing]) k'
  | call {k k₁ k' : Int} {ts us : List Token} {opening closing : Token} {e : Expr} {es : List Expr} :
      ReadsExpr (.level .call e) k ts k₁ → opening.terminal = .symbol .leftParen →
      ReadsExpr (.arguments es) k₁ us k' → es.length ≤ mostArguments →
      closing.terminal = .symbol .rightParen →
      ReadsExpr (.level .call (.call e closing.lexeme es)) k (ts ++ opening :: us ++ [closing]) k'
  | unary {k k' : Int} {op : Token} {ts : List Token} {e : Expr} : op.terminal ∈ unaryOperators →
      ReadsExpr (.level .unary e) k ts k' → ReadsExpr (.level .unary (.unary op.lexeme e)) k (op :: ts) k'
  | chain {l : Level} {k k₁ k' : Int} {ts us : List Token} {op : Token} {left right : Expr} :
      ReadsExpr (.level l left) k ts k₁ → op.terminal ∈ l.operators →
      ReadsExpr (.level l.tighter right) k₁ us k' →
      (l = .or_ ∨ l = .and_ → left.endsInTernary = false) →
      ReadsExpr (.level l (l.join left op.lexeme right)) k (ts ++ op :: us) k'
  | ternary {k k₁ k₂ k' : Int} {ts us vs : List Token} {question colon : Token} {cond yes no : Expr} :
      ReadsExpr (.level .equality cond) k ts k₁ → question.terminal = .symbol .question →
      ReadsExpr (.level .assignment yes) k₁ us k₂ → colon.terminal = .symbol .colon →
      ReadsExpr (.level .assignment no) k₂ vs k' →
      ReadsExpr (.level .ternary (.ternary cond yes no)) k (ts ++ question :: us ++ colon :: vs) k'
  | assign {k k' : Int} {ts : List Token} {target equals : Token} {name : String} {value : Expr} :
      target.terminal = .ident name → equals.terminal = .symbol .equal →
      ReadsExpr (.level .assignment value) (k + 1) ts k' →
      ReadsExpr (.level .assignment (.assign ⟨⟨name, target.line⟩, k'⟩ value)) k
        (target :: equals :: ts) (k' + 1)
  | set {k k₁ k' : Int} {ts us : List Token} {dot property equals : Token} {name : String}
      {object value : Expr} :
      ReadsExpr (.level .call object) k ts k₁ → dot.terminal = .symbol .dot →
      property.terminal = .ident name → equals.terminal = .symbol .equal →
      ReadsExpr (.level .assignment value) k₁ us k' →
      ReadsExpr (.level .assignment (.set object ⟨name, property.line⟩ value)) k
        (ts ++ dot :: property :: equals :: us) k'
  /-- A phrase of a tighter level. -/
  | operand {l : Level} {k k' : Int} {ts : List Token} {e : Expr} : l ≠ .call →
      ReadsExpr (.level l.tighter e) k ts k' → ReadsExpr (.level l e) k ts k'
  | last {k k' : Int} {ts : List Token} {e : Expr} : ReadsExpr (.level .assignment e) k ts k' →
      ReadsExpr (.arguments [e]) k ts k'
  | more {k k₁ k' : Int} {ts us : List Token} {comma : Token} {e : Expr} {es : List Expr} :
      ReadsExpr (.level .assignment e) k ts k₁ → comma.terminal = .symbol .comma →
      ReadsExpr (.arguments es) k₁ us k' → ReadsExpr (.arguments (e :: es)) k (ts ++ comma :: us) k'

/-! ## Statements -/

/-- The parameters between a pair of parentheses. -/
inductive ReadsNames : List Lexeme → List Token → Prop
  | last {t : Token} {name : String} : t.terminal = .ident name → ReadsNames [⟨name, t.line⟩] [t]
  | more {t comma : Token} {ts : List Token} {name : String} {names : List Lexeme} :
      t.terminal = .ident name → comma.terminal = .symbol .comma → ReadsNames names ts →
      ReadsNames (⟨name, t.line⟩ :: names) (t :: comma :: ts)

def ReadsParams (names : List Lexeme) (ts : List Token) : Prop :=
  names = [] ∧ ts = [] ∨ ReadsNames names ts ∧ names.length ≤ mostArguments

/-- An expression or nothing. -/
def ReadsOpt (e : Option Expr) (k : Int) (ts : List Token) (k' : Int) : Prop :=
  match e with
  | none => ts = [] ∧ k' = k
  | some e => ReadsExpr (.level .comma e) k ts k'

/-- A superclass clause or nothing. -/
inductive ReadsParent : Option Reference → Int → List Token → Int → Prop
  | none {k : Int} : ReadsParent none k [] k
  | some {k : Int} {less t : Token} {name : String} : less.terminal = .symbol .less →
      t.terminal = .ident name → ReadsParent (some ⟨⟨name, t.line⟩, k⟩) k [less, t] (k + 1)

/-- What follows the name in the declaration of a variable. -/
inductive ReadsInit : Option Expr → Int → List Token → Int → Prop
  | none {k : Int} : ReadsInit none k [] k
  | some {k k' : Int} {equals : Token} {ts : List Token} {e : Expr} : equals.terminal = .symbol .equal →
      ReadsExpr (.level .comma e) k ts k' → ReadsInit (some e) k (equals :: ts) k'

/-- The declaration of a variable, behind its keyword. -/
inductive ReadsVar : Stmt → Int → List Token → Int → Prop
  | intro {k k' : Int} {t semicolon : Token} {ts : List Token} {name : String} {init : Option Expr} :
      t.terminal = .ident name → ReadsInit init k ts k' → semicolon.terminal = .symbol .semicolon →
      ReadsVar (.var ⟨name, t.line⟩ init) k (t :: ts ++ [semicolon]) k'

/-- An expression statement. -/
inductive ReadsEffect : Stmt → Int → List Token → Int → Prop
  | intro {k k' : Int} {ts : List Token} {semicolon : Token} {e : Expr} :
      ReadsExpr (.level .comma e) k ts k' → semicolon.terminal = .symbol .semicolon →
      ReadsEffect (.expr e) k (ts ++ [semicolon]) k'

/-- The first clause of a `for` loop. -/
inductive ReadsClause : Option Stmt → Int → List Token → Int → Prop
  | none {k : Int} {semicolon : Token} : semicolon.terminal = .symbol .semicolon →
      ReadsClause none k [semicolon] k
  | var {k k' : Int} {keyword : Token} {ts : List Token} {s : Stmt} : keyword.terminal = .keyword .var →
      ReadsVar s k ts k' → ReadsClause (some s) k (keyword :: ts) k'
  | effect {k k' : Int} {ts : List Token} {s : Stmt} : ReadsEffect s k ts k' →
      ReadsClause (some s) k ts k'

/-- What is read as a statement or a part of one. -/
inductive Clause where
  | statement (inLoop isOpen : Bool) (s : Stmt)
  | declaration (inLoop : Bool) (s : Stmt)
  | declarations (inLoop : Bool) (ss : List Stmt)
  | routine (r : Routine)
  | routines (rs : List Routine)

/-- The tokens are read as the clause, with the slots from the first number up to the second. -/
inductive ReadsStmt : Clause → Int → List Token → Int → Prop
  | effect {b : Bool} {k k' : Int} {ts : List Token} {s : Stmt} : ReadsEffect s k ts k' →
      ReadsStmt (.statement b false s) k ts k'
  | print {b : Bool} {k k' : Int} {ts : List Token} {keyword semicolon : Token} {e : Expr} :
      keyword.terminal = .keyword .print → ReadsExpr (.level .comma e) k ts k' →
      semicolon.terminal = .symbol .semicolon →
      ReadsStmt (.statement b false (.print_ e)) k (keyword :: ts ++ [semicolon]) k'
  | block {b : Bool} {k k' : Int} {ts : List Token} {opening closing : Token} {ss : List Stmt} :
      opening.terminal = .symbol .leftBrace → ReadsStmt (.declarations b ss) k ts k' →
      closing.terminal = .symbol .rightBrace →
      ReadsStmt (.statement b false (.block ss)) k (opening :: ts ++ [closing]) k'
  | if_ {b o : Bool} {k k₁ k' : Int} {ts us : List Token} {keyword opening closing : Token} {test : Expr}
      {yes : Stmt} : keyword.terminal = .keyword .if_ → opening.terminal = .symbol .leftParen →
      ReadsExpr (.level .comma test) k ts k₁ → closing.terminal = .symbol .rightParen →
      ReadsStmt (.statement b o yes) k₁ us k' →
      ReadsStmt (.statement b true (.cond test yes none)) k (keyword :: opening :: ts ++ closing :: us) k'
  | ifElse {b o : Bool} {k k₁ k₂ k' : Int} {ts us vs : List Token} {keyword opening closing other : Token}
      {test : Expr} {yes no : Stmt} : keyword.terminal = .keyword .if_ →
      opening.terminal = .symbol .leftParen → ReadsExpr (.level .comma test) k ts k₁ →
      closing.terminal = .symbol .rightParen → ReadsStmt (.statement b false yes) k₁ us k₂ →
      other.terminal = .keyword .else_ → ReadsStmt (.statement b o no) k₂ vs k' →
      ReadsStmt (.statement b o (.cond test yes (some no))) k
        (keyword :: opening :: ts ++ closing :: us ++ other :: vs) k'
  | while_ {b o : Bool} {k k₁ k' : Int} {ts us : List Token} {keyword opening closing : Token} {test : Expr}
      {body : Stmt} : keyword.terminal = .keyword .while_ → opening.terminal = .symbol .leftParen →
      ReadsExpr (.level .comma test) k ts k₁ → closing.terminal = .symbol .rightParen →
      ReadsStmt (.statement true o body) k₁ us k' →
      ReadsStmt (.statement b o (.loop test body none)) k (keyword :: opening :: ts ++ closing :: us) k'
  | for_ {b o : Bool} {k k₁ k₂ k₃ k' : Int} {ts us vs ws : List Token}
      {keyword opening semicolon closing : Token} {init : Option Stmt} {test step : Option Expr}
      {body : Stmt} : keyword.terminal = .keyword .for_ → opening.terminal = .symbol .leftParen →
      ReadsClause init k ts k₁ → ReadsOpt test k₁ us k₂ → semicolon.terminal = .symbol .semicolon →
      ReadsOpt step k₂ vs k₃ → closing.terminal = .symbol .rightParen →
      ReadsStmt (.statement true o body) k₃ ws k' →
      ReadsStmt (.statement b o (forLoop init test step body)) k
        (keyword :: opening :: ts ++ us ++ semicolon :: vs ++ closing :: ws) k'
  | return_ {b : Bool} {k k' : Int} {ts : List Token} {keyword semicolon : Token} {value : Option Expr} :
      keyword.terminal = .keyword .return_ → ReadsOpt value k ts k' →
      semicolon.terminal = .symbol .semicolon →
      ReadsStmt (.statement b false (.return_ keyword.lexeme value)) k (keyword :: ts ++ [semicolon]) k'
  | break_ {k : Int} {keyword semicolon : Token} : keyword.terminal = .keyword .break_ →
      semicolon.terminal = .symbol .semicolon →
      ReadsStmt (.statement true false (.break_ keyword.lexeme)) k [keyword, semicolon] k
  | continue_ {k : Int} {keyword semicolon : Token} : keyword.terminal = .keyword .continue_ →
      semicolon.terminal = .symbol .semicolon →
      ReadsStmt (.statement true false (.continue_ keyword.lexeme)) k [keyword, semicolon] k
  | statement {b o : Bool} {k k' : Int} {ts : List Token} {s : Stmt} :
      ReadsStmt (.statement b o s) k ts k' → ReadsStmt (.declaration b s) k ts k'
  | var {b : Bool} {k k' : Int} {keyword : Token} {ts : List Token} {s : Stmt} :
      keyword.terminal = .keyword .var → ReadsVar s k ts k' →
      ReadsStmt (.declaration b s) k (keyword :: ts) k'
  | fun_ {b : Bool} {k k' : Int} {keyword : Token} {ts : List Token} {r : Routine} :
      keyword.terminal = .keyword .fun_ → ReadsStmt (.routine r) k ts k' →
      ReadsStmt (.declaration b (.fun_ r)) k (keyword :: ts) k'
  | class_ {b : Bool} {k k₁ k' : Int} {keyword t opening closing : Token} {ts us : List Token} {name : String}
      {parent : Option Reference} {rs : List Routine} : keyword.terminal = .keyword .class_ →
      t.terminal = .ident name → ReadsParent parent k ts k₁ → opening.terminal = .symbol .leftBrace →
      ReadsStmt (.routines rs) k₁ us k' → closing.terminal = .symbol .rightBrace →
      ReadsStmt (.declaration b (.class_ ⟨name, t.line⟩ parent rs)) k
        (keyword :: t :: ts ++ opening :: us ++ [closing]) k'
  | nil {b : Bool} {k : Int} : ReadsStmt (.declarations b []) k [] k
  | cons {b : Bool} {k k₁ k' : Int} {ts us : List Token} {s : Stmt} {ss : List Stmt} :
      ReadsStmt (.declaration b s) k ts k₁ → ReadsStmt (.declarations b ss) k₁ us k' →
      ReadsStmt (.declarations b (s :: ss)) k (ts ++ us) k'
  | routine {k k' : Int} {t opening closing brace closing' : Token} {ts us : List Token} {name : String}
      {params : List Lexeme} {body : List Stmt} : t.terminal = .ident name →
      opening.terminal = .symbol .leftParen → ReadsParams params ts →
      closing.terminal = .symbol .rightParen → brace.terminal = .symbol .leftBrace →
      ReadsStmt (.declarations false body) k us k' → closing'.terminal = .symbol .rightBrace →
      ReadsStmt (.routine ⟨⟨name, t.line⟩, params, body⟩) k
        (t :: opening :: ts ++ closing :: brace :: us ++ [closing']) k'
  | noRoutine {k : Int} : ReadsStmt (.routines []) k [] k
  | moreRoutines {k k₁ k' : Int} {ts us : List Token} {r : Routine} {rs : List Routine} :
      ReadsStmt (.routine r) k ts k₁ → ReadsStmt (.routines rs) k₁ us k' →
      ReadsStmt (.routines (r :: rs)) k (ts ++ us) k'

end Grammar

end Lox
