/-
  Lox.Proofs.Grammar.Calls — the calls of rules that are made while a program is read, and
  what each of them starts with.

  `Calls c c'`: the rule of `c`, reading from its state, comes to the call `c'` itself; what
  is left of a loop counts as a call too, so `Comes` leads through every round of it. A
  call starts at a place that is not before that of its caller (`calls_onward`), with a
  bound that is enough for the tokens left, and a declaration never at the end
  (`calls_ready`). So it is with all calls of a run (`comes_onward`, `comes_ready`), and
  every declaration that is called ends, further on than it began (`declaration_moves`).
-/

import Lox.Proofs.Grammar.Built

namespace Lox.Grammar

/-- A rule for statements and what they are made of, with the bound that it is given. -/
inductive Rule where
  | program (n : Nat)
  | declaration (n : Nat)
  | declarations (n : Nat)
  | block (n : Nat)
  | routine (n : Nat) (kind : RoutineKind)
  | class_ (n : Nat)
  | methods (n : Nat)
  | statement (n : Nat)
  | conditional (n : Nat)
  | while_ (n : Nat)
  | for_ (n : Nat)
  | broken (keyword : Token)
  | continued (keyword : Token)

structure Call where
  rule : Rule
  state : State

/-- The premises of a call are the steps that its caller makes before it. -/
inductive Calls : Call → Call → Prop
  | program {n : Nat} {s : State} : s.rest ≠ [] → Calls ⟨.program (n + 1), s⟩ ⟨.declaration n, s⟩
  | programRest {n : Nat} {s s' : State} {r : Option Stmt} : s.rest ≠ [] → declaration n s = .ok r s' →
      Calls ⟨.program (n + 1), s⟩ ⟨.program n, s'⟩
  | class_ {n : Nat} {s s' : State} {t : Token} :
      acceptAny [.keyword .class_, .keyword .fun_, .keyword .var] s = .ok (some t) s' →
      t.terminal = .keyword .class_ → Calls ⟨.declaration (n + 1), s⟩ ⟨.class_ n, s'⟩
  | function {n : Nat} {s s' : State} {t : Token} :
      acceptAny [.keyword .class_, .keyword .fun_, .keyword .var] s = .ok (some t) s' →
      t.terminal = .keyword .fun_ → Calls ⟨.declaration (n + 1), s⟩ ⟨.routine n .function, s'⟩
  | statement {n : Nat} {s s' : State} :
      acceptAny [.keyword .class_, .keyword .fun_, .keyword .var] s = .ok none s' →
      Calls ⟨.declaration (n + 1), s⟩ ⟨.statement n, s'⟩
  | declaration {n : Nat} {s s' : State} : atClose s = .ok false s' →
      Calls ⟨.declarations (n + 1), s⟩ ⟨.declaration n, s'⟩
  | declarationsRest {n : Nat} {s s₁ s₂ : State} {r : Option Stmt} : atClose s = .ok false s₁ →
      declaration n s₁ = .ok r s₂ → Calls ⟨.declarations (n + 1), s⟩ ⟨.declarations n, s₂⟩
  | declarations {n : Nat} {s : State} : Calls ⟨.block (n + 1), s⟩ ⟨.declarations n, s⟩
  /-- The body of a routine is behind its signature, and no loop encloses it. -/
  | body {n : Nat} {kind : RoutineKind} {s s₁ s₂ s₃ s₄ s₅ : State} {name : Lexeme} {params : List Lexeme}
      {t t' t'' : Token} :
      expectName (.routine kind) s = .ok name s₁ → expect .leftParen (.afterName kind) s₁ = .ok t s₂ →
      parameters n s₂ = .ok params s₃ → expect .rightParen .afterParameters s₃ = .ok t' s₄ →
      expect .leftBrace (.beforeBody kind) s₄ = .ok t'' s₅ →
      Calls ⟨.routine (n + 1) kind, s⟩ ⟨.block n, { s₅ with loops := 0 }⟩
  | methods {n : Nat} {s s₁ s₂ s₃ : State} {name : Lexeme} {parent : Option Reference} {t : Token} :
      expectName .class_ s = .ok name s₁ → superclass s₁ = .ok parent s₂ →
      expect .leftBrace .beforeClassBody s₂ = .ok t s₃ → Calls ⟨.class_ (n + 1), s⟩ ⟨.methods n, s₃⟩
  | method {n : Nat} {s s' : State} : atClose s = .ok false s' →
      Calls ⟨.methods (n + 1), s⟩ ⟨.routine n .method, s'⟩
  | methodsRest {n : Nat} {s s₁ s₂ : State} {r : Routine} : atClose s = .ok false s₁ →
      routine n .method s₁ = .ok r s₂ → Calls ⟨.methods (n + 1), s⟩ ⟨.methods n, s₂⟩
  | block {n : Nat} {s s' : State} {t : Token} : acceptAny statementStarts s = .ok (some t) s' →
      t.terminal = .symbol .leftBrace → Calls ⟨.statement (n + 1), s⟩ ⟨.block n, s'⟩
  | conditional {n : Nat} {s s' : State} {t : Token} : acceptAny statementStarts s = .ok (some t) s' →
      t.terminal = .keyword .if_ → Calls ⟨.statement (n + 1), s⟩ ⟨.conditional n, s'⟩
  | while_ {n : Nat} {s s' : State} {t : Token} : acceptAny statementStarts s = .ok (some t) s' →
      t.terminal = .keyword .while_ → Calls ⟨.statement (n + 1), s⟩ ⟨.while_ n, s'⟩
  | for_ {n : Nat} {s s' : State} {t : Token} : acceptAny statementStarts s = .ok (some t) s' →
      t.terminal = .keyword .for_ → Calls ⟨.statement (n + 1), s⟩ ⟨.for_ n, s'⟩
  | broken {n : Nat} {s s' : State} {t : Token} : acceptAny statementStarts s = .ok (some t) s' →
      t.terminal = .keyword .break_ → Calls ⟨.statement (n + 1), s⟩ ⟨.broken t, s'⟩
  | continued {n : Nat} {s s' : State} {t : Token} : acceptAny statementStarts s = .ok (some t) s' →
      t.terminal = .keyword .continue_ → Calls ⟨.statement (n + 1), s⟩ ⟨.continued t, s'⟩
  | yes {n : Nat} {s s₁ s₂ s₃ : State} {test : Expr} {t t' : Token} :
      expect .leftParen .afterIf s = .ok t s₁ → expression n .comma s₁ = .ok test s₂ →
      expect .rightParen .afterIfCondition s₂ = .ok t' s₃ → Calls ⟨.conditional (n + 1), s⟩ ⟨.statement n, s₃⟩
  | no {n : Nat} {s s₁ s₂ s₃ s₄ s₅ : State} {test : Expr} {yes : Stmt} {t t' t'' : Token} :
      expect .leftParen .afterIf s = .ok t s₁ → expression n .comma s₁ = .ok test s₂ →
      expect .rightParen .afterIfCondition s₂ = .ok t' s₃ → statement n s₃ = .ok yes s₄ →
      acceptKeyword .else_ s₄ = .ok (some t'') s₅ → Calls ⟨.conditional (n + 1), s⟩ ⟨.statement n, s₅⟩
  | whileBody {n : Nat} {s s₁ s₂ s₃ : State} {test : Expr} {t t' : Token} :
      expect .leftParen .afterWhile s = .ok t s₁ → expression n .comma s₁ = .ok test s₂ →
      expect .rightParen .afterWhileCondition s₂ = .ok t' s₃ →
      Calls ⟨.while_ (n + 1), s⟩ ⟨.statement n, { s₃ with loops := s₃.loops + 1 }⟩
  | forBody {n : Nat} {s s₁ s₂ s₃ s₄ s₅ s₆ : State} {init : Option Stmt} {test step : Option Expr} {t t' t'' : Token} :
      expect .leftParen .afterFor s = .ok t s₁ → forInitializer n s₁ = .ok init s₂ →
      optionalUnless n (.symbol .semicolon) s₂ = .ok test s₃ → expect .semicolon .afterLoopCondition s₃ = .ok t' s₄ →
      optionalUnless n (.symbol .rightParen) s₄ = .ok step s₅ → expect .rightParen .afterForClauses s₅ = .ok t'' s₆ →
      Calls ⟨.for_ (n + 1), s⟩ ⟨.statement n, { s₆ with loops := s₆.loops + 1 }⟩

/-- The calls that are made before a call has ended, however deep. -/
inductive Comes : Call → Call → Prop
  | refl {c : Call} : Comes c c
  | step {c c' c'' : Call} : Comes c c' → Calls c' c'' → Comes c c''

variable {α : Type} {n : Nat} {s s' : State} {c c' : Call}

/-! ## Where a call starts -/

/-- The second state is at the place of the first or behind it, in the same text. -/
def Onward (s s' : State) : Prop := s'.rest <:+ s.rest ∧ s'.endLine = s.endLine

theorem Onward.refl (s : State) : Onward s s := ⟨List.suffix_refl _, rfl⟩

theorem Onward.trans {s₁ s₂ s₃ : State} (h : Onward s₁ s₂) (h' : Onward s₂ s₃) : Onward s₁ s₃ :=
  ⟨h'.1.trans h.1, h'.2.trans h.2⟩

theorem Onward.loops (h : Onward s s') (loops : Nat) : Onward s { s' with loops } := h

theorem Onward.length (h : Onward s s') : s'.rest.length ≤ s.rest.length := h.1.length_le

theorem Built.ok {p : Parse α} {a : α} (h : Built p) (hp : p s = .ok a s') : Onward s s' := by
  have hs := h.onward s
  rwa [hp] at hs

/-- The rest of a condition, behind its opening parenthesis. -/
theorem onward_condition {s₁ s₂ : State} {test : Expr} {role : SymbolRole} {t : Token}
    (h : expression n .comma s = .ok test s₁) (h' : expect .rightParen role s₁ = .ok t s₂) : Onward s s₂ :=
  ((built_comma n).ok h).trans ((built_expect ..).ok h')

/-- The rest of a signature, behind the name. -/
theorem onward_signature {kind : RoutineKind} {s₁ s₂ s₃ s₄ : State} {params : List Lexeme} {t t' t'' : Token}
    (h₁ : expect .leftParen (.afterName kind) s = .ok t s₁) (h₂ : parameters n s₁ = .ok params s₂)
    (h₃ : expect .rightParen .afterParameters s₂ = .ok t' s₃)
    (h₄ : expect .leftBrace (.beforeBody kind) s₃ = .ok t'' s₄) : Onward s s₄ := by
  have hparams := ((built_expect ..).ok h₁).trans ((built_parameters n).ok h₂)
  exact hparams.trans (((built_expect ..).ok h₃).trans ((built_expect ..).ok h₄))

/-- The rest of a class's heading, behind the name. -/
theorem onward_heading {s₁ s₂ : State} {parent : Option Reference} {t : Token} (h : superclass s = .ok parent s₁)
    (h' : expect .leftBrace .beforeClassBody s₁ = .ok t s₂) : Onward s s₂ :=
  (built_superclass.ok h).trans ((built_expect ..).ok h')

/-- The clauses of a `for` loop, behind the opening parenthesis. -/
theorem onward_clauses {s₁ s₂ s₃ s₄ s₅ : State} {init : Option Stmt} {test step : Option Expr} {t t' : Token}
    (h₁ : forInitializer n s = .ok init s₁) (h₂ : optionalUnless n (.symbol .semicolon) s₁ = .ok test s₂)
    (h₃ : expect .semicolon .afterLoopCondition s₂ = .ok t s₃)
    (h₄ : optionalUnless n (.symbol .rightParen) s₃ = .ok step s₄)
    (h₅ : expect .rightParen .afterForClauses s₄ = .ok t' s₅) : Onward s s₅ := by
  have htest :=
    ((built_forInitializer n).ok h₁).trans (((built_optionalUnless ..).ok h₂).trans ((built_expect ..).ok h₃))
  exact htest.trans (((built_optionalUnless ..).ok h₄).trans ((built_expect ..).ok h₅))

/-- A rule that is called begins where its caller has come to. -/
theorem calls_onward (h : Calls c c') : Onward c.state c'.state := by
  cases h with
  | program hs => exact .refl _
  | programRest _ hd => exact (builtStmt _).declaration.ok hd
  | class_ h _ | function h _ | statement h | block h _ | conditional h _ | while_ h _ | for_ h _ | broken h _
  | continued h _ => exact (Built.acceptAny _).ok h
  | declaration h | method h => exact built_atClose.ok h
  | declarationsRest h hd => exact (built_atClose.ok h).trans ((builtStmt _).declaration.ok hd)
  | declarations => exact .refl _
  | body h₁ h₂ h₃ h₄ h₅ => exact (((Built.expectName _).ok h₁).trans (onward_signature h₂ h₃ h₄ h₅)).loops 0
  | methods h₁ h₂ h₃ => exact ((Built.expectName _).ok h₁).trans (onward_heading h₂ h₃)
  | methodsRest h hr => exact (built_atClose.ok h).trans (((builtStmt _).routine _).ok hr)
  | yes h₁ h₂ h₃ => exact ((built_expect ..).ok h₁).trans (onward_condition h₂ h₃)
  | no h₁ h₂ h₃ h₄ h₅ =>
    have htest := ((built_expect ..).ok h₁).trans (onward_condition h₂ h₃)
    exact htest.trans (((builtStmt _).statement.ok h₄).trans ((built_acceptKeyword _).ok h₅))
  | whileBody h₁ h₂ h₃ => exact (((built_expect ..).ok h₁).trans (onward_condition h₂ h₃)).loops _
  | forBody h₁ h₂ h₃ h₄ h₅ h₆ => exact (((built_expect ..).ok h₁).trans (onward_clauses h₂ h₃ h₄ h₅ h₆)).loops _

theorem comes_onward (h : Comes c c') : Onward c.state c'.state := by
  induction h with
  | refl => exact .refl _
  | step _ hcall ih => exact ih.trans (calls_onward hcall)

/-! ## What a call may rely on -/

/-- The bound is enough for the tokens left, and a declaration has a token to start with. -/
def Call.Ready : Call → Prop
  | ⟨.program n, s⟩ => 32 * s.rest.length + 18 ≤ n
  | ⟨.declaration n, s⟩ => s.rest ≠ [] ∧ 32 * s.rest.length + 17 ≤ n
  | ⟨.declarations n, s⟩ => 32 * s.rest.length + 18 ≤ n
  | ⟨.block n, s⟩ => 32 * s.rest.length + 19 ≤ n
  | ⟨.methods n, s⟩ => 32 * s.rest.length + 2 ≤ n
  | ⟨.statement n, s⟩ => 32 * s.rest.length + 15 ≤ n
  | ⟨.routine n _, s⟩ | ⟨.class_ n, s⟩ | ⟨.conditional n, s⟩ | ⟨.while_ n, s⟩ | ⟨.for_ n, s⟩ =>
    32 * s.rest.length + 1 ≤ n
  | ⟨.broken _, _⟩ | ⟨.continued _, _⟩ => True

theorem acceptAny_length {terminals : List Terminal} {t : Token} (h : acceptAny terminals s = .ok (some t) s') :
    s'.rest.length < s.rest.length := by
  obtain ⟨hnone, -⟩ | ⟨-, -, -, hlt⟩ := lasts_acceptAny.ok h
  · cases hnone
  · exact hlt

theorem expect_length {symbol : Symbol} {role : SymbolRole} {t : Token} (h : expect symbol role s = .ok t s') :
    s'.rest.length < s.rest.length := lasts_expect.ok h

theorem expectName_length {role : NameRole} {name : Lexeme} (h : expectName role s = .ok name s') :
    s'.rest.length < s.rest.length := lasts_expectName.ok h

theorem atClose_rest (h : atClose s = .ok false s') : s' = s ∧ s.rest ≠ [] := by
  obtain ⟨hs, hne⟩ := lasts_atClose.ok h
  exact ⟨hs, hne rfl⟩

/-- What is called has taken the tokens that its caller has taken before it. -/
theorem calls_ready (h : Calls c c') (hc : c.Ready) : c'.Ready := by
  cases h <;> simp only [Call.Ready] at hc ⊢
  case program hs => exact ⟨hs, by omega⟩
  case programRest hs hd =>
    have hlt := ((stmtLasts _).declaration hs (by omega)).ok hd
    simp only [Takes] at hlt
    omega
  case statement h =>
    have := ((Built.acceptAny _).ok h).length
    omega
  case class_ h _ | function h _ | block h _ | conditional h _ | while_ h _ | for_ h _ =>
    have := acceptAny_length h
    omega
  case declaration h =>
    obtain ⟨rfl, hne⟩ := atClose_rest h
    exact ⟨hne, by omega⟩
  case declarationsRest h hd =>
    obtain ⟨rfl, hne⟩ := atClose_rest h
    have hlt := ((stmtLasts _).declaration hne (by omega)).ok hd
    simp only [Takes] at hlt
    omega
  case declarations => omega
  case body h₁ h₂ h₃ h₄ h₅ =>
    have := expectName_length h₁
    have := (onward_signature h₂ h₃ h₄ h₅).length
    omega
  case methods h₁ h₂ h₃ =>
    have := expectName_length h₁
    have := (onward_heading h₂ h₃).length
    omega
  case method h =>
    obtain ⟨rfl, -⟩ := atClose_rest h
    omega
  case methodsRest h hr =>
    obtain ⟨rfl, -⟩ := atClose_rest h
    have hlt := ((stmtLasts _).routine (by omega)).ok hr
    simp only [Takes] at hlt
    omega
  case yes h₁ h₂ h₃ | whileBody h₁ h₂ h₃ =>
    have := expect_length h₁
    have := (onward_condition h₂ h₃).length
    omega
  case no h₁ h₂ h₃ h₄ h₅ =>
    have := expect_length h₁
    have := (onward_condition h₂ h₃).length
    have := ((builtStmt _).statement.ok h₄).length
    have := ((built_acceptKeyword _).ok h₅).length
    omega
  case forBody h₁ h₂ h₃ h₄ h₅ h₆ =>
    have := expect_length h₁
    have := (onward_clauses h₂ h₃ h₄ h₅ h₆).length
    omega

theorem comes_ready (h : Comes c c') (hc : c.Ready) : c'.Ready := by
  induction h with
  | refl => exact hc
  | step _ hcall ih => exact calls_ready hcall ih

/-! ## Declarations -/

/-- A declaration that is ready ends, read or given up, and at least one token is taken. -/
theorem declaration_moves (h : Call.Ready ⟨.declaration n, s⟩) :
    ∃ r s', declaration n s = .ok r s' ∧ Onward s s' ∧ s'.rest.length < s.rest.length := by
  obtain ⟨r, s', hd, -, hlt⟩ := declaration_ends h.1 h.2
  exact ⟨r, s', hd, (builtStmt n).declaration.ok hd, hlt⟩

end Lox.Grammar
