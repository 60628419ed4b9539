/-
  Lox.Proofs.Grammar.Programs — the rules for statements read every reading, and so a
  token list is read without an error exactly if it has a reading, into that reading
  (`parse_of_reads`, `reads_of_parse`).

  A statement that ends in an open `if` is read so in front of anything but an `else`; a
  list of declarations up to a closing brace or up to the end.
-/

import Lox.Proofs.Grammar.Complete
import Lox.Proofs.Grammar.Progress
import Lox.Proofs.Grammar.Statements

namespace Lox.Grammar

variable {n : Nat} {s : State} {k k' : Int} {ts rest : List Token} {t : Token}

/-! ## Simple statements -/

theorem leads_comma {e : Expr} {closing : Token} {symbol : Symbol} (h : ReadsExpr (.level .comma e) k ts k')
    (hc : closing.terminal = .symbol symbol) (hs : symbol = .rightParen ∨ symbol = .colon ∨ symbol = .semicolon) :
    Leads (expression n .comma) (s.to (ts ++ closing :: rest) k) (pure e) (s.to (closing :: rest) k') :=
  (readsExpr_follows h).leads (settled_end (joins_symbol hc hs)) s n

theorem leads_optionalUnless {e : Option Expr} {closing : Token} {symbol : Symbol} (h : ReadsOpt e k ts k')
    (hc : closing.terminal = .symbol symbol) (hs : symbol = .rightParen ∨ symbol = .colon ∨ symbol = .semicolon) :
    Leads (optionalUnless n (.symbol symbol)) (s.to (ts ++ closing :: rest) k) (pure e)
      (s.to (closing :: rest) k') := by
  cases e with
  | none =>
    obtain ⟨rfl, rfl⟩ := h
    exact Leads.step (isNext_to hc) (Leads.refl _ _)
  | some e =>
    have hfirst : Avoids [.symbol symbol] (ts ++ closing :: rest) :=
      avoids_expr h (by rcases hs with rfl | rfl | rfl <;> decide)
    refine Leads.step (isNext_none hfirst) ?_
    exact Leads.bind (leads_comma h hc hs) (Leads.refl _ _)

theorem leads_variable {x : Stmt} (h : ReadsVar x k ts k') :
    Leads (variable_ n) (s.to (ts ++ rest) k) (pure x) (s.to rest k') := by
  cases h with
  | intro ht hi hs =>
    simp only [List.append_assoc, List.cons_append, List.nil_append]
    refine Leads.step (expectName_to ht) ?_
    cases hi with
    | none =>
      refine Leads.step (acceptAny_none (avoids_cons.mpr (by simp [hs]))) ?_
      refine Leads.bind (Leads.refl _ _) ?_
      exact Leads.step (expect_to hs) (Leads.refl _ _)
    | some hq he =>
      refine Leads.step (accept_to hq) ?_
      refine Leads.bind (leads_comma he hs (by decide)) ?_
      refine Leads.bind (Leads.refl _ _) ?_
      exact Leads.step (expect_to hs) (Leads.refl _ _)

theorem leads_effect {x : Stmt} (h : ReadsEffect x k ts k') :
    Leads (expressionStatement n) (s.to (ts ++ rest) k) (pure x) (s.to rest k') := by
  cases h with
  | intro he hs =>
    rw [List.append_assoc]
    refine Leads.bind (leads_comma he hs (by decide)) ?_
    exact Leads.step (expect_to hs) (Leads.refl _ _)

theorem leads_jump {f : SyntaxFault} {role : SymbolRole} {keyword semicolon : Token} {y : Stmt} (hl : s.loops ≠ 0)
    (hs : semicolon.terminal = .symbol .semicolon) :
    Leads (do checkLoop keyword f; let _ ← expect .semicolon role; return y : Parse Stmt)
      (s.to (semicolon :: rest) k) (pure y) (s.to rest k) := by
  have hcheck : checkLoop keyword f (s.to (semicolon :: rest) k) = .ok () (s.to (semicolon :: rest) k) :=
    checkLoop_ok.mpr (if_neg hl).symm
  exact Leads.step hcheck (Leads.step (expect_to hs) (Leads.refl _ _))

/-! ## Parts of declarations -/

/-- The next parameter and those that follow it, when `count` have been read. -/
def parametersFrom (n count : Nat) : Parse (List Lexeme) := do
  let next ← expectName .parameter
  return next :: (← moreParameters n (count + 1))

theorem ne_nil_of_names {names : List Lexeme} (h : ReadsNames names ts) : names ≠ [] := by
  cases h with
  | last => exact List.cons_ne_nil _ _
  | more => exact List.cons_ne_nil _ _

theorem leads_names {names : List Lexeme} {closing : Token} (h : ReadsNames names ts)
    (hc : closing.terminal = .symbol .rightParen) {count : Nat} (hl : count + names.length ≤ mostArguments) :
    Leads (parametersFrom n count) (s.to (ts ++ closing :: rest) k) (pure names) (s.to (closing :: rest) k) := by
  induction h generalizing n count with
  | last ht =>
    refine Leads.step (expectName_to ht) ?_
    cases n with
    | zero => exact Leads.spent
    | succ n =>
      rw [moreParameters]
      refine Leads.bind (Leads.step (acceptAny_none (avoids_cons.mpr (by simp [hc]))) (Leads.refl _ _)) ?_
      exact Leads.refl _ _
  | more ht hq hnames ih =>
    refine Leads.step (expectName_to ht) ?_
    cases n with
    | zero => exact Leads.spent
    | succ n =>
      rw [List.length_cons] at hl
      have hcount : ¬ mostArguments ≤ count + 1 := by
        have := List.length_pos_iff.mpr (ne_nil_of_names hnames)
        omega
      rw [moreParameters]
      refine Leads.bind (Leads.step (accept_to hq) ?_) (Leads.refl _ _)
      simp only [if_neg hcount]
      exact ih (by omega)

theorem leads_parameters {names : List Lexeme} {closing : Token} (h : ReadsParams names ts)
    (hc : closing.terminal = .symbol .rightParen) :
    Leads (parameters n) (s.to (ts ++ closing :: rest) k) (pure names) (s.to (closing :: rest) k) := by
  rcases h with ⟨rfl, rfl⟩ | ⟨h, hl⟩
  · exact Leads.step (isNext_to hc) (Leads.refl _ _)
  · have hfirst : Avoids [.symbol .rightParen] (ts ++ closing :: rest) := by
      cases h with
      | last ht => exact avoids_cons.mpr (by simp [ht])
      | more ht => exact avoids_cons.mpr (by simp [ht])
    have hcount : 0 + names.length ≤ mostArguments := by omega
    exact Leads.step (isNext_none hfirst) (leads_names h hc hcount)

theorem leads_superclass {parent : Option Reference} {opening : Token} (h : ReadsParent parent k ts k')
    (ho : opening.terminal = .symbol .leftBrace) :
    Leads superclass (s.to (ts ++ opening :: rest) k) (pure parent) (s.to (opening :: rest) k') := by
  cases h with
  | none => exact Leads.step (acceptAny_none (avoids_cons.mpr (by simp [ho]))) (Leads.refl _ _)
  | some hl ht =>
    refine Leads.step (accept_to hl) ?_
    exact Leads.step (expectName_to ht) (Leads.step newSlot_to (Leads.refl _ _))

/-- The first clause of a `for` loop. -/
theorem leads_forInitializer {init : Option Stmt} (h : ReadsClause init k ts k') :
    Leads (forInitializer n) (s.to (ts ++ rest) k) (pure init) (s.to rest k') := by
  cases h with
  | none hs => exact Leads.step (accept_to hs) (Leads.refl _ _)
  | var hk hvar =>
    refine Leads.step (acceptAny_none (avoids_cons.mpr (by simp [hk]))) ?_
    refine Leads.step (accept_to hk) ?_
    exact Leads.bind (leads_variable hvar) (Leads.refl _ _)
  | effect heff =>
    have hfirst : Avoids [.symbol .semicolon, .keyword .var] (ts ++ rest) := by
      cases heff with
      | intro he hs =>
        rw [List.append_assoc]
        exact avoids_expr he (by decide)
    refine Leads.step (acceptAny_none (hfirst.mono (by simp))) ?_
    refine Leads.step (acceptAny_none (hfirst.mono (by simp))) ?_
    exact Leads.bind (leads_effect heff) (Leads.refl _ _)

/-! ## First tokens -/

theorem statement_opens {b o : Bool} {x : Stmt} (h : ReadsStmt (.statement b o x) k ts k') :
    ∃ t us, ts = t :: us ∧ t.terminal ∉ ([.keyword .else_, .symbol .rightBrace, .keyword .class_, .keyword .fun_,
      .keyword .var] : List Terminal) := by
  cases h with
  | effect h =>
    cases h with
    | intro he _ =>
      obtain ⟨t, us, rfl, ht⟩ := readsExpr_opens he
      exact ⟨t, _, rfl, not_opens (by decide) (Phrase.opens_level ht)⟩
  | print ht _ _ | block ht _ _ | if_ ht _ _ _ _ | ifElse ht _ _ _ _ _ _ | while_ ht _ _ _ _
  | for_ ht _ _ _ _ _ _ _ | return_ ht _ _ | break_ ht _ | continue_ ht _ =>
    exact ⟨_, _, rfl, by simp [ht]⟩

theorem declaration_opens {b : Bool} {x : Stmt} (h : ReadsStmt (.declaration b x) k ts k') :
    ∃ t us, ts = t :: us ∧ t.terminal ∉ ([.keyword .else_, .symbol .rightBrace] : List Terminal) := by
  cases h with
  | statement h =>
    obtain ⟨t, us, rfl, ht⟩ := statement_opens h
    refine ⟨t, us, rfl, fun hm => ht ?_⟩
    simp only [List.mem_cons, List.not_mem_nil, or_false] at hm
    rcases hm with hm | hm <;> simp [hm]
  | var ht _ | fun_ ht _ | class_ ht _ _ _ _ _ => exact ⟨_, _, rfl, by simp [ht]⟩

/-- A list of declarations does not start with an `else`. -/
theorem avoids_declarations {b : Bool} {ss : List Stmt} (h : ReadsStmt (.declarations b ss) k ts k')
    (hr : Avoids [.keyword .else_] rest) : Avoids [.keyword .else_] (ts ++ rest) := by
  cases h with
  | nil => exact hr
  | cons h _ =>
    obtain ⟨t, us, rfl, ht⟩ := declaration_opens h
    exact avoids_cons.mpr fun hm => ht (by simp [List.mem_singleton.mp hm])

/-! ## One reading at a time -/

def State.admits (s : State) (inLoop : Bool) : Prop := inLoop = true → s.loops ≠ 0

theorem admits_false : s.admits false := by
  intro h
  cases h

/-- What the rules do in front of the tokens of a reading. -/
def ClauseFollows : Clause → Int → List Token → Int → Prop
  | .statement b o x, k, ts, k' => ∀ (s : State) (rest : List Token) (n : Nat), s.admits b →
    (o = true → Avoids [.keyword .else_] rest) →
    Leads (statement n) (s.to (ts ++ rest) k) (pure x) (s.to rest k')
  | .declaration b x, k, ts, k' => ∀ (s : State) (rest : List Token) (n : Nat), s.admits b →
    Avoids [.keyword .else_] rest → Leads (declaration n) (s.to (ts ++ rest) k) (pure (some x)) (s.to rest k')
  | .declarations b ss, k, ts, k' => ∀ s : State, s.admits b →
    (∀ (closing : Token) (rest : List Token) (n : Nat), closing.terminal = .symbol .rightBrace →
      Leads (declarations n) (s.to (ts ++ closing :: rest) k) (pure ss) (s.to (closing :: rest) k')) ∧
    ∀ n, Leads (program n) (s.to ts k) (pure ss) (s.to [] k')
  | .routine r, k, ts, k' => ∀ (s : State) (rest : List Token) (n : Nat) (kind : RoutineKind),
    Leads (routine n kind) (s.to (ts ++ rest) k) (pure r) (s.to rest k')
  | .routines rs, k, ts, k' => ∀ (s : State) (closing : Token) (rest : List Token) (n : Nat),
    closing.terminal = .symbol .rightBrace →
    Leads (methods n) (s.to (ts ++ closing :: rest) k) (pure rs) (s.to (closing :: rest) k')

theorem Leads.recovering {p : Parse Stmt} {x : Stmt} {s₁ : State} (h : Leads p s (pure x) s₁) :
    Leads (recovering p) s (pure (some x)) s₁ := by
  rcases h with h | ⟨s', h⟩
  · exact Or.inl (recovering_ok.mpr (Or.inl ⟨x, h, rfl⟩))
  · refine Or.inr ⟨s', ?_⟩
    simp only [Grammar.recovering, h]

theorem leads_inLoop {p : Parse Stmt} {x : Stmt}
    (h : Leads p ({ s with loops := s.loops + 1 }.to ts k) (pure x) ({ s with loops := s.loops + 1 }.to rest k')) :
    Leads (inLoop p) (s.to ts k) (pure x) (s.to rest k') := by
  rcases h with h | ⟨s', h⟩
  · exact Or.inl (withLoops_ok.mpr ⟨_, h, rfl⟩)
  · refine Or.inr ⟨{ s' with loops := s'.loops - 1 }, ?_⟩
    simp only [inLoop, withLoops]
    rw [show ({ s.to ts k with loops := (s.to ts k).loops + 1 } : State) = { s with loops := s.loops + 1 }.to ts k from
      rfl, h]

theorem leads_inRoutine {α : Type} {p : Parse α} {a : α}
    (h : Leads p ({ s with loops := 0 }.to ts k) (pure a) ({ s with loops := 0 }.to rest k')) :
    Leads (inRoutine p) (s.to ts k) (pure a) (s.to rest k') := by
  rcases h with h | ⟨s', h⟩
  · exact Or.inl (withLoops_ok.mpr ⟨_, h, rfl⟩)
  · refine Or.inr ⟨{ s' with loops := s.loops }, ?_⟩
    simp only [inRoutine, withLoops]
    rw [show ({ s.to ts k with loops := 0 } : State) = { s with loops := 0 }.to ts k from rfl, h]
    rfl

theorem leads_body {o : Bool} {body : Stmt} (h : ClauseFollows (.statement true o body) k ts k')
    (hr : o = true → Avoids [.keyword .else_] rest) :
    Leads (inLoop (statement n)) (s.to (ts ++ rest) k) (pure body) (s.to rest k') :=
  leads_inLoop (h { s with loops := s.loops + 1 } rest n (fun _ => Nat.succ_ne_zero _) hr)

theorem leads_block {b : Bool} {ss : List Stmt} {closing : Token} (h : ClauseFollows (.declarations b ss) k ts k')
    (hb : s.admits b) (hc : closing.terminal = .symbol .rightBrace) :
    Leads (block n) (s.to (ts ++ closing :: rest) k) (pure ss) (s.to rest k') := by
  cases n with
  | zero => exact Leads.spent
  | succ n =>
    rw [block]
    refine Leads.bind ((h s hb).1 closing rest n hc) ?_
    exact Leads.step (expect_to hc) (Leads.refl _ _)

/-- A statement that starts with a terminal of its own. -/
theorem follows_started {b o : Bool} {x : Stmt} {terminal : Terminal} (ht : t.terminal = terminal)
    (h : ∀ (s : State) (rest : List Token) (n : Nat), s.admits b → (o = true → Avoids [.keyword .else_] rest) →
      Leads (statement (n + 1)) (s.to (⟨terminal, t.line⟩ :: ts ++ rest) k) (pure x) (s.to rest k')) :
    ClauseFollows (.statement b o x) k (t :: ts) k' := by
  obtain ⟨_, line⟩ := t
  cases ht
  intro s rest n hb hr
  cases n with
  | zero => exact Leads.spent
  | succ n => exact h s rest n hb hr

theorem follows_effect {b : Bool} {x : Stmt} (h : ReadsEffect x k ts k') :
    ClauseFollows (.statement b false x) k ts k' := by
  intro s rest n _ _
  cases n with
  | zero => exact Leads.spent
  | succ n =>
    have hfirst : Avoids statementStarts (ts ++ rest) := by
      cases h with
      | intro he _ =>
        rw [List.append_assoc]
        exact avoids_expr he (by decide)
    rw [statement]
    exact Leads.step (acceptAny_none hfirst) (leads_effect h)

theorem follows_print {b : Bool} {keyword semicolon : Token} {e : Expr} (hk : keyword.terminal = .keyword .print)
    (he : ReadsExpr (.level .comma e) k ts k') (hs : semicolon.terminal = .symbol .semicolon) :
    ClauseFollows (.statement b false (.print_ e)) k (keyword :: ts ++ [semicolon]) k' := by
  simp only [List.cons_append]
  refine follows_started hk fun s rest n _ _ => ?_
  simp only [List.append_assoc, List.cons_append, List.nil_append]
  rw [statement]
  refine Leads.step (acceptAny_to (by simp [statementStarts])) ?_
  refine Leads.bind (leads_comma he hs (by decide)) ?_
  exact Leads.step (expect_to hs) (Leads.refl _ _)

theorem follows_block {b : Bool} {opening closing : Token} {ss : List Stmt}
    (ho : opening.terminal = .symbol .leftBrace) (h : ClauseFollows (.declarations b ss) k ts k')
    (hc : closing.terminal = .symbol .rightBrace) :
    ClauseFollows (.statement b false (.block ss)) k (opening :: ts ++ [closing]) k' := by
  simp only [List.cons_append]
  refine follows_started ho fun s rest n hb _ => ?_
  simp only [List.append_assoc, List.cons_append, List.nil_append]
  rw [statement]
  refine Leads.step (acceptAny_to (by simp [statementStarts])) ?_
  exact Leads.bind (leads_block h hb hc) (Leads.refl _ _)

/-- A conditional whose branch is not followed by an `else` of its own. -/
theorem follows_if {b o : Bool} {us : List Token} {keyword opening closing : Token} {test : Expr} {yes : Stmt}
    {k₁ : Int} (hk : keyword.terminal = .keyword .if_) (ho : opening.terminal = .symbol .leftParen)
    (ht : ReadsExpr (.level .comma test) k ts k₁) (hc : closing.terminal = .symbol .rightParen)
    (h : ClauseFollows (.statement b o yes) k₁ us k') :
    ClauseFollows (.statement b true (.cond test yes none)) k (keyword :: opening :: ts ++ closing :: us) k' := by
  simp only [List.cons_append]
  refine follows_started hk fun s rest n hb hr => ?_
  simp only [List.append_assoc, List.cons_append]
  rw [statement]
  refine Leads.step (acceptAny_to (by simp [statementStarts])) ?_
  cases n with
  | zero => exact Leads.spent
  | succ n =>
    show Leads (conditional (n + 1)) _ _ _
    rw [conditional]
    refine Leads.step (expect_to ho) ?_
    refine Leads.bind (leads_comma ht hc (by decide)) ?_
    refine Leads.step (expect_to hc) ?_
    refine Leads.bind (h s rest n hb fun _ => hr rfl) ?_
    exact Leads.step (acceptAny_none (hr rfl)) (Leads.refl _ _)

/-- A conditional with both branches. -/
theorem follows_ifElse {b o : Bool} {us vs : List Token} {keyword opening closing other : Token} {test : Expr}
    {yes no : Stmt} {k₁ k₂ : Int} (hk : keyword.terminal = .keyword .if_)
    (ho : opening.terminal = .symbol .leftParen) (ht : ReadsExpr (.level .comma test) k ts k₁)
    (hc : closing.terminal = .symbol .rightParen) (h : ClauseFollows (.statement b false yes) k₁ us k₂)
    (he : other.terminal = .keyword .else_) (h' : ClauseFollows (.statement b o no) k₂ vs k') :
    ClauseFollows (.statement b o (.cond test yes (some no))) k
      (keyword :: opening :: ts ++ closing :: us ++ other :: vs) k' := by
  simp only [List.cons_append]
  refine follows_started hk fun s rest n hb hr => ?_
  simp only [List.append_assoc, List.cons_append]
  rw [statement]
  refine Leads.step (acceptAny_to (by simp [statementStarts])) ?_
  cases n with
  | zero => exact Leads.spent
  | succ n =>
    show Leads (conditional (n + 1)) _ _ _
    rw [conditional]
    refine Leads.step (expect_to ho) ?_
    refine Leads.bind (leads_comma ht hc (by decide)) ?_
    refine Leads.step (expect_to hc) ?_
    refine Leads.bind (h s _ n hb (by simp)) ?_
    refine Leads.step (accept_to he) ?_
    exact Leads.bind (h' s rest n hb hr) (Leads.refl _ _)

/-- A `while` loop; its body is read one loop further in. -/
theorem follows_while {b o : Bool} {us : List Token} {keyword opening closing : Token} {test : Expr} {body : Stmt}
    {k₁ : Int} (hk : keyword.terminal = .keyword .while_) (ho : opening.terminal = .symbol .leftParen)
    (ht : ReadsExpr (.level .comma test) k ts k₁) (hc : closing.terminal = .symbol .rightParen)
    (h : ClauseFollows (.statement true o body) k₁ us k') :
    ClauseFollows (.statement b o (.loop test body none)) k (keyword :: opening :: ts ++ closing :: us) k' := by
  simp only [List.cons_append]
  refine follows_started hk fun s rest n _ hr => ?_
  simp only [List.append_assoc, List.cons_append]
  rw [statement]
  refine Leads.step (acceptAny_to (by simp [statementStarts])) ?_
  cases n with
  | zero => exact Leads.spent
  | succ n =>
    show Leads (while_ (n + 1)) _ _ _
    rw [while_]
    refine Leads.step (expect_to ho) ?_
    refine Leads.bind (leads_comma ht hc (by decide)) ?_
    refine Leads.step (expect_to hc) ?_
    exact Leads.bind (leads_body h hr) (Leads.refl _ _)

/-- A `for` loop, as the block and the loop that it stands for. -/
theorem follows_for {b o : Bool} {us vs ws : List Token} {keyword opening semicolon closing : Token}
    {init : Option Stmt} {test step : Option Expr} {body : Stmt} {k₁ k₂ k₃ : Int}
    (hk : keyword.terminal = .keyword .for_) (ho : opening.terminal = .symbol .leftParen)
    (hi : ReadsClause init k ts k₁) (ht : ReadsOpt test k₁ us k₂) (hs : semicolon.terminal = .symbol .semicolon)
    (hp : ReadsOpt step k₂ vs k₃) (hc : closing.terminal = .symbol .rightParen)
    (h : ClauseFollows (.statement true o body) k₃ ws k') :
    ClauseFollows (.statement b o (forLoop init test step body)) k
      (keyword :: opening :: ts ++ us ++ semicolon :: vs ++ closing :: ws) k' := by
  simp only [List.cons_append]
  refine follows_started hk fun s rest n _ hr => ?_
  simp only [List.append_assoc, List.cons_append]
  rw [statement]
  refine Leads.step (acceptAny_to (by simp [statementStarts])) ?_
  cases n with
  | zero => exact Leads.spent
  | succ n =>
    show Leads (for_ (n + 1)) _ _ _
    rw [for_]
    refine Leads.step (expect_to ho) ?_
    refine Leads.bind (leads_forInitializer hi) ?_
    refine Leads.bind (leads_optionalUnless ht hs (by decide)) ?_
    refine Leads.step (expect_to hs) ?_
    refine Leads.bind (leads_optionalUnless hp hc (by decide)) ?_
    refine Leads.step (expect_to hc) ?_
    exact Leads.bind (leads_body h hr) (Leads.refl _ _)

theorem follows_return {b : Bool} {keyword semicolon : Token} {value : Option Expr}
    (hk : keyword.terminal = .keyword .return_) (hv : ReadsOpt value k ts k')
    (hs : semicolon.terminal = .symbol .semicolon) :
    ClauseFollows (.statement b false (.return_ keyword.lexeme value)) k (keyword :: ts ++ [semicolon]) k' := by
  rw [lexeme_eq hk]
  simp only [List.cons_append]
  refine follows_started hk fun s rest n _ _ => ?_
  simp only [List.append_assoc, List.cons_append, List.nil_append]
  rw [statement]
  refine Leads.step (acceptAny_to (by simp [statementStarts])) ?_
  refine Leads.bind (leads_optionalUnless hv hs (by decide)) ?_
  exact Leads.step (expect_to hs) (Leads.refl _ _)

theorem follows_break {keyword semicolon : Token} (hk : keyword.terminal = .keyword .break_)
    (hs : semicolon.terminal = .symbol .semicolon) :
    ClauseFollows (.statement true false (.break_ keyword.lexeme)) k [keyword, semicolon] k := by
  rw [lexeme_eq hk]
  refine follows_started hk fun s rest n hb _ => ?_
  rw [statement]
  exact Leads.step (acceptAny_to (by simp [statementStarts])) (leads_jump (hb rfl) hs)

theorem follows_continue {keyword semicolon : Token} (hk : keyword.terminal = .keyword .continue_)
    (hs : semicolon.terminal = .symbol .semicolon) :
    ClauseFollows (.statement true false (.continue_ keyword.lexeme)) k [keyword, semicolon] k := by
  rw [lexeme_eq hk]
  refine follows_started hk fun s rest n hb _ => ?_
  rw [statement]
  exact Leads.step (acceptAny_to (by simp [statementStarts])) (leads_jump (hb rfl) hs)

/-! ### Declarations -/

theorem follows_statement {b o : Bool} {x : Stmt} (hx : ReadsStmt (.statement b o x) k ts k')
    (h : ClauseFollows (.statement b o x) k ts k') : ClauseFollows (.declaration b x) k ts k' := by
  intro s rest n hb hr
  cases n with
  | zero => exact Leads.spent
  | succ n =>
    have hfirst : Avoids [.keyword .class_, .keyword .fun_, .keyword .var] (ts ++ rest) := by
      obtain ⟨t, us, rfl, ht⟩ := statement_opens hx
      exact avoids_cons.mpr fun hm => ht (List.mem_cons_of_mem _ (List.mem_cons_of_mem _ hm))
    rw [declaration]
    exact Leads.recovering (Leads.step (acceptAny_none hfirst) (h s rest n hb fun _ => hr))

/-- A declaration that starts with a keyword of its own. -/
theorem follows_declared {b : Bool} {x : Stmt} {keyword : Keyword} (ht : t.terminal = .keyword keyword)
    (h : ∀ (s : State) (rest : List Token) (n : Nat),
      Leads (declaration (n + 1)) (s.to (⟨.keyword keyword, t.line⟩ :: ts ++ rest) k) (pure (some x)) (s.to rest k')) :
    ClauseFollows (.declaration b x) k (t :: ts) k' := by
  obtain ⟨_, line⟩ := t
  cases ht
  intro s rest n _ _
  cases n with
  | zero => exact Leads.spent
  | succ n => exact h s rest n

theorem follows_var {b : Bool} {keyword : Token} {x : Stmt} (hk : keyword.terminal = .keyword .var)
    (h : ReadsVar x k ts k') : ClauseFollows (.declaration b x) k (keyword :: ts) k' := by
  refine follows_declared hk fun s rest n => ?_
  rw [declaration]
  exact Leads.recovering (Leads.step (acceptAny_to (by simp)) (leads_variable h))

theorem follows_fun {b : Bool} {keyword : Token} {r : Routine} (hk : keyword.terminal = .keyword .fun_)
    (h : ClauseFollows (.routine r) k ts k') : ClauseFollows (.declaration b (.fun_ r)) k (keyword :: ts) k' := by
  refine follows_declared hk fun s rest n => ?_
  rw [declaration]
  refine Leads.recovering (Leads.step (acceptAny_to (by simp)) ?_)
  exact Leads.bind (h s rest n .function) (Leads.refl _ _)

/-- A class with its superclass and its methods. -/
theorem follows_class {b : Bool} {keyword t opening closing : Token} {us : List Token} {name : String}
    {parent : Option Reference} {rs : List Routine} {k₁ : Int} (hk : keyword.terminal = .keyword .class_)
    (ht : t.terminal = .ident name) (hp : ReadsParent parent k ts k₁) (ho : opening.terminal = .symbol .leftBrace)
    (h : ClauseFollows (.routines rs) k₁ us k') (hc : closing.terminal = .symbol .rightBrace) :
    ClauseFollows (.declaration b (.class_ ⟨name, t.line⟩ parent rs)) k
      (keyword :: t :: ts ++ opening :: us ++ [closing]) k' := by
  simp only [List.cons_append]
  refine follows_declared hk fun s rest n => ?_
  simp only [List.append_assoc, List.cons_append, List.nil_append]
  rw [declaration]
  refine Leads.recovering (Leads.step (acceptAny_to (by simp)) ?_)
  cases n with
  | zero => exact Leads.spent
  | succ n =>
    show Leads (class_ (n + 1)) _ _ _
    rw [class_]
    refine Leads.step (expectName_to ht) ?_
    refine Leads.bind (leads_superclass hp ho) ?_
    refine Leads.step (expect_to ho) ?_
    refine Leads.bind (h s closing rest n hc) ?_
    exact Leads.step (expect_to hc) (Leads.refl _ _)

theorem follows_nil {b : Bool} : ClauseFollows (.declarations b []) k [] k := by
  refine fun s _ => ⟨fun closing rest n hc => ?_, fun n => ?_⟩
  · cases n with
    | zero => exact Leads.spent
    | succ n =>
      have hclose : atClose (s.to (closing :: rest) k) = .ok true (s.to (closing :: rest) k) :=
        atClose_ok.mpr ⟨Or.inl ⟨by simp [State.to, hc], rfl⟩, rfl⟩
      rw [declarations]
      exact Leads.step hclose (Leads.refl _ _)
  · cases n with
    | zero => exact Leads.spent
    | succ n => exact Or.inl rfl

/-- A declaration in front of others. -/
theorem follows_cons {b : Bool} {us : List Token} {x : Stmt} {ss : List Stmt} {k₁ : Int}
    (hx : ReadsStmt (.declaration b x) k ts k₁) (hss : ReadsStmt (.declarations b ss) k₁ us k')
    (h : ClauseFollows (.declaration b x) k ts k₁) (h' : ClauseFollows (.declarations b ss) k₁ us k') :
    ClauseFollows (.declarations b (x :: ss)) k (ts ++ us) k' := by
  obtain ⟨t, vs, rfl, ht⟩ := declaration_opens hx
  refine fun s hb => ⟨fun closing rest n hc => ?_, fun n => ?_⟩
  · cases n with
    | zero => exact Leads.spent
    | succ n =>
      have hopen : atClose (s.to (t :: (vs ++ (us ++ closing :: rest))) k) =
          .ok false (s.to (t :: (vs ++ (us ++ closing :: rest))) k) :=
        atClose_ok.mpr ⟨Or.inr ⟨⟨t, _, rfl, fun h => ht (by simp [h])⟩, rfl⟩, rfl⟩
      have hnext : Avoids [.keyword .else_] (us ++ closing :: rest) :=
        avoids_declarations hss (avoids_cons.mpr (by simp [hc]))
      rw [declarations]
      simp only [List.append_assoc, List.cons_append]
      refine Leads.step hopen ?_
      refine Leads.bind (h s _ n hb hnext) ?_
      exact Leads.bind ((h' s hb).1 closing rest n hc) (Leads.refl _ _)
  · cases n with
    | zero => exact Leads.spent
    | succ n =>
      have hnext : Avoids [.keyword .else_] us := by
        have := avoids_declarations hss avoids_nil
        rwa [List.append_nil] at this
      rw [program]
      refine Leads.step peek_to ?_
      refine Leads.bind (h s us n hb hnext) ?_
      exact Leads.bind ((h' s hb).2 n) (Leads.refl _ _)

/-- A function or a method; its body is outside of all loops. -/
theorem follows_routine {us : List Token} {t opening closing brace closing' : Token} {name : String}
    {params : List Lexeme} {body : List Stmt} (ht : t.terminal = .ident name)
    (ho : opening.terminal = .symbol .leftParen) (hp : ReadsParams params ts)
    (hc : closing.terminal = .symbol .rightParen) (hb : brace.terminal = .symbol .leftBrace)
    (h : ClauseFollows (.declarations false body) k us k') (hc' : closing'.terminal = .symbol .rightBrace) :
    ClauseFollows (.routine ⟨⟨name, t.line⟩, params, body⟩) k
      (t :: opening :: ts ++ closing :: brace :: us ++ [closing']) k' := by
  intro s rest n kind
  cases n with
  | zero => exact Leads.spent
  | succ n =>
    simp only [List.append_assoc, List.cons_append, List.nil_append]
    rw [routine]
    refine Leads.step (expectName_to ht) ?_
    refine Leads.step (expect_to ho) ?_
    refine Leads.bind (leads_parameters hp hc) ?_
    refine Leads.step (expect_to hc) ?_
    refine Leads.step (expect_to hb) ?_
    exact Leads.bind (leads_inRoutine (leads_block h admits_false hc')) (Leads.refl _ _)

theorem follows_noRoutine : ClauseFollows (.routines []) k [] k := by
  intro s closing rest n hc
  cases n with
  | zero => exact Leads.spent
  | succ n =>
    have hclose : atClose (s.to (closing :: rest) k) = .ok true (s.to (closing :: rest) k) :=
      atClose_ok.mpr ⟨Or.inl ⟨by simp [State.to, hc], rfl⟩, rfl⟩
    rw [methods]
    exact Leads.step hclose (Leads.refl _ _)

/-- A method in front of others. -/
theorem follows_moreRoutines {us : List Token} {r : Routine} {rs : List Routine} {k₁ : Int}
    (hr : ReadsStmt (.routine r) k ts k₁) (h : ClauseFollows (.routine r) k ts k₁)
    (h' : ClauseFollows (.routines rs) k₁ us k') : ClauseFollows (.routines (r :: rs)) k (ts ++ us) k' := by
  intro s closing rest n hc
  cases n with
  | zero => exact Leads.spent
  | succ n =>
    have hopen : atClose (s.to (ts ++ (us ++ closing :: rest)) k)
      = .ok false (s.to (ts ++ (us ++ closing :: rest)) k) := by
      cases hr with
      | routine ht _ _ _ _ _ _ => exact atClose_ok.mpr ⟨Or.inr ⟨⟨_, _, rfl, by simp [ht]⟩, rfl⟩, rfl⟩
    rw [methods, List.append_assoc]
    refine Leads.step hopen ?_
    refine Leads.bind (h s _ n .method) ?_
    exact Leads.bind (h' s closing rest n hc) (Leads.refl _ _)

/-- Every statement that is read by the grammar is found by the parser, whatever is behind it. -/
theorem readsStmt_follows {c : Clause} (h : ReadsStmt c k ts k') : ClauseFollows c k ts k' := by
  induction h with
  | effect h => exact follows_effect h
  | print hk he hs => exact follows_print hk he hs
  | block ho _ hc ih => exact follows_block ho ih hc
  | if_ hk ho ht hc _ ih => exact follows_if hk ho ht hc ih
  | ifElse hk ho ht hc _ he _ ih ih' => exact follows_ifElse hk ho ht hc ih he ih'
  | while_ hk ho ht hc _ ih => exact follows_while hk ho ht hc ih
  | for_ hk ho hi ht hs hp hc _ ih => exact follows_for hk ho hi ht hs hp hc ih
  | return_ hk hv hs => exact follows_return hk hv hs
  | break_ hk hs => exact follows_break hk hs
  | continue_ hk hs => exact follows_continue hk hs
  | statement hx ih => exact follows_statement hx ih
  | var hk h => exact follows_var hk h
  | fun_ hk _ ih => exact follows_fun hk ih
  | class_ hk ht hp ho _ hc ih => exact follows_class hk ht hp ho ih hc
  | nil => exact follows_nil
  | cons hx hss ih ih' => exact follows_cons hx hss ih ih'
  | routine ht ho hp hc hb _ hc' ih => exact follows_routine ht ho hp hc hb ih hc'
  | noRoutine => exact follows_noRoutine
  | moreRoutines hr _ ih ih' => exact follows_moreRoutines hr ih ih'

/-! ## Token lists -/

theorem program_start (tokens : Tokens) (k : Int) : ∃ ss s', program (fuel tokens) (start tokens k) = .ok ss s' ∧
    k ≤ s'.nextSlot ∧ parse tokens k = ⟨ss, s'.nextSlot, s'.errors.toList⟩ := by
  have hfuel : 32 * (start tokens k).rest.length + 18 ≤ fuel tokens := by
    simp only [start, fuel, rulesPerToken, Tokens.count]
    omega
  obtain ⟨ss, s', h, hslot⟩ := program_ends hfuel
  exact ⟨ss, s', h, hslot, by rw [parse, h]⟩

/-- Slots are never given back, whatever the errors. -/
theorem parse_nextSlot (tokens : Tokens) (k : Int) : k ≤ (parse tokens k).nextSlot := by
  obtain ⟨ss, s', -, hslot, hparse⟩ := program_start tokens k
  rw [hparse]
  exact hslot

theorem parse_of_reads {tokens : Tokens} {ss : List Stmt} (h : ReadsStmt (.declarations false ss) k tokens.items k') :
    parse tokens k = ⟨ss, k', []⟩ := by
  obtain ⟨ss', s', hp, -, hparse⟩ := program_start tokens k
  rcases (readsStmt_follows h (start tokens k) admits_false).2 (fuel tokens) with h | ⟨s₁, h⟩
  · have hok := hp.symm.trans h
    cases hok
    exact hparse
  · cases hp.symm.trans h

theorem reads_of_parse {tokens : Tokens} (h : (parse tokens k).errors = []) :
    ReadsStmt (.declarations false (parse tokens k).program) k tokens.items (parse tokens k).nextSlot := by
  obtain ⟨ss, s', hp, -, hparse⟩ := program_start tokens k
  rw [hparse] at h ⊢
  obtain ⟨hf, hrest⟩ := sound_program hp
  obtain ⟨-, -, ts, hr, hread⟩ := hf (Array.toList_eq_nil_iff.mp h)
  rw [hrest, List.append_nil] at hr
  subst hr
  exact hread

end Lox.Grammar
