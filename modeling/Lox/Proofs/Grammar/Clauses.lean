/-
  Lox.Proofs.Grammar.Clauses — the rules for statements, declarations and programs,
  tracked by the machine of goals.

  A list of declarations or methods ends where its closing brace stands or the text ends;
  anywhere else one more has to come, and the machine asks for the same. So it does where
  a statement has to be an expression, being none of the others. The induction is on the bound
  on the nesting of rules; what is known of every rule at one bound is `StmtTracks`.
-/

import Lox.Proofs.Grammar.Operands

namespace Lox.Grammar

variable {σ τ : List Goal} {rest : List Token} {n : Nat}

/-! ## Simple statements -/

theorem tracks_comma (σ : List Goal) :
    Tracks (fun _ => True) (.operand :: .commas :: σ) (expression n .comma) (Matches Loose (.level .comma)) σ
      fun _ => True := by
  have h : Tracks (fun _ => True) (.operand :: .commas :: σ) (expression n .comma) (Matches Loose (.level .comma))
      (.tail :: .commas :: σ) (Stops .comma) := (exprTracks n).expression (by decide) σ
  exact (h.into fun _ h => same_behind h).mono (fun _ h => h) (fun _ h => h) fun _ _ => trivial

theorem tracks_optionalUnless {s : Symbol} (hs : Goal.ofOperand (.symbol s) = none) (σ : List Goal) :
    Tracks (fun _ => True) (.optional :: .symbol s :: σ) (optionalUnless n (.symbol s))
      (Matches Loose (.opt (.level .comma))) (.symbol s :: σ) fun _ => True := by
  refine tracks_isNext ?_ ?_
  · exact tracks_pure matches_none (fun _ h => same_left_out hs h.2) fun _ _ => trivial
  · have hsome := ((tracks_comma (n := n) (.symbol s :: σ)).map some).words fun _ => matches_some
    exact hsome.from (fun _ _ => trivial) fun _ h => same_optional h.2

theorem tracks_variable (σ : List Goal) :
    Tracks (fun _ => True) (.name :: .initializer :: .symbol .semicolon :: σ) (variable_ n)
      (Matches Loose (.sequence [.ident, .opt (.sequence [.symbol .equal, .level .comma]), .symbol .semicolon])) σ
      fun _ => True := by
  refine tracks_expectName.seq (by simp) fun name => ?_
  refine tracks_option (fun _ _ _ _ => rfl) (fun equals => ?_) ?_
  · refine (tracks_comma _).seq (by simp) fun init => ?_
    exact tracks_last (tracks_expect.map _)
  · exact tracks_last ((tracks_expect.from (fun _ _ => trivial) fun _ h => same_awaited rfl (ahead_ne h.2)).map _)

theorem tracks_printed (σ : List Goal) :
    Tracks (fun _ => True) (.operand :: .commas :: .symbol .semicolon :: σ) (printed n)
      (Matches Loose (.sequence [.level .comma, .symbol .semicolon])) σ fun _ => True :=
  (tracks_comma _).seq (by simp) fun _ => tracks_last (tracks_expect.map _)

theorem tracks_expressionStatement (σ : List Goal) :
    Tracks (fun _ => True) (.operand :: .commas :: .symbol .semicolon :: σ) (expressionStatement n)
      (Matches Loose (.rule .exprStmt)) σ fun _ => True :=
  tracks_rule ((tracks_comma _).seq (by simp) fun _ => tracks_last (tracks_expect.map _))

theorem tracks_returned {keyword : Token} (σ : List Goal) :
    Tracks (fun _ => True) (.optional :: .symbol .semicolon :: σ) (returned n keyword)
      (Matches Loose (.sequence [.opt (.level .comma), .symbol .semicolon])) σ fun _ => True :=
  (tracks_optionalUnless rfl σ).seq (by simp) fun _ =>
    tracks_last (tracks_expect.map _)

theorem tracks_broken {keyword : Token} (σ : List Goal) :
    Tracks (fun _ => True) (.symbol .semicolon :: σ) (broken keyword) (Matches Loose (.sequence [.symbol .semicolon])) σ
      fun _ => True :=
  (quiet_checkLoop fun _ _ => rfl).bind fun _ => tracks_last (tracks_expect.map _)

theorem tracks_continued {keyword : Token} (σ : List Goal) :
    Tracks (fun _ => True) (.symbol .semicolon :: σ) (continued keyword)
      (Matches Loose (.sequence [.symbol .semicolon]))
      σ fun _ => True :=
  (quiet_checkLoop fun _ _ => rfl).bind fun _ => tracks_last (tracks_expect.map _)

/-! ## Parameters, superclasses and first clauses -/

/-- The names behind the first of a list. -/
def namePart : Ebnf := .many (.sequence [.symbol .comma, .ident])

/-- Each further parameter is a comma and a name. -/
theorem tracks_moreParameters (count : Nat) (σ : List Goal) :
    Tracks (fun _ => True) (.moreParameters :: σ) (moreParameters n count) (Matches Loose namePart) σ
      fun _ => True := by
  induction n generalizing count with
  | zero => exact tracks_outOfFuel
  | succ n ih =>
    rw [moreParameters]
    refine tracks_acceptAny ?_ fun t ht => ?_
    · exact tracks_pure .manyNil (fun _ h => same_awaited rfl (ahead_ne h.2)) fun _ _ => trivial
    · have ht := List.mem_singleton.mp ht
      have hnext : Tracks (fun _ => True) (.name :: .moreParameters :: σ)
          (do
            let next ← expectName .parameter
            return next :: (← moreParameters n (count + 1)))
          (fun us => Matches Loose namePart (t :: us)) σ fun _ => True := by
        have hmore := ih (count + 1)
        refine tracks_expectName.bind ⟨[], .manyNil⟩ (fun next => hmore.map _) fun us vs hu hv => ?_
        exact .manyCons (matches_token (matches_symbol_of ht) (matches_single.mpr hu)) hv
      refine ⟨.name :: .moreParameters :: σ, fun _ _ => by rw [ht]; rfl, ?_⟩
      exact tracks_reportIf (fun _ _ => rfl) hnext

/-- A goal for a name begins one that may be empty, and nothing else is allowed but what comes behind. -/
theorem same_named {g : Goal} {new : List Goal} {s : Symbol} (hb : Begins .name new g)
    (hg : ∀ t, Goal.name.takes t = none → meet (some t) (g :: .symbol s :: σ) = meet (some t) (.symbol s :: σ))
    (hend : meet none (g :: .symbol s :: σ) = none) (h : ahead rest ≠ some (.symbol s)) :
    SameAt rest (g :: .symbol s :: σ) (.name :: (new ++ .symbol s :: σ)) := by
  refine same_begun hb (fun _ => hend) fun t ht hnone => ?_
  rw [hg t hnone]
  exact meet_other fun e => h (by rw [ht, e])

/-- Behind the opening parenthesis there is a parameter or the closing one. -/
theorem tracks_parameters (σ : List Goal) :
    Tracks (fun _ => True) (.parameters :: .symbol .rightParen :: σ) (parameters n)
      (Matches Loose (.opt (.rule .parameters))) (.symbol .rightParen :: σ) fun _ => True := by
  refine tracks_isNext ?_ ?_
  · refine tracks_pure matches_none (fun _ h => same_empty rfl fun t ht => ?_) fun _ _ => trivial
    obtain rfl : .symbol .rightParen = t := Option.some.inj (h.2.symm.trans ht)
    rfl
  · have hlist : Tracks (fun _ => True) (.name :: .moreParameters :: .symbol .rightParen :: σ)
        (do
          let first ← expectName .parameter
          return first :: (← moreParameters n 1))
        (Matches Loose (.sequence [.ident, namePart])) (.symbol .rightParen :: σ) fun _ => True :=
      tracks_expectName.seq (by simp [namePart]) fun _ =>
        tracks_last ((tracks_moreParameters 1 _).map _)
    have hwords := hlist.words fun us hu => matches_some (matches_rule.mpr (loose_of_matches (n := .parameters) hu))
    refine hwords.from (fun _ _ => trivial) fun _ h => same_named begins_parameters (fun t hnone => ?_) rfl h.2
    cases t <;> first | rfl | cases hnone

theorem tracks_superclass (σ : List Goal) :
    Tracks (fun _ => True) (.parent :: σ) superclass (Matches Loose (.opt (.sequence [.symbol .less, .ident]))) σ
      fun _ => True := by
  refine Tracks.words (L := Matches Loose (.sequence [.opt (.sequence [.symbol .less, .ident])])) ?_
    fun _ hu => matches_single.mp hu
  refine tracks_option (fun _ _ _ _ => rfl) (fun less => ?_) ?_
  · refine tracks_expectName.seq (by simp) fun name => ?_
    exact (quiet_newSlot.map _).tracks
  · exact tracks_pure .nil (fun _ h => same_awaited rfl (ahead_ne h.2)) fun _ _ => trivial

theorem refused_firstClause {t : Terminal} (h : Goal.operand.takes t = none) (hsemicolon : t ≠ .symbol .semicolon)
    (hvar : t ≠ .keyword .var) : Goal.firstClause.takes t = none := by
  have h : Goal.ofOperand t = none := h
  cases t with
  | keyword k => cases k <;> first | exact absurd rfl hvar | simp [Goal.takes, h]
  | symbol s => cases s <;> first | exact absurd rfl hsemicolon | simp [Goal.takes, h]
  | _ => cases h

/-- The first clause of a `for` loop is a declaration, an expression or nothing. -/
theorem tracks_forInitializer (σ : List Goal) :
    Tracks (fun _ => True) (.firstClause :: σ) (forInitializer n)
      (Matches Loose (.choice [.rule .varDecl, .rule .exprStmt, .symbol .semicolon])) σ fun _ => True := by
  refine tracks_acceptAny (tracks_acceptAny ?_ fun t ht => ?_) fun t ht => ?_
  · have hmem : .rule .exprStmt ∈ ([.rule .varDecl, .rule .exprStmt, .symbol .semicolon] : List Ebnf) := by simp
    have hexpr := ((tracks_expressionStatement (n := n) σ).map some).words fun _ hu => Matches.choice hmem hu
    refine hexpr.from (fun _ _ => trivial) fun r h => same_begun begins_firstClause (fun _ => rfl) fun t ht hnone => ?_
    have hsemicolon := ahead_ne h.1.2
    have hvar := ahead_ne h.2
    exact meet_refused (refused_firstClause hnone (fun e => hsemicolon (e ▸ ht)) fun e => hvar (e ▸ ht)) rfl
  · have ht := List.mem_singleton.mp ht
    refine ⟨.name :: .initializer :: .symbol .semicolon :: σ, fun _ _ => by rw [ht]; rfl, ?_⟩
    refine ((tracks_variable σ).map some).words fun us hu => .choice (List.mem_cons_self ..) ?_
    exact matches_rule.mpr (loose_of_matches (matches_token (matches_keyword_of ht) hu))
  · have ht := List.mem_singleton.mp ht
    refine ⟨σ, fun _ _ => by rw [ht]; rfl, ?_⟩
    exact tracks_pure (.choice (by simp) (matches_symbol_of ht)) (fun _ _ => SameAt.refl _ _) fun _ _ => trivial

/-! ## Statements and declarations -/

structure StmtTracks (n : Nat) : Prop where
  declaration : ∀ b σ, Tracks (fun _ => True) (.declaration :: σ) (declaration n)
    (Matches Loose (.rule (.declaration b))) σ fun _ => True
  declarations : ∀ b σ, Tracks (fun _ => True) (.declarations :: .symbol .rightBrace :: σ) (declarations n)
    (Matches Loose (.many (.rule (.declaration b)))) (.symbol .rightBrace :: σ) fun _ => True
  block : ∀ b σ, Tracks (fun _ => True) (.declarations :: .symbol .rightBrace :: σ) (block n)
    (Matches Loose (.sequence [.many (.rule (.declaration b)), .symbol .rightBrace])) σ fun _ => True
  routine : ∀ kind σ, Tracks (fun _ => True) (.name :: (Goal.signature ++ σ)) (routine n kind)
    (Matches Loose (.rule .routine)) σ fun _ => True
  class_ : ∀ σ, Tracks (fun _ => True) (.name :: .parent :: .symbol .leftBrace :: .methods :: .symbol .rightBrace :: σ)
    (class_ n) (Matches Loose (.sequence [.ident, .opt (.sequence [.symbol .less, .ident]), .symbol .leftBrace,
      .many (.rule .routine), .symbol .rightBrace])) σ fun _ => True
  methods : ∀ σ, Tracks (fun _ => True) (.methods :: .symbol .rightBrace :: σ) (methods n)
    (Matches Loose (.many (.rule .routine))) (.symbol .rightBrace :: σ) fun _ => True
  statement : ∀ b σ, Tracks (fun _ => True) (.statement :: σ) (statement n)
    (Matches Loose (.rule (.statement b))) σ fun _ => True
  conditional : ∀ b σ, Tracks (fun _ => True)
    (.symbol .leftParen :: .operand :: .commas :: .symbol .rightParen :: .statement :: .else_ :: σ) (conditional n)
    (Matches Loose (.sequence [.symbol .leftParen, .level .comma, .symbol .rightParen, .rule (.statement b),
      .opt (.sequence [.keyword .else_, .rule (.statement b)])])) σ fun _ => True
  while_ : ∀ σ, Tracks (fun _ => True)
    (.symbol .leftParen :: .operand :: .commas :: .symbol .rightParen :: .statement :: σ) (while_ n)
    (Matches Loose (.sequence [.symbol .leftParen, .level .comma, .symbol .rightParen, .rule (.statement true)])) σ
    fun _ => True
  for_ : ∀ σ, Tracks (fun _ => True)
    (.symbol .leftParen :: .firstClause :: .optional :: .symbol .semicolon :: .optional :: .symbol .rightParen ::
      .statement :: σ) (for_ n)
    (Matches Loose (.sequence [.symbol .leftParen, .choice [.rule .varDecl, .rule .exprStmt, .symbol .semicolon],
      .opt (.level .comma), .symbol .semicolon, .opt (.level .comma), .symbol .rightParen, .rule (.statement true)])) σ
    fun _ => True

theorem same_declaration (h : Avoids [.keyword .class_, .keyword .fun_, .keyword .var] rest) :
    SameAt rest (.declaration :: σ) (.statement :: σ) := by
  refine same_begun begins_declaration (fun _ => rfl) fun t ht hnone => ?_
  have hne := avoids_ahead h t ht
  refine meet_refused ?_ rfl
  cases t with
  | keyword k => cases k <;> first | exact hnone | simp at hne
  | _ => exact hnone

theorem same_statement (h : Avoids statementStarts rest) :
    SameAt rest (.statement :: σ) (.operand :: .commas :: .symbol .semicolon :: σ) := by
  refine same_begun begins_statement (fun _ => rfl) fun t ht hnone => ?_
  have hne := avoids_ahead h t ht
  have hnone : Goal.ofOperand t = none := hnone
  refine meet_refused ?_ rfl
  cases t with
  | keyword k => cases k <;> first | (simp [statementStarts] at hne; done) | simp [Goal.takes, Goal.ofStatement, hnone]
  | symbol s => cases s <;> first | (simp [statementStarts] at hne; done) | simp [Goal.takes, Goal.ofStatement, hnone]
  | _ => cases hnone

/-- A declaration is told by its first word; anything else is a statement. -/
theorem tracks_declaration (ih : StmtTracks n) (b : Bool) (σ : List Goal) :
    Tracks (fun _ => True) (.declaration :: σ) (declaration (n + 1)) (Matches Loose (.rule (.declaration b))) σ
      fun _ => True := by
  rw [declaration]
  refine Tracks.recovering (tracks_rule (tracks_acceptAny ?_ fun t ht => ?_))
  · have hmem : .rule (.statement b) ∈
        ([.rule .classDecl, .rule .funDecl, .rule .varDecl, .rule (.statement b)] : List Ebnf) := by simp
    have hstmt := (ih.statement b σ).words fun us hu => Matches.choice hmem hu
    exact hstmt.from (fun _ _ => trivial) fun _ h => same_declaration h.2
  · obtain ⟨terminal, line⟩ := t
    simp only [List.mem_cons, List.not_mem_nil, or_false] at ht
    rcases ht with rfl | rfl | rfl
    · refine ⟨.name :: .parent :: .symbol .leftBrace :: .methods :: .symbol .rightBrace :: σ, fun _ _ => rfl, ?_⟩
      refine (ih.class_ σ).words fun us hu => .choice (List.mem_cons_self ..) ?_
      exact matches_rule.mpr (loose_of_matches (matches_token (.keyword _ line) hu))
    · refine ⟨.name :: (Goal.signature ++ σ), fun _ _ => rfl, ?_⟩
      refine ((ih.routine .function σ).map _).words fun us hu => .choice (e := .rule .funDecl) (by simp) ?_
      exact matches_rule.mpr (loose_of_matches (matches_token (.keyword _ line) (matches_single.mpr hu)))
    · refine ⟨.name :: .initializer :: .symbol .semicolon :: σ, fun _ _ => rfl, ?_⟩
      refine (tracks_variable σ).words fun us hu => .choice (e := .rule .varDecl) (by simp) ?_
      exact matches_rule.mpr (loose_of_matches (matches_token (.keyword _ line) hu))

/-- A declaration, and then those that follow it. -/
theorem tracks_listed {p : Parse (List Stmt)} {b : Bool} {Q : List Token → Prop} (ih : StmtTracks n)
    (h : Tracks (fun _ => True) σ p (Matches Loose (.many (.rule (.declaration b)))) τ Q) :
    Tracks (fun _ => True) (.declaration :: σ)
      (do
        match ← declaration n with
        | some stmt => return stmt :: (← p)
        | none => p)
      (Matches Loose (.many (.rule (.declaration b)))) τ Q := by
  refine (ih.declaration b σ).bind ⟨[], .manyNil⟩ (fun r => ?_) fun us vs hu hv => .manyCons hu hv
  cases r with
  | some stmt => exact h.map _
  | none => exact h

/-- Declarations go on until the closing brace. -/
theorem tracks_declarations (ih : StmtTracks n) (b : Bool) (σ : List Goal) :
    Tracks (fun _ => True) (.declarations :: .symbol .rightBrace :: σ) (declarations (n + 1))
      (Matches Loose (.many (.rule (.declaration b)))) (.symbol .rightBrace :: σ) fun _ => True := by
  rw [declarations]
  refine tracks_atClose ?_ ?_
  · refine tracks_pure .manyNil (fun _ h => same_empty rfl fun t ht => ?_) fun _ _ => trivial
    rw [h.2 t ht]
    rfl
  · refine (tracks_listed ih (ih.declarations b σ)).from (fun _ _ => trivial) fun r h => ?_
    obtain ⟨t, ht, hne⟩ := h.2
    refine same_begun begins_declarations (fun _ => rfl) fun u hu hnone => ?_
    obtain rfl : t = u := Option.some.inj (ht.symm.trans hu)
    have hnone : Goal.ofDeclaration t = none := hnone
    rw [meet_skips (by simp [Goal.takes, hnone]) rfl]
    exact meet_other hne

theorem tracks_block (ih : StmtTracks n) (b : Bool) (σ : List Goal) :
    Tracks (fun _ => True) (.declarations :: .symbol .rightBrace :: σ) (block (n + 1))
      (Matches Loose (.sequence [.many (.rule (.declaration b)), .symbol .rightBrace])) σ fun _ => True := by
  rw [block]
  refine (ih.declarations b σ).seq (by simp) fun body => ?_
  exact tracks_last (tracks_expect.map _)

theorem tracks_routine (ih : StmtTracks n) (kind : RoutineKind) (σ : List Goal) :
    Tracks (fun _ => True) (.name :: (Goal.signature ++ σ)) (routine (n + 1) kind) (Matches Loose (.rule .routine)) σ
      fun _ => True := by
  rw [routine]
  refine tracks_rule ?_
  refine tracks_expectName.seq (by simp) fun name => ?_
  refine tracks_expect.seq (by simp) fun _ => ?_
  refine (tracks_parameters _).seq (by simp) fun params => ?_
  refine tracks_expect.seq (by simp) fun _ => ?_
  refine Tracks.words (L := Matches Loose (.sequence [.symbol .leftBrace, .many (.rule (.declaration false)),
    .symbol .rightBrace])) ?_ fun us hu => matches_single.mpr (matches_rule.mpr (loose_of_matches hu))
  refine tracks_expect.seq (by simp) fun _ => ?_
  exact (ih.block false σ).loops.map _

theorem tracks_class (ih : StmtTracks n) (σ : List Goal) :
    Tracks (fun _ => True) (.name :: .parent :: .symbol .leftBrace :: .methods :: .symbol .rightBrace :: σ)
      (class_ (n + 1))
      (Matches Loose (.sequence [.ident, .opt (.sequence [.symbol .less, .ident]), .symbol .leftBrace,
        .many (.rule .routine), .symbol .rightBrace])) σ fun _ => True := by
  rw [class_]
  refine tracks_expectName.seq (by simp) fun name => ?_
  refine (tracks_superclass _).seq (by simp) fun parent => ?_
  refine tracks_expect.seq (by simp) fun _ => ?_
  refine (ih.methods σ).seq (by simp) fun members => ?_
  exact tracks_last (tracks_expect.map _)

/-- Methods go on until the closing brace. -/
theorem tracks_methods (ih : StmtTracks n) (σ : List Goal) :
    Tracks (fun _ => True) (.methods :: .symbol .rightBrace :: σ) (methods (n + 1))
      (Matches Loose (.many (.rule .routine)))
      (.symbol .rightBrace :: σ) fun _ => True := by
  rw [methods]
  refine tracks_atClose ?_ ?_
  · refine tracks_pure .manyNil (fun _ h => same_empty rfl fun t ht => ?_) fun _ _ => trivial
    rw [h.2 t ht]
    rfl
  · have hfirst := (ih.routine .method (.methods :: .symbol .rightBrace :: σ)).bind ⟨[], .manyNil⟩
      (fun first => (ih.methods σ).map (first :: ·)) fun us vs hu hv => Matches.manyCons hu hv
    refine hfirst.from (fun _ _ => trivial) fun r h => ?_
    obtain ⟨t, ht, hne⟩ := h.2
    refine same_named begins_methods (fun t hnone => ?_) rfl fun e => hne (Option.some.inj (ht.symm.trans e))
    cases t <;> first | rfl | cases hnone

theorem tracks_conditional (ih : StmtTracks n) (b : Bool) (σ : List Goal) :
    Tracks (fun _ => True)
      (.symbol .leftParen :: .operand :: .commas :: .symbol .rightParen :: .statement :: .else_ :: σ)
        (conditional (n + 1))
      (Matches Loose (.sequence [.symbol .leftParen, .level .comma, .symbol .rightParen, .rule (.statement b),
        .opt (.sequence [.keyword .else_, .rule (.statement b)])])) σ fun _ => True := by
  rw [conditional]
  refine tracks_expect.seq (by simp) fun _ => ?_
  refine (tracks_comma _).seq (by simp) fun test => ?_
  refine tracks_expect.seq (by simp) fun _ => ?_
  refine (ih.statement b (.else_ :: σ)).seq (by simp) fun yes => ?_
  refine tracks_option (fun _ _ _ _ => rfl) (fun _ => tracks_last ((ih.statement b σ).map _)) ?_
  exact tracks_pure .nil (fun _ h => same_awaited rfl (ahead_ne h.2)) fun _ _ => trivial

theorem tracks_while (ih : StmtTracks n) (σ : List Goal) :
    Tracks (fun _ => True)
      (.symbol .leftParen :: .operand :: .commas :: .symbol .rightParen :: .statement :: σ) (while_ (n + 1))
      (Matches Loose (.sequence [.symbol .leftParen, .level .comma, .symbol .rightParen, .rule (.statement true)])) σ
      fun _ => True := by
  rw [while_]
  refine tracks_expect.seq (by simp) fun _ => ?_
  refine (tracks_comma _).seq (by simp) fun test => ?_
  refine tracks_expect.seq (by simp) fun _ => ?_
  exact tracks_last ((ih.statement true σ).loops.map _)

/-- The three clauses of a `for` loop, and its body. -/
theorem tracks_for (ih : StmtTracks n) (σ : List Goal) :
    Tracks (fun _ => True)
      (.symbol .leftParen :: .firstClause :: .optional :: .symbol .semicolon :: .optional :: .symbol .rightParen ::
        .statement :: σ) (for_ (n + 1))
      (Matches Loose (.sequence [.symbol .leftParen, .choice [.rule .varDecl, .rule .exprStmt, .symbol .semicolon],
        .opt (.level .comma), .symbol .semicolon, .opt (.level .comma), .symbol .rightParen,
          .rule (.statement true)])) σ
      fun _ => True := by
  rw [for_]
  refine tracks_expect.seq (by simp) fun _ => ?_
  refine (tracks_forInitializer _).seq (by simp) fun init => ?_
  refine (tracks_optionalUnless rfl _).seq (by simp) fun test => ?_
  refine tracks_expect.seq (by simp) fun _ => ?_
  refine (tracks_optionalUnless rfl _).seq (by simp) fun step => ?_
  refine tracks_expect.seq (by simp) fun _ => ?_
  exact tracks_last ((ih.statement true σ).loops.map _)

/-- What a statement may be. -/
def alternatives : List Nonterminal :=
  [.exprStmt, .forStmt, .ifStmt true, .printStmt, .returnStmt, .whileStmt, .block true, .breakStmt, .continueStmt]

theorem loose_statement {b : Bool} {m : Nonterminal} {ts : List Token} (h : Loose m ts) (hm : m ∈ alternatives) :
    Matches Loose (.rule (.statement b)) ts := by
  refine matches_rule.mpr (loose_of_matches (.choice (e := .rule m) ?_ (matches_rule.mpr h)))
  simpa [alternatives] using hm

/-- A statement that its first token tells apart. -/
theorem tracks_told {p : Parse Stmt} {es : List Ebnf} {t : Token} {e : Ebnf} {b : Bool} (m : Nonterminal)
    (h : Tracks (fun _ => True) τ p (Matches Loose (.sequence es)) σ fun _ => True) (ht : Matches Loose e [t])
    (hm : looseProduction m = .sequence (e :: es)) (ha : m ∈ alternatives) :
    Tracks (fun _ => True) τ p (fun us => Matches Loose (.rule (.statement b)) (t :: us)) σ fun _ => True :=
  h.words fun _ hu => loose_statement (loose_of_matches (hm ▸ matches_token ht hu)) ha

/-- A statement is told by its first word; anything else is an expression. -/
theorem tracks_statement (ih : StmtTracks n) (b : Bool) (σ : List Goal) :
    Tracks (fun _ => True) (.statement :: σ) (statement (n + 1)) (Matches Loose (.rule (.statement b))) σ
      fun _ => True := by
  rw [statement]
  refine tracks_acceptAny ?_ fun t ht => ?_
  · have hexpr := (tracks_expressionStatement (n := n) σ).words fun us hu =>
      loose_statement (b := b) (matches_rule.mp hu) (by decide)
    exact hexpr.from (fun _ _ => trivial) fun _ h => same_statement h.2
  · obtain ⟨terminal, line⟩ := t
    simp only [statementStarts, List.mem_cons, List.not_mem_nil, or_false] at ht
    rcases ht with rfl | rfl | rfl | rfl | rfl | rfl | rfl | rfl
    · exact ⟨_, fun _ _ => rfl, tracks_told .printStmt (tracks_printed σ) (.keyword _ line) rfl (by decide)⟩
    · exact ⟨_, fun _ _ => rfl, tracks_told (.block true) ((ih.block true σ).map _) (.symbol _ line) rfl (by decide)⟩
    · exact ⟨_, fun _ _ => rfl, tracks_told (.ifStmt true) (ih.conditional true σ) (.keyword _ line) rfl (by decide)⟩
    · exact ⟨_, fun _ _ => rfl, tracks_told .whileStmt (ih.while_ σ) (.keyword _ line) rfl (by decide)⟩
    · exact ⟨_, fun _ _ => rfl, tracks_told .forStmt (ih.for_ σ) (.keyword _ line) rfl (by decide)⟩
    · exact ⟨_, fun _ _ => rfl, tracks_told .returnStmt (tracks_returned σ) (.keyword _ line) rfl (by decide)⟩
    · exact ⟨_, fun _ _ => rfl, tracks_told .breakStmt (tracks_broken σ) (.keyword _ line) rfl (by decide)⟩
    · exact ⟨_, fun _ _ => rfl, tracks_told .continueStmt (tracks_continued σ) (.keyword _ line) rfl (by decide)⟩

theorem stmtTracks (n : Nat) : StmtTracks n := by
  induction n with
  | zero =>
    exact ⟨fun _ _ => tracks_outOfFuel, fun _ _ => tracks_outOfFuel, fun _ _ => tracks_outOfFuel,
      fun _ _ => tracks_outOfFuel, fun _ => tracks_outOfFuel, fun _ => tracks_outOfFuel, fun _ _ => tracks_outOfFuel,
      fun _ _ => tracks_outOfFuel, fun _ => tracks_outOfFuel, fun _ => tracks_outOfFuel⟩
  | succ n ih =>
    exact ⟨tracks_declaration ih, tracks_declarations ih, tracks_block ih, tracks_routine ih, tracks_class ih,
      tracks_methods ih, tracks_statement ih, tracks_conditional ih, tracks_while ih, tracks_for ih⟩

/-! ## Programs -/

/-- A whole program, up to the end of the tokens. -/
theorem tracks_program (n : Nat) (b : Bool) :
    Tracks (fun _ => True) [.declarations] (program n) (Matches Loose (.many (.rule (.declaration b)))) [.declarations]
      fun r => r = [] := by
  induction n with
  | zero => exact tracks_outOfFuel
  | succ n ih =>
    rw [program]
    refine tracks_peek fun o => ?_
    cases o with
    | none => exact tracks_pure .manyNil (fun _ _ => SameAt.refl _ _) fun _ h => List.head?_eq_none_iff.mp h.2
    | some t =>
      refine (tracks_listed (stmtTracks n) ih).from (fun _ _ => trivial) fun r h => ?_
      refine same_begun begins_declarations (fun hend => ?_) fun u hu hnone => ?_
      · rw [ahead, h.2] at hend
        cases hend
      · have hnone : Goal.ofDeclaration u = none := hnone
        rw [meet_skips (by simp [Goal.takes, hnone]) rfl]
        rfl

end Lox.Grammar
