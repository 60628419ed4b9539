/-
  Lox.Proofs.Grammar.Statements — a program that is read without an error is a reading of
  its tokens.

  What a rule finds says whether a loop is around it (`State.inLoop`), for a `break` or
  `continue` outside of one is an error. A statement that ends in an `if` without an
  `else` is not followed by an `else`: the rule would have taken it.
-/

import Lox.Proofs.Grammar.Sound

namespace Lox.Grammar

def State.inLoop (s : State) : Bool := s.loops != 0

/-! ## Simple statements -/

variable {n : Nat} {s s' : State}

theorem Finds.expression {l : Level} {e : Expr} (h : expression n l s = .ok e s') :
    Finds (ReadsExpr (.level l e)) s s' := by
  intro he
  obtain ⟨he₀, hl, ts, hr, hread, -⟩ := (exprSound n).expression h he
  exact ⟨he₀, hl, ts, hr, hread⟩

theorem finds_optionalUnless {terminal : Terminal} {e : Option Expr}
    (h : optionalUnless n terminal s = .ok e s') : Finds (ReadsOpt e) s s' := by
  simp only [optionalUnless, ifNext, bind_ok, isNext_ok] at h
  obtain ⟨b, s₁, ⟨hb, rfl⟩, h⟩ := h
  rcases hb with ⟨-, -, -, -, rfl⟩ | ⟨-, rfl⟩
  · obtain ⟨rfl, rfl⟩ := pure_ok.mp h
    intro he
    exact ⟨he, rfl, [], rfl, rfl, rfl⟩
  · simp only [Bool.false_eq_true, if_false, bind_ok, pure_ok] at h
    obtain ⟨e, s₂, h, rfl, rfl⟩ := h
    exact Finds.expression h

/-- A variable is found with its initializer, if it has one. -/
theorem finds_variable {x : Stmt} (h : variable_ n s = .ok x s') : Finds (ReadsVar x) s s' := by
  simp only [variable_, bind_ok, expectName_ok, acceptSymbol, accept_ok] at h
  obtain ⟨⟨name, line⟩, s₁, ⟨t, rest, hr, ht, hl, rfl⟩, r, s₂, ha, h⟩ := h
  simp only at ht hl
  subst hl
  intro he
  rcases ha with ⟨equals, us, hu, hq, rfl, rfl⟩ | ⟨-, rfl, rfl⟩
  · simp only [bind_ok, expect_ok, pure_ok] at h
    obtain ⟨e, s₅, h₁, _, _, ⟨rfl, rfl⟩, semicolon, s₄, ⟨rest', hr', hs, rfl⟩, rfl, rfl⟩ := h
    obtain ⟨he₁, hl₁, ts, hr₁, hread⟩ := Finds.expression h₁ he
    simp only at hr₁ hu
    refine ⟨he₁, hl₁, t :: equals :: ts ++ [semicolon], ?_, .intro ht (.some hq hread) hs⟩
    rw [hr, hu, hr₁, hr']
    simp
  · simp only [bind_ok, expect_ok, pure_ok] at h
    obtain ⟨_, _, ⟨rfl, rfl⟩, semicolon, s₄, ⟨rest', hr', hs, rfl⟩, rfl, rfl⟩ := h
    simp only at hr'
    exact ⟨he, rfl, [t, semicolon], by rw [hr, hr']; rfl, .intro ht .none hs⟩

theorem finds_effect {x : Stmt} (h : expressionStatement n s = .ok x s') : Finds (ReadsEffect x) s s' := by
  simp only [expressionStatement, bind_ok, expect_ok, pure_ok] at h
  obtain ⟨e, s₁, h₁, semicolon, s₂, ⟨rest, hr, hs, rfl⟩, rfl, rfl⟩ := h
  intro he
  obtain ⟨he₁, hl₁, ts, hr₁, hread⟩ := Finds.expression h₁ he
  exact ⟨he₁, hl₁, ts ++ [semicolon], by rw [hr₁, hr]; simp, .intro hread hs⟩

/-- What a rule finds behind the keyword of a statement. -/
def Behind (keyword : Keyword) (b o : Bool) (x : Stmt) (k : Int) (ts : List Token) (k' : Int) : Prop :=
  ∀ t : Token, t.terminal = .keyword keyword → ReadsStmt (.statement b o x) k (t :: ts) k'

theorem finds_printed {b : Bool} {x : Stmt} (h : printed n s = .ok x s') : Finds (Behind .print b false x) s s' := by
  simp only [printed, bind_ok, expect_ok, pure_ok] at h
  obtain ⟨e, s₁, h₁, semicolon, s₂, ⟨rest, hr, hs, rfl⟩, rfl, rfl⟩ := h
  intro he
  obtain ⟨he₁, hl₁, ts, hr₁, hread⟩ := Finds.expression h₁ he
  exact ⟨he₁, hl₁, ts ++ [semicolon], by rw [hr₁, hr]; simp, fun t ht => .print ht hread hs⟩

theorem finds_returned {b : Bool} {x : Stmt} {keyword : Token} (hk : keyword.terminal = .keyword .return_)
    (h : returned n keyword s = .ok x s') :
    Finds (fun k ts k' => ReadsStmt (.statement b false x) k (keyword :: ts) k') s s' := by
  simp only [returned, bind_ok, expect_ok, pure_ok] at h
  obtain ⟨e, s₁, h₁, semicolon, s₂, ⟨rest, hr, hs, rfl⟩, rfl, rfl⟩ := h
  intro he
  obtain ⟨he₁, hl₁, ts, hr₁, hread⟩ := finds_optionalUnless h₁ he
  exact ⟨he₁, hl₁, ts ++ [semicolon], by rw [hr₁, hr]; simp, .return_ hk hread hs⟩

/-- A jump is read without an error only in a loop. -/
theorem finds_jump {f : SyntaxFault} {role : SymbolRole} {keyword : Token} {x y : Stmt}
    (h : (do checkLoop keyword f; let _ ← expect .semicolon role; return y : Parse Stmt) s = .ok x s')
    (hy : ∀ (k : Int) (semicolon : Token), semicolon.terminal = .symbol .semicolon →
      ReadsStmt (.statement true false y) k [keyword, semicolon] k) :
    Finds (fun k ts k' => ReadsStmt (.statement s.inLoop false x) k (keyword :: ts) k') s s' := by
  simp only [bind_ok, checkLoop_ok, expect_ok, pure_ok] at h
  obtain ⟨_, s₁, rfl, semicolon, s₂, ⟨rest, hr, hs, rfl⟩, rfl, rfl⟩ := h
  intro he
  by_cases hl : s.loops = 0
  · rw [if_pos hl] at he
    exact absurd he not_reported
  · rw [if_neg hl] at he hr ⊢
    have hin : s.inLoop = true := by simpa [State.inLoop] using hl
    rw [hin]
    exact ⟨he, rfl, [semicolon], hr, hy _ semicolon hs⟩

/-! ## Parts of declarations -/

theorem finds_moreParameters {count : Nat} {names : List Lexeme}
    (h : moreParameters n count s = .ok names s') :
    Finds (fun k ts k' => k' = k ∧ ∀ (t : Token) (name : String), t.terminal = .ident name → count ≤ mostArguments →
      ReadsNames (⟨name, t.line⟩ :: names) (t :: ts) ∧ count + names.length ≤ mostArguments) s s' := by
  induction n generalizing count names s with
  | zero => exact absurd h throw_ne_ok
  | succ n ih =>
    simp only [moreParameters, bind_ok, acceptSymbol, accept_ok] at h
    obtain ⟨r, s₁, ha, h⟩ := h
    intro he
    rcases ha with ⟨comma, rest, hr, hc, rfl, rfl⟩ | ⟨-, rfl, rfl⟩
    · by_cases hcount : mostArguments ≤ count
      · simp only [if_pos hcount, bind_ok, report_ok, expectName_ok, pure_ok] at h
        obtain ⟨_, _, rfl, next, s₂, ⟨_, _, _, _, _, rfl⟩, others, s₃, h₂, -, rfl⟩ := h
        exact absurd (ih h₂ he).1 not_reported
      · simp only [if_neg hcount, bind_ok, expectName_ok, pure_ok] at h
        obtain ⟨⟨name', line⟩, s₂, ⟨u, rest', hr', hu, hl, rfl⟩, others, s₃, h₂, rfl, rfl⟩ := h
        simp only at hu hl hr'
        subst hl
        obtain ⟨he₂, hl₂, vs, hr₂, hk, hg⟩ := ih h₂ he
        obtain ⟨hnames, hlen⟩ := hg u name' hu (by omega)
        simp only at hr₂
        refine ⟨he₂, hl₂, comma :: u :: vs, by rw [hr, hr', hr₂]; rfl, hk, fun t name ht _ => ⟨?_, ?_⟩⟩
        · exact .more ht hc hnames
        · rw [List.length_cons]
          omega
    · obtain ⟨rfl, rfl⟩ := pure_ok.mp h
      exact ⟨he, rfl, [], rfl, rfl, fun t name ht hcount => ⟨.last ht, by simpa using hcount⟩⟩

/-- Parameters are found up to the closing parenthesis. -/
theorem finds_parameters {names : List Lexeme} (h : parameters n s = .ok names s') :
    Finds (fun k ts k' => k' = k ∧ ReadsParams names ts) s s' := by
  simp only [parameters, ifNext, bind_ok, isNext_ok] at h
  obtain ⟨b, s₁, ⟨hb, rfl⟩, h⟩ := h
  intro he
  rcases hb with ⟨-, -, -, -, rfl⟩ | ⟨-, rfl⟩
  · obtain ⟨rfl, rfl⟩ := pure_ok.mp h
    exact ⟨he, rfl, [], rfl, rfl, Or.inl ⟨rfl, rfl⟩⟩
  · simp only [Bool.false_eq_true, if_false, bind_ok, expectName_ok, pure_ok] at h
    obtain ⟨⟨name, line⟩, s₂, ⟨t, rest, hr, ht, hl, rfl⟩, others, s₃, h, rfl, rfl⟩ := h
    simp only at ht hl
    subst hl
    obtain ⟨he₁, hl₁, ts, hr₁, hk, hg⟩ := finds_moreParameters h he
    obtain ⟨hnames, hlen⟩ := hg t name ht (by decide)
    refine ⟨he₁, hl₁, t :: ts, by rw [hr]; simpa using hr₁, hk, Or.inr ⟨hnames, ?_⟩⟩
    rw [List.length_cons]
    omega

theorem finds_superclass {parent : Option Reference} (h : superclass s = .ok parent s') :
    Finds (ReadsParent parent) s s' := by
  simp only [superclass, bind_ok, acceptSymbol, accept_ok] at h
  obtain ⟨r, s₁, ha, h⟩ := h
  intro he
  rcases ha with ⟨less, rest, hr, hl, rfl, rfl⟩ | ⟨-, rfl, rfl⟩
  · simp only [bind_ok, expectName_ok, newSlot_ok, pure_ok] at h
    obtain ⟨⟨name, line⟩, s₂, ⟨t, rest', hr', ht, hline, rfl⟩, k, s₃, ⟨rfl, rfl⟩, rfl, rfl⟩ := h
    simp only at ht hline hr'
    subst hline
    exact ⟨he, rfl, [less, t], by rw [hr, hr']; rfl, .some hl ht⟩
  · obtain ⟨rfl, rfl⟩ := pure_ok.mp h
    exact ⟨he, rfl, [], rfl, .none⟩

/-- The first clause of a `for` loop is found up to its semicolon. -/
theorem finds_forInitializer {init : Option Stmt} (h : forInitializer n s = .ok init s') :
    Finds (ReadsClause init) s s' := by
  simp only [forInitializer, bind_ok, acceptSymbol, acceptKeyword, accept_ok] at h
  obtain ⟨r, s₁, ha, h⟩ := h
  rcases ha with ⟨semicolon, rest, hr, hs, rfl, rfl⟩ | ⟨-, rfl, rfl⟩
  · obtain ⟨rfl, rfl⟩ := pure_ok.mp h
    intro he
    exact ⟨he, rfl, [semicolon], hr, .none hs⟩
  · simp only [bind_ok, accept_ok] at h
    obtain ⟨r, s₁, ha, h⟩ := h
    rcases ha with ⟨keyword, rest, hr, hk, rfl, rfl⟩ | ⟨-, rfl, rfl⟩
    · simp only [bind_ok, pure_ok] at h
      obtain ⟨x, s₂, h, rfl, rfl⟩ := h
      intro he
      obtain ⟨he₁, hl₁, ts, hr₁, hvar⟩ := finds_variable h he
      exact ⟨he₁, hl₁, keyword :: ts, by rw [hr]; simpa using hr₁, .var hk hvar⟩
    · simp only [bind_ok, pure_ok] at h
      obtain ⟨x, s₂, h, rfl, rfl⟩ := h
      intro he
      obtain ⟨he₁, hl₁, ts, hr₁, heff⟩ := finds_effect h he
      exact ⟨he₁, hl₁, ts, hr₁, .effect heff⟩

/-! ## Statements and declarations -/

/-- What a rule finds behind the keyword of a declaration. -/
def BehindDecl (keyword : Keyword) (b : Bool) (x : Stmt) (k : Int) (ts : List Token) (k' : Int) : Prop :=
  ∀ t : Token, t.terminal = .keyword keyword → ReadsStmt (.declaration b x) k (t :: ts) k'

/-- What a rule finds of a statement: no `else` follows one that could take it. -/
def FindsStmt (p : Bool → Int → List Token → Int → Prop) (s s' : State) : Prop :=
  Finds (fun k ts k' => ∃ o, p o k ts k' ∧ (o = true → Avoids [.keyword .else_] s'.rest)) s s'

structure StmtSound (n : Nat) : Prop where
  declaration : ∀ {r s s'}, declaration n s = .ok r s' → s'.errors = #[] →
    ∃ x, r = some x ∧ Finds (ReadsStmt (.declaration s.inLoop x)) s s'
  declarations : ∀ {ss s s'}, declarations n s = .ok ss s' →
    Finds (ReadsStmt (.declarations s.inLoop ss)) s s'
  block : ∀ {ss s s'}, block n s = .ok ss s' →
    Finds (fun k ts k' => ∃ us closing, ts = us ++ [closing] ∧ closing.terminal = .symbol .rightBrace ∧
      ReadsStmt (.declarations s.inLoop ss) k us k') s s'
  routine : ∀ {kind r s s'}, routine n kind s = .ok r s' → Finds (ReadsStmt (.routine r)) s s'
  class_ : ∀ {b x s s'}, class_ n s = .ok x s' → Finds (BehindDecl .class_ b x) s s'
  methods : ∀ {rs s s'}, methods n s = .ok rs s' → Finds (ReadsStmt (.routines rs)) s s'
  statement : ∀ {x s s'}, statement n s = .ok x s' →
    FindsStmt (fun o => ReadsStmt (.statement s.inLoop o x)) s s'
  conditional : ∀ {x s s'}, conditional n s = .ok x s' → FindsStmt (fun o => Behind .if_ s.inLoop o x) s s'
  while_ : ∀ {b x s s'}, while_ n s = .ok x s' → FindsStmt (fun o => Behind .while_ b o x) s s'
  for_ : ∀ {b x s s'}, for_ n s = .ok x s' → FindsStmt (fun o => Behind .for_ b o x) s s'

/-- A declaration without an error is one of the grammar. -/
theorem sound_declaration (ih : StmtSound n) {r : Option Stmt} (h : declaration (n + 1) s = .ok r s')
    (he : s'.errors = #[]) : ∃ x, r = some x ∧ Finds (ReadsStmt (.declaration s.inLoop x)) s s' := by
  rw [declaration, recovering_ok] at h
  rcases h with ⟨x, h, rfl⟩ | ⟨error, s₁, -, -, rfl⟩
  · refine ⟨x, rfl, ?_⟩
    simp only [bind_ok, acceptAny_ok] at h
    obtain ⟨r, s₁, ha, h⟩ := h
    rcases ha with ⟨t, rest, hr, ht, rfl, rfl⟩ | ⟨-, rfl, rfl⟩
    · intro _
      obtain ⟨terminal, line⟩ := t
      simp only [List.mem_cons, List.not_mem_nil, or_false] at ht
      rcases ht with rfl | rfl | rfl
      · obtain ⟨he₁, hl₁, ts, hr₁, hg⟩ := ih.class_ h he
        exact ⟨he₁, hl₁, ⟨_, line⟩ :: ts, by rw [hr]; exact congrArg _ hr₁, hg _ rfl⟩
      · simp only [bind_ok, pure_ok] at h
        obtain ⟨f, s₂, h, rfl, rfl⟩ := h
        obtain ⟨he₁, hl₁, ts, hr₁, hg⟩ := ih.routine h he
        exact ⟨he₁, hl₁, ⟨_, line⟩ :: ts, by rw [hr]; exact congrArg _ hr₁, .fun_ rfl hg⟩
      · obtain ⟨he₁, hl₁, ts, hr₁, hg⟩ := finds_variable h he
        exact ⟨he₁, hl₁, ⟨_, line⟩ :: ts, by rw [hr]; exact congrArg _ hr₁, .var rfl hg⟩
    · intro _
      obtain ⟨he₁, hl₁, ts, hr₁, o, hg, -⟩ := ih.statement h he
      exact ⟨he₁, hl₁, ts, hr₁, .statement hg⟩
  · exact absurd he not_reported

theorem inLoop_eq (h : s'.loops = s.loops) : s'.inLoop = s.inLoop := by rw [State.inLoop, State.inLoop, h]

/-- A declaration in front of other things that are found. -/
theorem finds_before {r : Option Stmt} {s₁ : State} {p : Int → List Token → Int → Prop}
    (ih : StmtSound n) (h₁ : declaration n s = .ok r s₁) (hp : Finds p s₁ s') (he : s'.errors = #[]) :
    ∃ x, r = some x ∧ s.errors = #[] ∧ s₁.loops = s.loops ∧ s'.loops = s.loops ∧ ∃ ts us, s.rest = ts ++ us ++ s'.rest ∧
      ReadsStmt (.declaration s.inLoop x) s.nextSlot ts s₁.nextSlot ∧ p s₁.nextSlot us s'.nextSlot := by
  obtain ⟨he₁, hl₁, us, hr₁, hg⟩ := hp he
  obtain ⟨x, rfl, hf⟩ := ih.declaration h₁ he₁
  obtain ⟨he₀, hl₀, ts, hr₀, hx⟩ := hf he₁
  exact ⟨x, rfl, he₀, hl₀, hl₁.trans hl₀, ts, us, by rw [hr₀, hr₁, List.append_assoc], hx, hg⟩

/-- Declarations are found up to the closing brace. -/
theorem sound_declarations (ih : StmtSound n) {ss : List Stmt} (h : declarations (n + 1) s = .ok ss s') :
    Finds (ReadsStmt (.declarations s.inLoop ss)) s s' := by
  simp only [declarations, bind_ok, atClose_ok] at h
  obtain ⟨b, s₁, ⟨hb, rfl⟩, h⟩ := h
  intro he
  rcases hb with ⟨-, rfl⟩ | ⟨-, rfl⟩
  · obtain ⟨rfl, rfl⟩ := pure_ok.mp h
    exact ⟨he, rfl, [], rfl, .nil⟩
  · simp only [Bool.false_eq_true, if_false, bind_ok] at h
    obtain ⟨r, s₂, h₁, h⟩ := h
    cases r with
    | some x =>
      simp only [bind_ok, pure_ok] at h
      obtain ⟨others, s₃, h₂, rfl, rfl⟩ := h
      obtain ⟨_, ⟨⟩, he₀, hl, hl', ts, us, hr, hx, hg⟩ := finds_before ih h₁ (ih.declarations h₂) he
      rw [inLoop_eq hl] at hg
      exact ⟨he₀, hl', ts ++ us, hr, .cons hx hg⟩
    | none =>
      obtain ⟨_, ⟨⟩, -⟩ := finds_before ih h₁ (ih.declarations h) he

theorem sound_block (ih : StmtSound n) {ss : List Stmt} (h : block (n + 1) s = .ok ss s') :
    Finds (fun k ts k' => ∃ us closing, ts = us ++ [closing] ∧ closing.terminal = .symbol .rightBrace ∧
      ReadsStmt (.declarations s.inLoop ss) k us k') s s' := by
  simp only [block, bind_ok, expect_ok, pure_ok] at h
  obtain ⟨body, s₁, h₁, closing, s₂, ⟨rest, hr, hc, rfl⟩, rfl, rfl⟩ := h
  intro he
  obtain ⟨he₁, hl₁, ts, hr₁, hg⟩ := ih.declarations h₁ he
  exact ⟨he₁, hl₁, ts ++ [closing], by rw [hr₁, hr]; simp, ts, closing, rfl, hc, hg⟩

/-- The body of a function or a method is outside of all loops. -/
theorem sound_routine (ih : StmtSound n) {kind : RoutineKind} {r : Routine}
    (h : routine (n + 1) kind s = .ok r s') : Finds (ReadsStmt (.routine r)) s s' := by
  simp only [routine, bind_ok, expectName_ok, expect_ok, inRoutine, withLoops_ok, pure_ok] at h
  obtain ⟨⟨name, line⟩, s₁, ⟨t, rest₁, hr₁, ht, hline, rfl⟩, opening, s₂, ⟨rest₂, hr₂, ho, rfl⟩, params, s₃, hp,
    closing, s₄, ⟨rest₄, hr₄, hc, rfl⟩, brace, s₅, ⟨rest₅, hr₅, hb, rfl⟩, body, s₆, ⟨s₇, h₇, rfl⟩, rfl, rfl⟩ := h
  simp only at ht hline hr₂ hr₅
  subst hline
  intro he
  obtain ⟨he₇, hl₇, vs, hr₇, us, closing', rfl, hc', hbody⟩ := ih.block h₇ he
  obtain ⟨he₃, hl₃, ts, hr₃, hk, hparams⟩ := finds_parameters hp he₇
  simp only at hr₇ hr₃
  refine ⟨he₃, hl₃, t :: opening :: ts ++ closing :: brace :: us ++ [closing'], ?_, ?_⟩
  · rw [hr₁, hr₂, hr₃, hr₄, hr₅, hr₇]
    simp
  · rw [show s.nextSlot = s₃.nextSlot from hk.symm]
    exact .routine ht ho hparams hc hb hbody hc'

/-- A class is found with its superclass and its methods. -/
theorem sound_class (ih : StmtSound n) {b : Bool} {x : Stmt} (h : class_ (n + 1) s = .ok x s') :
    Finds (BehindDecl .class_ b x) s s' := by
  simp only [class_, bind_ok, expectName_ok, expect_ok, pure_ok] at h
  obtain ⟨⟨name, line⟩, s₁, ⟨t, rest₁, hr₁, ht, hline, rfl⟩, parent, s₂, hp, opening, s₃, ⟨rest₃, hr₃, ho, rfl⟩,
    rs, s₄, h₄, closing, s₅, ⟨rest₅, hr₅, hc, rfl⟩, rfl, rfl⟩ := h
  simp only at ht hline
  subst hline
  intro he
  obtain ⟨he₄, hl₄, us, hr₄, hrs⟩ := ih.methods h₄ he
  obtain ⟨he₂, hl₂, ts, hr₂, hparent⟩ := finds_superclass hp he₄
  simp only at hr₂ hr₄
  refine ⟨he₂, hl₄.trans hl₂, t :: ts ++ opening :: us ++ [closing], ?_, fun keyword hk => ?_⟩
  · rw [hr₁, hr₂, hr₃, hr₄, hr₅]
    simp
  · exact .class_ hk ht hparent ho hrs hc

theorem sound_methods (ih : StmtSound n) {rs : List Routine} (h : methods (n + 1) s = .ok rs s') :
    Finds (ReadsStmt (.routines rs)) s s' := by
  simp only [methods, bind_ok, atClose_ok] at h
  obtain ⟨b, s₁, ⟨hb, rfl⟩, h⟩ := h
  intro he
  rcases hb with ⟨-, rfl⟩ | ⟨-, rfl⟩
  · obtain ⟨rfl, rfl⟩ := pure_ok.mp h
    exact ⟨he, rfl, [], rfl, .noRoutine⟩
  · simp only [Bool.false_eq_true, if_false, bind_ok, pure_ok] at h
    obtain ⟨first, s₂, h₁, others, s₃, h₂, rfl, rfl⟩ := h
    obtain ⟨he₂, hl₂, us, hr₂, hothers⟩ := ih.methods h₂ he
    obtain ⟨he₁, hl₁, ts, hr₁, hfirst⟩ := ih.routine h₁ he₂
    exact ⟨he₁, hl₂.trans hl₁, ts ++ us, by rw [hr₁, hr₂, List.append_assoc], .moreRoutines hfirst hothers⟩

/-! ### Statements -/

/-- An `else` is taken by the conditional that meets it first. -/
theorem sound_conditional (ih : StmtSound n) {x : Stmt} (h : conditional (n + 1) s = .ok x s') :
    FindsStmt (fun o => Behind .if_ s.inLoop o x) s s' := by
  simp only [conditional, bind_ok, expect_ok, acceptKeyword, accept_ok] at h
  obtain ⟨opening, s₁, ⟨rest₁, hr₁, ho, rfl⟩, test, s₂, h₂, closing, s₃, ⟨rest₃, hr₃, hc, rfl⟩, yes, s₄, h₄,
    r, s₅, ha, h⟩ := h
  intro he
  rcases ha with ⟨other, rest, hr, ht, rfl, rfl⟩ | ⟨ha, rfl, rfl⟩
  · simp only [bind_ok, pure_ok] at h
    obtain ⟨no, s₆, h₆, rfl, rfl⟩ := h
    obtain ⟨he₆, hl₆, vs, hr₆, o, hno, hfree⟩ := ih.statement h₆ he
    obtain ⟨he₄, hl₄, us, hr₄, o', hyes, hopen⟩ := ih.statement h₄ he₆
    obtain ⟨he₂, hl₂, ts, hr₂, htest⟩ := Finds.expression h₂ he₄
    -- an open `if` in front of this `else` would have taken it
    have hclosed : o' = false := by
      cases o'
      · rfl
      · have := hopen rfl
        rw [hr, avoids_cons, ht] at this
        exact absurd (List.mem_singleton.mpr rfl) this
    subst hclosed
    simp only at hr₂ hr₄ hr₆
    have hin₄ : State.inLoop { s₂ with rest := rest₃ } = s.inLoop := inLoop_eq hl₂
    have hin₆ : State.inLoop { s₄ with rest } = s.inLoop := inLoop_eq (hl₄.trans hl₂)
    rw [hin₄] at hyes
    rw [hin₆] at hno
    refine ⟨he₂, (hl₆.trans hl₄).trans hl₂, opening :: ts ++ closing :: us ++ other :: vs, ?_, o,
      fun t hk => ?_, hfree⟩
    · rw [hr₁, hr₂, hr₃, hr₄, hr, hr₆]
      simp
    · exact .ifElse hk ho htest hc hyes ht hno
  · obtain ⟨rfl, rfl⟩ := pure_ok.mp h
    obtain ⟨he₄, hl₄, us, hr₄, o', hyes, -⟩ := ih.statement h₄ he
    obtain ⟨he₂, hl₂, ts, hr₂, htest⟩ := Finds.expression h₂ he₄
    simp only at hr₂ hr₄
    have hin₄ : State.inLoop { s₂ with rest := rest₃ } = s.inLoop := inLoop_eq hl₂
    rw [hin₄] at hyes
    refine ⟨he₂, hl₄.trans hl₂, opening :: ts ++ closing :: us, ?_, true, fun t hk => ?_, fun _ => ha⟩
    · rw [hr₁, hr₂, hr₃, hr₄]
      simp
    · exact .if_ hk ho htest hc hyes

/-- The body of a loop is in a loop, whatever is around the loop. -/
theorem finds_body (ih : StmtSound n) {body : Stmt} (h : inLoop (statement n) s = .ok body s') :
    FindsStmt (fun o => ReadsStmt (.statement true o body)) s s' := by
  rw [inLoop, withLoops_ok] at h
  obtain ⟨s₁, h, rfl⟩ := h
  intro he
  obtain ⟨he₁, hl₁, ts, hr₁, o, hg, hfree⟩ := ih.statement h he
  refine ⟨he₁, ?_, ts, hr₁, o, hg, hfree⟩
  rw [hl₁]
  exact Nat.add_sub_cancel _ 1

theorem sound_while (ih : StmtSound n) {b : Bool} {x : Stmt} (h : while_ (n + 1) s = .ok x s') :
    FindsStmt (fun o => Behind .while_ b o x) s s' := by
  simp only [while_, bind_ok, expect_ok, pure_ok] at h
  obtain ⟨opening, s₁, ⟨rest₁, hr₁, ho, rfl⟩, test, s₂, h₂, closing, s₃, ⟨rest₃, hr₃, hc, rfl⟩, body, s₄, h₄,
    rfl, rfl⟩ := h
  intro he
  obtain ⟨he₄, hl₄, us, hr₄, o, hbody, hfree⟩ := finds_body ih h₄ he
  obtain ⟨he₂, hl₂, ts, hr₂, htest⟩ := Finds.expression h₂ he₄
  simp only at hr₂ hr₄
  refine ⟨he₂, hl₄.trans hl₂, opening :: ts ++ closing :: us, ?_, o, fun t hk => ?_, hfree⟩
  · rw [hr₁, hr₂, hr₃, hr₄]
    simp
  · exact .while_ hk ho htest hc hbody

/-- A `for` loop is found as the loop that it stands for. -/
theorem sound_for (ih : StmtSound n) {b : Bool} {x : Stmt} (h : for_ (n + 1) s = .ok x s') :
    FindsStmt (fun o => Behind .for_ b o x) s s' := by
  simp only [for_, bind_ok, expect_ok, pure_ok] at h
  obtain ⟨opening, s₁, ⟨rest₁, hr₁, ho, rfl⟩, init, s₂, h₂, test, s₃, h₃, semicolon, s₄, ⟨rest₄, hr₄, hs, rfl⟩,
    step, s₅, h₅, closing, s₆, ⟨rest₆, hr₆, hc, rfl⟩, body, s₇, h₇, rfl, rfl⟩ := h
  intro he
  obtain ⟨he₇, hl₇, ws, hr₇, o, hbody, hfree⟩ := finds_body ih h₇ he
  obtain ⟨he₅, hl₅, vs, hr₅, hstep⟩ := finds_optionalUnless h₅ he₇
  obtain ⟨he₃, hl₃, us, hr₃, htest⟩ := finds_optionalUnless h₃ he₅
  obtain ⟨he₂, hl₂, ts, hr₂, hinit⟩ := finds_forInitializer h₂ he₃
  simp only at hr₂ hr₅ hr₇
  refine ⟨he₂, ((hl₇.trans hl₅).trans hl₃).trans hl₂,
    opening :: ts ++ us ++ semicolon :: vs ++ closing :: ws, ?_, o, fun t hk => ?_, hfree⟩
  · rw [hr₁, hr₂, hr₃, hr₄, hr₅, hr₆, hr₇]
    simp
  · exact .for_ hk ho hinit htest hs hstep hc hbody

/-- A statement that ends in no open `if`, behind its first token. -/
theorem findsStmt_closed {t : Token} {rest : List Token} {x : Stmt} {b : Bool} (hr : s.rest = t :: rest)
    (h : Finds (fun k ts k' => ReadsStmt (.statement b false x) k (t :: ts) k') { s with rest } s') :
    FindsStmt (fun o => ReadsStmt (.statement b o x)) s s' := by
  intro he
  obtain ⟨he₁, hl₁, ts, hr₁, hg⟩ := h he
  exact ⟨he₁, hl₁, t :: ts, by rw [hr]; exact congrArg _ hr₁, false, hg, fun h => nomatch h⟩

theorem findsStmt_behind {keyword : Keyword} {t : Token} {rest : List Token} {x : Stmt} {b : Bool}
    (hr : s.rest = t :: rest) (ht : t.terminal = .keyword keyword)
    (h : FindsStmt (fun o => Behind keyword b o x) { s with rest } s') :
    FindsStmt (fun o => ReadsStmt (.statement b o x)) s s' := by
  intro he
  obtain ⟨he₁, hl₁, ts, hr₁, o, hg, hfree⟩ := h he
  exact ⟨he₁, hl₁, t :: ts, by rw [hr]; exact congrArg _ hr₁, o, hg t ht, hfree⟩

/-- A statement is found by its first word. -/
theorem sound_statement (ih : StmtSound n) {x : Stmt} (h : statement (n + 1) s = .ok x s') :
    FindsStmt (fun o => ReadsStmt (.statement s.inLoop o x)) s s' := by
  simp only [statement, bind_ok, acceptAny_ok] at h
  obtain ⟨r, s₁, ha, h⟩ := h
  rcases ha with ⟨t, rest, hr, ht, rfl, rfl⟩ | ⟨-, rfl, rfl⟩
  · simp only [statementStarts, List.mem_cons, List.not_mem_nil, or_false] at ht
    rcases ht with ht | ht | ht | ht | ht | ht | ht | ht
    all_goals simp only [ht] at h
    · refine findsStmt_closed hr fun he => ?_
      obtain ⟨he₁, hl₁, ts, hr₁, hg⟩ := finds_printed (b := s.inLoop) h he
      exact ⟨he₁, hl₁, ts, hr₁, hg t ht⟩
    · refine findsStmt_closed hr fun he => ?_
      simp only [bind_ok, pure_ok] at h
      obtain ⟨body, s₂, h, rfl, rfl⟩ := h
      obtain ⟨he₁, hl₁, ts, hr₁, us, closing, rfl, hc, hg⟩ := ih.block h he
      exact ⟨he₁, hl₁, us ++ [closing], hr₁, .block ht hg hc⟩
    · exact findsStmt_behind hr ht (ih.conditional h)
    · exact findsStmt_behind hr ht (ih.while_ h)
    · exact findsStmt_behind hr ht (ih.for_ h)
    · exact findsStmt_closed hr (finds_returned ht h)
    · exact findsStmt_closed hr (finds_jump h fun k semicolon hs => .break_ ht hs)
    · exact findsStmt_closed hr (finds_jump h fun k semicolon hs => .continue_ ht hs)
  · intro he
    obtain ⟨he₁, hl₁, ts, hr₁, hg⟩ := finds_effect h he
    exact ⟨he₁, hl₁, ts, hr₁, false, .effect hg, fun h => nomatch h⟩

theorem stmtSound (n : Nat) : StmtSound n := by
  induction n with
  | zero =>
    refine ⟨fun h => ?_, fun h => ?_, fun h => ?_, fun h => ?_, fun h => ?_, fun h => ?_, fun h => ?_, fun h => ?_,
      fun h => ?_, fun h => ?_⟩
    all_goals exact absurd h throw_ne_ok
  | succ n ih =>
    exact ⟨sound_declaration ih, sound_declarations ih, sound_block ih, sound_routine ih, sound_class ih,
      sound_methods ih, sound_statement ih, sound_conditional ih, sound_while ih, sound_for ih⟩

/-! ## Programs -/

/-- A program is found up to the end of the tokens. -/
theorem sound_program {ss : List Stmt} (h : program n s = .ok ss s') :
    Finds (ReadsStmt (.declarations s.inLoop ss)) s s' ∧ s'.rest = [] := by
  induction n generalizing s ss with
  | zero => exact absurd h throw_ne_ok
  | succ n ih =>
    rw [program, peek_bind] at h
    cases hr : s.rest with
    | nil =>
      rw [hr] at h
      obtain ⟨rfl, rfl⟩ := pure_ok.mp h
      exact ⟨fun he => ⟨he, rfl, [], rfl, .nil⟩, hr⟩
    | cons t rest =>
      rw [hr] at h
      simp only [List.head?_cons, bind_ok] at h
      obtain ⟨r, s₁, h₁, h⟩ := h
      cases r with
      | some x =>
        simp only [bind_ok, pure_ok] at h
        obtain ⟨others, s₂, h₂, rfl, rfl⟩ := h
        obtain ⟨hf, hrest⟩ := ih h₂
        refine ⟨fun he => ?_, hrest⟩
        obtain ⟨_, ⟨⟩, he₀, hl, hl', ts, us, hr, hx, hg⟩ := finds_before (stmtSound n) h₁ hf he
        rw [inLoop_eq hl] at hg
        exact ⟨he₀, hl', ts ++ us, hr, .cons hx hg⟩
      | none =>
        obtain ⟨hf, hrest⟩ := ih h
        refine ⟨fun he => ?_, hrest⟩
        obtain ⟨_, ⟨⟩, -⟩ := finds_before (stmtSound n) h₁ hf he

end Lox.Grammar
