/-
  Lox.Proofs.Grammar.Derivable — the tokens of a reading can be derived in the grammar.

  `Derives` is a fixed point of the productions (`derives_iff`), so what a production
  gives for the parts of a phrase can be taken apart again and prolonged at its end:
  readings group to the left where the productions list operands.
-/

import Lox.Proofs.Grammar.Productions
import Lox.Proofs.Grammar.Reading

namespace Lox.Grammar

theorem derives_iff {n : Nonterminal} {ts : List Token} : Derives n ts ↔ Matches Derives (production n) ts := by
  refine ⟨fun h => ?_, derives_of_matches⟩
  refine h.induct (L := fun n ts => Matches Derives (production n) ts) fun n ts hm => ?_
  exact hm.mono fun n ts => derives_of_matches

section Parts

variable {L : Languages} {ts us : List Token} {t : Token} {e : Ebnf} {es : List Ebnf}

/-- A part of one token in front of the others. -/
theorem matches_token (h : Matches L e [t]) (hs : Matches L (.sequence es) ts) :
    Matches L (.sequence (e :: es)) (t :: ts) :=
  .cons h hs

theorem matches_single : Matches L (.sequence [e]) ts ↔ Matches L e ts := by simp

/-- The last part is left out. -/
theorem matches_short {f : Ebnf} (h : Matches L e ts) (hf : Matches L f []) : Matches L (.sequence [e, f]) ts := by
  have := Matches.cons h (matches_single.mpr hf)
  rwa [List.append_nil] at this

theorem matches_keyword_of {k : Keyword} (h : t.terminal = .keyword k) : Matches L (.keyword k) [t] :=
  matches_keyword.mpr ⟨t, rfl, h⟩

theorem matches_symbol_of {s : Symbol} (h : t.terminal = .symbol s) : Matches L (.symbol s) [t] :=
  matches_symbol.mpr ⟨t, rfl, h⟩

theorem matches_ident_of {name : String} (h : t.terminal = .ident name) : Matches L .ident [t] :=
  matches_ident.mpr ⟨t, name, rfl, h⟩

theorem matches_some (h : Matches L e ts) : Matches L (.opt e) ts := matches_opt.mpr (Or.inr h)

theorem matches_none : Matches L (.opt e) [] := matches_opt.mpr (Or.inl rfl)

theorem matches_snoc (h : Matches L (.many e) ts) (h' : Matches L e us) : Matches L (.many e) (ts ++ us) := by
  obtain ⟨words, hw, rfl⟩ := matches_many.mp h
  refine matches_many.mpr ⟨words ++ [us], fun w hm => ?_, by simp⟩
  rcases List.mem_append.mp hm with hm | hm
  · exact hw w hm
  · exact List.mem_singleton.mp hm ▸ h'

/-- Operands joined by operators are an operand and any number of operators, each with an
operand. -/
theorem matches_joined {operand : Level} {operators : List Ebnf} :
    Matches L (.joined operand operators) ts ↔ ∃ us words, L (.level operand) us ∧
      (∀ w ∈ words, ∃ vs ws, (∃ o ∈ operators, Matches L o vs) ∧ L (.level operand) ws ∧ w = vs ++ ws) ∧
      ts = us ++ List.flatten words := by
  simp only [Ebnf.joined, matches_cons, matches_nil, matches_level, matches_many, matches_choice]
  constructor
  · rintro ⟨us, vs, hu, ⟨ws, xs, ⟨words, hw, rfl⟩, rfl, rfl⟩, rfl⟩
    refine ⟨us, words, hu, fun w hm => ?_, by simp⟩
    obtain ⟨vs, ws, hop, ⟨xs, ys, hx, rfl, rfl⟩, rfl⟩ := hw w hm
    exact ⟨vs, xs, hop, hx, by simp⟩
  · rintro ⟨us, words, hu, hw, rfl⟩
    refine ⟨us, words.flatten, hu, ⟨words.flatten, [], ⟨words, fun w hm => ?_, rfl⟩, rfl, by simp⟩, rfl⟩
    obtain ⟨vs, ws, hop, hx, rfl⟩ := hw w hm
    exact ⟨vs, ws, hop, ⟨ws, [], hx, rfl, by simp⟩, rfl⟩

/-- The part of a production that stands for one terminal; a literal stands for all of its kind. -/
def Ebnf.ofTerminal : Terminal → Ebnf
  | .keyword k => .keyword k
  | .symbol s => .symbol s
  | .ident _ => .ident
  | .number _ => .number
  | .string _ => .string

/-- An operator of a level is a token by itself. -/
theorem matches_operator {l : Level} {terminal : Terminal} (h : terminal ∈ l.operators) :
    Matches L (.ofTerminal terminal) ts ↔ ∃ op : Token, ts = [op] ∧ op.terminal = terminal := by
  have hkind : (∃ k, terminal = .keyword k) ∨ ∃ s, terminal = .symbol s := by
    revert h
    cases l <;> simp only [Level.operators, List.mem_cons, List.not_mem_nil, or_false, false_imp_iff] <;>
      rintro (rfl | rfl | rfl | rfl) <;> simp
  constructor
  · rcases hkind with ⟨k, rfl⟩ | ⟨s, rfl⟩
    · rintro ⟨⟩; exact ⟨_, rfl, rfl⟩
    · rintro ⟨⟩; exact ⟨_, rfl, rfl⟩
  · rintro ⟨op, rfl, ho⟩
    rcases hkind with ⟨k, rfl⟩ | ⟨s, rfl⟩
    · exact matches_keyword_of ho
    · exact matches_symbol_of ho

theorem production_chain {l : Level} (hl : l.operators ≠ []) :
    production (.level l) = .joined l.tighter (l.operators.map .ofTerminal) := by
  cases l <;> first | rfl | exact absurd rfl hl

/-- The operands of a chain, with an operator in front of every one but the first. -/
theorem matches_chain {l : Level} (hl : l.operators ≠ []) :
    Matches L (production (.level l)) ts ↔ ∃ us words, L (.level l.tighter) us ∧
      (∀ w ∈ words, ∃ op vs, w = op :: vs ∧ op.terminal ∈ l.operators ∧ L (.level l.tighter) vs) ∧
      ts = us ++ List.flatten words := by
  have hword (w : List Token) :
      (∃ vs ws, (∃ o ∈ l.operators.map Ebnf.ofTerminal, Matches L o vs) ∧ L (.level l.tighter) ws ∧ w = vs ++ ws) ↔
      ∃ op vs, w = op :: vs ∧ op.terminal ∈ l.operators ∧ L (.level l.tighter) vs := by
    constructor
    · rintro ⟨vs, ws, ⟨o, ho, hm⟩, hw, rfl⟩
      obtain ⟨terminal, ht, rfl⟩ := List.mem_map.mp ho
      obtain ⟨op, rfl, rfl⟩ := (matches_operator ht).mp hm
      exact ⟨op, ws, rfl, ht, hw⟩
    · rintro ⟨op, vs, rfl, ho, hv⟩
      exact ⟨[op], vs, ⟨_, List.mem_map_of_mem ho, (matches_operator ho).mpr ⟨op, rfl, rfl⟩⟩, hv, rfl⟩
  rw [production_chain hl, matches_joined]
  simp only [hword]

end Parts

theorem matches_derived {n : Nonterminal} {ts : List Token} (h : Derives n ts) : Matches Derives (.rule n) ts :=
  matches_rule.mpr h

/-! ## Expressions -/

/-- The suffix of a phrase of the tightest level. -/
def suffixPart : Ebnf :=
  .choice [.sequence [.symbol .leftParen, .opt (.rule .arguments), .symbol .rightParen],
    .sequence [.symbol .dot, .ident]]

/-- A list of so many entries at most. -/
def entries (n : Nat) (entry : Ebnf) : Ebnf :=
  .sequence [entry, .upTo n (.sequence [.symbol .comma, entry])]

/-- What a phrase is derived from; a list of arguments may be one of any greater length. -/
def PhraseDerives : Phrase → List Token → Prop
  | .level l _, ts => Derives (.level l) ts
  | .primary _, ts => Derives .primary ts
  | .arguments es, ts => ∀ n, es.length ≤ n + 1 → Matches Derives (entries n (.level .assignment)) ts

variable {ts us vs : List Token} {t : Token}

theorem derives_primary {e : Ebnf} (h : Matches Derives e ts)
    (he : e ∈ ([.keyword .true_, .keyword .false_, .keyword .nil, .number, .string, .ident,
      .sequence [.symbol .leftParen, .level .comma, .symbol .rightParen], .keyword .this,
      .sequence [.keyword .super, .symbol .dot, .ident]] : List Ebnf)) : Derives .primary ts :=
  derives_of_matches (.choice he h)

theorem derives_suffix (h : Derives (.level .call) ts) (hs : Matches Derives suffixPart us) :
    Derives (.level .call) (ts ++ us) := by
  obtain ⟨vs, ws, hp, hm, rfl⟩ := matches_cons.mp (derives_iff.mp h)
  rw [List.append_assoc]
  exact derives_of_matches (.cons hp (matches_single.mpr (matches_snoc (matches_single.mp hm) hs)))

theorem derives_call {opening closing : Token} (h : Derives (.level .call) ts)
    (ho : opening.terminal = .symbol .leftParen) (hs : Matches Derives (.opt (.rule .arguments)) us)
    (hc : closing.terminal = .symbol .rightParen) : Derives (.level .call) (ts ++ opening :: us ++ [closing]) := by
  rw [List.append_assoc]
  refine derives_suffix h (.choice (List.mem_cons_self ..) (matches_token (matches_symbol_of ho) ?_))
  exact .cons hs (matches_single.mpr (matches_symbol_of hc))

theorem derives_chain {l : Level} {op : Token} (h : Derives (.level l) ts) (ho : op.terminal ∈ l.operators)
    (h' : Derives (.level l.tighter) us) : Derives (.level l) (ts ++ op :: us) := by
  have hl : l.operators ≠ [] := List.ne_nil_of_mem ho
  obtain ⟨vs, words, hv, hw, rfl⟩ := (matches_chain hl).mp (derives_iff.mp h)
  refine derives_of_matches ((matches_chain hl).mpr ⟨vs, words ++ [op :: us], hv, fun w hm => ?_, by simp⟩)
  rcases List.mem_append.mp hm with hm | hm
  · exact hw w hm
  · exact ⟨op, us, List.mem_singleton.mp hm, ho, h'⟩

theorem derives_operand {l : Level} (hl : l ≠ .call) (h : Derives (.level l.tighter) ts) : Derives (.level l) ts := by
  by_cases ho : l.operators = []
  · refine derives_of_matches ?_
    cases l with
    | assignment | unary => exact .choice (List.mem_cons_of_mem _ (List.mem_cons_self ..)) (matches_level.mpr h)
    | ternary => exact matches_short (matches_level.mpr h) matches_none
    | call => exact absurd rfl hl
    | _ => cases ho
  · exact derives_of_matches ((matches_chain ho).mpr ⟨ts, [], h, by simp, by simp⟩)

theorem derives_assigned {target equals : Token} {name : String} (ht : target.terminal = .ident name)
    (hp : Matches Derives (.opt (.sequence [.level .call, .symbol .dot])) ts) (hq : equals.terminal = .symbol .equal)
    (h : Derives (.level .assignment) us) : Derives (.level .assignment) (ts ++ target :: equals :: us) := by
  refine derives_of_matches (.choice (List.mem_cons_self ..) (.cons hp ?_))
  refine matches_token (matches_ident_of ht) (matches_token (matches_symbol_of hq) ?_)
  exact matches_single.mpr (matches_level.mpr h)

/-- What is read as an expression is derived by the grammar. -/
theorem readsExpr_derives {p : Phrase} {k k' : Int} (h : ReadsExpr p k ts k') : PhraseDerives p ts := by
  induction h with
  | true_ ht | false_ ht | nil ht | this ht => exact derives_primary (matches_keyword_of ht) (by simp)
  | number ht => exact derives_primary (matches_number.mpr ⟨_, _, rfl, ht⟩) (by simp)
  | string ht => exact derives_primary (matches_string.mpr ⟨_, _, rfl, ht⟩) (by simp)
  | ref ht => exact derives_primary (matches_ident_of ht) (by simp)
  | super ht hd hm =>
    have hname := matches_token (matches_symbol_of hd) (matches_single.mpr (matches_ident_of (L := Derives) hm))
    exact derives_primary (matches_token (matches_keyword_of ht) hname) (by simp)
  | group ho _ hc ih =>
    have hinner := Matches.cons (matches_level (L := Derives).mpr ih) (matches_single.mpr (matches_symbol_of hc))
    exact derives_primary (matches_token (matches_symbol_of ho) hinner) (by simp)
  | atom _ ih => exact derives_of_matches (matches_short (matches_rule.mpr ih) .manyNil)
  | get _ hd hp ih =>
    refine derives_suffix ih (.choice (List.mem_cons_of_mem _ (List.mem_cons_self ..)) ?_)
    exact matches_token (matches_symbol_of hd) (matches_single.mpr (matches_ident_of hp))
  | callEmpty _ ho hc ih =>
    have := derives_call ih ho matches_none hc
    rwa [List.append_assoc] at this
  | call _ ho _ hl hc ih ih' =>
    exact derives_call ih ho (matches_some (matches_rule.mpr (derives_of_matches (ih' 254 hl)))) hc
  | unary ho _ ih =>
    refine derives_of_matches (.choice (List.mem_cons_self ..) ?_)
    refine matches_token ?_ (matches_single.mpr (matches_level.mpr ih))
    simp only [unaryOperators, List.mem_cons, List.not_mem_nil, or_false] at ho
    rcases ho with ho | ho
    · exact .choice (List.mem_cons_self ..) (matches_symbol_of ho)
    · exact .choice (List.mem_cons_of_mem _ (List.mem_cons_self ..)) (matches_symbol_of ho)
  | chain _ ho _ _ ih ih' => exact derives_chain ih ho ih'
  | ternary _ hq _ hc _ ih₁ ih₂ ih₃ =>
    rw [List.append_assoc]
    refine derives_of_matches (.cons (matches_level.mpr ih₁) (matches_single.mpr (matches_some ?_)))
    refine matches_token (matches_symbol_of hq) (.cons (matches_level.mpr ih₂) ?_)
    exact matches_token (matches_symbol_of hc) (matches_single.mpr (matches_level.mpr ih₃))
  | assign ht hq _ ih => exact derives_assigned ht matches_none hq ih
  | set _ hd hp hq _ ih ih' =>
    have := matches_some (.cons (matches_level.mpr ih) (matches_single.mpr (matches_symbol_of (L := Derives) hd)))
    have := derives_assigned hp this hq ih'
    rwa [List.append_assoc] at this
  | operand hl _ ih => exact derives_operand hl ih
  | last _ ih =>
    intro n _
    exact matches_short (matches_level.mpr ih) .upToNil
  | more _ hc hes ih ih' =>
    intro n hl
    cases n with
    | zero =>
      rw [List.length_cons] at hl
      cases hes with
      | last => simp at hl
      | more => simp at hl
    | succ n =>
      obtain ⟨vs, ws, hv, hw, rfl⟩ := matches_cons.mp (ih' n (by simpa using hl))
      refine .cons (matches_level.mpr ih) (matches_single.mpr ?_)
      exact .upToCons (matches_token (matches_symbol_of hc) (matches_single.mpr hv)) (matches_single.mp hw)

/-! ## Statements -/

theorem matches_expr {l : Level} {e : Expr} {k k' : Int} (h : ReadsExpr (.level l e) k ts k') :
    Matches Derives (.level l) ts :=
  matches_level.mpr (readsExpr_derives h)

/-- What the parts of a program are derived from. -/
def ClauseDerives : Clause → List Token → Prop
  | .statement b _ _, ts => Derives (.statement b) ts
  | .declaration b _, ts => Derives (.declaration b) ts
  | .declarations b _, ts => Matches Derives (.many (.rule (.declaration b))) ts
  | .routine _, ts => Derives .routine ts
  | .routines _, ts => Matches Derives (.many (.rule .routine)) ts

/-- Names with commas between them, up to the number that is allowed. -/
theorem readsNames_matches {names : List Lexeme} (h : ReadsNames names ts) :
    ∀ n, names.length ≤ n + 1 → Matches Derives (entries n .ident) ts := by
  induction h with
  | last ht => exact fun n _ => matches_short (matches_ident_of ht) .upToNil
  | more ht hc hnames ih =>
    intro n hl
    cases n with
    | zero =>
      rw [List.length_cons] at hl
      cases hnames with
      | last => simp at hl
      | more => simp at hl
    | succ n =>
      obtain ⟨vs, ws, hv, hw, rfl⟩ := matches_cons.mp (ih n (by simpa using hl))
      refine matches_token (matches_ident_of ht) (matches_single.mpr ?_)
      exact .upToCons (matches_token (matches_symbol_of hc) (matches_single.mpr hv)) (matches_single.mp hw)

theorem readsParams_matches {names : List Lexeme} (h : ReadsParams names ts) :
    Matches Derives (.opt (.rule .parameters)) ts := by
  rcases h with ⟨-, rfl⟩ | ⟨h, hl⟩
  · exact matches_none
  · exact matches_some (matches_rule.mpr (derives_of_matches (readsNames_matches h 254 hl)))

theorem readsOpt_matches {e : Option Expr} {k k' : Int} (h : ReadsOpt e k ts k') :
    Matches Derives (.opt (.level .comma)) ts := by
  cases e with
  | none =>
    obtain ⟨rfl, -⟩ := h
    exact matches_none
  | some e => exact matches_some (matches_expr h)

theorem readsParent_matches {parent : Option Reference} {k k' : Int} (h : ReadsParent parent k ts k') :
    Matches Derives (.opt (.sequence [.symbol .less, .ident])) ts := by
  cases h with
  | none => exact matches_none
  | some hl ht => exact matches_some (matches_token (matches_symbol_of hl) (matches_single.mpr (matches_ident_of ht)))

theorem readsVar_derives {x : Stmt} {k k' : Int} {keyword : Token} (hk : keyword.terminal = .keyword .var)
    (h : ReadsVar x k ts k') : Derives .varDecl (keyword :: ts) := by
  cases h with
  | @intro _ _ _ _ us _ init ht hi hs =>
    have hinit : Matches Derives (.opt (.sequence [.symbol .equal, .level .comma])) us := by
      cases hi with
      | none => exact matches_none
      | some hq he =>
        exact matches_some (matches_token (matches_symbol_of hq)
          (matches_single.mpr (matches_expr he)))
    refine derives_of_matches (matches_token (matches_keyword_of hk) (matches_token (matches_ident_of ht) ?_))
    exact .cons hinit (matches_single.mpr (matches_symbol_of hs))

theorem readsEffect_derives {x : Stmt} {k k' : Int} (h : ReadsEffect x k ts k') : Derives .exprStmt ts := by
  cases h with
  | intro he hs =>
    exact derives_of_matches (.cons (matches_expr he)
      (matches_single.mpr (matches_symbol_of hs)))

theorem readsClause_matches {init : Option Stmt} {k k' : Int} (h : ReadsClause init k ts k') :
    Matches Derives (.choice [.rule .varDecl, .rule .exprStmt, .symbol .semicolon]) ts := by
  cases h with
  | none hs => exact .choice (e := .symbol .semicolon) (by simp) (matches_symbol_of hs)
  | var hk hv => exact .choice (e := .rule .varDecl) (by simp) (.rule (readsVar_derives hk hv))
  | effect he => exact .choice (e := .rule .exprStmt) (by simp) (.rule (readsEffect_derives he))

/-- A statement that may stand inside or outside of a loop. -/
theorem derives_statement {b : Bool} {n : Nonterminal} (h : Derives n ts)
    (hn : n ∈ ([.exprStmt, .forStmt, .ifStmt b, .printStmt, .returnStmt, .whileStmt, .block b] : List Nonterminal)) :
    Derives (.statement b) ts := by
  refine derives_of_matches (.choice (e := .rule n) ?_ (.rule h))
  refine List.mem_append_left _ ?_
  simp only [List.mem_cons, List.not_mem_nil, or_false] at hn
  rcases hn with rfl | rfl | rfl | rfl | rfl | rfl | rfl <;> simp

theorem derives_jump {n : Nonterminal} (h : Derives n ts) (hn : n = .breakStmt ∨ n = .continueStmt) :
    Derives (.statement true) ts := by
  refine derives_of_matches (.choice (e := .rule n) ?_ (.rule h))
  refine List.mem_append_right _ ?_
  rcases hn with rfl | rfl <;> simp

theorem derives_declaration {b : Bool} {n : Nonterminal} (h : Derives n ts)
    (hn : n ∈ ([.classDecl, .funDecl, .varDecl, .statement b] : List Nonterminal)) : Derives (.declaration b) ts := by
  refine derives_of_matches (.choice (e := .rule n) ?_ (.rule h))
  simp only [List.mem_cons, List.not_mem_nil, or_false] at hn
  rcases hn with rfl | rfl | rfl | rfl <;> simp

theorem derives_block {b : Bool} {opening closing : Token} (ho : opening.terminal = .symbol .leftBrace)
    (h : Matches Derives (.many (.rule (.declaration b))) ts) (hc : closing.terminal = .symbol .rightBrace) :
    Derives (.block b) (opening :: (ts ++ [closing])) :=
  derives_of_matches (matches_token (matches_symbol_of ho) (.cons h (matches_single.mpr (matches_symbol_of hc))))

theorem derives_if {b : Bool} {keyword opening closing : Token} (hk : keyword.terminal = .keyword .if_)
    (ho : opening.terminal = .symbol .leftParen) (ht : Matches Derives (.level .comma) ts)
    (hc : closing.terminal = .symbol .rightParen) (hy : Derives (.statement b) us)
    (hn : Matches Derives (.opt (.sequence [.keyword .else_, .rule (.statement b)])) vs) :
    Derives (.ifStmt b) (keyword :: opening :: (ts ++ closing :: (us ++ vs))) := by
  have hyes := matches_token (matches_symbol_of hc) (.cons (matches_derived hy) (matches_single.mpr hn))
  refine derives_of_matches (matches_token (matches_keyword_of hk) (matches_token (matches_symbol_of ho) ?_))
  exact .cons ht hyes

/-- What is read as a statement is derived by the grammar. -/
theorem readsStmt_derives {c : Clause} {k k' : Int} (h : ReadsStmt c k ts k') : ClauseDerives c ts := by
  induction h with
  | effect h => exact derives_statement (readsEffect_derives h) (by simp)
  | print hk he hs =>
    have hvalue := Matches.cons (matches_expr he) (matches_single.mpr (matches_symbol_of hs))
    exact derives_statement (n := .printStmt) (derives_of_matches (matches_token (matches_keyword_of hk) hvalue))
      (by simp)
  | block ho _ hc ih => exact derives_statement (derives_block ho ih hc) (by simp)
  | if_ hk ho ht hc _ ih =>
    have := derives_if hk ho (matches_expr ht) hc ih matches_none
    rw [List.append_nil] at this
    exact derives_statement this (by simp)
  | ifElse hk ho ht hc _ he _ ih ih' =>
    have hno := matches_some (matches_token (matches_keyword_of he) (matches_single.mpr (matches_derived ih')))
    rw [List.append_assoc]
    exact derives_statement (derives_if hk ho (matches_expr ht) hc ih hno) (by simp)
  | while_ hk ho ht hc _ ih =>
    have hbody := matches_token (matches_symbol_of hc) (matches_single.mpr (matches_derived ih))
    have htest := Matches.cons (matches_expr ht) hbody
    exact derives_statement (n := .whileStmt)
      (derives_of_matches (matches_token (matches_keyword_of hk) (matches_token (matches_symbol_of ho) htest)))
        (by simp)
  | for_ hk ho hi ht hs hp hc _ ih =>
    have hbody := matches_token (matches_symbol_of hc) (matches_single.mpr (matches_derived ih))
    have hstep := matches_token (matches_symbol_of hs) (.cons (readsOpt_matches hp) hbody)
    have hclauses := Matches.cons (readsClause_matches hi) (.cons (readsOpt_matches ht) hstep)
    simp only [List.append_assoc, List.cons_append]
    exact derives_statement (n := .forStmt)
      (derives_of_matches (matches_token (matches_keyword_of hk) (matches_token (matches_symbol_of ho) hclauses)))
        (by simp)
  | return_ hk hv hs =>
    have hvalue := Matches.cons (readsOpt_matches hv) (matches_single.mpr (matches_symbol_of hs))
    exact derives_statement (n := .returnStmt) (derives_of_matches (matches_token (matches_keyword_of hk) hvalue))
      (by simp)
  | break_ hk hs =>
    exact derives_jump (n := .breakStmt)
      (derives_of_matches (matches_token (matches_keyword_of hk) (matches_single.mpr (matches_symbol_of hs)))) (by simp)
  | continue_ hk hs =>
    exact derives_jump (n := .continueStmt)
      (derives_of_matches (matches_token (matches_keyword_of hk) (matches_single.mpr (matches_symbol_of hs)))) (by simp)
  | statement _ ih => exact derives_declaration ih (by simp)
  | var hk h => exact derives_declaration (readsVar_derives hk h) (by simp)
  | fun_ hk _ ih =>
    exact derives_declaration (n := .funDecl)
      (derives_of_matches (matches_token (matches_keyword_of hk) (matches_single.mpr (matches_derived ih)))) (by simp)
  | class_ hk ht hp ho _ hc ih =>
    have hmembers := matches_token (matches_symbol_of ho) (.cons ih (matches_single.mpr (matches_symbol_of hc)))
    have hname := matches_token (matches_ident_of ht) (.cons (readsParent_matches hp) hmembers)
    simp only [List.append_assoc, List.cons_append]
    exact derives_declaration (n := .classDecl) (derives_of_matches (matches_token (matches_keyword_of hk) hname))
      (by simp)
  | nil | noRoutine => exact .manyNil
  | cons _ _ ih ih' => exact .manyCons (matches_derived ih) ih'
  | routine ht ho hp hc hb _ hc' ih =>
    have hbody := matches_rule.mpr (derives_block hb ih hc')
    have hparams :=
      Matches.cons (readsParams_matches hp) (matches_token (matches_symbol_of hc) (matches_single.mpr hbody))
    simp only [List.append_assoc, List.cons_append]
    exact derives_of_matches (matches_token (matches_ident_of ht) (matches_token (matches_symbol_of ho) hparams))
  | moreRoutines _ _ ih ih' => exact .manyCons (matches_derived ih) ih'

theorem derives_program {ss : List Stmt} {k k' : Int} (h : ReadsStmt (.declarations false ss) k ts k') :
    Derives .program ts :=
  derives_of_matches (readsStmt_derives h)

end Lox.Grammar
