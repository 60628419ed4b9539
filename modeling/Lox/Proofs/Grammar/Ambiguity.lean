/-
  Lox.Proofs.Grammar.Ambiguity — every derivation can be turned into a reading.

  Where a derivation gives an `and` or `or` a left operand that ends in a ternary, the
  operator belongs to the last branch of the ternary instead, or to what that branch ends
  in (`reads_joined`); where it gives an `else` to an `if` with an open one in its branch,
  the `else` belongs to the innermost of them (`reads_else`). That `if` may stand in a
  loop that the outer one does not stand in, and what may stand outside of a loop may
  stand in one (`ReadsStmt.looped`).
-/

import Lox.Proofs.Grammar.Follow
import Lox.Proofs.Grammar.Derivable

namespace Lox.Grammar

variable {k k' k₁ : Int} {ts us vs : List Token}

/-- The tokens are read at the level whatever slot is free. -/
def ReadsLevel (l : Level) (ts : List Token) : Prop := ∀ k, ∃ e k', ReadsExpr (.level l e) k ts k'

/-! ## Operators behind a ternary -/

/-- What holds of a level whose phrase takes no operand of the other level holds of its last operand. -/
theorem tighter_or_ends {l m : Level} {b : Bool} (h : l.rank ≤ m.rank ∨ b = true) (hm : m ≠ .call)
    (hne : ¬ (m = l ∧ b = false)) : l.rank ≤ m.tighter.rank ∨ b = true := by
  cases b with
  | true => exact Or.inr rfl
  | false =>
    simp only [Bool.false_eq_true, or_false, and_true] at h hne ⊢
    have hrank := Level.rank_tighter hm
    have : m.rank ≠ l.rank := fun he => hne (Level.rank_injective he)
    omega

/-- An operator and an operand behind a phrase that ends in a ternary, or that may end in a phrase of their level. -/
theorem reads_joined {l m : Level} {op : Token} {e : Expr} (h : ReadsExpr (.level m e) k ts k₁)
    (hl : l = .or_ ∨ l = .and_) (ho : op.terminal ∈ l.operators) (hu : ReadsLevel l.tighter us)
    (hm : l.rank ≤ m.rank ∨ e.endsInTernary = true) : ∃ e' k', ReadsExpr (.level m e') k (ts ++ op :: us) k' := by
  generalize hp : Phrase.level m e = p at h
  have hlow : 7 ≤ l.rank := by rcases hl with rfl | rfl <;> decide
  have hhigh : l.rank ≤ Level.assignment.rank := by rcases hl with rfl | rfl <;> decide
  -- a phrase of their level itself, not ending in a ternary, is their left operand
  have hjoin {k k₁ : Int} {ts : List Token} {left : Expr} (hleft : ReadsExpr (.level l left) k ts k₁)
      (ht : left.endsInTernary = false) : ∃ e' k', ReadsExpr (.level l e') k (ts ++ op :: us) k' := by
    obtain ⟨right, k', hright⟩ := hu k₁
    exact ⟨_, k', .chain hleft ho hright fun _ => ht⟩
  revert hm
  induction h generalizing m e with
  | atom h =>
    cases hp
    rw [endsInTernary_of_call (.atom h)]
    rintro (hm | hm)
    · exact absurd (Nat.le_trans hlow hm) (by decide)
    · cases hm
  | get | callEmpty | call =>
    cases hp
    rintro (hm | hm)
    · exact absurd (Nat.le_trans hlow hm) (by decide)
    · cases hm
  | unary hop _ ih =>
    cases hp
    rintro (hm | hm)
    · exact absurd (Nat.le_trans hlow hm) (by decide)
    · obtain ⟨e', k', h'⟩ := ih rfl (Or.inr hm)
      exact ⟨_, k', .unary hop h'⟩
  | @chain m₁ _ _ _ _ _ op' _ right hleft hop hr hend _ ih =>
    cases hp
    rw [endsInTernary_join]
    intro hm
    by_cases hbase : m₁ = l ∧ right.endsInTernary = false
    · obtain ⟨rfl, hfree⟩ := hbase
      exact hjoin (.chain hleft hop hr hend) (by rw [endsInTernary_join]; exact hfree)
    · have hnext := tighter_or_ends hm (Level.ne_call_of_chain (List.ne_nil_of_mem hop)) hbase
      obtain ⟨e', k', h'⟩ := ih rfl hnext
      have := ReadsExpr.chain hleft hop h' hend
      exact ⟨_, k', by simpa using this⟩
  | ternary hcond hq hyes hc _ _ _ ih =>
    cases hp
    intro _
    obtain ⟨e', k', h'⟩ := ih rfl (Or.inl hhigh)
    have := ReadsExpr.ternary hcond hq hyes hc h'
    exact ⟨_, k', by simpa using this⟩
  | assign ht hq _ ih =>
    cases hp
    intro _
    obtain ⟨e', k', h'⟩ := ih rfl (Or.inl hhigh)
    exact ⟨_, _, .assign ht hq h'⟩
  | set hobj hd hp' hq _ _ ih =>
    cases hp
    intro _
    obtain ⟨e', k', h'⟩ := ih rfl (Or.inl hhigh)
    have := ReadsExpr.set hobj hd hp' hq h'
    exact ⟨_, k', by simpa using this⟩
  | @operand m₁ _ _ _ e hne h ih =>
    cases hp
    intro hm
    by_cases hbase : m₁ = l ∧ e.endsInTernary = false
    · obtain ⟨rfl, hfree⟩ := hbase
      exact hjoin (.operand hne h) hfree
    · have hnext := tighter_or_ends hm hne hbase
      obtain ⟨e', k', h'⟩ := ih rfl hnext
      exact ⟨e', k', .operand hne h'⟩
  | _ => cases hp

/-! ## An `else` behind an open `if` -/

/-- The same part of a program, with a loop around it. -/
def Clause.looped : Clause → Clause
  | .statement _ o s => .statement true o s
  | .declaration _ s => .declaration true s
  | .declarations _ ss => .declarations true ss
  | c => c

/-- Inside of a loop everything is read that is read outside of one. -/
theorem ReadsStmt.looped {c : Clause} (h : ReadsStmt c k ts k') : ReadsStmt c.looped k ts k' := by
  induction h with
  | effect h => exact .effect h
  | print hk he hs => exact .print hk he hs
  | block ho _ hc ih => exact .block ho ih hc
  | if_ hk ho ht hc _ ih => exact .if_ hk ho ht hc ih
  | ifElse hk ho ht hc _ he _ ih ih' => exact .ifElse hk ho ht hc ih he ih'
  | while_ hk ho ht hc h _ => exact .while_ hk ho ht hc h
  | for_ hk ho hi ht hs hp hc h _ => exact .for_ hk ho hi ht hs hp hc h
  | return_ hk hv hs => exact .return_ hk hv hs
  | break_ hk hs => exact .break_ hk hs
  | continue_ hk hs => exact .continue_ hk hs
  | statement _ ih => exact .statement ih
  | var hk h => exact .var hk h
  | fun_ hk h _ => exact .fun_ hk h
  | class_ hk ht hp ho h hc _ => exact .class_ hk ht hp ho h hc
  | nil => exact .nil
  | cons _ _ ih ih' => exact .cons ih ih'
  | routine ht ho hp hc hb h hc' _ => exact .routine ht ho hp hc hb h hc'
  | noRoutine => exact .noRoutine
  | moreRoutines h h' _ _ => exact .moreRoutines h h'

/-- The tokens are read as a statement whatever slot is free. -/
def ReadsBranch (b : Bool) (ts : List Token) : Prop := ∀ k, ∃ o x k', ReadsStmt (.statement b o x) k ts k'

theorem ReadsBranch.looped {b : Bool} (h : ReadsBranch b ts) : ReadsBranch true ts := by
  intro k
  obtain ⟨o, x, k', hx⟩ := h k
  exact ⟨o, x, k', hx.looped⟩

/-- An `else` behind a statement that ends in an open `if` belongs to the innermost one. -/
theorem reads_else {b : Bool} {other : Token} {x : Stmt} (h : ReadsStmt (.statement b true x) k ts k₁)
    (ho : other.terminal = .keyword .else_) (hn : ReadsBranch b vs) :
    ∃ o x' k', ReadsStmt (.statement b o x') k (ts ++ other :: vs) k' := by
  generalize hc : Clause.statement b true x = c at h
  induction h generalizing b x with
  | @if_ b₁ o _ _ _ _ _ _ _ _ _ _ hk hop ht hcl hyes ih =>
    cases hc
    cases o with
    | false =>
      obtain ⟨o', no, k', hno⟩ := hn _
      exact ⟨o', _, k', .ifElse hk hop ht hcl hyes ho hno⟩
    | true =>
      obtain ⟨o', x', k', h'⟩ := ih hn rfl
      have := ReadsStmt.if_ hk hop ht hcl h'
      exact ⟨true, _, k', by simpa using this⟩
  | ifElse hk hop ht hcl hyes he _ _ ih =>
    cases hc
    obtain ⟨o', x', k', h'⟩ := ih hn rfl
    have := ReadsStmt.ifElse hk hop ht hcl hyes he h'
    exact ⟨o', _, k', by simpa using this⟩
  | @while_ b₁ _ _ _ _ _ _ _ _ _ _ _ hk hop ht hcl _ ih =>
    cases hc
    obtain ⟨o', x', k', h'⟩ := ih hn.looped rfl
    have := ReadsStmt.while_ (b := b₁) hk hop ht hcl h'
    exact ⟨o', _, k', by simpa using this⟩
  | @for_ b₁ _ _ _ _ _ _ _ _ _ _ _ _ _ _ _ _ _ _ hk hop hi ht hs hp hcl _ ih =>
    cases hc
    obtain ⟨o', x', k', h'⟩ := ih hn.looped rfl
    have := ReadsStmt.for_ (b := b₁) hk hop hi ht hs hp hcl h'
    exact ⟨o', _, k', by simpa using this⟩
  | _ => cases hc

/-! ## Every production is read -/

/-- The token lists that can be read as what a nonterminal stands for. -/
def Readable : Languages
  | .program, ts => ∀ k, ∃ ss k', ReadsStmt (.declarations false ss) k ts k'
  | .declaration b, ts => ∀ k, ∃ x k', ReadsStmt (.declaration b x) k ts k'
  | .classDecl, ts | .funDecl, ts => ∀ b k, ∃ x k', ReadsStmt (.declaration b x) k ts k'
  | .routine, ts => ∀ k, ∃ r k', ReadsStmt (.routine r) k ts k'
  | .parameters, ts => ∃ names, ReadsParams names ts
  | .varDecl, ts => ∃ keyword us, ts = keyword :: us ∧ keyword.terminal = .keyword .var ∧
    ∀ k, ∃ x k', ReadsVar x k us k'
  | .exprStmt, ts => ∀ k, ∃ x k', ReadsEffect x k ts k'
  | .statement b, ts | .ifStmt b, ts => ReadsBranch b ts
  | .forStmt, ts | .printStmt, ts | .returnStmt, ts | .whileStmt, ts => ∀ b, ReadsBranch b ts
  | .breakStmt, ts | .continueStmt, ts => ReadsBranch true ts
  | .block b, ts => ∃ opening us closing, ts = opening :: us ++ [closing] ∧
    opening.terminal = .symbol .leftBrace ∧ closing.terminal = .symbol .rightBrace ∧
    ∀ k, ∃ ss k', ReadsStmt (.declarations b ss) k us k'
  | .level l, ts => ReadsLevel l ts
  | .arguments, ts => ∀ k, ∃ es k', ReadsExpr (.arguments es) k ts k' ∧ es.length ≤ mostArguments
  | .primary, ts => ∀ k, ∃ e k', ReadsExpr (.primary e) k ts k'

/-- Each form of a primary expression has a tree of its own. -/
theorem readable_primary (h : Matches Readable (production .primary) ts) : Readable .primary ts := by
  intro k
  simp only [production, matches_choice, List.mem_cons, List.not_mem_nil, or_false, exists_eq_or_imp, exists_eq_left,
    matches_keyword, matches_symbol, matches_ident, matches_number, matches_string, matches_cons, matches_nil,
    matches_level] at h
  rcases h with ⟨_, rfl, h⟩ | ⟨_, rfl, h⟩ | ⟨_, rfl, h⟩ | ⟨_, _, rfl, h⟩ | ⟨_, _, rfl, h⟩ | ⟨_, _, rfl, h⟩ |
    ⟨_, _, ⟨_, rfl, ho⟩, ⟨us, _, hu, ⟨_, _, ⟨_, rfl, hc⟩, rfl, rfl⟩, rfl⟩, rfl⟩ | ⟨_, rfl, h⟩ |
    ⟨_, _, ⟨_, rfl, h⟩, ⟨_, _, ⟨_, rfl, hd⟩, ⟨_, _, ⟨_, _, rfl, hm⟩, rfl, rfl⟩, rfl⟩, rfl⟩
  · exact ⟨_, _, .true_ h⟩
  · exact ⟨_, _, .false_ h⟩
  · exact ⟨_, _, .nil h⟩
  · exact ⟨_, _, .number h⟩
  · exact ⟨_, _, .string h⟩
  · exact ⟨_, _, .ref h⟩
  · obtain ⟨e, k', he⟩ := hu k
    exact ⟨_, k', .group ho he hc⟩
  · exact ⟨_, _, .this h⟩
  · exact ⟨_, _, .super h hd hm⟩

/-- More operands behind a phrase of their chain. -/
theorem reads_operands {l : Level} {e : Expr} {words : List (List Token)}
    (he : ReadsExpr (.level l e) k us k₁)
    (hw : ∀ w ∈ words, ∃ op vs, w = op :: vs ∧ op.terminal ∈ l.operators ∧ ReadsLevel l.tighter vs) :
    ∃ e' k', ReadsExpr (.level l e') k (us ++ words.flatten) k' := by
  induction words generalizing us e k₁ with
  | nil => exact ⟨e, k₁, by simpa using he⟩
  | cons w words ih =>
    obtain ⟨op, vs, rfl, ho, hv⟩ := hw w (List.mem_cons_self ..)
    have hstep : ∃ e' k₂, ReadsExpr (.level l e') k (us ++ op :: vs) k₂ := by
      by_cases hlog : l = .or_ ∨ l = .and_
      · exact reads_joined he hlog ho hv (Or.inl (Nat.le_refl _))
      · obtain ⟨right, k₂, hright⟩ := hv k₁
        exact ⟨_, k₂, .chain he ho hright fun h => absurd h hlog⟩
    obtain ⟨e', k₂, he'⟩ := hstep
    have := ih he' fun w hm => hw w (List.mem_cons_of_mem _ hm)
    simpa using this

/-- A chain of operators is read as a tree that leans to the left. -/
theorem readable_chain {l : Level} (hl : l.operators ≠ []) (h : Matches Readable (production (.level l)) ts) :
    Readable (.level l) ts := by
  obtain ⟨us, words, hu, hw, rfl⟩ := (matches_chain hl).mp h
  intro k
  obtain ⟨e, k', he⟩ := hu k
  exact reads_operands (.operand (Level.ne_call_of_chain hl) he) hw

theorem reads_suffix {e : Expr} (he : ReadsExpr (.level .call e) k ts k₁) (h : Matches Readable suffixPart us) :
    ∃ e' k', ReadsExpr (.level .call e') k (ts ++ us) k' := by
  simp only [suffixPart, matches_choice, List.mem_cons, List.not_mem_nil, or_false, exists_eq_or_imp, exists_eq_left,
    matches_cons, matches_nil, matches_symbol, matches_ident, matches_opt, matches_rule] at h
  rcases h with ⟨_, _, ⟨_, rfl, ho⟩, ⟨vs, _, hv, ⟨_, _, ⟨_, rfl, hc⟩, rfl, rfl⟩, rfl⟩, rfl⟩ |
    ⟨_, _, ⟨_, rfl, hd⟩, ⟨_, _, ⟨_, _, rfl, hp⟩, rfl, rfl⟩, rfl⟩
  · rcases hv with rfl | hv
    · exact ⟨_, k₁, .callEmpty he ho hc⟩
    · obtain ⟨es, k', hes, hl⟩ := hv k₁
      exact ⟨_, k', by simpa using ReadsExpr.call he ho hes hl hc⟩
  · exact ⟨_, k₁, .get he hd hp⟩

theorem readable_call (h : Matches Readable (production (.level .call)) ts) : Readable (.level .call) ts := by
  obtain ⟨us, vs, hu, hv, rfl⟩ := matches_cons.mp h
  obtain ⟨words, hw, rfl⟩ := matches_many.mp (matches_single.mp hv)
  intro k
  obtain ⟨e, k', he⟩ := matches_rule.mp hu k
  replace he := ReadsExpr.atom he
  clear h hu hv
  induction words generalizing us e k' with
  | nil => exact ⟨e, k', by simpa using he⟩
  | cons w words ih =>
    obtain ⟨e', k₁, he'⟩ := reads_suffix he (hw w (List.mem_cons_self ..))
    have := ih (us ++ w) (fun w hm => hw w (List.mem_cons_of_mem _ hm)) e' k₁ he'
    simpa using this

/-- An assignment is read by what is on its left: a name or a property. -/
theorem readable_assignment (h : Matches Readable (production (.level .assignment)) ts) :
    Readable (.level .assignment) ts := by
  intro k
  simp only [production, matches_choice, List.mem_cons, List.not_mem_nil, or_false, exists_eq_or_imp, exists_eq_left,
    matches_cons, matches_nil, matches_symbol, matches_ident, matches_opt, matches_level] at h
  rcases h with ⟨us, _, hu, ⟨_, _, ⟨_, _, rfl, ht⟩, ⟨_, _, ⟨_, rfl, hq⟩, ⟨vs, _, hv, rfl, rfl⟩, rfl⟩, rfl⟩, rfl⟩ | h
  · rcases hu with rfl | ⟨us, _, hu, ⟨_, _, ⟨_, rfl, hd⟩, rfl, rfl⟩, rfl⟩
    · obtain ⟨value, k', hvalue⟩ := hv (k + 1)
      exact ⟨_, _, by simpa using ReadsExpr.assign ht hq hvalue⟩
    · obtain ⟨object, k₁, hobj⟩ := hu k
      obtain ⟨value, k', hvalue⟩ := hv k₁
      exact ⟨_, k', by simpa using ReadsExpr.set hobj hd ht hq hvalue⟩
  · obtain ⟨e, k', he⟩ := h k
    exact ⟨e, k', .operand (by decide) he⟩

/-- A ternary operator is read with the nearest colon that is its own. -/
theorem readable_ternary (h : Matches Readable (production (.level .ternary)) ts) : Readable (.level .ternary) ts := by
  intro k
  simp only [production, matches_cons, matches_nil, matches_symbol, matches_opt, matches_level] at h
  obtain ⟨us, _, hu, ⟨vs, _, hv, rfl, rfl⟩, rfl⟩ := h
  obtain ⟨cond, k₁, hcond⟩ := hu k
  rcases hv with rfl | ⟨_, _, ⟨_, rfl, hq⟩, ⟨vs, _, hv, ⟨_, _, ⟨_, rfl, hc⟩, ⟨ws, _, hw, rfl, rfl⟩, rfl⟩, rfl⟩, rfl⟩
  · exact ⟨cond, k₁, by simpa using ReadsExpr.operand (l := .ternary) (by decide) hcond⟩
  · obtain ⟨yes, k₂, hyes⟩ := hv k₁
    obtain ⟨no, k', hno⟩ := hw k₂
    exact ⟨_, k', by simpa using ReadsExpr.ternary hcond hq hyes hc hno⟩

theorem readable_unary (h : Matches Readable (production (.level .unary)) ts) : Readable (.level .unary) ts := by
  intro k
  simp only [production, matches_choice, List.mem_cons, List.not_mem_nil, or_false, exists_eq_or_imp, exists_eq_left,
    matches_cons, matches_nil, matches_symbol, matches_level] at h
  rcases h with ⟨_, _, hop, ⟨us, _, hu, rfl, rfl⟩, rfl⟩ | h
  · obtain ⟨e, k', he⟩ := hu k
    rw [List.append_nil]
    rcases hop with ⟨_, rfl, ho⟩ | ⟨_, rfl, ho⟩
    · exact ⟨_, k', .unary (by simp [unaryOperators, ho]) he⟩
    · exact ⟨_, k', .unary (by simp [unaryOperators, ho]) he⟩
  · obtain ⟨e, k', he⟩ := h k
    exact ⟨e, k', .operand (by decide) he⟩

theorem readable_level {l : Level} (h : Matches Readable (production (.level l)) ts) : Readable (.level l) ts := by
  cases l with
  | assignment => exact readable_assignment h
  | ternary => exact readable_ternary h
  | unary => exact readable_unary h
  | call => exact readable_call h
  | _ => exact readable_chain (by simp [Level.operators]) h

/-- The entries of a list, those that follow the first with a comma in front. -/
theorem matches_entries {n : Nat} {entry : Ebnf} (h : Matches Readable (entries n entry) ts) :
    ∃ us words, Matches Readable entry us ∧ List.length words ≤ n ∧
      (∀ w ∈ words, ∃ comma vs, w = comma :: vs ∧ comma.terminal = .symbol .comma ∧ Matches Readable entry vs) ∧
      ts = us ++ List.flatten words := by
  obtain ⟨us, vs, hu, hv, rfl⟩ := matches_cons.mp h
  obtain ⟨words, hl, hw, rfl⟩ := matches_upTo.mp (matches_single.mp hv)
  refine ⟨us, words, hu, hl, fun w hm => ?_, rfl⟩
  obtain ⟨_, vs, hcomma, hvs, rfl⟩ := matches_cons.mp (hw w hm)
  obtain ⟨comma, rfl, hc⟩ := matches_symbol.mp hcomma
  exact ⟨comma, vs, rfl, hc, matches_single.mp hvs⟩

/-- Arguments are read from left to right, with a comma behind each but the last. -/
theorem readable_arguments (h : Matches Readable (production .arguments) ts) : Readable .arguments ts := by
  obtain ⟨us, words, hu, hl, hw, rfl⟩ := matches_entries h
  clear h
  suffices hlist : ∀ k, ∃ es k', ReadsExpr (.arguments es) k (us ++ words.flatten) k' ∧ es.length = words.length + 1 by
    intro k
    obtain ⟨es, k', hes, hlen⟩ := hlist k
    exact ⟨es, k', hes, by rw [hlen]; exact Nat.succ_le_succ hl⟩
  clear hl
  induction words generalizing us with
  | nil =>
    intro k
    obtain ⟨e, k', he⟩ := matches_level.mp hu k
    exact ⟨[e], k', by simpa using ReadsExpr.last he, rfl⟩
  | cons w words ih =>
    intro k
    obtain ⟨comma, vs, rfl, hc, hv⟩ := hw w (List.mem_cons_self ..)
    obtain ⟨e, k₁, he⟩ := matches_level.mp hu k
    obtain ⟨es, k', hes, hlen⟩ := ih vs hv (fun w hm => hw w (List.mem_cons_of_mem _ hm)) k₁
    exact ⟨e :: es, k', by simpa using ReadsExpr.more he hc hes, by simp [hlen]⟩

/-- Parameters are read as the names in front of the commas. -/
theorem readable_parameters (h : Matches Readable (production .parameters) ts) : Readable .parameters ts := by
  obtain ⟨us, words, hu, hl, hw, rfl⟩ := matches_entries h
  clear h
  suffices hlist : ∃ names, ReadsNames names (us ++ words.flatten) ∧ names.length = words.length + 1 by
    obtain ⟨names, hnames, hlen⟩ := hlist
    exact ⟨names, Or.inr ⟨hnames, by rw [hlen]; exact Nat.succ_le_succ hl⟩⟩
  clear hl
  induction words generalizing us with
  | nil =>
    obtain ⟨t, name, rfl, ht⟩ := matches_ident.mp hu
    exact ⟨_, .last ht, rfl⟩
  | cons w words ih =>
    obtain ⟨comma, vs, rfl, hc, hv⟩ := hw w (List.mem_cons_self ..)
    obtain ⟨t, name, rfl, ht⟩ := matches_ident.mp hu
    obtain ⟨names, hnames, hlen⟩ := ih vs hv fun w hm => hw w (List.mem_cons_of_mem _ hm)
    exact ⟨_, .more ht hc hnames, by simp [hlen]⟩

/-! ### Statements -/

theorem reads_opt (h : Matches Readable (.opt (.level .comma)) ts) (k : Int) : ∃ e k', ReadsOpt e k ts k' := by
  rcases matches_opt.mp h with rfl | h
  · exact ⟨none, k, rfl, rfl⟩
  · obtain ⟨e, k', he⟩ := matches_level.mp h k
    exact ⟨some e, k', he⟩

theorem readable_varDecl (h : Matches Readable (production .varDecl) ts) : Readable .varDecl ts := by
  simp only [production, matches_cons, matches_nil, matches_keyword, matches_symbol, matches_ident, matches_opt,
    matches_level] at h
  obtain ⟨_, _, ⟨keyword, rfl, hk⟩, ⟨_, _, ⟨t, name, rfl, ht⟩, ⟨us, _, hu, ⟨_, _, ⟨semicolon, rfl, hs⟩, rfl, rfl⟩,
    rfl⟩, rfl⟩, rfl⟩ := h
  refine ⟨keyword, _, rfl, hk, fun k => ?_⟩
  have hinit : ∃ init k', ReadsInit init k us k' := by
    rcases hu with rfl | ⟨_, _, ⟨_, rfl, hq⟩, ⟨vs, _, hv, rfl, rfl⟩, rfl⟩
    · exact ⟨none, k, .none⟩
    · obtain ⟨e, k', he⟩ := hv k
      exact ⟨some e, k', by simpa using ReadsInit.some hq he⟩
  obtain ⟨init, k', hinit⟩ := hinit
  exact ⟨_, k', .intro ht hinit hs⟩

theorem readable_exprStmt (h : Matches Readable (production .exprStmt) ts) : Readable .exprStmt ts := by
  simp only [production, matches_cons, matches_nil, matches_symbol, matches_level] at h
  obtain ⟨us, _, hu, ⟨_, _, ⟨_, rfl, hs⟩, rfl, rfl⟩, rfl⟩ := h
  intro k
  obtain ⟨e, k', he⟩ := hu k
  exact ⟨_, k', .intro he hs⟩

theorem reads_clause (h : Matches Readable (.choice [.rule .varDecl, .rule .exprStmt, .symbol .semicolon]) ts)
    (k : Int) : ∃ init k', ReadsClause init k ts k' := by
  simp only [matches_choice, List.mem_cons, List.not_mem_nil, or_false, exists_eq_or_imp, exists_eq_left,
    matches_symbol, matches_rule] at h
  rcases h with ⟨keyword, us, rfl, hk, hvar⟩ | h | ⟨_, rfl, hs⟩
  · obtain ⟨x, k', hx⟩ := hvar k
    exact ⟨some x, k', .var hk hx⟩
  · obtain ⟨x, k', hx⟩ := h k
    exact ⟨some x, k', .effect hx⟩
  · exact ⟨none, k, .none hs⟩

theorem readable_forStmt (h : Matches Readable (production .forStmt) ts) : Readable .forStmt ts := by
  simp only [production, matches_cons, matches_nil, matches_keyword, matches_symbol, matches_rule] at h
  obtain ⟨_, _, ⟨_, rfl, hk⟩, ⟨_, _, ⟨_, rfl, ho⟩, ⟨us, _, hi, ⟨vs, _, ht, ⟨_, _, ⟨_, rfl, hs⟩, ⟨ws, _, hp,
    ⟨_, _, ⟨_, rfl, hc⟩, ⟨xs, _, hx, rfl, rfl⟩, rfl⟩, rfl⟩, rfl⟩, rfl⟩, rfl⟩, rfl⟩, rfl⟩ := h
  intro b k
  obtain ⟨init, k₁, hinit⟩ := reads_clause hi k
  obtain ⟨test, k₂, htest⟩ := reads_opt ht k₁
  obtain ⟨step, k₃, hstep⟩ := reads_opt hp k₂
  obtain ⟨o, body, k', hbody⟩ := hx k₃
  exact ⟨o, _, k', by simpa using ReadsStmt.for_ (b := b) hk ho hinit htest hs hstep hc hbody⟩

/-- An `else` goes to the nearest `if` that has none. -/
theorem readable_ifStmt {b : Bool} (h : Matches Readable (production (.ifStmt b)) ts) : Readable (.ifStmt b) ts := by
  simp only [production, matches_cons, matches_nil, matches_keyword, matches_symbol, matches_opt, matches_level,
    matches_rule] at h
  obtain ⟨_, _, ⟨_, rfl, hk⟩, ⟨_, _, ⟨_, rfl, ho⟩, ⟨us, _, hu, ⟨_, _, ⟨_, rfl, hc⟩, ⟨vs, _, hv, ⟨ws, _, hw, rfl, rfl⟩,
    rfl⟩, rfl⟩, rfl⟩, rfl⟩, rfl⟩ := h
  intro k
  obtain ⟨test, k₁, ht⟩ := hu k
  obtain ⟨o, yes, k₂, hyes⟩ := hv k₁
  rcases hw with rfl | ⟨_, _, ⟨other, rfl, he⟩, ⟨ws, _, hw, rfl, rfl⟩, rfl⟩
  · exact ⟨true, _, k₂, by simpa using ReadsStmt.if_ hk ho ht hc hyes⟩
  · cases o with
    | false =>
      obtain ⟨o', no, k', hno⟩ := hw k₂
      exact ⟨o', _, k', by simpa using ReadsStmt.ifElse hk ho ht hc hyes he hno⟩
    | true =>
      obtain ⟨o', yes', k', hyes'⟩ := reads_else hyes he hw
      exact ⟨true, _, k', by simpa using ReadsStmt.if_ hk ho ht hc hyes'⟩

theorem readable_printStmt (h : Matches Readable (production .printStmt) ts) : Readable .printStmt ts := by
  simp only [production, matches_cons, matches_nil, matches_keyword, matches_symbol, matches_level] at h
  obtain ⟨_, _, ⟨_, rfl, hk⟩, ⟨us, _, hu, ⟨_, _, ⟨_, rfl, hs⟩, rfl, rfl⟩, rfl⟩, rfl⟩ := h
  intro b k
  obtain ⟨e, k', he⟩ := hu k
  exact ⟨false, _, k', .print hk he hs⟩

theorem readable_returnStmt (h : Matches Readable (production .returnStmt) ts) : Readable .returnStmt ts := by
  simp only [production, matches_cons, matches_nil, matches_keyword, matches_symbol] at h
  obtain ⟨_, _, ⟨_, rfl, hk⟩, ⟨us, _, hu, ⟨_, _, ⟨_, rfl, hs⟩, rfl, rfl⟩, rfl⟩, rfl⟩ := h
  intro b k
  obtain ⟨value, k', hvalue⟩ := reads_opt hu k
  exact ⟨false, _, k', .return_ hk hvalue hs⟩

theorem readable_whileStmt (h : Matches Readable (production .whileStmt) ts) : Readable .whileStmt ts := by
  simp only [production, matches_cons, matches_nil, matches_keyword, matches_symbol, matches_level, matches_rule] at h
  obtain ⟨_, _, ⟨_, rfl, hk⟩, ⟨_, _, ⟨_, rfl, ho⟩, ⟨us, _, hu, ⟨_, _, ⟨_, rfl, hc⟩, ⟨vs, _, hv, rfl, rfl⟩, rfl⟩, rfl⟩,
    rfl⟩, rfl⟩ := h
  intro b k
  obtain ⟨test, k₁, ht⟩ := hu k
  obtain ⟨o, body, k', hbody⟩ := hv k₁
  exact ⟨o, _, k', by simpa using ReadsStmt.while_ (b := b) hk ho ht hc hbody⟩

theorem readable_breakStmt (h : Matches Readable (production .breakStmt) ts) : Readable .breakStmt ts := by
  simp only [production, matches_cons, matches_nil, matches_keyword, matches_symbol] at h
  obtain ⟨_, _, ⟨_, rfl, hk⟩, ⟨_, _, ⟨_, rfl, hs⟩, rfl, rfl⟩, rfl⟩ := h
  exact fun k => ⟨false, _, k, .break_ hk hs⟩

theorem readable_continueStmt (h : Matches Readable (production .continueStmt) ts) : Readable .continueStmt ts := by
  simp only [production, matches_cons, matches_nil, matches_keyword, matches_symbol] at h
  obtain ⟨_, _, ⟨_, rfl, hk⟩, ⟨_, _, ⟨_, rfl, hs⟩, rfl, rfl⟩, rfl⟩ := h
  exact fun k => ⟨false, _, k, .continue_ hk hs⟩

theorem reads_declarations {b : Bool} (h : Matches Readable (.many (.rule (.declaration b))) ts) (k : Int) :
    ∃ ss k', ReadsStmt (.declarations b ss) k ts k' := by
  obtain ⟨words, hw, rfl⟩ := matches_many.mp h
  clear h
  induction words generalizing k with
  | nil => exact ⟨[], k, .nil⟩
  | cons w words ih =>
    obtain ⟨x, k₁, hx⟩ := matches_rule.mp (hw w (List.mem_cons_self ..)) k
    obtain ⟨ss, k', hss⟩ := ih k₁ fun w hm => hw w (List.mem_cons_of_mem _ hm)
    exact ⟨x :: ss, k', .cons hx hss⟩

theorem reads_routines (h : Matches Readable (.many (.rule .routine)) ts) (k : Int) :
    ∃ rs k', ReadsStmt (.routines rs) k ts k' := by
  obtain ⟨words, hw, rfl⟩ := matches_many.mp h
  clear h
  induction words generalizing k with
  | nil => exact ⟨[], k, .noRoutine⟩
  | cons w words ih =>
    obtain ⟨r, k₁, hr⟩ := matches_rule.mp (hw w (List.mem_cons_self ..)) k
    obtain ⟨rs, k', hrs⟩ := ih k₁ fun w hm => hw w (List.mem_cons_of_mem _ hm)
    exact ⟨r :: rs, k', .moreRoutines hr hrs⟩

theorem readable_block {b : Bool} (h : Matches Readable (production (.block b)) ts) : Readable (.block b) ts := by
  simp only [production, matches_cons, matches_nil, matches_symbol] at h
  obtain ⟨_, _, ⟨opening, rfl, ho⟩, ⟨us, _, hu, ⟨_, _, ⟨closing, rfl, hc⟩, rfl, rfl⟩, rfl⟩, rfl⟩ := h
  exact ⟨opening, us, closing, rfl, ho, hc, reads_declarations hu⟩

theorem readable_routine (h : Matches Readable (production .routine) ts) : Readable .routine ts := by
  simp only [production, matches_cons, matches_nil, matches_ident, matches_symbol, matches_opt, matches_rule] at h
  obtain ⟨_, _, ⟨_, _, rfl, ht⟩, ⟨_, _, ⟨_, rfl, ho⟩, ⟨us, _, hu, ⟨_, _, ⟨_, rfl, hc⟩, ⟨_, _, hv, rfl, rfl⟩, rfl⟩, rfl⟩,
    rfl⟩, rfl⟩ := h
  obtain ⟨brace, vs, closing, rfl, hb, hc', hbody⟩ := hv
  intro k
  have hparams : ∃ names, ReadsParams names us := by
    rcases hu with rfl | hu
    · exact ⟨[], Or.inl ⟨rfl, rfl⟩⟩
    · exact hu
  obtain ⟨names, hnames⟩ := hparams
  obtain ⟨body, k', hbody⟩ := hbody k
  exact ⟨_, k', by simpa using ReadsStmt.routine ht ho hnames hc hb hbody hc'⟩

theorem readable_funDecl (h : Matches Readable (production .funDecl) ts) : Readable .funDecl ts := by
  simp only [production, matches_cons, matches_nil, matches_keyword, matches_rule] at h
  obtain ⟨_, _, ⟨_, rfl, hk⟩, ⟨us, _, hu, rfl, rfl⟩, rfl⟩ := h
  intro b k
  obtain ⟨r, k', hr⟩ := hu k
  exact ⟨_, k', by simpa using ReadsStmt.fun_ (b := b) hk hr⟩

theorem readable_classDecl (h : Matches Readable (production .classDecl) ts) : Readable .classDecl ts := by
  simp only [production, matches_cons, matches_nil, matches_keyword, matches_symbol, matches_ident, matches_opt] at h
  obtain ⟨_, _, ⟨_, rfl, hk⟩, ⟨_, _, ⟨_, _, rfl, ht⟩, ⟨us, _, hu, ⟨_, _, ⟨_, rfl, ho⟩, ⟨vs, _, hv, ⟨_, _, ⟨_, rfl, hc⟩,
    rfl, rfl⟩, rfl⟩, rfl⟩, rfl⟩, rfl⟩, rfl⟩ := h
  intro b k
  have hparent : ∃ parent k₁, ReadsParent parent k us k₁ := by
    rcases hu with rfl | ⟨_, _, ⟨_, rfl, hl⟩, ⟨_, _, ⟨_, _, rfl, hn⟩, rfl, rfl⟩, rfl⟩
    · exact ⟨none, k, .none⟩
    · exact ⟨_, _, .some hl hn⟩
  obtain ⟨parent, k₁, hparent⟩ := hparent
  obtain ⟨rs, k', hrs⟩ := reads_routines hv k₁
  exact ⟨_, k', by simpa using ReadsStmt.class_ (b := b) hk ht hparent ho hrs hc⟩

/-- A statement is read by its first word. -/
theorem readable_statement {b : Bool} (h : Matches Readable (production (.statement b)) ts) :
    Readable (.statement b) ts := by
  obtain ⟨e, hm, h⟩ := matches_choice.mp h
  intro k
  rcases List.mem_append.mp hm with hm | hm
  · simp only [List.mem_cons, List.not_mem_nil, or_false] at hm
    rcases hm with rfl | rfl | rfl | rfl | rfl | rfl | rfl
    · obtain ⟨x, k', hx⟩ := matches_rule.mp h k
      exact ⟨false, x, k', .effect hx⟩
    · exact matches_rule.mp h b k
    · exact matches_rule.mp h k
    · exact matches_rule.mp h b k
    · exact matches_rule.mp h b k
    · exact matches_rule.mp h b k
    · obtain ⟨opening, us, closing, rfl, ho, hc, hbody⟩ := matches_rule.mp h
      obtain ⟨ss, k', hss⟩ := hbody k
      exact ⟨false, _, k', .block ho hss hc⟩
  · cases b with
    | false => cases hm
    | true =>
      simp only [if_true, List.mem_cons, List.not_mem_nil, or_false] at hm
      rcases hm with rfl | rfl
      · exact matches_rule.mp h k
      · exact matches_rule.mp h k

theorem readable_declaration {b : Bool} (h : Matches Readable (production (.declaration b)) ts) :
    Readable (.declaration b) ts := by
  simp only [production, matches_choice, List.mem_cons, List.not_mem_nil, or_false, exists_eq_or_imp, exists_eq_left,
    matches_rule] at h
  intro k
  rcases h with h | h | ⟨keyword, us, rfl, hk, hvar⟩ | h
  · exact h b k
  · exact h b k
  · obtain ⟨x, k', hx⟩ := hvar k
    exact ⟨x, k', .var hk hx⟩
  · obtain ⟨o, x, k', hx⟩ := h k
    exact ⟨x, k', .statement hx⟩

/-- The readable token lists are closed under all productions, so what is derived is read. -/
theorem closed_readable : Closed Readable := by
  intro n ts h
  cases n with
  | program => exact reads_declarations h
  | declaration b => exact readable_declaration h
  | classDecl => exact readable_classDecl h
  | funDecl => exact readable_funDecl h
  | routine => exact readable_routine h
  | parameters => exact readable_parameters h
  | varDecl => exact readable_varDecl h
  | statement b => exact readable_statement h
  | exprStmt => exact readable_exprStmt h
  | forStmt => exact readable_forStmt h
  | ifStmt b => exact readable_ifStmt h
  | printStmt => exact readable_printStmt h
  | returnStmt => exact readable_returnStmt h
  | whileStmt => exact readable_whileStmt h
  | breakStmt => exact readable_breakStmt h
  | continueStmt => exact readable_continueStmt h
  | block b => exact readable_block h
  | level l => exact readable_level h
  | arguments => exact readable_arguments h
  | primary => exact readable_primary h

theorem reads_of_derives (h : Derives .program ts) (k : Int) : ∃ ss k', ReadsStmt (.declarations false ss) k ts k' :=
  h.induct closed_readable k

end Lox.Grammar
