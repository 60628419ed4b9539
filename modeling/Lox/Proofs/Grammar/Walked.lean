/-
  Lox.Proofs.Grammar.Walked — the machine of goals accepts every program of the loose
  grammar (`feed_program`).

  `Carries e σ τ`: the words of a right side take the stack `σ` to `τ`. It is put together
  as right sides are, from what the words of the nonterminals do (`Walked`), and the
  productions are closed under it one by one. A statement may leave an `else` to come for
  every `if` at its end, and a stack may have any number of these on it (`Settles`): an
  `else` of the word that belongs to an outer `if` is taken for an inner one then, and
  what is left for it is the same.
-/

import Lox.Proofs.Grammar.Goals
import Lox.Proofs.Grammar.Loose

namespace Lox.Grammar

def Elses (δ : List Goal) : Prop := ∀ g ∈ δ, g = .else_

/-- What the words of a nonterminal do to the goals. -/
def Walked : Languages
  | .level l, ts => ∀ σ, feed ts (.operand :: (l.more ++ σ)) = some (.tail :: (l.more ++ σ))
  | .primary, ts => ∀ σ, feed ts (.operand :: σ) = some (.tail :: σ)
  | .arguments, ts => ∀ σ, feed ts (.operand :: .commas :: σ) = some (.tail :: .commas :: σ)
  | .parameters, ts => ∀ σ, feed ts (.parameters :: σ) = some (.moreParameters :: σ)
  | .routine, ts => ∀ σ, feed ts (.name :: (Goal.signature ++ σ)) = some σ
  | .varDecl, ts =>
    ∀ σ, feed ts (.exactly (.keyword .var) :: .name :: .initializer :: .symbol .semicolon :: σ) = some σ
  | .classDecl, ts | .funDecl, ts => ∀ σ, feed ts (.declaration :: σ) = some σ
  | .exprStmt, ts => ∀ σ, feed ts (.operand :: .commas :: .symbol .semicolon :: σ) = some σ
  | .block _, ts => ∀ σ, feed ts (.symbol .leftBrace :: .declarations :: .symbol .rightBrace :: σ) = some σ
  | .declaration _, ts => ∀ σ, ∃ δ, Elses δ ∧ feed ts (.declaration :: σ) = some (δ ++ σ)
  | .program, ts => ∀ σ, ∃ δ, Elses δ ∧ feed ts (.declarations :: σ) = some (δ ++ .declarations :: σ)
  | _, ts => ∀ σ, ∃ δ, Elses δ ∧ feed ts (.statement :: σ) = some (δ ++ σ)

/-- Every word of `e` leads the goals from `σ` to `τ`. -/
def Carries (e : Ebnf) (σ τ : List Goal) : Prop := ∀ ts, Matches Walked e ts → feed ts σ = some τ

/-- Every word of `e` leads the goals from `σ` to `τ`, but for `else` branches that may still
come. -/
def Settles (e : Ebnf) (σ τ : List Goal) : Prop :=
  ∀ ts, Matches Walked e ts → ∃ δ, Elses δ ∧ feed ts σ = some (δ ++ τ)

variable {e : Ebnf} {es : List Ebnf} {σ τ υ new : List Goal} {g g' : Goal} {ts : List Token}

/-! ## Parts of a right side -/

theorem carries_rule {n : Nonterminal} (h : ∀ ts, Walked n ts → feed ts σ = some τ) : Carries (.rule n) σ τ :=
  fun ts hm => h ts (matches_rule.mp hm)

theorem carries_symbol {s : Symbol} (h : meet (some (.symbol s)) σ = some τ) : Carries (.symbol s) σ τ := by
  intro ts hm
  obtain ⟨t, rfl, ht⟩ := matches_symbol.mp hm
  simp [feed, ht, h]

theorem carries_keyword {k : Keyword} (h : meet (some (.keyword k)) σ = some τ) : Carries (.keyword k) σ τ := by
  intro ts hm
  obtain ⟨t, rfl, ht⟩ := matches_keyword.mp hm
  simp [feed, ht, h]

theorem carries_number (h : ∀ literal, meet (some (.number literal)) σ = some τ) : Carries .number σ τ := by
  intro ts hm
  obtain ⟨t, literal, rfl, ht⟩ := matches_number.mp hm
  simp [feed, ht, h]

theorem carries_string (h : ∀ text, meet (some (.string text)) σ = some τ) : Carries .string σ τ := by
  intro ts hm
  obtain ⟨t, text, rfl, ht⟩ := matches_string.mp hm
  simp [feed, ht, h]

theorem carries_ident (h : ∀ text, meet (some (.ident text)) σ = some τ) : Carries .ident σ τ := by
  intro ts hm
  obtain ⟨t, text, rfl, ht⟩ := matches_ident.mp hm
  simp [feed, ht, h]

theorem carries_nil : Carries (.sequence []) σ σ := by
  intro ts hm
  obtain rfl := matches_nil.mp hm
  rfl

theorem carries_cons (h : Carries e σ τ) (hs : Carries (.sequence es) τ υ) : Carries (.sequence (e :: es)) σ υ := by
  intro ts hm
  obtain ⟨us, vs, hu, hv, rfl⟩ := matches_cons.mp hm
  rw [feed_append, h us hu]
  exact hs vs hv

theorem carries_last (h : Carries e σ τ) : Carries (.sequence [e]) σ τ := carries_cons h carries_nil

/-- The part that may be left out is left out or not. -/
theorem carries_opt (h : Carries (.sequence es) σ τ) (h' : Carries (.sequence (e :: es)) σ τ) :
    Carries (.sequence (.opt e :: es)) σ τ := by
  intro ts hm
  obtain ⟨us, vs, hu, hv, rfl⟩ := matches_cons.mp hm
  rcases matches_opt.mp hu with rfl | hu
  · exact h vs hv
  · exact h' _ (.cons hu hv)

theorem carries_many (h : Carries e σ σ) : Carries (.many e) σ σ := by
  intro ts hm
  obtain ⟨words, hw, rfl⟩ := matches_many.mp hm
  clear hm
  induction words with
  | nil => rfl
  | cons w words ih =>
    rw [List.flatten_cons, feed_append, h w (hw w (by simp))]
    exact ih fun v hv => hw v (by simp [hv])

theorem carries_choice (h : ∀ e ∈ es, Carries e σ τ) : Carries (.choice es) σ τ := by
  intro ts hm
  obtain ⟨e, he, hm⟩ := matches_choice.mp hm
  exact h e he ts hm

theorem carries_or (h : Carries e σ τ) (hs : Carries (.choice es) σ τ) : Carries (.choice (e :: es)) σ τ :=
  carries_choice (List.forall_mem_cons.mpr ⟨h, fun _ he _ hm => hs _ (.choice he hm)⟩)

theorem carries_neither : Carries (.choice []) σ τ := carries_choice (List.forall_mem_nil _)

theorem ne_of_goals : g :: (new ++ σ) ≠ σ := by
  intro h
  have hlen := congrArg List.length h
  simp only [List.length_cons, List.length_append] at hlen
  omega

theorem carries_begun (ho : Begins g new g') (h : Carries e (g :: (new ++ σ)) τ) (hne : g :: (new ++ σ) ≠ τ) :
    Carries e (g' :: σ) τ :=
  fun ts hm => feed_begun ho (by rintro rfl; exact hne (Option.some.inj (h [] hm))) (h ts hm)

/-! ## Expressions -/

theorem carries_level (l : Level) : Carries (.level l) (.operand :: (l.more ++ σ)) (.tail :: (l.more ++ σ)) :=
  carries_rule fun _ h => h σ

/-- Operands of the next level, with the operators of the level between them. -/
theorem carries_chain {l : Level} (hl : l.operators ≠ []) :
    Carries (looseProduction (.level l)) (.operand :: (l.more ++ σ)) (.tail :: (l.more ++ σ)) := by
  have hoperand (σ : List Goal) : Carries (.level l.tighter) (.operand :: σ) (.tail :: σ) := by
    have h := carries_level (σ := σ) l.tighter
    rwa [more_tighter] at h
  rw [looseProduction_chain hl]
  refine carries_cons (hoperand _) (carries_last (carries_many ?_))
  refine carries_cons (carries_choice fun e he => ?_) (carries_last (hoperand _))
  obtain ⟨t, ht, rfl⟩ := List.mem_map.mp he
  intro ts h
  obtain ⟨op, rfl, rfl⟩ := (matches_operator ht).mp h
  simp [feed, meet_operator ht]

theorem carries_entries : Carries (.many (.sequence [.symbol .comma, .level .assignment]))
    (.tail :: .commas :: σ) (.tail :: .commas :: σ) :=
  carries_many (carries_cons (carries_symbol rfl) (carries_last (carries_level .assignment)))

theorem carries_optional : Carries (.level .comma) (.optional :: σ) (.tail :: .commas :: σ) :=
  carries_begun begins_optional (carries_level .comma) (by simp)

theorem carries_suffix : Carries suffixPart (.tail :: σ) (.tail :: σ) := by
  have hlist : Carries (.rule .arguments) (.optional :: .symbol .rightParen :: .tail :: σ)
      (.tail :: .commas :: .symbol .rightParen :: .tail :: σ) :=
    carries_begun begins_optional (carries_rule fun _ h => h _) (by simp)
  have hcall : Carries (.sequence [.symbol .leftParen, .opt (.rule .arguments), .symbol .rightParen])
      (.tail :: σ) (.tail :: σ) := by
    refine carries_cons (carries_symbol (τ := .optional :: .symbol .rightParen :: .tail :: σ) rfl) ?_
    exact carries_opt (carries_last (carries_symbol rfl)) (carries_cons hlist (carries_last (carries_symbol rfl)))
  have hget : Carries (.sequence [.symbol .dot, .ident]) (.tail :: σ) (.tail :: σ) :=
    carries_cons (carries_symbol rfl) (carries_last (carries_ident fun _ => rfl))
  exact carries_or hcall (carries_or hget carries_neither)

/-- An operand at a level leads to where an operator may follow. -/
theorem carries_expression (l : Level) :
    Carries (looseProduction (.level l)) (.operand :: (l.more ++ σ)) (.tail :: (l.more ++ σ)) := by
  cases l with
  | assignment =>
    refine carries_cons (carries_level .or_) (carries_opt carries_nil (carries_last ?_))
    exact carries_cons (carries_symbol rfl) (carries_last (carries_level .assignment))
  | ternary =>
    refine carries_cons (carries_level .equality) (carries_opt carries_nil (carries_last ?_))
    refine carries_cons (carries_symbol (τ := .operand :: .symbol .colon :: .operand :: σ) rfl) ?_
    refine carries_cons (carries_level .assignment) (carries_cons (carries_symbol rfl) ?_)
    exact carries_last (carries_level .assignment)
  | unary =>
    have hsign : Carries (.choice [.symbol .bang, .symbol .minus]) (.operand :: σ) (.operand :: σ) :=
      carries_or (carries_symbol rfl) (carries_or (carries_symbol rfl) carries_neither)
    have hsigned := carries_cons hsign (carries_last (carries_level .unary))
    exact carries_or hsigned (carries_or (carries_level .call) carries_neither)
  | call => exact carries_cons (carries_rule fun _ h => h σ) (carries_last (carries_many carries_suffix))
  | _ => exact carries_chain (by decide)

theorem carries_primary : Carries (production .primary) (.operand :: σ) (.tail :: σ) := by
  have hgroup : Carries (.sequence [.symbol .leftParen, .level .comma, .symbol .rightParen])
      (.operand :: σ) (.tail :: σ) := by
    refine carries_cons (carries_symbol (τ := .operand :: .commas :: .symbol .rightParen :: .tail :: σ) rfl) ?_
    exact carries_cons (carries_level .comma) (carries_last (carries_symbol rfl))
  have hsuper : Carries (.sequence [.keyword .super, .symbol .dot, .ident]) (.operand :: σ) (.tail :: σ) :=
    carries_cons (carries_keyword (τ := .symbol .dot :: .name :: .tail :: σ) rfl)
      (carries_cons (carries_symbol rfl) (carries_last (carries_ident fun _ => rfl)))
  refine carries_or (carries_keyword rfl) (carries_or (carries_keyword rfl) (carries_or (carries_keyword rfl) ?_))
  refine carries_or (carries_number fun _ => rfl) (carries_or (carries_string fun _ => rfl) ?_)
  refine carries_or (carries_ident fun _ => rfl) (carries_or hgroup (carries_or (carries_keyword rfl) ?_))
  exact carries_or hsuper carries_neither

/-! ## Statements -/

variable {δ : List Goal} {b : Bool}

/-- Only an `else` is taken for an `else` that may come. -/
theorem same_elses {rest : List Token} (hδ : Elses δ) (h : ∀ t ∈ ahead rest, t ≠ .keyword .else_) :
    SameAt rest (δ ++ σ) σ := by
  induction δ with
  | nil => exact SameAt.refl rest σ
  | cons g δ ih =>
    obtain ⟨rfl, hrest⟩ := List.forall_mem_cons.mp hδ
    exact (same_awaited rfl fun e => h _ e rfl).trans (ih hrest)

/-- Which of the goals takes an `else` makes no difference. -/
theorem meet_else (hδ : Elses δ) :
    ∃ δ', Elses δ' ∧ meet (some (.keyword .else_)) (δ ++ .else_ :: σ) = some (.statement :: (δ' ++ σ)) := by
  cases δ with
  | nil => exact ⟨[], List.forall_mem_nil _, rfl⟩
  | cons g δ =>
    obtain ⟨rfl, hrest⟩ := List.forall_mem_cons.mp hδ
    refine ⟨δ ++ [.else_], List.forall_mem_append.mpr ⟨hrest, by simp⟩, ?_⟩
    rw [List.append_assoc]
    rfl

theorem Carries.settles (h : Carries e σ τ) : Settles e σ τ := fun ts hm => ⟨[], List.forall_mem_nil _, h ts hm⟩

theorem settles_statement : Settles (.rule (.statement b)) (.statement :: σ) σ :=
  fun _ hm => matches_rule.mp hm σ

theorem settles_cons (h : Carries e σ τ) (hs : Settles (.sequence es) τ υ) : Settles (.sequence (e :: es)) σ υ := by
  intro ts hm
  obtain ⟨us, vs, hu, hv, rfl⟩ := matches_cons.mp hm
  rw [feed_append, h us hu]
  exact hs vs hv

theorem settles_last (h : Settles e σ τ) : Settles (.sequence [e]) σ τ :=
  fun ts hm => h ts (matches_single.mp hm)

theorem settles_opt (h : Settles (.sequence es) σ τ) (h' : Settles (.sequence (e :: es)) σ τ) :
    Settles (.sequence (.opt e :: es)) σ τ := by
  intro ts hm
  obtain ⟨us, vs, hu, hv, rfl⟩ := matches_cons.mp hm
  rcases matches_opt.mp hu with rfl | hu
  · exact h vs hv
  · exact h' _ (.cons hu hv)

theorem settles_or (h : Settles e σ τ) (hs : Settles (.choice es) σ τ) : Settles (.choice (e :: es)) σ τ := by
  intro ts hm
  obtain ⟨f, hf, hword⟩ := matches_choice.mp hm
  rcases List.mem_cons.mp hf with rfl | hf
  · exact h ts hword
  · exact hs ts (.choice hf hword)

/-- The branches of an `if`. -/
theorem settles_branches :
    Settles (.sequence [.rule (.statement b), .opt (.sequence [.keyword .else_, .rule (.statement b)])])
      (.statement :: .else_ :: σ) σ := by
  intro ts hm
  obtain ⟨us, vs, hu, hv, rfl⟩ := matches_cons.mp hm
  obtain ⟨δ, hδ, hrun⟩ := settles_statement us hu
  rw [feed_append, hrun]
  rcases matches_opt.mp (matches_single.mp hv) with rfl | hv
  · exact ⟨δ ++ [.else_], List.forall_mem_append.mpr ⟨hδ, by simp⟩, by simp [feed]⟩
  · obtain ⟨ws, xs, hw, hx, rfl⟩ := matches_cons.mp hv
    obtain ⟨t, rfl, ht⟩ := matches_keyword.mp hw
    obtain ⟨δ', hδ', hmeet⟩ := meet_else (σ := σ) hδ
    obtain ⟨δ₂, hδ₂, hrun₂⟩ := settles_statement (σ := δ' ++ σ) xs (matches_single.mp hx)
    refine ⟨δ₂ ++ δ', List.forall_mem_append.mpr ⟨hδ₂, hδ'⟩, ?_⟩
    simp only [Option.bind_some, List.singleton_append, feed, ht, hmeet, hrun₂, List.append_assoc]

theorem ne_nil_of_settled (hg : g ≠ .else_) (hδ : Elses δ) (h : feed ts (g :: σ) = some (δ ++ σ)) : ts ≠ [] := by
  rintro rfl
  have h : [g] = δ := List.append_cancel_right (Option.some.inj h)
  exact hg (hδ g (by simp [← h]))

/-- No declaration starts with an `else`. -/
theorem declaration_starts (h : feed ts (.declaration :: σ) = some τ) : ∀ t ∈ ahead ts, t ≠ .keyword .else_ := by
  cases ts with
  | nil => simp
  | cons t ts =>
    intro u hu ht
    have hu : t.terminal = u := Option.some.inj hu
    have hnone : meet (some t.terminal) (.declaration :: σ) = none := by rw [hu, ht]; rfl
    rw [feed, hnone] at h
    cases h

/-- Behind declarations there may be more of them, but for an `else` that may still come. -/
theorem settles_declarations : Settles (.many (.rule (.declaration b))) (.declarations :: σ) (.declarations :: σ) := by
  intro ts hm
  obtain ⟨words, hw, rfl⟩ := matches_many.mp hm
  -- The declarations before may have left goals for an `else`, so the induction is over any of these.
  have hall : ∀ δ, Elses δ → ∃ δ', Elses δ' ∧
      feed words.flatten (δ ++ .declarations :: σ) = some (δ' ++ .declarations :: σ) := by
    clear hm
    induction words with
    | nil => exact fun δ hδ => ⟨δ, hδ, rfl⟩
    | cons w words ih =>
      intro δ hδ
      obtain ⟨δ', hδ', hrun⟩ := matches_rule.mp (hw w (by simp)) (.declarations :: σ)
      obtain ⟨δ₂, hδ₂, hrest⟩ := ih (fun v hv => hw v (by simp [hv])) δ' hδ'
      have hne : w ≠ [] := ne_nil_of_settled (by simp) hδ' hrun
      have hsame : SameAt (w ++ []) (δ ++ .declarations :: σ) (.declarations :: σ) :=
        same_elses hδ (by rw [List.append_nil]; exact declaration_starts hrun)
      have hdecl : feed w (.declarations :: σ) = some (δ' ++ .declarations :: σ) :=
        feed_begun begins_declarations hne hrun
      refine ⟨δ₂, hδ₂, ?_⟩
      rw [List.flatten_cons, feed_append, feed_same hsame hne, hdecl]
      exact hrest
  exact hall [] (List.forall_mem_nil _)

theorem carries_body : Carries (.sequence [.many (.rule (.declaration b)), .symbol .rightBrace])
    (.declarations :: .symbol .rightBrace :: σ) σ := by
  intro ts hm
  obtain ⟨us, vs, hu, hv, rfl⟩ := matches_cons.mp hm
  obtain ⟨δ, hδ, hrun⟩ := settles_declarations us hu
  obtain ⟨t, rfl, ht⟩ := matches_symbol.mp (matches_single.mp hv)
  have hsame : SameAt ([t] ++ []) (δ ++ .declarations :: .symbol .rightBrace :: σ)
      (.declarations :: .symbol .rightBrace :: σ) := same_elses hδ (by simp [ht])
  rw [feed_append, hrun, Option.bind_some, feed_same hsame (by simp)]
  simp only [feed, ht]
  rfl

/-! ## The productions -/

theorem carries_routine : Carries (production .routine) (.name :: (Goal.signature ++ σ)) σ := by
  have hbody : Carries (.rule (.block false)) (.symbol .leftBrace :: .declarations :: .symbol .rightBrace :: σ) σ :=
    carries_rule fun _ h => h σ
  have hclose : Carries (.sequence [.symbol .rightParen, .rule (.block false)])
      (.moreParameters :: .symbol .rightParen :: .symbol .leftBrace :: .declarations :: .symbol .rightBrace :: σ) σ :=
    carries_cons (carries_symbol rfl) (carries_last hbody)
  refine carries_cons (carries_ident fun _ => rfl) (carries_cons (carries_symbol rfl) ?_)
  refine carries_opt (carries_cons (carries_symbol rfl) (carries_last hbody)) (carries_cons ?_ hclose)
  exact carries_rule fun _ h => h _

theorem carries_parameters : Carries (looseProduction .parameters) (.parameters :: σ) (.moreParameters :: σ) := by
  refine carries_cons (carries_ident fun _ => rfl) (carries_last (carries_many ?_))
  exact carries_cons (carries_symbol (τ := .name :: .moreParameters :: σ) rfl)
    (carries_last (carries_ident fun _ => rfl))

theorem carries_classDecl : Carries (production .classDecl) (.declaration :: σ) σ := by
  have hmethod : Carries (.rule .routine) (.methods :: .symbol .rightBrace :: σ)
    (.methods :: .symbol .rightBrace :: σ) :=
    carries_begun begins_methods (carries_rule fun _ h => h _) (by simp)
  have hbody : Carries (.sequence [.symbol .leftBrace, .many (.rule .routine), .symbol .rightBrace])
      (.symbol .leftBrace :: .methods :: .symbol .rightBrace :: σ) σ :=
    carries_cons (carries_symbol rfl) (carries_cons (carries_many hmethod) (carries_last (carries_symbol rfl)))
  refine carries_cons (carries_keyword rfl) (carries_cons (carries_ident fun _ => rfl) (carries_opt ?_ ?_))
  · exact carries_cons (carries_symbol rfl) (carries_cons (carries_many hmethod) (carries_last (carries_symbol rfl)))
  · refine carries_cons ?_ hbody
    exact carries_cons (carries_symbol rfl) (carries_last (carries_ident fun _ => rfl))

theorem carries_varDecl : Carries (production .varDecl)
    (.exactly (.keyword .var) :: .name :: .initializer :: .symbol .semicolon :: σ) σ := by
  refine carries_cons (carries_keyword rfl) (carries_cons (carries_ident fun _ => rfl) (carries_opt ?_ ?_))
  · exact carries_last (carries_symbol rfl)
  · refine carries_cons (carries_cons (carries_symbol rfl) (carries_last (carries_level .comma))) ?_
    exact carries_last (carries_symbol rfl)

theorem carries_exprStmt : Carries (production .exprStmt) (.operand :: .commas :: .symbol .semicolon :: σ) σ :=
  carries_cons (carries_level .comma) (carries_last (carries_symbol rfl))

/-- An expression in parentheses, and what follows. -/
theorem settles_test (hs : Settles (.sequence es) τ σ) :
    Settles (.sequence (.symbol .leftParen :: .level .comma :: .symbol .rightParen :: es))
      (.symbol .leftParen :: .operand :: .commas :: .symbol .rightParen :: τ) σ :=
  settles_cons (carries_symbol rfl) (settles_cons (carries_level .comma) (settles_cons (carries_symbol rfl) hs))

/-- A clause of a `for` loop, and what follows. -/
theorem settles_clause {s : Symbol} (hnone : meet (some (.symbol s)) (.optional :: .symbol s :: τ) = some τ)
    (hsome : meet (some (.symbol s)) (.tail :: .commas :: .symbol s :: τ) = some τ)
    (hs : Settles (.sequence es) τ σ) :
    Settles (.sequence (.opt (.level .comma) :: .symbol s :: es)) (.optional :: .symbol s :: τ) σ :=
  settles_opt (settles_cons (carries_symbol hnone) hs)
    (settles_cons carries_optional (settles_cons (carries_symbol hsome) hs))

theorem carries_firstClause :
    Carries (.choice [.rule .varDecl, .rule .exprStmt, .symbol .semicolon]) (.firstClause :: σ) σ := by
  have hbegins : Begins (.exactly (.keyword .var)) [.name, .initializer, .symbol .semicolon] .firstClause :=
    begins_exactly rfl
  have hvar : Carries (.rule .varDecl) (.firstClause :: σ) σ :=
    carries_begun hbegins (carries_rule fun _ h => h σ) ne_of_goals
  have hexpr : Carries (.rule .exprStmt) (.firstClause :: σ) σ :=
    carries_begun begins_firstClause (carries_rule fun _ h => h σ) ne_of_goals
  exact carries_or hvar (carries_or hexpr (carries_or (carries_symbol rfl) carries_neither))

theorem settles_forStmt : Settles (production .forStmt) (.statement :: σ) σ := by
  refine settles_cons (carries_keyword rfl) (settles_cons (carries_symbol rfl) (settles_cons carries_firstClause ?_))
  exact settles_clause rfl rfl (settles_clause rfl rfl (settles_last settles_statement))

theorem settles_alternatives : Settles (looseProduction (.statement b)) (.statement :: σ) σ := by
  have hexpr : Carries (.rule .exprStmt) (.statement :: σ) σ :=
    carries_begun begins_statement (carries_rule fun _ h => h σ) ne_of_goals
  have hbegins : Begins (.symbol .leftBrace) [.declarations, .symbol .rightBrace] .statement := begins_exactly rfl
  have hblock : Carries (.rule (.block true)) (.statement :: σ) σ :=
    carries_begun hbegins (carries_rule fun _ h => h σ) ne_of_goals
  have hrule {n : Nonterminal} (h : ∀ ts, Walked n ts → ∃ δ, Elses δ ∧ feed ts (.statement :: σ) = some (δ ++ σ)) :
      Settles (.rule n) (.statement :: σ) σ := fun ts hm => h ts (matches_rule.mp hm)
  refine settles_or hexpr.settles (settles_or (hrule fun _ h => h σ) (settles_or (hrule fun _ h => h σ) ?_))
  refine settles_or (hrule fun _ h => h σ) (settles_or (hrule fun _ h => h σ) (settles_or (hrule fun _ h => h σ) ?_))
  refine settles_or hblock.settles (settles_or (hrule fun _ h => h σ) (settles_or (hrule fun _ h => h σ) ?_))
  exact carries_neither.settles

theorem settles_declaration : Settles (production (.declaration b)) (.declaration :: σ) σ := by
  have hbegins : Begins (.exactly (.keyword .var)) [.name, .initializer, .symbol .semicolon] .declaration :=
    begins_exactly rfl
  have hvar : Carries (.rule .varDecl) (.declaration :: σ) σ :=
    carries_begun hbegins (carries_rule fun _ h => h σ) ne_of_goals
  have hother : Settles (.rule (.statement b)) (.declaration :: σ) σ := by
    intro ts hm
    obtain ⟨δ, hδ, hrun⟩ := settles_statement ts hm
    exact ⟨δ, hδ, feed_begun begins_declaration (ne_nil_of_settled (by simp) hδ hrun) hrun⟩
  have hclass : Carries (.rule .classDecl) (.declaration :: σ) σ := carries_rule fun _ h => h σ
  have hfun : Carries (.rule .funDecl) (.declaration :: σ) σ := carries_rule fun _ h => h σ
  exact settles_or hclass.settles (settles_or hfun.settles (settles_or hvar.settles
    (settles_or hother carries_neither.settles)))

/-- What the goals lead through is closed under the productions, so every word of the grammar is
walked. -/
theorem walked_closed : LooselyClosed Walked := by
  intro n ts h
  cases n with
  | level l => exact fun σ => carries_expression l ts h
  | primary => exact fun σ => carries_primary ts h
  | arguments => exact fun σ => carries_cons (carries_level .assignment) (carries_last carries_entries) ts h
  | parameters => exact fun σ => carries_parameters ts h
  | routine => exact fun σ => carries_routine ts h
  | varDecl => exact fun σ => carries_varDecl ts h
  | classDecl => exact fun σ => carries_classDecl ts h
  | funDecl =>
    have hfun (σ : List Goal) : Carries (production .funDecl) (.declaration :: σ) σ :=
      carries_cons (carries_keyword rfl) (carries_last (carries_rule fun _ h => h σ))
    exact fun σ => hfun σ ts h
  | exprStmt => exact fun σ => carries_exprStmt ts h
  | block b =>
    have hblock (σ : List Goal) : Carries (production (.block b))
        (.symbol .leftBrace :: .declarations :: .symbol .rightBrace :: σ) σ :=
      carries_cons (carries_symbol rfl) carries_body
    exact fun σ => hblock σ ts h
  | program => exact fun σ => settles_declarations ts h
  | declaration b => exact fun σ => settles_declaration ts h
  | statement b => exact fun σ => settles_alternatives ts h
  | forStmt => exact fun σ => settles_forStmt ts h
  | ifStmt b =>
    exact fun σ => settles_cons (carries_keyword rfl) (settles_test settles_branches) ts h
  | whileStmt =>
    exact fun σ => settles_cons (carries_keyword rfl) (settles_test (settles_last settles_statement)) ts h
  | printStmt =>
    exact fun σ => settles_cons (carries_keyword rfl) carries_exprStmt.settles ts h
  | returnStmt =>
    exact fun σ => settles_cons (carries_keyword rfl) (settles_clause rfl rfl carries_nil.settles) ts h
  | breakStmt | continueStmt =>
    exact fun σ => settles_cons (carries_keyword rfl) (carries_last (carries_symbol rfl)).settles ts h

/-- What is left when a program has been taken is nothing that has to come. -/
theorem feed_program {b : Bool} {ts : List Token} (h : Matches Loose (.many (.rule (.declaration b))) ts) :
    ∃ τ, feed ts [.declarations] = some τ ∧ meet none τ = some [] := by
  have h : Matches Walked (.many (.rule (.declaration b))) ts := h.mono fun _ _ hd => hd.induct walked_closed
  obtain ⟨δ, hδ, hrun⟩ := settles_declarations (σ := []) ts h
  have hsame : SameAt [] (δ ++ [.declarations]) [.declarations] := same_elses hδ (by simp)
  exact ⟨_, hrun, hsame⟩

end Lox.Grammar
