/-
  Lox.Proofs.Grammar.Operands — the rules for expressions, tracked by the machine of goals.

  An expression of any level takes the machine from a goal for an operand to what may come
  behind one; that no rule of the level goes on is said beside it (`Stops`), for the
  machine knows no levels. Where a whole expression has been read, what may come behind is
  as good as gone. The induction is on the bound on the nesting of rules; what is known of
  every rule at one bound is `ExprTracks`.
-/

import Lox.Proofs.Grammar.Tracked
import Lox.Proofs.Grammar.Sound

namespace Lox.Grammar

/-! ## What comes behind an expression -/

variable {σ τ : List Goal} {rest : List Token}

/-- What may stand behind an operand is an operator of a level that the operand can be joined
at. -/
theorem takes_tail {t : Terminal} {new : List Goal} (h : Goal.tail.takes t = some new) :
    ∃ m : Level, m.rank ≤ Level.assignment.rank ∧ t ∈ m.joins := by
  have h : Goal.ofTail t = some new := h
  unfold Goal.ofTail at h
  split at h
  · exact ⟨.ternary, by decide, by simp [Level.joins]⟩
  · exact ⟨.call, by decide, by simp [Level.joins]⟩
  · exact ⟨.call, by decide, by simp [Level.joins]⟩
  · by_cases hm : t ∈ Goal.infixes
    · simp only [Goal.infixes, List.mem_cons, List.not_mem_nil, or_false] at hm
      rcases hm with rfl | rfl | rfl | rfl | rfl | rfl | rfl | rfl | rfl | rfl | rfl | rfl | rfl
      · exact ⟨.assignment, by decide, by decide⟩
      · exact ⟨.or_, by decide, by decide⟩
      · exact ⟨.and_, by decide, by decide⟩
      · exact ⟨.equality, by decide, by decide⟩
      · exact ⟨.equality, by decide, by decide⟩
      · exact ⟨.comparison, by decide, by decide⟩
      · exact ⟨.comparison, by decide, by decide⟩
      · exact ⟨.comparison, by decide, by decide⟩
      · exact ⟨.comparison, by decide, by decide⟩
      · exact ⟨.term, by decide, by decide⟩
      · exact ⟨.term, by decide, by decide⟩
      · exact ⟨.factor, by decide, by decide⟩
      · exact ⟨.factor, by decide, by decide⟩
    · rw [if_neg hm] at h
      cases h

theorem same_tail (h : Stops .assignment rest) : SameAt rest (.tail :: σ) σ := by
  refine same_empty rfl fun t ht => ?_
  cases htakes : Goal.tail.takes t with
  | none => rfl
  | some new =>
    obtain ⟨m, hm, hj⟩ := takes_tail htakes
    exact absurd hj (avoids_ahead (h m hm) t ht)

theorem same_behind (h : Stops .comma rest) : SameAt rest (.tail :: .commas :: σ) σ :=
  let ⟨hcomma, htail⟩ := (stops_iff (by decide)).mp h
  (same_tail htail).trans (same_awaited rfl (ahead_ne hcomma))

/-! ## One rule at a time -/

/-- The operators and operands that follow the left operand of a chain. -/
def chainPart (l : Level) : Ebnf := .many (.sequence [.choice (l.operators.map .ofTerminal), .level l.tighter])

def entryPart : Ebnf := .many (.sequence [.symbol .comma, .level .assignment])

structure ExprTracks (n : Nat) : Prop where
  call : ∀ σ, Tracks (Avoids unaryOperators) (.operand :: σ) (expression n .call)
    (Matches Loose (.level .call)) (.tail :: σ) (Stops .call)
  expression : ∀ {l}, l ≠ .call → ∀ σ, Tracks (fun _ => True) (.operand :: (l.more ++ σ)) (expression n l)
    (Matches Loose (.level l)) (.tail :: (l.more ++ σ)) (Stops l)
  chain : ∀ l left σ, l.operators ≠ [] → Tracks (Stops l.tighter) (.tail :: (l.more ++ σ)) (chain n l left)
    (Matches Loose (chainPart l)) (.tail :: (l.more ++ σ)) (Stops l)
  suffixes : ∀ e σ, Tracks (fun _ => True) (.tail :: σ) (suffixes n e)
    (Matches Loose (.many suffixPart)) (.tail :: σ) (Stops .call)
  arguments : ∀ σ, Tracks (fun _ => True) (.optional :: .symbol .rightParen :: σ) (arguments n)
    (Matches Loose (.opt (.rule .arguments))) (.symbol .rightParen :: σ) fun _ => True
  moreArguments : ∀ count σ, Tracks (Stops .assignment) (.tail :: .commas :: σ) (moreArguments n count)
    (Matches Loose entryPart) σ fun _ => True
  primary : ∀ σ, Tracks (Avoids unaryOperators) (.operand :: σ) (primary n)
    (Matches Loose (.rule .primary)) (.tail :: σ) fun _ => True

variable {n : Nat}

theorem quiet_assignment {target : Expr} {equals : Token} {value : Expr} : Quiet (assignment target equals value) := by
  have hreport (e : Expr) : Quiet (do reportAt equals .invalidTarget; return e) :=
    Quiet.map (quiet_reportAt fun _ _ => rfl) fun _ => e
  cases target with
  | ref old => exact quiet_newSlot.map _
  | get object name => exact quiet_pure _
  | _ => exact hreport _

theorem tracks_chained (ih : ExprTracks n) {l : Level} (hl : l.operators ≠ []) (σ : List Goal) :
    Tracks (fun _ => True) (.operand :: (l.more ++ σ)) (expression (n + 1) l)
      (Matches Loose (looseProduction (.level l))) (.tail :: (l.more ++ σ)) (Stops l) := by
  have hoperand := ih.expression (tighter_ne_call hl) (l.more ++ σ)
  rw [more_tighter] at hoperand
  rw [looseProduction_chain hl, expression_chain hl]
  refine hoperand.seq (by simp) fun left => ?_
  exact tracks_last (ih.chain l left σ hl)

/-- Each level above calls begins with an operand. -/
theorem tracks_expression (ih : ExprTracks n) {l : Level} (hl : l ≠ .call) (σ : List Goal) :
    Tracks (fun _ => True) (.operand :: (l.more ++ σ)) (expression (n + 1) l)
      (Matches Loose (.level l)) (.tail :: (l.more ++ σ)) (Stops l) := by
  refine tracks_rule ?_
  cases l with
  | assignment =>
    refine (ih.expression (by decide) σ).seq (by simp) fun target => ?_
    refine tracks_option (fun _ _ _ _ => rfl) (fun equals => ?_) ?_
    · exact (ih.expression (by decide) σ).seq spelled_nil fun value => quiet_assignment.tracks
    · exact tracks_done fun _ h => (stops_iff (by decide)).mpr ⟨h.2, h.1⟩
  | ternary =>
    refine (ih.expression (by decide) σ).seq (by simp) fun cond => ?_
    refine tracks_option (fun _ _ _ _ => rfl) (fun question => ?_) ?_
    · refine (ih.expression (by decide) (.symbol .colon :: .operand :: σ)).seq (by simp) fun yes => ?_
      refine (tracks_expect.from (fun _ _ => trivial) fun _ h => same_tail h).seq (by simp) fun colon => ?_
      refine (ih.expression (by decide) σ).seq spelled_nil fun no => ?_
      exact tracks_done fun _ h m hm => h m (Nat.le_trans hm (by decide))
    · exact tracks_done fun _ h => (stops_iff (by decide)).mpr ⟨h.2, h.1⟩
  | unary =>
    refine tracks_acceptAny ?_ fun op hop => ?_
    · refine (ih.call σ).mono (fun _ h => h.2) (fun us hu => ?_) fun _ h => ?_
      · exact .choice (List.mem_cons_of_mem _ (List.mem_cons_self ..)) hu
      · exact (stops_iff (by decide)).mpr ⟨avoids_empty, h⟩
    · have hop : op.terminal = .symbol .bang ∨ op.terminal = .symbol .minus := by simpa [unaryOperators] using hop
      have hsign : Matches Loose (.choice [.symbol .bang, .symbol .minus]) [op] := by
        rcases hop with h | h
        · exact .choice (List.mem_cons_self ..) (matches_symbol_of h)
        · exact .choice (List.mem_cons_of_mem _ (List.mem_cons_self ..)) (matches_symbol_of h)
      refine ⟨.operand :: σ, fun _ _ => by rcases hop with h | h <;> (rw [h]; rfl), ?_⟩
      exact ((tracks_last ((ih.expression (by decide) σ).map _)).behind hsign).words
        fun _ hu => .choice (List.mem_cons_self ..) hu
  | call => exact absurd rfl hl
  | _ => exact tracks_chained ih (by simp [Level.operators]) σ

theorem tracks_call (ih : ExprTracks n) (σ : List Goal) :
    Tracks (Avoids unaryOperators) (.operand :: σ) (expression (n + 1) .call) (Matches Loose (.level .call))
      (.tail :: σ)
      (Stops .call) :=
  tracks_rule ((ih.primary σ).seq (by simp) fun callee => tracks_last (ih.suffixes callee σ))

theorem tracks_chain (ih : ExprTracks n) {l : Level} (hl : l.operators ≠ []) (left : Expr) (σ : List Goal) :
    Tracks (Stops l.tighter) (.tail :: (l.more ++ σ)) (chain (n + 1) l left)
      (Matches Loose (chainPart l)) (.tail :: (l.more ++ σ)) (Stops l) := by
  rw [chain]
  refine tracks_acceptAny ?_ fun op hop => ⟨.operand :: (l.more ++ σ), fun _ _ => meet_operator hop, ?_⟩
  · refine tracks_pure .manyNil (fun _ _ => SameAt.refl _ _) fun _ h => ?_
    exact (stops_iff (Level.ne_call_of_chain hl)).mpr ⟨by rw [Level.joins_of_chain hl]; exact h.2, h.1⟩
  · have hoperand := ih.expression (tighter_ne_call hl) (l.more ++ σ)
    rw [more_tighter] at hoperand
    refine hoperand.bind ⟨[], .manyNil⟩ (fun right => ih.chain l _ σ hl) fun us vs hu hv => ?_
    have hop := Matches.choice (L := Loose) (List.mem_map_of_mem hop) (matches_terminal rfl)
    exact .manyCons (matches_token hop (matches_single.mpr hu)) hv

/-- Behind an operand of a call there are arguments, properties or nothing of it. -/
theorem tracks_suffixes (ih : ExprTracks n) (e : Expr) (σ : List Goal) :
    Tracks (fun _ => True) (.tail :: σ) (suffixes (n + 1) e) (Matches Loose (.many suffixPart)) (.tail :: σ)
      (Stops .call) := by
  rw [suffixes]
  refine tracks_acceptAny ?_ fun t ht => ?_
  · exact tracks_pure .manyNil (fun _ _ => SameAt.refl _ _) fun _ h => stops_call.mpr h.2
  · obtain ⟨terminal, line⟩ := t
    simp only [List.mem_cons, List.not_mem_nil, or_false] at ht
    rcases ht with rfl | rfl
    · refine ⟨.optional :: .symbol .rightParen :: .tail :: σ, fun _ _ => rfl, ?_⟩
      have hcall : Tracks (fun _ => True) (.optional :: .symbol .rightParen :: .tail :: σ)
          (do
            let args ← arguments n
            let paren ← expect .rightParen .afterArguments
            suffixes n (.call e paren.lexeme args))
          (Matches Loose (.sequence ([.opt (.rule .arguments), .symbol .rightParen] ++ [.many suffixPart])))
            (.tail :: σ)
          (Stops .call) := by
        refine (ih.arguments (.tail :: σ)).seq (by simp) fun args => ?_
        refine tracks_expect.seq (by simp) fun paren => ?_
        exact tracks_last (ih.suffixes _ σ)
      refine hcall.words fun us hu => ?_
      obtain ⟨vs, ws, hv, hw, rfl⟩ := matches_append.mp hu
      have hsuffix : Matches Loose suffixPart (⟨.symbol .leftParen, line⟩ :: vs) :=
        .choice (List.mem_cons_self ..) (matches_token (.symbol _ line) hv)
      exact .manyCons hsuffix (matches_single.mp hw)
    · refine ⟨.name :: .tail :: σ, fun _ _ => rfl, ?_⟩
      have hget : Tracks (fun _ => True) (.name :: .tail :: σ)
          (do
            let name ← expectName .property
            suffixes n (.get e name))
          (Matches Loose (.sequence ([.ident] ++ [.many suffixPart]))) (.tail :: σ) (Stops .call) := by
        refine tracks_expectName.seq (by simp) fun name => ?_
        exact tracks_last (ih.suffixes _ σ)
      refine hget.words fun us hu => ?_
      obtain ⟨vs, ws, hv, hw, rfl⟩ := matches_append.mp hu
      have hsuffix : Matches Loose suffixPart (⟨.symbol .dot, line⟩ :: vs) :=
        .choice (List.mem_cons_of_mem _ (List.mem_cons_self ..)) (matches_token (.symbol _ line) hv)
      exact .manyCons hsuffix (matches_single.mp hw)

/-- An expression that may be left out has to come where the symbol behind it does not. -/
theorem same_optional {s : Symbol} (h : ahead rest ≠ some (.symbol s)) :
    SameAt rest (.optional :: .symbol s :: σ) (.operand :: .commas :: .symbol s :: σ) := by
  refine same_begun begins_optional (fun _ => rfl) fun t ht hnone => ?_
  have hopt : Goal.optional.takes t = none := by rw [Goal.takes, show Goal.ofOperand t = none from hnone]; rfl
  rw [meet_skips hopt rfl]
  exact meet_other fun e => h (by rw [ht, e])

theorem same_left_out {s : Symbol} (hs : Goal.ofOperand (.symbol s) = none) (h : ahead rest = some (.symbol s)) :
    SameAt rest (.optional :: σ) σ := by
  refine same_empty rfl fun t ht => ?_
  obtain rfl : .symbol s = t := Option.some.inj (h.symm.trans ht)
  rw [Goal.takes, hs]
  rfl

/-- Behind the opening parenthesis there is an argument or the closing one. -/
theorem tracks_arguments (ih : ExprTracks n) (σ : List Goal) :
    Tracks (fun _ => True) (.optional :: .symbol .rightParen :: σ) (arguments (n + 1))
      (Matches Loose (.opt (.rule .arguments))) (.symbol .rightParen :: σ) fun _ => True := by
  rw [arguments]
  refine tracks_isNext ?_ ?_
  · exact tracks_pure matches_none (fun _ h => same_left_out rfl h.2) fun _ _ => trivial
  · have hlist : Tracks (fun _ => True) (.operand :: .commas :: .symbol .rightParen :: σ)
        (do
          let first ← expression n .assignment
          return first :: (← moreArguments n 1))
        (Matches Loose (.sequence [.level .assignment, entryPart])) (.symbol .rightParen :: σ) fun _ => True := by
      refine (ih.expression (by decide) _).seq (by simp [entryPart]) fun first => ?_
      exact tracks_last ((ih.moreArguments 1 _).map _)
    refine (hlist.from (fun _ _ => trivial) fun _ h => same_optional h.2).words fun us hu => ?_
    exact matches_some (matches_rule.mpr (loose_of_matches hu))

theorem tracks_moreArguments (ih : ExprTracks n) (count : Nat) (σ : List Goal) :
    Tracks (Stops .assignment) (.tail :: .commas :: σ) (moreArguments (n + 1) count) (Matches Loose entryPart) σ
      fun _ => True := by
  rw [moreArguments]
  refine tracks_acceptAny ?_ fun t ht => ?_
  · exact tracks_pure .manyNil (fun _ h => same_behind ((stops_iff (by decide)).mpr ⟨h.2, h.1⟩)) fun _ _ => trivial
  · have ht := List.mem_singleton.mp ht
    have hnext : Tracks (fun _ => True) (.operand :: .commas :: σ)
        (do
          let next ← expression n .assignment
          return next :: (← moreArguments n (count + 1)))
        (fun us => Matches Loose entryPart (t :: us)) σ fun _ => True := by
      have hmore := (ih.moreArguments (count + 1) σ)
      refine (ih.expression (by decide) _).bind ⟨[], .manyNil⟩ (fun next => hmore.map _) fun us vs hu hv => ?_
      exact .manyCons (matches_token (matches_symbol_of ht) (matches_single.mpr hu)) hv
    refine ⟨.operand :: .commas :: σ, fun _ _ => by rw [ht]; rfl, ?_⟩
    exact tracks_reportIf (fun _ _ => rfl) hnext

/-- An operand of one token. -/
theorem tracks_atom {α : Type} {p : Parse α} {t : Token} {e : Ebnf} (hp : Quiet p)
    (hm : meet t.terminal (.operand :: σ) = some (.tail :: σ)) (he : Matches Loose e [t])
    (hmem : e ∈ ([.keyword .true_, .keyword .false_, .keyword .nil, .number, .string, .ident,
      .sequence [.symbol .leftParen, .level .comma, .symbol .rightParen], .keyword .this,
      .sequence [.keyword .super, .symbol .dot, .ident]] : List Ebnf)) :
    Tracks (fun r => r.head? = some t) (.operand :: σ) (skip >>= fun _ => p) (Matches Loose (production .primary))
      (.tail :: σ) fun _ => True := by
  refine tracks_skip hm (hp.tracks.mono (fun _ h => h) (fun us hu => ?_) fun _ _ => trivial)
  rw [matches_nil.mp hu]
  exact .choice hmem he

theorem tracks_group (ih : ExprTracks n) (line : Nat) :
    Tracks (fun r => r.head? = some ⟨.symbol .leftParen, line⟩) (.operand :: σ)
      (do
        skip
        let inner ← expression n .comma
        let _ ← expect .rightParen .afterExpression
        return Expr.group inner)
      (Matches Loose (production .primary)) (.tail :: σ) fun _ => True := by
  have hmeet : meet (some (.symbol .leftParen)) (.operand :: σ) =
      some (.operand :: .commas :: .symbol .rightParen :: .tail :: σ) := rfl
  refine tracks_skip hmeet ?_
  have hinner : Tracks (fun _ => True) (.operand :: .commas :: .symbol .rightParen :: .tail :: σ)
      (do
        let inner ← expression n .comma
        let _ ← expect .rightParen .afterExpression
        return Expr.group inner)
      (Matches Loose (.sequence [.level .comma, .symbol .rightParen])) (.tail :: σ) fun _ => True := by
    refine (ih.expression (by decide) (.symbol .rightParen :: .tail :: σ)).seq (by simp) fun inner => ?_
    exact tracks_last ((tracks_expect.from (fun _ _ => trivial) fun _ h => same_behind h).map _)
  exact (hinner.behind (.symbol .leftParen line)).words fun _ hu => .choice (by simp) hu

/-- A method of the superclass is an operand. -/
theorem tracks_super (t : Token) (ht : t.terminal = .keyword .super) :
    Tracks (fun r => r.head? = some t) (.operand :: σ)
      (do
        skip
        let _ ← expect .dot .afterSuper
        let method ← expectName .superMethod
        return Expr.super ⟨t.lexeme, ← newSlot⟩ method)
      (Matches Loose (production .primary)) (.tail :: σ) fun _ => True := by
  have hmeet : meet t.terminal (.operand :: σ) = some (.symbol .dot :: .name :: .tail :: σ) := by rw [ht]; rfl
  refine tracks_skip hmeet ?_
  have hmethod : Tracks (fun _ => True) (.symbol .dot :: .name :: .tail :: σ)
      (do
        let _ ← expect .dot .afterSuper
        let method ← expectName .superMethod
        return Expr.super ⟨t.lexeme, ← newSlot⟩ method)
      (Matches Loose (.sequence [.symbol .dot, .ident])) (.tail :: σ) fun _ => True := by
    refine tracks_expect.seq (by simp) fun _ => ?_
    refine tracks_expectName.seq (by simp) fun method => ?_
    exact (quiet_newSlot.map _).tracks
  exact (hmethod.behind (matches_keyword_of ht)).words fun _ hu => .choice (by simp) hu

/-- A primary expression is an operand, and any other token is the offending one. -/
theorem tracks_primary (ih : ExprTracks n) (σ : List Goal) :
    Tracks (Avoids unaryOperators) (.operand :: σ) (primary (n + 1)) (Matches Loose (.rule .primary)) (.tail :: σ)
      fun _ => True := by
  have hspelled : ∃ vs, Matches Loose (production .primary) vs := ⟨_, .choice (by simp) (.keyword .nil 0)⟩
  refine tracks_rule (tracks_peek fun o => ?_)
  cases o with
  | none =>
    refine tracks_raise (fun _ _ => rfl) hspelled fun r h => ?_
    rw [List.head?_eq_none_iff.mp h.2]
    rfl
  | some t =>
    obtain ⟨terminal, line⟩ := t
    have hnone (h : Goal.ofOperand terminal = none) :
        Tracks (fun r => Avoids unaryOperators r ∧ r.head? = some ⟨terminal, line⟩) (.operand :: σ)
          (raise .noExpression : Parse Expr) (Matches Loose (production .primary)) (.tail :: σ) fun _ => True := by
      refine tracks_raise (fun _ _ => rfl) hspelled fun r hr => ?_
      rw [ahead, hr.2]
      exact meet_refused h rfl
    have hnext {p : Parse Expr} (h : Tracks (fun r => r.head? = some ⟨terminal, line⟩) (.operand :: σ) p
        (Matches Loose (production .primary)) (.tail :: σ) fun _ => True) :
        Tracks (fun r => Avoids unaryOperators r ∧ r.head? = some ⟨terminal, line⟩) (.operand :: σ) p
          (Matches Loose (production .primary)) (.tail :: σ) fun _ => True :=
      h.mono (fun _ h => h.2) (fun _ h => h) fun _ h => h
    cases terminal with
    | number literal => exact hnext (tracks_atom (quiet_pure _) rfl (.number literal line) (by simp))
    | string text => exact hnext (tracks_atom (quiet_pure _) rfl (.string text line) (by simp))
    | ident name => exact hnext (tracks_atom (quiet_newSlot.map _) rfl (.ident name line) (by simp))
    | keyword k =>
      cases k with
      | false_ | true_ | nil => exact hnext (tracks_atom (quiet_pure _) rfl (.keyword _ line) (by simp))
      | this => exact hnext (tracks_atom (quiet_newSlot.map _) rfl (.keyword _ line) (by simp))
      | super => exact hnext (tracks_super _ rfl)
      | _ => exact hnone rfl
    | symbol s =>
      cases s with
      | leftParen => exact hnext (tracks_group ih line)
      | bang | minus =>
        refine tracks_raise (fun _ _ => rfl) hspelled fun r hr => ?_
        obtain ⟨rest, rfl⟩ := List.head?_eq_some_iff.mp hr.2
        exact absurd (by simp [unaryOperators]) (avoids_cons.mp hr.1)
      | _ => exact hnone rfl

theorem exprTracks (n : Nat) : ExprTracks n := by
  induction n with
  | zero =>
    exact ⟨fun _ => tracks_outOfFuel, fun _ _ => tracks_outOfFuel, fun _ _ _ _ => tracks_outOfFuel,
      fun _ _ => tracks_outOfFuel, fun _ => tracks_outOfFuel, fun _ _ => tracks_outOfFuel,
      fun _ => tracks_outOfFuel⟩
  | succ n ih =>
    exact ⟨tracks_call ih, tracks_expression ih, fun _ left σ hl => tracks_chain ih hl left σ, tracks_suffixes ih,
      tracks_arguments ih, tracks_moreArguments ih, tracks_primary ih⟩

end Lox.Grammar
