/-
  Lox.Proofs.Grammar.Progress — reading always ends, within the bound on the nesting of
  rules that it is given.

  `Lasts p s Q`: run from `s`, `p` does not use up its bound; it gives a result of which
  `Q` holds or raises an error, and either way the tokens left are the last of those at
  `s`, as many loops are around as before and no slot is given back (`Later`). Between two rules that take a
  token at most a fixed number of others is entered, so a bound of so many times the
  tokens left, and the rank of the rule, is enough (`exprLasts`, `stmtLasts`). A
  declaration takes at least one token even when it is given up (`declaration_ends`),
  and a program raises nothing (`program_ends`).
-/

import Lox.Proofs.Grammar.Follow

namespace Lox.Grammar

variable {α β : Type} {s s' : State}

/-- Tokens are only taken from the front, the count of loops is as before, and slots only grow. -/
def Later (s s' : State) : Prop :=
  s'.rest <:+ s.rest ∧ s'.loops = s.loops ∧ s'.endLine = s.endLine ∧ s.nextSlot ≤ s'.nextSlot

theorem Later.refl (s : State) : Later s s := ⟨List.suffix_refl _, rfl, rfl, Int.le_refl _⟩

theorem Later.trans {s₁ s₂ s₃ : State} (h : Later s₁ s₂) (h' : Later s₂ s₃) : Later s₁ s₃ :=
  ⟨h'.1.trans h.1, h'.2.1.trans h.2.1, h'.2.2.1.trans h.2.2.1, Int.le_trans h.2.2.2 h'.2.2.2⟩

theorem Later.length (h : Later s s') : s'.rest.length ≤ s.rest.length := h.1.length_le

theorem later_rest {rest : List Token} (h : rest <:+ s.rest) : Later s { s with rest } :=
  ⟨h, rfl, rfl, Int.le_refl _⟩

theorem later_tail {t : Token} {rest : List Token} (h : s.rest = t :: rest) : Later s { s with rest } :=
  later_rest (h ▸ List.suffix_cons t rest)

/-- The bound is not spent, and whether or not the part fails, it goes on from there. -/
def Lasts (p : Parse α) (s : State) (Q : α → State → Prop) : Prop :=
  match p s with
  | .ok a s' => Later s s' ∧ Q a s'
  | .error (.raised _) s' => Later s s'
  | .error .outOfFuel _ => False

/-! ## Sequences of steps -/

theorem lasts_ok {p : Parse α} {a : α} {Q : α → State → Prop} (h : p s = .ok a s') (hl : Later s s') (hq : Q a s') :
    Lasts p s Q := by
  simp only [Lasts, h]
  exact ⟨hl, hq⟩

theorem lasts_pure {a : α} {Q : α → State → Prop} (h : Q a s) : Lasts (pure a) s Q :=
  lasts_ok rfl (Later.refl s) h

theorem lasts_raise {f : SyntaxFault} {Q : α → State → Prop} : Lasts (raise f) s Q := Later.refl s

theorem Lasts.mono {p : Parse α} {Q R : α → State → Prop} (h : Lasts p s Q)
    (hqr : ∀ a s', Later s s' → Q a s' → R a s') : Lasts p s R := by
  simp only [Lasts] at h ⊢
  split
  next a s' hp => rw [hp] at h; exact ⟨h.1, hqr a s' h.1 h.2⟩
  next hp => rw [hp] at h; exact h
  next hp => rw [hp] at h; exact h

theorem Lasts.ok {p : Parse α} {a : α} {Q : α → State → Prop} (h : Lasts p s Q) (hp : p s = .ok a s') : Q a s' := by
  rw [Lasts, hp] at h
  exact h.2

theorem Lasts.ends {p : Parse α} {Q : α → State → Prop} (h : Lasts p s Q) : Lasts p s fun _ _ => True :=
  h.mono fun _ _ _ _ => trivial

/-- The bound suffices for two parts if it suffices for each with what the first one leaves. -/
theorem Lasts.bind {p : Parse α} {f : α → Parse β} {Q : α → State → Prop} {R : β → State → Prop}
    (h : Lasts p s Q) (hf : ∀ a s₁, Later s s₁ → Q a s₁ → Lasts (f a) s₁ R) : Lasts (p >>= f) s R := by
  simp only [Lasts] at h ⊢
  cases hp : p s with
  | ok a s₁ =>
    rw [hp] at h
    have hfa := hf a s₁ h.1 h.2
    simp only [Lasts] at hfa
    rw [bind_of_ok hp]
    cases hr : f a s₁ with
    | ok b s₂ => rw [hr] at hfa; exact ⟨h.1.trans hfa.1, hfa.2⟩
    | error e s₂ =>
      rw [hr] at hfa
      cases e with
      | raised d => exact h.1.trans hfa
      | outOfFuel => exact hfa
  | error e s₁ =>
    rw [hp] at h
    rw [bind_of_error hp]
    cases e with
    | raised d => exact h
    | outOfFuel => exact h

/-! ## Single steps -/

/-- A token is taken, or nothing happens. -/
theorem lasts_acceptAny {terminals : List Terminal} :
    Lasts (acceptAny terminals) s fun r s' =>
      (r = none ∧ s' = s) ∨ ∃ t, r = some t ∧ t.terminal ∈ terminals ∧ s'.rest.length < s.rest.length := by
  cases hr : s.rest with
  | nil =>
    refine lasts_ok (acceptAny_ok.mpr (Or.inr ⟨?_, rfl, rfl⟩)) (Later.refl s) (Or.inl ⟨rfl, rfl⟩)
    rw [hr]; exact avoids_nil
  | cons t rest =>
    by_cases ht : t.terminal ∈ terminals
    · refine lasts_ok (acceptAny_ok.mpr (Or.inl ⟨t, rest, hr, ht, rfl, rfl⟩)) (later_tail hr) (Or.inr ⟨t, rfl, ht, ?_⟩)
      simp
    · refine lasts_ok (acceptAny_ok.mpr (Or.inr ⟨?_, rfl, rfl⟩)) (Later.refl s) (Or.inl ⟨rfl, rfl⟩)
      rw [hr]; exact avoids_cons.mpr ht

theorem lasts_expect {symbol : Symbol} {role : SymbolRole} :
    Lasts (expect symbol role) s fun _ s' => s'.rest.length < s.rest.length := by
  unfold expect acceptSymbol accept
  refine lasts_acceptAny.bind fun r s₁ _ hr => ?_
  rcases hr with ⟨rfl, rfl⟩ | ⟨t, rfl, -, hlt⟩
  · exact lasts_raise
  · exact lasts_pure hlt

theorem lasts_expectName {role : NameRole} :
    Lasts (expectName role) s fun _ s' => s'.rest.length < s.rest.length := by
  cases hr : s.rest with
  | nil => simp [Lasts, expectName, hr, raise, Later.refl]
  | cons t rest =>
    obtain ⟨terminal, line⟩ := t
    cases terminal with
    | ident name =>
      have h : expectName role s = .ok ⟨name, line⟩ { s with rest } :=
        expectName_ok.mpr ⟨_, rest, hr, rfl, rfl, rfl⟩
      exact lasts_ok h (later_tail hr) (by simp)
    | _ => simp [Lasts, expectName, hr, raise, Later.refl]

theorem lasts_newSlot : Lasts newSlot s fun _ s' => s'.rest = s.rest :=
  lasts_ok rfl ⟨List.suffix_refl _, rfl, rfl, by simp only; omega⟩ rfl

theorem lasts_report {f : SyntaxFault} : Lasts (report f) s fun _ s' => s'.rest = s.rest :=
  lasts_ok rfl ⟨List.suffix_refl _, rfl, rfl, Int.le_refl _⟩ rfl

theorem lasts_reportAt {t : Token} {f : SyntaxFault} : Lasts (reportAt t f) s fun _ s' => s'.rest = s.rest :=
  lasts_ok rfl ⟨List.suffix_refl _, rfl, rfl, Int.le_refl _⟩ rfl

theorem lasts_checkLoop {t : Token} {f : SyntaxFault} : Lasts (checkLoop t f) s fun _ s' => s'.rest = s.rest := by
  by_cases hl : s.loops = 0
  · have h : checkLoop t f s = .ok () (s.report (fault t f)) := checkLoop_ok.mpr (if_pos hl).symm
    exact lasts_ok h ⟨List.suffix_refl _, rfl, rfl, Int.le_refl _⟩ rfl
  · have h : checkLoop t f s = .ok () s := checkLoop_ok.mpr (if_neg hl).symm
    exact lasts_ok h (Later.refl s) rfl

theorem lasts_peek {f : Option Token → Parse α} {Q : α → State → Prop} (h : Lasts (f s.rest.head?) s Q) :
    Lasts (peek >>= f) s Q := h

theorem lasts_isNext {terminal : Terminal} : Lasts (isNext terminal) s fun _ s' => s' = s := by
  refine lasts_peek ?_
  cases s.rest.head? with
  | none => exact lasts_pure rfl
  | some t => exact lasts_pure rfl

theorem lasts_atClose : Lasts atClose s fun b s' => s' = s ∧ (b = false → s.rest ≠ []) := by
  refine lasts_peek ?_
  cases hr : s.rest with
  | nil => exact lasts_pure ⟨rfl, fun h => nomatch h⟩
  | cons t rest => exact lasts_pure ⟨rfl, fun _ => List.cons_ne_nil t rest⟩

theorem lasts_skip (h : s.rest ≠ []) : Lasts skip s fun _ s' => s'.rest.length < s.rest.length := by
  cases hr : s.rest with
  | nil => exact absurd hr h
  | cons t rest =>
    refine lasts_ok rfl (later_rest (List.tail_suffix _)) ?_
    simp [hr]

/-! ## Expressions -/

structure ExprLasts (n : Nat) : Prop where
  expression : ∀ {l s}, 32 * s.rest.length + l.rank + 3 ≤ n → Lasts (expression n l) s fun _ _ => True
  chain : ∀ {l e s}, 32 * s.rest.length + 1 ≤ n → Lasts (chain n l e) s fun _ _ => True
  suffixes : ∀ {e s}, 32 * s.rest.length + 1 ≤ n → Lasts (suffixes n e) s fun _ _ => True
  arguments : ∀ {s}, 32 * s.rest.length + 14 ≤ n → Lasts (arguments n) s fun _ _ => True
  moreArguments : ∀ {count s}, 32 * s.rest.length + 1 ≤ n → Lasts (moreArguments n count) s fun _ _ => True
  primary : ∀ {s}, 32 * s.rest.length + 1 ≤ n → Lasts (primary n) s fun _ _ => True

variable {n : Nat}

theorem lasts_assignment {target : Expr} {equals : Token} {value : Expr} :
    Lasts (assignment target equals value) s fun _ _ => True := by
  cases target with
  | ref old => exact lasts_newSlot.bind fun _ _ _ _ => lasts_pure trivial
  | get object name => exact lasts_pure trivial
  | _ => exact lasts_reportAt.bind fun _ _ _ _ => lasts_pure trivial

/-- A level needs its rank of the bound, and thirty-two for each token that is left. -/
theorem lasts_expression (ih : ExprLasts n) {l : Level} (h : 32 * s.rest.length + l.rank + 3 ≤ n + 1) :
    Lasts (expression (n + 1) l) s fun _ _ => True := by
  cases l with
  | assignment =>
    simp only [Level.rank] at h
    rw [expression]
    refine (ih.expression (by simp only [Level.rank]; omega)).bind fun target s₁ h₁ _ => ?_
    refine lasts_acceptAny.bind fun r s₂ h₂ hr => ?_
    have := h₁.length
    rcases hr with ⟨rfl, rfl⟩ | ⟨t, rfl, -, hlt⟩
    · exact lasts_pure trivial
    · refine (ih.expression (by simp only [Level.rank]; omega)).bind fun _ _ _ _ => lasts_assignment
  | ternary =>
    simp only [Level.rank] at h
    rw [expression]
    refine (ih.expression (by simp only [Level.rank]; omega)).bind fun cond s₁ h₁ _ => ?_
    refine lasts_acceptAny.bind fun r s₂ h₂ hr => ?_
    have := h₁.length
    rcases hr with ⟨rfl, rfl⟩ | ⟨t, rfl, -, hlt⟩
    · exact lasts_pure trivial
    · refine (ih.expression (by simp only [Level.rank]; omega)).bind fun yes s₃ h₃ _ => ?_
      refine lasts_expect.bind fun _ s₄ h₄ _ => ?_
      have := h₃.length
      have := h₄.length
      refine (ih.expression (by simp only [Level.rank]; omega)).bind fun no s₅ h₅ _ => lasts_pure trivial
  | unary =>
    simp only [Level.rank] at h
    rw [expression]
    refine lasts_acceptAny.bind fun r s₂ h₂ hr => ?_
    rcases hr with ⟨rfl, rfl⟩ | ⟨t, rfl, -, hlt⟩
    · exact ih.expression (by simp only [Level.rank]; omega)
    · exact (ih.expression (by simp only [Level.rank]; omega)).bind fun _ _ _ _ => lasts_pure trivial
  | call =>
    simp only [Level.rank] at h
    rw [expression]
    refine (ih.primary (by omega)).bind fun callee s₁ h₁ _ => ?_
    have := h₁.length
    exact ih.suffixes (by omega)
  | _ =>
    simp only [Level.rank] at h
    refine (ih.expression (by simp only [Level.rank, Level.tighter]; omega)).bind fun left s₁ h₁ _ => ?_
    have := h₁.length
    exact ih.chain (by omega)

theorem lasts_chain (ih : ExprLasts n) {l : Level} {e : Expr} (h : 32 * s.rest.length + 1 ≤ n + 1) :
    Lasts (chain (n + 1) l e) s fun _ _ => True := by
  rw [chain]
  refine lasts_acceptAny.bind fun r s₁ h₁ hr => ?_
  rcases hr with ⟨rfl, rfl⟩ | ⟨t, rfl, -, hlt⟩
  · exact lasts_pure trivial
  · have hrank : l.tighter.rank ≤ 10 := by cases l <;> decide
    refine (ih.expression (by omega)).bind fun right s₂ h₂ _ => ?_
    have := h₂.length
    exact ih.chain (by omega)

/-- Every suffix passes a token. -/
theorem lasts_suffixes (ih : ExprLasts n) {e : Expr} (h : 32 * s.rest.length + 1 ≤ n + 1) :
    Lasts (suffixes (n + 1) e) s fun _ _ => True := by
  rw [suffixes]
  refine lasts_acceptAny.bind fun r s₁ h₁ hr => ?_
  rcases hr with ⟨rfl, rfl⟩ | ⟨⟨terminal, line⟩, rfl, ht, hlt⟩
  · exact lasts_pure trivial
  · simp only [List.mem_cons, List.not_mem_nil, or_false] at ht
    rcases ht with rfl | rfl
    · refine (ih.arguments (by omega)).bind fun args s₂ h₂ _ => ?_
      refine lasts_expect.bind fun paren s₃ h₃ _ => ?_
      have := h₂.length
      have := h₃.length
      exact ih.suffixes (by omega)
    · refine lasts_expectName.bind fun name s₂ h₂ _ => ?_
      have := h₂.length
      exact ih.suffixes (by omega)

theorem lasts_arguments (ih : ExprLasts n) (h : 32 * s.rest.length + 14 ≤ n + 1) :
    Lasts (arguments (n + 1)) s fun _ _ => True := by
  rw [arguments]
  refine lasts_isNext.bind fun b s₁ _ hs => ?_
  subst hs
  cases b with
  | true => exact lasts_pure trivial
  | false =>
    refine (ih.expression (by simp only [Level.rank]; omega)).bind fun first s₂ h₂ _ => ?_
    have := h₂.length
    exact (ih.moreArguments (by omega)).bind fun _ _ _ _ => lasts_pure trivial

theorem lasts_moreArguments (ih : ExprLasts n) {count : Nat} (h : 32 * s.rest.length + 1 ≤ n + 1) :
    Lasts (moreArguments (n + 1) count) s fun _ _ => True := by
  rw [moreArguments]
  refine lasts_acceptAny.bind fun r s₁ h₁ hr => ?_
  rcases hr with ⟨rfl, rfl⟩ | ⟨t, rfl, -, hlt⟩
  · exact lasts_pure trivial
  · have hnext : ∀ s₂ : State, s₂.rest = s₁.rest → Lasts (do
        let next ← expression n .assignment
        return next :: (← moreArguments n (count + 1)) : Parse (List Expr)) s₂ fun _ _ => True := by
      intro s₂ hs
      refine (ih.expression (by simp only [Level.rank, hs]; omega)).bind fun next s₃ h₃ _ => ?_
      have := h₃.length
      rw [hs] at this
      exact (ih.moreArguments (by omega)).bind fun _ _ _ _ => lasts_pure trivial
    by_cases hcount : mostArguments ≤ count
    · simp only [if_pos hcount]
      exact lasts_report.bind fun _ s₂ _ hs => hnext s₂ hs
    · simp only [if_neg hcount]
      exact hnext s₁ rfl

/-- A primary expression passes its first token before it calls on other levels. -/
theorem lasts_primary (ih : ExprLasts n) (h : 32 * s.rest.length + 1 ≤ n + 1) :
    Lasts (primary (n + 1)) s fun _ _ => True := by
  rw [primary]
  refine lasts_peek ?_
  cases hr : s.rest with
  | nil => exact lasts_raise
  | cons t rest =>
    have hne : s.rest ≠ [] := hr ▸ List.cons_ne_nil t rest
    simp only [List.head?_cons]
    split
    case h_7 =>
      refine (lasts_skip hne).bind fun _ s₁ _ _ => ?_
      refine lasts_expect.bind fun _ s₂ _ _ => ?_
      refine lasts_expectName.bind fun _ s₃ _ _ => ?_
      exact lasts_newSlot.bind fun _ _ _ _ => lasts_pure trivial
    case h_9 =>
      refine (lasts_skip hne).bind fun _ s₁ _ hlt => ?_
      refine (ih.expression (by simp only [Level.rank]; omega)).bind fun inner s₂ _ _ => ?_
      exact lasts_expect.bind fun _ _ _ _ => lasts_pure trivial
    case h_10 => exact lasts_raise
    case h_6 | h_8 =>
      refine (lasts_skip hne).bind fun _ s₁ _ _ => ?_
      exact lasts_newSlot.bind fun _ _ _ _ => lasts_pure trivial
    all_goals exact (lasts_skip hne).bind fun _ _ _ _ => lasts_pure trivial

theorem exprLasts (n : Nat) : ExprLasts n := by
  induction n with
  | zero => constructor <;> intros <;> omega
  | succ n ih =>
    exact ⟨lasts_expression ih, lasts_chain ih, lasts_suffixes ih, lasts_arguments ih, lasts_moreArguments ih,
      lasts_primary ih⟩

/-! ## Simple statements -/

/-- At least one token is taken. -/
def Takes (s : State) {α : Type} (_ : α) (s' : State) : Prop := s'.rest.length < s.rest.length

theorem Lasts.takes {p : Parse α} {s₀ : State} (h : Lasts p s fun _ _ => True)
    (hs : s.rest.length < s₀.rest.length) : Lasts p s (Takes s₀) :=
  h.mono fun _ _ hl _ => Nat.lt_of_le_of_lt hl.length hs

theorem lasts_comma (h : 32 * s.rest.length + 13 ≤ n) : Lasts (expression n .comma) s fun _ _ => True :=
  (exprLasts n).expression h

theorem lasts_optionalUnless {terminal : Terminal} (h : 32 * s.rest.length + 13 ≤ n) :
    Lasts (optionalUnless n terminal) s fun _ _ => True := by
  refine lasts_isNext.bind fun b s₁ _ hs => ?_
  subst hs
  cases b with
  | true => exact lasts_pure trivial
  | false => exact (lasts_comma h).bind fun _ _ _ _ => lasts_pure trivial

/-- An end of the rule at a symbol that has to stand there. -/
theorem lasts_closed {symbol : Symbol} {role : SymbolRole} {f : Token → Parse α} {s₀ : State}
    (h : s.rest.length ≤ s₀.rest.length) (hf : ∀ t s₁, Lasts (f t) s₁ fun _ _ => True) :
    Lasts (expect symbol role >>= f) s (Takes s₀) :=
  lasts_expect.bind fun t s₁ _ hlt => (hf t s₁).takes (Nat.lt_of_lt_of_le hlt h)

theorem lasts_variable (h : 32 * s.rest.length ≤ n) : Lasts (variable_ n) s (Takes s) := by
  refine lasts_expectName.bind fun name s₁ _ hlt => Lasts.takes ?_ hlt
  refine lasts_acceptAny.bind fun r s₂ _ hr => ?_
  rcases hr with ⟨rfl, rfl⟩ | ⟨t, rfl, -, hlt'⟩
  · exact lasts_expect.bind fun _ _ _ _ => lasts_pure trivial
  · refine (lasts_comma (by omega)).bind fun _ s₃ _ _ => ?_
    exact lasts_expect.bind fun _ _ _ _ => lasts_pure trivial

theorem lasts_printed (h : 32 * s.rest.length + 13 ≤ n) : Lasts (printed n) s (Takes s) :=
  (lasts_comma h).bind fun _ _ hl _ => lasts_closed hl.length fun _ _ => lasts_pure trivial

theorem lasts_expressionStatement (h : 32 * s.rest.length + 13 ≤ n) :
    Lasts (expressionStatement n) s (Takes s) :=
  (lasts_comma h).bind fun _ _ hl _ => lasts_closed hl.length fun _ _ => lasts_pure trivial

theorem lasts_returned {keyword : Token} (h : 32 * s.rest.length + 13 ≤ n) :
    Lasts (returned n keyword) s (Takes s) :=
  (lasts_optionalUnless h).bind fun _ _ hl _ => lasts_closed hl.length fun _ _ => lasts_pure trivial

theorem lasts_broken {keyword : Token} : Lasts (broken keyword) s (Takes s) :=
  lasts_checkLoop.bind fun _ _ hl _ => lasts_closed hl.length fun _ _ => lasts_pure trivial

theorem lasts_continued {keyword : Token} : Lasts (continued keyword) s (Takes s) :=
  lasts_checkLoop.bind fun _ _ hl _ => lasts_closed hl.length fun _ _ => lasts_pure trivial

theorem lasts_moreParameters {count : Nat} (h : 32 * s.rest.length + 1 ≤ n) :
    Lasts (moreParameters n count) s fun _ _ => True := by
  induction n generalizing count s with
  | zero => omega
  | succ n ih =>
    rw [moreParameters]
    refine lasts_acceptAny.bind fun r s₁ h₁ hr => ?_
    rcases hr with ⟨rfl, rfl⟩ | ⟨t, rfl, -, hlt⟩
    · exact lasts_pure trivial
    · have hnext : ∀ s₂ : State, s₂.rest = s₁.rest → Lasts (do
          let next ← expectName .parameter
          return next :: (← moreParameters n (count + 1)) : Parse (List Lexeme)) s₂ fun _ _ => True := by
        intro s₂ hs
        refine lasts_expectName.bind fun next s₃ _ hlt' => ?_
        rw [hs] at hlt'
        exact (ih (by omega)).bind fun _ _ _ _ => lasts_pure trivial
      by_cases hcount : mostArguments ≤ count
      · simp only [if_pos hcount]
        exact lasts_report.bind fun _ s₂ _ hs => hnext s₂ hs
      · simp only [if_neg hcount]
        exact hnext s₁ rfl

theorem lasts_parameters (h : 32 * s.rest.length + 1 ≤ n) : Lasts (parameters n) s fun _ _ => True := by
  refine lasts_isNext.bind fun b s₁ _ hs => ?_
  subst hs
  cases b with
  | true => exact lasts_pure trivial
  | false =>
    refine lasts_expectName.bind fun first s₂ _ hlt => ?_
    exact (lasts_moreParameters (by omega)).bind fun _ _ _ _ => lasts_pure trivial

theorem lasts_superclass : Lasts superclass s fun _ _ => True := by
  refine lasts_acceptAny.bind fun r s₁ _ hr => ?_
  rcases hr with ⟨rfl, rfl⟩ | ⟨t, rfl, -, -⟩
  · exact lasts_pure trivial
  · refine lasts_expectName.bind fun name s₂ _ _ => ?_
    exact lasts_newSlot.bind fun _ _ _ _ => lasts_pure trivial

theorem lasts_forInitializer (h : 32 * s.rest.length + 13 ≤ n) : Lasts (forInitializer n) s fun _ _ => True := by
  refine lasts_acceptAny.bind fun r s₁ _ hr => ?_
  rcases hr with ⟨rfl, rfl⟩ | ⟨t, rfl, -, -⟩
  · refine lasts_acceptAny.bind fun r s₂ _ hr => ?_
    rcases hr with ⟨rfl, rfl⟩ | ⟨t, rfl, -, hlt⟩
    · exact (lasts_expressionStatement h).bind fun _ _ _ _ => lasts_pure trivial
    · exact (lasts_variable (by omega)).bind fun _ _ _ _ => lasts_pure trivial
  · exact lasts_pure trivial

/-! ## Statements and declarations -/

/-- The body of a loop, where the count of loops is higher. -/
theorem lasts_inLoop {p : Parse Stmt}
    (h : Lasts p { s with loops := s.loops + 1 } fun _ _ => True) : Lasts (inLoop p) s fun _ _ => True := by
  simp only [Lasts, inLoop, withLoops] at h ⊢
  cases hp : p { s with loops := s.loops + 1 } with
  | ok a s₁ =>
    rw [hp] at h
    obtain ⟨⟨hr, hl, he⟩, -⟩ := h
    exact ⟨⟨hr, by rw [hl]; rfl, he⟩, trivial⟩
  | error e s₁ =>
    rw [hp] at h
    cases e with
    | raised d =>
      obtain ⟨hr, hl, he⟩ := h
      exact ⟨hr, by rw [hl]; rfl, he⟩
    | outOfFuel => exact h

theorem lasts_inRoutine {p : Parse α} (h : Lasts p { s with loops := 0 } fun _ _ => True) :
    Lasts (inRoutine p) s fun _ _ => True := by
  simp only [Lasts, inRoutine, withLoops] at h ⊢
  cases hp : p { s with loops := 0 } with
  | ok a s₁ =>
    rw [hp] at h
    exact ⟨⟨h.1.1, rfl, h.1.2.2⟩, trivial⟩
  | error e s₁ =>
    rw [hp] at h
    cases e with
    | raised d => exact ⟨h.1, rfl, h.2.2⟩
    | outOfFuel => exact h

theorem resume_suffix (ts : List Token) : resume ts <:+ ts := by
  induction ts using resume.induct with
  | case1 => exact List.suffix_refl _
  | case2 t => exact List.nil_suffix
  | case3 t next rest h => rw [resume, if_pos h]; exact List.suffix_cons t _
  | case4 t next rest h ih => rw [resume, if_neg h]; exact ih.trans (List.suffix_cons t _)

/-- A declaration that is given up has taken the token at which it failed, if there was one. -/
theorem lasts_recovering {p : Parse Stmt} (hs : s.rest ≠ []) (h : Lasts p s (Takes s)) :
    Lasts (recovering p) s (Takes s) := by
  simp only [Lasts, recovering] at h ⊢
  cases hp : p s with
  | ok x s₁ => rw [hp] at h; exact h
  | error e s₁ =>
    rw [hp] at h
    cases e with
    | raised d =>
      refine ⟨⟨(resume_suffix _).trans h.1, h.2⟩, ?_⟩
      show (resume s₁.rest).length < s.rest.length
      cases hr : s₁.rest with
      | nil => exact List.length_pos_iff.mpr hs
      | cons t rest =>
        have := resume_length t rest
        have hle := Later.length h
        rw [hr, List.length_cons] at hle
        omega
    | outOfFuel => exact h

structure StmtLasts (n : Nat) : Prop where
  declaration : ∀ {s}, s.rest ≠ [] → 32 * s.rest.length + 17 ≤ n → Lasts (declaration n) s (Takes s)
  declarations : ∀ {s}, 32 * s.rest.length + 18 ≤ n → Lasts (declarations n) s fun _ _ => True
  block : ∀ {s}, 32 * s.rest.length + 19 ≤ n → Lasts (block n) s fun _ _ => True
  routine : ∀ {kind s}, 32 * s.rest.length + 1 ≤ n → Lasts (routine n kind) s (Takes s)
  class_ : ∀ {s}, 32 * s.rest.length + 1 ≤ n → Lasts (class_ n) s fun _ _ => True
  methods : ∀ {s}, 32 * s.rest.length + 2 ≤ n → Lasts (methods n) s fun _ _ => True
  statement : ∀ {s}, 32 * s.rest.length + 15 ≤ n → Lasts (statement n) s (Takes s)
  conditional : ∀ {s}, 32 * s.rest.length + 1 ≤ n → Lasts (conditional n) s fun _ _ => True
  while_ : ∀ {s}, 32 * s.rest.length + 1 ≤ n → Lasts (while_ n) s fun _ _ => True
  for_ : ∀ {s}, 32 * s.rest.length + 1 ≤ n → Lasts (for_ n) s fun _ _ => True

theorem lasts_declaration (ih : StmtLasts n) (hs : s.rest ≠ []) (h : 32 * s.rest.length + 17 ≤ n + 1) :
    Lasts (declaration (n + 1)) s (Takes s) := by
  rw [declaration]
  refine lasts_recovering hs ?_
  refine lasts_acceptAny.bind fun r s₁ _ hr => ?_
  rcases hr with ⟨rfl, rfl⟩ | ⟨⟨terminal, line⟩, rfl, ht, hlt⟩
  · exact ih.statement (by omega)
  · refine Lasts.takes ?_ hlt
    simp only [List.mem_cons, List.not_mem_nil, or_false] at ht
    rcases ht with rfl | rfl | rfl
    · exact ih.class_ (by omega)
    · exact (ih.routine (by omega)).bind fun _ _ _ _ => lasts_pure trivial
    · exact (lasts_variable (by omega)).ends

theorem lasts_declarations (ih : StmtLasts n) (h : 32 * s.rest.length + 18 ≤ n + 1) :
    Lasts (declarations (n + 1)) s fun _ _ => True := by
  rw [declarations]
  refine lasts_atClose.bind fun b s₁ _ hb => ?_
  obtain ⟨rfl, hne⟩ := hb
  cases b with
  | true => exact lasts_pure trivial
  | false =>
    refine (ih.declaration (hne rfl) (by omega)).bind fun r s₂ _ hlt => ?_
    have hlt : s₂.rest.length < s₁.rest.length := hlt
    cases r with
    | some x => exact (ih.declarations (by omega)).bind fun _ _ _ _ => lasts_pure trivial
    | none => exact ih.declarations (by omega)

theorem lasts_block (ih : StmtLasts n) (h : 32 * s.rest.length + 19 ≤ n + 1) :
    Lasts (block (n + 1)) s fun _ _ => True := by
  rw [block]
  refine (ih.declarations (by omega)).bind fun _ _ _ _ => ?_
  exact lasts_expect.bind fun _ _ _ _ => lasts_pure trivial

theorem lasts_routine (ih : StmtLasts n) {kind : RoutineKind} (h : 32 * s.rest.length + 1 ≤ n + 1) :
    Lasts (routine (n + 1) kind) s (Takes s) := by
  rw [routine]
  refine lasts_expectName.bind fun name s₁ _ hlt => Lasts.takes ?_ hlt
  refine lasts_expect.bind fun _ s₂ _ hlt₂ => ?_
  refine (lasts_parameters (by omega)).bind fun params s₃ h₃ _ => ?_
  refine lasts_expect.bind fun _ s₄ _ hlt₄ => ?_
  refine lasts_expect.bind fun _ s₅ _ hlt₅ => ?_
  have := h₃.length
  have hbody : Lasts (block n) { s₅ with loops := 0 } fun _ _ => True := ih.block (by simp only; omega)
  exact (lasts_inRoutine hbody).bind fun _ _ _ _ => lasts_pure trivial

theorem lasts_class (ih : StmtLasts n) (h : 32 * s.rest.length + 1 ≤ n + 1) :
    Lasts (class_ (n + 1)) s fun _ _ => True := by
  rw [class_]
  refine lasts_expectName.bind fun name s₁ _ hlt => ?_
  refine lasts_superclass.bind fun parent s₂ h₂ _ => ?_
  refine lasts_expect.bind fun _ s₃ h₃ _ => ?_
  have := h₂.length
  have := h₃.length
  refine (ih.methods (by omega)).bind fun members s₄ _ _ => ?_
  exact lasts_expect.bind fun _ _ _ _ => lasts_pure trivial

theorem lasts_methods (ih : StmtLasts n) (h : 32 * s.rest.length + 2 ≤ n + 1) :
    Lasts (methods (n + 1)) s fun _ _ => True := by
  rw [methods]
  refine lasts_atClose.bind fun b s₁ _ hb => ?_
  obtain ⟨rfl, -⟩ := hb
  cases b with
  | true => exact lasts_pure trivial
  | false =>
    refine (ih.routine (by omega)).bind fun first s₂ _ hlt => ?_
    have hlt : s₂.rest.length < s₁.rest.length := hlt
    exact (ih.methods (by omega)).bind fun _ _ _ _ => lasts_pure trivial

/-- A statement passes a token, or the error is at the one that it found. -/
theorem lasts_statement (ih : StmtLasts n) (h : 32 * s.rest.length + 15 ≤ n + 1) :
    Lasts (statement (n + 1)) s (Takes s) := by
  rw [statement]
  refine lasts_acceptAny.bind fun r s₁ _ hr => ?_
  rcases hr with ⟨rfl, rfl⟩ | ⟨t, rfl, ht, hlt⟩
  · exact lasts_expressionStatement (by omega)
  · simp only [statementStarts, List.mem_cons, List.not_mem_nil, or_false] at ht
    rcases ht with ht | ht | ht | ht | ht | ht | ht | ht
    all_goals simp only [ht]
    · exact (lasts_printed (by omega)).ends.takes hlt
    · exact Lasts.takes ((ih.block (by omega)).bind fun _ _ _ _ => lasts_pure trivial) hlt
    · exact (ih.conditional (by omega)).takes hlt
    · exact (ih.while_ (by omega)).takes hlt
    · exact (ih.for_ (by omega)).takes hlt
    · exact (lasts_returned (by omega)).ends.takes hlt
    · exact lasts_broken.ends.takes hlt
    · exact lasts_continued.ends.takes hlt

theorem lasts_conditional (ih : StmtLasts n) (h : 32 * s.rest.length + 1 ≤ n + 1) :
    Lasts (conditional (n + 1)) s fun _ _ => True := by
  rw [conditional]
  refine lasts_expect.bind fun _ s₁ _ hlt => ?_
  refine (lasts_comma (by omega)).bind fun test s₂ h₂ _ => ?_
  refine lasts_expect.bind fun _ s₃ h₃ _ => ?_
  have := h₂.length
  have := h₃.length
  refine (ih.statement (by omega)).bind fun yes s₄ h₄ _ => ?_
  refine lasts_acceptAny.bind fun r s₅ h₅ hr => ?_
  have := h₄.length
  have := h₅.length
  rcases hr with ⟨rfl, rfl⟩ | ⟨t, rfl, -, -⟩
  · exact lasts_pure trivial
  · exact (ih.statement (by omega)).bind fun _ _ _ _ => lasts_pure trivial

theorem lasts_while (ih : StmtLasts n) (h : 32 * s.rest.length + 1 ≤ n + 1) :
    Lasts (while_ (n + 1)) s fun _ _ => True := by
  rw [while_]
  refine lasts_expect.bind fun _ s₁ _ hlt => ?_
  refine (lasts_comma (by omega)).bind fun test s₂ h₂ _ => ?_
  refine lasts_expect.bind fun _ s₃ h₃ _ => ?_
  have := h₂.length
  have := h₃.length
  have hbody := (ih.statement (s := { s₃ with loops := s₃.loops + 1 }) (by simp only; omega)).ends
  exact (lasts_inLoop hbody).bind fun _ _ _ _ => lasts_pure trivial

theorem lasts_for (ih : StmtLasts n) (h : 32 * s.rest.length + 1 ≤ n + 1) :
    Lasts (for_ (n + 1)) s fun _ _ => True := by
  rw [for_]
  refine lasts_expect.bind fun _ s₁ _ hlt => ?_
  refine (lasts_forInitializer (by omega)).bind fun init s₂ h₂ _ => ?_
  have := h₂.length
  refine (lasts_optionalUnless (by omega)).bind fun test s₃ h₃ _ => ?_
  have := h₃.length
  refine lasts_expect.bind fun _ s₄ _ hlt₄ => ?_
  refine (lasts_optionalUnless (by omega)).bind fun step s₅ h₅ _ => ?_
  have := h₅.length
  refine lasts_expect.bind fun _ s₆ _ hlt₆ => ?_
  have hbody := (ih.statement (s := { s₆ with loops := s₆.loops + 1 }) (by simp only; omega)).ends
  exact (lasts_inLoop hbody).bind fun _ _ _ _ => lasts_pure trivial

theorem stmtLasts (n : Nat) : StmtLasts n := by
  induction n with
  | zero => constructor <;> intros <;> omega
  | succ n ih =>
    exact ⟨lasts_declaration ih, lasts_declarations ih, lasts_block ih, lasts_routine ih, lasts_class ih,
      lasts_methods ih, lasts_statement ih, lasts_conditional ih, lasts_while ih, lasts_for ih⟩

/-! ## Programs -/

theorem declaration_ne_raised {d : Diagnostic} : declaration n s ≠ .error (.raised d) s' := by
  cases n with
  | zero => intro h; cases h
  | succ n =>
    rw [declaration, recovering]
    split
    · intro h; cases h
    · intro h; cases h
    · intro h; cases h

/-- Not at the end, a declaration ends, read or given up, and takes at least one token. -/
theorem declaration_ends (hs : s.rest ≠ []) (h : 32 * s.rest.length + 17 ≤ n) :
    ∃ r s', declaration n s = .ok r s' ∧ Later s s' ∧ s'.rest.length < s.rest.length := by
  have hlasts := (stmtLasts n).declaration hs h
  simp only [Lasts] at hlasts
  cases hd : declaration n s with
  | ok r s' =>
    rw [hd] at hlasts
    exact ⟨r, s', rfl, hlasts.1, hlasts.2⟩
  | error e s' =>
    cases e with
    | raised d => exact absurd hd declaration_ne_raised
    | outOfFuel =>
      rw [hd] at hlasts
      exact hlasts.elim

/-- With thirty-two of the bound for each token, reading a program comes to an end. -/
theorem program_ends (h : 32 * s.rest.length + 18 ≤ n) :
    ∃ ss s', program n s = .ok ss s' ∧ s.nextSlot ≤ s'.nextSlot := by
  induction n generalizing s with
  | zero => omega
  | succ n ih =>
    rw [program, peek_bind]
    cases hr : s.rest with
    | nil => exact ⟨[], s, rfl, Int.le_refl _⟩
    | cons t rest =>
      obtain ⟨r, s₁, hd, hlater, hlt⟩ := declaration_ends (n := n) (hr ▸ List.cons_ne_nil t rest) (by omega)
      obtain ⟨ss, s', hss, hslot⟩ := ih (s := s₁) (by omega)
      have hslots := Int.le_trans hlater.2.2.2 hslot
      simp only [List.head?_cons]
      rw [bind_of_ok hd]
      cases r with
      | some x => exact ⟨x :: ss, s', bind_of_ok hss, hslots⟩
      | none => exact ⟨ss, s', hss, hslots⟩

end Lox.Grammar
