/-
  Lox.Proofs.Grammar.Steps — what the steps of reading do to the state: when each of them
  succeeds, with what, and what it leaves.

  A step takes tokens off the front or leaves them (`acceptAny_ok`, `expect_ok`,
  `expectName_ok`), and what a longer rule gives is what its steps give one after the
  other (`bind_ok`).
-/

import Lox.Grammar

namespace Lox.Grammar

variable {α β : Type}

/-- The first token is none of the terminals. -/
def Avoids (terminals : List Terminal) (ts : List Token) : Prop := ∀ t ∈ ts.head?, t.terminal ∉ terminals

theorem avoids_nil {terminals : List Terminal} : Avoids terminals [] := by simp [Avoids]

theorem avoids_cons {terminals : List Terminal} {t : Token} {ts : List Token} :
    Avoids terminals (t :: ts) ↔ t.terminal ∉ terminals := by simp [Avoids]

theorem avoids_empty {ts : List Token} : Avoids [] ts := by simp [Avoids]

theorem Avoids.mono {as bs : List Terminal} {ts : List Token} (h : Avoids bs ts) (hs : ∀ t ∈ as, t ∈ bs) :
    Avoids as ts := fun t ht hm => h t ht (hs _ hm)

theorem lexeme_eq {t : Token} {terminal : Terminal} (h : t.terminal = terminal) :
    t.lexeme = ⟨terminal.text, t.line⟩ := by rw [Token.lexeme, Token.text, h]

/-! ## Sequences of steps -/

theorem bind_of_ok {p : Parse α} {f : α → Parse β} {s s₁ : State} {a : α} (h : p s = .ok a s₁) :
    (p >>= f) s = f a s₁ := by
  simp only [bind, EStateM.bind, h]

theorem bind_of_error {p : Parse α} {f : α → Parse β} {s s₁ : State} {e : Halt} (h : p s = .error e s₁) :
    (p >>= f) s = .error e s₁ := by
  simp only [bind, EStateM.bind, h]

theorem bind_ok {p : Parse α} {f : α → Parse β} {s s' : State} {b : β} :
    (p >>= f) s = .ok b s' ↔ ∃ a s₁, p s = .ok a s₁ ∧ f a s₁ = .ok b s' := by
  cases hp : p s with
  | ok a s₁ =>
    rw [bind_of_ok hp]
    constructor
    · intro h
      exact ⟨a, s₁, rfl, h⟩
    · rintro ⟨_, _, ⟨⟩, h⟩
      exact h
  | error e s₁ => simp [bind_of_error hp]

theorem pure_ok {s s' : State} {a b : α} : (pure a : Parse α) s = .ok b s' ↔ a = b ∧ s = s' := by
  simp [pure, EStateM.pure]

theorem throw_ne_ok {e : Halt} {s s' : State} {a : α} : ¬ (throw e : Parse α) s = .ok a s' := by
  intro h
  cases h

theorem raise_ne_ok {f : SyntaxFault} {s s' : State} {a : α} : ¬ (raise f : Parse α) s = .ok a s' := by
  simp [raise]

/-! ## Tokens -/

/-- Either the next token is one of these and is passed, or it is not and nothing happens. -/
theorem acceptAny_ok {terminals : List Terminal} {s s' : State} {r : Option Token} :
    acceptAny terminals s = .ok r s' ↔
      (∃ t rest, s.rest = t :: rest ∧ t.terminal ∈ terminals ∧ r = some t ∧ s' = { s with rest }) ∨
      (Avoids terminals s.rest ∧ r = none ∧ s' = s) := by
  unfold acceptAny
  split
  next t rest h =>
    by_cases hm : t.terminal ∈ terminals
    · rw [if_pos hm, h, avoids_cons]
      constructor
      · rintro ⟨⟩
        exact Or.inl ⟨t, rest, rfl, hm, rfl, rfl⟩
      · rintro (⟨_, _, ⟨⟩, -, rfl, rfl⟩ | ⟨hn, -⟩)
        · rfl
        · exact absurd hm hn
    · rw [if_neg hm, h, avoids_cons]
      constructor
      · rintro ⟨⟩
        exact Or.inr ⟨hm, rfl, rfl⟩
      · rintro (⟨_, _, ⟨⟩, hm', -⟩ | ⟨-, rfl, rfl⟩)
        · exact absurd hm' hm
        · rfl
  next h => simp [h, Avoids, eq_comm]

theorem accept_ok {terminal : Terminal} {s s' : State} {r : Option Token} :
    accept terminal s = .ok r s' ↔
      (∃ t rest, s.rest = t :: rest ∧ t.terminal = terminal ∧ r = some t ∧ s' = { s with rest }) ∨
      (Avoids [terminal] s.rest ∧ r = none ∧ s' = s) := by
  simp only [accept, acceptAny_ok, List.mem_singleton]

theorem expect_ok {symbol : Symbol} {role : SymbolRole} {s s' : State} {t : Token} :
    expect symbol role s = .ok t s' ↔
      ∃ rest, s.rest = t :: rest ∧ t.terminal = .symbol symbol ∧ s' = { s with rest } := by
  unfold expect acceptSymbol
  simp only [bind_ok, accept_ok]
  constructor
  · rintro ⟨r, s₁, ⟨t, rest, hr, ht, rfl, rfl⟩ | ⟨-, rfl, rfl⟩, h⟩
    · obtain ⟨rfl, rfl⟩ := pure_ok.mp h
      exact ⟨rest, hr, ht, rfl⟩
    · exact absurd h raise_ne_ok
  · rintro ⟨rest, hr, ht, rfl⟩
    exact ⟨some t, _, Or.inl ⟨t, rest, hr, ht, rfl, rfl⟩, rfl⟩

theorem expectName_ok {role : NameRole} {s s' : State} {name : Lexeme} :
    expectName role s = .ok name s' ↔
      ∃ t rest, s.rest = t :: rest ∧ t.terminal = .ident name.text ∧ name.line = t.line ∧ s' = { s with rest } := by
  unfold expectName
  split
  next text line rest h =>
    constructor
    · rintro ⟨⟩
      exact ⟨_, rest, h, rfl, rfl, rfl⟩
    · rintro ⟨t, rest', h', ht, hl, rfl⟩
      obtain ⟨rfl, rfl⟩ := List.cons.inj (h.symm.trans h')
      obtain ⟨text', line'⟩ := name
      simp only [Terminal.ident.injEq] at ht hl
      subst ht hl
      rfl
  next h =>
    constructor
    · intro h'; exact absurd h' raise_ne_ok
    · rintro ⟨⟨t, line⟩, rest', h', ht, hl, rfl⟩
      cases ht
      exact absurd h' (h _ _ _)

theorem newSlot_ok {s s' : State} {k : Int} :
    newSlot s = .ok k s' ↔ k = s.nextSlot ∧ s' = { s with nextSlot := s.nextSlot + 1 } := by
  simp [newSlot, eq_comm]

theorem peek_bind {f : Option Token → Parse α} {s : State} : (peek >>= f) s = f s.rest.head? s := rfl

theorem skip_bind {f : Unit → Parse α} {s : State} :
    (skip >>= f) s = f () { s with rest := s.rest.tail } := rfl

theorem report_ok {f : SyntaxFault} {s s' : State} {u : Unit} :
    report f s = .ok u s' ↔ s' = s.report (s.fault f) := by
  simp [report, eq_comm]

theorem isNext_ok {terminal : Terminal} {s s' : State} {b : Bool} :
    isNext terminal s = .ok b s' ↔
      ((∃ t rest, s.rest = t :: rest ∧ t.terminal = terminal ∧ b = true) ∨
        (Avoids [terminal] s.rest ∧ b = false)) ∧ s' = s := by
  unfold isNext
  rw [peek_bind]
  cases hr : s.rest with
  | nil => simp [pure_ok, avoids_nil, eq_comm]
  | cons t rest =>
    by_cases ht : t.terminal = terminal
    · simp [pure_ok, avoids_cons, ht, eq_comm]
    · have ht' : ¬ terminal = t.terminal := fun h => ht h.symm
      simp [pure_ok, avoids_cons, ht', eq_comm]

theorem atClose_ok {s s' : State} {b : Bool} :
    atClose s = .ok b s' ↔
      ((∀ t ∈ s.rest.head?, t.terminal = .symbol .rightBrace) ∧ b = true ∨
        (∃ t rest, s.rest = t :: rest ∧ t.terminal ≠ .symbol .rightBrace) ∧ b = false) ∧ s' = s := by
  unfold atClose
  rw [peek_bind]
  cases hr : s.rest with
  | nil => simp [pure_ok, eq_comm]
  | cons t rest =>
    by_cases ht : t.terminal = .symbol .rightBrace <;> simp [pure_ok, ht, eq_comm]

/-! ## Loops and recovery -/

theorem withLoops_ok {before : State → Nat} {after : State → State → Nat} {p : Parse α} {s s' : State} {a : α} :
    withLoops before after p s = .ok a s' ↔
      ∃ s₁, p { s with loops := before s } = .ok a s₁ ∧ s' = { s₁ with loops := after s s₁ } := by
  unfold withLoops
  cases p { s with loops := before s } with
  | ok b s₁ =>
    constructor
    · rintro ⟨⟩
      exact ⟨s₁, rfl, rfl⟩
    · rintro ⟨_, ⟨⟩, rfl⟩
      rfl
  | error e s₁ => simp

theorem checkLoop_ok {t : Token} {f : SyntaxFault} {s s' : State} {u : Unit} :
    checkLoop t f s = .ok u s' ↔ s' = if s.loops = 0 then s.report (fault t f) else s := by
  unfold checkLoop reportAt
  split <;> simp [eq_comm]

/-- Either the rule goes through, or its error is reported and reading goes on where the next
statement may begin. -/
theorem recovering_ok {p : Parse Stmt} {s s' : State} {r : Option Stmt} :
    recovering p s = .ok r s' ↔
      (∃ stmt, p s = .ok stmt s' ∧ r = some stmt) ∨
      ∃ error s₁, p s = .error (.raised error) s₁ ∧ r = none ∧
        s' = { s₁.report error with rest := resume s₁.rest } := by
  unfold recovering
  cases hp : p s with
  | ok stmt s₁ =>
    constructor
    · rintro ⟨⟩
      exact Or.inl ⟨stmt, rfl, rfl⟩
    · rintro (⟨_, ⟨⟩, rfl⟩ | ⟨_, _, ⟨⟩, -⟩)
      rfl
  | error e s₁ =>
    cases e with
    | raised error =>
      constructor
      · rintro ⟨⟩
        exact Or.inr ⟨error, s₁, rfl, rfl, rfl⟩
      · rintro (⟨_, ⟨⟩, -⟩ | ⟨_, _, ⟨⟩, rfl, rfl⟩)
        rfl
    | outOfFuel => simp

end Lox.Grammar
