/-
  Lox.Proofs.Grammar.Follow — the terminals that a rule takes in behind a complete
  operand, and so cannot come behind a phrase that it has read.

  `Stops l ts`: no rule for level `l` or a tighter one goes on at the front of `ts`. A
  phrase that ends in a ternary has read its last branch as an assignment, and what may
  come behind is what may come behind that (`Settled`).
-/

import Lox.Proofs.Grammar.Reading
import Lox.Proofs.Grammar.Steps

namespace Lox.Grammar

namespace Level

/-- From the tightest level up. -/
def rank : Level → Nat
  | call => 0
  | unary => 1
  | factor => 2
  | term => 3
  | comparison => 4
  | equality => 5
  | ternary => 6
  | and_ => 7
  | or_ => 8
  | assignment => 9
  | comma => 10

/-- What the rule of a level takes in behind an operand. -/
def joins : Level → List Terminal
  | call => [.symbol .leftParen, .symbol .dot]
  | ternary => [.symbol .question]
  | assignment => [.symbol .equal]
  | l => l.operators

theorem rank_tighter {l : Level} (h : l ≠ call) : l.tighter.rank + 1 = l.rank := by
  cases l <;> first | rfl | exact absurd rfl h

theorem rank_injective {l m : Level} (h : l.rank = m.rank) : l = m := by
  cases l <;> cases m <;> first | rfl | cases h

theorem joins_of_chain {l : Level} (h : l.operators ≠ []) : l.joins = l.operators := by
  cases l <;> first | rfl | exact absurd rfl h

theorem ne_call_of_chain {l : Level} (h : l.operators ≠ []) : l ≠ call := by
  rintro rfl; exact h rfl

end Level

/-- No operator of the level, or of a tighter one, goes on with these tokens. -/
def Stops (l : Level) (ts : List Token) : Prop := ∀ m : Level, m.rank ≤ l.rank → Avoids m.joins ts

theorem stops_iff {l : Level} (h : l ≠ .call) {ts : List Token} :
    Stops l ts ↔ Avoids l.joins ts ∧ Stops l.tighter ts := by
  have hr := Level.rank_tighter h
  constructor
  · intro hs
    exact ⟨hs l (Nat.le_refl _), fun m hm => hs m (by omega)⟩
  · rintro ⟨ha, hs⟩ m hm
    by_cases e : m.rank = l.rank
    · rw [Level.rank_injective e]; exact ha
    · exact hs m (by omega)

theorem stops_call {ts : List Token} : Stops .call ts ↔ Avoids Level.call.joins ts := by
  constructor
  · intro hs; exact hs .call (Nat.le_refl _)
  · intro ha m hm
    rw [Level.rank_injective (m := .call) (Nat.le_zero.mp hm)]; exact ha

theorem Stops.tighter {l : Level} {ts : List Token} (h : Stops l ts) : Stops l.tighter ts := by
  by_cases hl : l = .call
  · subst hl; exact h
  · exact ((stops_iff hl).mp h).2

/-- The tokens may come behind the expression, read at the level. -/
def Settled (l : Level) (e : Expr) (ts : List Token) : Prop :=
  Stops l ts ∧ (e.endsInTernary = true → Stops .assignment ts)

theorem Settled.tighter {l : Level} {e : Expr} {ts : List Token} (h : Settled l e ts) : Settled l.tighter e ts :=
  ⟨h.1.tighter, h.2⟩

theorem endsInTernary_join (l : Level) (left : Expr) (op : Lexeme) (right : Expr) :
    (l.join left op right).endsInTernary = right.endsInTernary := by
  cases l <;> rfl

/-! ## Phrases of the tightest level -/

/-- No operator stands outside of parentheses. -/
def isPostfix : Expr → Bool
  | .unary .. | .binary .. | .logical .. | .ternary .. | .assign .. | .set .. => false
  | _ => true

theorem isPostfix_join (l : Level) (left : Expr) (op : Lexeme) (right : Expr) :
    isPostfix (l.join left op right) = false := by
  cases l <;> rfl

theorem readsExpr_call {l : Level} {k k' : Int} {ts : List Token} {e : Expr} (h : ReadsExpr (.level l e) k ts k')
    (he : isPostfix e = true) : ReadsExpr (.level .call e) k ts k' := by
  generalize hp : Phrase.level l e = p at h
  induction h generalizing l with
  | atom h => cases hp; exact .atom h
  | get h hd ht => cases hp; exact .get h hd ht
  | callEmpty h ho hc => cases hp; exact .callEmpty h ho hc
  | call h ho ha hl hc => cases hp; exact .call h ho ha hl hc
  | chain => cases hp; rw [isPostfix_join] at he; cases he
  | operand _ _ ih => cases hp; exact ih rfl
  | unary | ternary | assign | set => cases hp; cases he
  | _ => cases hp

/-- The readings of the tightest level, by what stands last. -/
theorem call_cases {k k' : Int} {ts : List Token} {e : Expr} (h : ReadsExpr (.level .call e) k ts k') :
    ReadsExpr (.primary e) k ts k' ∨
    (∃ o us dot t name, e = .get o ⟨name, t.line⟩ ∧ ts = us ++ [dot, t] ∧ ReadsExpr (.level .call o) k us k' ∧
      dot.terminal = .symbol .dot ∧ t.terminal = .ident name) ∨
    ∃ f paren es, e = .call f paren es := by
  generalize hp : Phrase.level .call e = p at h
  cases h with
  | atom h => cases hp; exact Or.inl h
  | get h hd ht => cases hp; exact Or.inr (Or.inl ⟨_, _, _, _, _, rfl, rfl, h, hd, ht⟩)
  | callEmpty => cases hp; exact Or.inr (Or.inr ⟨_, _, _, rfl⟩)
  | call => cases hp; exact Or.inr (Or.inr ⟨_, _, _, rfl⟩)
  | chain _ ho => cases hp; cases ho
  | operand hl => cases hp; exact absurd rfl hl
  | _ => cases hp

theorem endsInTernary_of_call {k k' : Int} {ts : List Token} {e : Expr}
    (h : ReadsExpr (.level .call e) k ts k') : e.endsInTernary = false := by
  rcases call_cases h with h | ⟨_, _, _, _, _, rfl, -⟩ | ⟨_, _, _, rfl⟩
  · cases h <;> rfl
  · rfl
  · rfl

theorem readsExpr_ref {l : Level} {k k' : Int} {ts : List Token} {r : Reference}
    (h : ReadsExpr (.level l (.ref r)) k ts k') :
    ∃ t name, ts = [t] ∧ t.terminal = .ident name ∧ r = ⟨⟨name, t.line⟩, k⟩ ∧ k' = k + 1 := by
  rcases call_cases (readsExpr_call h rfl) with h | ⟨_, _, _, _, _, he, -⟩ | ⟨_, _, _, he⟩
  · cases h with
    | ref ht => exact ⟨_, _, rfl, ht, rfl, rfl⟩
  · cases he
  · cases he

theorem readsExpr_get {l : Level} {k k' : Int} {ts : List Token} {o : Expr} {property : Lexeme}
    (h : ReadsExpr (.level l (.get o property)) k ts k') :
    ∃ us dot t name, ts = us ++ [dot, t] ∧ dot.terminal = .symbol .dot ∧ t.terminal = .ident name ∧
      property = ⟨name, t.line⟩ ∧ ReadsExpr (.level .call o) k us k' := by
  rcases call_cases (readsExpr_call h rfl) with h | ⟨_, us, dot, t, name, he, hts, ho, hd, ht⟩ | ⟨_, _, _, he⟩
  · cases h
  · cases he
    exact ⟨us, dot, t, name, hts, hd, ht, rfl, ho⟩
  · cases he

end Lox.Grammar
