/-
  Lox.Proofs.Grammar.Loose — the grammar that decides whether reading goes on.

  An assignment's target, the length of a list and the place of a `break` are judged by
  reports, which do not stop the reading. The loose grammar leaves these conditions out:
  what stands before an equals sign is any operand, lists have any length, and every
  statement may stand where one may stand in a loop. All other productions are those of the
  grammar of Lox.

  `Loose` is closed under the loose productions and contains nothing else (`loose_iff`,
  `Loose.induct`). Every nonterminal stands for some word (`spelled_rule`).
-/

import Lox.Proofs.Grammar.Derivable
import Lox.Proofs.Grammar.Follow

namespace Lox.Grammar

/-! ## Parts of right sides -/

section Parts

variable {L : Languages} {ts : List Token}

theorem matches_append {es fs : List Ebnf} : Matches L (.sequence (es ++ fs)) ts ↔
    ∃ us vs, Matches L (.sequence es) us ∧ Matches L (.sequence fs) vs ∧ ts = us ++ vs := by
  induction es generalizing ts with
  | nil => simp
  | cons e es ih =>
    simp only [List.cons_append, matches_cons, ih]
    constructor
    · rintro ⟨us, vs, hu, ⟨ws, xs, hw, hx, rfl⟩, rfl⟩
      exact ⟨us ++ ws, xs, ⟨us, ws, hu, hw, rfl⟩, hx, (List.append_assoc ..).symm⟩
    · rintro ⟨us, vs, ⟨ws, xs, hw, hx, rfl⟩, hv, rfl⟩
      exact ⟨ws, xs ++ vs, hw, ⟨xs, vs, hx, hv, rfl⟩, List.append_assoc ..⟩

theorem matches_terminal {t : Token} {terminal : Terminal} (h : t.terminal = terminal) :
    Matches L (.ofTerminal terminal) [t] := by
  obtain ⟨_, line⟩ := t
  cases h
  rename_i terminal
  cases terminal <;> constructor

end Parts

/-! ## The loose productions -/

/-- The productions without what the tokens alone do not decide: what can be assigned to, how
many parameters there are, and where a jump may stand. -/
def looseProduction : Nonterminal → Ebnf
  | .level .assignment =>
    .sequence [.level .or_, .opt (.sequence [.symbol .equal, .level .assignment])]
  | .parameters => .sequence [.ident, .many (.sequence [.symbol .comma, .ident])]
  | .arguments => .sequence [.level .assignment, .many (.sequence [.symbol .comma, .level .assignment])]
  | .statement _ => production (.statement true)
  | n => production n

theorem looseProduction_chain {l : Level} (hl : l.operators ≠ []) :
    looseProduction (.level l) = .joined l.tighter (l.operators.map .ofTerminal) := by
  cases l <;> first | rfl | exact absurd rfl hl

def LooselyClosed (L : Languages) : Prop := ∀ n ts, Matches L (looseProduction n) ts → L n ts

/-- The token lists that can be derived from a nonterminal in the loose grammar. -/
def Loose : Languages := fun n ts => ∀ L, LooselyClosed L → L n ts

theorem loose_of_matches {n : Nonterminal} {ts : List Token} (h : Matches Loose (looseProduction n) ts) :
    Loose n ts :=
  fun L hL => hL n ts (h.mono fun _ _ hd => hd L hL)

theorem Loose.induct {L : Languages} (hL : LooselyClosed L) {n : Nonterminal} {ts : List Token} (h : Loose n ts) :
    L n ts :=
  h L hL

theorem loose_iff {n : Nonterminal} {ts : List Token} : Loose n ts ↔ Matches Loose (looseProduction n) ts := by
  refine ⟨fun h => ?_, loose_of_matches⟩
  refine h.induct (L := fun n ts => Matches Loose (looseProduction n) ts) fun n ts hm => ?_
  exact hm.mono fun n ts => loose_of_matches

/-! ## Some word of every right side -/

/-- The right side stands for some word of the loose grammar. -/
def Ebnf.Spelled (e : Ebnf) : Prop := ∃ ts, Matches Loose e ts

section Spelled

variable {e : Ebnf} {es : List Ebnf}

@[simp] theorem spelled_keyword (k : Keyword) : (Ebnf.keyword k).Spelled := ⟨_, .keyword k 0⟩

@[simp] theorem spelled_symbol (s : Symbol) : (Ebnf.symbol s).Spelled := ⟨_, .symbol s 0⟩

@[simp] theorem spelled_ident : Ebnf.ident.Spelled := ⟨_, .ident "a" 0⟩

@[simp] theorem spelled_many : (Ebnf.many e).Spelled := ⟨_, .manyNil⟩

@[simp] theorem spelled_opt : (Ebnf.opt e).Spelled := ⟨_, matches_none⟩

@[simp] theorem spelled_nil : (Ebnf.sequence []).Spelled := ⟨_, .nil⟩

@[simp] theorem spelled_cons : (Ebnf.sequence (e :: es)).Spelled ↔ e.Spelled ∧ (Ebnf.sequence es).Spelled := by
  constructor
  · rintro ⟨_, h⟩
    obtain ⟨us, vs, hu, hv, -⟩ := matches_cons.mp h
    exact ⟨⟨us, hu⟩, ⟨vs, hv⟩⟩
  · rintro ⟨⟨us, hu⟩, ⟨vs, hv⟩⟩
    exact ⟨_, .cons hu hv⟩

@[simp] theorem spelled_choice : (Ebnf.choice es).Spelled ↔ ∃ e ∈ es, e.Spelled := by
  constructor
  · rintro ⟨ts, h⟩
    obtain ⟨e, he, h⟩ := matches_choice.mp h
    exact ⟨e, he, ts, h⟩
  · rintro ⟨e, he, ts, h⟩
    exact ⟨ts, .choice he h⟩

theorem spelled_of_production {n : Nonterminal} (h : (looseProduction n).Spelled) : (Ebnf.rule n).Spelled :=
  let ⟨_, h⟩ := h
  ⟨_, .rule (loose_of_matches h)⟩

end Spelled

/-- A phrase of the next level alone. -/
theorem loose_operand {l : Level} (hl : l ≠ .call) {ts : List Token} (h : Loose (.level l.tighter) ts) :
    Loose (.level l) ts := by
  refine loose_of_matches ?_
  cases l with
  | assignment | ternary => exact matches_short (matches_level.mpr h) matches_none
  | unary => exact .choice (List.mem_cons_of_mem _ (List.mem_cons_self ..)) (matches_level.mpr h)
  | call => exact absurd rfl hl
  | _ => exact matches_short (matches_level.mpr h) .manyNil

@[simp] theorem spelled_primary : (Ebnf.rule .primary).Spelled :=
  spelled_of_production (by simp [looseProduction, production])

@[simp] theorem spelled_level (l : Level) : (Ebnf.level l).Spelled := by
  induction hr : l.rank generalizing l with
  | zero =>
    obtain rfl : l = .call := Level.rank_injective hr
    exact spelled_of_production (by simp [looseProduction, production])
  | succ n ih =>
    have hl : l ≠ .call := by rintro rfl; cases hr
    obtain ⟨ts, h⟩ := ih l.tighter (by have := Level.rank_tighter hl; omega)
    exact ⟨ts, matches_level.mpr (loose_operand hl (matches_level.mp h))⟩

@[simp] theorem spelled_rule (n : Nonterminal) : (Ebnf.rule n).Spelled := by
  have hexpr : (Ebnf.rule .exprStmt).Spelled := spelled_of_production (by simp [looseProduction, production])
  have hstmt (b : Bool) : (Ebnf.rule (.statement b)).Spelled :=
    spelled_of_production (by simp [looseProduction, production, hexpr])
  have hblock (b : Bool) : (Ebnf.rule (.block b)).Spelled :=
    spelled_of_production (by simp [looseProduction, production])
  have hroutine : (Ebnf.rule .routine).Spelled :=
    spelled_of_production (by simp [looseProduction, production, hblock])
  cases n with
  | level l => exact spelled_level l
  | primary => exact spelled_primary
  | _ => exact spelled_of_production (by simp [looseProduction, production, hexpr, hstmt, hblock, hroutine])

end Lox.Grammar
