/-
  Lox.Proofs.Grammar.Goals — a machine that takes a text token by token and keeps a stack
  of goals, which say what may still come.

  A token is met by the goal on top: the goal takes it and puts others in its place
  (`Goal.takes`), or, if nothing has to come for it (`mayBeEmpty`), leaves the stack and
  the token to the goal below. So the machine never goes back and knows of a token, when it
  meets it, whether some text goes on with it. It knows no levels: behind an operand there
  may be any operator, and which operands it joins is nothing that a token could fail at.

  `meet none` is the end of the text. Stacks that meet what comes next in the same way
  (`SameAt`) may stand for each other: so a goal that the next token has nothing to do with
  is as good as gone (`same_empty`).
-/

import Lox.Proofs.Grammar.Follow

namespace Lox.Grammar

inductive Goal where
  | exactly (t : Terminal)
  | name
  /-- An expression without commas. -/
  | operand
  /-- What may come behind an operand. -/
  | tail
  /-- More entries of a list, or operands of the comma operator. -/
  | commas
  | optional
  | statement
  | else_
  /-- The first clause of a `for` loop, its semicolon included. -/
  | firstClause
  | declaration
  | declarations
  | initializer
  | parent
  | parameters
  | moreParameters
  | methods
  deriving DecidableEq

namespace Goal

def mayBeEmpty : Goal → Bool
  | exactly _ | name | operand | statement | firstClause | declaration => false
  | _ => true

def symbol (s : Symbol) : Goal := exactly (.symbol s)

/-- The operators that come between two operands, the comma excepted. -/
def infixes : List Terminal :=
  [.symbol .equal, .keyword .or_, .keyword .and_, .symbol .bangEqual, .symbol .equalEqual, .symbol .greater,
   .symbol .greaterEqual, .symbol .less, .symbol .lessEqual, .symbol .minus, .symbol .plus, .symbol .slash,
   .symbol .star]

def ofOperand : Terminal → Option (List Goal)
  | .number _ | .string _ | .ident _ | .keyword .true_ | .keyword .false_ | .keyword .nil | .keyword .this =>
    some [tail]
  | .keyword .super => some [symbol .dot, name, tail]
  | .symbol .leftParen => some [operand, commas, symbol .rightParen, tail]
  | .symbol .bang | .symbol .minus => some [operand]
  | _ => none

def ofTail (t : Terminal) : Option (List Goal) :=
  match t with
  | .symbol .question => some [operand, symbol .colon, operand]
  | .symbol .leftParen => some [optional, symbol .rightParen, tail]
  | .symbol .dot => some [name, tail]
  | _ => if t ∈ infixes then some [operand] else none

/-- What follows the name of a routine. -/
def signature : List Goal :=
  [symbol .leftParen, parameters, symbol .rightParen, symbol .leftBrace, declarations, symbol .rightBrace]

def ofStatement : Terminal → Option (List Goal)
  | .keyword .print => some [operand, commas, symbol .semicolon]
  | .symbol .leftBrace => some [declarations, symbol .rightBrace]
  | .keyword .if_ => some [symbol .leftParen, operand, commas, symbol .rightParen, statement, else_]
  | .keyword .while_ => some [symbol .leftParen, operand, commas, symbol .rightParen, statement]
  | .keyword .for_ => some [symbol .leftParen, firstClause, optional, symbol .semicolon, optional,
    symbol .rightParen, statement]
  | .keyword .return_ => some [optional, symbol .semicolon]
  | .keyword .break_ | .keyword .continue_ => some [symbol .semicolon]
  | t => (ofOperand t).map (· ++ [commas, symbol .semicolon])

def ofDeclaration : Terminal → Option (List Goal)
  | .keyword .class_ => some [name, parent, symbol .leftBrace, methods, symbol .rightBrace]
  | .keyword .fun_ => some (name :: signature)
  | .keyword .var => some [name, initializer, symbol .semicolon]
  | t => ofStatement t

/-- The goals that a token leaves of a goal, if the goal takes it. -/
def takes : Goal → Terminal → Option (List Goal)
  | exactly t, t' => if t' = t then some [] else none
  | name, .ident _ => some []
  | operand, t => ofOperand t
  | tail, t => ofTail t
  | commas, .symbol .comma => some [operand, commas]
  | optional, t => (ofOperand t).map (· ++ [commas])
  | statement, t => ofStatement t
  | else_, .keyword .else_ => some [statement]
  | firstClause, .symbol .semicolon => some []
  | firstClause, .keyword .var => some [name, initializer, symbol .semicolon]
  | firstClause, t => (ofOperand t).map (· ++ [commas, symbol .semicolon])
  | declaration, t => ofDeclaration t
  | declarations, t => (ofDeclaration t).map (· ++ [declarations])
  | initializer, .symbol .equal => some [operand, commas]
  | parent, .symbol .less => some [name]
  | parameters, .ident _ => some [moreParameters]
  | moreParameters, .symbol .comma => some [name, moreParameters]
  | methods, .ident _ => some (signature ++ [methods])
  | _, _ => none

end Goal

/-- The one terminal that such a goal waits for, all of which may be empty. -/
def Goal.awaits : Goal → Option Terminal
  | commas | moreParameters => some (.symbol .comma)
  | initializer => some (.symbol .equal)
  | parent => some (.symbol .less)
  | else_ => some (.keyword .else_)
  | _ => none

/-- What may still come for an expression of the level beside the tail of its last operand. -/
def Level.more : Level → List Goal
  | comma => [.commas]
  | _ => []

theorem tighter_ne_call {l : Level} (h : l.operators ≠ []) : l.tighter ≠ .call := by
  cases l <;> first | decide | exact absurd rfl h

theorem more_tighter (l : Level) : l.tighter.more = [] := by cases l <;> rfl

/-! ## The machine -/

/-- What becomes of the goals when they meet a terminal, or the end of the text; `none` if they do not allow it. -/
def meet (t : Option Terminal) : List Goal → Option (List Goal)
  | [] => if t = none then some [] else none
  | g :: σ =>
    match t.bind g.takes with
    | some new => some (new ++ σ)
    | none => if g.mayBeEmpty then meet t σ else none

/-- The goals that are left behind some tokens, if they take all of them. -/
def feed : List Token → List Goal → Option (List Goal)
  | [], σ => some σ
  | t :: ts, σ => (meet t.terminal σ).bind (feed ts)

/-- The terminal that comes first. -/
def ahead (ts : List Token) : Option Terminal := ts.head?.map (·.terminal)

@[simp] theorem ahead_nil : ahead [] = none := rfl

@[simp] theorem ahead_cons (t : Token) (ts : List Token) : ahead (t :: ts) = some t.terminal := rfl

theorem avoids_ahead {terminals : List Terminal} {ts : List Token} (h : Avoids terminals ts) :
    ∀ t ∈ ahead ts, t ∉ terminals := by
  intro t ht
  obtain ⟨u, hu, rfl⟩ := Option.map_eq_some_iff.mp ht
  exact h u hu

theorem ahead_ne {u : Terminal} {ts : List Token} (h : Avoids [u] ts) : ahead ts ≠ some u :=
  fun e => avoids_ahead h u e (List.mem_singleton_self u)

variable {g : Goal} {σ τ υ new : List Goal} {t : Terminal} {us vs rest : List Token}

theorem meet_takes (h : g.takes t = some new) : meet (some t) (g :: σ) = some (new ++ σ) := by
  simp only [meet, Option.bind_some, h]

theorem meet_refused (h : g.takes t = none) (hg : g.mayBeEmpty = false) : meet (some t) (g :: σ) = none := by
  simp [meet, h, hg]

theorem meet_skips (h : g.takes t = none) (hg : g.mayBeEmpty = true) : meet (some t) (g :: σ) = meet (some t) σ := by
  simp [meet, h, hg]

theorem meet_end (h : g.mayBeEmpty = false) : meet none (g :: σ) = none := by
  simp [meet, h]

theorem meet_exactly : meet (some t) (.exactly t :: σ) = some σ :=
  meet_takes (g := .exactly t) (if_pos rfl)

theorem meet_other {u : Terminal} (h : u ≠ t) : meet (some u) (.exactly t :: σ) = none :=
  meet_refused (if_neg h) rfl

theorem meet_operator {l : Level} (h : t ∈ l.operators) :
    meet (some t) (.tail :: (l.more ++ σ)) = some (.operand :: (l.more ++ σ)) := by
  revert h
  cases l <;> simp only [Level.operators, List.mem_cons, List.not_mem_nil, or_false, false_imp_iff] <;>
    rintro (rfl | rfl | rfl | rfl) <;> rfl

theorem feed_append : feed (us ++ vs) σ = (feed us σ).bind (feed vs) := by
  induction us generalizing σ with
  | nil => rfl
  | cons t us ih =>
    simp only [List.cons_append, feed]
    cases meet (some t.terminal) σ with
    | none => rfl
    | some τ => exact ih

/-! ## Goals that take the same tokens -/

/-- What the first goal takes the last one takes as well, and then `new` has to come too. -/
def Begins (g : Goal) (new : List Goal) (g' : Goal) : Prop :=
  g.mayBeEmpty = false ∧ ∀ t δ, g.takes t = some δ → g'.takes t = some (δ ++ new)

theorem begins_exactly (h : g.takes t = some new) : Begins (.exactly t) new g := by
  refine ⟨rfl, fun u δ hu => ?_⟩
  by_cases e : u = t
  · subst e
    have hδ : δ = [] := by simpa [Goal.takes, eq_comm] using hu
    rw [hδ, h, List.nil_append]
  · simp [Goal.takes, e] at hu

theorem begins_optional : Begins .operand [.commas] .optional :=
  ⟨rfl, fun t δ h => by rw [Goal.takes, show Goal.ofOperand t = some δ from h]; rfl⟩

theorem begins_declarations : Begins .declaration [.declarations] .declarations :=
  ⟨rfl, fun t δ h => by rw [Goal.takes, show Goal.ofDeclaration t = some δ from h]; rfl⟩

theorem begins_methods : Begins .name (Goal.signature ++ [.methods]) .methods := by
  refine ⟨rfl, fun t δ h => ?_⟩
  cases t <;> cases h
  rfl

theorem begins_parameters : Begins .name [.moreParameters] .parameters := by
  refine ⟨rfl, fun t δ h => ?_⟩
  cases t <;> cases h
  rfl

theorem begins_statement : Begins .operand [.commas, .symbol .semicolon] .statement := by
  refine ⟨rfl, fun t δ h => ?_⟩
  cases t with
  | keyword k => cases k <;> first | (cases h; rfl) | cases h
  | symbol s => cases s <;> first | (cases h; rfl) | cases h
  | _ => cases h; rfl

theorem begins_firstClause : Begins .operand [.commas, .symbol .semicolon] .firstClause := by
  refine ⟨rfl, fun t δ h => ?_⟩
  cases t with
  | keyword k => cases k <;> first | (cases h; rfl) | cases h
  | symbol s => cases s <;> first | (cases h; rfl) | cases h
  | _ => cases h; rfl

theorem begins_declaration : Begins .statement [] .declaration := by
  refine ⟨rfl, fun t δ h => ?_⟩
  rw [List.append_nil]
  cases t with
  | keyword k => cases k <;> first | exact h | cases h
  | _ => exact h

theorem feed_begun {g' : Goal} {ts : List Token} (ho : Begins g new g') (hts : ts ≠ [])
    (h : feed ts (g :: (new ++ σ)) = some τ) : feed ts (g' :: σ) = some τ := by
  cases ts with
  | nil => exact absurd rfl hts
  | cons t ts =>
    cases hδ : g.takes t.terminal with
    | none =>
      rw [feed, meet_refused hδ ho.1] at h
      cases h
    | some δ =>
      rw [feed, meet_takes hδ] at h
      rw [feed, meet_takes (ho.2 _ _ hδ), List.append_assoc]
      exact h

/-! ## Stacks that stand for each other -/

/-- In front of the tokens, one stack is as good as the other. -/
def SameAt (rest : List Token) (σ τ : List Goal) : Prop := meet (ahead rest) σ = meet (ahead rest) τ

theorem SameAt.refl (rest : List Token) (σ : List Goal) : SameAt rest σ σ := Eq.refl _

theorem SameAt.trans (h : SameAt rest σ τ) (h' : SameAt rest τ υ) : SameAt rest σ υ := Eq.trans h h'

/-- A goal that does not take the next token is passed over. -/
theorem same_empty (hg : g.mayBeEmpty = true) (h : ∀ t ∈ ahead rest, g.takes t = none) :
    SameAt rest (g :: σ) σ := by
  unfold SameAt
  rw [meet]
  cases ht : ahead rest with
  | none => simp [hg]
  | some t => simp [h t ht, hg]

theorem takes_awaited {u : Terminal} (h : g.awaits = some u) (ht : t ≠ u) : g.takes t = none := by
  cases g <;> cases h
  all_goals
    cases t with
    | keyword k => cases k <;> first | rfl | exact absurd rfl ht
    | symbol s => cases s <;> first | rfl | exact absurd rfl ht
    | _ => rfl

theorem same_awaited {u : Terminal} (h : g.awaits = some u) (hr : ahead rest ≠ some u) : SameAt rest (g :: σ) σ := by
  have hg : g.mayBeEmpty = true := by cases g <;> cases h <;> rfl
  exact same_empty hg fun t ht => takes_awaited h fun e => hr (e ▸ ht)

/-- A goal may be replaced by one that begins it, where nothing else is allowed in its place. -/
theorem same_begun {g' : Goal} (hb : Begins g new g') (hend : ahead rest = none → meet none (g' :: σ) = none)
    (h : ∀ t ∈ ahead rest, g.takes t = none → meet (some t) (g' :: σ) = none) :
    SameAt rest (g' :: σ) (g :: (new ++ σ)) := by
  unfold SameAt
  cases ht : ahead rest with
  | none => rw [hend ht, meet_end hb.1]
  | some t =>
    cases hδ : g.takes t with
    | none => rw [h t ht hδ, meet_refused hδ hb.1]
    | some δ => rw [meet_takes hδ, meet_takes (hb.2 t δ hδ), List.append_assoc]

/-- The tokens take a stack to one that is as good as another in front of what follows. -/
def Reaches (σ : List Goal) (us rest : List Token) (τ : List Goal) : Prop :=
  ∃ υ, feed us σ = some υ ∧ SameAt rest υ τ

/-- The machine gets through the first tokens, and then does not allow what follows. -/
def Blocked (σ : List Goal) (us rest : List Token) : Prop :=
  ∃ υ, feed us σ = some υ ∧ meet (ahead rest) υ = none

theorem reaches_nil (h : SameAt rest σ τ) : Reaches σ [] rest τ := ⟨σ, rfl, h⟩

theorem blocked_nil (h : meet (ahead rest) σ = none) : Blocked σ [] rest := ⟨σ, rfl, h⟩

theorem Reaches.into (h : Reaches σ us rest τ) (h' : SameAt rest τ υ) : Reaches σ us rest υ :=
  let ⟨w, hr, hs⟩ := h
  ⟨w, hr, hs.trans h'⟩

/-- What a stack does depends on how it meets the first token only. -/
theorem feed_same (h : SameAt (us ++ rest) σ τ) (hu : us ≠ []) : feed us σ = feed us τ := by
  cases us with
  | nil => exact absurd rfl hu
  | cons t us =>
    have h : meet (some t.terminal) σ = meet (some t.terminal) τ := h
    rw [feed, feed, h]

theorem Reaches.from (h : Reaches τ us rest υ) (hs : SameAt (us ++ rest) σ τ) : Reaches σ us rest υ := by
  obtain ⟨w, hr, hw⟩ := h
  by_cases hu : us = []
  · subst hu
    cases hr
    exact reaches_nil (hs.trans hw)
  · exact ⟨w, by rw [feed_same hs hu, hr], hw⟩

theorem Blocked.from (h : Blocked τ us rest) (hs : SameAt (us ++ rest) σ τ) : Blocked σ us rest := by
  obtain ⟨w, hr, hw⟩ := h
  by_cases hu : us = []
  · subst hu
    cases hr
    exact blocked_nil (Eq.trans hs hw)
  · exact ⟨w, by rw [feed_same hs hu, hr], hw⟩

theorem Reaches.append (h : Reaches σ us (vs ++ rest) τ) (h' : Reaches τ vs rest υ) :
    Reaches σ (us ++ vs) rest υ := by
  obtain ⟨w, hr, hs⟩ := h
  obtain ⟨x, hx, hxs⟩ := h'.from hs
  exact ⟨x, by rw [feed_append, hr]; exact hx, hxs⟩

theorem Reaches.blocked (h : Reaches σ us (vs ++ rest) τ) (h' : Blocked τ vs rest) : Blocked σ (us ++ vs) rest := by
  obtain ⟨w, hr, hs⟩ := h
  obtain ⟨x, hx, hxs⟩ := h'.from hs
  exact ⟨x, by rw [feed_append, hr]; exact hx, hxs⟩

theorem reaches_token {t : Token} (h : meet t.terminal σ = some τ) : Reaches σ [t] rest τ :=
  ⟨τ, by simp [feed, h], SameAt.refl rest τ⟩

end Lox.Grammar
