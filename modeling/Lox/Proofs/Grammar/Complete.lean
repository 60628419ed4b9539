/-
  Lox.Proofs.Grammar.Complete — the rules for expressions read every reading: in front of
  tokens that may come behind it, they take its tokens and give its tree, without an error.

  `Leads p s q s₁`: reading `p` from `s` comes to the same as going on with `q` from `s₁`,
  unless its bound is used up. A phrase to which more could still be joined is read up to
  the loop that would join it (`goOn`, `Arrives`), so that a reading that groups to the
  left is followed in the order of the rules.
-/

import Lox.Proofs.Grammar.Follow

namespace Lox.Grammar

variable {α β : Type} {s s₁ s₂ : State}

/-- What `p` does at one state is what `q` does at another, unless the bound is spent. -/
def Leads (p : Parse α) (s : State) (q : Parse α) (s₁ : State) : Prop :=
  p s = q s₁ ∨ ∃ s', p s = .error .outOfFuel s'

theorem Leads.refl (p : Parse α) (s : State) : Leads p s p s := Or.inl rfl

theorem Leads.spent {q : Parse α} : Leads (throw .outOfFuel) s q s₁ := Or.inr ⟨s, rfl⟩

theorem Leads.trans {p q r : Parse α} (h : Leads p s q s₁) (h' : Leads q s₁ r s₂) : Leads p s r s₂ := by
  rcases h with h | h
  · rw [Leads, h]; exact h'
  · exact Or.inr h

theorem Leads.step {p : Parse α} {f : α → Parse β} {a : α} {q : Parse β} (h : p s = .ok a s₁)
    (h' : Leads (f a) s₁ q s₂) : Leads (p >>= f) s q s₂ := by
  rw [Leads, bind_of_ok h]; exact h'

theorem Leads.bind {p : Parse α} {f : α → Parse β} {a : α} {q : Parse β} (h : Leads p s (pure a) s₁)
    (h' : Leads (f a) s₁ q s₂) : Leads (p >>= f) s q s₂ := by
  rcases h with h | ⟨s', h⟩
  · exact Leads.step h h'
  · exact Or.inr ⟨s', bind_of_error h⟩

/-! ## Single steps -/

/-- The state in which other tokens are left and another slot is free. -/
def State.to (s : State) (rest : List Token) (k : Int) : State := { s with rest, nextSlot := k }

variable {k k' : Int} {ts rest : List Token} {t : Token}

theorem acceptAny_to {terminals : List Terminal} (h : t.terminal ∈ terminals) :
    acceptAny terminals (s.to (t :: rest) k) = .ok (some t) (s.to rest k) :=
  acceptAny_ok.mpr (Or.inl ⟨t, rest, rfl, h, rfl, rfl⟩)

theorem accept_to {terminal : Terminal} (h : t.terminal = terminal) :
    accept terminal (s.to (t :: rest) k) = .ok (some t) (s.to rest k) :=
  acceptAny_to (List.mem_singleton.mpr h)

theorem acceptAny_none {terminals : List Terminal} (h : Avoids terminals rest) :
    acceptAny terminals (s.to rest k) = .ok none (s.to rest k) :=
  acceptAny_ok.mpr (Or.inr ⟨h, rfl, rfl⟩)

theorem expect_to {symbol : Symbol} {role : SymbolRole} (h : t.terminal = .symbol symbol) :
    expect symbol role (s.to (t :: rest) k) = .ok t (s.to rest k) :=
  expect_ok.mpr ⟨rest, rfl, h, rfl⟩

theorem expectName_to {role : NameRole} {name : String} (h : t.terminal = .ident name) :
    expectName role (s.to (t :: rest) k) = .ok ⟨name, t.line⟩ (s.to rest k) :=
  expectName_ok.mpr ⟨t, rest, rfl, h, rfl, rfl⟩

theorem newSlot_to : newSlot (s.to rest k) = .ok k (s.to rest (k + 1)) := rfl

theorem peek_to : peek (s.to (t :: rest) k) = .ok (some t) (s.to (t :: rest) k) := rfl

theorem skip_to : skip (s.to (t :: rest) k) = .ok () (s.to rest k) := rfl

theorem isNext_to {terminal : Terminal} (h : t.terminal = terminal) :
    isNext terminal (s.to (t :: rest) k) = .ok true (s.to (t :: rest) k) :=
  isNext_ok.mpr ⟨Or.inl ⟨t, rest, rfl, h, rfl⟩, rfl⟩

theorem isNext_none {terminal : Terminal} (h : Avoids [terminal] rest) :
    isNext terminal (s.to rest k) = .ok false (s.to rest k) :=
  isNext_ok.mpr ⟨Or.inr ⟨h, rfl⟩, rfl⟩

/-! ## First tokens -/

def opensPrimary : Terminal → Bool
  | .keyword .true_ | .keyword .false_ | .keyword .nil | .keyword .this | .keyword .super | .symbol .leftParen
  | .number _ | .string _ | .ident _ => true
  | _ => false

def opensExpr (terminal : Terminal) : Bool := opensPrimary terminal || unaryOperators.contains terminal

theorem opensExpr_of_primary {terminal : Terminal} (h : opensPrimary terminal = true) : opensExpr terminal = true := by
  simp [opensExpr, h]

/-- No phrase starts with a terminal that ends one, or with the first terminal of a statement. -/
theorem not_opens {terminals : List Terminal} (hs : terminals.all fun terminal => !opensExpr terminal)
    (h : opensExpr t.terminal = true) : t.terminal ∉ terminals := by
  intro hm
  have := List.all_eq_true.mp hs _ hm
  simp [h] at this

theorem not_unary (h : opensPrimary t.terminal = true) : t.terminal ∉ unaryOperators := by
  intro hm
  simp only [unaryOperators, List.mem_cons, List.not_mem_nil, or_false] at hm
  rcases hm with hm | hm
  · rw [hm] at h; cases h
  · rw [hm] at h; cases h

/-- What the first terminal of a phrase may be. -/
def Phrase.opens : Phrase → Terminal → Bool
  | .primary _ | .level .call _ => opensPrimary
  | _ => opensExpr

theorem Phrase.opens_level {l : Level} {e : Expr} {terminal : Terminal}
    (h : (Phrase.level l e).opens terminal = true) : opensExpr terminal = true := by
  cases l <;> first | exact h | exact opensExpr_of_primary h

/-- An expression has a first token, and it is one that opens an expression. -/
theorem readsExpr_opens {p : Phrase} (h : ReadsExpr p k ts k') :
    ∃ t us, ts = t :: us ∧ p.opens t.terminal = true := by
  induction h with
  | true_ ht | false_ ht | nil ht | number ht | string ht | ref ht | this ht =>
    exact ⟨_, _, rfl, by simp [Phrase.opens, opensPrimary, ht]⟩
  | super ht _ _ | group ht _ _ _ => exact ⟨_, _, rfl, by simp [Phrase.opens, opensPrimary, ht]⟩
  | atom _ ih => exact ih
  | get _ _ _ ih | callEmpty _ _ _ ih | call _ _ _ _ _ ih _ =>
    obtain ⟨t, us, rfl, ht⟩ := ih
    exact ⟨t, _, rfl, ht⟩
  | unary ho _ _ => exact ⟨_, _, rfl, by simp [Phrase.opens, opensExpr, ho]⟩
  | @chain l _ _ _ _ _ _ _ _ _ _ _ _ ih _ =>
    obtain ⟨t, us, rfl, ht⟩ := ih
    refine ⟨t, _, rfl, ?_⟩
    cases l <;> exact ht
  | ternary _ _ _ _ _ ih _ _ =>
    obtain ⟨t, us, rfl, ht⟩ := ih
    exact ⟨t, _, rfl, ht⟩
  | assign ht _ _ _ => exact ⟨_, _, rfl, by simp [Phrase.opens, opensExpr, opensPrimary, ht]⟩
  | set _ _ _ _ _ ih _ =>
    obtain ⟨t, us, rfl, ht⟩ := ih
    exact ⟨t, _, rfl, Phrase.opens_level (l := .call) ht⟩
  | @operand l _ _ _ _ hl _ ih =>
    obtain ⟨t, us, rfl, ht⟩ := ih
    refine ⟨t, us, rfl, ?_⟩
    have := Phrase.opens_level ht
    cases l <;> first | exact this | exact absurd rfl hl
  | last _ ih | more _ _ _ ih _ =>
    obtain ⟨t, us, rfl, ht⟩ := ih
    exact ⟨t, _, rfl, ht⟩

theorem avoids_expr {l : Level} {e : Expr} {terminals : List Terminal} (h : ReadsExpr (.level l e) k ts k')
    (hs : terminals.all fun terminal => !opensExpr terminal) : Avoids terminals (ts ++ rest) := by
  obtain ⟨t, us, rfl, ht⟩ := readsExpr_opens h
  exact avoids_cons.mpr (not_opens hs (Phrase.opens_level ht))

/-! ## Phrases to which more can be joined -/

/-- What is still to be done when a phrase of the level has been read. -/
def goOn (l : Level) (n : Nat) (e : Expr) : Parse Expr :=
  match l with
  | .call => suffixes n e
  | .assignment | .ternary | .unary => pure e
  | l => chain n l e

/-- The tokens may come behind the expression where the level has not been left yet. -/
def Ready (l : Level) (e : Expr) (ts : List Token) : Prop :=
  match l with
  | .call => True
  | .assignment | .ternary | .unary => Settled l e ts
  | l => Settled l.tighter e ts

theorem Settled.ready {l : Level} {e : Expr} (h : Settled l e ts) : Ready l e ts := by
  cases l <;> first | exact h | exact h.tighter | trivial

theorem ready_chain {l : Level} (hl : l.operators ≠ []) {e : Expr} (h : Settled l.tighter e ts) : Ready l e ts := by
  cases l <;> first | exact h | exact absurd rfl hl

theorem settled_of_ready {l : Level} (hl : l.operators ≠ []) {e : Expr} (h : Ready l e ts) :
    Settled l.tighter e ts := by
  cases l <;> first | exact h | exact absurd rfl hl

theorem goOn_chain {l : Level} (hl : l.operators ≠ []) (n : Nat) (e : Expr) : goOn l n e = chain n l e := by
  cases l <;> first | rfl | exact absurd rfl hl

/-- With any bound, reading an expression of the level comes to where the level goes on behind
`e`, with what is left of the bound. -/
def Arrives (l : Level) (e : Expr) (s s₁ : State) : Prop :=
  ∀ n, ∃ m, Leads (expression n l) s (goOn l m e) s₁

/-- Behind an expression that is settled, its level goes on with nothing. -/
theorem leads_goOn {l : Level} {e : Expr} (h : Settled l e rest) (n : Nat) :
    Leads (goOn l n e) (s.to rest k) (pure e) (s.to rest k) := by
  have hchain (hl : l.operators ≠ []) : Leads (chain n l e) (s.to rest k) (pure e) (s.to rest k) := by
    cases n with
    | zero => exact Leads.spent
    | succ n =>
      have ha := ((stops_iff (Level.ne_call_of_chain hl)).mp h.1).1
      rw [Level.joins_of_chain hl] at ha
      rw [chain]
      exact Leads.step (acceptAny_none ha) (Leads.refl _ _)
  cases l with
  | call =>
    cases n with
    | zero => exact Leads.spent
    | succ n =>
      rw [goOn, suffixes]
      exact Leads.step (acceptAny_none (stops_call.mp h.1)) (Leads.refl _ _)
  | assignment | ternary | unary => exact Leads.refl _ _
  | _ => exact hchain (by simp [Level.operators])

theorem Arrives.leads {l : Level} {e : Expr} (h : Arrives l e s (s₁.to rest k)) (hs : Settled l e rest) (n : Nat) :
    Leads (expression n l) s (pure e) (s₁.to rest k) := by
  obtain ⟨m, hm⟩ := h n
  exact hm.trans (leads_goOn hs m)

/-- An operand is a phrase of the looser level. -/
theorem Arrives.looser {l : Level} {e : Expr} (hl : l ≠ .call)
    (h : Arrives l.tighter e (s.to ts k) (s.to rest k')) (hs : Settled l.tighter e rest) (hr : Ready l e rest)
    (hu : l = .unary → Avoids unaryOperators ts) : Arrives l e (s.to ts k) (s.to rest k') := by
  intro n
  cases n with
  | zero => exact ⟨0, Leads.spent⟩
  | succ n =>
    have hop := h.leads hs n
    cases l with
    | call => exact absurd rfl hl
    | assignment =>
      refine ⟨0, Leads.bind hop ?_⟩
      exact Leads.step (acceptAny_none (hr.1 .assignment (Nat.le_refl _))) (Leads.refl _ _)
    | ternary =>
      refine ⟨0, Leads.bind hop ?_⟩
      exact Leads.step (acceptAny_none (hr.1 .ternary (Nat.le_refl _))) (Leads.refl _ _)
    | unary => exact ⟨0, Leads.step (acceptAny_none (hu rfl)) hop⟩
    | _ => exact ⟨n, Leads.bind hop (Leads.refl _ _)⟩

/-- A phrase of the tightest level is one of every level. -/
theorem Arrives.climb {l : Level} {e : Expr} (h : Arrives .call e (s.to ts k) (s.to rest k'))
    (he : e.endsInTernary = false) (hu : Avoids unaryOperators ts) (hs : Stops l rest) :
    Arrives l e (s.to ts k) (s.to rest k') := by
  induction hr : l.rank generalizing l with
  | zero =>
    rw [Level.rank_injective (m := .call) hr]
    exact h
  | succ r ih =>
    have hl : l ≠ .call := by rintro rfl; cases hr
    have hset : Settled l e rest := ⟨hs, fun ht => by rw [he] at ht; cases ht⟩
    have hrank := Level.rank_tighter hl
    exact (ih hs.tighter (by omega)).looser hl hset.tighter hset.ready fun _ => hu

/-! ## Operators of chains -/

theorem stops_operator {l : Level} {op : Token} (h : op.terminal ∈ l.operators) : Stops l.tighter (op :: ts) := by
  intro m hm
  rw [avoids_cons]
  revert h
  generalize op.terminal = terminal
  intro h
  cases l with
  | assignment | ternary | unary | call => cases h
  | _ =>
    simp only [Level.operators, List.mem_cons, List.not_mem_nil, or_false] at h
    rcases h with rfl | rfl | rfl | rfl <;> revert hm <;> cases m <;> decide

theorem stops_other {l : Level} {t : Token} (h : ∀ m : Level, t.terminal ∉ m.joins) : Stops l (t :: ts) :=
  fun m _ => avoids_cons.mpr (h m)

/-- Only a phrase at the level of ternaries or a looser one can end in a ternary. -/
theorem endsInTernary_of_tight {l : Level} {e : Expr} (h : ReadsExpr (.level l e) k ts k') (hl : l.rank ≤ 5) :
    e.endsInTernary = false := by
  generalize hp : Phrase.level l e = p at h
  induction h generalizing l e with
  | atom h => cases hp; exact endsInTernary_of_call (.atom h)
  | get | callEmpty | call => cases hp; rfl
  | unary _ _ ih => cases hp; rw [Expr.endsInTernary]; exact ih hl rfl
  | @chain l₁ _ _ _ _ _ _ _ _ _ ho _ _ _ ih =>
    cases hp
    rw [endsInTernary_join]
    cases l₁ with
    | assignment | ternary | unary | call => cases ho
    | comma | and_ | or_ => exact absurd hl (by decide)
    | _ => exact ih (by decide) rfl
  | operand hc _ ih =>
    cases hp
    have := Level.rank_tighter hc
    exact ih (by omega) rfl
  | ternary | assign | set => cases hp; exact absurd hl (by decide)
  | _ => cases hp

/-- The left operand of a chain ends where the operator can stand. -/
theorem settled_operator {l : Level} {left : Expr} {op : Token} (h : ReadsExpr (.level l left) k ts k')
    (ho : op.terminal ∈ l.operators) (hl : l = .or_ ∨ l = .and_ → left.endsInTernary = false) :
    Settled l.tighter left (op :: rest) := by
  refine ⟨stops_operator ho, fun ht => ?_⟩
  cases l with
  | comma => exact stops_operator ho
  | or_ | and_ => rw [hl (by decide)] at ht; cases ht
  | assignment | ternary | unary | call => cases ho
  | _ => rw [endsInTernary_of_tight h (by decide)] at ht; cases ht

/-! ## One reading at a time -/

/-- The next argument and those that follow it, when `count` have been read. -/
def argumentsFrom (n count : Nat) : Parse (List Expr) := do
  let next ← expression n .assignment
  return next :: (← moreArguments n (count + 1))

/-- What the rules do in front of the tokens of a phrase. -/
def ExprFollows : Phrase → Int → List Token → Int → Prop
  | .level l e, k, ts, k' => ∀ (s : State) (rest : List Token), Ready l e rest → Arrives l e (s.to (ts ++ rest) k)
    (s.to rest k')
  | .primary e, k, ts, k' => ∀ (s : State) (rest : List Token) (n : Nat),
    Leads (primary n) (s.to (ts ++ rest) k) (pure e) (s.to rest k')
  | .arguments es, k, ts, k' => ∀ (s : State) (rest : List Token) (n count : Nat), Stops .comma rest →
    count + es.length ≤ mostArguments → Leads (argumentsFrom n count) (s.to (ts ++ rest) k) (pure es) (s.to rest k')

theorem ExprFollows.leads {l : Level} {e : Expr} (h : ExprFollows (.level l e) k ts k') (hs : Settled l e rest)
    (s : State) (n : Nat) : Leads (expression n l) (s.to (ts ++ rest) k) (pure e) (s.to rest k') :=
  (h s rest hs.ready).leads hs n

/-- A token after which no rule for expressions goes on. -/
theorem settled_end {l : Level} {e : Expr} (h : ∀ m : Level, t.terminal ∉ m.joins) : Settled l e (t :: rest) :=
  ⟨stops_other h, fun _ => stops_other h⟩

theorem joins_symbol {symbol : Symbol} (ht : t.terminal = .symbol symbol)
    (h : symbol = .rightParen ∨ symbol = .colon ∨ symbol = .semicolon) (m : Level) : t.terminal ∉ m.joins := by
  rw [ht]
  rcases h with rfl | rfl | rfl <;> cases m <;> decide

theorem follows_token {terminal : Terminal} {e : Expr} (ht : t.terminal = terminal)
    (h : ∀ (s : State) (rest : List Token) (n : Nat),
      primary (n + 1) (s.to (⟨terminal, t.line⟩ :: rest) k) = .ok e (s.to rest k')) :
    ExprFollows (.primary e) k [t] k' := by
  intro s rest n
  obtain ⟨_, line⟩ := t
  cases ht
  cases n with
  | zero => exact Leads.spent
  | succ n => exact Or.inl (h s rest n)

theorem follows_ref {t : Token} {name : String} (ht : t.terminal = .ident name) :
    ExprFollows (.primary (.ref ⟨⟨name, t.line⟩, k⟩)) k [t] (k + 1) :=
  follows_token ht fun s rest n => by rw [primary]; rfl

theorem follows_group {opening closing : Token} {e : Expr} (ho : opening.terminal = .symbol .leftParen)
    (h : ExprFollows (.level .comma e) k ts k') (hc : closing.terminal = .symbol .rightParen) :
    ExprFollows (.primary (.group e)) k (opening :: ts ++ [closing]) k' := by
  intro s rest n
  cases n with
  | zero => exact Leads.spent
  | succ n =>
    rw [primary]
    simp only [List.append_assoc, List.cons_append]
    refine Leads.step peek_to ?_
    simp only [ho]
    refine Leads.step skip_to ?_
    refine Leads.bind (h.leads (settled_end (joins_symbol hc (by decide))) s n) ?_
    exact Leads.step (expect_to hc) (Leads.refl _ _)

theorem follows_super {t dot method : Token} {name : String} (ht : t.terminal = .keyword .super)
    (hd : dot.terminal = .symbol .dot) (hm : method.terminal = .ident name) :
    ExprFollows (.primary (.super ⟨⟨superName, t.line⟩, k⟩ ⟨name, method.line⟩)) k [t, dot, method] (k + 1) := by
  intro s rest n
  cases n with
  | zero => exact Leads.spent
  | succ n =>
    rw [primary]
    simp only [List.cons_append, List.nil_append]
    refine Leads.step peek_to ?_
    simp only [ht]
    refine Leads.step skip_to ?_
    refine Leads.step (expect_to hd) ?_
    refine Leads.step (expectName_to hm) ?_
    refine Leads.step newSlot_to ?_
    rw [lexeme_eq ht]
    exact Leads.refl _ _

theorem follows_atom {e : Expr} (h : ExprFollows (.primary e) k ts k') : ExprFollows (.level .call e) k ts k' := by
  intro s rest _ n
  cases n with
  | zero => exact ⟨0, Leads.spent⟩
  | succ n => exact ⟨n, Leads.bind (h s rest n) (Leads.refl _ _)⟩

/-- A suffix behind a phrase of the tightest level. -/
theorem follows_suffix {e e' : Expr} {us : List Token} {k₁ : Int} (h : ExprFollows (.level .call e) k ts k₁)
    (hs : ∀ (s : State) (rest : List Token) (n : Nat),
      ∃ m, Leads (suffixes n e) (s.to (us ++ rest) k₁) (suffixes m e') (s.to rest k')) :
    ExprFollows (.level .call e') k (ts ++ us) k' := by
  intro s rest _ n
  obtain ⟨m, hm⟩ := h s (us ++ rest) trivial n
  obtain ⟨m', hm'⟩ := hs s rest m
  rw [List.append_assoc]
  exact ⟨m', hm.trans hm'⟩

theorem follows_get {dot property : Token} {name : String} {e : Expr} (h : ExprFollows (.level .call e) k ts k')
    (hd : dot.terminal = .symbol .dot) (hp : property.terminal = .ident name) :
    ExprFollows (.level .call (.get e ⟨name, property.line⟩)) k (ts ++ [dot, property]) k' := by
  refine follows_suffix h fun s rest n => ?_
  cases n with
  | zero => exact ⟨0, Leads.spent⟩
  | succ n =>
    refine ⟨n, ?_⟩
    obtain ⟨terminal, line⟩ := dot
    cases hd
    rw [suffixes]
    refine Leads.step (acceptAny_to (by simp)) ?_
    exact Leads.step (expectName_to hp) (Leads.refl _ _)

/-- An argument list behind a phrase of the tightest level. -/
theorem leads_call {opening closing : Token} {us : List Token} {e : Expr} {es : List Expr} {n : Nat}
    (ho : opening.terminal = .symbol .leftParen) (hc : closing.terminal = .symbol .rightParen)
    (h : ∀ n, Leads (arguments n) (s.to (us ++ closing :: rest) k) (pure es) (s.to (closing :: rest) k')) :
    ∃ m, Leads (suffixes n e) (s.to (opening :: us ++ closing :: rest) k) (suffixes m (.call e closing.lexeme es))
      (s.to rest k') := by
  cases n with
  | zero => exact ⟨0, Leads.spent⟩
  | succ n =>
    refine ⟨n, ?_⟩
    obtain ⟨terminal, line⟩ := opening
    cases ho
    rw [suffixes]
    refine Leads.step (acceptAny_to (by simp)) ?_
    refine Leads.bind (h n) ?_
    exact Leads.step (expect_to hc) (Leads.refl _ _)

theorem follows_callEmpty {opening closing : Token} {e : Expr} (h : ExprFollows (.level .call e) k ts k')
    (ho : opening.terminal = .symbol .leftParen) (hc : closing.terminal = .symbol .rightParen) :
    ExprFollows (.level .call (.call e closing.lexeme [])) k (ts ++ [opening, closing]) k' := by
  have hnone (s : State) (rest : List Token) (n : Nat) :
      Leads (arguments n) (s.to ([] ++ closing :: rest) k') (pure []) (s.to (closing :: rest) k') := by
    cases n with
    | zero => exact Leads.spent
    | succ n =>
      rw [arguments]
      exact Leads.step (isNext_to hc) (Leads.refl _ _)
  exact follows_suffix h fun s rest n => leads_call ho hc (hnone s rest)

theorem follows_call {opening closing : Token} {us : List Token} {e : Expr} {es : List Expr} {k₁ : Int}
    (h : ExprFollows (.level .call e) k ts k₁) (ho : opening.terminal = .symbol .leftParen)
    (hes : ReadsExpr (.arguments es) k₁ us k') (h' : ExprFollows (.arguments es) k₁ us k')
    (hl : es.length ≤ mostArguments) (hc : closing.terminal = .symbol .rightParen) :
    ExprFollows (.level .call (.call e closing.lexeme es)) k (ts ++ opening :: us ++ [closing]) k' := by
  rw [List.append_assoc]
  refine follows_suffix h fun s rest n => ?_
  rw [List.append_assoc]
  refine leads_call ho hc fun n => ?_
  cases n with
  | zero => exact Leads.spent
  | succ n =>
    have hfirst : Avoids [.symbol .rightParen] (us ++ closing :: rest) := by
      obtain ⟨t, vs, rfl, ht⟩ := readsExpr_opens hes
      exact avoids_cons.mpr (not_opens (by decide) ht)
    rw [arguments]
    refine Leads.step (isNext_none hfirst) ?_
    exact h' s (closing :: rest) n 0 (stops_other (joins_symbol hc (by decide))) (by omega)

theorem follows_unary {op : Token} {e : Expr} (ho : op.terminal ∈ unaryOperators)
    (h : ExprFollows (.level .unary e) k ts k') : ExprFollows (.level .unary (.unary op.lexeme e)) k (op :: ts) k' := by
  intro s rest hr n
  cases n with
  | zero => exact ⟨0, Leads.spent⟩
  | succ n =>
    refine ⟨0, ?_⟩
    rw [expression]
    refine Leads.step (acceptAny_to ho) ?_
    exact Leads.bind (h.leads ⟨hr.1, hr.2⟩ s n) (Leads.refl _ _)

/-- An operator of a chain with its right operand, behind what has been read of the chain. -/
theorem follows_chain {l : Level} {us : List Token} {op : Token} {left right : Expr} {k₁ : Int}
    (hleft : ReadsExpr (.level l left) k ts k₁) (h : ExprFollows (.level l left) k ts k₁)
    (ho : op.terminal ∈ l.operators) (h' : ExprFollows (.level l.tighter right) k₁ us k')
    (ht : l = .or_ ∨ l = .and_ → left.endsInTernary = false) :
    ExprFollows (.level l (l.join left op.lexeme right)) k (ts ++ op :: us) k' := by
  have hl : l.operators ≠ [] := List.ne_nil_of_mem ho
  intro s rest hr n
  have hset := settled_of_ready hl hr
  rw [Settled, endsInTernary_join] at hset
  obtain ⟨m, hm⟩ := h s (op :: (us ++ rest)) (ready_chain hl (settled_operator hleft ho ht)) n
  rw [goOn_chain hl] at hm
  rw [List.append_assoc]
  cases m with
  | zero => exact ⟨0, hm.trans Leads.spent⟩
  | succ m =>
    refine ⟨m, hm.trans ?_⟩
    rw [goOn_chain hl, chain]
    refine Leads.step (acceptAny_to ho) ?_
    exact Leads.bind (h'.leads hset s m) (Leads.refl _ _)

/-- A condition with its two branches. -/
theorem follows_ternary {us vs : List Token} {question colon : Token} {cond yes no : Expr} {k₁ k₂ : Int}
    (hcond : ReadsExpr (.level .equality cond) k ts k₁) (h₁ : ExprFollows (.level .equality cond) k ts k₁)
    (hq : question.terminal = .symbol .question) (h₂ : ExprFollows (.level .assignment yes) k₁ us k₂)
    (hc : colon.terminal = .symbol .colon) (h₃ : ExprFollows (.level .assignment no) k₂ vs k') :
    ExprFollows (.level .ternary (.ternary cond yes no)) k (ts ++ question :: us ++ colon :: vs) k' := by
  intro s rest hr n
  cases n with
  | zero => exact ⟨0, Leads.spent⟩
  | succ n =>
    refine ⟨0, ?_⟩
    have hstop : Settled .equality cond (question :: (us ++ colon :: (vs ++ rest))) := by
      refine ⟨fun m hm => ?_, fun ht => ?_⟩
      · rw [avoids_cons, hq]
        revert hm; cases m <;> decide
      · rw [endsInTernary_of_tight hcond (by decide)] at ht; cases ht
    have hno : Settled .assignment no rest := ⟨hr.2 rfl, fun _ => hr.2 rfl⟩
    simp only [List.append_assoc, List.cons_append]
    rw [expression]
    refine Leads.bind (h₁.leads hstop s n) ?_
    refine Leads.step (accept_to hq) ?_
    refine Leads.bind (h₂.leads (settled_end (joins_symbol hc (by decide))) s n) ?_
    refine Leads.step (expect_to hc) ?_
    exact Leads.bind (h₃.leads hno s n) (Leads.refl _ _)

/-- An assignment, when its target has been read. -/
theorem leads_assigned {equals : Token} {us : List Token} {target value e : Expr} {k₁ k₂ : Int}
    (ht : Arrives .or_ target (s.to ts k) (s.to (equals :: (us ++ rest)) k₁))
    (hts : Settled .or_ target (equals :: (us ++ rest)))
    (hq : equals.terminal = .symbol .equal) (h : ExprFollows (.level .assignment value) k₁ us k₂)
    (hs : Settled .assignment value rest)
    (ha : assignment target equals value (s.to rest k₂) = .ok e (s.to rest k')) :
    Arrives .assignment e (s.to ts k) (s.to rest k') := by
  intro n
  cases n with
  | zero => exact ⟨0, Leads.spent⟩
  | succ n =>
    refine ⟨0, ?_⟩
    rw [expression]
    refine Leads.bind (ht.leads hts n) ?_
    refine Leads.step (accept_to hq) ?_
    exact Leads.bind (h.leads hs s n) (Or.inl ha)

theorem stops_equal {equals : Token} (hq : equals.terminal = .symbol .equal) : Stops .or_ (equals :: ts) := by
  intro m hm
  rw [avoids_cons, hq]
  revert hm; cases m <;> decide

theorem follows_assign {target equals : Token} {name : String} {value : Expr} (ht : target.terminal = .ident name)
    (hq : equals.terminal = .symbol .equal) (h : ExprFollows (.level .assignment value) (k + 1) ts k') :
    ExprFollows (.level .assignment (.assign ⟨⟨name, target.line⟩, k'⟩ value)) k (target :: equals :: ts) (k' + 1) := by
  intro s rest hr
  have htarget := follows_atom (follows_ref (k := k) ht) s (equals :: (ts ++ rest)) trivial
  have hu : Avoids unaryOperators (target :: equals :: (ts ++ rest)) :=
    avoids_cons.mpr (not_unary (by rw [ht]; rfl))
  exact leads_assigned (htarget.climb rfl hu (stops_equal hq)) ⟨stops_equal hq, fun h => nomatch h⟩ hq h hr rfl

theorem follows_set {us : List Token} {dot property equals : Token} {name : String} {object value : Expr} {k₁ : Int}
    (hobj : ReadsExpr (.level .call object) k ts k₁) (h : ExprFollows (.level .call object) k ts k₁)
    (hd : dot.terminal = .symbol .dot) (hp : property.terminal = .ident name)
    (hq : equals.terminal = .symbol .equal) (h' : ExprFollows (.level .assignment value) k₁ us k') :
    ExprFollows (.level .assignment (.set object ⟨name, property.line⟩ value)) k
      (ts ++ dot :: property :: equals :: us) k' := by
  intro s rest hr
  have htarget := follows_get h hd hp s (equals :: (us ++ rest)) trivial
  obtain ⟨t, vs, rfl, ht⟩ := readsExpr_opens hobj
  have hu : Avoids unaryOperators (t :: (vs ++ dot :: property :: equals :: (us ++ rest))) :=
    avoids_cons.mpr (not_unary ht)
  simp only [List.append_assoc, List.cons_append, List.nil_append] at htarget ⊢
  exact leads_assigned (htarget.climb rfl hu (stops_equal hq)) ⟨stops_equal hq, fun h => nomatch h⟩ hq h' hr rfl

theorem follows_operand {l : Level} {e : Expr} (hl : l ≠ .call) (he : ReadsExpr (.level l.tighter e) k ts k')
    (h : ExprFollows (.level l.tighter e) k ts k') : ExprFollows (.level l e) k ts k' := by
  intro s rest hr
  have hset : Settled l.tighter e rest := by
    cases l with
    | call => exact absurd rfl hl
    | assignment | ternary | unary => exact Settled.tighter hr
    | _ => exact hr
  refine Arrives.looser hl (h s rest hset.ready) hset hr fun hu => ?_
  subst hu
  obtain ⟨t, us, rfl, ht⟩ := readsExpr_opens he
  exact avoids_cons.mpr (not_unary ht)

theorem follows_last {e : Expr} (h : ExprFollows (.level .assignment e) k ts k') :
    ExprFollows (.arguments [e]) k ts k' := by
  intro s rest n count hs _
  refine Leads.bind (h.leads ⟨hs.tighter, fun _ => hs.tighter⟩ s n) ?_
  cases n with
  | zero => exact Leads.spent
  | succ n =>
    rw [moreArguments]
    refine Leads.bind (Leads.step (acceptAny_none (hs .comma (Nat.le_refl _))) (Leads.refl _ _)) ?_
    exact Leads.refl _ _

theorem ne_nil_of_arguments {es : List Expr} (h : ReadsExpr (.arguments es) k ts k') : es ≠ [] := by
  cases h with
  | last => exact List.cons_ne_nil _ _
  | more => exact List.cons_ne_nil _ _

/-- An argument in front of others. -/
theorem follows_more {us : List Token} {comma : Token} {e : Expr} {es : List Expr} {k₁ : Int}
    (h : ExprFollows (.level .assignment e) k ts k₁) (hc : comma.terminal = .symbol .comma)
    (hes : ReadsExpr (.arguments es) k₁ us k') (h' : ExprFollows (.arguments es) k₁ us k') :
    ExprFollows (.arguments (e :: es)) k (ts ++ comma :: us) k' := by
  intro s rest n count hs hl
  have hstop : Stops .assignment (comma :: (us ++ rest)) :=
    stops_operator (l := .comma) (by rw [hc]; decide)
  rw [List.append_assoc]
  refine Leads.bind (h.leads ⟨hstop, fun _ => hstop⟩ s n) ?_
  cases n with
  | zero => exact Leads.spent
  | succ n =>
    rw [List.length_cons] at hl
    have hcount : ¬ mostArguments ≤ count + 1 := by
      have := List.length_pos_iff.mpr (ne_nil_of_arguments hes)
      omega
    rw [moreArguments]
    refine Leads.bind (Leads.step (accept_to hc) ?_) (Leads.refl _ _)
    simp only [if_neg hcount]
    exact h' s rest n (count + 1) hs (by omega)

/-- Every expression that is read by the grammar is found by the parser, whatever is behind it. -/
theorem readsExpr_follows {p : Phrase} (h : ReadsExpr p k ts k') : ExprFollows p k ts k' := by
  induction h with
  | true_ ht | false_ ht | nil ht | number ht | string ht | this ht =>
    exact follows_token ht fun s rest n => by rw [primary]; rfl
  | ref ht => exact follows_ref ht
  | super ht hd hm => exact follows_super ht hd hm
  | group ho _ hc ih => exact follows_group ho ih hc
  | atom _ ih => exact follows_atom ih
  | get _ hd hp ih => exact follows_get ih hd hp
  | callEmpty _ ho hc ih => exact follows_callEmpty ih ho hc
  | call _ ho hes hl hc ih ih' => exact follows_call ih ho hes ih' hl hc
  | unary ho _ ih => exact follows_unary ho ih
  | chain hleft ho _ ht ih ih' => exact follows_chain hleft ih ho ih' ht
  | ternary hcond hq _ hc _ ih₁ ih₂ ih₃ => exact follows_ternary hcond ih₁ hq ih₂ hc ih₃
  | assign ht hq _ ih => exact follows_assign ht hq ih
  | set hobj hd hp hq _ ih ih' => exact follows_set hobj ih hd hp hq ih'
  | operand hl he ih => exact follows_operand hl he ih
  | last _ ih => exact follows_last ih
  | more _ hc hes ih ih' => exact follows_more ih hc hes ih'

end Lox.Grammar
