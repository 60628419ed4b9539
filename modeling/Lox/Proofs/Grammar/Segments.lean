/-
  Lox.Proofs.Grammar.Segments — reading a simple statement takes no notice of what follows
  its semicolon.

  A segment is a list of tokens that is closed by its first semicolon, in which nothing is
  opened that the semicolon would not close: no brace, `else` or `for`, and no token that
  starts a statement but the first. `Ignores x P Q p p'`: where the tokens left satisfy
  `P`, `p'` does with the sequel `x` behind them what `p` does without it, and leaves the
  sequel, for a rule `p` and one `p'` that may be nested deeper; what is left before the
  sequel satisfies `Q`, and if an error is raised the segment is still unclosed. So the
  declaration that a segment is, valid or not, ends with the segment (`ignores_declaration`).
-/

import Lox.Proofs.Grammar.Progress

namespace Lox

/-! ## Segments -/

/-- The terminals that no segment has. -/
def outerTerminals : List Terminal :=
  [.symbol .semicolon, .symbol .leftBrace, .symbol .rightBrace, .keyword .else_, .keyword .for_]

/-- A simple statement as tokens, well formed or not: no braces, no `else` and no `for`, a
semicolon at the end and nowhere else, and nothing behind the first token that a statement could
start with. -/
structure Segment where
  tokens : List Token
  semicolon : Token
  closed : semicolon.terminal = .symbol .semicolon
  simple : ∀ t ∈ tokens, t.terminal ∉ outerTerminals
  /-- Only the first token may start a statement. -/
  inner : ∀ t ∈ tokens.tail, t.terminal.startsStatement = false

def Segment.items (g : Segment) : List Token := g.tokens ++ [g.semicolon]

namespace Grammar

variable {α β : Type}

/-- What is left of a segment behind its first token. -/
inductive Unclosed : List Token → Prop
  | last {t : Token} : t.terminal = .symbol .semicolon → Unclosed [t]
  | cons {t : Token} {ts : List Token} :
      t.terminal ∉ outerTerminals → t.terminal.startsStatement = false → Unclosed ts → Unclosed (t :: ts)

/-- A segment from its first token on. -/
inductive Whole : List Token → Prop
  | unclosed {ts : List Token} : Unclosed ts → Whole ts
  | cons {t : Token} {ts : List Token} : t.terminal ∉ outerTerminals → Unclosed ts → Whole (t :: ts)

theorem Unclosed.ne_nil {ts : List Token} (h : Unclosed ts) : ts ≠ [] := by cases h <;> exact List.cons_ne_nil _ _

theorem Whole.ne_nil {ts : List Token} (h : Whole ts) : ts ≠ [] := by
  cases h with
  | unclosed h => exact h.ne_nil
  | cons _ _ => exact List.cons_ne_nil _ _

theorem Whole.head {t : Token} {ts : List Token} (h : Whole (t :: ts)) :
    (t.terminal = .symbol .semicolon ∧ ts = []) ∨ (t.terminal ∉ outerTerminals ∧ Unclosed ts) := by
  cases h with
  | cons hout hrest => exact Or.inr ⟨hout, hrest⟩
  | unclosed h =>
    cases h with
    | last hs => exact Or.inl ⟨hs, rfl⟩
    | cons hout _ hrest => exact Or.inr ⟨hout, hrest⟩

theorem Unclosed.tail {t : Token} {ts : List Token} (h : Unclosed (t :: ts)) (ht : t.terminal ≠ .symbol .semicolon) :
    Unclosed ts := by
  rcases (Whole.unclosed h).head with ⟨hs, -⟩ | ⟨-, hrest⟩
  · exact absurd hs ht
  · exact hrest

theorem unclosed_of_tokens {ts : List Token} {t : Token} (ht : t.terminal = .symbol .semicolon)
    (h : ∀ u ∈ ts, u.terminal ∉ outerTerminals ∧ u.terminal.startsStatement = false) : Unclosed (ts ++ [t]) := by
  induction ts with
  | nil => exact .last ht
  | cons u ts ih =>
    obtain ⟨hu, hinner⟩ := h u (List.mem_cons_self ..)
    exact .cons hu hinner (ih fun v hv => h v (List.mem_cons_of_mem u hv))

theorem whole_items (g : Segment) : Whole g.items := by
  obtain ⟨tokens, semicolon, hclosed, hsimple, hinner⟩ := g
  cases tokens with
  | nil => exact .unclosed (.last hclosed)
  | cons t ts =>
    exact .cons (hsimple t (List.mem_cons_self ..))
      (unclosed_of_tokens hclosed fun u hu => ⟨hsimple u (List.mem_cons_of_mem t hu), hinner u hu⟩)

/-- Recovery in a segment comes to its end. -/
theorem resume_unclosed {ts : List Token} (h : Unclosed ts) (more : List Token) : resume (ts ++ more) = more := by
  induction h with
  | last ht =>
    cases more with
    | nil => rfl
    | cons next more => simp [resume, ht]
  | @cons t ts ht _ hrest ih =>
    have hne : t.terminal ≠ .symbol .semicolon := fun hs => ht (hs ▸ by decide)
    cases hrest with
    | last hs =>
      have hnext : ∀ {u : Token}, u.terminal = .symbol .semicolon → u.terminal.startsStatement = false :=
        fun hu => hu ▸ rfl
      simpa [resume, hne, hnext hs] using ih
    | cons _ hnext _ => simpa [resume, hne, hnext] using ih

/-! ## Sequels -/

/-- What follows a segment, the errors noted before it included. -/
structure Sequel where
  more : List Token
  endLine : Nat
  errors : Array Diagnostic
  noElse : Avoids [.keyword .else_] more

namespace Sequel

variable (x : Sequel)

def state (s : State) : State where
  rest := s.rest ++ x.more
  endLine := x.endLine
  nextSlot := s.nextSlot
  loops := s.loops
  errors := x.errors ++ s.errors

theorem state_fault {s : State} (h : s.rest ≠ []) (f : SyntaxFault) : (x.state s).fault f = s.fault f := by
  cases hr : s.rest with
  | nil => exact absurd hr h
  | cons t rest => simp [State.fault, state, hr]

theorem state_report (s : State) (d : Diagnostic) : (x.state s).report d = x.state (s.report d) := by
  simp [state, State.report]

end Sequel

/-- From a state of the segment alone, `p` does what `p'` does with the sequel behind it, and
leaves what fulfils `Q`. -/
def Ignores (x : Sequel) (P Q : List Token → Prop) (p p' : Parse α) : Prop :=
  ∀ s, P s.rest →
    match p s with
    | .ok a s₁ => Q s₁.rest ∧ p' (x.state s) = .ok a (x.state s₁)
    | .error (.raised d) s₁ => Unclosed s₁.rest ∧ p' (x.state s) = .error (.raised d) (x.state s₁)
    | .error .outOfFuel _ => True

/-- The segment has been read. -/
def Spent (ts : List Token) : Prop := ts = []

variable {x : Sequel} {P P' Q : List Token → Prop} {p p' : Parse α}

theorem Ignores.ok {a : α} {s s₁ : State} (h : Ignores x P Q p p') (hs : P s.rest) (hp : p s = .ok a s₁) :
    Q s₁.rest ∧ p' (x.state s) = .ok a (x.state s₁) := by
  have hs := h s hs
  rwa [hp] at hs

theorem Ignores.raised {d : Diagnostic} {s s₁ : State} (h : Ignores x P Q p p') (hs : P s.rest)
    (hp : p s = .error (.raised d) s₁) : Unclosed s₁.rest ∧ p' (x.state s) = .error (.raised d) (x.state s₁) := by
  have hs := h s hs
  rwa [hp] at hs

/-! ## Sequences of steps -/

theorem Ignores.before (h : Ignores x P Q p p') (hP : ∀ r, P' r → P r) : Ignores x P' Q p p' :=
  fun s hs => h s (hP _ hs)

theorem ignores_pure (a : α) (hQ : ∀ r, P r → Q r) : Ignores x P Q (pure a) (pure a) := fun _ hs => ⟨hQ _ hs, rfl⟩

theorem ignores_outOfFuel : Ignores x P Q (throw .outOfFuel) p' := fun _ _ => trivial

/-- Two parts ignore the sequel if the first leaves what the second expects. -/
theorem Ignores.bind {R : List Token → Prop} {f f' : α → Parse β} (h : Ignores x P R p p')
    (hf : ∀ a, Ignores x R Q (f a) (f' a)) :
    Ignores x P Q (p >>= f) (p' >>= f') := by
  intro s hs
  cases hp : p s with
  | ok a s₁ =>
    obtain ⟨hrest, hp'⟩ := h.ok hs hp
    rw [bind_of_ok hp, bind_of_ok hp']
    exact hf a s₁ hrest
  | error e s₁ =>
    rw [bind_of_error hp]
    cases e with
    | raised d =>
      obtain ⟨hrest, hp'⟩ := h.raised hs hp
      exact ⟨hrest, bind_of_error hp'⟩
    | outOfFuel => trivial

theorem Ignores.map (h : Ignores x P Q p p') (f : α → β) : Ignores x P Q (do return f (← p)) (do return f (← p')) :=
  h.bind fun a => ignores_pure (f a) fun _ h => h

/-- A step that takes no token. -/
theorem Ignores.of_rest
    (h : ∀ s, P s.rest → ∃ a s₁, s₁.rest = s.rest ∧ p s = .ok a s₁ ∧ p' (x.state s) = .ok a (x.state s₁)) :
    Ignores x P P p p' := by
  intro s hs
  obtain ⟨a, s₁, hrest, hp, hp'⟩ := h s hs
  rw [hp]
  exact ⟨hrest ▸ hs, hp'⟩

theorem ignores_raise (f : SyntaxFault) : Ignores x Unclosed Q (raise f : Parse α) (raise f) := by
  intro s hs
  refine ⟨hs, ?_⟩
  show EStateM.Result.error (Halt.raised ((x.state s).fault f)) (x.state s) = _
  rw [x.state_fault hs.ne_nil]

theorem ignores_report (f : SyntaxFault) : Ignores x Unclosed Unclosed (report f) (report f) := by
  refine .of_rest fun s hs => ⟨(), s.report (s.fault f), rfl, rfl, ?_⟩
  rw [← x.state_report, ← x.state_fault hs.ne_nil]
  rfl

theorem ignores_reportAt (t : Token) (f : SyntaxFault) : Ignores x P P (reportAt t f) (reportAt t f) := by
  refine .of_rest fun s _ => ⟨(), s.report (fault t f), rfl, rfl, ?_⟩
  rw [← x.state_report]
  rfl

theorem ignores_checkLoop (t : Token) (f : SyntaxFault) : Ignores x P P (checkLoop t f) (checkLoop t f) := by
  refine .of_rest fun s _ => ?_
  have hloops : (x.state s).loops = s.loops := rfl
  by_cases hl : s.loops = 0
  · refine ⟨(), s.report (fault t f), rfl, checkLoop_ok.mpr (if_pos hl).symm, checkLoop_ok.mpr ?_⟩
    rw [hloops, if_pos hl, x.state_report]
  · refine ⟨(), s, rfl, checkLoop_ok.mpr (if_neg hl).symm, checkLoop_ok.mpr ?_⟩
    rw [hloops, if_neg hl]

theorem ignores_newSlot : Ignores x P P newSlot newSlot :=
  .of_rest fun s _ => ⟨s.nextSlot, { s with nextSlot := s.nextSlot + 1 }, rfl, rfl, rfl⟩

/-- The next token may be one of the terminals. -/
theorem Ignores.acceptAny {terminals : List Terminal} {f f' : Option Token → Parse α} (hne : ∀ r, P r → r ≠ [])
    (hsome : ∀ t, t.terminal ∈ terminals → Ignores x (fun r => P (t :: r)) Q (f (some t)) (f' (some t)))
    (hnone : Ignores x (fun r => P r ∧ Avoids terminals r) Q (f none) (f' none)) :
    Ignores x P Q (acceptAny terminals >>= f) (acceptAny terminals >>= f') := by
  intro s hs
  cases hr : s.rest with
  | nil => exact absurd hr (hne _ hs)
  | cons t rest =>
    have hr' : (x.state s).rest = t :: (rest ++ x.more) := by rw [Sequel.state, hr]; rfl
    by_cases ht : t.terminal ∈ terminals
    · have hp : Grammar.acceptAny terminals s = .ok (some t) { s with rest } :=
        acceptAny_ok.mpr (Or.inl ⟨t, rest, hr, ht, rfl, rfl⟩)
      have hp' : Grammar.acceptAny terminals (x.state s) = .ok (some t) (x.state { s with rest }) :=
        acceptAny_ok.mpr (Or.inl ⟨t, _, hr', ht, rfl, rfl⟩)
      rw [bind_of_ok hp, bind_of_ok hp']
      rw [hr] at hs
      exact hsome t ht { s with rest } hs
    · have hp : Grammar.acceptAny terminals s = .ok none s :=
        acceptAny_ok.mpr (Or.inr ⟨hr ▸ avoids_cons.mpr ht, rfl, rfl⟩)
      have hp' : Grammar.acceptAny terminals (x.state s) = .ok none (x.state s) :=
        acceptAny_ok.mpr (Or.inr ⟨hr' ▸ avoids_cons.mpr ht, rfl, rfl⟩)
      rw [bind_of_ok hp, bind_of_ok hp']
      exact hnone s ⟨hs, hr ▸ avoids_cons.mpr ht⟩

/-- In a segment no other terminal is the semicolon. -/
theorem ignores_acceptAny {terminals : List Terminal} {f f' : Option Token → Parse α}
    (hterminals : Terminal.symbol .semicolon ∉ terminals)
    (hf : ∀ r, Ignores x Unclosed Q (f r) (f' r)) :
    Ignores x Unclosed Q (acceptAny terminals >>= f) (acceptAny terminals >>= f') := by
  refine .acceptAny (fun _ => Unclosed.ne_nil) (fun t ht => (hf (some t)).before fun r hr => hr.tail ?_)
    ((hf none).before fun _ hr => hr.1)
  rintro hs
  exact hterminals (hs ▸ ht)

theorem ignores_expect {symbol : Symbol} {role : SymbolRole} {f f' : Token → Parse α} (hsymbol : symbol ≠ .semicolon)
    (hf : ∀ t, Ignores x Unclosed Q (f t) (f' t)) :
    Ignores x Unclosed Q (expect symbol role >>= f) (expect symbol role >>= f') := by
  refine Ignores.bind (R := Unclosed) (ignores_acceptAny ?_ fun t => ?_) hf
  · simpa using hsymbol.symm
  · cases t with
    | none => exact ignores_raise _
    | some t => exact ignores_pure t fun _ h => h

/-- The semicolon closes the segment. -/
theorem ignores_closed {role : SymbolRole} (a : α) :
    Ignores x Unclosed Spent (do let _ ← expect .semicolon role; return a)
      (do let _ ← expect .semicolon role; return a) := by
  refine Ignores.bind (R := Spent) ?_ fun _ => ignores_pure a fun _ h => h
  refine .acceptAny (fun _ => Unclosed.ne_nil) (fun t ht => ?_) ((ignores_raise _).before fun _ hr => hr.1)
  refine ignores_pure t fun r hr => ?_
  have ht : t.terminal = .symbol .semicolon := List.mem_singleton.mp ht
  rcases (Whole.unclosed hr).head with ⟨-, hrest⟩ | ⟨hout, -⟩
  · exact hrest
  · exact absurd (ht ▸ by decide) hout

/-- A name is found or missed within the segment. -/
theorem ignores_expectName {role : NameRole} : Ignores x Unclosed Unclosed (expectName role) (expectName role) := by
  intro s hs
  cases hr : s.rest with
  | nil => exact absurd hr hs.ne_nil
  | cons t rest =>
    obtain ⟨terminal, line⟩ := t
    have hr' : (x.state s).rest = ⟨terminal, line⟩ :: (rest ++ x.more) := by rw [Sequel.state, hr]; rfl
    cases terminal with
    | ident name =>
      have hp : expectName role s = .ok ⟨name, line⟩ { s with rest } := expectName_ok.mpr ⟨_, rest, hr, rfl, rfl, rfl⟩
      have hp' : expectName role (x.state s) = .ok ⟨name, line⟩ (x.state { s with rest }) :=
        expectName_ok.mpr ⟨_, _, hr', rfl, rfl, rfl⟩
      rw [hp]
      rw [hr] at hs
      exact ⟨hs.tail (by simp), hp'⟩
    | _ =>
      have hp : expectName role s = raise (.noName role) s := by simp only [expectName, hr]
      have hp' : expectName role (x.state s) = raise (.noName role) (x.state s) := by simp only [expectName, hr']
      rw [hp, hp']
      exact ignores_raise (Q := Unclosed) _ s hs

/-- The next token is looked at. -/
theorem Ignores.peek {f f' : Option Token → Parse α}
    (hf : ∀ t, Ignores x (fun r => Unclosed r ∧ r.head? = some t) Q (f (some t)) (f' (some t))) :
    Ignores x Unclosed Q (peek >>= f) (peek >>= f') := by
  intro s hs
  cases hr : s.rest with
  | nil => exact absurd hr hs.ne_nil
  | cons t rest =>
    have hr' : (x.state s).rest.head? = some t := by rw [Sequel.state, hr]; rfl
    rw [peek_bind, peek_bind, hr', hr]
    exact hf t s ⟨hs, hr ▸ rfl⟩

theorem ignores_isNext (terminal : Terminal) : Ignores x Unclosed Unclosed (isNext terminal) (isNext terminal) :=
  .peek fun _ => ignores_pure _ fun _ h => h.1

theorem ignores_ifNext {terminal : Terminal} {yes no yes' no' : Parse α} (hy : Ignores x Unclosed Q yes yes')
    (hn : Ignores x Unclosed Q no no') : Ignores x Unclosed Q (ifNext terminal yes no) (ifNext terminal yes' no') := by
  refine (ignores_isNext terminal).bind fun b => ?_
  cases b with
  | true => exact hy
  | false => exact hn

/-- A token that has been looked at is taken, if it is not the semicolon. -/
theorem ignores_skip {t : Token} {f f' : Unit → Parse α} (ht : t.terminal ≠ .symbol .semicolon)
    (hf : Ignores x Unclosed Q (f ()) (f' ())) :
    Ignores x (fun r => Unclosed r ∧ r.head? = some t) Q (skip >>= f) (skip >>= f') := by
  intro s ⟨hs, hhead⟩
  cases hr : s.rest with
  | nil => exact absurd hr hs.ne_nil
  | cons u rest =>
    rw [hr] at hs hhead
    obtain rfl : u = t := Option.some.inj hhead
    have hskip : { x.state s with rest := (x.state s).rest.tail } = x.state { s with rest := s.rest.tail } := by
      simp [Sequel.state, hr]
    rw [skip_bind, skip_bind, hskip]
    exact hf { s with rest := s.rest.tail } (hr ▸ hs.tail ht)

/-! ## Expressions -/

theorem ignores_assignment (target : Expr) (equals : Token) (value : Expr) :
    Ignores x P P (assignment target equals value) (assignment target equals value) := by
  cases target with
  | ref old => exact ignores_newSlot.map _
  | get object name => exact ignores_pure _ fun _ h => h
  | _ => exact (ignores_reportAt equals .invalidTarget).map _

/-- The rules for expressions stop before the semicolon. -/
structure ExprIgnores (x : Sequel) (n n' : Nat) : Prop where
  expression : ∀ l, Ignores x Unclosed Unclosed (expression n l) (expression n' l)
  chain : ∀ l left, Ignores x Unclosed Unclosed (chain n l left) (chain n' l left)
  suffixes : ∀ e, Ignores x Unclosed Unclosed (suffixes n e) (suffixes n' e)
  arguments : Ignores x Unclosed Unclosed (arguments n) (arguments n')
  moreArguments : ∀ count, Ignores x Unclosed Unclosed (moreArguments n count) (moreArguments n' count)
  primary : Ignores x Unclosed Unclosed (primary n) (primary n')

variable {n n' : Nat}

theorem ignores_done (a : α) : Ignores x P P (pure a) (pure a) := ignores_pure a fun _ h => h

/-- Each level of expressions ignores what is behind the segment. -/
theorem ignores_expression (ih : ExprIgnores x n n') (l : Level) :
    Ignores x Unclosed Unclosed (expression (n + 1) l) (expression (n' + 1) l) := by
  have hchained : ∀ l l', Ignores x Unclosed Unclosed (do chain n l (← expression n l'))
      (do chain n' l (← expression n' l')) :=
    fun l l' => (ih.expression l').bind fun left => ih.chain l left
  cases l with
  | assignment =>
    refine (ih.expression .or_).bind fun target => ignores_acceptAny (by decide) fun equals => ?_
    cases equals with
    | none => exact ignores_done _
    | some equals => exact (ih.expression .assignment).bind fun value => ignores_assignment target equals value
  | ternary =>
    refine (ih.expression .equality).bind fun cond => ignores_acceptAny (by decide) fun question => ?_
    cases question with
    | none => exact ignores_done _
    | some _ =>
      refine (ih.expression .assignment).bind fun yes => ignores_expect (by decide) fun _ => ?_
      exact (ih.expression .assignment).map _
  | unary =>
    refine ignores_acceptAny (by decide) fun op => ?_
    cases op with
    | none => exact ih.expression .call
    | some op => exact (ih.expression .unary).map _
  | call => exact ih.primary.bind fun callee => ih.suffixes callee
  | comma => exact hchained .comma _
  | or_ => exact hchained .or_ _
  | and_ => exact hchained .and_ _
  | equality => exact hchained .equality _
  | comparison => exact hchained .comparison _
  | term => exact hchained .term _
  | factor => exact hchained .factor _

theorem ignores_chain (ih : ExprIgnores x n n') (l : Level) (left : Expr) :
    Ignores x Unclosed Unclosed (chain (n + 1) l left) (chain (n' + 1) l left) := by
  refine ignores_acceptAny (by cases l <;> decide) fun op => ?_
  cases op with
  | none => exact ignores_done _
  | some op => exact (ih.expression l.tighter).bind fun right => ih.chain l _

theorem ignores_suffixes (ih : ExprIgnores x n n') (e : Expr) :
    Ignores x Unclosed Unclosed (suffixes (n + 1) e) (suffixes (n' + 1) e) := by
  rw [suffixes, suffixes]
  refine ignores_acceptAny (by decide) fun t => ?_
  split
  · exact ignores_done _
  · exact ignores_expectName.bind fun name => ih.suffixes _
  · exact ih.arguments.bind fun args => ignores_expect (by decide) fun paren => ih.suffixes _

theorem ignores_arguments (ih : ExprIgnores x n n') :
    Ignores x Unclosed Unclosed (arguments (n + 1)) (arguments (n' + 1)) := by
  rw [arguments, arguments]
  exact ignores_ifNext (ignores_done _) ((ih.expression .assignment).bind fun first => (ih.moreArguments 1).map _)

theorem ignores_moreArguments (ih : ExprIgnores x n n') (count : Nat) :
    Ignores x Unclosed Unclosed (moreArguments (n + 1) count) (moreArguments (n' + 1) count) := by
  rw [moreArguments, moreArguments]
  refine ignores_acceptAny (by decide) fun comma => ?_
  cases comma with
  | none => exact ignores_done _
  | some _ =>
    have hnext : Ignores x Unclosed Unclosed
        (do let next ← expression n .assignment; return next :: (← moreArguments n (count + 1)))
        (do let next ← expression n' .assignment; return next :: (← moreArguments n' (count + 1))) :=
      (ih.expression .assignment).bind fun next => (ih.moreArguments (count + 1)).map _
    by_cases hcount : mostArguments ≤ count
    · simp only [if_pos hcount]
      exact (ignores_report .tooManyArguments).bind fun _ => hnext
    · simp only [if_neg hcount]
      exact hnext

theorem ignores_primary (ih : ExprIgnores x n n') :
    Ignores x Unclosed Unclosed (primary (n + 1)) (primary (n' + 1)) := by
  rw [primary, primary]
  refine .peek fun t => ?_
  dsimp only
  split
  all_goals first
    | exact (ignores_raise _).before fun _ h => h.1
    | refine ignores_skip (by simp [*]) ?_
  all_goals try first
    | exact ignores_done _
    | exact ignores_newSlot.map _
  · exact ignores_expect (by decide) fun _ => ignores_expectName.bind fun method => ignores_newSlot.map _
  · exact (ih.expression .comma).bind fun inner => ignores_expect (by decide) fun _ => ignores_done _

theorem exprIgnores (x : Sequel) (h : n ≤ n') : ExprIgnores x n n' := by
  induction n generalizing n' with
  | zero =>
    exact ⟨fun _ => ignores_outOfFuel, fun _ _ => ignores_outOfFuel, fun _ => ignores_outOfFuel, ignores_outOfFuel,
      fun _ => ignores_outOfFuel, ignores_outOfFuel⟩
  | succ n ih =>
    obtain ⟨n', rfl⟩ : ∃ k, n' = k + 1 := ⟨n' - 1, by omega⟩
    have ih : ExprIgnores x n n' := ih (Nat.le_of_succ_le_succ h)
    exact ⟨ignores_expression ih, ignores_chain ih, ignores_suffixes ih, ignores_arguments ih, ignores_moreArguments ih,
      ignores_primary ih⟩

/-! ## Statements -/

theorem ignores_comma (h : n ≤ n') : Ignores x Unclosed Unclosed (expression n .comma) (expression n' .comma) :=
  (exprIgnores x h).expression .comma

theorem ignores_variable (h : n ≤ n') : Ignores x Unclosed Spent (variable_ n) (variable_ n') := by
  refine ignores_expectName.bind fun name => ignores_acceptAny (by decide) fun equals => ?_
  cases equals with
  | none => exact Ignores.bind (ignores_done none) fun init => ignores_closed _
  | some _ =>
    exact (ignores_comma h).bind fun value => Ignores.bind (ignores_done (some value)) fun init => ignores_closed _

theorem ignores_expressionStatement (h : n ≤ n') :
    Ignores x Unclosed Spent (expressionStatement n) (expressionStatement n') :=
  (ignores_comma h).bind fun _ => ignores_closed _

theorem ignores_printed (h : n ≤ n') : Ignores x Unclosed Spent (printed n) (printed n') :=
  (ignores_comma h).bind fun _ => ignores_closed _

theorem ignores_returned (h : n ≤ n') (t : Token) : Ignores x Unclosed Spent (returned n t) (returned n' t) :=
  (ignores_ifNext (ignores_done none) ((ignores_comma h).map some)).bind fun _ => ignores_closed _

theorem ignores_broken (t : Token) : Ignores x Unclosed Spent (broken t) (broken t) :=
  (ignores_checkLoop t _).bind fun _ => ignores_closed _

theorem ignores_continued (t : Token) : Ignores x Unclosed Spent (continued t) (continued t) :=
  (ignores_checkLoop t _).bind fun _ => ignores_closed _

/-- A body, which no segment has. -/
theorem ignores_brace {role : SymbolRole} {f f' : Token → Parse α} :
    Ignores x Unclosed Q (expect .leftBrace role >>= f) (expect .leftBrace role >>= f') := by
  refine Ignores.bind (R := fun _ => False) ?_ fun t s hs => hs.elim
  refine .acceptAny (fun _ => Unclosed.ne_nil) (fun t ht s hs => ?_) ((ignores_raise _).before fun _ h => h.1)
  have ht : t.terminal = .symbol .leftBrace := List.mem_singleton.mp ht
  rcases (Whole.unclosed hs).head with ⟨hsemicolon, -⟩ | ⟨hout, -⟩
  · exact absurd (ht.symm.trans hsemicolon) (by decide)
  · exact absurd (ht ▸ by decide) hout

/-- Parameters end within the segment. -/
theorem ignores_parameters (h : n ≤ n') : Ignores x Unclosed Unclosed (parameters n) (parameters n') := by
  have hmore : ∀ count, Ignores x Unclosed Unclosed (moreParameters n count) (moreParameters n' count) := by
    induction n generalizing n' with
    | zero => exact fun _ => ignores_outOfFuel
    | succ n ih =>
      intro count
      obtain ⟨n', rfl⟩ : ∃ k, n' = k + 1 := ⟨n' - 1, by omega⟩
      have hnext : Ignores x Unclosed Unclosed
          (do let next ← expectName .parameter; return next :: (← moreParameters n (count + 1)))
          (do let next ← expectName .parameter; return next :: (← moreParameters n' (count + 1))) :=
        ignores_expectName.bind fun next => (ih (Nat.le_of_succ_le_succ h) (count + 1)).map _
      rw [moreParameters, moreParameters]
      refine ignores_acceptAny (by decide) fun comma => ?_
      cases comma with
      | none => exact ignores_done _
      | some _ =>
        by_cases hcount : mostArguments ≤ count
        · simp only [if_pos hcount]
          exact (ignores_report .tooManyParameters).bind fun _ => hnext
        · simp only [if_neg hcount]
          exact hnext
  exact ignores_ifNext (ignores_done _) (ignores_expectName.bind fun first => (hmore 1).map _)

theorem ignores_routine (h : n ≤ n') (kind : RoutineKind) :
    Ignores x Unclosed Q (routine n kind) (routine n' kind) := by
  cases n with
  | zero => exact ignores_outOfFuel
  | succ n =>
    obtain ⟨n', rfl⟩ : ∃ k, n' = k + 1 := ⟨n' - 1, by omega⟩
    rw [routine, routine]
    refine ignores_expectName.bind fun name => ignores_expect (by decide) fun _ => ?_
    exact (ignores_parameters (Nat.le_of_succ_le_succ h)).bind fun _ => ignores_expect (by decide) fun _ =>
      ignores_brace

theorem ignores_superclass : Ignores x Unclosed Unclosed superclass superclass := by
  refine ignores_acceptAny (by decide) fun less => ?_
  cases less with
  | none => exact ignores_done _
  | some _ => exact ignores_expectName.bind fun name => ignores_newSlot.map _

theorem ignores_class (h : n ≤ n') : Ignores x Unclosed Q (class_ n) (class_ n') := by
  cases n with
  | zero => exact ignores_outOfFuel
  | succ n =>
    obtain ⟨n', rfl⟩ : ∃ k, n' = k + 1 := ⟨n' - 1, by omega⟩
    rw [class_, class_]
    exact ignores_expectName.bind fun name => ignores_superclass.bind fun parent => ignores_brace

/-- Loops are counted alike. -/
theorem Ignores.inLoop (h : Ignores x P Q p p') : Ignores x P Q (inLoop p) (inLoop p') := by
  intro s hs
  have hs' := h { s with loops := s.loops + 1 } hs
  have hstate : { x.state s with loops := (x.state s).loops + 1 } = x.state { s with loops := s.loops + 1 } := rfl
  unfold Grammar.inLoop withLoops
  rw [hstate]
  cases hp : p { s with loops := s.loops + 1 } with
  | ok a s₁ =>
    rw [hp] at hs'
    rw [hs'.2]
    exact ⟨hs'.1, rfl⟩
  | error e s₁ =>
    rw [hp] at hs'
    cases e with
    | raised d =>
      dsimp only at hs'
      rw [hs'.2]
      exact ⟨hs'.1, rfl⟩
    | outOfFuel => trivial

/-- Neither behind the segment nor behind its sequel is there an `else`. -/
theorem ignores_noElse {f f' : Option Token → Parse α} (hf : Ignores x Spent Q (f none) (f' none)) :
    Ignores x Spent Q (acceptKeyword .else_ >>= f) (acceptKeyword .else_ >>= f') := by
  intro s hs
  have hrest : s.rest = [] := hs
  have hp : acceptKeyword .else_ s = .ok none s := accept_ok.mpr (Or.inr ⟨hrest ▸ avoids_nil, rfl, rfl⟩)
  have hp' : acceptKeyword .else_ (x.state s) = .ok none (x.state s) := by
    refine accept_ok.mpr (Or.inr ⟨?_, rfl, rfl⟩)
    show Avoids _ (s.rest ++ x.more)
    rw [hrest]
    exact x.noElse
  rw [bind_of_ok hp, bind_of_ok hp']
  exact hf s hs

/-- A declaration that is no statement starts with one of these. -/
def declarationStarts : List Terminal := [.keyword .class_, .keyword .fun_, .keyword .var]

/-- A segment that may be a statement. -/
structure Plain (ts : List Token) : Prop where
  whole : Whole ts
  avoids : Avoids declarationStarts ts

theorem Unclosed.plain {ts : List Token} (h : Unclosed ts) : Plain ts := by
  refine ⟨.unclosed h, ?_⟩
  cases h with
  | last ht => exact avoids_cons.mpr (by simp [declarationStarts, ht])
  | @cons t ts _ hinner _ =>
    refine avoids_cons.mpr fun hm => ?_
    simp only [declarationStarts, List.mem_cons, List.not_mem_nil, or_false] at hm
    rcases hm with hm | hm | hm <;> simp [hm, Terminal.startsStatement, Keyword.startsStatement] at hinner

/-- A segment that starts with nothing that tells what it is. -/
theorem Plain.unclosed {ts : List Token} (h : Plain ts) (hstarts : Avoids statementStarts ts) : Unclosed ts := by
  obtain ⟨hwhole, havoids⟩ := h
  cases hwhole with
  | unclosed h => exact h
  | @cons t ts hout hrest =>
    refine .cons hout ?_ hrest
    rw [avoids_cons] at havoids hstarts
    cases ht : t.terminal with
    | keyword k =>
      cases k <;> simp_all [declarationStarts, statementStarts, Terminal.startsStatement, Keyword.startsStatement]
    | _ => rfl

/-- What starts with one of the terminals, and what does not. -/
theorem ignores_start {terminals : List Terminal} {f f' : Option Token → Parse α}
    (hsemicolon : Terminal.symbol .semicolon ∉ terminals) (hP : ∀ r, P r → Whole r)
    (hsome : ∀ t, t.terminal ∈ terminals → t.terminal ∉ outerTerminals → Ignores x Unclosed Q (f (some t))
    (f' (some t)))
    (hnone : Ignores x (fun r => P r ∧ Avoids terminals r) Q (f none) (f' none)) :
    Ignores x P Q (acceptAny terminals >>= f) (acceptAny terminals >>= f') := by
  refine .acceptAny (fun r hr => (hP r hr).ne_nil) (fun t ht s hs => ?_) hnone
  rcases (hP _ hs).head with ⟨hs, -⟩ | ⟨hout, hrest⟩
  · exact absurd (hs ▸ ht) hsemicolon
  · exact hsome t ht hout s hrest

structure StmtIgnores (x : Sequel) (n n' : Nat) : Prop where
  statement : Ignores x Plain Spent (statement n) (statement n')
  conditional : Ignores x Unclosed Spent (conditional n) (conditional n')
  while_ : Ignores x Unclosed Spent (while_ n) (while_ n')

/-- A statement of the segment is read as it is without a sequel. -/
theorem ignores_statement (ih : StmtIgnores x n n') (h : n ≤ n') :
    Ignores x Plain Spent (statement (n + 1)) (statement (n' + 1)) := by
  rw [statement, statement]
  refine ignores_start (by decide) (fun _ hr => hr.whole) (fun t ht hout => ?_) ?_
  · simp only [statementStarts, List.mem_cons, List.not_mem_nil, or_false] at ht
    rcases ht with ht | ht | ht | ht | ht | ht | ht | ht
    all_goals simp only [ht]
    · exact ignores_printed h
    · exact absurd (ht ▸ by decide) hout
    · exact ih.conditional
    · exact ih.while_
    · exact absurd (ht ▸ by decide) hout
    · exact ignores_returned h t
    · exact ignores_broken t
    · exact ignores_continued t
  · exact (ignores_expressionStatement h).before fun r hr => hr.1.unclosed hr.2

theorem ignores_conditional (ih : StmtIgnores x n n') (h : n ≤ n') :
    Ignores x Unclosed Spent (conditional (n + 1)) (conditional (n' + 1)) := by
  rw [conditional, conditional]
  refine ignores_expect (by decide) fun _ => (ignores_comma h).bind fun test => ignores_expect (by decide) fun _ => ?_
  exact (ih.statement.before fun _ => Unclosed.plain).bind fun yes => ignores_noElse (ignores_done _)

theorem ignores_while (ih : StmtIgnores x n n') (h : n ≤ n') :
    Ignores x Unclosed Spent (while_ (n + 1)) (while_ (n' + 1)) := by
  rw [while_, while_]
  refine ignores_expect (by decide) fun _ => (ignores_comma h).bind fun test => ignores_expect (by decide) fun _ => ?_
  exact (ih.statement.before fun _ => Unclosed.plain).inLoop.map _

theorem stmtIgnores (x : Sequel) (h : n ≤ n') : StmtIgnores x n n' := by
  induction n generalizing n' with
  | zero => exact ⟨ignores_outOfFuel, ignores_outOfFuel, ignores_outOfFuel⟩
  | succ n ih =>
    obtain ⟨n', rfl⟩ : ∃ k, n' = k + 1 := ⟨n' - 1, by omega⟩
    have h : n ≤ n' := Nat.le_of_succ_le_succ h
    exact ⟨ignores_statement (ih h) h, ignores_conditional (ih h) h, ignores_while (ih h) h⟩

/-! ## Declarations -/

/-- Recovery from an error stops at the end of the segment. -/
theorem Ignores.recovering {p p' : Parse Stmt} (h : Ignores x Whole Spent p p') :
    Ignores x Whole Spent (recovering p) (recovering p') := by
  intro s hs
  unfold Grammar.recovering
  cases hp : p s with
  | ok stmt s₁ =>
    obtain ⟨hrest, hp'⟩ := h.ok hs hp
    rw [hp']
    exact ⟨hrest, rfl⟩
  | error e s₁ =>
    cases e with
    | raised d =>
      obtain ⟨hrest, hp'⟩ := h.raised hs hp
      have hspent : resume s₁.rest = [] := by simpa using resume_unclosed hrest []
      rw [hp']
      refine ⟨hspent, congrArg (EStateM.Result.ok none) ?_⟩
      rw [x.state_report]
      simp only [Sequel.state, State.report, resume_unclosed hrest x.more, hspent, List.nil_append]
    | outOfFuel => trivial

/-- A declaration of a segment is read, or recovered from, as it is without a sequel. -/
theorem ignores_declaration (x : Sequel) (h : n ≤ n') : Ignores x Whole Spent (declaration n) (declaration n') := by
  cases n with
  | zero => exact ignores_outOfFuel
  | succ n =>
    obtain ⟨n', rfl⟩ : ∃ k, n' = k + 1 := ⟨n' - 1, by omega⟩
    have h : n ≤ n' := Nat.le_of_succ_le_succ h
    rw [declaration, declaration]
    refine Ignores.recovering (ignores_start (by decide) (fun _ hr => hr) (fun t ht _ => ?_) ?_)
    · obtain ⟨terminal, line⟩ := t
      simp only [List.mem_cons, List.not_mem_nil, or_false] at ht
      rcases ht with rfl | rfl | rfl
      · exact ignores_class h
      · exact (ignores_routine h .function).map _
      · exact ignores_variable h
    · exact (stmtIgnores x h).statement.before fun r hr => ⟨hr.1, hr.2⟩

end Grammar

end Lox
