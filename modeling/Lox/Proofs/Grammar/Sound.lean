/-
  Lox.Proofs.Grammar.Sound — an expression that is read without an error is a reading of
  the tokens that were taken, and no rule could have gone on behind it.

  `Finds p s s'`: if there is no error at `s'` there was none at `s`, and the tokens taken
  in between are a `p`. The induction is on the bound on the nesting of rules; what is
  known of every rule at one bound is `ExprSound`.
-/

import Lox.Proofs.Grammar.Follow

namespace Lox.Grammar

/-- If nothing is reported, what has been read since the first state is a word of `p`, with its
slots. -/
def Finds (p : Int → List Token → Int → Prop) (s s' : State) : Prop :=
  s'.errors = #[] → s.errors = #[] ∧ s'.loops = s.loops ∧
    ∃ ts, s.rest = ts ++ s'.rest ∧ p s.nextSlot ts s'.nextSlot

/-- What may be a list of arguments: nothing, or a bounded list. -/
def ReadsArguments (es : List Expr) (k : Int) (ts : List Token) (k' : Int) : Prop :=
  es = [] ∧ ts = [] ∧ k' = k ∨ ReadsExpr (.arguments es) k ts k' ∧ es.length ≤ mostArguments

structure ExprSound (n : Nat) : Prop where
  expression : ∀ {l e s s'}, expression n l s = .ok e s' →
    Finds (fun k ts k' => ReadsExpr (.level l e) k ts k' ∧ Settled l e s'.rest) s s'
  chain : ∀ {l left e s s'}, l.operators ≠ [] → chain n l left s = .ok e s' →
    Finds (fun k ts k' => ∀ k₀ us, ReadsExpr (.level l left) k₀ us k → Settled l.tighter left s.rest →
      ReadsExpr (.level l e) k₀ (us ++ ts) k' ∧ Settled l e s'.rest) s s'
  suffixes : ∀ {left e s s'}, suffixes n left s = .ok e s' →
    Finds (fun k ts k' => ∀ k₀ us, ReadsExpr (.level .call left) k₀ us k →
      ReadsExpr (.level .call e) k₀ (us ++ ts) k' ∧ Settled .call e s'.rest) s s'
  arguments : ∀ {es s s'}, arguments n s = .ok es s' → Finds (ReadsArguments es) s s'
  moreArguments : ∀ {count es s s'}, moreArguments n count s = .ok es s' →
    Finds (fun k ts k' => ∀ e k₀ us, ReadsExpr (.level .assignment e) k₀ us k → count ≤ mostArguments →
      ReadsExpr (.arguments (e :: es)) k₀ (us ++ ts) k' ∧ count + es.length ≤ mostArguments) s s'
  primary : ∀ {e s s'}, primary n s = .ok e s' → Finds (ReadsExpr (.primary e)) s s'

/-! ## One rule at a time -/

theorem expression_chain {l : Level} (h : l.operators ≠ []) (n : Nat) :
    expression (n + 1) l = expression n l.tighter >>= fun left => chain n l left := by
  cases l <;> first | rfl | exact absurd rfl h

theorem settled_call {e : Expr} {k k' : Int} {ts rest : List Token} (h : ReadsExpr (.level .call e) k ts k')
    (hr : Avoids Level.call.joins rest) : Settled .call e rest := by
  refine ⟨stops_call.mpr hr, fun he => ?_⟩
  rw [endsInTernary_of_call h] at he
  cases he

variable {n : Nat}

theorem sound_chained (ih : ExprSound n) {l : Level} (hl : l.operators ≠ []) {e : Expr} {s s' : State}
    (h : expression (n + 1) l s = .ok e s') :
    Finds (fun k ts k' => ReadsExpr (.level l e) k ts k' ∧ Settled l e s'.rest) s s' := by
  rw [expression_chain hl, bind_ok] at h
  obtain ⟨left, s₁, h₁, h₂⟩ := h
  intro he
  obtain ⟨he₁, hl₁, us, hr₁, hg⟩ := ih.chain hl h₂ he
  obtain ⟨he₀, hl₀, ts, hr₀, hleft, hset⟩ := ih.expression h₁ he₁
  refine ⟨he₀, hl₁.trans hl₀, ts ++ us, by rw [hr₀, hr₁, List.append_assoc], ?_⟩
  exact hg _ _ (.operand (Level.ne_call_of_chain hl) hleft) hset

theorem not_reported {s : State} {d : Diagnostic} : ¬ (s.report d).errors = #[] := by
  simp [State.report]

/-- An assignment is found only where its left side can be assigned to. -/
theorem sound_assigned (ih : ExprSound n) {e : Expr} {s s' : State}
    (h : expression (n + 1) .assignment s = .ok e s') :
    Finds (fun k ts k' => ReadsExpr (.level .assignment e) k ts k' ∧ Settled .assignment e s'.rest) s s' := by
  simp only [expression, bind_ok, acceptSymbol, accept_ok] at h
  obtain ⟨target, s₁, h₁, r, s₂, ha, h⟩ := h
  intro he
  rcases ha with ⟨equals, rest, hr, ht, rfl, rfl⟩ | ⟨ha, rfl, rfl⟩
  · simp only [bind_ok] at h
    obtain ⟨value, s₃, h₂, h₃⟩ := h
    cases target with
    | ref old =>
      simp only [assignment, bind_ok, newSlot_ok, pure_ok] at h₃
      obtain ⟨k, s₄, ⟨rfl, rfl⟩, rfl, rfl⟩ := h₃
      obtain ⟨he₂, hl₂, us, hr₂, hv, hs₂⟩ := ih.expression h₂ he
      obtain ⟨he₁, hl₁, ts, hr₁, ho, -⟩ := ih.expression h₁ he₂
      obtain ⟨t, name, rfl, hn, rfl, hk⟩ := readsExpr_ref ho
      refine ⟨he₁, hl₂.trans hl₁, t :: equals :: us, ?_, ?_, hs₂⟩
      · rw [hr₁, hr]
        simpa using hr₂
      · exact .assign hn ht (hk ▸ hv)
    | get object property =>
      obtain ⟨rfl, rfl⟩ := pure_ok.mp h₃
      obtain ⟨he₂, hl₂, us, hr₂, hv, hs₂⟩ := ih.expression h₂ he
      obtain ⟨he₁, hl₁, ts, hr₁, ho, -⟩ := ih.expression h₁ he₂
      obtain ⟨vs, dot, t, name, rfl, hd, hn, rfl, hobj⟩ := readsExpr_get ho
      refine ⟨he₁, hl₂.trans hl₁, vs ++ dot :: t :: equals :: us, ?_, ?_, hs₂⟩
      · rw [hr₁, hr]
        simpa using hr₂
      · exact .set hobj hd hn ht hv
    | _ =>
      simp only [assignment, reportAt, bind_ok, pure_ok] at h₃
      obtain ⟨_, _, ⟨⟩, -, rfl⟩ := h₃
      exact absurd he not_reported
  · obtain ⟨rfl, rfl⟩ := pure_ok.mp h
    obtain ⟨he₀, hl₀, ts, hr₀, hor, hset⟩ := ih.expression h₁ he
    refine ⟨he₀, hl₀, ts, hr₀, .operand (by decide) hor, (stops_iff (by decide)).mpr ⟨ha, hset.1⟩, hset.2⟩

/-- A ternary operator is found with both of its branches. -/
theorem sound_ternary (ih : ExprSound n) {e : Expr} {s s' : State}
    (h : expression (n + 1) .ternary s = .ok e s') :
    Finds (fun k ts k' => ReadsExpr (.level .ternary e) k ts k' ∧ Settled .ternary e s'.rest) s s' := by
  simp only [expression, bind_ok, acceptSymbol, accept_ok] at h
  obtain ⟨cond, s₁, h₁, r, s₂, ha, h⟩ := h
  intro he
  rcases ha with ⟨question, rest, hr, hq, rfl, rfl⟩ | ⟨ha, rfl, rfl⟩
  · simp only [bind_ok, expect_ok, pure_ok] at h
    obtain ⟨yes, s₃, h₂, colon, s₄, ⟨rest', hr', hc, rfl⟩, no, s₅, h₃, rfl, rfl⟩ := h
    obtain ⟨he₃, hl₃, vs, hr₃, hno, hs₃⟩ := ih.expression h₃ he
    obtain ⟨he₂, hl₂, us, hr₂, hyes, -⟩ := ih.expression h₂ he₃
    obtain ⟨he₁, hl₁, ts, hr₁, hcond, -⟩ := ih.expression h₁ he₂
    refine ⟨he₁, (hl₃.trans hl₂).trans hl₁, ts ++ question :: us ++ colon :: vs, ?_, ?_, ?_, fun _ => hs₃.1⟩
    · simp only at hr₂ hr₃
      rw [hr₁, hr, hr₂, hr', hr₃]
      simp
    · exact .ternary hcond hq hyes hc hno
    · exact fun m hm => hs₃.1 m (Nat.le_trans hm (by decide))
  · obtain ⟨rfl, rfl⟩ := pure_ok.mp h
    obtain ⟨he₀, hl₀, ts, hr₀, heq, hset⟩ := ih.expression h₁ he
    refine ⟨he₀, hl₀, ts, hr₀, .operand (by decide) heq, (stops_iff (by decide)).mpr ⟨ha, hset.1⟩, hset.2⟩

theorem sound_unary (ih : ExprSound n) {e : Expr} {s s' : State} (h : expression (n + 1) .unary s = .ok e s') :
    Finds (fun k ts k' => ReadsExpr (.level .unary e) k ts k' ∧ Settled .unary e s'.rest) s s' := by
  simp only [expression, bind_ok, acceptAny_ok] at h
  obtain ⟨r, s₁, ha, h⟩ := h
  intro he
  rcases ha with ⟨op, rest, hr, ho, rfl, rfl⟩ | ⟨ha, rfl, rfl⟩
  · simp only [bind_ok, pure_ok] at h
    obtain ⟨operand, s₂, h₁, rfl, rfl⟩ := h
    obtain ⟨he₁, hl₁, ts, hr₁, hop, hset⟩ := ih.expression h₁ he
    exact ⟨he₁, hl₁, op :: ts, by rw [hr]; simpa using hr₁, .unary ho hop, hset⟩
  · obtain ⟨he₀, hl₀, ts, hr₀, hcall, hset⟩ := ih.expression h he
    refine ⟨he₀, hl₀, ts, hr₀, .operand (by decide) hcall, ?_, hset.2⟩
    exact (stops_iff (by decide)).mpr ⟨avoids_empty, hset.1⟩

theorem sound_call (ih : ExprSound n) {e : Expr} {s s' : State} (h : expression (n + 1) .call s = .ok e s') :
    Finds (fun k ts k' => ReadsExpr (.level .call e) k ts k' ∧ Settled .call e s'.rest) s s' := by
  simp only [expression, bind_ok] at h
  obtain ⟨callee, s₁, h₁, h₂⟩ := h
  intro he
  obtain ⟨he₁, hl₁, us, hr₁, hg⟩ := ih.suffixes h₂ he
  obtain ⟨he₀, hl₀, ts, hr₀, hp⟩ := ih.primary h₁ he₁
  exact ⟨he₀, hl₁.trans hl₀, ts ++ us, by rw [hr₀, hr₁, List.append_assoc], hg _ _ (.atom hp)⟩

theorem sound_expression (ih : ExprSound n) {l : Level} {e : Expr} {s s' : State}
    (h : expression (n + 1) l s = .ok e s') :
    Finds (fun k ts k' => ReadsExpr (.level l e) k ts k' ∧ Settled l e s'.rest) s s' := by
  cases l with
  | assignment => exact sound_assigned ih h
  | ternary => exact sound_ternary ih h
  | unary => exact sound_unary ih h
  | call => exact sound_call ih h
  | _ => exact sound_chained ih (by simp [Level.operators]) h

/-- `and` and `or` cannot come behind a ternary, so the left operand of a chain does not end in one. -/
theorem endsInTernary_of_operator {l : Level} {left : Expr} {op : Token} {rest : List Token}
    (hset : left.endsInTernary = true → Stops .assignment (op :: rest)) (ho : op.terminal ∈ l.operators)
    (hl : l = .or_ ∨ l = .and_) : left.endsInTernary = false := by
  cases ht : left.endsInTernary
  · rfl
  · have hs := hset ht l (by rcases hl with rfl | rfl <;> decide)
    rw [avoids_cons] at hs
    rcases hl with rfl | rfl <;> exact absurd ho hs

/-- The operators of a chain are found one by one, each joined to what is on its left. -/
theorem sound_chain (ih : ExprSound n) {l : Level} {left e : Expr} {s s' : State} (hl : l.operators ≠ [])
    (h : chain (n + 1) l left s = .ok e s') :
    Finds (fun k ts k' => ∀ k₀ us, ReadsExpr (.level l left) k₀ us k → Settled l.tighter left s.rest →
      ReadsExpr (.level l e) k₀ (us ++ ts) k' ∧ Settled l e s'.rest) s s' := by
  simp only [chain, bind_ok, acceptAny_ok] at h
  obtain ⟨r, s₁, ha, h⟩ := h
  intro he
  rcases ha with ⟨op, rest, hr, ho, rfl, rfl⟩ | ⟨ha, rfl, rfl⟩
  · simp only [bind_ok] at h
    obtain ⟨right, s₂, h₁, h₂⟩ := h
    obtain ⟨he₂, hl₂, vs, hr₂, hg⟩ := ih.chain hl h₂ he
    obtain ⟨he₁, hl₁, ts, hr₁, hright, hset⟩ := ih.expression h₁ he₂
    refine ⟨he₁, hl₂.trans hl₁, op :: ts ++ vs, ?_, fun k₀ us hleft hs => ?_⟩
    · simp only at hr₁
      rw [hr, hr₁, hr₂]
      simp
    · rw [hr] at hs
      have hj := hg k₀ (us ++ op :: ts) (.chain hleft ho hright (endsInTernary_of_operator hs.2 ho))
        ⟨hset.1, by rw [endsInTernary_join]; exact hset.2⟩
      simpa using hj
  · obtain ⟨rfl, rfl⟩ := pure_ok.mp h
    refine ⟨he, rfl, [], rfl, fun k₀ us hleft hs => ⟨by simpa using hleft, ?_, hs.2⟩⟩
    exact (stops_iff (Level.ne_call_of_chain hl)).mpr ⟨by rwa [Level.joins_of_chain hl], hs.1⟩

/-- Calls and properties are found one by one. -/
theorem sound_suffixes (ih : ExprSound n) {left e : Expr} {s s' : State}
    (h : suffixes (n + 1) left s = .ok e s') :
    Finds (fun k ts k' => ∀ k₀ us, ReadsExpr (.level .call left) k₀ us k →
      ReadsExpr (.level .call e) k₀ (us ++ ts) k' ∧ Settled .call e s'.rest) s s' := by
  simp only [suffixes, bind_ok, acceptAny_ok] at h
  obtain ⟨r, s₁, ha, h⟩ := h
  intro he
  rcases ha with ⟨⟨terminal, line⟩, rest, hr, ht, rfl, rfl⟩ | ⟨ha, rfl, rfl⟩
  · simp only [List.mem_cons, List.not_mem_nil, or_false] at ht
    rcases ht with rfl | rfl
    · simp only [bind_ok, expect_ok] at h
      obtain ⟨es, s₂, h₁, paren, s₃, ⟨rest', hr', hp, rfl⟩, h₂⟩ := h
      obtain ⟨he₂, hl₂, vs, hr₂, hg⟩ := ih.suffixes h₂ he
      obtain ⟨he₁, hl₁, ts, hr₁, hargs⟩ := ih.arguments h₁ he₂
      simp only at hr₁ hr₂
      refine ⟨he₁, hl₂.trans hl₁, ⟨.symbol .leftParen, line⟩ :: ts ++ paren :: vs, ?_, fun k₀ us hleft => ?_⟩
      · rw [hr, hr₁, hr', hr₂]
        simp
      · rcases hargs with ⟨rfl, rfl, hk⟩ | ⟨hargs, hlen⟩
        · rw [show s.nextSlot = s₂.nextSlot from hk.symm] at hleft
          have hcall : ReadsExpr (.level .call (.call left paren.lexeme [])) k₀
              (us ++ [⟨.symbol .leftParen, line⟩, paren]) s₂.nextSlot := .callEmpty hleft rfl hp
          simpa using hg k₀ _ hcall
        · have hcall : ReadsExpr (.level .call (.call left paren.lexeme es)) k₀
              (us ++ ⟨.symbol .leftParen, line⟩ :: ts ++ [paren]) s₂.nextSlot := .call hleft rfl hargs hlen hp
          simpa using hg k₀ _ hcall
    · simp only [bind_ok, expectName_ok] at h
      obtain ⟨⟨name, l'⟩, s₂, ⟨t, rest', hr', hn, rfl, rfl⟩, h₂⟩ := h
      obtain ⟨he₂, hl₂, vs, hr₂, hg⟩ := ih.suffixes h₂ he
      simp only at hr' hr₂
      refine ⟨he₂, hl₂, ⟨.symbol .dot, line⟩ :: t :: vs, ?_, fun k₀ us hleft => ?_⟩
      · rw [hr, hr', hr₂]
        simp
      · have hget : ReadsExpr (.level .call (.get left ⟨name, t.line⟩)) k₀
            (us ++ [⟨.symbol .dot, line⟩, t]) s.nextSlot := .get hleft rfl hn
        simpa using hg k₀ _ hget
  · obtain ⟨rfl, rfl⟩ := pure_ok.mp h
    exact ⟨he, rfl, [], rfl, fun k₀ us hleft => ⟨by simpa using hleft, settled_call hleft ha⟩⟩

/-- Arguments are found up to the closing parenthesis. -/
theorem sound_arguments (ih : ExprSound n) {es : List Expr} {s s' : State}
    (h : arguments (n + 1) s = .ok es s') : Finds (ReadsArguments es) s s' := by
  simp only [arguments, bind_ok, isNext_ok] at h
  obtain ⟨b, s₁, ⟨hb, rfl⟩, h⟩ := h
  intro he
  rcases hb with ⟨t, rest, hr, ht, rfl⟩ | ⟨ha, rfl⟩
  · obtain ⟨rfl, rfl⟩ := pure_ok.mp h
    exact ⟨he, rfl, [], rfl, Or.inl ⟨rfl, rfl, rfl⟩⟩
  · simp only [Bool.false_eq_true, if_false, bind_ok, pure_ok] at h
    obtain ⟨first, s₂, h₁, others, s₃, h₂, rfl, rfl⟩ := h
    obtain ⟨he₂, hl₂, vs, hr₂, hg⟩ := ih.moreArguments h₂ he
    obtain ⟨he₁, hl₁, ts, hr₁, hfirst, -⟩ := ih.expression h₁ he₂
    obtain ⟨hargs, hlen⟩ := hg _ _ _ hfirst (by decide)
    refine ⟨he₁, hl₂.trans hl₁, ts ++ vs, by rw [hr₁, hr₂, List.append_assoc], Or.inr ⟨hargs, ?_⟩⟩
    rw [List.length_cons]
    omega

theorem sound_moreArguments (ih : ExprSound n) {count : Nat} {es : List Expr} {s s' : State}
    (h : moreArguments (n + 1) count s = .ok es s') :
    Finds (fun k ts k' => ∀ e k₀ us, ReadsExpr (.level .assignment e) k₀ us k → count ≤ mostArguments →
      ReadsExpr (.arguments (e :: es)) k₀ (us ++ ts) k' ∧ count + es.length ≤ mostArguments) s s' := by
  simp only [moreArguments, bind_ok, acceptSymbol, accept_ok] at h
  obtain ⟨r, s₁, ha, h⟩ := h
  intro he
  rcases ha with ⟨comma, rest, hr, hc, rfl, rfl⟩ | ⟨ha, rfl, rfl⟩
  · by_cases hcount : mostArguments ≤ count
    · simp only [if_pos hcount, bind_ok, report_ok, pure_ok] at h
      obtain ⟨_, _, rfl, next, s₂, h₁, others, s₃, h₂, -, rfl⟩ := h
      have he₂ := (ih.moreArguments h₂ he).1
      exact absurd (ih.expression h₁ he₂).1 not_reported
    · simp only [if_neg hcount, bind_ok, pure_ok] at h
      obtain ⟨next, s₂, h₁, others, s₃, h₂, rfl, rfl⟩ := h
      obtain ⟨he₂, hl₂, vs, hr₂, hg⟩ := ih.moreArguments h₂ he
      obtain ⟨he₁, hl₁, ts, hr₁, hnext, -⟩ := ih.expression h₁ he₂
      simp only at hr₁
      refine ⟨he₁, hl₂.trans hl₁, comma :: ts ++ vs, ?_, fun e k₀ us hfirst _ => ?_⟩
      · rw [hr, hr₁, hr₂]
        simp
      · obtain ⟨hargs, hlen⟩ := hg _ _ _ hnext (by omega)
        refine ⟨by simpa using ReadsExpr.more hfirst hc hargs, ?_⟩
        rw [List.length_cons]
        omega
  · obtain ⟨rfl, rfl⟩ := pure_ok.mp h
    refine ⟨he, rfl, [], rfl, fun e k₀ us hfirst hcount => ⟨?_, by simpa using hcount⟩⟩
    simpa using ReadsExpr.last hfirst

theorem finds_token {p : Int → List Token → Int → Prop} {s s' : State} {t : Token} {rest : List Token}
    (hr : s.rest = t :: rest) (hp : p s.nextSlot [t] s'.nextSlot) (hs : s' = { s with rest, nextSlot := s'.nextSlot }) :
    Finds p s s' := by
  intro he
  rw [hs] at he ⊢
  exact ⟨he, rfl, [t], hr, hp⟩

/-- A method of the superclass takes one slot. -/
theorem sound_super {s s' : State} {t : Token} {rest : List Token} {e : Expr} (hr : s.rest = t :: rest)
    (ht : t.terminal = .keyword .super)
    (h : (do
      skip
      let _ ← expect .dot .afterSuper
      let method ← expectName .superMethod
      return Expr.super ⟨t.lexeme, ← newSlot⟩ method : Parse Expr) s = .ok e s') :
    Finds (ReadsExpr (.primary e)) s s' := by
  simp only [skip_bind, bind_ok, expect_ok, expectName_ok, newSlot_ok, pure_ok, hr, List.tail_cons] at h
  obtain ⟨dot, s₁, ⟨rest', hr', hd, rfl⟩, ⟨name, line⟩, s₂, ⟨m, rest'', hr'', hm, hl, rfl⟩, k, s₃, ⟨rfl, rfl⟩,
    rfl, rfl⟩ := h
  simp only at hr'' hm hl
  subst hl
  intro he
  refine ⟨he, rfl, [t, dot, m], by rw [hr, hr', hr'']; rfl, ?_⟩
  rw [lexeme_eq ht]
  exact .super ht hd hm

theorem sound_group (ih : ExprSound n) {s s' : State} {t : Token} {rest : List Token} {e : Expr}
    (hr : s.rest = t :: rest) (ht : t.terminal = .symbol .leftParen)
    (h : (do
      skip
      let inner ← expression n .comma
      let _ ← expect .rightParen .afterExpression
      return Expr.group inner : Parse Expr) s = .ok e s') :
    Finds (ReadsExpr (.primary e)) s s' := by
  simp only [skip_bind, bind_ok, expect_ok, pure_ok, hr, List.tail_cons] at h
  obtain ⟨inner, s₁, h₁, closing, s₂, ⟨rest', hr', hc, rfl⟩, rfl, rfl⟩ := h
  intro he
  obtain ⟨he₁, hl₁, ts, hr₁, hinner, -⟩ := ih.expression h₁ he
  simp only at hr₁
  refine ⟨he₁, hl₁, t :: ts ++ [closing], ?_, .group ht hinner hc⟩
  rw [hr, hr₁, hr']
  simp

/-- A primary expression is found by its first token. -/
theorem sound_primary (ih : ExprSound n) {e : Expr} {s s' : State} (h : primary (n + 1) s = .ok e s') :
    Finds (ReadsExpr (.primary e)) s s' := by
  rw [primary, peek_bind] at h
  cases hr : s.rest with
  | nil =>
    rw [hr] at h
    exact absurd h raise_ne_ok
  | cons t rest =>
    rw [hr] at h
    have htail : s.rest.tail = rest := by rw [hr]; rfl
    simp only [List.head?_cons] at h
    generalize ht : t.terminal = terminal at h
    split at h
    next =>
      rw [skip_bind, htail] at h
      obtain ⟨rfl, rfl⟩ := pure_ok.mp h
      exact finds_token hr (.false_ ht) rfl
    next =>
      rw [skip_bind, htail] at h
      obtain ⟨rfl, rfl⟩ := pure_ok.mp h
      exact finds_token hr (.true_ ht) rfl
    next =>
      rw [skip_bind, htail] at h
      obtain ⟨rfl, rfl⟩ := pure_ok.mp h
      exact finds_token hr (.nil ht) rfl
    next literal =>
      rw [skip_bind, htail] at h
      obtain ⟨rfl, rfl⟩ := pure_ok.mp h
      exact finds_token hr (.number ht) rfl
    next text =>
      rw [skip_bind, htail] at h
      obtain ⟨rfl, rfl⟩ := pure_ok.mp h
      exact finds_token hr (.string ht) rfl
    next =>
      simp only [skip_bind, htail, bind_ok, newSlot_ok, pure_ok] at h
      obtain ⟨k, s₁, ⟨rfl, rfl⟩, rfl, rfl⟩ := h
      rw [lexeme_eq ht]
      exact finds_token hr (.this ht) rfl
    next => exact sound_super hr ht h
    next name =>
      simp only [skip_bind, htail, bind_ok, newSlot_ok, pure_ok] at h
      obtain ⟨k, s₁, ⟨rfl, rfl⟩, rfl, rfl⟩ := h
      rw [lexeme_eq ht]
      exact finds_token hr (.ref ht) rfl
    next => exact sound_group ih hr ht h
    next => exact absurd h raise_ne_ok

theorem exprSound (n : Nat) : ExprSound n := by
  induction n with
  | zero =>
    refine ⟨fun h => ?_, fun _ h => ?_, fun h => ?_, fun h => ?_, fun h => ?_, fun h => ?_⟩
    all_goals exact absurd h throw_ne_ok
  | succ n ih =>
    exact ⟨sound_expression ih, sound_chain ih, sound_suffixes ih, sound_arguments ih, sound_moreArguments ih,
      sound_primary ih⟩

end Lox.Grammar
