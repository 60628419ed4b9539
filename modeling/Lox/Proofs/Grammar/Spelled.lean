/-
  Lox.Proofs.Grammar.Spelled — names, operators and texts of a tree that is read are spelled
  as those of the tokens, whatever the errors (`parse_spelled`).

  `Yields p Q`: from tokens that are spelled as tokens of a text are, `p` leaves only such
  tokens, and what it gives is as `Q` says. A rule that raises an error leaves such tokens
  too, so reading resumes among them.

  For statements this is said of any family of predicates that the rules keep (`Kept`,
  `parse_kept`), so what else holds of every statement that is read needs no other walk
  over the rules.
-/

import Lox.Proofs.Grammar.Programs
import Lox.Proofs.Printed.Spelled

namespace Lox

namespace Grammar

variable {α β : Type}

def AllSpelled (ts : List Token) : Prop := ∀ t ∈ ts, t.terminal.IsSpelled

/-- From spelled tokens the part makes what fulfils `Q`, if it makes anything. -/
def Yields (p : Parse α) (Q : α → Prop) : Prop :=
  ∀ s, AllSpelled s.rest →
    match p s with
    | .ok a s' => AllSpelled s'.rest ∧ Q a
    | .error _ s' => AllSpelled s'.rest

variable {Q : α → Prop} {R : β → Prop} {n : Nat}

/-! ## Sequences of steps -/

theorem yields_pure {a : α} (h : Q a) : Yields (pure a) Q := fun _ hs => ⟨hs, h⟩

theorem yields_outOfFuel : Yields (throw .outOfFuel) Q := fun _ hs => hs

theorem yields_raise (f : SyntaxFault) : Yields (raise f) Q := fun _ hs => hs

theorem Yields.bind {p : Parse α} {f : α → Parse β} (h : Yields p Q) (hf : ∀ a, Q a → Yields (f a) R) :
    Yields (p >>= f) R := by
  intro s hs
  have hp := h s hs
  cases hps : p s with
  | error e s₁ =>
    rw [hps] at hp
    rw [bind_of_error hps]
    exact hp
  | ok a s₁ =>
    rw [hps] at hp
    rw [bind_of_ok hps]
    exact hf a hp.2 s₁ hp.1

theorem Yields.map {p : Parse α} {f : α → β} (h : Yields p Q) (hf : ∀ a, Q a → R (f a)) :
    Yields (do return f (← p)) R :=
  h.bind fun a ha => yields_pure (hf a ha)

theorem Yields.mono {p : Parse α} {Q' : α → Prop} (h : Yields p Q) (hq : ∀ a, Q a → Q' a) : Yields p Q' := by
  intro s hs
  have hp := h s hs
  cases hps : p s with
  | ok a s' =>
    rw [hps] at hp
    exact ⟨hp.1, hq a hp.2⟩
  | error e s' =>
    rw [hps] at hp
    exact hp

/-! ## Steps -/

theorem yields_peek : Yields peek fun t => ∀ t' ∈ t, t'.terminal.IsSpelled :=
  fun _ hs => ⟨hs, fun t ht => hs t (List.mem_of_mem_head? ht)⟩

theorem yields_skip : Yields skip fun _ => True := fun _ hs => ⟨fun t ht => hs t (List.mem_of_mem_tail ht), trivial⟩

theorem yields_newSlot : Yields newSlot fun _ => True := fun _ hs => ⟨hs, trivial⟩

theorem yields_report (f : SyntaxFault) : Yields (report f) fun _ => True := fun _ hs => ⟨hs, trivial⟩

theorem yields_reportAt (t : Token) (f : SyntaxFault) : Yields (reportAt t f) fun _ => True := fun _ hs => ⟨hs, trivial⟩

theorem yields_checkLoop (t : Token) (f : SyntaxFault) : Yields (checkLoop t f) fun _ => True := by
  intro s hs
  unfold checkLoop
  by_cases h : s.loops = 0
  · rw [if_pos h]
    exact ⟨hs, trivial⟩
  · rw [if_neg h]
    exact ⟨hs, trivial⟩

theorem yields_isNext (terminal : Terminal) : Yields (isNext terminal) fun _ => True := by
  refine yields_peek.bind fun t _ => ?_
  cases t <;> exact yields_pure trivial

theorem yields_atClose : Yields atClose fun _ => True := by
  refine yields_peek.bind fun t _ => ?_
  cases t <;> exact yields_pure trivial

/-- The token that is taken is one of those that are asked for. -/
theorem yields_acceptAny (terminals : List Terminal) :
    Yields (acceptAny terminals) fun t => ∀ t' ∈ t, t'.terminal ∈ terminals := by
  intro s hs
  obtain ⟨rest, endLine, nextSlot, loops, errors⟩ := s
  cases rest with
  | nil => exact ⟨hs, by simp⟩
  | cons t rest =>
    unfold acceptAny
    by_cases h : t.terminal ∈ terminals
    · simp only [h, if_true]
      exact ⟨fun u hu => hs u (List.mem_cons_of_mem _ hu), fun u hu => by cases hu; exact h⟩
    · simp only [h, if_false]
      exact ⟨hs, by simp⟩

theorem yields_expect (symbol : Symbol) (role : SymbolRole) :
    Yields (expect symbol role) fun t => t.text = symbol.text := by
  refine (yields_acceptAny _).bind fun t ht => ?_
  cases t with
  | none => exact yields_raise _
  | some t => exact yields_pure (congrArg Terminal.text (List.mem_singleton.mp (ht t rfl)))

theorem yields_expectName (role : NameRole) : Yields (expectName role) fun x => IsName x.text := by
  intro s hs
  obtain ⟨rest, endLine, nextSlot, loops, errors⟩ := s
  cases rest with
  | nil => exact hs
  | cons t rest =>
    obtain ⟨terminal, line⟩ := t
    cases terminal with
    | ident name =>
      exact ⟨fun t ht => hs t (List.mem_cons_of_mem _ ht), hs ⟨.ident name, line⟩ (List.mem_cons_self ..)⟩
    | number | string | keyword | symbol => exact hs

theorem yields_withLoops {before : State → Nat} {after : State → State → Nat} {p : Parse α} (h : Yields p Q) :
    Yields (withLoops before after p) Q := by
  intro s hs
  have hp := h { s with loops := before s } hs
  unfold withLoops
  cases hps : p { s with loops := before s } with
  | ok a s' =>
    rw [hps] at hp
    exact hp
  | error e s' =>
    rw [hps] at hp
    exact hp

theorem resume_subset (ts : List Token) : resume ts ⊆ ts := by
  fun_induction resume ts with
  | case1 => exact List.Subset.refl _
  | case2 => exact List.nil_subset _
  | case3 => exact List.subset_cons_self ..
  | case4 t next rest _ ih => exact List.subset_cons_of_subset t ih

/-- What is recovered from yields no statement. -/
theorem yields_recovering {p : Parse Stmt} {Q : Stmt → Prop} (h : Yields p Q) :
    Yields (recovering p) fun s => ∀ s' ∈ s, Q s' := by
  intro s hs
  have hp := h s hs
  unfold recovering
  cases hps : p s with
  | ok stmt s' =>
    rw [hps] at hp
    exact ⟨hp.1, fun s' hs' => by cases hs'; exact hp.2⟩
  | error e s' =>
    rw [hps] at hp
    cases e with
    | outOfFuel => exact hp
    | raised error => exact ⟨fun t ht => hp t (resume_subset _ ht), by simp⟩

/-! ## Expressions

Numbers may be any. -/

def anyNumber : Float → Prop := fun _ => True

abbrev YieldsExpr (p : Parse Expr) : Prop := Yields p fun e => e.Spelled anyNumber

abbrev YieldsExprs (p : Parse (List Expr)) : Prop := Yields p fun es => Expr.SpelledAll anyNumber es

theorem spelled_join {l : Level} {left right : Expr} {op : Token} (ho : op.terminal ∈ l.operators)
    (hl : left.Spelled anyNumber) (hr : right.Spelled anyNumber) : (l.join left op.lexeme right).Spelled anyNumber := by
  have hlogical : l = .or_ ∨ l = .and_ → op.text ∈ logicalHeads := fun hlevel =>
    List.mem_map_of_mem (List.mem_flatMap_of_mem (by rcases hlevel with rfl | rfl <;> simp) ho)
  have hbinary : l ∈ [Level.comma, .equality, .comparison, .term, .factor] → op.text ∈ binaryHeads := fun hlevel =>
    List.mem_map_of_mem (List.mem_flatMap_of_mem hlevel ho)
  cases l with
  | or_ => exact ⟨hlogical (Or.inl rfl), hl, hr⟩
  | and_ => exact ⟨hlogical (Or.inr rfl), hl, hr⟩
  | comma | equality | comparison | term | factor => exact ⟨hbinary (by simp), hl, hr⟩
  | assignment | ternary | unary | call => cases ho

theorem yields_assignment {target value : Expr} (equals : Token) (ht : target.Spelled anyNumber)
    (hv : value.Spelled anyNumber) : YieldsExpr (assignment target equals value) := by
  cases target with
  | ref old => exact yields_newSlot.map fun _ _ => ⟨ht, hv⟩
  | get object name => exact yields_pure ⟨ht.1, ht.2, hv⟩
  | _ => exact (yields_reportAt _ _).map fun _ _ => ht

structure ExprYields (n : Nat) : Prop where
  expression : ∀ l, YieldsExpr (expression n l)
  chain : ∀ l left, left.Spelled anyNumber → YieldsExpr (chain n l left)
  suffixes : ∀ e, e.Spelled anyNumber → YieldsExpr (suffixes n e)
  arguments : YieldsExprs (arguments n)
  moreArguments : ∀ count, YieldsExprs (moreArguments n count)
  primary : YieldsExpr (primary n)

theorem yields_expression (ih : ExprYields n) (l : Level) : YieldsExpr (expression (n + 1) l) := by
  have hchained (l l' : Level) : YieldsExpr (do chain n l (← expression n l')) :=
    (ih.expression l').bind fun left hl => ih.chain l left hl
  cases l with
  | assignment =>
    refine (ih.expression .or_).bind fun target ht => (yields_acceptAny _).bind fun equals _ => ?_
    cases equals with
    | none => exact yields_pure ht
    | some equals => exact (ih.expression .assignment).bind fun value hv => yields_assignment equals ht hv
  | ternary =>
    refine (ih.expression .equality).bind fun cond hc => (yields_acceptAny _).bind fun question _ => ?_
    cases question with
    | none => exact yields_pure hc
    | some _ =>
      refine (ih.expression .assignment).bind fun yes hy => (yields_expect _ _).bind fun _ _ => ?_
      exact (ih.expression .assignment).map fun no hno => ⟨hc, hy, hno⟩
  | unary =>
    refine (yields_acceptAny unaryOperators).bind fun op ho => ?_
    cases op with
    | none => exact ih.expression .call
    | some op => exact (ih.expression .unary).map fun operand he => ⟨List.mem_map_of_mem (ho op rfl), he⟩
  | call => exact ih.primary.bind fun callee hc => ih.suffixes callee hc
  | comma => exact hchained .comma _
  | or_ => exact hchained .or_ _
  | and_ => exact hchained .and_ _
  | equality => exact hchained .equality _
  | comparison => exact hchained .comparison _
  | term => exact hchained .term _
  | factor => exact hchained .factor _

theorem yields_chain (ih : ExprYields n) (l : Level) (left : Expr) (hl : left.Spelled anyNumber) :
    YieldsExpr (chain (n + 1) l left) := by
  refine (yields_acceptAny l.operators).bind fun op ho => ?_
  cases op with
  | none => exact yields_pure hl
  | some op => exact (ih.expression l.tighter).bind fun right hr => ih.chain l _ (spelled_join (ho op rfl) hl hr)

theorem yields_suffixes (ih : ExprYields n) (e : Expr) (he : e.Spelled anyNumber) :
    YieldsExpr (suffixes (n + 1) e) := by
  refine (yields_acceptAny _).bind fun t _ => ?_
  have hcall : YieldsExpr
      (do
        let args ← arguments n
        let paren ← expect .rightParen .afterArguments
        suffixes n (.call e paren.lexeme args)) :=
    ih.arguments.bind fun args ha => (yields_expect _ _).bind fun paren hp => ih.suffixes _ ⟨hp, he, ha⟩
  cases t with
  | none => exact yields_pure he
  | some t =>
    obtain ⟨terminal, line⟩ := t
    cases terminal with
    | symbol symbol =>
      cases symbol with
      | dot => exact (yields_expectName .property).bind fun name hn => ih.suffixes _ ⟨hn, he⟩
      | _ => exact hcall
    | _ => exact hcall

theorem yields_arguments (ih : ExprYields n) : YieldsExprs (arguments (n + 1)) := by
  refine (yields_isNext _).bind fun b _ => ?_
  cases b with
  | true => exact yields_pure trivial
  | false => exact (ih.expression .assignment).bind fun first hf => (ih.moreArguments 1).map fun more hm => ⟨hf, hm⟩

theorem yields_moreArguments (ih : ExprYields n) (count : Nat) : YieldsExprs (moreArguments (n + 1) count) := by
  refine (yields_acceptAny _).bind fun comma _ => ?_
  cases comma with
  | none => exact yields_pure trivial
  | some _ =>
    have hnext : YieldsExprs
        (do
          let next ← expression n .assignment
          return next :: (← moreArguments n (count + 1))) :=
      (ih.expression .assignment).bind fun next hn => (ih.moreArguments (count + 1)).map fun more hm => ⟨hn, hm⟩
    by_cases h : mostArguments ≤ count
    · simp only [h, if_true]
      exact (yields_report .tooManyArguments).bind fun _ _ => hnext
    · simp only [h, if_false]
      exact hnext

/-- A primary expression is spelled by its first token. -/
theorem yields_primary (ih : ExprYields n) : YieldsExpr (primary (n + 1)) := by
  refine yields_peek.bind fun t ht => ?_
  have hliteral (value : Literal) (hv : value.Spelled anyNumber) : YieldsExpr (do skip; return .literal value) :=
    yields_skip.map fun _ _ => hv
  cases t with
  | none => exact yields_raise _
  | some t =>
    have hspelled := ht t rfl
    obtain ⟨terminal, line⟩ := t
    cases terminal with
    | number literal => exact hliteral (.number _) trivial
    | string text => exact hliteral (.string text) hspelled
    | ident name => exact yields_skip.bind fun _ _ => yields_newSlot.map fun _ _ => hspelled
    | keyword k =>
      cases k with
      | false_ => exact hliteral (.bool false) trivial
      | true_ => exact hliteral (.bool true) trivial
      | nil => exact hliteral .nil trivial
      | this => exact yields_skip.bind fun _ _ => yields_newSlot.map fun _ _ => rfl
      | super =>
        refine yields_skip.bind fun _ _ => (yields_expect _ _).bind fun _ _ => ?_
        exact (yields_expectName _).bind fun method hm => yields_newSlot.map fun _ _ => ⟨rfl, hm⟩
      | _ => exact yields_raise _
    | symbol s =>
      cases s with
      | leftParen =>
        refine yields_skip.bind fun _ _ => (ih.expression .comma).bind fun inner hi => ?_
        exact (yields_expect _ _).map fun _ _ => hi
      | _ => exact yields_raise _

theorem exprYields (n : Nat) : ExprYields n := by
  induction n with
  | zero =>
    exact ⟨fun _ => yields_outOfFuel, fun _ _ _ => yields_outOfFuel, fun _ _ => yields_outOfFuel, yields_outOfFuel,
      fun _ => yields_outOfFuel, yields_outOfFuel⟩
  | succ n ih =>
    exact ⟨yields_expression ih, yields_chain ih, yields_suffixes ih, yields_arguments ih, yields_moreArguments ih,
      yields_primary ih⟩

theorem yields_comma (n : Nat) : YieldsExpr (expression n .comma) := (exprYields n).expression .comma

/-! ## Kept predicates -/

theorem spelled_none : Expr.SpelledOpt anyNumber none := fun _ h => by cases h

theorem spelled_some {e : Expr} (h : e.Spelled anyNumber) : Expr.SpelledOpt anyNumber (some e) := fun _ he => by
  cases he
  exact h

/-- Predicates on what the rules for statements give; `branch` is one on statements that may
be the branch of an `if` or the body of a loop, where no declaration stands. -/
structure Family where
  stmt : Stmt → Prop
  branch : Stmt → Prop
  stmts : List Stmt → Prop
  routine : Routine → Prop
  methods : List Routine → Prop

/-- The predicates hold of what the rules put together. -/
structure Kept (F : Family) : Prop where
  branch {s : Stmt} : F.branch s → F.stmt s
  expr {e : Expr} : e.Spelled anyNumber → F.branch (.expr e)
  print_ {e : Expr} : e.Spelled anyNumber → F.branch (.print_ e)
  var {name : Lexeme} {init : Option Expr} : IsName name.text → Expr.SpelledOpt anyNumber init → F.stmt (.var name init)
  block {body : List Stmt} : F.stmts body → F.branch (.block body)
  cond {test : Expr} {yes : Stmt} {no : Option Stmt} : test.Spelled anyNumber → F.branch yes → (∀ s ∈ no, F.branch s) →
    F.branch (.cond test yes no)
  loop {test : Expr} {body : Stmt} {step : Option Expr} : test.Spelled anyNumber → F.branch body →
    Expr.SpelledOpt anyNumber step → F.branch (.loop test body step)
  break_ {keyword : Lexeme} : keyword.text = Keyword.break_.text → F.branch (.break_ keyword)
  continue_ {keyword : Lexeme} : keyword.text = Keyword.continue_.text → F.branch (.continue_ keyword)
  fun_ {f : Routine} : F.routine f → F.stmt (.fun_ f)
  return_ {keyword : Lexeme} {value : Option Expr} : keyword.text = Keyword.return_.text →
    Expr.SpelledOpt anyNumber value → F.branch (.return_ keyword value)
  class_ {name : Lexeme} {parent : Option Reference} {ms : List Routine} : IsName name.text →
    (∀ r ∈ parent, IsName r.name.text) → F.methods ms → F.stmt (.class_ name parent ms)
  nil : F.stmts []
  cons {s : Stmt} {rest : List Stmt} : F.stmt s → F.stmts rest → F.stmts (s :: rest)
  routine {name : Lexeme} {params : List Lexeme} {body : List Stmt} : IsName name.text → (∀ p ∈ params, IsName p.text) →
    F.stmts body → F.routine ⟨name, params, body⟩
  noMethod : F.methods []
  method {m : Routine} {rest : List Routine} : F.routine m → F.methods rest → F.methods (m :: rest)

variable {F : Family}

/-! ## Simple statements -/

theorem yields_optionalUnless (n : Nat) (terminal : Terminal) :
    Yields (optionalUnless n terminal) fun e => Expr.SpelledOpt anyNumber e := by
  refine (yields_isNext terminal).bind fun b _ => ?_
  cases b with
  | true => exact yields_pure spelled_none
  | false => exact (yields_comma n).map fun _ he => spelled_some he

theorem yields_variable (hF : Kept F) (n : Nat) : Yields (variable_ n) F.stmt := by
  refine (yields_expectName .variable_).bind fun name hn => (yields_acceptAny _).bind fun equals _ => ?_
  cases equals with
  | none => exact (yields_expect _ _).map fun _ _ => hF.var hn spelled_none
  | some _ => exact (yields_comma n).bind fun _ he => (yields_expect _ _).map fun _ _ => hF.var hn (spelled_some he)

theorem yields_printed (hF : Kept F) (n : Nat) : Yields (printed n) F.branch :=
  (yields_comma n).bind fun _ he => (yields_expect _ _).map fun _ _ => hF.print_ he

theorem yields_expressionStatement (hF : Kept F) (n : Nat) : Yields (expressionStatement n) F.branch :=
  (yields_comma n).bind fun _ he => (yields_expect _ _).map fun _ _ => hF.expr he

theorem yields_returned (hF : Kept F) (n : Nat) {keyword : Token} (hk : keyword.text = Keyword.return_.text) :
    Yields (returned n keyword) F.branch :=
  (yields_optionalUnless n _).bind fun _ he => (yields_expect _ _).map fun _ _ => hF.return_ hk he

theorem yields_broken (hF : Kept F) {keyword : Token} (hk : keyword.text = Keyword.break_.text) :
    Yields (broken keyword) F.branch :=
  (yields_checkLoop keyword _).bind fun _ _ => (yields_expect _ _).map fun _ _ => hF.break_ hk

theorem yields_continued (hF : Kept F) {keyword : Token} (hk : keyword.text = Keyword.continue_.text) :
    Yields (continued keyword) F.branch :=
  (yields_checkLoop keyword _).bind fun _ _ => (yields_expect _ _).map fun _ _ => hF.continue_ hk

abbrev YieldsNames (p : Parse (List Lexeme)) : Prop := Yields p fun xs => ∀ x ∈ xs, IsName x.text

theorem names_cons {x : Lexeme} {xs : List Lexeme} (hx : IsName x.text) (hxs : ∀ x ∈ xs, IsName x.text) :
    ∀ y ∈ x :: xs, IsName y.text :=
  List.forall_mem_cons.mpr ⟨hx, hxs⟩

theorem yields_moreParameters (n count : Nat) : YieldsNames (moreParameters n count) := by
  induction n generalizing count with
  | zero => exact yields_outOfFuel
  | succ n ih =>
    refine (yields_acceptAny _).bind fun comma _ => ?_
    cases comma with
    | none => exact yields_pure fun _ h => absurd h List.not_mem_nil
    | some _ =>
      have hnext : YieldsNames
          (do
            let next ← expectName .parameter
            return next :: (← moreParameters n (count + 1))) :=
        (yields_expectName .parameter).bind fun _ hn => (ih (count + 1)).map fun _ hm => names_cons hn hm
      by_cases h : mostArguments ≤ count
      · simp only [h, if_true]
        exact (yields_report .tooManyParameters).bind fun _ _ => hnext
      · simp only [h, if_false]
        exact hnext

theorem yields_parameters (n : Nat) : YieldsNames (parameters n) := by
  refine (yields_isNext _).bind fun b _ => ?_
  cases b with
  | true => exact yields_pure fun _ h => absurd h List.not_mem_nil
  | false =>
    exact (yields_expectName .parameter).bind fun _ hn => (yields_moreParameters n 1).map fun _ hm => names_cons hn hm

theorem yields_superclass : Yields superclass fun parent => ∀ r ∈ parent, IsName r.name.text := by
  refine (yields_acceptAny _).bind fun less _ => ?_
  cases less with
  | none => exact yields_pure fun _ h => by cases h
  | some _ =>
    refine (yields_expectName .superclass).bind fun name hn => yields_newSlot.map fun _ _ r hr => ?_
    cases hr
    exact hn

theorem yields_forInitializer (hF : Kept F) (n : Nat) : Yields (forInitializer n) fun init => ∀ s ∈ init, F.stmt s := by
  have hsome {s : Stmt} (h : F.stmt s) : ∀ s' ∈ some s, F.stmt s' := fun s' hs => by
    cases hs
    exact h
  refine (yields_acceptAny _).bind fun semicolon _ => ?_
  cases semicolon with
  | some _ => exact yields_pure fun _ h => by cases h
  | none =>
    refine (yields_acceptAny _).bind fun keyword _ => ?_
    cases keyword with
    | some _ => exact (yields_variable hF n).map fun _ h => hsome h
    | none => exact (yields_expressionStatement hF n).map fun _ h => hsome (hF.branch h)

theorem kept_forLoop (hF : Kept F) {init : Option Stmt} {test step : Option Expr} {body : Stmt}
    (hi : ∀ s ∈ init, F.stmt s) (ht : Expr.SpelledOpt anyNumber test) (hs : Expr.SpelledOpt anyNumber step)
    (hb : F.branch body) : F.branch (forLoop init test step body) := by
  have htest : (test.getD (.literal (.bool true))).Spelled anyNumber := by
    cases test with
    | none => trivial
    | some e => exact ht e rfl
  have hloop := hF.loop htest hb hs
  cases init with
  | none => exact hloop
  | some first => exact hF.block (hF.cons (hi first rfl) (hF.cons (hF.branch hloop) hF.nil))

/-! ## Statements -/

structure StmtYields (F : Family) (n : Nat) : Prop where
  declaration : Yields (declaration n) fun s => ∀ s' ∈ s, F.stmt s'
  declarations : Yields (declarations n) F.stmts
  block : Yields (block n) F.stmts
  routine : ∀ kind, Yields (routine n kind) F.routine
  class_ : Yields (class_ n) F.stmt
  methods : Yields (methods n) F.methods
  statement : Yields (statement n) F.branch
  conditional : Yields (conditional n) F.branch
  while_ : Yields (while_ n) F.branch
  for_ : Yields (for_ n) F.branch

/-- A declaration is kept, or nothing is left of it. -/
theorem yields_declaration (hF : Kept F) (ih : StmtYields F n) :
    Yields (declaration (n + 1)) fun s => ∀ s' ∈ s, F.stmt s' := by
  refine yields_recovering ((yields_acceptAny _).bind fun t _ => ?_)
  cases t with
  | none => exact ih.statement.mono fun _ => hF.branch
  | some t =>
    obtain ⟨terminal, line⟩ := t
    cases terminal with
    | keyword k =>
      cases k with
      | class_ => exact ih.class_
      | fun_ => exact (ih.routine .function).map fun _ h => hF.fun_ h
      | _ => exact yields_variable hF n
    | _ => exact yields_variable hF n

theorem yields_listed (hF : Kept F) {p : Parse (List Stmt)}
    (hd : Yields (declaration n) fun s => ∀ s' ∈ s, F.stmt s') (h : Yields p F.stmts) :
    Yields
      (do
        match ← declaration n with
        | some stmt => return stmt :: (← p)
        | none => p) F.stmts := by
  refine hd.bind fun stmt hs => ?_
  cases stmt with
  | some stmt => exact h.map fun _ hrest => hF.cons (hs stmt rfl) hrest
  | none => exact h

theorem yields_declarations (hF : Kept F) (ih : StmtYields F n) : Yields (declarations (n + 1)) F.stmts := by
  refine yields_atClose.bind fun b _ => ?_
  cases b with
  | true => exact yields_pure hF.nil
  | false => exact yields_listed hF ih.declaration ih.declarations

theorem yields_block (ih : StmtYields F n) : Yields (block (n + 1)) F.stmts :=
  ih.declarations.bind fun _ h => (yields_expect _ _).map fun _ _ => h

theorem yields_routine (hF : Kept F) (ih : StmtYields F n) (kind : RoutineKind) :
    Yields (routine (n + 1) kind) F.routine := by
  refine (yields_expectName _).bind fun name hn => (yields_expect _ _).bind fun _ _ => ?_
  refine (yields_parameters n).bind fun params hp => (yields_expect _ _).bind fun _ _ => ?_
  exact (yields_expect _ _).bind fun _ _ => (yields_withLoops ih.block).map fun _ hb => hF.routine hn hp hb

theorem yields_class (hF : Kept F) (ih : StmtYields F n) : Yields (class_ (n + 1)) F.stmt := by
  refine (yields_expectName .class_).bind fun name hn => yields_superclass.bind fun parent hp => ?_
  refine (yields_expect _ _).bind fun _ _ => ih.methods.bind fun members hm => ?_
  exact (yields_expect _ _).map fun _ _ => hF.class_ hn hp hm

theorem yields_methods (hF : Kept F) (ih : StmtYields F n) : Yields (methods (n + 1)) F.methods := by
  refine yields_atClose.bind fun b _ => ?_
  cases b with
  | true => exact yields_pure hF.noMethod
  | false => exact (ih.routine .method).bind fun first hf => ih.methods.map fun _ hm => hF.method hf hm

theorem yields_conditional (hF : Kept F) (ih : StmtYields F n) : Yields (conditional (n + 1)) F.branch := by
  refine (yields_expect _ _).bind fun _ _ => (yields_comma n).bind fun test ht => ?_
  refine (yields_expect _ _).bind fun _ _ => ih.statement.bind fun yes hy => ?_
  refine (yields_acceptAny _).bind fun other _ => ?_
  cases other with
  | none => exact yields_pure (hF.cond ht hy fun _ h => by cases h)
  | some _ => exact ih.statement.map fun no hno => hF.cond ht hy fun _ h => by cases h; exact hno

theorem yields_while (hF : Kept F) (ih : StmtYields F n) : Yields (while_ (n + 1)) F.branch := by
  refine (yields_expect _ _).bind fun _ _ => (yields_comma n).bind fun test ht => ?_
  exact (yields_expect _ _).bind fun _ _ => (yields_withLoops ih.statement).map fun body hb =>
    hF.loop ht hb spelled_none

theorem yields_for (hF : Kept F) (ih : StmtYields F n) : Yields (for_ (n + 1)) F.branch := by
  refine (yields_expect _ _).bind fun _ _ => (yields_forInitializer hF n).bind fun init hi => ?_
  refine (yields_optionalUnless n _).bind fun test ht => (yields_expect _ _).bind fun _ _ => ?_
  refine (yields_optionalUnless n _).bind fun step hs => (yields_expect _ _).bind fun _ _ => ?_
  exact (yields_withLoops ih.statement).map fun body hb => kept_forLoop hF hi ht hs hb

/-- The keyword that a statement starts with says which one it is, and stands in its tree. -/
theorem yields_statement (hF : Kept F) (ih : StmtYields F n) : Yields (statement (n + 1)) F.branch := by
  refine (yields_acceptAny statementStarts).bind fun t _ => ?_
  have hblock : Yields (do return .block (← block n)) F.branch := ih.block.map fun _ h => hF.block h
  cases t with
  | none => exact yields_expressionStatement hF n
  | some t =>
    obtain ⟨terminal, line⟩ := t
    cases terminal with
    | keyword k =>
      cases k with
      | print => exact yields_printed hF n
      | if_ => exact ih.conditional
      | while_ => exact ih.while_
      | for_ => exact ih.for_
      | return_ => exact yields_returned hF n rfl
      | break_ => exact yields_broken hF rfl
      | continue_ => exact yields_continued hF rfl
      | _ => exact hblock
    | _ => exact hblock

theorem stmtYields (hF : Kept F) (n : Nat) : StmtYields F n := by
  induction n with
  | zero =>
    exact ⟨yields_outOfFuel, yields_outOfFuel, yields_outOfFuel, fun _ => yields_outOfFuel, yields_outOfFuel,
      yields_outOfFuel, yields_outOfFuel, yields_outOfFuel, yields_outOfFuel, yields_outOfFuel⟩
  | succ n ih =>
    exact ⟨yields_declaration hF ih, yields_declarations hF ih, yields_block ih, yields_routine hF ih,
      yields_class hF ih,
      yields_methods hF ih, yields_statement hF ih, yields_conditional hF ih, yields_while hF ih, yields_for hF ih⟩

/-! ## Token lists -/

theorem yields_program (hF : Kept F) (n : Nat) : Yields (program n) F.stmts := by
  induction n with
  | zero => exact yields_outOfFuel
  | succ n ih =>
    refine yields_peek.bind fun t _ => ?_
    cases t with
    | none => exact yields_pure hF.nil
    | some _ => exact yields_listed hF (stmtYields hF n).declaration ih

/-- What the rules keep holds of every list of statements that is read. -/
theorem parse_kept (hF : Kept F) {tokens : Tokens} (h : AllSpelled tokens.items) (k : Int) :
    F.stmts (parse tokens k).program := by
  have hread := yields_program hF (fuel tokens) (start tokens k) h
  unfold parse
  split
  next ss s hs =>
    rw [hs] at hread
    exact hread.2
  next => exact hF.nil

/-! ## Trees -/

def spelledTrees : Family where
  stmt s := s.Spelled anyNumber
  branch s := s.Spelled anyNumber
  stmts ss := Stmt.SpelledAll anyNumber ss
  routine f := Stmt.SpelledRoutine anyNumber f
  methods ms := Stmt.SpelledMethods anyNumber ms

/-- Every tree that the parser makes is spelled with words of the language. -/
theorem spelled_kept : Kept spelledTrees where
  branch h := h
  expr h := h
  print_ h := h
  var hn he := ⟨hn, he⟩
  block h := h
  cond {test yes no} ht hy hn := by
    refine ⟨ht, hy, ?_⟩
    cases no with
    | none => trivial
    | some no => exact hn no rfl
  loop ht hb hs := ⟨ht, hb, hs⟩
  break_ h := h
  continue_ h := h
  fun_ h := h
  return_ hk he := ⟨hk, he⟩
  class_ hn hp hm := ⟨hn, hp, hm⟩
  nil := trivial
  cons h h' := ⟨h, h'⟩
  routine hn hp hb := ⟨hn, hp, hb⟩
  noMethod := trivial
  method h h' := ⟨h, h'⟩

end Grammar

open Grammar

theorem parse_spelled {tokens : Tokens} (h : AllSpelled tokens.items) (k : Int) :
    Stmt.SpelledAll anyNumber (parse tokens k).program :=
  parse_kept spelled_kept h k

end Lox
