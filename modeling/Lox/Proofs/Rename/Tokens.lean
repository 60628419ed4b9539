/-
  Lox.Proofs.Rename.Tokens — the tokens of a renamed program (`reads_renamed`): the tokens
  that a program is read from, with the new name in some places of identifiers, are read
  as the renamed program, with the same slots.

  By induction on the reading: a renamed phrase has the same shape (`Renamed`, whatever
  scopes are open), so its parts have such tokens, and the terminals between them stay.
-/

import Lox.Proofs.Grammar.Reading
import Lox.Proofs.Rename.Names
import Lox.Proofs.Token.Reworded

namespace Lox

/-- Renamed where some scopes are open. -/
def Renamed (ρ : Renaming) (site site' : Site) : Prop := ∃ fs os, Renames ρ fs os site site'

/-- The tokens, with the new name in some places of identifiers, are read as `P` says. -/
def Rewords (ρ : Renaming) (ts : List Token) (P : List Token → Prop) : Prop :=
  ∃ ts', List.Forall₂ (Token.Reworded ρ.new) ts ts' ∧ P ts'

variable {ρ : Renaming} {fs : List Bool} {os : List Opened} {t : Token} {ts : List Token} {k k' : Int} {name : String}

open Token.Reworded

/-! ## Names -/

/-- The token of a name, renamed or not. -/
theorem reworded_name (ht : t.terminal = .ident name) (renamed : Bool) :
    Token.Reworded ρ.new t ⟨.ident (ρ.text renamed name), t.line⟩ := by
  obtain ⟨_, line⟩ := t
  cases ht
  unfold Renaming.text
  split
  · exact Or.inr ⟨⟨name, rfl⟩, rfl⟩
  · exact .same

/-- Nothing is renamed. -/
theorem Rewords.keep {P : List Token → Prop} (h : P ts) : Rewords ρ ts P := ⟨ts, all, h⟩

/-! ## The shape of a renamed tree -/

theorem Renamed.join {l : Grammar.Level} {a b e : Expr} {op : Lexeme}
    (h : Renamed ρ (.expr (l.join a op b)) (.expr e)) :
    ∃ a' b', e = l.join a' op b' ∧ Renamed ρ (.expr a) (.expr a') ∧ Renamed ρ (.expr b) (.expr b') := by
  obtain ⟨fs, os, h⟩ := h
  cases l <;> cases h <;> exact ⟨_, _, rfl, ⟨_, _, ‹_›⟩, ⟨_, _, ‹_›⟩⟩

theorem renames_endsInTernary :
    ∀ {e e' : Expr}, Renames ρ fs os (.expr e) (.expr e') → e'.endsInTernary = e.endsInTernary
  | .unary .., _, .unary h | .binary .., _, .binary _ h | .logical .., _, .logical _ h | .assign .., _, .assign _ h
  | .set .., _, .set _ h => (renames_endsInTernary h :)
  | .literal _, _, .literal | .group _, _, .group _ | .ternary .., _, .ternary .. | .ref _, _, .ref _
  | .call .., _, .call .. | .get .., _, .get _ | .this _, _, .this | .super .., _, .super => rfl

theorem renames_length {es es' : List Expr} (h : Renames ρ fs os (.exprs es) (.exprs es')) :
    es'.length = es.length := by
  induction es generalizing es' with
  | nil =>
    cases h
    rfl
  | cons e es ih =>
    cases h with
    | moreExprs _ h => exact congrArg Nat.succ (ih h)

namespace Grammar

/-! ## Expressions -/

/-- However a phrase is renamed, so are its tokens. -/
def PhraseRewords (ρ : Renaming) : Phrase → Int → List Token → Int → Prop
  | .level l e, k, ts, k' =>
    ∀ e', Renamed ρ (.expr e) (.expr e') → Rewords ρ ts fun ts' => ReadsExpr (.level l e') k ts' k'
  | .primary e, k, ts, k' =>
    ∀ e', Renamed ρ (.expr e) (.expr e') → Rewords ρ ts fun ts' => ReadsExpr (.primary e') k ts' k'
  | .arguments es, k, ts, k' =>
    ∀ es', Renamed ρ (.exprs es) (.exprs es') → Rewords ρ ts fun ts' => ReadsExpr (.arguments es') k ts' k'

/-- A phrase in which nothing is renamed. -/
theorem primary_kept {e : Expr} (h : ReadsExpr (.primary e) k ts k')
    (hsame : ∀ fs os e', Renames ρ fs os (.expr e) (.expr e') → e' = e) : PhraseRewords ρ (.primary e) k ts k' := by
  rintro e' ⟨fs, os, he⟩
  rw [hsame fs os e' he]
  exact .keep h

theorem literal_kept {value : Literal} {e' : Expr} (h : Renames ρ fs os (.expr (.literal value)) (.expr e')) :
    e' = .literal value := by
  cases h
  rfl

/-- A renamed expression is read from reworded tokens. -/
theorem readsExpr_rewords {p : Phrase} (h : ReadsExpr p k ts k') : PhraseRewords ρ p k ts k' := by
  induction h with
  | true_ ht => exact primary_kept (.true_ ht) fun _ _ _ => literal_kept
  | false_ ht => exact primary_kept (.false_ ht) fun _ _ _ => literal_kept
  | nil ht => exact primary_kept (.nil ht) fun _ _ _ => literal_kept
  | number ht => exact primary_kept (.number ht) fun _ _ _ => literal_kept
  | string ht => exact primary_kept (.string ht) fun _ _ _ => literal_kept
  | ref ht =>
    rintro _ ⟨fs, os, h⟩
    cases h
    exact ⟨_, .cons (reworded_name ht _) .nil, .ref (t := ⟨_, _⟩) rfl⟩
  | this ht => exact primary_kept (.this ht) fun _ _ _ h => by cases h; rfl
  | super ht hd hm => exact primary_kept (.super ht hd hm) fun _ _ _ h => by cases h; rfl
  | group ho _ hc ih =>
    rintro _ ⟨fs, os, h⟩
    cases h with
    | group h =>
      obtain ⟨ts', ht, hr⟩ := ih _ ⟨_, _, h⟩
      exact ⟨_, .cons same (around ht .nil), .group ho hr hc⟩
  | atom _ ih =>
    intro e' h
    obtain ⟨ts', ht, hr⟩ := ih e' h
    exact ⟨ts', ht, .atom hr⟩
  | get _ hd hp ih =>
    rintro _ ⟨fs, os, h⟩
    cases h with
    | get h =>
      obtain ⟨ts', ht, hr⟩ := ih _ ⟨_, _, h⟩
      exact ⟨_, around ht all, .get hr hd hp⟩
  | callEmpty _ ho hc ih =>
    rintro _ ⟨fs, os, h⟩
    cases h with
    | call h hnone =>
      cases hnone
      obtain ⟨ts', ht, hr⟩ := ih _ ⟨_, _, h⟩
      exact ⟨_, around ht all, .callEmpty hr ho hc⟩
  | call _ ho _ hn hc ih ih' =>
    rintro _ ⟨fs, os, h⟩
    cases h with
    | call h h' =>
      obtain ⟨ts', ht, hr⟩ := ih _ ⟨_, _, h⟩
      obtain ⟨us', hu, hr'⟩ := ih' _ ⟨_, _, h'⟩
      rw [← renames_length h'] at hn
      exact ⟨_, around (around ht hu) .nil, .call hr ho hr' hn hc⟩
  | unary ho _ ih =>
    rintro _ ⟨fs, os, h⟩
    cases h with
    | unary h =>
      obtain ⟨ts', ht, hr⟩ := ih _ ⟨_, _, h⟩
      exact ⟨_, .cons same ht, .unary ho hr⟩
  | chain _ ho _ hn ih ih' =>
    intro _ h
    obtain ⟨a', b', rfl, ⟨fs, os, h⟩, h'⟩ := h.join
    obtain ⟨ts', ht, hr⟩ := ih _ ⟨_, _, h⟩
    obtain ⟨us', hu, hr'⟩ := ih' _ h'
    -- an `and` or `or` still joins operands that the grammar allows
    rw [← renames_endsInTernary h] at hn
    exact ⟨_, around ht hu, .chain hr ho hr' hn⟩
  | ternary _ hq _ hc _ ih ih' ih'' =>
    rintro _ ⟨fs, os, h⟩
    cases h with
    | ternary h h' h'' =>
      obtain ⟨ts', ht, hr⟩ := ih _ ⟨_, _, h⟩
      obtain ⟨us', hu, hr'⟩ := ih' _ ⟨_, _, h'⟩
      obtain ⟨vs', hv, hr''⟩ := ih'' _ ⟨_, _, h''⟩
      exact ⟨_, around (around ht hu) hv, .ternary hr hq hr' hc hr''⟩
  | assign ht he _ ih =>
    rintro _ ⟨fs, os, h⟩
    cases h with
    | assign _ h =>
      obtain ⟨ts', hts, hr⟩ := ih _ ⟨_, _, h⟩
      exact ⟨_, .cons (reworded_name ht _) (.cons same hts), @ReadsExpr.assign _ _ _ ⟨_, _⟩ _ _ _ rfl he hr⟩
  | set _ hd hp he _ ih ih' =>
    rintro _ ⟨fs, os, h⟩
    cases h with
    | set h h' =>
      obtain ⟨ts', ht, hr⟩ := ih _ ⟨_, _, h⟩
      obtain ⟨us', hu, hr'⟩ := ih' _ ⟨_, _, h'⟩
      exact ⟨_, around ht (.cons same (.cons same hu)), .set hr hd hp he hr'⟩
  | operand hl _ ih =>
    intro e' h
    obtain ⟨ts', ht, hr⟩ := ih e' h
    exact ⟨ts', ht, .operand hl hr⟩
  | last _ ih =>
    rintro _ ⟨fs, os, h⟩
    cases h with
    | moreExprs h hnone =>
      cases hnone
      obtain ⟨ts', ht, hr⟩ := ih _ ⟨_, _, h⟩
      exact ⟨ts', ht, .last hr⟩
  | more _ hc _ ih ih' =>
    rintro _ ⟨fs, os, h⟩
    cases h with
    | moreExprs h h' =>
      obtain ⟨ts', ht, hr⟩ := ih _ ⟨_, _, h⟩
      obtain ⟨us', hu, hr'⟩ := ih' _ ⟨_, _, h'⟩
      exact ⟨_, around ht hu, .more hr hc hr'⟩

/-! ## The parts of statements -/

/-- Both absent, or one renamed as the other. -/
def RenamedOpt (ρ : Renaming) : Option Expr → Option Expr → Prop :=
  Option.Rel fun e e' => Renamed ρ (.expr e) (.expr e')

theorem readsNames_rewords {names : List Lexeme} (h : ReadsNames names ts) (renamed : Bool) :
    Rewords ρ ts (ReadsNames (names.map (ρ.name renamed))) := by
  induction h with
  | last ht => exact ⟨_, .cons (reworded_name ht renamed) .nil, @ReadsNames.last ⟨_, _⟩ _ rfl⟩
  | more ht hc _ ih =>
    obtain ⟨ts', hts, hr⟩ := ih
    exact ⟨_, .cons (reworded_name ht renamed) (.cons same hts), @ReadsNames.more ⟨_, _⟩ _ _ _ _ rfl hc hr⟩

theorem readsParams_rewords {names : List Lexeme} (h : ReadsParams names ts) (renamed : Bool) :
    Rewords ρ ts (ReadsParams (names.map (ρ.name renamed))) := by
  rcases h with ⟨rfl, rfl⟩ | ⟨h, hn⟩
  · exact .keep (Or.inl ⟨rfl, rfl⟩)
  · obtain ⟨ts', ht, hr⟩ := readsNames_rewords h renamed
    exact ⟨ts', ht, Or.inr ⟨hr, by rwa [List.length_map]⟩⟩

theorem readsOpt_rewords {e e' : Option Expr} (h : ReadsOpt e k ts k') (he : RenamedOpt ρ e e') :
    Rewords ρ ts fun ts' => ReadsOpt e' k ts' k' := by
  cases he with
  | none => exact .keep h
  | some he => exact readsExpr_rewords h _ he

theorem readsInit_rewords {e e' : Option Expr} (h : ReadsInit e k ts k') (he : RenamedOpt ρ e e') :
    Rewords ρ ts fun ts' => ReadsInit e' k ts' k' := by
  cases he with
  | none =>
    cases h
    exact .keep .none
  | some he =>
    cases h with
    | some hq h =>
      obtain ⟨ts', ht, hr⟩ := readsExpr_rewords h _ he
      exact ⟨_, .cons same ht, .some hq hr⟩

theorem readsVar_rewords {s s' : Stmt} (h : ReadsVar s k ts k') (hs : Renamed ρ (.stmt s) (.stmt s')) :
    Rewords ρ ts fun ts' => ReadsVar s' k ts' k' := by
  obtain ⟨fs, os, hs⟩ := hs
  cases h with
  | intro ht hi hsemi =>
    cases hs with
    | var =>
      cases hi
      exact ⟨_, .cons (reworded_name ht _) all, @ReadsVar.intro _ _ ⟨_, _⟩ _ _ _ _ rfl .none hsemi⟩
    | varInit _ he =>
      obtain ⟨ts', hts, hr⟩ := readsInit_rewords hi (.some ⟨_, _, he⟩)
      exact ⟨_, .cons (reworded_name ht _) (around hts .nil), @ReadsVar.intro _ _ ⟨_, _⟩ _ _ _ _ rfl hr hsemi⟩

theorem readsEffect_rewords {s s' : Stmt} (h : ReadsEffect s k ts k') (hs : Renamed ρ (.stmt s) (.stmt s')) :
    Rewords ρ ts fun ts' => ReadsEffect s' k ts' k' := by
  obtain ⟨fs, os, hs⟩ := hs
  cases h with
  | intro h hsemi =>
    cases hs with
    | effect he =>
      obtain ⟨ts', ht, hr⟩ := readsExpr_rewords h _ ⟨_, _, he⟩
      exact ⟨_, around ht .nil, .intro hr hsemi⟩

theorem readsClause_rewords {s s' : Option Stmt} (h : ReadsClause s k ts k')
    (hs : Option.Rel (fun s s' => Renamed ρ (.stmt s) (.stmt s')) s s') :
    Rewords ρ ts fun ts' => ReadsClause s' k ts' k' := by
  cases h with
  | none hsemi =>
    cases hs
    exact .keep (.none hsemi)
  | var hk h =>
    cases hs with
    | some hs =>
      obtain ⟨ts', ht, hr⟩ := readsVar_rewords h hs
      exact ⟨_, .cons same ht, .var hk hr⟩
  | effect h =>
    cases hs with
    | some hs =>
      obtain ⟨ts', ht, hr⟩ := readsEffect_rewords h hs
      exact ⟨ts', ht, .effect hr⟩

theorem readsParent_rewords {parent : Option Reference} (h : ReadsParent parent k ts k') (renamed : Bool) :
    Rewords ρ ts fun ts' => ReadsParent (parent.map (ρ.reference renamed)) k ts' k' := by
  cases h with
  | none => exact .keep .none
  | some hl ht => exact ⟨_, .cons same (.cons (reworded_name ht renamed) .nil), @ReadsParent.some _ _ ⟨_, _⟩ _ hl rfl⟩

/-! ## Statements -/

theorem renamed_test {test : Option Expr} {e' : Expr}
    (h : Renames ρ fs os (.expr (test.getD (.literal (.bool true)))) (.expr e')) :
    ∃ test' : Option Expr, e' = test'.getD (.literal (.bool true)) ∧ RenamedOpt ρ test test' := by
  cases test with
  | none => exact ⟨none, literal_kept h, .none⟩
  | some e => exact ⟨some e', rfl, .some ⟨_, _, h⟩⟩

/-- A loop is renamed with its clauses and its body. -/
theorem renamed_loop {test step : Option Expr} {body s' : Stmt}
    (h : Renames ρ fs os (.stmt (forLoop none test step body)) (.stmt s')) :
    ∃ test' step' body', s' = forLoop none test' step' body' ∧ RenamedOpt ρ test test' ∧ RenamedOpt ρ step step' ∧
      Renamed ρ (.stmt body) (.stmt body') := by
  cases h with
  | loop h hb =>
    obtain ⟨test', rfl, ht⟩ := renamed_test h
    exact ⟨test', none, _, rfl, ht, .none, _, _, hb⟩
  | loopStep h hb hs =>
    obtain ⟨test', rfl, ht⟩ := renamed_test h
    exact ⟨test', some _, _, rfl, ht, .some ⟨_, _, hs⟩, _, _, hb⟩

/-- A renamed loop is one of renamed clauses and a renamed body. -/
theorem renamed_forLoop {init : Option Stmt} {test step : Option Expr} {body s' : Stmt}
    (h : Renamed ρ (.stmt (forLoop init test step body)) (.stmt s')) :
    ∃ init' test' step' body', s' = forLoop init' test' step' body' ∧
      Option.Rel (fun s s' => Renamed ρ (.stmt s) (.stmt s')) init init' ∧ RenamedOpt ρ test test' ∧
      RenamedOpt ρ step step' ∧ Renamed ρ (.stmt body) (.stmt body') := by
  obtain ⟨fs, os, h⟩ := h
  cases init with
  | none =>
    obtain ⟨test', step', body', rfl, ht, hs, hb⟩ := renamed_loop h
    exact ⟨none, test', step', body', rfl, .none, ht, hs, hb⟩
  | some first =>
    cases h with
    | block h =>
      cases h with
      | cons hfirst h =>
        cases h with
        | cons hl h =>
          cases h
          obtain ⟨test', step', body', rfl, ht, hs, hb⟩ := renamed_loop hl
          exact ⟨some _, test', step', body', rfl, .some ⟨_, _, hfirst⟩, ht, hs, hb⟩

/-- However a part is renamed, so are its tokens. -/
def ClauseRewords (ρ : Renaming) : Clause → Int → List Token → Int → Prop
  | .statement b o s, k, ts, k' =>
    ∀ s', Renamed ρ (.stmt s) (.stmt s') → Rewords ρ ts fun ts' => ReadsStmt (.statement b o s') k ts' k'
  | .declaration b s, k, ts, k' =>
    ∀ s', Renamed ρ (.stmt s) (.stmt s') → Rewords ρ ts fun ts' => ReadsStmt (.declaration b s') k ts' k'
  | .declarations b ss, k, ts, k' =>
    ∀ ss', Renamed ρ (.stmts ss) (.stmts ss') → Rewords ρ ts fun ts' => ReadsStmt (.declarations b ss') k ts' k'
  | .routine r, k, ts, k' =>
    ∀ context r', Renamed ρ (.routine context r) (.routine context r') →
      Rewords ρ ts fun ts' => ReadsStmt (.routine r') k ts' k'
  | .routines rs, k, ts, k' =>
    ∀ rs', Renamed ρ (.methods rs) (.methods rs') → Rewords ρ ts fun ts' => ReadsStmt (.routines rs') k ts' k'

/-- A renamed statement is read from reworded tokens. -/
theorem readsStmt_rewords {c : Clause} (h : ReadsStmt c k ts k') : ClauseRewords ρ c k ts k' := by
  induction h with
  | effect h =>
    intro s' hs
    obtain ⟨ts', ht, hr⟩ := readsEffect_rewords h hs
    exact ⟨ts', ht, .effect hr⟩
  | print hk he hsemi =>
    rintro _ ⟨fs, os, h⟩
    cases h with
    | printed h =>
      obtain ⟨ts', ht, hr⟩ := readsExpr_rewords he _ ⟨_, _, h⟩
      exact ⟨_, .cons same (around ht .nil), .print hk hr hsemi⟩
  | block ho _ hc ih =>
    rintro _ ⟨fs, os, h⟩
    cases h with
    | block h =>
      obtain ⟨ts', ht, hr⟩ := ih _ ⟨_, _, h⟩
      exact ⟨_, .cons same (around ht .nil), .block ho hr hc⟩
  | if_ hk ho he hc _ ih =>
    rintro _ ⟨fs, os, h⟩
    cases h with
    | cond h h' =>
      obtain ⟨ts', ht, hr⟩ := readsExpr_rewords he _ ⟨_, _, h⟩
      obtain ⟨us', hu, hr'⟩ := ih _ ⟨_, _, h'⟩
      exact ⟨_, .cons same (.cons same (around ht hu)), .if_ hk ho hr hc hr'⟩
  | ifElse hk ho he hc _ hother _ ih ih' =>
    rintro _ ⟨fs, os, h⟩
    cases h with
    | condElse h h' h'' =>
      obtain ⟨ts', ht, hr⟩ := readsExpr_rewords he _ ⟨_, _, h⟩
      obtain ⟨us', hu, hr'⟩ := ih _ ⟨_, _, h'⟩
      obtain ⟨vs', hv, hr''⟩ := ih' _ ⟨_, _, h''⟩
      exact ⟨_, .cons same (.cons same (around (around ht hu) hv)),
        .ifElse hk ho hr hc hr' hother hr''⟩
  | while_ hk ho he hc _ ih =>
    rintro _ ⟨fs, os, h⟩
    cases h with
    | loop h h' =>
      obtain ⟨ts', ht, hr⟩ := readsExpr_rewords he _ ⟨_, _, h⟩
      obtain ⟨us', hu, hr'⟩ := ih _ ⟨_, _, h'⟩
      exact ⟨_, .cons same (.cons same (around ht hu)), .while_ hk ho hr hc hr'⟩
  | for_ hk ho hi ht hsemi hp hc _ ih =>
    intro s' h
    obtain ⟨init', test', step', body', rfl, hinit, htest, hstep, hbody⟩ := renamed_forLoop h
    obtain ⟨ts', hts, hri⟩ := readsClause_rewords hi hinit
    obtain ⟨us', hus, hrt⟩ := readsOpt_rewords ht htest
    obtain ⟨vs', hvs, hrp⟩ := readsOpt_rewords hp hstep
    obtain ⟨ws', hws, hrb⟩ := ih _ hbody
    exact ⟨_, .cons same (.cons same (around (around (List.rel_append hts hus) hvs) hws)),
      .for_ hk ho hri hrt hsemi hrp hc hrb⟩
  | return_ hk hv hsemi =>
    rintro _ ⟨fs, os, h⟩
    cases h with
    | returned => exact .keep (.return_ hk hv hsemi)
    | returnedValue h =>
      obtain ⟨ts', ht, hr⟩ := readsOpt_rewords hv (.some ⟨_, _, h⟩)
      exact ⟨_, .cons same (around ht .nil), .return_ hk hr hsemi⟩
  | break_ hk hsemi =>
    rintro _ ⟨fs, os, h⟩
    cases h
    exact .keep (.break_ hk hsemi)
  | continue_ hk hsemi =>
    rintro _ ⟨fs, os, h⟩
    cases h
    exact .keep (.continue_ hk hsemi)
  | statement _ ih =>
    intro s' h
    obtain ⟨ts', ht, hr⟩ := ih s' h
    exact ⟨ts', ht, .statement hr⟩
  | var hk h =>
    intro s' hs
    obtain ⟨ts', ht, hr⟩ := readsVar_rewords h hs
    exact ⟨_, .cons same ht, .var hk hr⟩
  | fun_ hk _ ih =>
    rintro _ ⟨fs, os, h⟩
    cases h with
    | fun_ _ h =>
      obtain ⟨ts', ht, hr⟩ := ih _ _ ⟨_, _, h⟩
      exact ⟨_, .cons same ht, .fun_ hk hr⟩
  | class_ hk ht hp ho _ hc ih =>
    rintro _ ⟨fs, os, h⟩
    cases h with
    | class_ _ h =>
      obtain ⟨us', hu, hr⟩ := ih _ ⟨_, _, h⟩
      exact ⟨_, .cons same (.cons same (around (around all hu) .nil)),
        .class_ hk ht hp ho hr hc⟩
    | subclass _ hparent h =>
      cases hparent with
      | parent =>
        obtain ⟨ts', hts, hrp⟩ := readsParent_rewords hp (isChosen _ _ _)
        obtain ⟨us', hu, hr⟩ := ih _ ⟨_, _, h⟩
        exact ⟨_, .cons same (.cons same (around (around hts hu) .nil)),
          .class_ hk ht hrp ho hr hc⟩
  | nil =>
    rintro _ ⟨fs, os, h⟩
    cases h
    exact .keep .nil
  | cons _ _ ih ih' =>
    rintro _ ⟨fs, os, h⟩
    cases h with
    | cons h h' =>
      obtain ⟨ts', ht, hr⟩ := ih _ ⟨_, _, h⟩
      obtain ⟨us', hu, hr'⟩ := ih' _ ⟨_, _, h'⟩
      exact ⟨_, List.rel_append ht hu, .cons hr hr'⟩
  | routine ht ho hp hc hb _ hc' ih =>
    rintro _ _ ⟨fs, os, h⟩
    cases h with
    | @routine f _ _ _ _ _ _ _ _ h =>
      obtain ⟨ts', hts, hrp⟩ := readsParams_rewords hp f
      obtain ⟨us', hu, hr⟩ := ih _ ⟨_, _, h⟩
      exact ⟨_, .cons same (.cons same (around (around hts (.cons same hu)) .nil)),
        .routine ht ho hrp hc hb hr hc'⟩
  | noRoutine =>
    rintro _ ⟨fs, os, h⟩
    cases h
    exact .keep .noRoutine
  | moreRoutines _ _ ih ih' =>
    rintro _ ⟨fs, os, h⟩
    cases h with
    | method h h' =>
      obtain ⟨ts', ht, hr⟩ := ih _ _ ⟨_, _, h⟩
      obtain ⟨us', hu, hr'⟩ := ih' _ ⟨_, _, h'⟩
      exact ⟨_, List.rel_append ht hu, .moreRoutines hr hr'⟩

/-- The tokens of a renamed program. -/
theorem reads_renamed {b : Bool} {ss ss' : List Stmt} (h : ReadsStmt (.declarations b ss) k ts k')
    (hr : Renames ρ fs os (.stmts ss) (.stmts ss')) :
    ∃ ts', List.Forall₂ (Token.Reworded ρ.new) ts ts' ∧ ReadsStmt (.declarations b ss') k ts' k' :=
  readsStmt_rewords h ss' ⟨fs, os, hr⟩

end Grammar

end Lox
