/-
  Lox.Proofs.Scope.Declarations — the errors that the resolver reports in declarations are
  exact (`declaration_errors`).

  A part of a program that declares nothing settles the names that it reads, in whatever
  scopes are open, and adds the errors of the scopes inside of it (`Heard`). A declaration
  has an account in the innermost scope beside this (`Told`), and so has a list of
  statements an account for each name that it declares first (`told_stmts`). When the scope
  is closed, what is due in it are the names that are not read (`dues_accounts`).
-/

import Lox.Proofs.Grammar.Tidied
import Lox.Proofs.Scope.Heard
import Mathlib.Tactic.Abel

namespace Lox

open Ledger Resolver

variable {ls rest : List Ledger} {l : Ledger} {seen xs : List String} {found : List Diagnostic}
  {r r₁ r' : Resolver}

/-! ## Declarations -/

namespace Stmt

/-- The account of a declaration behind others in its scope. -/
def accounts (seen : List String) (s : Stmt) : Ledger :=
  (s.declares?.toList.filter (·.text ∉ seen)).map fun name =>
    ⟨name.text, false, if name.text ∈ s.readsBack then none else some name⟩

/-- The open scopes behind a statement. -/
def after (s : Stmt) : List Ledger → List Ledger
  | [] => []
  | l :: rest => (settle s.reads l ++ s.accounts l.names) :: marks (s.reads.filter (· ∉ l.names ++ declared s)) rest

/-- The errors at the name that a statement declares and in the initializer of it. -/
def errorsAt (s : Stmt) : List Ledger → List Diagnostic
  | [] => []
  | l :: _ =>
    (s.declares?.toList.filter (·.text ∈ l.names)).map (·.faulty .duplicate) ++
      (s.ownReads l.names).map (·.faulty .ownInitializer)

/-- The errors of the scopes inside of a statement. -/
def inner (s : Stmt) : List Diagnostic := s.scopes.flatMap (·.errors)

def innerAll (ss : List Stmt) : List Diagnostic := (scopesAll ss).flatMap (·.errors)

end Stmt

/-- What walking a statement does. -/
structure Told (s : Stmt) (r r' : Resolver) : Prop where
  scopes : ledgers r'.scopes = s.after (ledgers r.scopes)
  noted : r'.noted = r.noted + ↑(s.errorsAt (ledgers r.scopes) ++ s.inner)

variable {s : Stmt}

theorem after_plain (h : s.declares? = none) (ls : List Ledger) : s.after ls = marks s.reads ls := by
  cases ls with
  | nil => rfl
  | cons l rest => simp [Stmt.after, Stmt.accounts, marks, declared_none h, h]

theorem errorsAt_plain (h : s.declares? = none) (ls : List Ledger) : s.errorsAt ls = [] := by
  cases ls with
  | nil => rfl
  | cons l rest =>
    have hown : s.ownReads (names l) = [] := by
      cases s <;> first | rfl | cases h
    simp [Stmt.errorsAt, h, hown]

/-- A statement that declares nothing is told as it is heard. -/
theorem told_iff_heard (h : s.declares? = none) : Told s r r' ↔ Heard s.reads s.inner r r' := by
  constructor
  · intro ht
    refine ⟨ht.scopes.trans (after_plain h _), ?_⟩
    rw [ht.noted, errorsAt_plain h, List.nil_append]
  · intro hh
    refine ⟨hh.ledgers.trans (after_plain h _).symm, ?_⟩
    rw [hh.noted, errorsAt_plain h, List.nil_append]

/-! ### The account of a declaration -/

variable {name : Lexeme} {watched : Bool}

theorem completed_marks (x : String) (xs : List String) (ls : List Ledger) :
    completed x (marks xs ls) = marks xs (completed x ls) := by
  cases ls with
  | nil => rfl
  | cons l rest =>
    have hnames : names (l.map fun e => { e with pending := if e.name = x then false else e.pending }) = names l := by
      simp [names]
    simp only [marks, completed, hnames, settle, List.map_map, Function.comp_def]

theorem completed_balanced (hl : ∀ e ∈ l, e.IsBalanced) (x : String) :
    l.map (fun e => { e with pending := if e.name = x then false else e.pending }) = l := by
  refine (List.map_congr_left fun e he => ?_).trans (List.map_id l)
  have hpending := (hl e he).1
  obtain ⟨y, pending, due⟩ := e
  cases hpending
  simp

theorem declared_again (hl : ∀ e ∈ l, e.IsBalanced) (hx : name.text ∈ names l) :
    completed name.text (announced name watched (l :: rest)) = l :: rest := by
  rw [announced, if_pos hx, completed, completed_balanced hl]

theorem declared_first (hl : ∀ e ∈ l, e.IsBalanced) (hx : name.text ∉ names l) :
    completed name.text (announced name watched (l :: rest)) =
      (l ++ [⟨name.text, false, if watched then some name else none⟩]) :: rest := by
  rw [announced, if_neg hx, completed, List.map_append, completed_balanced hl]
  simp

theorem declared_some (hd : s.declares? = some name) : declared s = [name.text] := by
  rw [declared, hd]
  rfl

/-- A second declaration of a name leaves the first one to be read. -/
theorem after_again (hd : s.declares? = some name) (hl : ∀ e ∈ l, e.IsBalanced) (hx : name.text ∈ names l) :
    marks s.reads (completed name.text (announced name true (l :: rest))) = s.after (l :: rest) := by
  have haccounts : s.accounts (names l) = [] := by simp [Stmt.accounts, hd, hx]
  have hsame : s.reads.filter (· ∉ names l) = s.reads.filter (· ∉ names l ++ declared s) := by
    refine List.filter_congr fun y _ => ?_
    have hy : y = name.text → y ∈ names l := fun he => he ▸ hx
    simp only [declared_some hd, List.mem_append, List.mem_singleton, not_or, decide_eq_decide]
    exact ⟨fun h => ⟨h, fun he => h (hy he)⟩, fun h => h.1⟩
  rw [declared_again hl hx, Stmt.after, haccounts, List.append_nil, marks, hsame]

/-- The first declaration of a name is read by what reads it from there on. -/
theorem after_first (hd : s.declares? = some name) (hl : ∀ e ∈ l, e.IsBalanced) (hx : name.text ∉ names l)
    (hback : name.text ∈ xs ↔ name.text ∈ s.readsBack)
    (hreads : xs.filter (· ≠ name.text) = s.reads.filter (· ≠ name.text)) :
    marks xs (completed name.text (announced name true (l :: rest))) = s.after (l :: rest) := by
  have hother : ∀ y, y ≠ name.text → (y ∈ xs ↔ y ∈ s.reads) := by
    intro y hy
    have hm : y ∈ xs.filter (· ≠ name.text) ↔ y ∈ s.reads.filter (· ≠ name.text) := by rw [hreads]
    simpa [hy] using hm
  have hsettle : settle xs l = settle s.reads l := by
    refine settle_congr fun e he _ => hother e.name fun hn => hx (hn ▸ List.mem_map_of_mem he)
  have haccounts : settle xs [⟨name.text, false, some name⟩] = s.accounts (names l) := by
    simp [settle, Stmt.accounts, hd, hx, hback]
  have hrest : xs.filter (· ∉ names l ++ [name.text]) = s.reads.filter (· ∉ names l ++ declared s) := by
    have hsplit : ∀ ys : List String, ys.filter (· ∉ names l ++ [name.text]) =
        (ys.filter (· ≠ name.text)).filter (· ∉ names l) := by
      intro ys
      rw [List.filter_filter]
      refine List.filter_congr fun y _ => ?_
      simp [Bool.and_comm]
    rw [declared_some hd, hsplit, hsplit, hreads]
  have hnames : names [(⟨name.text, false, some name⟩ : Account)] = [name.text] := rfl
  rw [declared_first hl hx, Stmt.after, if_pos rfl, marks, settle_append, names_append, hnames, hsettle,
    haccounts, hrest]

/-! ### What a declaration does -/

theorem errorsAt_declared (hd : s.declares? = some name) (ls : List Ledger) :
    s.errorsAt ls = redeclared name ls ++ ls.head?.elim [] fun l =>
      (s.ownReads (names l)).map (·.faulty .ownInitializer) := by
  cases ls with
  | nil => rfl
  | cons l rest =>
    simp only [Stmt.errorsAt, hd]
    rfl

/-- A declaration that is complete before the rest of the statement is walked. -/
theorem told_declared (hd : s.declares? = some name) (hback : s.readsBack = s.reads)
    (hown : ∀ seen, s.ownReads seen = []) (hs : Balanced r)
    (h : Heard s.reads s.inner ((r.declare name true).define name) r') : Told s r r' := by
  obtain ⟨hannounced, hfound⟩ := declare_ledger r name true
  obtain ⟨hcompleted, hsame⟩ := define_ledger (r.declare name true) name
  constructor
  · rw [h.ledgers, hcompleted, hannounced]
    unfold Balanced at hs
    cases hls : ledgers r.scopes with
    | nil => rfl
    | cons l rest =>
      rw [hls] at hs
      have hl := (everywhere_cons.mp hs).1
      by_cases hx : name.text ∈ names l
      · exact after_again hd hl hx
      · exact after_first hd hl hx (by rw [hback]) rfl
  · have herrors : s.errorsAt (ledgers r.scopes) = redeclared name (ledgers r.scopes) := by
      rw [errorsAt_declared hd]
      cases ledgers r.scopes <;> simp [hown]
    rw [h.noted, hsame, hfound, herrors, add_assoc, Multiset.coe_add]

/-- A name is pending from its announcement until it is completed. -/
theorem pendingIn_announced (hl : ∀ e ∈ l, e.IsBalanced) (hx : name.text ∉ names l) (y : String) :
    pendingIn y (announced name true (l :: rest)) = decide (y = name.text) := by
  rw [announced, if_neg hx, pendingIn, List.find?_append]
  cases hf : l.find? (·.name = y) with
  | some e =>
    have hm := List.mem_of_find?_eq_some hf
    have hname : e.name = y := by simpa using List.find?_some hf
    have hne : y ≠ name.text := fun hy => hx (hy ▸ hname ▸ List.mem_map_of_mem hm)
    simp [(hl e hm).1, hne]
  | none =>
    by_cases hy : y = name.text
    · simp [hy]
    · have hy' : ¬ name.text = y := fun h => hy h.symm
      simp [hy, hy']

theorem quiet_declared (hn : name.IsPlain) (hs : Balanced r) : Quiet (r.declare name true) := by
  unfold Quiet
  rw [(declare_ledger r name true).1]
  unfold Balanced at hs
  cases hls : ledgers r.scopes with
  | nil => exact fun _ h => absurd h List.not_mem_nil
  | cons l rest =>
    rw [hls] at hs
    obtain ⟨hl, hrest⟩ := everywhere_cons.mp hs
    rw [announced]
    split
    · exact everywhere_cons.mpr ⟨fun e he => (hl e he).2, hrest.mono fun _ he => he.2⟩
    · refine everywhere_cons.mpr ⟨fun e he => ?_, hrest.mono fun _ he => he.2⟩
      rcases List.mem_append.mp he with he | he
      · exact (hl e he).2
      · obtain rfl := List.mem_singleton.mp he
        exact fun hr => absurd hr hn.not_reserved

/-- A variable that is declared for the first time is read by nothing in its initializer. -/
theorem after_var (hs : Everywhere Account.IsBalanced ls) (name : Lexeme) (init : Option Expr) :
    completed name.text (marks (live (announced name true ls) (Expr.refsOpt init)) (announced name true ls)) =
      (Stmt.var name init).after ls := by
  have hd : (Stmt.var name init).declares? = some name := rfl
  rw [completed_marks]
  cases ls with
  | nil => rfl
  | cons l rest =>
    have hl := (everywhere_cons.mp hs).1
    by_cases hx : name.text ∈ names l
    · have hlive : live (announced name true (l :: rest)) (Expr.refsOpt init) = (Stmt.var name init).reads := by
        rw [announced, if_pos hx]
        exact (live_balanced hs _).1
      rw [hlive]
      exact after_again hd hl hx
    · have hlive : live (announced name true (l :: rest)) (Expr.refsOpt init) =
          (Stmt.var name init).reads.filter (· ≠ name.text) := by
        simp [live, pendingIn_announced hl hx, Stmt.reads, Expr.readsOpt, List.filter_map, Function.comp_def]
      rw [hlive]
      refine after_first hd hl hx (by simp [Stmt.readsBack]) ?_
      rw [List.filter_filter]
      simp

theorem errorsAt_var (hs : Everywhere Account.IsBalanced ls) (name : Lexeme) (init : Option Expr) :
    (Stmt.var name init).errorsAt ls = redeclared name ls ++ early (announced name true ls) (Expr.refsOpt init) := by
  rw [errorsAt_declared rfl]
  congr 1
  cases ls with
  | nil => simp [early, announced, pendingIn]
  | cons l rest =>
    by_cases hx : name.text ∈ names l
    · have hearly : early (announced name true (l :: rest)) (Expr.refsOpt init) = [] := by
        rw [announced, if_pos hx]
        exact (live_balanced hs _).2
      simp [hearly, Stmt.ownReads, hx]
    · simp [early, pendingIn_announced (everywhere_cons.mp hs).1 hx, Stmt.ownReads, hx]

/-- A variable is announced before its initializer and completed behind it. -/
theorem told_var {init : Option Expr} (hn : name.IsPlain) (hi : Expr.TidyOpt init) (hs : Balanced r) :
    Told (.var name init) r ((exprOpt init (r.declare name true)).define name) := by
  obtain ⟨hannounced, hfound⟩ := declare_ledger r name true
  obtain ⟨hcompleted, hsame⟩ := define_ledger (exprOpt init (r.declare name true)) name
  have hinit := heard_exprOpt hi (quiet_declared hn hs)
  unfold HeardAll at hinit
  have hscopes := hinit.ledgers
  have hnoted := hinit.noted
  rw [hannounced] at hscopes hnoted
  constructor
  · rw [hcompleted, hscopes, after_var hs]
  · have hinner : (Stmt.var name init).inner = [] := rfl
    rw [hsame, hnoted, hfound, add_assoc, Multiset.coe_add, errorsAt_var hs, hinner, List.append_nil]

theorem plain_of_tidy (ht : s.Tidy) (hd : s.declares? = some name) : name.IsPlain := by
  cases s <;> first | (cases hd; exact ht.1) | cases hd

theorem balanced_accounts (ht : s.Tidy) (seen : List String) : ∀ e ∈ s.accounts seen, e.IsBalanced := by
  intro e he
  obtain ⟨name, hm, rfl⟩ := List.mem_map.mp he
  have hd : s.declares? = some name := by simpa using (List.mem_filter.mp hm).1
  exact ⟨rfl, fun hr => absurd hr (plain_of_tidy ht hd).not_reserved⟩

/-- No account is left open by a statement. -/
theorem Told.balanced (h : Told s r r') (ht : s.Tidy) (hs : Balanced r) : Balanced r' := by
  unfold Balanced at hs ⊢
  rw [h.scopes]
  have hread : ∀ e : Account, e.IsBalanced → Account.IsBalanced { e with due := none } :=
    fun _ he => ⟨he.1, fun _ => rfl⟩
  cases hls : ledgers r.scopes with
  | nil => exact fun _ hm => absurd hm List.not_mem_nil
  | cons l rest =>
    rw [hls] at hs
    obtain ⟨hl, hrest⟩ := everywhere_cons.mp hs
    refine everywhere_cons.mpr ⟨fun e he => ?_, hrest.marks hread _⟩
    rcases List.mem_append.mp he with he | he
    · exact forall_settle hread hl _ e he
    · exact balanced_accounts ht _ e he

/-! ## Scopes -/

/-- The accounts of the names that are declared first behind others, at the end of the scope. -/
def entered (seen : List String) : List Stmt → Ledger
  | [] => []
  | s :: rest => settle (Stmt.readsAll rest) (s.accounts seen) ++ entered (seen ++ declared s) rest

/-- What is due at the end of a scope is each declaration that nothing has read. -/
theorem dues_accounts (seen xs : List String) (s : Stmt) :
    dues (settle xs (s.accounts seen)) =
      (s.declares?.toList.filter fun name => name.text ∉ seen ∧ name.text ∉ s.readsBack ++ xs).map
        fun name => name.faulty (.unused name.text) := by
  cases hd : s.declares? with
  | none => simp [Stmt.accounts, hd, settle, dues]
  | some name =>
    by_cases hx : name.text ∈ seen
    · simp [Stmt.accounts, hd, hx, settle, dues]
    · by_cases hb : name.text ∈ s.readsBack <;> by_cases hy : name.text ∈ xs <;>
        simp [Stmt.accounts, hd, hx, hb, hy, settle, dues]

/-- What is due at the end of a scope are the names that are not read. -/
theorem dues_entered (seen : List String) (body : List Stmt) :
    dues (entered seen body) = (unread seen body).map fun name => name.faulty (.unused name.text) := by
  induction body generalizing seen with
  | nil => rfl
  | cons s rest ih => rw [entered, unread, dues_append, dues_accounts, ih, List.map_append]

theorem duplicates_append (seen : List String) (vs vs' : List Lexeme) :
    duplicates seen (vs ++ vs') = duplicates seen vs ++ duplicates (seen ++ vs.map (·.text)) vs' := by
  induction vs generalizing seen with
  | nil => simp [duplicates]
  | cons v rest ih => simp [duplicates, ih]

/-- The errors in a list of statements of one scope, behind declarations of the names `seen`. -/
def errorsAfter (seen : List String) (body : List Stmt) : List Diagnostic :=
  (duplicates seen (body.filterMap Stmt.declares?)).map (·.faulty .duplicate) ++
    ((ownReadsAll seen body).map (·.faulty .ownInitializer) ++ Stmt.innerAll body)

/-- What walking the statements of a scope does, `l` the accounts before them. -/
structure ToldAll (seen : List String) (body : List Stmt) (l : Ledger) (rest : List Ledger) (r r' : Resolver) :
    Prop where
  scopes : ledgers r'.scopes =
    (settle (Stmt.readsAll body) l ++ entered seen body) :: marks (Stmt.escaping seen body) rest
  noted : r'.noted = r.noted + (errorsAfter seen body : Multiset Diagnostic)

/-- Only which names have been declared matters, not how often. -/
theorem accounts_congr {seen seen' : List String} (h : ∀ x, x ∈ seen ↔ x ∈ seen') (s : Stmt) :
    s.accounts seen = s.accounts seen' ∧ s.ownReads seen = s.ownReads seen' := by
  refine ⟨by simp only [Stmt.accounts, h], ?_⟩
  cases s <;> simp only [Stmt.ownReads, h]

theorem names_accounts (seen : List String) (s : Stmt) : names (s.accounts seen) = (declared s).filter (· ∉ seen) := by
  cases hd : s.declares? with
  | none => simp [Stmt.accounts, declared, hd, names]
  | some name => by_cases hx : name.text ∈ seen <;> simp [Stmt.accounts, declared, hd, names, hx]

variable {body : List Stmt}

theorem duplicates_declared (seen : List String) (s : Stmt) :
    duplicates seen s.declares?.toList = s.declares?.toList.filter (·.text ∈ seen) := by
  cases s.declares? with
  | none => rfl
  | some name => simp [duplicates]

/-- The errors at the head of a list and those behind it. -/
theorem errorsAfter_cons (hseen : ∀ x, x ∈ names l ↔ x ∈ seen) (s : Stmt) (body : List Stmt) :
    (↑(s.errorsAt (l :: rest) ++ s.inner) + ↑(errorsAfter (seen ++ declared s) body) : Multiset Diagnostic) =
      ↑(errorsAfter seen (s :: body)) := by
  have hdeclared : (s :: body).filterMap Stmt.declares? = s.declares?.toList ++ body.filterMap Stmt.declares? := by
    cases h : s.declares? <;> simp [h]
  have hnames : s.declares?.toList.map (·.text) = declared s := by
    cases h : s.declares? <;> simp [declared, h]
  have hinner : Stmt.innerAll (s :: body) = s.inner ++ Stmt.innerAll body := List.flatMap_append
  simp only [Stmt.errorsAt, errorsAfter, (accounts_congr hseen s).2, hseen, hdeclared, duplicates_append, hnames,
    duplicates_declared, ownReadsAll, hinner, List.map_append, ← Multiset.coe_add]
  abel

/-- A statement and those behind it are told one after the other. -/
theorem ToldAll.cons (hls : ledgers r.scopes = l :: rest) (hseen : ∀ x, x ∈ names l ↔ x ∈ seen) (h : Told s r r₁)
    (h' : ToldAll (seen ++ declared s) body (settle s.reads l ++ s.accounts seen)
      (marks (s.reads.filter (· ∉ seen ++ declared s)) rest) r₁ r') : ToldAll seen (s :: body) l rest r r' := by
  constructor
  · rw [h'.scopes, settle_append, settle_settle, marks_marks, List.append_assoc]
    rfl
  · have hnoted := h.noted
    rw [hls] at hnoted
    rw [h'.noted, hnoted, add_assoc, errorsAfter_cons hseen]

/-! ### Opening and closing -/

namespace Resolver

/-- Closing a scope whose parameters are never due. -/
theorem heard_scope {params : List Lexeme} {body : List Stmt} (hdue : ∀ e ∈ l, e.due = none)
    (hfound : r₁.noted = r.noted + ↑((duplicates [] params).map (·.faulty .duplicate)))
    (h : ToldAll (params.map (·.text)) body l (ledgers r.scopes) r₁ r') :
    Heard (Stmt.escaping (params.map (·.text)) body) (LocalScope.errors ⟨params, body⟩ ++ Stmt.innerAll body)
      r r'.leave := by
  obtain ⟨s, outer, hr, hs, houter⟩ := List.map_eq_cons_iff.mp h.scopes
  obtain ⟨hscopes, hnoted⟩ := leave_ledger hr
  have hparams : dues (settle (Stmt.readsAll body) l) = [] := by
    refine List.filterMap_eq_nil_iff.mpr fun e he => ?_
    have hnone := forall_settle (P := fun e => e.due = none) (fun _ _ => rfl) hdue _ e he
    rw [hnone]
    rfl
  constructor
  · rw [hscopes]
    exact houter
  · rw [hnoted, hs, dues_append, hparams, List.nil_append, dues_entered, h.noted, hfound]
    simp only [LocalScope.errors, LocalScope.declarations, LocalScope.paramNames, errorsAfter, duplicates_append,
      List.nil_append, List.map_append, ← Multiset.coe_add]
    abel

/-- These accounts are of parameters with the names `seen`. -/
structure OfParams (seen : List String) (l : Ledger) : Prop where
  names : ∀ x, x ∈ names l ↔ x ∈ seen
  idle : ∀ e ∈ l, e.IsIdle

/-- A parameter opens an account that is never due. -/
theorem param_ledger (hls : ledgers r.scopes = l :: rest) (h : OfParams seen l) (name : Lexeme) :
    (∃ l', ledgers (r.param name).scopes = l' :: rest ∧ OfParams (seen ++ [name.text]) l') ∧
      (r.param name).noted = r.noted + ↑(([name].filter (·.text ∈ seen)).map (·.faulty .duplicate)) := by
  have hl : ∀ e ∈ l, e.IsBalanced := fun e he => (h.idle e he).balanced
  obtain ⟨hannounced, hfound⟩ := declare_ledger r name false
  obtain ⟨hcompleted, hsame⟩ := define_ledger (r.declare name false) name
  constructor
  · rw [param, hcompleted, hannounced, hls]
    by_cases hx : name.text ∈ names l
    · refine ⟨l, declared_again hl hx, fun x => ?_, h.idle⟩
      rw [h.names, List.mem_append, List.mem_singleton]
      exact ⟨Or.inl, fun hm => hm.elim id fun he => he ▸ (h.names _).mp hx⟩
    · refine ⟨_, declared_first hl hx, fun x => ?_, fun e he => ?_⟩
      · rw [names_append, List.mem_append, List.mem_append, h.names]
        rfl
      · rcases List.mem_append.mp he with he | he
        · exact h.idle e he
        · obtain rfl := List.mem_singleton.mp he
          exact ⟨rfl, rfl⟩
  · have hagain : redeclared name (ledgers r.scopes) = ([name].filter (·.text ∈ seen)).map (·.faulty .duplicate) := by
      simp only [hls, redeclared, h.names]
    rw [param, hsame, hfound, hagain]

/-- Parameters open accounts one after the other, and a second one of a name is reported. -/
theorem params_ledger (params : List Lexeme) (hls : ledgers r.scopes = l :: rest) (h : OfParams seen l) :
    (∃ l', ledgers (params.foldl param r).scopes = l' :: rest ∧ OfParams (seen ++ params.map (·.text)) l') ∧
      (params.foldl param r).noted = r.noted + ↑((duplicates seen params).map (·.faulty .duplicate)) := by
  induction params generalizing seen l r with
  | nil => exact ⟨⟨l, hls, by simpa using h⟩, (add_zero _).symm⟩
  | cons name params ih =>
    obtain ⟨⟨l₁, hls₁, h₁⟩, hfirst⟩ := param_ledger hls h name
    obtain ⟨⟨l', hls', h'⟩, hmore⟩ := ih hls₁ h₁
    refine ⟨⟨l', hls', ?_⟩, ?_⟩
    · rwa [List.append_assoc] at h'
    · rw [List.foldl_cons, hmore, hfirst, duplicates, List.map_append, add_assoc, Multiset.coe_add]

theorem ledger_implicit (x : String) : ledger (implicitScope x) = [⟨x, false, none⟩] := rfl

theorem balanced_implicit (hs : Balanced r) (x : String) : Balanced (r.enter (implicitScope x)) := by
  refine everywhere_cons.mpr ⟨fun e he => ?_, hs⟩
  obtain rfl := List.mem_singleton.mp he
  exact ⟨rfl, fun _ => rfl⟩

/-- The scope of `this` or `super` around a part of a program. -/
theorem heard_implicit {x : String} (hx : IsReserved x) (hq : Quiet r)
    (h : Heard xs found (r.enter (implicitScope x)) r') : Heard xs found r r'.leave := by
  obtain ⟨s, outer, hr, hs, houter⟩ := List.map_eq_cons_iff.mp h.ledgers
  obtain ⟨hscopes, hnoted⟩ := leave_ledger hr
  have hdues : dues (ledger s) = [] := by
    rw [hs, ledger_implicit]
    simp [settle, dues]
  have hnames : xs.filter (· ∉ names (ledger (implicitScope x))) = xs.filter (· ≠ x) := by
    refine List.filter_congr fun y _ => ?_
    rw [ledger_implicit]
    simp [names]
  constructor
  · rw [hscopes]
    refine houter.trans ?_
    rw [hnames]
    exact marks_without (fun l hl e he hn => hq l hl e he (hn ▸ hx)) xs
  · rw [hnoted, hdues, h.noted]
    exact add_zero _

theorem balanced_declared (hn : name.IsPlain) (hs : Balanced r) : Balanced ((r.declare name true).define name) := by
  have hvar : Told (.var name none) r ((r.declare name true).define name) := told_var hn nofun hs
  exact hvar.balanced ⟨hn, nofun⟩ hs

/-- A superclass is read before there is a scope for `super`. -/
theorem heard_superclass (hs : Balanced r) {parent : Reference} (hp : parent.name.IsPlain) (name : Lexeme) :
    ∃ r₁, r.superclassClause name parent = r₁.enter (implicitScope superName) ∧ Heard [parent.name.text] [] r r₁ := by
  let named := if parent.name.text = name.text then r.report parent.name .ownSuperclass else r
  have hnamed : Heard [] [] r { named with class_ := .subclass } := by
    unfold named
    split
    · have hreport : Heard [] [] r (r.report parent.name .ownSuperclass) := heard_report r _ rfl
      exact ⟨hreport.ledgers, hreport.noted⟩
    · exact .silent rfl rfl
  exact ⟨_, rfl, hnamed.after (heard_effect (e := .ref parent) hp (hnamed.balanced hs))⟩

/-- The scopes around the methods of a class. -/
theorem heard_classScopes {methods : List Routine} {superclass : Option Reference}
    (hp : ∀ parent ∈ superclass, parent.name.IsPlain) (hs : Balanced r) (name : Lexeme) (outer : ClassContext)
    (h : ∀ {r}, Balanced r → Heard xs found r (methodBodies methods r)) :
    Heard (superclass.elim [] (fun parent => [parent.name.text]) ++ xs) found r
      ((methodBodies methods
        ((match superclass with | none => r | some parent => r.superclassClause name parent).enter
          (implicitScope thisName))).closeClass outer superclass) := by
  have hthis : ∀ {r}, Balanced r → Heard xs found r (methodBodies methods (r.enter (implicitScope thisName))).leave :=
    fun hr => heard_implicit (Or.inl rfl) hr.quiet (h (balanced_implicit hr thisName))
  cases superclass with
  | none => exact (hthis hs).before (.silent rfl rfl)
  | some parent =>
    obtain ⟨r₁, hr₁, hread⟩ := heard_superclass hs (hp parent rfl) name
    have hb := hread.balanced hs
    have hsuper := heard_implicit (Or.inr rfl) hb.quiet (hthis (balanced_implicit hb superName))
    simp only [hr₁]
    exact (hread.trans hsuper).before (.silent rfl rfl)

/-- A class is announced and completed before its methods are heard. -/
theorem told_class {name : Lexeme} {superclass : Option Reference} {methods : List Routine} (hn : name.IsPlain)
    (hp : ∀ parent ∈ superclass, parent.name.IsPlain) (hs : Balanced r)
    (h : ∀ {r}, Balanced r →
      Heard (Stmt.methodReads methods) ((Stmt.methodScopes methods).flatMap (·.errors)) r (methodBodies methods r)) :
    Told (.class_ name superclass methods) r (stmt (.class_ name superclass methods) r) := by
  have hclass : Balanced { r with class_ := .class_ } := hs
  have hscopes := heard_classScopes hp (balanced_declared hn hclass) name r.class_ h
  have htold := told_declared (s := .class_ name superclass methods) rfl rfl (fun _ => rfl) hclass hscopes
  exact ⟨htold.scopes, htold.noted⟩

/-! ## Statements -/

mutual

/-- Every statement tells its declarations, by recursion on the tree. -/
theorem told_stmt : ∀ (s : Stmt), s.Tidy → ∀ {r}, Balanced r → Told s r (stmt s r)
  | .expr e, h, _, hs => (told_iff_heard rfl).mpr (heard_effect h hs)
  | .print_ e, h, _, hs => (told_iff_heard rfl).mpr (heard_effect h hs)
  | .var _ _, h, _, hs => told_var h.1 h.2 hs
  | .block body, h, r, hs =>
    have hentered : Balanced (r.enter ∅) := everywhere_cons.mpr ⟨fun _ he => absurd he List.not_mem_nil, hs⟩
    have hbody : ToldAll ([].map Lexeme.text) body [] (ledgers r.scopes) (r.enter ∅) _ :=
      told_stmts body h rfl (fun _ => Iff.rfl) hentered
    (told_iff_heard rfl).mpr (heard_scope (l := []) nofun (add_zero _).symm hbody)
  | .cond test yes no, h, _, hs => by
    have htest := heard_effect h.1 hs
    have hyes := (told_iff_heard h.2.1.2).mp (told_stmt yes h.2.1.1 (htest.balanced hs))
    have hno := heard_stmtOpt no h.2.2 (hyes.balanced (htest.balanced hs))
    have hall := htest.trans (hyes.trans hno)
    refine (told_iff_heard rfl).mpr ?_
    rwa [List.nil_append, Stmt.inner, ← List.flatMap_append] at hall
  | .loop test body step, h, _, hs => by
    have htest := heard_effect h.1 hs
    have hbody := (told_iff_heard h.2.1.2).mp (told_stmt body h.2.1.1 (htest.balanced hs))
    have hstep := heard_effectOpt h.2.2 (hbody.balanced (htest.balanced hs))
    have hall := htest.trans (hbody.trans hstep)
    refine (told_iff_heard rfl).mpr ?_
    rwa [List.nil_append, List.append_nil] at hall
  | .break_ _, _, r, _ => (told_iff_heard rfl).mpr (.refl r)
  | .continue_ _, _, r, _ => (told_iff_heard rfl).mpr (.refl r)
  | .fun_ routine, h, _, hs =>
    told_declared rfl rfl (fun _ => rfl) hs (heard_routine routine h.2 .function (balanced_declared h.1 hs))
  | .return_ keyword value, h, r, hs =>
    have hkeyword := heard_checkReturn r keyword value.isSome
    (told_iff_heard rfl).mpr (hkeyword.after (heard_effectOpt h (hkeyword.balanced hs)))
  | .class_ _ _ methods, h, _, hs => told_class h.1 h.2.1 hs (heard_methods methods h.2.2)

/-- Every list of statements tells those of its scope in order. -/
theorem told_stmts : ∀ (body : List Stmt), Stmt.TidyAll body →
    ∀ {seen l rest r}, ledgers r.scopes = l :: rest → (∀ x, x ∈ names l ↔ x ∈ seen) → Balanced r →
    ToldAll seen body l rest r (stmts body r)
  | [], _, seen, l, rest, r, hls, _, _ => by
    refine ⟨?_, (add_zero _).symm⟩
    simp only [Stmt.readsAll, entered, Stmt.escaping, settle_nil, List.append_nil, marks_nil]
    exact hls
  | s :: body, h, seen, l, rest, r, hls, hseen, hs => by
    have hfirst := told_stmt s h.1 hs
    have hls' := hfirst.scopes
    rw [hls, Stmt.after, accounts_congr hseen s |>.1] at hls'
    have hrest : s.reads.filter (· ∉ names l ++ declared s) = s.reads.filter (· ∉ seen ++ declared s) := by
      simp only [List.mem_append, hseen]
    have hseen' : ∀ x, x ∈ names (settle s.reads l ++ s.accounts seen) ↔ x ∈ seen ++ declared s := by
      intro x
      rw [names_append, names_settle, names_accounts, List.mem_append, List.mem_append, List.mem_filter, hseen]
      by_cases hx : x ∈ seen <;> simp [hx]
    rw [hrest] at hls'
    exact .cons hls hseen hfirst (told_stmts body h.2 hls' hseen' (hfirst.balanced h.1 hs))

theorem heard_stmtOpt : ∀ (s : Option Stmt), Stmt.TidyOpt s → ∀ {r}, Balanced r →
    Heard (Stmt.readsOpt s) ((Stmt.scopesOpt s).flatMap (·.errors)) r (stmtOpt s r)
  | none, _, r, _ => .refl r
  | some s, h, _, hs => (told_iff_heard h.2).mp (told_stmt s h.1 hs)

/-- A routine is a scope with its parameters, and its body is told in it. -/
theorem heard_routine : ∀ (routine : Routine), Stmt.RoutineTidy routine →
    ∀ (context : RoutineContext) {r : Resolver}, Balanced r →
    Heard (Stmt.routineReads routine) ((Stmt.routineScopes routine).flatMap (·.errors)) r
      (routineBody context routine r)
  | ⟨_, params, body⟩, h, context, r, hs => by
    have hls : ledgers (({ r with routine := context } : Resolver).enter ∅).scopes = [] :: ledgers r.scopes := rfl
    obtain ⟨⟨l, hls', h'⟩, hfound⟩ := params_ledger params hls ⟨fun _ => Iff.rfl, nofun⟩
    have hparams : Balanced (params.foldl param (({ r with routine := context } : Resolver).enter ∅)) := by
      unfold Balanced
      rw [hls']
      exact everywhere_cons.mpr ⟨fun e he => (h'.idle e he).balanced, hs⟩
    have hscope :=
      heard_scope (r := r) (fun e he => (h'.idle e he).2) hfound (told_stmts body h.2 hls' h'.names hparams)
    exact hscope.before (.silent rfl rfl)

/-- Methods are heard one after the other. -/
theorem heard_methods : ∀ (methods : List Routine), Stmt.MethodsTidy methods → ∀ {r}, Balanced r →
    Heard (Stmt.methodReads methods) ((Stmt.methodScopes methods).flatMap (·.errors)) r (methodBodies methods r)
  | [], _, r, _ => .refl r
  | m :: rest, h, _, hs => by
    have hfirst := heard_routine m h.1 (if m.isInit then .initializer else .method) hs
    have hall := hfirst.trans (heard_methods rest h.2 (hfirst.balanced hs))
    rw [← List.flatMap_append] at hall
    exact hall

end

/-- A global name has no account: only what is inside of the statements is reported. -/
theorem noted_program (p : List Stmt) (h : Stmt.TidyAll p) (hls : ledgers r.scopes = []) :
    (stmts p r).noted = r.noted + (Stmt.innerAll p : Multiset Diagnostic) := by
  induction p generalizing r with
  | nil => exact (add_zero _).symm
  | cons s rest ih =>
    have hbalanced : Balanced r := by
      unfold Balanced
      rw [hls]
      exact nofun
    obtain ⟨hscopes, hnoted⟩ := told_stmt s h.1 hbalanced
    rw [hls] at hscopes hnoted
    have hinner : Stmt.innerAll (s :: rest) = s.inner ++ Stmt.innerAll rest := List.flatMap_append
    rw [hinner, ← Multiset.coe_add, ← add_assoc]
    exact (ih h.2 hscopes).trans (congrArg (· + _) hnoted)

end Resolver

/-- The errors in the declarations of what is read of a text are those of its local scopes, each
as often as it is found there. -/
theorem declaration_errors (source : String) (k : Int) :
    ((resolve (parse (tokenize source).1 k).program).errors.filter (·.isOf BindingFault.isDeclarational)).Perm
      ((Stmt.scopesAll (parse (tokenize source).1 k).program).flatMap (·.errors)) := by
  have hnoted := Resolver.noted_program (r := .start) _ (parse_tidy source k) rfl
  exact Multiset.coe_eq_coe.mp (hnoted.trans (zero_add _))

-- A parameter `a` before `var a; var b = b; print a;`: the initializer does not read `b`.
example :
    LocalScope.errors ⟨[⟨"a", 1⟩],
      [.var ⟨"a", 2⟩ none, .var ⟨"b", 3⟩ (some (.ref ⟨⟨"b", 3⟩, 0⟩)), .print_ (.ref ⟨⟨"a", 4⟩, 1⟩)]⟩ =
    [(⟨"a", 2⟩ : Lexeme).faulty .duplicate, (⟨"b", 3⟩ : Lexeme).faulty .ownInitializer,
      (⟨"b", 3⟩ : Lexeme).faulty (.unused "b")] := rfl

end Lox
