/-
  Lox.Proofs.Scope.Shape — what holds of every tree that has been read: its references
  have slots of their own, in the range of slots that reading took; the body of a loop
  and the branches of an `if` declare nothing; and the names `this` and `super` stand for
  the receiver and the superclass alone.

  A tree that is made otherwise may lack all three, and then the distances of its
  references say nothing.
-/

import Lox.Proofs.Grammar.Reading

namespace Lox

/-! ## Slots -/

namespace Expr

mutual

/-- The slots of the references of an expression. -/
def slots : Expr → List Int
  | .literal _ => []
  | .group inner => inner.slots
  | .unary _ operand => operand.slots
  | .binary left _ right => left.slots ++ right.slots
  | .logical left _ right => left.slots ++ right.slots
  | .ternary cond yes no => cond.slots ++ (yes.slots ++ no.slots)
  | .ref target => [target.slot]
  | .assign target value => value.slots ++ [target.slot]
  | .call callee _ args => callee.slots ++ slotsAll args
  | .get object _ => object.slots
  | .set object _ value => object.slots ++ value.slots
  | .this keyword => [keyword.slot]
  | .super keyword _ => [keyword.slot]

def slotsAll : List Expr → List Int
  | [] => []
  | e :: rest => e.slots ++ slotsAll rest

end

def slotsOpt (e : Option Expr) : List Int := e.elim [] slots

end Expr

namespace Stmt

mutual

def slots : Stmt → List Int
  | .expr e => e.slots
  | .print_ e => e.slots
  | .var _ init => Expr.slotsOpt init
  | .block body => slotsAll body
  | .cond test yes no => test.slots ++ (yes.slots ++ slotsOpt no)
  | .loop test body step => test.slots ++ (body.slots ++ Expr.slotsOpt step)
  | .break_ _ => []
  | .continue_ _ => []
  | .fun_ routine => routineSlots routine
  | .return_ _ value => Expr.slotsOpt value
  | .class_ _ superclass methods => superclass.elim [] (fun r => [r.slot]) ++ methodSlots methods

def slotsAll : List Stmt → List Int
  | [] => []
  | s :: rest => s.slots ++ slotsAll rest

def slotsOpt : Option Stmt → List Int
  | none => []
  | some s => s.slots

def routineSlots : Routine → List Int
  | ⟨_, _, body⟩ => slotsAll body

def methodSlots : List Routine → List Int
  | [] => []
  | m :: rest => routineSlots m ++ methodSlots rest

end

end Stmt

/-! ## Names and branches -/

/-- Neither `this` nor `super`. -/
def Lexeme.IsPlain (name : Lexeme) : Prop := name.text ≠ thisName ∧ name.text ≠ superName

/-- Names that no program can declare. -/
def IsReserved (x : String) : Prop := x = thisName ∨ x = superName

theorem Lexeme.IsPlain.not_reserved {name : Lexeme} (h : name.IsPlain) : ¬ IsReserved name.text :=
  fun hr => hr.elim h.1 h.2

namespace Expr

mutual

/-- `this` and `super` are not used as the names of variables, nor others in their place. -/
def Tidy : Expr → Prop
  | .literal _ => True
  | .group inner => inner.Tidy
  | .unary _ operand => operand.Tidy
  | .binary left _ right => left.Tidy ∧ right.Tidy
  | .logical left _ right => left.Tidy ∧ right.Tidy
  | .ternary cond yes no => cond.Tidy ∧ yes.Tidy ∧ no.Tidy
  | .ref target => target.name.IsPlain
  | .assign target value => target.name.IsPlain ∧ value.Tidy
  | .call callee _ args => callee.Tidy ∧ TidyAll args
  | .get object _ => object.Tidy
  | .set object _ value => object.Tidy ∧ value.Tidy
  | .this keyword => keyword.name.text = thisName
  | .super keyword _ => keyword.name.text = superName

def TidyAll : List Expr → Prop
  | [] => True
  | e :: rest => e.Tidy ∧ TidyAll rest

end

def TidyOpt (e : Option Expr) : Prop := ∀ x ∈ e, x.Tidy

end Expr

namespace Stmt

/-- The name that a statement declares where it stands. -/
def declares? : Stmt → Option Lexeme
  | .var name _ => some name
  | .fun_ routine => some routine.name
  | .class_ name _ _ => some name
  | _ => none

mutual

/-- Only plain names are declared, and no branch or body of a loop is a declaration. -/
def Tidy : Stmt → Prop
  | .expr e => e.Tidy
  | .print_ e => e.Tidy
  | .var name init => name.IsPlain ∧ Expr.TidyOpt init
  | .block body => TidyAll body
  | .cond test yes no => test.Tidy ∧ (yes.Tidy ∧ yes.declares? = none) ∧ TidyOpt no
  | .loop test body step => test.Tidy ∧ (body.Tidy ∧ body.declares? = none) ∧ Expr.TidyOpt step
  | .break_ _ => True
  | .continue_ _ => True
  | .fun_ routine => routine.name.IsPlain ∧ RoutineTidy routine
  | .return_ _ value => Expr.TidyOpt value
  | .class_ name superclass methods => name.IsPlain ∧ (∀ r ∈ superclass, r.name.IsPlain) ∧ MethodsTidy methods

def TidyAll : List Stmt → Prop
  | [] => True
  | s :: rest => s.Tidy ∧ TidyAll rest

def TidyOpt : Option Stmt → Prop
  | none => True
  | some s => s.Tidy ∧ s.declares? = none

def RoutineTidy : Routine → Prop
  | ⟨_, params, body⟩ => (∀ p ∈ params, p.IsPlain) ∧ TidyAll body

def MethodsTidy : List Routine → Prop
  | [] => True
  | m :: rest => RoutineTidy m ∧ MethodsTidy rest

end

end Stmt

/-! ## Ranges of slots -/

/-- Different slots, all in a range. -/
def Ranged (k k' : Int) (xs : List Int) : Prop := k ≤ k' ∧ xs.Nodup ∧ ∀ x ∈ xs, k ≤ x ∧ x < k'

variable {k k₁ k' : Int} {xs ys : List Int}

theorem ranged_nil (h : k ≤ k') : Ranged k k' [] := ⟨h, List.nodup_nil, by simp⟩

theorem ranged_single : Ranged k (k + 1) [k] := by
  refine ⟨by omega, by simp, fun x hx => ?_⟩
  rw [List.mem_singleton.mp hx]
  omega

/-- Slots that follow one another. -/
theorem Ranged.append (h : Ranged k k₁ xs) (h' : Ranged k₁ k' ys) : Ranged k k' (xs ++ ys) := by
  obtain ⟨hk, hn, hx⟩ := h
  obtain ⟨hk', hn', hy⟩ := h'
  refine ⟨by omega, List.nodup_append.mpr ⟨hn, hn', fun a ha b hb => ?_⟩, fun x hm => ?_⟩
  · have := hx a ha
    have := hy b hb
    omega
  · rcases List.mem_append.mp hm with hm | hm
    · have := hx x hm
      omega
    · have := hy x hm
      omega

theorem Ranged.perm (h : Ranged k k' xs) (hp : xs.Perm ys) : Ranged k k' ys :=
  ⟨h.1, hp.nodup_iff.mp h.2.1, fun x hm => h.2.2 x (hp.mem_iff.mpr hm)⟩

theorem Ranged.mono (h : Ranged k k₁ xs) (hk : k₁ ≤ k') : Ranged k k' xs := by
  refine ⟨by have := h.1; omega, h.2.1, fun x hm => ?_⟩
  have := h.2.2 x hm
  omega

/-! ## Trees that have been read -/

namespace Grammar

def Phrase.slots : Phrase → List Int
  | .level _ e => e.slots
  | .primary e => e.slots
  | .arguments es => Expr.slotsAll es

theorem slots_join (l : Level) (left : Expr) (op : Lexeme) (right : Expr) :
    (l.join left op right).slots = left.slots ++ right.slots := by
  cases l <;> rfl

/-- The slots of an expression are new and in order. -/
theorem readsExpr_ranged {p : Phrase} {ts : List Token} (h : ReadsExpr p k ts k') : Ranged k k' p.slots := by
  induction h with
  | true_ | false_ | nil | number | string => exact ranged_nil (Int.le_refl _)
  | ref | this | super => exact ranged_single
  | group _ _ _ ih | atom _ ih | get _ _ _ ih | unary _ _ ih | operand _ _ ih => exact ih
  | callEmpty _ _ _ ih => exact ih.append (ranged_nil (Int.le_refl _))
  | call _ _ _ _ _ ih ih' | set _ _ _ _ _ ih ih' => exact ih.append ih'
  | more _ _ _ ih ih' => exact ih.append ih'
  | chain _ _ _ _ ih ih' =>
    rw [Phrase.slots, slots_join]
    exact ih.append ih'
  | ternary _ _ _ _ _ ih₁ ih₂ ih₃ => exact ih₁.append (ih₂.append ih₃)
  | @assign k k' _ _ _ _ _ _ _ _ ih =>
    have hskip : Ranged k (k + 1) [] := ranged_nil (by omega)
    exact hskip.append (ih.append ranged_single)
  | last _ ih => exact ih.append (ranged_nil (Int.le_refl _))

theorem ranged_opt {e : Option Expr} {ts : List Token} (h : ReadsOpt e k ts k') : Ranged k k' (Expr.slotsOpt e) := by
  cases e with
  | none =>
    obtain ⟨-, rfl⟩ := h
    exact ranged_nil (Int.le_refl _)
  | some e => exact readsExpr_ranged h

theorem ranged_var {x : Stmt} {ts : List Token} (h : ReadsVar x k ts k') : Ranged k k' x.slots := by
  cases h with
  | intro _ hi _ =>
    cases hi with
    | none => exact ranged_nil (Int.le_refl _)
    | some _ he => exact readsExpr_ranged he

theorem ranged_effect {x : Stmt} {ts : List Token} (h : ReadsEffect x k ts k') : Ranged k k' x.slots := by
  cases h with
  | intro he _ => exact readsExpr_ranged he

theorem ranged_clause {x : Option Stmt} {ts : List Token} (h : ReadsClause x k ts k') :
    Ranged k k' (Stmt.slotsOpt x) := by
  cases h with
  | none => exact ranged_nil (Int.le_refl _)
  | var _ hv => exact ranged_var hv
  | effect he => exact ranged_effect he

theorem ranged_parent {parent : Option Reference} {ts : List Token} (h : ReadsParent parent k ts k') :
    Ranged k k' (parent.elim [] fun r => [r.slot]) := by
  cases h with
  | none => exact ranged_nil (Int.le_refl _)
  | some => exact ranged_single

/-- A `for` loop in its written order. -/
theorem slots_forLoop (init : Option Stmt) (test step : Option Expr) (body : Stmt) :
    (Stmt.slotsOpt init ++ (Expr.slotsOpt test ++ (Expr.slotsOpt step ++ body.slots))).Perm
      (forLoop init test step body).slots := by
  have hloop : (Expr.slotsOpt test ++ (Expr.slotsOpt step ++ body.slots)).Perm
      (Stmt.loop (test.getD (.literal (.bool true))) body step).slots := by
    have htest : Expr.slotsOpt test = (test.getD (.literal (.bool true))).slots := by cases test <;> rfl
    rw [Stmt.slots, htest]
    exact List.Perm.append_left _ List.perm_append_comm
  cases init with
  | none => exact hloop
  | some first =>
    simp only [forLoop, Stmt.slots, Stmt.slotsAll, Stmt.slotsOpt, List.append_nil]
    exact List.Perm.append_left _ hloop

def Clause.slots : Clause → List Int
  | .statement _ _ s => s.slots
  | .declaration _ s => s.slots
  | .declarations _ ss => Stmt.slotsAll ss
  | .routine r => Stmt.routineSlots r
  | .routines rs => Stmt.methodSlots rs

/-- The slots of a statement are new and in order. -/
theorem readsStmt_ranged {c : Clause} {ts : List Token} (h : ReadsStmt c k ts k') : Ranged k k' c.slots := by
  induction h with
  | effect h => exact ranged_effect h
  | print _ he _ => exact readsExpr_ranged he
  | block _ _ _ ih | statement _ ih | fun_ _ _ ih | routine _ _ _ _ _ _ _ ih => exact ih
  | if_ _ _ ht _ _ ih => exact (readsExpr_ranged ht).append (ih.append (ranged_nil (Int.le_refl _)))
  | ifElse _ _ ht _ _ _ _ ih ih' => exact (readsExpr_ranged ht).append (ih.append ih')
  | while_ _ _ ht _ _ ih => exact (readsExpr_ranged ht).append (ih.append (ranged_nil (Int.le_refl _)))
  | for_ _ _ hi ht _ hp _ _ ih =>
    have hclauses := (ranged_clause hi).append ((ranged_opt ht).append ((ranged_opt hp).append ih))
    exact hclauses.perm (slots_forLoop ..)
  | return_ _ hv _ => exact ranged_opt hv
  | break_ | continue_ | nil | noRoutine => exact ranged_nil (Int.le_refl _)
  | var _ hv => exact ranged_var hv
  | class_ _ _ hp _ _ _ ih => exact (ranged_parent hp).append ih
  | cons _ _ ih ih' | moreRoutines _ _ ih ih' => exact ih.append ih'

/-! ### Names -/

/-- No identifier is spelled as `this` or `super`. -/
def Named (ts : List Token) : Prop := ∀ t ∈ ts, ∀ name, t.terminal = .ident name → name ≠ thisName ∧ name ≠ superName

variable {ts us : List Token} {t : Token}

@[simp] theorem named_nil : Named [] := by simp [Named]

@[simp] theorem named_cons : Named (t :: ts) ↔
    (∀ name, t.terminal = .ident name → name ≠ thisName ∧ name ≠ superName) ∧ Named ts := by
  simp [Named]

@[simp] theorem named_append : Named (ts ++ us) ↔ Named ts ∧ Named us := by
  constructor
  · intro h
    exact ⟨fun t ht => h t (List.mem_append_left _ ht), fun t ht => h t (List.mem_append_right _ ht)⟩
  · intro h t ht
    exact (List.mem_append.mp ht).elim (h.1 t) (h.2 t)

def Phrase.Tidy : Phrase → Prop
  | .level _ e => e.Tidy
  | .primary e => e.Tidy
  | .arguments es => Expr.TidyAll es

theorem tidy_join (l : Level) (left : Expr) (op : Lexeme) (right : Expr) :
    (l.join left op right).Tidy ↔ left.Tidy ∧ right.Tidy := by
  cases l <;> simp only [Level.join, Expr.Tidy]

/-- What is read as an expression is tidy, with names of the language. -/
theorem readsExpr_tidy {p : Phrase} (h : ReadsExpr p k ts k') (hn : Named ts) : p.Tidy := by
  induction h with
  | true_ | false_ | nil | number | string => trivial
  | ref ht => exact (named_cons.mp hn).1 _ ht
  | this | super => rfl
  | group _ _ _ ih =>
    simp only [named_append, named_cons] at hn
    exact ih hn.1.2
  | atom _ ih | operand _ _ ih => exact ih hn
  | get _ _ _ ih => exact ih (named_append.mp hn).1
  | callEmpty _ _ _ ih => exact ⟨ih (named_append.mp hn).1, trivial⟩
  | call _ _ _ _ _ ih ih' =>
    simp only [named_append, named_cons] at hn
    exact ⟨ih hn.1.1, ih' hn.1.2.2⟩
  | unary _ _ ih => exact ih (named_cons.mp hn).2
  | chain _ _ _ _ ih ih' =>
    simp only [named_append, named_cons] at hn
    exact (tidy_join ..).mpr ⟨ih hn.1, ih' hn.2.2⟩
  | ternary _ _ _ _ _ ih₁ ih₂ ih₃ =>
    simp only [named_append, named_cons] at hn
    exact ⟨ih₁ hn.1.1, ih₂ hn.1.2.2, ih₃ hn.2.2⟩
  | assign ht _ _ ih =>
    simp only [named_cons] at hn
    exact ⟨hn.1 _ ht, ih hn.2.2⟩
  | set _ _ _ _ _ ih ih' =>
    simp only [named_append, named_cons] at hn
    exact ⟨ih hn.1, ih' hn.2.2.2.2⟩
  | last _ ih => exact ⟨ih hn, trivial⟩
  | more _ _ _ ih ih' =>
    simp only [named_append, named_cons] at hn
    exact ⟨ih hn.1, ih' hn.2.2⟩

theorem tidy_names {names : List Lexeme} (h : ReadsNames names ts) (hn : Named ts) : ∀ p ∈ names, p.IsPlain := by
  induction h with
  | last ht => simpa [Lexeme.IsPlain] using (named_cons.mp hn).1 _ ht
  | more ht _ _ ih =>
    simp only [named_cons] at hn
    intro p hp
    rcases List.mem_cons.mp hp with rfl | hp
    · exact hn.1 _ ht
    · exact ih hn.2.2 p hp

theorem tidy_params {names : List Lexeme} (h : ReadsParams names ts) (hn : Named ts) : ∀ p ∈ names, p.IsPlain := by
  rcases h with ⟨rfl, -⟩ | ⟨h, -⟩
  · simp
  · exact tidy_names h hn

theorem tidy_opt {e : Option Expr} (h : ReadsOpt e k ts k') (hn : Named ts) : Expr.TidyOpt e := by
  cases e with
  | none => intro x hx; cases hx
  | some e => intro x hx; cases hx; exact readsExpr_tidy h hn

theorem tidy_var {x : Stmt} (h : ReadsVar x k ts k') (hn : Named ts) : x.Tidy := by
  cases h with
  | intro ht hi _ =>
    simp only [List.cons_append, named_append, named_cons] at hn
    refine ⟨hn.1 _ ht, ?_⟩
    cases hi with
    | none => intro x hx; cases hx
    | some _ he => intro x hx; cases hx; exact readsExpr_tidy he (named_cons.mp hn.2.1).2

theorem tidy_effect {x : Stmt} (h : ReadsEffect x k ts k') (hn : Named ts) : x.Tidy := by
  cases h with
  | intro he _ => exact readsExpr_tidy he (named_append.mp hn).1

theorem tidy_clause {x : Option Stmt} (h : ReadsClause x k ts k') (hn : Named ts) : ∀ s ∈ x, s.Tidy := by
  cases h with
  | none => simp
  | var _ hv => simpa using tidy_var hv (named_cons.mp hn).2
  | effect he => simpa using tidy_effect he hn

theorem tidy_parent {parent : Option Reference} (h : ReadsParent parent k ts k') (hn : Named ts) :
    ∀ r ∈ parent, r.name.IsPlain := by
  cases h with
  | none => simp
  | some _ ht =>
    simp only [named_cons] at hn
    simpa [Lexeme.IsPlain] using hn.2.1 _ ht

theorem tidy_forLoop {init : Option Stmt} {test step : Option Expr} {body : Stmt} (hi : ∀ s ∈ init, s.Tidy)
    (ht : Expr.TidyOpt test) (hs : Expr.TidyOpt step) (hb : body.Tidy) (hd : body.declares? = none) :
    (forLoop init test step body).Tidy := by
  have hloop : (Stmt.loop (test.getD (.literal (.bool true))) body step).Tidy := by
    refine ⟨?_, ⟨hb, hd⟩, hs⟩
    cases test with
    | none => trivial
    | some e => exact ht e rfl
  cases init with
  | none => exact hloop
  | some first => exact ⟨hi first rfl, hloop, trivial⟩

theorem declares_forLoop (init : Option Stmt) (test step : Option Expr) (body : Stmt) :
    (forLoop init test step body).declares? = none := by
  cases init <;> rfl

def Clause.Tidy : Clause → Prop
  | .statement _ _ s => s.Tidy ∧ s.declares? = none
  | .declaration _ s => s.Tidy
  | .declarations _ ss => Stmt.TidyAll ss
  | .routine r => Stmt.RoutineTidy r ∧ r.name.IsPlain
  | .routines rs => Stmt.MethodsTidy rs

/-- What is read as a statement is tidy, with names of the language. -/
theorem readsStmt_tidy {c : Clause} (h : ReadsStmt c k ts k') (hn : Named ts) : c.Tidy := by
  induction h with
  | effect h => exact ⟨tidy_effect h hn, by cases h; rfl⟩
  | print _ he _ =>
    simp only [List.cons_append, named_append, named_cons] at hn
    exact ⟨readsExpr_tidy he hn.2.1, rfl⟩
  | block _ _ _ ih =>
    simp only [List.cons_append, named_append, named_cons] at hn
    exact ⟨ih hn.2.1, rfl⟩
  | if_ _ _ ht _ _ ih =>
    simp only [List.cons_append, named_append, named_cons] at hn
    exact ⟨⟨readsExpr_tidy ht hn.2.2.1, ih hn.2.2.2.2, trivial⟩, rfl⟩
  | ifElse _ _ ht _ _ _ _ ih ih' =>
    simp only [List.cons_append, named_append, named_cons] at hn
    exact ⟨⟨readsExpr_tidy ht hn.2.2.1.1, ih hn.2.2.1.2.2, ih' hn.2.2.2.2⟩, rfl⟩
  | while_ _ _ ht _ _ ih =>
    simp only [List.cons_append, named_append, named_cons] at hn
    exact ⟨⟨readsExpr_tidy ht hn.2.2.1, ih hn.2.2.2.2, fun _ h => nomatch h⟩, rfl⟩
  | for_ _ _ hi ht _ hp _ _ ih =>
    simp only [List.cons_append, named_append, named_cons] at hn
    obtain ⟨-, -, ⟨⟨hn₁, hn₂⟩, -, hn₃⟩, -, hn₄⟩ := hn
    have hbody := ih hn₄
    exact ⟨tidy_forLoop (tidy_clause hi hn₁) (tidy_opt ht hn₂) (tidy_opt hp hn₃) hbody.1 hbody.2, declares_forLoop ..⟩
  | return_ _ hv _ =>
    simp only [List.cons_append, named_append, named_cons] at hn
    exact ⟨tidy_opt hv hn.2.1, rfl⟩
  | break_ | continue_ => exact ⟨trivial, rfl⟩
  | statement _ ih => exact (ih hn).1
  | var _ hv => exact tidy_var hv (named_cons.mp hn).2
  | fun_ _ _ ih =>
    have := ih (named_cons.mp hn).2
    exact ⟨this.2, this.1⟩
  | class_ _ ht hp _ _ _ ih =>
    simp only [List.cons_append, named_append, named_cons] at hn
    obtain ⟨-, hname, ⟨hn₁, -, hn₂⟩, -⟩ := hn
    exact ⟨hname _ ht, tidy_parent hp hn₁, ih hn₂⟩
  | nil | noRoutine => trivial
  | cons _ _ ih ih' =>
    obtain ⟨hn, hn'⟩ := named_append.mp hn
    exact ⟨ih hn, ih' hn'⟩
  | moreRoutines _ _ ih ih' =>
    obtain ⟨hn, hn'⟩ := named_append.mp hn
    exact ⟨(ih hn).1, ih' hn'⟩
  | routine ht _ hp _ _ _ _ ih =>
    simp only [List.cons_append, named_append, named_cons] at hn
    obtain ⟨hname, -, ⟨hn₁, -, -, hn₂⟩, -⟩ := hn
    exact ⟨⟨tidy_params hp hn₁, ih hn₂⟩, hname _ ht⟩

end Grammar

end Lox
