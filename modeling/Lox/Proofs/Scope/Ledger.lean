/-
  Lox.Proofs.Scope.Ledger — the scopes of the resolver as far as errors in declarations
  depend on them: for each name whether its declaration is still pending, and which
  declaration is due to be reported (`Account`, `ledgers`).

  Reading names settles each in the innermost scope that has it (`marks`), a declaration
  adds an account to the innermost scope (`announced`, `completed`), and closing a scope reports
  what is due in it (`dues`). `noted` is what has been reported so far, in no order.
-/

import Lox.Proofs.Scope.Binding
import Mathlib.Algebra.Order.Group.Multiset

namespace Lox

/-! ## Ledgers -/

/-- What is known of a name of a scope: whether its declaration is complete, and what is due if
nothing reads it. -/
structure Account where
  name : String
  pending : Bool
  /-- The declaration to report when the scope is closed. -/
  due : Option Lexeme

abbrev Ledger := List Account

namespace Ledger

def names (l : Ledger) : List String := l.map (·.name)

/-- Some names are read. -/
def settle (xs : List String) (l : Ledger) : Ledger :=
  l.map fun e => { e with due := if e.name ∈ xs then none else e.due }

def dues (l : Ledger) : List Diagnostic := l.filterMap fun e => e.due.map (·.faulty (.unused e.name))

variable {l l' : Ledger} {xs ys : List String} {x : String}

@[simp] theorem names_append : names (l ++ l') = names l ++ names l' := List.map_append

@[simp] theorem names_settle (xs : List String) (l : Ledger) : names (settle xs l) = names l := by
  simp [names, settle]

theorem settle_append (xs : List String) (l l' : Ledger) : settle xs (l ++ l') = settle xs l ++ settle xs l' :=
  List.map_append

theorem settle_nil (l : Ledger) : settle [] l = l := by simp [settle]

theorem settle_settle (xs ys : List String) (l : Ledger) : settle ys (settle xs l) = settle (xs ++ ys) l := by
  simp only [settle, List.map_map]
  refine List.map_congr_left fun e _ => ?_
  by_cases hx : e.name ∈ xs <;> by_cases hy : e.name ∈ ys <;> simp [hx, hy]

/-- Names of other scopes do not matter. -/
theorem settle_congr (h : ∀ e ∈ l, e.due ≠ none → (e.name ∈ xs ↔ e.name ∈ ys)) : settle xs l = settle ys l := by
  refine List.map_congr_left fun e he => ?_
  cases hd : e.due with
  | none => simp
  | some d => simp [h e he (by simp [hd])]

theorem dues_cons (e : Account) (l : Ledger) :
    dues (e :: l) = (e.due.map (·.faulty (.unused e.name))).toList ++ dues l := by
  cases h : e.due <;> simp [dues, h]

theorem dues_append (l l' : Ledger) : dues (l ++ l') = dues l ++ dues l' := List.filterMap_append ..

end Ledger

open Ledger

/-- Some names are read: each is settled in the innermost scope that has it. -/
def marks (xs : List String) : List Ledger → List Ledger
  | [] => []
  | l :: rest => settle xs l :: marks (xs.filter (· ∉ names l)) rest

/-- The declaration of a name begins in the innermost scope, unless it has one before. -/
def announced (name : Lexeme) (watched : Bool) : List Ledger → List Ledger
  | [] => []
  | l :: rest =>
    if name.text ∈ names l then l :: rest
    else (l ++ [⟨name.text, true, if watched then some name else none⟩]) :: rest

def completed (x : String) : List Ledger → List Ledger
  | [] => []
  | l :: rest => l.map (fun e => { e with pending := if e.name = x then false else e.pending }) :: rest

variable {ls : List Ledger} {xs ys : List String} {x : String}

theorem marks_nil (ls : List Ledger) : marks [] ls = ls := by
  induction ls with
  | nil => rfl
  | cons l rest ih => rw [marks, settle_nil, List.filter_nil, ih]

theorem marks_marks (xs ys : List String) (ls : List Ledger) : marks ys (marks xs ls) = marks (xs ++ ys) ls := by
  induction ls generalizing xs ys with
  | nil => rfl
  | cons l rest ih => simp only [marks, settle_settle, names_settle, ih, List.filter_append]

/-- A name that is due nowhere. -/
theorem marks_without (h : ∀ l ∈ ls, ∀ e ∈ l, e.name = x → e.due = none) (xs : List String) :
    marks (xs.filter (· ≠ x)) ls = marks xs ls := by
  induction ls generalizing xs with
  | nil => rfl
  | cons l rest ih =>
    have hsettle : settle (xs.filter (· ≠ x)) l = settle xs l := by
      refine settle_congr fun e he hd => ?_
      have hne : e.name ≠ x := fun hx => hd (h l (List.mem_cons_self ..) e he hx)
      simp [hne]
    have hrest := ih (fun l' hl' => h l' (List.mem_cons_of_mem _ hl')) (xs.filter (· ∉ names l))
    rw [marks, marks, hsettle, ← hrest, List.filter_filter, List.filter_filter]
    congr 2
    refine List.filter_congr fun y _ => ?_
    exact Bool.and_comm ..

/-! ## Scopes -/

def Local.account (x : String) (l : Local) : Account := ⟨x, !l.defined, if l.used then none else l.watched⟩

def ledger (s : Scope) : Ledger := s.entries.map fun entry => entry.2.account entry.1

def ledgers (scopes : List Scope) : List Ledger := scopes.map ledger

theorem names_ledger (s : Scope) : names (ledger s) = s.keys := by
  simp [names, ledger, Bindings.keys, Local.account, Function.comp_def]

theorem mem_names_ledger {s : Scope} : x ∈ names (ledger s) ↔ s.contains x = true := by
  rw [names_ledger, contains_iff]

theorem ledger_touched (s : Scope) (x : String) :
    ledger (s.adjust x ({ · with used := true })) = settle [x] (ledger s) := by
  simp only [ledger, settle, Bindings.adjust, List.map_map]
  refine List.map_congr_left fun entry _ => ?_
  by_cases h : entry.1 = x <;> simp [Local.account, h]

/-- To touch a name is to mark its nearest account. -/
theorem ledgers_touch (x : String) (scopes : List Scope) : ledgers (touch x scopes) = marks [x] (ledgers scopes) := by
  induction scopes with
  | nil => rfl
  | cons s rest ih =>
    unfold touch
    by_cases h : s.contains x = true
    · have hx := mem_names_ledger.mpr h
      rw [if_pos h]
      simp [ledgers, marks, ledger_touched, hx, marks_nil]
    · have hx : x ∉ names (ledger s) := fun hm => h (mem_names_ledger.mp hm)
      rw [if_neg h]
      have hsettle : settle [x] (ledger s) = settle [] (ledger s) := by
        refine settle_congr fun e he _ => ?_
        have hne : e.name ≠ x := fun hn => hx (hn ▸ List.mem_map_of_mem he)
        simp [hne]
      simp only [ledgers, List.map_cons, marks, hsettle, settle_nil] at ih ⊢
      rw [ih]
      simp [hx]

/-! ## Pending declarations -/

/-- In the innermost scope the name is declared and not yet defined. -/
def pendingIn (x : String) : List Ledger → Bool
  | [] => false
  | l :: _ => (l.find? (·.name = x)).any (·.pending)

theorem pendingIn_marks (x : String) (xs : List String) (ls : List Ledger) :
    pendingIn x (marks xs ls) = pendingIn x ls := by
  cases ls with
  | nil => rfl
  | cons l rest =>
    show ((settle xs l).find? _).any _ = _
    rw [settle, List.find?_map, Option.any_map]
    rfl

theorem find?_ledger (x : String) (entries : List (String × Local)) :
    (entries.map fun entry => entry.2.account entry.1).find? (·.name = x) =
      (Bindings.find x entries).map (·.account x) := by
  induction entries with
  | nil => rfl
  | cons entry rest ih =>
    obtain ⟨y, l⟩ := entry
    by_cases h : y = x
    · simp [Bindings.find, Local.account, h]
    · have hname : (l.account y).name ≠ x := h
      simp [Bindings.find, h, hname, ih]

namespace Resolver

variable {r r₁ r' : Resolver} {found found' : List Diagnostic}

/-- A name is pending as its account in the innermost scope is. -/
theorem isPending_eq (r : Resolver) (x : String) : r.isPending x = pendingIn x (ledgers r.scopes) := by
  unfold isPending
  cases r.scopes with
  | nil => rfl
  | cons s rest =>
    have hfind : (ledger s).find? (·.name = x) = (s.get? x).map (·.account x) := find?_ledger x s.entries
    show _ = ((ledger s).find? _).any _
    rw [hfind]
    dsimp only
    cases s.get? x <;> rfl

/-! ## What has been reported -/

def noted (r : Resolver) : Multiset Diagnostic := r.errorsOf BindingFault.isDeclarational

theorem noted_report (r : Resolver) (name : Lexeme) (fault : BindingFault) :
    (r.report name fault).noted = r.noted + ↑(if fault.isDeclarational then [name.faulty fault] else []) := by
  rw [noted, errorsOf_report]
  rfl

/-- A part of a program reads some names beyond it, and some errors are found in it. -/
structure Heard (xs : List String) (found : List Diagnostic) (r r' : Resolver) : Prop where
  ledgers : ledgers r'.scopes = marks xs (ledgers r.scopes)
  noted : r'.noted = r.noted + (found : Multiset Diagnostic)

namespace Heard

theorem trans (h : Heard xs found r r₁) (h' : Heard ys found' r₁ r') : Heard (xs ++ ys) (found ++ found') r r' := by
  refine ⟨?_, ?_⟩
  · rw [h'.ledgers, h.ledgers, marks_marks]
  · rw [h'.noted, h.noted, add_assoc, Multiset.coe_add]

/-- Neither a scope nor an error of the kind. -/
theorem silent (hs : r'.scopes = r.scopes) (he : r'.noted = r.noted) : Heard [] [] r r' :=
  ⟨by rw [hs, marks_nil], he.trans (add_zero _).symm⟩

theorem refl (r : Resolver) : Heard [] [] r r := .silent rfl rfl

theorem after (h : Heard [] [] r r₁) (h' : Heard xs found r₁ r') : Heard xs found r r' := h.trans h'

theorem before (h : Heard xs found r r₁) (h' : Heard [] [] r₁ r') : Heard xs found r r' := by
  have hboth := h.trans h'
  rwa [List.append_nil, List.append_nil] at hboth

end Heard

theorem heard_report (r : Resolver) (name : Lexeme) {fault : BindingFault} (h : fault.isDeclarational = false) :
    Heard [] [] r (r.report name fault) := by
  refine .silent rfl ?_
  rw [noted_report, h]
  exact add_zero _

theorem heard_write (r : Resolver) (target : Reference) : Heard [] [] r (r.write target) := by
  unfold write
  split
  · exact .silent rfl rfl
  · exact .refl r

theorem touch_of_hops {scopes : List Scope} (h : hops? x scopes = none) : touch x scopes = scopes := by
  induction scopes with
  | nil => rfl
  | cons s rest ih =>
    unfold hops? at h
    unfold touch
    split at h
    · cases h
    next hs => rw [if_neg hs, ih (Option.map_eq_none_iff.mp h)]

theorem heard_read (r : Resolver) (target : Reference) : Heard [target.name.text] [] r (r.read target) := by
  unfold read
  split
  next d _ => exact ⟨ledgers_touch .., (add_zero _).symm⟩
  next hnone =>
    refine ⟨?_, (add_zero _).symm⟩
    rw [← ledgers_touch, touch_of_hops hnone]

/-! ## Declaring -/

theorem ledger_set {s : Scope} (h : x ∉ s.keys) (l : Local) : ledger (s.set x l) = ledger s ++ [l.account x] := by
  have hfind : Bindings.find x s.entries = none := (s.get?_eq_none_iff x).mpr h
  simp [ledger, Bindings.set, put_of_find hfind]

/-- A name that the innermost scope has already. -/
def redeclared (name : Lexeme) : List Ledger → List Diagnostic
  | [] => []
  | l :: _ => ([name].filter (·.text ∈ names l)).map (·.faulty .duplicate)

/-- A declaration opens an account, or reports that there is one. -/
theorem declare_ledger (r : Resolver) (name : Lexeme) (watched : Bool) :
    ledgers (r.declare name watched).scopes = announced name watched (ledgers r.scopes) ∧
      (r.declare name watched).noted = r.noted + ↑(redeclared name (ledgers r.scopes)) := by
  unfold declare
  split
  next hr =>
    rw [hr]
    exact ⟨rfl, (add_zero _).symm⟩
  next s rest hr =>
    rw [hr]
    show _ = (if name.text ∈ names (ledger s) then _ else _) ∧ _
    by_cases hc : s.contains name.text = true
    · have hx := mem_names_ledger.mpr hc
      rw [if_pos hc, if_pos hx]
      refine ⟨by rw [report, hr]; rfl, ?_⟩
      rw [noted_report]
      simp [redeclared, ledgers, hx, BindingFault.isDeclarational]
    · have hx : name.text ∉ names (ledger s) := fun hm => hc (mem_names_ledger.mp hm)
      rw [if_neg hc, if_neg hx]
      refine ⟨?_, ?_⟩
      · simp only [ledgers, List.map_cons]
        rw [ledger_set (fun hm => hc (contains_iff.mpr hm))]
        rfl
      · simp [redeclared, ledgers, hx]
        rfl

/-- A definition completes the account. -/
theorem define_ledger (r : Resolver) (name : Lexeme) :
    ledgers (r.define name).scopes = completed name.text (ledgers r.scopes) ∧ (r.define name).noted = r.noted := by
  unfold define
  split
  next hr => exact ⟨by rw [hr]; rfl, rfl⟩
  next s rest hr =>
    refine ⟨?_, rfl⟩
    rw [hr]
    simp only [ledgers, List.map_cons, completed, ledger, Bindings.adjust, List.map_map]
    congr 1
    refine List.map_congr_left fun entry _ => ?_
    by_cases h : entry.1 = name.text <;> simp [Local.account, h]

/-! ## Closing a scope -/

theorem noted_reportUnused (r : Resolver) (x : String) (l : Local) :
    (r.reportUnused (x, l)).scopes = r.scopes ∧
      (r.reportUnused (x, l)).noted = r.noted + ↑((l.account x).due.map (·.faulty (.unused x))).toList := by
  obtain ⟨watched, defined, used⟩ := l
  cases watched with
  | none => cases used <;> exact ⟨rfl, (add_zero _).symm⟩
  | some declaration =>
    cases used with
    | true => exact ⟨rfl, (add_zero _).symm⟩
    | false => exact ⟨rfl, noted_report r declaration (.unused x)⟩

/-- At the end of a scope the accounts that are due are reported. -/
theorem noted_reportAll (entries : List (String × Local)) (r : Resolver) :
    (entries.foldl reportUnused r).scopes = r.scopes ∧
      (entries.foldl reportUnused r).noted = r.noted + ↑(dues (entries.map fun entry => entry.2.account entry.1)) := by
  induction entries generalizing r with
  | nil => exact ⟨rfl, (add_zero _).symm⟩
  | cons entry rest ih =>
    obtain ⟨hscopes, hnoted⟩ := noted_reportUnused r entry.1 entry.2
    obtain ⟨hleft, hmore⟩ := ih (r.reportUnused entry)
    refine ⟨hleft.trans hscopes, ?_⟩
    rw [List.foldl_cons, hmore, hnoted, add_assoc, Multiset.coe_add, List.map_cons, dues_cons]
    rfl

theorem leave_ledger {s : Scope} {rest : List Scope} (h : r.scopes = s :: rest) :
    r.leave.scopes = rest ∧ r.leave.noted = r.noted + ↑(dues (ledger s)) := by
  have hall := noted_reportAll s.entries { r with scopes := rest }
  unfold leave
  rw [h]
  exact hall

end Resolver

end Lox
