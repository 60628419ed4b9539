/-
  Lox.Proofs.Grammar.Positions — reading by position: the tokens are a list that does not
  change, with the end of the text as its last element, and what is left of them is a
  position in it.

  `current` and `previous` ask for an element of the list by its index, and asking for one
  outside of it is a failure of its own, which no rule catches. `Realizes p q`: `q` is `p`
  with every step made by position. For every rule there is such a `q`
  (`Built.realized`), and from any position in the list it does what the rule does with the
  tokens from there on; so it never asks for an element outside, and it ends at a position
  in the list again, not before the first (`Realizes.agrees`).
-/

import Lox.Proofs.Grammar.Built

namespace Lox

/-- The tokens, and the end of the text as one more element behind them. -/
def Tokens.listed (tokens : Tokens) : List (Option Token) := tokens.items.map some ++ [none]

theorem Tokens.listed_get {tokens : Tokens} {i : Nat} (hi : i ≤ tokens.items.length) :
    tokens.listed[i]? = some tokens.items[i]? := by
  unfold listed
  rcases Nat.eq_or_lt_of_le hi with rfl | hlt
  · simp
  · rw [List.getElem?_append_left (by rwa [List.length_map]), List.getElem?_map, List.getElem?_eq_getElem hlt]
    rfl

namespace Grammar

/-- A reader of a list by position. -/
structure Cursor where
  position : Nat
  nextSlot : Int
  loops : Nat
  errors : Array Diagnostic

/-- Why reading by position stops before its end: it is halted as reading is, or an element
outside of the list is asked for. -/
inductive Stop where
  | halt (h : Halt)
  | outside

abbrev Pointing := EStateM Stop Cursor

def Cursor.start (firstSlot : Int) : Cursor where
  position := 0
  nextSlot := firstSlot
  loops := 0
  errors := #[]

def Cursor.report (c : Cursor) (error : Diagnostic) : Cursor := { c with errors := c.errors.push error }

/-- What is left to be read from a position on. -/
def Cursor.state (tokens : Tokens) (c : Cursor) : State where
  rest := tokens.items.drop c.position
  endLine := tokens.endLine
  nextSlot := c.nextSlot
  loops := c.loops
  errors := c.errors

/-! ## Steps by position -/

namespace Pointing

variable (tokens : Tokens)

/-- The token at the position, which has to be in the list. -/
def current : Pointing (Option Token) := fun c =>
  match tokens.listed[c.position]? with
  | some t => .ok t c
  | none => .error .outside c

/-- The token before the position, which has to be in the list. -/
def previous : Pointing (Option Token) := fun c =>
  if c.position = 0 then .error .outside c
  else
    match tokens.listed[c.position - 1]? with
    | some t => .ok t c
    | none => .error .outside c

/-- Moves on, except at the end, and gives the element that was current. -/
def advance : Pointing (Option Token) := do
  let t ← current tokens
  if t.isSome then modify fun c => { c with position := c.position + 1 }
  return t

def isAt (terminal : Terminal) : Pointing Bool := do
  match ← current tokens with
  | some t => return t.terminal = terminal
  | none => return false

/-- Moves on if the current token is one of the terminals, which are tried in turn. -/
def moveAny : List Terminal → Pointing Bool
  | [] => return false
  | terminal :: terminals => do
    if ← isAt tokens terminal then
      let _ ← advance tokens
      return true
    else moveAny terminals

def acceptAny (terminals : List Terminal) : Pointing (Option Token) := do
  if ← moveAny tokens terminals then previous tokens else return none

def faultAt (t : Option Token) (f : SyntaxFault) : Diagnostic :=
  match t with
  | some t => fault t f
  | none => ⟨tokens.endLine, .atEnd, .grammar f⟩

def raise {α : Type} (f : SyntaxFault) : Pointing α := do
  throw (.halt (.raised (faultAt tokens (← current tokens) f)))

def note (error : Diagnostic) : Pointing Unit := modify fun c => c.report error

def report (f : SyntaxFault) : Pointing Unit := do
  note (faultAt tokens (← current tokens) f)

def checkLoop (t : Token) (f : SyntaxFault) : Pointing Unit := fun c =>
  if c.loops = 0 then note (fault t f) c else .ok () c

def expectName (role : NameRole) : Pointing Lexeme := do
  match ← current tokens with
  | some ⟨.ident name, line⟩ =>
    let _ ← advance tokens
    return ⟨name, line⟩
  | _ => raise tokens (.noName role)

def newSlot : Pointing Int := fun c => .ok c.nextSlot { c with nextSlot := c.nextSlot + 1 }

def withLoops {α : Type} (before : State → Nat) (after : State → State → Nat) (q : Pointing α) : Pointing α := fun c =>
  match q { c with loops := before (c.state tokens) } with
  | .ok a c' => .ok a { c' with loops := after (c.state tokens) (c'.state tokens) }
  | .error e c' => .error e { c' with loops := after (c.state tokens) (c'.state tokens) }

/-- Moves on to the first place from here at which reading may resume, in so many steps at most. -/
def seekPlace : Nat → Pointing Unit
  | 0 => throw (.halt .outOfFuel)
  | n + 1 => do
    match ← current tokens with
    | none => return ()
    | some next =>
      let before ← previous tokens
      if before.any (·.terminal = .symbol .semicolon) || next.terminal.startsStatement then return ()
      else
        let _ ← advance tokens
        seekPlace n

def synchronize : Pointing Unit := do
  let _ ← advance tokens
  seekPlace tokens tokens.listed.length

def recovering (q : Pointing Stmt) : Pointing (Option Stmt) := fun c =>
  match q c with
  | .ok stmt c' => .ok (some stmt) c'
  | .error (.halt (.raised error)) c' =>
    (do
      note error
      synchronize tokens
      return none : Pointing (Option Stmt)) c'
  | .error e c' => .error e c'

end Pointing

/-- The rule and its reading by position make the same steps. -/
inductive Realizes (tokens : Tokens) : {α : Type} → Parse α → Pointing α → Prop
  | pure {α : Type} (a : α) : Realizes tokens (pure a : Parse α) (pure a)
  | outOfFuel {α : Type} : Realizes tokens (throw .outOfFuel : Parse α) (throw (.halt .outOfFuel))
  | raise {α : Type} (f : SyntaxFault) : Realizes tokens (raise f : Parse α) (Pointing.raise tokens f)
  | report (f : SyntaxFault) : Realizes tokens (report f) (Pointing.report tokens f)
  | reportAt (t : Token) (f : SyntaxFault) : Realizes tokens (reportAt t f) (Pointing.note (fault t f))
  | checkLoop (t : Token) (f : SyntaxFault) : Realizes tokens (checkLoop t f) (Pointing.checkLoop t f)
  | peek : Realizes tokens peek (Pointing.current tokens)
  | skip : Realizes tokens skip (do let _ ← Pointing.advance tokens)
  | acceptAny (terminals : List Terminal) :
      Realizes tokens (acceptAny terminals) (Pointing.acceptAny tokens terminals)
  | expectName (role : NameRole) : Realizes tokens (expectName role) (Pointing.expectName tokens role)
  | newSlot : Realizes tokens newSlot Pointing.newSlot
  | bind {α β : Type} {p : Parse α} {q : Pointing α} {f : α → Parse β} {g : α → Pointing β} :
      Realizes tokens p q → (∀ a, Realizes tokens (f a) (g a)) → Realizes tokens (p >>= f) (q >>= g)
  | withLoops {α : Type} (before : State → Nat) (after : State → State → Nat) {p : Parse α} {q : Pointing α} :
      Realizes tokens p q → Realizes tokens (withLoops before after p) (Pointing.withLoops tokens before after q)
  | recovering {p : Parse Stmt} {q : Pointing Stmt} :
      Realizes tokens p q → Realizes tokens (recovering p) (Pointing.recovering tokens q)

variable {α β : Type} {tokens : Tokens} {c c' : Cursor}

/-- Every rule has a form that reads by position. -/
theorem Built.realized {p : Parse α} (h : Built p) : ∃ q, Realizes tokens p q := by
  induction h with
  | pure a => exact ⟨_, .pure a⟩
  | outOfFuel => exact ⟨_, .outOfFuel⟩
  | raise f => exact ⟨_, .raise f⟩
  | report f => exact ⟨_, .report f⟩
  | reportAt t f => exact ⟨_, .reportAt t f⟩
  | checkLoop t f => exact ⟨_, .checkLoop t f⟩
  | peek => exact ⟨_, .peek⟩
  | skip => exact ⟨_, .skip⟩
  | acceptAny terminals => exact ⟨_, .acceptAny terminals⟩
  | expectName role => exact ⟨_, .expectName role⟩
  | newSlot => exact ⟨_, .newSlot⟩
  | bind _ _ ih ihf =>
    obtain ⟨q, hq⟩ := ih
    obtain ⟨g, hg⟩ := Classical.skolem.mp ihf
    exact ⟨_, .bind hq hg⟩
  | withLoops before after _ ih =>
    obtain ⟨q, hq⟩ := ih
    exact ⟨_, .withLoops before after hq⟩
  | recovering _ ih =>
    obtain ⟨q, hq⟩ := ih
    exact ⟨_, .recovering hq⟩

/-! ## The elements that are asked for -/

theorem current_at (hc : c.position ≤ tokens.items.length) :
    Pointing.current tokens c = .ok tokens.items[c.position]? c := by
  unfold Pointing.current
  rw [Tokens.listed_get hc]

theorem previous_at {i : Nat} (hpos : c.position = i + 1) (hi : i ≤ tokens.items.length) :
    Pointing.previous tokens c = .ok tokens.items[i]? c := by
  unfold Pointing.previous
  rw [if_neg (by omega), hpos, Nat.add_sub_cancel, Tokens.listed_get hi]

theorem state_head : (c.state tokens).rest.head? = tokens.items[c.position]? := List.head?_drop

theorem state_cons {t : Token} (ht : tokens.items[c.position]? = some t) :
    (c.state tokens).rest = t :: tokens.items.drop (c.position + 1) := by
  obtain ⟨hlt, rfl⟩ := List.getElem?_eq_some_iff.mp ht
  exact List.drop_eq_getElem_cons hlt

theorem state_nil (ht : tokens.items[c.position]? = none) : (c.state tokens).rest = [] :=
  List.drop_eq_nil_iff.mpr (List.getElem?_eq_none_iff.mp ht)

theorem pointing_bind_ok {q : Pointing α} {g : α → Pointing β} {a : α} (h : q c = .ok a c') :
    (q >>= g) c = g a c' := by
  simp only [bind, EStateM.bind, h]

theorem pointing_bind_error {q : Pointing α} {g : α → Pointing β} {e : Stop} (h : q c = .error e c') :
    (q >>= g) c = .error e c' := by
  simp only [bind, EStateM.bind, h]

/-- The cursor behind the current token. -/
def Cursor.next (c : Cursor) : Cursor := { c with position := c.position + 1 }

theorem advance_token {t : Token} (ht : tokens.items[c.position]? = some t) :
    Pointing.advance tokens c = .ok (some t) c.next := by
  obtain ⟨hlt, -⟩ := List.getElem?_eq_some_iff.mp ht
  unfold Pointing.advance
  rw [pointing_bind_ok (current_at (Nat.le_of_lt hlt)), ht]
  rfl

theorem advance_end (hc : c.position ≤ tokens.items.length) (ht : tokens.items[c.position]? = none) :
    Pointing.advance tokens c = .ok none c := by
  unfold Pointing.advance
  rw [pointing_bind_ok (current_at hc), ht]
  rfl

/-! ## Agreement -/

/-- From a position in the list both end in the same way at the same place of the list. -/
def Agrees (tokens : Tokens) (p : Parse α) (q : Pointing α) : Prop :=
  ∀ c : Cursor, c.position ≤ tokens.items.length →
    ∃ c' : Cursor, c.position ≤ c'.position ∧ c'.position ≤ tokens.items.length ∧
      ((∃ a, p (c.state tokens) = .ok a (c'.state tokens) ∧ q c = .ok a c') ∨
        ∃ h, p (c.state tokens) = .error h (c'.state tokens) ∧ q c = .error (.halt h) c')

variable {p : Parse α} {q : Pointing α}

theorem agrees_pure (a : α) : Agrees tokens (pure a) (pure a) :=
  fun c hc => ⟨c, Nat.le_refl _, hc, Or.inl ⟨a, rfl, rfl⟩⟩

theorem agrees_outOfFuel : Agrees tokens (throw .outOfFuel : Parse α) (throw (.halt .outOfFuel)) :=
  fun c hc => ⟨c, Nat.le_refl _, hc, Or.inr ⟨.outOfFuel, rfl, rfl⟩⟩

theorem Agrees.bind {f : α → Parse β} {g : α → Pointing β} (h : Agrees tokens p q)
    (hf : ∀ a, Agrees tokens (f a) (g a)) : Agrees tokens (p >>= f) (q >>= g) := by
  intro c hc
  obtain ⟨c₁, hle, hc₁, ⟨a, hp, hq⟩ | ⟨e, hp, hq⟩⟩ := h c hc
  · obtain ⟨c₂, hle', hc₂, hend⟩ := hf a c₁ hc₁
    rw [bind_of_ok hp, pointing_bind_ok hq]
    exact ⟨c₂, Nat.le_trans hle hle', hc₂, hend⟩
  · rw [bind_of_error hp, pointing_bind_error hq]
    exact ⟨c₁, hle, hc₁, Or.inr ⟨e, rfl, rfl⟩⟩

/-- A step that leaves the position and gives the same. -/
theorem agrees_stay (h : ∀ c : Cursor, c.position ≤ tokens.items.length →
    ∃ a c', c'.position = c.position ∧ p (c.state tokens) = .ok a (c'.state tokens) ∧ q c = .ok a c') :
    Agrees tokens p q := by
  intro c hc
  obtain ⟨a, c', hsame, hp, hq⟩ := h c hc
  exact ⟨c', by omega, by omega, Or.inl ⟨a, hp, hq⟩⟩

/-! ## Errors -/

theorem state_fault (c : Cursor) (f : SyntaxFault) :
    (c.state tokens).fault f = Pointing.faultAt tokens tokens.items[c.position]? f := by
  unfold State.fault
  cases ht : tokens.items[c.position]? with
  | none =>
    rw [state_nil ht]
    rfl
  | some t =>
    rw [state_cons ht]
    rfl

theorem agrees_raise (f : SyntaxFault) : Agrees tokens (raise f : Parse α) (Pointing.raise tokens f) := by
  intro c hc
  refine ⟨c, Nat.le_refl _, hc, Or.inr ⟨.raised ((c.state tokens).fault f), rfl, ?_⟩⟩
  unfold Pointing.raise
  rw [pointing_bind_ok (current_at hc), state_fault]
  rfl

theorem agrees_report (f : SyntaxFault) : Agrees tokens (report f) (Pointing.report tokens f) := by
  refine agrees_stay fun c hc => ⟨(), c.report ((c.state tokens).fault f), rfl, rfl, ?_⟩
  unfold Pointing.report
  rw [pointing_bind_ok (current_at hc), state_fault]
  rfl

theorem agrees_reportAt (t : Token) (f : SyntaxFault) : Agrees tokens (reportAt t f) (Pointing.note (fault t f)) :=
  agrees_stay fun c _ => ⟨(), c.report (fault t f), rfl, rfl, rfl⟩

theorem agrees_checkLoop (t : Token) (f : SyntaxFault) :
    Agrees tokens (checkLoop t f) (Pointing.checkLoop t f) := by
  refine agrees_stay fun c _ => ?_
  have hloops : (c.state tokens).loops = c.loops := rfl
  unfold checkLoop Pointing.checkLoop
  by_cases hl : c.loops = 0
  · rw [hloops, if_pos hl, if_pos hl]
    exact ⟨(), c.report (fault t f), rfl, rfl, rfl⟩
  · rw [hloops, if_neg hl, if_neg hl]
    exact ⟨(), c, rfl, rfl, rfl⟩

/-! ## Tokens -/

theorem agrees_peek : Agrees tokens peek (Pointing.current tokens) := by
  refine agrees_stay fun c hc => ⟨tokens.items[c.position]?, c, rfl, ?_, current_at hc⟩
  unfold peek
  rw [state_head]

/-- The next token is passed by moving the position on. -/
theorem agrees_skip : Agrees tokens skip (do let _ ← Pointing.advance tokens) := by
  intro c hc
  cases ht : tokens.items[c.position]? with
  | none =>
    refine ⟨c, Nat.le_refl _, hc, Or.inl ⟨(), ?_, pointing_bind_ok (advance_end hc ht)⟩⟩
    have hrest : (c.state tokens).rest.tail = (c.state tokens).rest := by rw [state_nil ht]; rfl
    unfold skip
    rw [hrest]
  | some t =>
    obtain ⟨hlt, -⟩ := List.getElem?_eq_some_iff.mp ht
    refine ⟨c.next, Nat.le_succ _, hlt, Or.inl ⟨(), ?_, pointing_bind_ok (advance_token ht)⟩⟩
    have hrest : (c.state tokens).rest.tail = (c.next.state tokens).rest := by rw [state_cons ht]; rfl
    unfold skip
    rw [hrest]
    rfl

theorem isAt_token {t : Token} (terminal : Terminal) (ht : tokens.items[c.position]? = some t) :
    Pointing.isAt tokens terminal c = .ok (t.terminal = terminal) c := by
  obtain ⟨hlt, -⟩ := List.getElem?_eq_some_iff.mp ht
  unfold Pointing.isAt
  rw [pointing_bind_ok (current_at (Nat.le_of_lt hlt)), ht]
  rfl

theorem isAt_end (terminal : Terminal) (hc : c.position ≤ tokens.items.length) (ht : tokens.items[c.position]? = none) :
    Pointing.isAt tokens terminal c = .ok false c := by
  unfold Pointing.isAt
  rw [pointing_bind_ok (current_at hc), ht]
  rfl

theorem moveAny_token {t : Token} (terminals : List Terminal) (ht : tokens.items[c.position]? = some t) :
    Pointing.moveAny tokens terminals c =
      if t.terminal ∈ terminals then .ok true c.next else .ok false c := by
  induction terminals with
  | nil => rfl
  | cons terminal terminals ih =>
    rw [Pointing.moveAny, pointing_bind_ok (isAt_token terminal ht)]
    by_cases heq : t.terminal = terminal
    · rw [if_pos (decide_eq_true heq), pointing_bind_ok (advance_token ht), if_pos (heq ▸ List.mem_cons_self ..)]
      rfl
    · rw [if_neg (by simpa using heq), ih]
      simp only [List.mem_cons, heq, false_or]

theorem moveAny_end (terminals : List Terminal) (hc : c.position ≤ tokens.items.length)
    (ht : tokens.items[c.position]? = none) : Pointing.moveAny tokens terminals c = .ok false c := by
  induction terminals with
  | nil => rfl
  | cons terminal terminals ih =>
    rw [Pointing.moveAny, pointing_bind_ok (isAt_end terminal hc ht)]
    exact ih

/-- Behind a token that is taken the previous element is that token. -/
theorem agrees_acceptAny (terminals : List Terminal) :
    Agrees tokens (acceptAny terminals) (Pointing.acceptAny tokens terminals) := by
  intro c hc
  unfold Pointing.acceptAny
  cases ht : tokens.items[c.position]? with
  | none =>
    rw [pointing_bind_ok (moveAny_end terminals hc ht)]
    refine ⟨c, Nat.le_refl _, hc, Or.inl ⟨none, acceptAny_ok.mpr (Or.inr ⟨?_, rfl, rfl⟩), rfl⟩⟩
    rw [state_nil ht]
    exact avoids_nil
  | some t =>
    obtain ⟨hlt, -⟩ := List.getElem?_eq_some_iff.mp ht
    by_cases hmem : t.terminal ∈ terminals
    · have hmoved := (moveAny_token terminals ht).trans (if_pos hmem)
      rw [pointing_bind_ok hmoved]
      refine ⟨c.next, Nat.le_succ _, hlt, Or.inl ⟨some t, ?_, ?_⟩⟩
      · exact acceptAny_ok.mpr (Or.inl ⟨t, _, state_cons ht, hmem, rfl, rfl⟩)
      · have hprevious : Pointing.previous tokens c.next = .ok tokens.items[c.position]? c.next := previous_at rfl hc
        rwa [ht] at hprevious
    · have hmoved := (moveAny_token terminals ht).trans (if_neg hmem)
      rw [pointing_bind_ok hmoved]
      refine ⟨c, Nat.le_refl _, hc, Or.inl ⟨none, acceptAny_ok.mpr (Or.inr ⟨?_, rfl, rfl⟩), rfl⟩⟩
      rw [state_cons ht]
      exact avoids_cons.mpr hmem

/-- A name that is expected is looked at by position before it is passed. -/
theorem agrees_expectName (role : NameRole) :
    Agrees tokens (expectName role) (Pointing.expectName tokens role) := by
  intro c hc
  cases ht : tokens.items[c.position]? with
  | none =>
    have hraise : Agrees tokens (raise (.noName role) : Parse Lexeme) (Pointing.raise tokens (.noName role)) :=
      agrees_raise (.noName role)
    unfold expectName Pointing.expectName
    rw [pointing_bind_ok (current_at hc), ht, state_nil ht]
    exact hraise c hc
  | some t =>
    obtain ⟨hlt, -⟩ := List.getElem?_eq_some_iff.mp ht
    obtain ⟨terminal, line⟩ := t
    unfold expectName Pointing.expectName
    rw [pointing_bind_ok (current_at hc), ht, state_cons ht]
    cases terminal with
    | ident name =>
      refine ⟨c.next, Nat.le_succ _, hlt, Or.inl ⟨⟨name, line⟩, rfl, ?_⟩⟩
      exact pointing_bind_ok (advance_token ht)
    | _ => exact agrees_raise (.noName role) c hc

theorem agrees_newSlot : Agrees tokens newSlot Pointing.newSlot :=
  agrees_stay fun c _ => ⟨c.nextSlot, { c with nextSlot := c.nextSlot + 1 }, rfl, rfl, rfl⟩

/-! ## Loops and recovery -/

theorem Agrees.withLoops {before : State → Nat} {after : State → State → Nat} (h : Agrees tokens p q) :
    Agrees tokens (withLoops before after p) (Pointing.withLoops tokens before after q) := by
  intro c hc
  obtain ⟨c', hle, hc', hend⟩ := h { c with loops := before (c.state tokens) } hc
  refine ⟨{ c' with loops := after (c.state tokens) (c'.state tokens) }, hle, hc', ?_⟩
  unfold Grammar.withLoops Pointing.withLoops
  rcases hend with ⟨a, hp, hq⟩ | ⟨e, hp, hq⟩
  · refine Or.inl ⟨a, ?_, by rw [hq]⟩
    rw [show p { c.state tokens with loops := before (c.state tokens) } = _ from hp]
    rfl
  · refine Or.inr ⟨e, ?_, by rw [hq]⟩
    rw [show p { c.state tokens with loops := before (c.state tokens) } = _ from hp]
    rfl

/-- Behind the token at `e`, the loop of recovery comes to the place at which reading resumes
after an error at that token. -/
theorem seekPlace_resumes {e n : Nat} (he : e < tokens.items.length) (hn : tokens.items.length ≤ e + n)
    (hpos : c.position = e + 1) :
    ∃ r, e < r ∧ r ≤ tokens.items.length ∧ resume (tokens.items.drop e) = tokens.items.drop r ∧
      Pointing.seekPlace tokens n c = .ok () { c with position := r } := by
  induction n generalizing e c with
  | zero => omega
  | succ n ih =>
    have hc : c.position ≤ tokens.items.length := by omega
    have hcurrent : Pointing.current tokens c = .ok tokens.items[e + 1]? c := hpos ▸ current_at hc
    have hhere : tokens.items.drop e = tokens.items[e] :: tokens.items.drop (e + 1) := List.drop_eq_getElem_cons he
    have hsame : { c with position := e + 1 } = c := by rw [← hpos]
    rw [Pointing.seekPlace, pointing_bind_ok hcurrent]
    cases hnext : tokens.items[e + 1]? with
    | none =>
      have hdrop : tokens.items.drop (e + 1) = [] := List.drop_eq_nil_iff.mpr (List.getElem?_eq_none_iff.mp hnext)
      refine ⟨e + 1, Nat.lt_succ_self e, he, ?_, ?_⟩
      · rw [hhere, hdrop, resume]
      · rw [hsame]
        rfl
    | some next =>
      obtain ⟨hlt, rfl⟩ := List.getElem?_eq_some_iff.mp hnext
      have hdrop : tokens.items.drop (e + 1) = tokens.items[e + 1] :: tokens.items.drop (e + 2) :=
        List.drop_eq_getElem_cons hlt
      have hprevious : Pointing.previous tokens c = .ok (some tokens.items[e]) c :=
        (previous_at hpos (Nat.le_of_lt he)).trans (by rw [List.getElem?_eq_getElem he])
      dsimp only
      rw [pointing_bind_ok hprevious, hhere, hdrop, resume]
      simp only [Option.any_some]
      by_cases hstop : (decide (tokens.items[e].terminal = .symbol .semicolon) ||
          tokens.items[e + 1].terminal.startsStatement) = true
      · refine ⟨e + 1, Nat.lt_succ_self e, he, ?_, ?_⟩
        · rw [if_pos hstop, hdrop]
        · rw [if_pos hstop, hsame]
          rfl
      · have hadvance : Pointing.advance tokens c = .ok (some tokens.items[e + 1]) c.next :=
          advance_token (by rw [hpos]; exact hnext)
        obtain ⟨r, hlt', hle, hresume, hseek⟩ := ih (c := c.next) hlt (by omega) (by rw [← hpos]; rfl)
        refine ⟨r, by omega, hle, ?_, ?_⟩
        · rw [if_neg hstop, ← hdrop, hresume]
        · rw [if_neg hstop, pointing_bind_ok hadvance]
          exact hseek

/-- To look for the next statement by position is to drop tokens up to it. -/
theorem synchronize_resumes (hc : c.position ≤ tokens.items.length) :
    ∃ r, c.position ≤ r ∧ r ≤ tokens.items.length ∧
      resume (tokens.items.drop c.position) = tokens.items.drop r ∧
      Pointing.synchronize tokens c = .ok () { c with position := r } := by
  have hlength : tokens.listed.length = tokens.items.length + 1 := by simp [Tokens.listed]
  unfold Pointing.synchronize
  rw [hlength]
  cases ht : tokens.items[c.position]? with
  | none =>
    refine ⟨c.position, Nat.le_refl _, hc, ?_, ?_⟩
    · rw [List.drop_eq_nil_iff.mpr (List.getElem?_eq_none_iff.mp ht), resume]
    · rw [pointing_bind_ok (advance_end hc ht), Pointing.seekPlace, pointing_bind_ok (current_at hc), ht]
      rfl
  | some t =>
    obtain ⟨hlt, -⟩ := List.getElem?_eq_some_iff.mp ht
    rw [pointing_bind_ok (advance_token ht)]
    obtain ⟨r, hlt', hle, hresume, hseek⟩ :=
      seekPlace_resumes (c := c.next) (n := tokens.items.length + 1) hlt (by omega) rfl
    exact ⟨r, Nat.le_of_lt hlt', hle, hresume, hseek⟩

/-- A rule that recovers from an error agrees with its form by position. -/
theorem Agrees.recovering {p : Parse Stmt} {q : Pointing Stmt} (h : Agrees tokens p q) :
    Agrees tokens (recovering p) (Pointing.recovering tokens q) := by
  intro c hc
  obtain ⟨c', hle, hc', hend⟩ := h c hc
  unfold Grammar.recovering Pointing.recovering
  rcases hend with ⟨stmt, hp, hq⟩ | ⟨e, hp, hq⟩
  · rw [hp, hq]
    exact ⟨c', hle, hc', Or.inl ⟨some stmt, rfl, rfl⟩⟩
  · rw [hp, hq]
    cases e with
    | outOfFuel => exact ⟨c', hle, hc', Or.inr ⟨.outOfFuel, rfl, rfl⟩⟩
    | raised error =>
      obtain ⟨r, hr, hlast, hresume, hsync⟩ := synchronize_resumes (c := c'.report error) hc'
      refine ⟨{ c'.report error with position := r }, Nat.le_trans hle hr, hlast, Or.inl ⟨none, ?_, ?_⟩⟩
      · have hrest : resume (c'.state tokens).rest = tokens.items.drop r := hresume
        simp only [hrest]
        rfl
      · have hnote : Pointing.note error c' = .ok () (c'.report error) := rfl
        simp only [pointing_bind_ok hnote, pointing_bind_ok hsync]
        rfl

/-- Reading by position is reading, and never asks for an element outside of the list. -/
theorem Realizes.agrees (h : Realizes tokens p q) : Agrees tokens p q := by
  induction h with
  | pure a => exact agrees_pure a
  | outOfFuel => exact agrees_outOfFuel
  | raise f => exact agrees_raise f
  | report f => exact agrees_report f
  | reportAt t f => exact agrees_reportAt t f
  | checkLoop t f => exact agrees_checkLoop t f
  | peek => exact agrees_peek
  | skip => exact agrees_skip
  | acceptAny terminals => exact agrees_acceptAny terminals
  | expectName role => exact agrees_expectName role
  | newSlot => exact agrees_newSlot
  | bind _ _ ih ihf => exact ih.bind ihf
  | withLoops before after _ ih => exact ih.withLoops
  | recovering _ ih => exact ih.recovering

theorem Cursor.state_injective (hc : c.position ≤ tokens.items.length)
    (hc' : c'.position ≤ tokens.items.length) (h : c.state tokens = c'.state tokens) : c = c' := by
  obtain ⟨position, nextSlot, loops, errors⟩ := c
  obtain ⟨position', nextSlot', loops', errors'⟩ := c'
  simp only [state, State.mk.injEq] at h hc hc'
  obtain ⟨hrest, -, rfl, rfl, rfl⟩ := h
  have hlength := congrArg List.length hrest
  simp only [List.length_drop] at hlength
  obtain rfl : position = position' := by omega
  rfl

/-- By position the same is read from the same place, to the same place. -/
theorem Realizes.does {a : α} (h : Realizes tokens p q) (hc : c.position ≤ tokens.items.length)
    (hc' : c'.position ≤ tokens.items.length) (hp : p (c.state tokens) = .ok a (c'.state tokens)) : q c = .ok a c' := by
  obtain ⟨c₁, -, hc₁, ⟨b, hp', hq⟩ | ⟨e, hp', -⟩⟩ := h.agrees c hc
  · obtain ⟨rfl, hstate⟩ := EStateM.Result.ok.inj (hp.symm.trans hp')
    rw [Cursor.state_injective hc' hc₁ hstate]
    exact hq
  · cases hp.symm.trans hp'

end Grammar

end Lox
