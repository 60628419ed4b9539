/-
  Lox.Proofs.Grammar.Productions — the grammar of Lox as a table of productions, and the
  token lists that can be derived in it.

  The table says what a program is without saying how one is read: it is ambiguous (an
  `else` may belong to any open `if`, an `and` behind a ternary to the ternary or to its
  last branch), and derivability asks only that some derivation exists. Two conditions on
  programs are in the table as well. Parameter and argument lists have at most 255
  entries. A `break` or `continue` stands in the body of a loop, with no routine body in
  between: nonterminals that may contain statements say whether a loop is around them.

  `Derives` is the smallest family of languages that is closed under the productions
  (`derives_of_matches`, `Derives.induct`).
-/

import Lox.Grammar.Expression

namespace Lox.Grammar

inductive Nonterminal where
  | program
  | declaration (inLoop : Bool)
  | classDecl
  | funDecl
  | routine
  | parameters
  | varDecl
  | statement (inLoop : Bool)
  | exprStmt
  | forStmt
  | ifStmt (inLoop : Bool)
  | printStmt
  | returnStmt
  | whileStmt
  | breakStmt
  | continueStmt
  | block (inLoop : Bool)
  | level (l : Level)
  | arguments
  | primary
  deriving DecidableEq, Repr

/-- The right side of a production. -/
inductive Ebnf where
  | keyword (k : Keyword)
  | symbol (s : Symbol)
  | ident
  | number
  | string
  | rule (n : Nonterminal)
  | sequence (parts : List Ebnf)
  | choice (cases : List Ebnf)
  | many (e : Ebnf)
  | upTo (n : Nat) (e : Ebnf)

namespace Ebnf

def opt (e : Ebnf) : Ebnf := upTo 1 e

def level (l : Level) : Ebnf := rule (.level l)

/-- Operands with operators between them. -/
def joined (operand : Level) (operators : List Ebnf) : Ebnf :=
  sequence [level operand, many (sequence [choice operators, level operand])]

/-- At least one entry, at most 255, with commas between them. -/
def list (entry : Ebnf) : Ebnf := sequence [entry, upTo 254 (sequence [symbol .comma, entry])]

end Ebnf

open Ebnf in
/-- What a nonterminal consists of. A `break` or a `continue` is a statement inside of a loop
only, and a list of parameters or arguments has a bound. -/
def production : Nonterminal → Ebnf
  | .program => many (rule (.declaration false))
  | .declaration inLoop => choice [rule .classDecl, rule .funDecl, rule .varDecl, rule (.statement inLoop)]
  | .classDecl =>
    sequence [keyword .class_, ident, opt (sequence [symbol .less, ident]), symbol .leftBrace,
      many (rule .routine), symbol .rightBrace]
  | .funDecl => sequence [keyword .fun_, rule .routine]
  | .routine =>
    sequence [ident, symbol .leftParen, opt (rule .parameters), symbol .rightParen, rule (.block false)]
  | .parameters => list ident
  | .varDecl =>
    sequence [keyword .var, ident, opt (sequence [symbol .equal, level .comma]), symbol .semicolon]
  | .statement inLoop =>
    choice ([rule .exprStmt, rule .forStmt, rule (.ifStmt inLoop), rule .printStmt, rule .returnStmt,
      rule .whileStmt, rule (.block inLoop)] ++ if inLoop then [rule .breakStmt, rule .continueStmt] else [])
  | .exprStmt => sequence [level .comma, symbol .semicolon]
  | .forStmt =>
    sequence [keyword .for_, symbol .leftParen,
      choice [rule .varDecl, rule .exprStmt, symbol .semicolon],
      opt (level .comma), symbol .semicolon, opt (level .comma), symbol .rightParen, rule (.statement true)]
  | .ifStmt inLoop =>
    sequence [keyword .if_, symbol .leftParen, level .comma, symbol .rightParen, rule (.statement inLoop),
      opt (sequence [keyword .else_, rule (.statement inLoop)])]
  | .printStmt => sequence [keyword .print, level .comma, symbol .semicolon]
  | .returnStmt => sequence [keyword .return_, opt (level .comma), symbol .semicolon]
  | .whileStmt =>
    sequence [keyword .while_, symbol .leftParen, level .comma, symbol .rightParen, rule (.statement true)]
  | .breakStmt => sequence [keyword .break_, symbol .semicolon]
  | .continueStmt => sequence [keyword .continue_, symbol .semicolon]
  | .block inLoop => sequence [symbol .leftBrace, many (rule (.declaration inLoop)), symbol .rightBrace]
  | .level .comma => joined .assignment [symbol .comma]
  | .level .assignment =>
    choice [sequence [opt (sequence [level .call, symbol .dot]), ident, symbol .equal, level .assignment],
      level .or_]
  | .level .or_ => joined .and_ [keyword .or_]
  | .level .and_ => joined .ternary [keyword .and_]
  | .level .ternary =>
    sequence [level .equality,
      opt (sequence [symbol .question, level .assignment, symbol .colon, level .assignment])]
  | .level .equality => joined .comparison [symbol .bangEqual, symbol .equalEqual]
  | .level .comparison =>
    joined .term [symbol .greater, symbol .greaterEqual, symbol .less, symbol .lessEqual]
  | .level .term => joined .factor [symbol .minus, symbol .plus]
  | .level .factor => joined .unary [symbol .slash, symbol .star]
  | .level .unary => choice [sequence [choice [symbol .bang, symbol .minus], level .unary], level .call]
  | .level .call =>
    sequence [rule .primary,
      many (choice [sequence [symbol .leftParen, opt (rule .arguments), symbol .rightParen],
        sequence [symbol .dot, ident]])]
  | .arguments => list (level .assignment)
  | .primary =>
    choice [keyword .true_, keyword .false_, keyword .nil, number, string, ident,
      sequence [symbol .leftParen, level .comma, symbol .rightParen], keyword .this,
      sequence [keyword .super, symbol .dot, ident]]

/-! ## Derivations -/

/-- A language for every nonterminal. -/
abbrev Languages := Nonterminal → List Token → Prop

/-- The token lists that a right side stands for if the nonterminals stand for `L`. -/
inductive Matches (L : Languages) : Ebnf → List Token → Prop
  | keyword (k : Keyword) (line : Nat) : Matches L (.keyword k) [⟨.keyword k, line⟩]
  | symbol (s : Symbol) (line : Nat) : Matches L (.symbol s) [⟨.symbol s, line⟩]
  | ident (name : String) (line : Nat) : Matches L .ident [⟨.ident name, line⟩]
  | number (literal : String) (line : Nat) : Matches L .number [⟨.number literal, line⟩]
  | string (text : String) (line : Nat) : Matches L .string [⟨.string text, line⟩]
  | rule {n : Nonterminal} {ts : List Token} : L n ts → Matches L (.rule n) ts
  | nil : Matches L (.sequence []) []
  | cons {e : Ebnf} {es : List Ebnf} {ts us : List Token} :
      Matches L e ts → Matches L (.sequence es) us → Matches L (.sequence (e :: es)) (ts ++ us)
  | choice {e : Ebnf} {es : List Ebnf} {ts : List Token} : e ∈ es → Matches L e ts → Matches L (.choice es) ts
  | manyNil {e : Ebnf} : Matches L (.many e) []
  | manyCons {e : Ebnf} {ts us : List Token} :
      Matches L e ts → Matches L (.many e) us → Matches L (.many e) (ts ++ us)
  | upToNil {n : Nat} {e : Ebnf} : Matches L (.upTo n e) []
  | upToCons {n : Nat} {e : Ebnf} {ts us : List Token} :
      Matches L e ts → Matches L (.upTo n e) us → Matches L (.upTo (n + 1) e) (ts ++ us)

def Closed (L : Languages) : Prop := ∀ n ts, Matches L (production n) ts → L n ts

/-- The token lists that can be derived from a nonterminal. -/
def Derives : Languages := fun n ts => ∀ L, Closed L → L n ts

/-- With more in the languages of the rules, more is matched. -/
theorem Matches.mono {L M : Languages} (hLM : ∀ n ts, L n ts → M n ts) {e : Ebnf} {ts : List Token}
    (h : Matches L e ts) : Matches M e ts := by
  induction h with
  | keyword k line => exact .keyword k line
  | symbol s line => exact .symbol s line
  | ident name line => exact .ident name line
  | number literal line => exact .number literal line
  | string text line => exact .string text line
  | rule h => exact .rule (hLM _ _ h)
  | nil => exact .nil
  | cons _ _ ih ihs => exact .cons ih ihs
  | choice hm _ ih => exact .choice hm ih
  | manyNil => exact .manyNil
  | manyCons _ _ ih ihs => exact .manyCons ih ihs
  | upToNil => exact .upToNil
  | upToCons _ _ ih ihs => exact .upToCons ih ihs

theorem derives_of_matches {n : Nonterminal} {ts : List Token} (h : Matches Derives (production n) ts) :
    Derives n ts :=
  fun L hL => hL n ts (h.mono fun _ _ hd => hd L hL)

theorem Derives.induct {L : Languages} (hL : Closed L) {n : Nonterminal} {ts : List Token} (h : Derives n ts) :
    L n ts :=
  h L hL

/-! ## What the parts of a right side stand for -/

section Parts

variable {L : Languages} {ts : List Token}

@[simp] theorem matches_keyword {k : Keyword} :
    Matches L (.keyword k) ts ↔ ∃ t : Token, ts = [t] ∧ t.terminal = .keyword k := by
  constructor
  · rintro ⟨⟩; exact ⟨_, rfl, rfl⟩
  · rintro ⟨⟨_, line⟩, rfl, rfl⟩; exact .keyword k line

@[simp] theorem matches_symbol {s : Symbol} :
    Matches L (.symbol s) ts ↔ ∃ t : Token, ts = [t] ∧ t.terminal = .symbol s := by
  constructor
  · rintro ⟨⟩; exact ⟨_, rfl, rfl⟩
  · rintro ⟨⟨_, line⟩, rfl, rfl⟩; exact .symbol s line

@[simp] theorem matches_ident :
    Matches L .ident ts ↔ ∃ (t : Token) (name : String), ts = [t] ∧ t.terminal = .ident name := by
  constructor
  · rintro ⟨⟩; exact ⟨_, _, rfl, rfl⟩
  · rintro ⟨⟨_, line⟩, name, rfl, rfl⟩; exact .ident name line

@[simp] theorem matches_number :
    Matches L .number ts ↔ ∃ (t : Token) (literal : String), ts = [t] ∧ t.terminal = .number literal := by
  constructor
  · rintro ⟨⟩; exact ⟨_, _, rfl, rfl⟩
  · rintro ⟨⟨_, line⟩, literal, rfl, rfl⟩; exact .number literal line

@[simp] theorem matches_string :
    Matches L .string ts ↔ ∃ (t : Token) (text : String), ts = [t] ∧ t.terminal = .string text := by
  constructor
  · rintro ⟨⟩; exact ⟨_, _, rfl, rfl⟩
  · rintro ⟨⟨_, line⟩, text, rfl, rfl⟩; exact .string text line

@[simp] theorem matches_rule {n : Nonterminal} : Matches L (.rule n) ts ↔ L n ts := by
  constructor
  · rintro ⟨⟩; assumption
  · exact .rule

@[simp] theorem matches_nil : Matches L (.sequence []) ts ↔ ts = [] := by
  constructor
  · rintro ⟨⟩; rfl
  · rintro rfl; exact .nil

@[simp] theorem matches_cons {e : Ebnf} {es : List Ebnf} : Matches L (.sequence (e :: es)) ts ↔
    ∃ us vs, Matches L e us ∧ Matches L (.sequence es) vs ∧ ts = us ++ vs := by
  constructor
  · rintro ⟨⟩; exact ⟨_, _, ‹_›, ‹_›, rfl⟩
  · rintro ⟨us, vs, hu, hv, rfl⟩; exact .cons hu hv

@[simp] theorem matches_choice {es : List Ebnf} : Matches L (.choice es) ts ↔ ∃ e ∈ es, Matches L e ts := by
  constructor
  · rintro ⟨⟩; exact ⟨_, ‹_›, ‹_›⟩
  · rintro ⟨e, he, h⟩; exact .choice he h

@[simp] theorem matches_level {l : Level} : Matches L (.level l) ts ↔ L (.level l) ts := matches_rule

@[simp] theorem matches_opt {e : Ebnf} : Matches L (.opt e) ts ↔ ts = [] ∨ Matches L e ts := by
  constructor
  · intro h
    cases h with
    | upToNil => exact Or.inl rfl
    | upToCons he hn => cases hn; exact Or.inr (by simpa using he)
  · rintro (rfl | h)
    · exact .upToNil
    · have := Matches.upToCons h (Matches.upToNil (n := 0))
      rwa [List.append_nil] at this

/-- Any number of words one behind the other. -/
theorem matches_many {e : Ebnf} :
    Matches L (.many e) ts ↔ ∃ words : List (List Token), (∀ w ∈ words, Matches L e w) ∧ ts = words.flatten := by
  constructor
  · intro h
    generalize hm : Ebnf.many e = m at h
    induction h with
    | manyNil => exact ⟨[], by simp, rfl⟩
    | manyCons h _ _ ih =>
      cases hm
      obtain ⟨words, hw, rfl⟩ := ih rfl
      exact ⟨_ :: words, by simpa using ⟨h, hw⟩, rfl⟩
    | _ => cases hm
  · rintro ⟨words, hw, rfl⟩
    induction words with
    | nil => exact .manyNil
    | cons w words ih =>
      exact .manyCons (hw w (by simp)) (ih fun v hv => hw v (by simp [hv]))

/-- As many words as are allowed at most. -/
theorem matches_upTo {n : Nat} {e : Ebnf} :
    Matches L (.upTo n e) ts ↔
      ∃ words : List (List Token), words.length ≤ n ∧ (∀ w ∈ words, Matches L e w) ∧ ts = words.flatten := by
  constructor
  · intro h
    generalize hm : Ebnf.upTo n e = m at h
    induction h generalizing n with
    | upToNil => exact ⟨[], by simp, by simp, rfl⟩
    | upToCons h _ _ ih =>
      cases hm
      obtain ⟨words, hl, hw, rfl⟩ := ih rfl
      exact ⟨_ :: words, by simpa using hl, by simpa using ⟨h, hw⟩, rfl⟩
    | _ => cases hm
  · rintro ⟨words, hl, hw, rfl⟩
    induction words generalizing n with
    | nil => exact .upToNil
    | cons w words ih =>
      obtain ⟨n, rfl⟩ : ∃ m, n = m + 1 := ⟨n - 1, by simp at hl; omega⟩
      exact .upToCons (hw w (by simp)) (ih (by simpa using hl) fun v hv => hw v (by simp [hv]))

end Parts

end Lox.Grammar
