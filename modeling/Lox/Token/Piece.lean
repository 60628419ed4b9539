/-
  Lox.Token.Piece — the pieces that a source text is cut into, from left to right:
  blanks, newlines, comments, tokens, and characters that belong to nothing.

  `cut` takes the first piece off a text that is not empty. The piece and what is left
  are the text (`cut_text`), so cutting goes on until nothing is left and loses nothing
  (`text_pieces`). A string or a block comment that is not closed takes the whole rest.
-/

import Lox.Token

namespace Lox

inductive Piece where
  | newline
  | blank (c : Char)
  | lineComment (body : List Char)
  | blockComment (body : List Char)
  | token (terminal : Terminal)
  | unexpected (c : Char)
  | openComment (body : List Char)
  | openString (body : List Char)
  deriving DecidableEq, Repr

namespace Piece

def text : Piece → List Char
  | newline => ['\n']
  | blank c => [c]
  | lineComment body => '/' :: '/' :: body
  | blockComment body => '/' :: '*' :: body ++ ['*', '/']
  | token terminal => terminal.text.toList
  | unexpected c => [c]
  | openComment body => '/' :: '*' :: body
  | openString body => '"' :: body

/-! ## Character classes -/

def isDigit (c : Char) : Bool := '0' ≤ c && c ≤ '9'

/-- Letters are the ASCII ones. -/
def isLetter (c : Char) : Bool := ('a' ≤ c && c ≤ 'z') || ('A' ≤ c && c ≤ 'Z')

def isWordChar (c : Char) : Bool := isLetter c || isDigit c

def isBlank (c : Char) : Bool := c = ' ' || c = '\t' || c = '\r'

/-! ## Cutting -/

/-- The text before the first close of a block comment, and the text behind it. -/
def splitClose : List Char → Option (List Char × List Char)
  | '*' :: '/' :: rest => some ([], rest)
  | c :: rest => (splitClose rest).map fun (body, rest) => (c :: body, rest)
  | [] => none

/-- A point and digits, if a point with a digit behind it stands first. -/
def fraction : List Char → List Char × List Char
  | '.' :: d :: rest =>
    if isDigit d then ('.' :: d :: rest.takeWhile isDigit, rest.dropWhile isDigit)
    else ([], '.' :: d :: rest)
  | rest => ([], rest)

def cutNumber (c : Char) (cs : List Char) : Piece × List Char :=
  let (places, rest) := fraction (cs.dropWhile isDigit)
  (token (.number (String.ofList (c :: cs.takeWhile isDigit ++ places))), rest)

def wordTerminal (word : String) : Terminal :=
  match Keyword.ofText? word with
  | some k => .keyword k
  | none => .ident word

def cutWord (c : Char) (cs : List Char) : Piece × List Char :=
  (token (wordTerminal (String.ofList (c :: cs.takeWhile isWordChar))), cs.dropWhile isWordChar)

def cutString (cs : List Char) : Piece × List Char :=
  match cs.dropWhile (· != '"') with
  | _ :: rest => (token (.string (String.ofList (cs.takeWhile (· != '"')))), rest)
  | [] => (openString cs, [])

def cutComment (cs : List Char) : Piece × List Char :=
  match splitClose cs with
  | some (body, rest) => (blockComment body, rest)
  | none => (openComment cs, [])

/-- A symbol, with the equals sign behind it where both make one symbol. -/
def cutSymbol (c : Char) (cs : List Char) : Piece × List Char :=
  match Symbol.ofChar? c with
  | none => (unexpected c, cs)
  | some s =>
    match s.withEqual?, cs with
    | some joined, '=' :: rest => (token (.symbol joined), rest)
    | _, _ => (token (.symbol s), cs)

/-- The first piece of the text `c :: cs`, and the text behind it. -/
def cut (c : Char) (cs : List Char) : Piece × List Char :=
  if c = '\n' then (newline, cs)
  else if isBlank c then (blank c, cs)
  else if isDigit c then cutNumber c cs
  else if isLetter c then cutWord c cs
  else if c = '"' then cutString cs
  else
    match c, cs with
    | '/', '/' :: rest => (lineComment (rest.takeWhile (· != '\n')), rest.dropWhile (· != '\n'))
    | '/', '*' :: rest => cutComment rest
    | c, cs => cutSymbol c cs

/-! ## Nothing is lost -/

/-- A comment that is closed is its body, the close and the rest. -/
theorem splitClose_text {cs body rest : List Char} (h : splitClose cs = some (body, rest)) :
    body ++ '*' :: '/' :: rest = cs := by
  fun_induction splitClose cs generalizing body with
  | case1 r => simp_all
  | case2 c r _ ih =>
    obtain ⟨⟨b, q⟩, hs, he⟩ := Option.map_eq_some_iff.1 h
    cases he
    simp [ih hs]
  | case3 => cases h

theorem fraction_text (cs : List Char) : (fraction cs).1 ++ (fraction cs).2 = cs := by
  fun_cases fraction cs <;> simp_all

theorem wordTerminal_text (word : String) : (wordTerminal word).text = word := by
  simp only [wordTerminal]
  split
  next k h => simpa [Terminal.text] using List.find?_some h
  next => rfl

theorem ofChar?_text {c : Char} {s : Symbol} (h : Symbol.ofChar? c = some s) :
    s.text.toList = [c] := by
  unfold Symbol.ofChar? at h
  split at h <;> cases h <;> rfl

theorem withEqual?_text {s joined : Symbol} (h : s.withEqual? = some joined) :
    joined.text.toList = s.text.toList ++ ['='] := by
  cases s <;> cases h <;> rfl

theorem cutNumber_text (c : Char) (cs : List Char) :
    (cutNumber c cs).1.text ++ (cutNumber c cs).2 = c :: cs := by
  simp [cutNumber, text, Terminal.text, fraction_text]

theorem cutWord_text (c : Char) (cs : List Char) :
    (cutWord c cs).1.text ++ (cutWord c cs).2 = c :: cs := by
  simp [cutWord, text, wordTerminal_text]

theorem cutString_text (cs : List Char) :
    (cutString cs).1.text ++ (cutString cs).2 = '"' :: cs := by
  unfold cutString
  split
  next d rest h =>
    have hd : d = '"' := by
      have := List.head?_dropWhile_not (· != '"') cs
      rw [h] at this
      simpa using this
    have := List.takeWhile_append_dropWhile (p := (· != '"')) (l := cs)
    rw [h, hd] at this
    simpa [text, Terminal.text] using this
  next => simp [text]

theorem cutComment_text (cs : List Char) :
    (cutComment cs).1.text ++ (cutComment cs).2 = '/' :: '*' :: cs := by
  unfold cutComment
  split
  next body rest h => simpa [text] using splitClose_text h
  next => simp [text]

theorem cutSymbol_text (c : Char) (cs : List Char) :
    (cutSymbol c cs).1.text ++ (cutSymbol c cs).2 = c :: cs := by
  unfold cutSymbol
  split
  next => simp [text]
  next s h =>
    split
    next joined rest hj => simp [text, Terminal.text, withEqual?_text hj, ofChar?_text h]
    next => simp [text, Terminal.text, ofChar?_text h]

/-- What is cut off and what is left are the text. -/
theorem cut_text (c : Char) (cs : List Char) : (cut c cs).1.text ++ (cut c cs).2 = c :: cs := by
  unfold cut
  split
  next h => simp [text, h]
  split
  next => simp [text]
  split
  next => exact cutNumber_text c cs
  split
  next => exact cutWord_text c cs
  split
  next h => rw [cutString_text, h]
  split
  next => simp [text]
  next => exact cutComment_text _
  next => exact cutSymbol_text _ _

theorem cutWord_ne_nil (c : Char) (cs : List Char) : (cutWord c cs).1.text ≠ [] := by
  simp [cutWord, text, wordTerminal_text]

theorem cutSymbol_ne_nil (c : Char) (cs : List Char) : (cutSymbol c cs).1.text ≠ [] := by
  unfold cutSymbol
  split
  next => simp [text]
  next s h =>
    split
    next joined rest hj => simp [text, Terminal.text, withEqual?_text hj]
    next => simp [text, Terminal.text, ofChar?_text h]

/-- Something is always cut off. -/
theorem cut_ne_nil (c : Char) (cs : List Char) : (cut c cs).1.text ≠ [] := by
  unfold cut
  split
  next => simp [text]
  split
  next => simp [text]
  split
  next => simp [cutNumber, text, Terminal.text]
  split
  next => exact cutWord_ne_nil c cs
  split
  next => unfold cutString; split <;> simp [text, Terminal.text]
  split
  next => simp [text]
  next => unfold cutComment; split <;> simp [text]
  next => exact cutSymbol_ne_nil _ _

theorem cut_length (c : Char) (cs : List Char) : (cut c cs).2.length ≤ cs.length := by
  have h := congrArg List.length (cut_text c cs)
  have := List.length_pos_iff.2 (cut_ne_nil c cs)
  simp at h
  omega

def pieces : List Char → List Piece
  | [] => []
  | c :: cs => (cut c cs).1 :: pieces (cut c cs).2
termination_by cs => cs.length
decreasing_by exact Nat.lt_succ_of_le (cut_length c cs)

theorem text_pieces (cs : List Char) : (pieces cs).flatMap text = cs := by
  fun_induction pieces cs with
  | case1 => rfl
  | case2 c cs ih => simp [ih, cut_text]

end Piece

end Lox
