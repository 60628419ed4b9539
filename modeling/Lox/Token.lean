/-
  Lox.Token — the terminals of Lox and the tokens, which are terminals with the line
  they start on.

  A terminal is written in one way (`Terminal.text`), and keywords and symbols are told
  apart by their text (`Keyword.ofText?_text`, `Symbol.text_injective`). The end of a
  token list is no token: `Tokens` carries its line beside the tokens.
-/

import Lox.Number
import Lox.Text.Quoted

namespace Lox

/-! ## Keywords -/

inductive Keyword where
  | and_ | break_ | class_ | continue_ | else_ | false_ | for_ | fun_ | if_ | nil | or_ | print
  | return_ | super | this | true_ | var | while_
  deriving DecidableEq, Repr

namespace Keyword

def text : Keyword → String
  | and_ => "and"
  | break_ => "break"
  | class_ => "class"
  | continue_ => "continue"
  | else_ => "else"
  | false_ => "false"
  | for_ => "for"
  | fun_ => "fun"
  | if_ => "if"
  | nil => "nil"
  | or_ => "or"
  | print => "print"
  | return_ => "return"
  | super => "super"
  | this => "this"
  | true_ => "true"
  | var => "var"
  | while_ => "while"

def all : List Keyword :=
  [and_, break_, class_, continue_, else_, false_, for_, fun_, if_, nil, or_, print, return_, super,
   this, true_, var, while_]

def ofText? (word : String) : Option Keyword := all.find? fun k => k.text = word

/-- Starts a statement or a declaration. -/
def startsStatement : Keyword → Bool
  | class_ | for_ | fun_ | if_ | print | return_ | var | while_ => true
  | _ => false

@[simp] theorem ofText?_text (k : Keyword) : ofText? k.text = some k := by cases k <;> decide

end Keyword

/-! ## Symbols -/

inductive Symbol where
  | leftParen | rightParen | leftBrace | rightBrace | comma | dot | minus | plus | semicolon | star
  | slash | question | colon
  | bang | bangEqual | equal | equalEqual | less | lessEqual | greater | greaterEqual
  deriving DecidableEq, Repr

namespace Symbol

def text : Symbol → String
  | leftParen => "("
  | rightParen => ")"
  | leftBrace => "\x7b"
  | rightBrace => "\x7d"
  | comma => ","
  | dot => "."
  | minus => "-"
  | plus => "+"
  | semicolon => ";"
  | star => "*"
  | slash => "/"
  | question => "?"
  | colon => ":"
  | bang => "!"
  | bangEqual => "!="
  | equal => "="
  | equalEqual => "=="
  | less => "<"
  | lessEqual => "<="
  | greater => ">"
  | greaterEqual => ">="

/-- The symbol of one character. -/
def ofChar? : Char → Option Symbol
  | '(' => some leftParen
  | ')' => some rightParen
  | '\x7b' => some leftBrace
  | '\x7d' => some rightBrace
  | ',' => some comma
  | '.' => some dot
  | '-' => some minus
  | '+' => some plus
  | ';' => some semicolon
  | '*' => some star
  | '/' => some slash
  | '?' => some question
  | ':' => some colon
  | '!' => some bang
  | '=' => some equal
  | '<' => some less
  | '>' => some greater
  | _ => none

/-- The symbol that a following equals sign makes of a symbol. -/
def withEqual? : Symbol → Option Symbol
  | bang => some bangEqual
  | equal => some equalEqual
  | less => some lessEqual
  | greater => some greaterEqual
  | _ => none

def all : List Symbol :=
  [leftParen, rightParen, leftBrace, rightBrace, comma, dot, minus, plus, semicolon, star, slash,
   question, colon, bang, bangEqual, equal, equalEqual, less, lessEqual, greater, greaterEqual]

def ofText? (text : String) : Option Symbol := all.find? fun s => s.text = text

@[simp] theorem ofText?_text (s : Symbol) : ofText? s.text = some s := by cases s <;> decide

theorem text_injective (a b : Symbol) (h : a.text = b.text) : a = b := by
  simpa using congrArg ofText? h

end Symbol

/-! ## Terminals and tokens -/

/-- A number keeps the characters it is written with; a string those between its quotes. -/
inductive Terminal where
  | number (literal : String)
  | string (text : String)
  | ident (name : String)
  | keyword (k : Keyword)
  | symbol (s : Symbol)
  deriving DecidableEq, Repr

structure Token where
  terminal : Terminal
  line : Nat
  deriving DecidableEq, Repr

/-- A token list and the line of its end. -/
structure Tokens where
  items : List Token
  endLine : Nat
  deriving DecidableEq, Repr

namespace Terminal

/-- The text a terminal is written with. -/
def text : Terminal → String
  | number literal => literal
  | string text => "\"" ++ text ++ "\""
  | ident name => name
  | keyword k => k.text
  | symbol s => s.text

def category : Terminal → String
  | number _ => "NUMBER"
  | string _ => "STRING"
  | ident _ => "IDENT"
  | keyword k => k.text
  | symbol _ => "OP"

/-- What a literal stands for, as it is shown in a description. -/
def literalText : Terminal → String
  | number literal => Number.text (Number.read literal)
  | string text => Text.quoted text
  | _ => "None"

def startsStatement : Terminal → Bool
  | keyword k => k.startsStatement
  | _ => false

end Terminal

/-! ## Descriptions -/

def describe (category lexeme literal : String) (line : Nat) : String :=
  "Token(" ++ category ++ ", " ++ Text.quoted lexeme ++ ", " ++ literal ++ ", " ++ line.repr ++ ")"

namespace Token

def text (t : Token) : String := t.terminal.text

def describe (t : Token) : String :=
  Lox.describe t.terminal.category t.text t.terminal.literalText t.line

end Token

namespace Tokens

def endCategory : String := "EOF"

/-- One line of text for every token, and one for the end. -/
def descriptions (ts : Tokens) : List String :=
  ts.items.map Token.describe ++ [describe endCategory "" "None" ts.endLine]

/-- The number of tokens, the end included. -/
def count (ts : Tokens) : Nat := ts.items.length + 1

end Tokens

end Lox
