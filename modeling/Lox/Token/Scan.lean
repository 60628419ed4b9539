/-
  Lox.Token.Scan — the tokens of a source text, with the line of each, and the errors
  of the text.

  Scanning takes in the pieces of the text from left to right (`scanFrom_eq_foldl`). A
  token stands on the line on which its piece starts; a piece moves the line on by the
  newlines in it. A character that belongs to nothing is an error on its line and is
  left out; a string or comment that is not closed is an error on the last line.
-/

import Lox.Diagnostic
import Lox.Token.Piece

namespace Lox

/-- What is known of a text after some of its pieces: the line that the next piece
starts on, the tokens and the errors. -/
structure Scan where
  line : Nat
  tokens : Array Token
  errors : Array Diagnostic
  deriving Repr

def Piece.newlines : Piece → Nat
  | .newline => 1
  | .blockComment body | .openComment body | .openString body => body.count '\n'
  | .token (.string text) => text.toList.count '\n'
  | _ => 0

namespace Scan

def start : Scan := ⟨1, #[], #[]⟩

def report (s : Scan) (fault : LexicalFault) : Scan :=
  { s with errors := s.errors.push ⟨s.line, .line, .lexical fault⟩ }

def accept (s : Scan) (terminal : Terminal) : Scan :=
  { s with tokens := s.tokens.push ⟨terminal, s.line⟩ }

def pass (s : Scan) (lines : Nat) : Scan := { s with line := s.line + lines }

/-- Takes in the next piece. -/
def take (s : Scan) (p : Piece) : Scan :=
  match p with
  | .token terminal => (s.accept terminal).pass p.newlines
  | .unexpected _ => s.report .unexpectedCharacter
  | .openString _ => (s.pass p.newlines).report .unterminatedString
  | .openComment _ => (s.pass p.newlines).report .unterminatedComment
  | _ => s.pass p.newlines

def scanFrom (s : Scan) : List Char → Scan
  | [] => s
  | c :: cs => scanFrom (s.take (Piece.cut c cs).1) (Piece.cut c cs).2
termination_by cs => cs.length
decreasing_by exact Nat.lt_succ_of_le (Piece.cut_length c cs)

theorem scanFrom_eq_foldl (s : Scan) (cs : List Char) :
    s.scanFrom cs = (Piece.pieces cs).foldl take s := by
  fun_induction scanFrom s cs with
  | case1 => simp [Piece.pieces]
  | case2 s c cs ih => rw [ih, Piece.pieces, List.foldl_cons]

end Scan

/-- The tokens of a text, and its errors in the order of the text. -/
def tokenize (source : String) : Tokens × List Diagnostic :=
  let s := Scan.start.scanFrom source.toList
  (⟨s.tokens.toList, s.line⟩, s.errors.toList)

end Lox
