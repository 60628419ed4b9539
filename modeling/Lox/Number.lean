/-
  Lox.Number — the texts of numbers and the reading of number literals.

  A number has three texts. Its literal text (`text`) is the shortest decimal that reads
  back, always with a point or an exponent. Its display text (`display`) drops the
  fraction of an integer below 10^16 and keeps the sign of zero. Its tree text (`plain`)
  writes every integer out in full, without a sign for zero.
-/

import Lox.Number.Layout

namespace Lox.Number

/-- A point is used from 10^-4 up to and not with 10^16; exponents have two digits. -/
def layout : Layout := ⟨-4, 15, 2⟩

def signed (negative : Bool) (text : String) : String := if negative then "-" ++ text else text

def Finite.text (x : Finite) : String :=
  signed x.negative (if x.mantissa = 0 then "0.0" else layout.render x.shortest)

def text (x : Float) : String :=
  match parts x with
  | .nan => "nan"
  | .infinite negative => signed negative "inf"
  | .finite value => value.text

/-- From here on an integer is displayed by its shortest decimal. -/
def displayLimit : Nat := Nat.pow 10 16

def display (x : Float) : String :=
  match parts x with
  | .finite value =>
    match value.whole? with
    | some n => if n < displayLimit then signed value.negative n.repr else value.text
    | none => value.text
  | _ => text x

def plain (x : Float) : String :=
  match parts x with
  | .finite value =>
    match value.whole? with
    | some n => signed (value.negative && n != 0) n.repr
    | none => value.text
  | _ => text x

/-! ## Reading -/

def digitsValue (digits : List Char) : Nat :=
  digits.foldl (fun n c => 10 * n + (c.toNat - '0'.toNat)) 0

/-- The nearest double to digits with an optional point among them. -/
def read (literal : String) : Float :=
  let whole := literal.toList.takeWhile (· != '.')
  let places := (literal.toList.dropWhile (· != '.')).drop 1
  Float.ofScientific (digitsValue (whole ++ places)) true places.length

end Lox.Number
