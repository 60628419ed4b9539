/-
  Lox.Number.Layout — how a decimal is written down.

  A value whose leading digit stands between `leastPlace` and `mostPlace` is written
  with a point among its digits, all others with one digit before the point and an
  exponent. A written decimal has a point or an exponent, so that it is told apart from
  an integer.
-/

import Lox.Number.Shortest

namespace Lox.Number

structure Layout where
  /-- The power of ten of the leading digit from which a point is used. -/
  leastPlace : Int
  /-- The last power of ten of the leading digit at which a point is used. -/
  mostPlace : Int
  /-- An exponent has at least so many digits. -/
  exponentWidth : Nat

def zeros (n : Nat) : String := String.ofList (List.replicate n '0')

def padded (width n : Nat) : String := zeros (width - n.repr.length) ++ n.repr

namespace Layout

/-- Digits with the point behind the first `point` of them. -/
def positional (digits : List Char) (point : Int) : String :=
  if point ≤ 0 then "0." ++ zeros (-point).toNat ++ String.ofList digits
  else if digits.length ≤ point.toNat then
    String.ofList digits ++ zeros (point.toNat - digits.length) ++ ".0"
  else String.ofList (digits.take point.toNat) ++ "." ++ String.ofList (digits.drop point.toNat)

def scientific (layout : Layout) (digits : List Char) (place : Int) : String :=
  let exponent := (if place < 0 then "e-" else "e+") ++ padded layout.exponentWidth place.natAbs
  match digits with
  | [] => exponent
  | [digit] => String.ofList [digit] ++ exponent
  | digit :: rest => String.ofList (digit :: '.' :: rest) ++ exponent

def render (layout : Layout) (d : Decimal) : String :=
  let digits := d.digits.repr.toList
  let point := digits.length + d.exponent
  if layout.leastPlace ≤ point - 1 && point - 1 ≤ layout.mostPlace then positional digits point
  else layout.scientific digits (point - 1)

end Layout

end Lox.Number
