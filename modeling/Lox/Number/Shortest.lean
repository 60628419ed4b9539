/-
  Lox.Number.Shortest — the shortest decimal that reads back to a given double.

  The reals that round to a double form an interval around it; its ends belong to it
  when the mantissa is even. For 1, 2, … digits the two neighbours of the double on that
  decimal grid are tested against the interval, in exact arithmetic; the first grid with
  a hit wins, of two hits the nearer one, of two equally near ones the even one. What is
  chosen lies in the interval (`holds_of_nearest?`), so it reads back.
-/

import Lox.Number.Parts

namespace Lox.Number

/-- The value digits · 10^exponent. -/
structure Decimal where
  digits : Nat
  exponent : Int
  deriving DecidableEq, Repr

/-- The reals between low / unit and high / unit, around value / unit. -/
structure Interval where
  low : Nat
  value : Nat
  high : Nat
  unit : Nat
  closed : Bool
  deriving Repr

/-! ## The rounding interval -/

/-- Halfway to the two neighbouring doubles; the neighbour below a power of two is
half as far away as the one above. -/
def Finite.interval (x : Finite) : Interval :=
  let below := if x.mantissa = leadingBit && x.exponent != leastExponent then 1 else 2
  let up := Nat.pow 2 x.exponent.toNat
  { low := (4 * x.mantissa - below) * up
    value := 4 * x.mantissa * up
    high := (4 * x.mantissa + 2) * up
    unit := 4 * Nat.pow 2 (-x.exponent).toNat
    closed := x.mantissa % 2 = 0 }

namespace Interval

/-- The same interval measured in units of 10^exponent. -/
def scale (i : Interval) (exponent : Int) : Interval :=
  let up := Nat.pow 10 (-exponent).toNat
  { i with
    low := i.low * up
    value := i.value * up
    high := i.high * up
    unit := i.unit * Nat.pow 10 exponent.toNat }

def holds (i : Interval) (candidate : Nat) : Bool :=
  if i.closed then i.low ≤ candidate * i.unit && candidate * i.unit ≤ i.high
  else i.low < candidate * i.unit && candidate * i.unit < i.high

/-! ## Candidates -/

/-- The neighbour on the integer grid that lies in the interval: the nearer of two, the
even one where both are equally near. -/
def nearest? (i : Interval) : Option Nat :=
  let down := i.value / i.unit
  let up := down + 1
  match i.holds down, i.holds up with
  | true, true =>
    let before := i.value - down * i.unit
    let after := up * i.unit - i.value
    if before < after || before = after && down % 2 = 0 then some down else some up
  | true, false => some down
  | false, true => some up
  | false, false => none

/-- The number of digits before the point, not positive for values below a tenth. -/
def point (i : Interval) : Int :=
  if i.unit ≤ i.value then ((i.value / i.unit).repr.length : Int)
  else 1 - ((i.unit / i.value).repr.length : Int)

/-- The first hit on `count` grids, from `width` digits on. -/
def search? (i : Interval) (point : Int) : (count width : Nat) → Option Decimal
  | 0, _ => none
  | count + 1, width =>
    match (i.scale (point - width)).nearest? with
    | some digits =>
      some (if digits = Nat.pow 10 width then ⟨1, point⟩ else ⟨digits, point - width⟩)
    | none => search? i point count (width + 1)

theorem holds_of_nearest? (i : Interval) (n : Nat) (h : i.nearest? = some n) : i.holds n = true := by
  simp only [nearest?] at h
  split at h
  next hd hu => split at h <;> cases h <;> assumption
  next hd hu => cases h; exact hd
  next hd hu => cases h; exact hu
  next => cases h

end Interval

/-- Every binary fraction is a decimal one. -/
def Finite.exact (x : Finite) : Decimal :=
  if 0 ≤ x.exponent then ⟨x.mantissa * Nat.pow 2 x.exponent.toNat, 0⟩
  else ⟨x.mantissa * Nat.pow 5 (-x.exponent).toNat, x.exponent⟩

/-- Seventeen digits tell all doubles apart. -/
def mostDigits : Nat := 17

/-- The shortest decimal that reads back to a value that is not zero. -/
def Finite.shortest (x : Finite) : Decimal :=
  (x.interval.search? x.interval.point mostDigits 1).getD x.exact

end Lox.Number
