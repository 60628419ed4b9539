/-
  Lox.Number.Parts — a double taken apart: what it is, its sign, and for a finite one
  the integers `mantissa` and `exponent` with magnitude mantissa · 2^exponent.

  The parts come from the 64 bits: sign, eleven bits of exponent, 52 of fraction
  (`mantissa_lt`: a finite mantissa has at most 53 bits). A finite double is whole when
  the power of two does not cut into its mantissa (`Finite.whole?`).
-/

namespace Lox.Number

structure Finite where
  negative : Bool
  mantissa : Nat
  exponent : Int
  deriving DecidableEq, Repr

inductive Parts where
  | nan
  | infinite (negative : Bool)
  | finite (value : Finite)
  deriving DecidableEq, Repr

/-- The weight of the bit in front of the fraction, which is 2^52. -/
def leadingBit : Nat := Nat.pow 2 52

/-- The exponent that the smallest doubles share. -/
def leastExponent : Int := -1074

def parts (x : Float) : Parts :=
  let bits := x.toBits.toNat
  let fraction := bits % leadingBit
  let biased := bits / leadingBit % 2048
  let negative : Bool := bits / leadingBit / 2048 = 1
  if biased = 2047 then
    if fraction = 0 then .infinite negative else .nan
  else if biased = 0 then .finite ⟨negative, fraction, leastExponent⟩
  else .finite ⟨negative, fraction + leadingBit, leastExponent + (biased - 1 : Nat)⟩

/-- The magnitude, if it is an integer. -/
def Finite.whole? (x : Finite) : Option Nat :=
  if 0 ≤ x.exponent then some (x.mantissa * Nat.pow 2 x.exponent.toNat)
  else if x.mantissa % Nat.pow 2 (-x.exponent).toNat = 0 then
    some (x.mantissa / Nat.pow 2 (-x.exponent).toNat)
  else none

theorem mantissa_lt (x : Float) (value : Finite) (h : parts x = .finite value) :
    value.mantissa < 2 * leadingBit := by
  have bound : x.toBits.toNat % leadingBit < leadingBit := Nat.mod_lt _ (by decide)
  simp only [parts] at h
  split at h
  · split at h <;> cases h
  · split at h <;> cases h <;> dsimp only <;> omega

end Lox.Number
