/-
# Decimal numbers and the doubles nearest to them

A `Decimal` is a natural number times a power of ten.  `Decimal.toBinary64` reads it as the
nearest double, a tie going to the even magnitude; a decimal beyond the largest finite
double by half a step or more becomes infinite.

* `roundDiv_mul` : a quotient without remainder is not changed by rounding.
-/
import GenericIR.Binary64.Basic

namespace GenericIR

/-! ## Rounding a quotient -/

/-- Where a number halfway between two whole numbers goes. -/
inductive Tie where
  | toEven
  | up
deriving DecidableEq, Repr

/-- The whole number nearest to a quotient. -/
def roundDiv (tie : Tie) (num den : Nat) : Nat :=
  let low := num / den
  let twice := 2 * (num % den)
  if twice < den then low
  else if den < twice then low + 1
  else match tie with
    | .toEven => low + low % 2
    | .up => low + 1

/-- A quotient without remainder is not changed by rounding. -/
theorem roundDiv_mul (tie : Tie) (q den : Nat) (hden : 0 < den) :
    roundDiv tie (q * den) den = q := by
  simp [roundDiv, Nat.mul_div_cancel q hden, hden]

/-! ## Decimals -/

/-- The number `digits * 10 ^ exponent`. -/
structure Decimal where
  digits : Nat
  exponent : Int
deriving DecidableEq, Repr

namespace Decimal

/-- Numerator of a decimal as a quotient of whole numbers. -/
def num (d : Decimal) : Nat := d.digits * Nat.pow 10 d.exponent.toNat

/-- Denominator of a decimal as a quotient of whole numbers. -/
def den (d : Decimal) : Nat := Nat.pow 10 (-d.exponent).toNat

/-- The denominator is never zero. -/
theorem den_pos (d : Decimal) : 0 < d.den := Nat.pow_pos (by decide)

end Decimal

/-! ## The nearest double -/

namespace Binary64

/-- The magnitude nearest to a quotient: the significand takes the 53 leading bits of the
quotient, or fewer where it runs out of steps. -/
def nearest (num den : Nat) : Nat :=
  let steps := num * Nat.pow 2 1074
  let shift := Nat.log2 (steps / den) - 52
  min infinite (shift * Nat.pow 2 52 + roundDiv .toEven steps (den * Nat.pow 2 shift))

end Binary64

namespace Decimal

/-- The magnitude nearest to a decimal.  Decimals from `10 ^ 400` on are infinite and those
below `10 ^ -400` are zero, which saves working out their powers of ten. -/
def magnitude (d : Decimal) : Nat :=
  if d.digits = 0 then 0
  else if 400 < d.exponent then Binary64.infinite
  else if d.exponent + Nat.log2 d.digits < -401 then 0
  else Binary64.nearest d.num d.den

/-- The double nearest to a decimal under a sign, which zero keeps too. -/
def toBinary64 (negative : Bool) (d : Decimal) : Binary64 :=
  Binary64.ofMagnitude negative d.magnitude

end Decimal

end GenericIR
