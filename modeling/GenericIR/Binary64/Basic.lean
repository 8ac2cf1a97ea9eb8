/-
# Floating-point numbers of 64 bits

A `Binary64` is a sign bit over a magnitude.  The magnitudes number the doubles upwards
from zero, infinity and the not-a-numbers coming last, so that neighbouring doubles have
neighbouring magnitudes.  `units` gives the value of a finite magnitude as a whole number
of steps of `2 ^ -1074`, the smallest positive double.

* `Binary64.ofMagnitude_magnitude` : a number is its sign and its magnitude.
-/

namespace GenericIR

/-- A double, given by its bits. -/
structure Binary64 where
  bits : UInt64
deriving DecidableEq, Repr

namespace Binary64

/-! ## Sign and magnitude -/

/-- Whether the sign bit is set. -/
def negative (x : Binary64) : Bool := decide (Nat.pow 2 63 ≤ x.bits.toNat)

/-- The bits below the sign. -/
def magnitude (x : Binary64) : Nat := x.bits.toNat % Nat.pow 2 63

/-- The double of a sign and a magnitude below `2 ^ 63`. -/
def ofMagnitude (negative : Bool) (n : Nat) : Binary64 :=
  ⟨UInt64.ofNat (if negative then Nat.pow 2 63 + n else n)⟩

/-- A number is its sign and its magnitude. -/
theorem ofMagnitude_magnitude (x : Binary64) : ofMagnitude x.negative x.magnitude = x := by
  obtain ⟨b⟩ := x
  have hb : b.toNat < Nat.pow 2 63 + Nat.pow 2 63 := b.toNat_lt
  by_cases h : Nat.pow 2 63 ≤ b.toNat
  · have key : Nat.pow 2 63 + b.toNat % Nat.pow 2 63 = b.toNat := by
      rw [Nat.mod_eq_sub_mod h, Nat.mod_eq_of_lt (by omega)]
      omega
    rw [ofMagnitude, negative, magnitude, decide_eq_true h, if_pos rfl, key, UInt64.ofNat_toNat]
  · have key : b.toNat % Nat.pow 2 63 = b.toNat := Nat.mod_eq_of_lt (Nat.lt_of_not_le h)
    rw [ofMagnitude, negative, magnitude, decide_eq_false h, if_neg Bool.false_ne_true, key,
      UInt64.ofNat_toNat]

/-- The magnitude of infinity, one above the largest finite one. -/
def infinite : Nat := 2047 * Nat.pow 2 52

/-- Whether a number is neither infinite nor a not-a-number. -/
def isFinite (x : Binary64) : Bool := decide (x.magnitude < infinite)

/-- Whether a number is a not-a-number. -/
def isNaN (x : Binary64) : Bool := decide (infinite < x.magnitude)

/-! ## The value of a magnitude -/

/-- The significand: 52 bits, with a leading one from the least normal number on. -/
def significand (n : Nat) : Nat :=
  if n < Nat.pow 2 52 then n else Nat.pow 2 52 + n % Nat.pow 2 52

/-- The value of a magnitude in steps of `2 ^ -1074`; infinity counts as `2 ^ 1024`. -/
def units (n : Nat) : Nat := significand n * Nat.pow 2 (n / Nat.pow 2 52 - 1)

end Binary64

end GenericIR
