/-
# Integers in decimal

An integer is written with the digits of its absolute value after a minus sign where it is
negative.

* `integerText_injective` : different integers have different texts.
-/

namespace GenericIR

/-- The decimal text of an integer. -/
def integerText (n : Int) : List Char :=
  if n < 0 then '-' :: Nat.toDigits 10 n.natAbs else Nat.toDigits 10 n.natAbs

/-- Different natural numbers have different digits. -/
theorem toDigits_injective {m n : Nat} (h : Nat.toDigits 10 m = Nat.toDigits 10 n) : m = n := by
  have hm := Nat.ofDigitChars_toDigits (n := m) (b := 10) (by decide) (by decide)
  have hn := Nat.ofDigitChars_toDigits (n := n) (b := 10) (by decide) (by decide)
  rw [← hm, h, hn]

/-- No digit is a minus sign. -/
theorem minus_not_mem_toDigits (n : Nat) : '-' ∉ Nat.toDigits 10 n := fun h => by
  have hd := Nat.isDigit_of_mem_toDigits (by decide) (by decide) h
  exact absurd hd (by decide)

/-- Different integers have different texts. -/
theorem integerText_injective {m n : Int} (h : integerText m = integerText n) : m = n := by
  unfold integerText at h
  split at h <;> split at h
  · have hd := toDigits_injective (List.cons.inj h).2
    omega
  · exact absurd (h ▸ List.mem_cons_self) (minus_not_mem_toDigits _)
  · exact absurd (h.symm ▸ List.mem_cons_self) (minus_not_mem_toDigits _)
  · have hd := toDigits_injective h
    omega

end GenericIR
