/-
# The interval of a double

The numbers that read as a magnitude lie between the midpoints to its two neighbours, and a
midpoint reads as the even one of the two.  The intervals of different magnitudes have no
number in common, and the shortest decimal of a magnitude lies in its interval.  Midpoints
are counted in half steps of `2 ^ -1075`.

* `Binary64.units_strictMono` : magnitudes number the doubles upwards;
* `Binary64.Reads.unique` : a number reads as one magnitude only;
* `Decimal.shortest_reads` : the shortest decimal of a magnitude reads as it.
-/
import GenericIR.Binary64.Shortest
import Mathlib.Tactic.Ring
import Mathlib.Tactic.NormNum
import Mathlib.Tactic.FieldSimp
import Mathlib.Data.Rat.Cast.Order
import Mathlib.Algebra.Order.Field.Basic
import Mathlib.Order.Monotone.Basic

namespace GenericIR

namespace Binary64

/-! ## Magnitudes number the doubles upwards -/

/-- The next magnitude is a larger double. -/
theorem units_lt_units_succ (n : Nat) : units n < units (n + 1) := by
  have hB : Nat.pow 2 52 = 4503599627370496 := rfl
  by_cases hlast : (n + 1) % 4503599627370496 = 0
  · -- The next one has the least significand of the next power of two.
    have hblock : (n + 1) / 4503599627370496 = n / 4503599627370496 + 1 := by omega
    simp only [units, significand, hB, hlast, hblock, Nat.add_sub_cancel]
    by_cases hsmall : n < 4503599627370496
    · have hzero : n / 4503599627370496 = 0 := by omega
      have hnot : ¬n + 1 < 4503599627370496 := by omega
      rw [hzero, if_pos hsmall, if_neg hnot, Nat.add_zero]
      have hone : Nat.pow 2 0 = 1 := rfl
      rw [hone]
      omega
    · obtain ⟨k, hk⟩ : ∃ k, n / 4503599627370496 = k + 1 := ⟨n / 4503599627370496 - 1, by omega⟩
      have hnot : ¬n + 1 < 4503599627370496 := by omega
      have hpos : 0 < Nat.pow 2 k := Nat.pow_pos (by decide)
      have hdouble : Nat.pow 2 (k + 1) = Nat.pow 2 k * 2 := rfl
      rw [hk, if_neg hsmall, if_neg hnot, Nat.add_sub_cancel, hdouble]
      have hsig : 4503599627370496 + n % 4503599627370496 < 4503599627370496 * 2 := by omega
      calc (4503599627370496 + n % 4503599627370496) * Nat.pow 2 k
          < 4503599627370496 * 2 * Nat.pow 2 k := Nat.mul_lt_mul_of_pos_right hsig hpos
        _ = (4503599627370496 + 0) * (Nat.pow 2 k * 2) := by ring
  · -- The next one has the next significand.
    have hblock : (n + 1) / 4503599627370496 = n / 4503599627370496 := by omega
    have hsig : significand n < significand (n + 1) := by
      simp only [significand, hB]
      split <;> split <;> omega
    rw [units, units, hB, hblock]
    exact Nat.mul_lt_mul_of_pos_right hsig (Nat.pow_pos (by decide))

/-- Magnitudes number the doubles upwards. -/
theorem units_strictMono : StrictMono units := strictMono_nat_of_lt_succ units_lt_units_succ

/-! ## Intervals -/

/-- The midpoint between a magnitude and the one before it, in half steps. -/
def lower (n : Nat) : Nat := units (n - 1) + units n

/-- The midpoint between a magnitude and the next one, in half steps. -/
def upper (n : Nat) : Nat := units n + units (n + 1)

/-- The midpoint above a magnitude is the one below the next. -/
theorem upper_eq_lower_succ (n : Nat) : upper n = lower (n + 1) := rfl

/-- The midpoint below a larger magnitude is larger. -/
theorem lower_strictMono : StrictMono lower := by
  intro m n hmn
  have hpred : units (m - 1) ≤ units (n - 1) := units_strictMono.monotone (by omega)
  have hself : units m < units n := units_strictMono hmn
  exact Nat.add_lt_add_of_le_of_lt hpred hself

/-- A number of half steps reads as a magnitude if it lies between the midpoints around it, or
on one of them where the magnitude is even. -/
def Reads (v : ℚ) (n : Nat) : Prop :=
  if n % 2 = 0 then lower n ≤ v ∧ v ≤ upper n else lower n < v ∧ v < upper n

/-- Zero reads as the least magnitude. -/
theorem reads_zero : Reads 0 0 := by
  have hlower : lower 0 = 0 := rfl
  rw [Reads, if_pos rfl, hlower]
  exact ⟨by simp, Nat.cast_nonneg _⟩

/-- What reads as a magnitude lies between the midpoints around it. -/
theorem Reads.le {v : ℚ} {n : Nat} (h : Reads v n) : lower n ≤ v ∧ v ≤ upper n := by
  unfold Reads at h
  split at h
  · exact h
  · exact ⟨h.1.le, h.2.le⟩

/-- No number reads as two magnitudes. -/
theorem Reads.not_reads_of_lt {v : ℚ} {m n : Nat} (hmn : m < n) (hm : Reads v m) :
    ¬Reads v n := by
  intro hn
  have hbetween : lower n ≤ lower (m + 1) := by
    exact_mod_cast hn.le.1.trans hm.le.2
  -- Only neighbours share a midpoint, and one of them is odd.
  have hnext : n = m + 1 := by
    have hle := lower_strictMono.le_iff_le.mp hbetween
    omega
  subst hnext
  have hmid : v = upper m := le_antisymm hm.le.2 hn.le.1
  unfold Reads at hm hn
  split at hm
  · rw [if_neg (by omega), hmid, upper_eq_lower_succ] at hn
    exact lt_irrefl _ hn.1
  · rw [hmid] at hm
    exact lt_irrefl _ hm.2

/-- A number reads as one magnitude only. -/
theorem Reads.unique {v : ℚ} {m n : Nat} (hm : Reads v m) (hn : Reads v n) : m = n := by
  obtain hlt | heq | hgt := Nat.lt_trichotomy m n
  · exact absurd hn (hm.not_reads_of_lt hlt)
  · exact heq
  · exact absurd hm (hn.not_reads_of_lt hgt)

end Binary64

namespace Decimal

/-! ## The value of a decimal -/

/-- The value of a decimal. -/
def value (d : Decimal) : ℚ := d.digits * 10 ^ d.exponent

/-- The value is the quotient of numerator and denominator. -/
theorem value_eq_div (d : Decimal) : d.value = d.num / d.den := by
  obtain ⟨digits, exponent⟩ := d
  obtain ⟨k, rfl | rfl⟩ := exponent.eq_nat_or_neg
  · simp [value, num, den]
  · simp [value, num, den, div_eq_mul_inv]

/-- The value in half steps. -/
def halfSteps (d : Decimal) : ℚ := d.value * (Nat.pow 2 1075 : Nat)

/-- Whether a decimal reads as a magnitude is a matter of its value. -/
theorem readsAs_iff (d : Decimal) (n : Nat) :
    d.readsAs n = true ↔ Binary64.Reads d.halfSteps n := by
  have hden : (0 : ℚ) < d.den := by exact_mod_cast d.den_pos
  unfold readsAs halfSteps
  rw [value_eq_div]
  generalize Nat.pow 2 1075 = scale
  have hscale : (d.num : ℚ) / d.den * scale = (d.num * scale : Nat) / d.den := by
    rw [Nat.cast_mul]
    ring
  simp only [Binary64.Reads, hscale, le_div_iff₀ hden, div_le_iff₀ hden, lt_div_iff₀ hden,
    div_lt_iff₀ hden]
  norm_cast
  split <;> simp [Binary64.lower, Binary64.upper]

/-! ## The shortest decimal -/

/-- Steps of a power of one half are written out in full with as many places. -/
theorem value_mul_five_pow (u : Nat) {k m : Nat} (hm : m = k + 1) :
    (⟨u * Nat.pow 5 k, -(k : Int)⟩ : Decimal).value * (Nat.pow 2 m : Nat) = (2 * u : Nat) := by
  subst hm
  have hten : (10 : ℚ) ^ k = 2 ^ k * 5 ^ k := by rw [← mul_pow]; norm_num
  have htwo : (2 : ℚ) ^ k ≠ 0 := by positivity
  have hfive : (5 : ℚ) ^ k ≠ 0 := by positivity
  simp only [value, Nat.pow_eq, Nat.cast_mul, Nat.cast_pow, Nat.cast_ofNat, zpow_neg,
    zpow_natCast, hten, pow_succ]
  field_simp

/-- A magnitude above zero written out in full reads as itself. -/
theorem exact_reads (n : Nat) (hn : 0 < n) : Binary64.Reads (exact n).halfSteps n := by
  have hvalue : (exact n).halfSteps = (2 * Binary64.units n : Nat) := by
    -- The powers stay symbolic: Lean would otherwise work them out.
    obtain ⟨k, hk⟩ : ∃ k : Nat, k = 1074 := ⟨_, rfl⟩
    obtain ⟨m, hm⟩ : ∃ m : Nat, m = 1075 := ⟨_, rfl⟩
    have hplaces : (-1074 : Int) = -((1074 : Nat) : Int) := rfl
    rw [halfSteps, exact, hplaces, ← hk, ← hm]
    exact value_mul_five_pow (Binary64.units n) (by omega)
  have hlower : Binary64.lower n < 2 * Binary64.units n := by
    have hpred := Binary64.units_strictMono (show n - 1 < n by omega)
    unfold Binary64.lower
    omega
  have hupper : 2 * Binary64.units n < Binary64.upper n := by
    have hnext := Binary64.units_lt_units_succ n
    unfold Binary64.upper
    omega
  rw [hvalue, Binary64.Reads]
  norm_cast
  split
  · exact ⟨hlower.le, hupper.le⟩
  · exact ⟨hlower, hupper⟩

/-- A rounded quotient is one of the two whole numbers next to the quotient. -/
theorem roundDiv_eq_or (tie : Tie) (num den : Nat) :
    roundDiv tie num den = num / den ∨ roundDiv tie num den = num / den + 1 := by
  unfold roundDiv
  dsimp only
  split
  · exact .inl rfl
  · split
    · exact .inr rfl
    · split
      · omega
      · exact .inr rfl

/-- What is found on a grid reads as the magnitude. -/
theorem onGrid_readsAs {tie : Tie} {n : Nat} {exponent : Int} {d : Decimal}
    (h : onGrid tie n exponent = some d) : d.readsAs n = true := by
  unfold onGrid at h
  generalize 2 * Binary64.units n * Nat.pow 10 (-exponent).toNat = num at h
  generalize Nat.pow 2 1075 * Nat.pow 10 exponent.toNat = den at h
  dsimp only at h
  split at h
  · next hlow hhigh =>
      cases h
      obtain hround | hround := roundDiv_eq_or tie num den
      · rw [hround]
        exact hlow
      · rw [hround]
        exact hhigh
  · next hlow _ => cases h; exact hlow
  · next _ hhigh => cases h; exact hhigh
  · cases h

/-- The shortest decimal of a magnitude reads as it. -/
theorem shortest_reads (tie : Tie) (n : Nat) :
    Binary64.Reads (shortest tie n).halfSteps n := by
  unfold shortest
  split
  · next h =>
      have hzero : halfSteps ⟨0, 0⟩ = 0 := by simp only [halfSteps, value, Nat.cast_zero, zero_mul]
      rw [h, hzero]
      exact Binary64.reads_zero
  · next h =>
      cases hfound : (List.range 650).findSome? fun (k : Nat) => onGrid tie n (309 - k) with
      | none => exact exact_reads n (Nat.pos_of_ne_zero h)
      | some d =>
          obtain ⟨k, _, hk⟩ := List.exists_of_findSome?_eq_some hfound
          exact (readsAs_iff d n).mp (onGrid_readsAs hk)

/-- The shortest decimals of different magnitudes have different values. -/
theorem shortest_value_injective {tie : Tie} {m n : Nat}
    (h : (shortest tie m).value = (shortest tie n).value) : m = n := by
  have hm := shortest_reads tie m
  rw [halfSteps, h] at hm
  exact hm.unique (shortest_reads tie n)

/-- The shortest decimal without digits is that of zero. -/
theorem shortest_of_digits_eq_zero {tie : Tie} {n : Nat} (h : (shortest tie n).digits = 0) :
    shortest tie n = ⟨0, 0⟩ := by
  have hvalue : (shortest tie n).value = (shortest tie 0).value := by
    have hzero : (shortest tie 0).digits = 0 := rfl
    simp [value, h, hzero]
  rw [shortest_value_injective hvalue]
  rfl

end Decimal

end GenericIR
