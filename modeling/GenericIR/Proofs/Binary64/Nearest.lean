/-
# The nearest double

A decimal is read as a magnitude in whose interval it lies: its numerator in steps of
`2 ^ -1074` is cut to 53 bits, which gives a significand within half a unit of the quotient, and
the magnitudes next to it are a unit away.  What lies in the interval of a magnitude is nowhere
nearer to another double, so the double that is read is the nearest one.

* `Binary64.units_block` : magnitudes in blocks of one exponent;
* `Binary64.nearest_reads`, `Decimal.magnitude_reads` : a decimal lies in the interval of the
  magnitude it is read as;
* `Binary64.NearestTo`, `Decimal.nearestTo_toBinary64` : the nearest double, to even between two;
* `Binary64.NearestTo.unique` : no other double of the same sign is the nearest.
-/
import GenericIR.Proofs.Binary64.Interval
import Mathlib.Algebra.Order.AbsoluteValue.Basic
import Mathlib.Tactic.Linarith

namespace GenericIR

/-! ## Rounded quotients -/

/-- A rounded quotient is within half a unit of the quotient, and within less where it is odd. -/
theorem roundDiv_bounds {num den : Nat} (hden : 0 < den) :
    2 * roundDiv .toEven num den * den ≤ 2 * num + den ∧
      2 * num ≤ 2 * roundDiv .toEven num den * den + den ∧
      (roundDiv .toEven num den % 2 = 1 →
        2 * roundDiv .toEven num den * den < 2 * num + den ∧
          2 * num < 2 * roundDiv .toEven num den * den + den) := by
  have hdiv := Nat.div_add_mod num den
  have hmod := Nat.mod_lt num hden
  have hlow : 2 * (num / den) * den = 2 * (den * (num / den)) := by ring
  have hnext : 2 * (num / den + 1) * den = 2 * (den * (num / den)) + 2 * den := by ring
  unfold roundDiv
  dsimp only
  split
  · rw [hlow]
    omega
  · split
    · rw [hnext]
      omega
    · rcases Nat.mod_two_eq_zero_or_one (num / den) with heven | hodd
      · rw [heven, Nat.add_zero, hlow]
        omega
      · rw [hodd, hnext]
        omega

namespace Binary64

/-! ## Blocks of one exponent -/

/-- Magnitudes in the block of an exponent have their significands as units of it. -/
theorem units_block {k m : Nat} (hk : k = 0 ∨ Nat.pow 2 52 ≤ m) (hm : m ≤ Nat.pow 2 53) :
    units (k * Nat.pow 2 52 + m) = m * 2 ^ k := by
  have hB : Nat.pow 2 52 = 4503599627370496 := rfl
  have hC : Nat.pow 2 53 = 9007199254740992 := rfl
  rw [hB] at hk ⊢
  rw [hC] at hm
  simp only [units, significand, hB]
  by_cases hlast : m = 9007199254740992
  · -- the end of a block is the start of the next one
    have hblock : (k * 4503599627370496 + m) / 4503599627370496 = k + 2 := by omega
    have hrest : (k * 4503599627370496 + m) % 4503599627370496 = 0 := by omega
    rw [if_neg (by omega), hblock, hrest, hlast]
    show 4503599627370496 * 2 ^ (k + 1) = _
    rw [pow_succ]
    ring
  · by_cases hsmall : k * 4503599627370496 + m < 4503599627370496
    · have hzero : k = 0 := by omega
      have hblock : (k * 4503599627370496 + m) / 4503599627370496 = 0 := by omega
      rw [if_pos hsmall, hblock, hzero, Nat.zero_mul, Nat.zero_add]
      rfl
    · rw [if_neg hsmall]
      by_cases hnormal : 4503599627370496 ≤ m
      · have hblock : (k * 4503599627370496 + m) / 4503599627370496 = k + 1 := by omega
        have hrest : 4503599627370496 + (k * 4503599627370496 + m) % 4503599627370496 = m := by
          omega
        rw [hblock, hrest]
        rfl
      · omega

/-- The next magnitude of a block is at least a unit of its exponent away. -/
theorem le_units_block_succ {k m : Nat} (hk : k = 0 ∨ Nat.pow 2 52 ≤ m) (hm : m ≤ Nat.pow 2 53) :
    (m + 1) * 2 ^ k ≤ units (k * Nat.pow 2 52 + m + 1) := by
  rcases Nat.lt_or_ge m (Nat.pow 2 53) with hlt | hge
  · have hnext := units_block (hk.imp_right Nat.le_succ_of_le) (Nat.succ_le_of_lt hlt)
    rw [Nat.add_assoc, hnext]
  · obtain rfl := Nat.le_antisymm hm hge
    have hnext : k * Nat.pow 2 52 + Nat.pow 2 53 + 1 =
        (k + 1) * Nat.pow 2 52 + (Nat.pow 2 52 + 1) := by
      have hB : Nat.pow 2 52 = 4503599627370496 := rfl
      have hC : Nat.pow 2 53 = 9007199254740992 := rfl
      rw [hB, hC]
      omega
    rw [hnext, units_block (Or.inr (Nat.le_succ _)) (by decide), pow_succ]
    have hpow : 0 < 2 ^ k := Nat.pow_pos (by decide)
    calc (Nat.pow 2 53 + 1) * 2 ^ k ≤ (Nat.pow 2 52 + 1) * 2 * 2 ^ k :=
          Nat.mul_le_mul_right _ (by decide)
      _ = (Nat.pow 2 52 + 1) * (2 ^ k * 2) := by ring

/-- The magnitude before one of a block is a unit of its exponent away, but at the start of the
block of an exponent above the least. -/
theorem units_block_pred {k m : Nat} (hk : k = 0 ∨ Nat.pow 2 52 < m) (hm : m ≤ Nat.pow 2 53) :
    units (k * Nat.pow 2 52 + m - 1) = (m - 1) * 2 ^ k := by
  rcases Nat.eq_zero_or_pos m with rfl | hpos
  · rcases hk with rfl | hk
    · rfl
    · exact absurd hk (Nat.not_lt_zero _)
  · rw [Nat.add_sub_assoc hpos]
    exact units_block (by omega) (by omega)

/-! ## The interval of the magnitude that a quotient is cut to -/

section Block

variable {num den k m : Nat}

/-- A quotient is above the midpoint in front of the magnitude that it is cut to. -/
theorem lower_block_le (hk : k = 0 ∨ Nat.pow 2 52 ≤ num / (den * 2 ^ k)) (hm : m ≤ Nat.pow 2 53)
    (hfloor : num / (den * 2 ^ k) ≤ m) (hbound : 2 * m * (den * 2 ^ k) ≤ 2 * num + den * 2 ^ k)
    (hodd : m % 2 = 1 → 2 * m * (den * 2 ^ k) < 2 * num + den * 2 ^ k) :
    lower (k * Nat.pow 2 52 + m) * den ≤ 2 * num ∧
      (m % 2 = 1 → lower (k * Nat.pow 2 52 + m) * den < 2 * num) := by
  have hunits := units_block (hk.imp_right fun h => h.trans hfloor) hm
  by_cases hinner : k = 0 ∨ Nat.pow 2 52 < m
  · have hlower : lower (k * Nat.pow 2 52 + m) * den + (if m = 0 then 0 else den * 2 ^ k) =
        2 * m * (den * 2 ^ k) := by
      rw [lower, units_block_pred hinner hm, hunits]
      split
      · next hzero => rw [hzero]; ring
      · next hpos =>
          obtain ⟨n, rfl⟩ := Nat.exists_eq_succ_of_ne_zero hpos
          rw [Nat.succ_sub_one]
          simp only [Nat.succ_eq_add_one]
          ring
    split at hlower
    · next hzero =>
        rw [hzero] at hlower ⊢
        omega
    · omega
  · -- at the start of a block the midpoint in front is nearer than half a unit
    rw [not_or, Nat.not_lt] at hinner
    have hstart := hk.resolve_left hinner.1
    have heq : m = Nat.pow 2 52 := Nat.le_antisymm hinner.2 (hstart.trans hfloor)
    have hpred : units (k * Nat.pow 2 52 + m - 1) ≤ units (k * Nat.pow 2 52 + m) :=
      units_strictMono.monotone (Nat.sub_le _ _)
    have hle : lower (k * Nat.pow 2 52 + m) ≤ 2 * (m * 2 ^ k) := by
      rw [hunits] at hpred
      rw [lower, hunits]
      omega
    have hquotient : m * (den * 2 ^ k) ≤ num :=
      (Nat.mul_le_mul_right _ (heq ▸ hstart)).trans (Nat.div_mul_le_self num _)
    refine ⟨?_, fun hone => absurd (heq ▸ hone) (by decide)⟩
    calc lower (k * Nat.pow 2 52 + m) * den ≤ 2 * (m * 2 ^ k) * den := Nat.mul_le_mul_right _ hle
      _ = 2 * (m * (den * 2 ^ k)) := by ring
      _ ≤ 2 * num := Nat.mul_le_mul_left 2 hquotient

/-- A quotient is below the midpoint behind the magnitude that it is cut to. -/
theorem le_upper_block (hk : k = 0 ∨ Nat.pow 2 52 ≤ m) (hm : m ≤ Nat.pow 2 53) :
    2 * m * (den * 2 ^ k) + den * 2 ^ k ≤ upper (k * Nat.pow 2 52 + m) * den := by
  have hnext := Nat.add_le_add_left (le_units_block_succ hk hm) (units (k * Nat.pow 2 52 + m))
  rw [units_block hk hm] at hnext
  calc 2 * m * (den * 2 ^ k) + den * 2 ^ k = (m * 2 ^ k + (m + 1) * 2 ^ k) * den := by ring
    _ ≤ upper (k * Nat.pow 2 52 + m) * den := by
        rw [upper, units_block hk hm]
        exact Nat.mul_le_mul_right _ hnext

/-- A quotient that is cut to 53 bits lies in the interval of the magnitude. -/
theorem reads_block (hden : 0 < den) (hk : k = 0 ∨ Nat.pow 2 52 ≤ num / (den * 2 ^ k))
    (hlt : num / (den * 2 ^ k) < Nat.pow 2 53) :
    Reads ((2 * num : Nat) / (den : ℚ))
      (k * Nat.pow 2 52 + roundDiv .toEven num (den * 2 ^ k)) := by
  have hunit : 0 < den * 2 ^ k := Nat.mul_pos hden (Nat.pow_pos (by decide))
  obtain ⟨hbelow, habove, hodd⟩ := @roundDiv_bounds num _ hunit
  have hround := Decimal.roundDiv_eq_or .toEven num (den * 2 ^ k)
  generalize roundDiv .toEven num (den * 2 ^ k) = m at *
  have hfloor : num / (den * 2 ^ k) ≤ m := by omega
  have hm : m ≤ Nat.pow 2 53 := by omega
  obtain ⟨hlower, hlowerOdd⟩ := lower_block_le hk hm hfloor hbelow fun hone => (hodd hone).1
  have hupper := @le_upper_block den k m (hk.imp_right fun h => h.trans hfloor) hm
  have hparity : (k * Nat.pow 2 52 + m) % 2 = m % 2 := by
    have hB : Nat.pow 2 52 = 4503599627370496 := rfl
    rw [hB]
    omega
  have hpos : (0 : ℚ) < den := by exact_mod_cast hden
  rw [Reads, hparity]
  split
  · rw [le_div_iff₀ hpos, div_le_iff₀ hpos]
    exact ⟨by exact_mod_cast hlower, by exact_mod_cast habove.trans hupper⟩
  · next hone =>
      have hone : m % 2 = 1 := by omega
      rw [lt_div_iff₀ hpos, div_lt_iff₀ hpos]
      exact ⟨by exact_mod_cast hlowerOdd hone, by exact_mod_cast (hodd hone).2.trans_le hupper⟩

end Block

/-! ## Rounding with overflow -/

/-- Whether a number of half steps is rounded to a magnitude: a finite one in whose interval it
lies, or infinity from the midpoint in front of it on. -/
def RoundsTo (v : ℚ) (n : Nat) : Prop :=
  (n < infinite ∧ Reads v n) ∨ (n = infinite ∧ lower infinite ≤ v)

/-- What reads as a magnitude is rounded to it, or to infinity where it is not finite. -/
theorem Reads.roundsTo {v : ℚ} {n : Nat} (h : Reads v n) : RoundsTo v (min infinite n) := by
  rcases Nat.lt_or_ge n infinite with hlt | hge
  · rw [Nat.min_eq_right hlt.le]
    exact Or.inl ⟨hlt, h⟩
  · rw [Nat.min_eq_left hge]
    have hlower : (lower infinite : ℚ) ≤ lower n := by
      exact_mod_cast lower_strictMono.monotone hge
    exact Or.inr ⟨rfl, hlower.trans h.le.1⟩

/-- The number of bits beyond 53 that are cut off leaves 53 of them, or fewer where none is cut
off. -/
theorem shift_bounds (q : Nat) :
    (Nat.log2 q - 52 = 0 ∨ Nat.pow 2 52 ≤ q / 2 ^ (Nat.log2 q - 52)) ∧
      q / 2 ^ (Nat.log2 q - 52) < Nat.pow 2 53 := by
  have hpos : 0 < 2 ^ (Nat.log2 q - 52) := Nat.pow_pos (by decide)
  simp only [Nat.pow_eq]
  constructor
  · rcases Nat.eq_zero_or_pos (Nat.log2 q - 52) with hzero | hbits
    · exact Or.inl hzero
    · have hq : q ≠ 0 := by
        rintro rfl
        exact absurd hbits (by decide)
      refine Or.inr ((Nat.le_div_iff_mul_le hpos).mpr ?_)
      rw [← Nat.pow_add, show 52 + (Nat.log2 q - 52) = Nat.log2 q by omega]
      exact Nat.log2_self_le hq
  · refine Nat.div_lt_of_lt_mul ?_
    rw [← Nat.pow_add]
    exact Nat.lt_log2_self.trans_le (Nat.pow_le_pow_right (by decide) (by omega))

/-- The magnitude nearest to a quotient is what the quotient is rounded to. -/
theorem nearest_roundsTo (num : Nat) {den : Nat} (hden : 0 < den) :
    RoundsTo ((num : ℚ) / den * 2 ^ 1075) (nearest num den) := by
  have hsteps : (num : ℚ) / den * 2 ^ 1075 = (2 * (num * Nat.pow 2 1074) : Nat) / (den : ℚ) := by
    -- The powers stay symbolic: Lean would otherwise work them out.
    obtain ⟨j, hj⟩ : ∃ j : Nat, j = 1074 := ⟨_, rfl⟩
    rw [show 1075 = j + 1 by omega, ← hj]
    simp only [Nat.pow_eq]
    push_cast
    ring
  obtain ⟨hk, hlt⟩ := shift_bounds (num * Nat.pow 2 1074 / den)
  rw [Nat.div_div_eq_div_mul] at hk hlt
  rw [hsteps]
  exact (reads_block hden hk hlt).roundsTo

/-- The midpoint in front of infinity, as a whole number of half steps. -/
theorem lower_infinite : lower infinite = (2 ^ 54 - 1) * 2 ^ 2045 := by
  have hlast : infinite - 1 = 2045 * Nat.pow 2 52 + (Nat.pow 2 53 - 1) := by decide
  have hself : infinite = 2046 * Nat.pow 2 52 + Nat.pow 2 52 := by decide
  have hbefore : units (infinite - 1) = (Nat.pow 2 53 - 1) * 2 ^ 2045 := by
    rw [hlast]
    exact units_block (Or.inr (by decide)) (by decide)
  have hinfinite : units infinite = Nat.pow 2 52 * 2 ^ 2046 := by
    rw [hself]
    exact units_block (Or.inr (by decide)) (by decide)
  rw [lower, hbefore, hinfinite, show 2046 = 2045 + 1 from rfl, pow_succ]
  generalize 2 ^ 2045 = u
  have hB : Nat.pow 2 52 = 4503599627370496 := rfl
  have hC : Nat.pow 2 53 = 9007199254740992 := rfl
  rw [hB, hC]
  omega

/-- From half a step beyond the largest finite double on, numbers are rounded to infinity. -/
theorem cast_lower_infinite :
    (lower infinite : ℚ) = (2 ^ 1024 - 2 ^ 970) * 2 ^ 1075 := by
  have hinfinite : (2 : ℚ) ^ 1024 = 2 ^ 54 * 2 ^ 970 := pow_add 2 54 970
  have hunit : (2 : ℚ) ^ 2045 = 2 ^ 970 * 2 ^ 1075 := pow_add 2 970 1075
  rw [lower_infinite, Nat.cast_mul, Nat.cast_pow, Nat.cast_ofNat, hinfinite, hunit]
  generalize (2 : ℚ) ^ 970 = a
  generalize (2 : ℚ) ^ 1075 = b
  norm_num
  ring

end Binary64

namespace Decimal

/-! ## Decimals -/

/-- A step of `2 ^ -1074` has two half steps. -/
theorem halfSteps_eq (d : Decimal) : d.halfSteps = d.value * 2 ^ 1075 := by
  obtain ⟨k, hk⟩ : ∃ k : Nat, k = 1075 := ⟨_, rfl⟩
  rw [halfSteps, ← hk, Nat.pow_eq, Nat.cast_pow, Nat.cast_ofNat]

/-- A power of ten is above the power of two with three times the exponent. -/
theorem two_pow_le_ten_pow {k n : Nat} (h : k ≤ 3 * n) : (2 : ℚ) ^ k ≤ 10 ^ n :=
  calc (2 : ℚ) ^ k ≤ 2 ^ (3 * n) := pow_le_pow_right₀ (by norm_num) h
    _ = 8 ^ n := by rw [pow_mul]; norm_num
    _ ≤ 10 ^ n := pow_le_pow_left₀ (by norm_num) (by norm_num) n

/-- Powers of ten are positive. -/
theorem ten_zpow_pos (n : Int) : (0 : ℚ) < 10 ^ n := zpow_pos (by norm_num) n

/-- A decimal with a large exponent is beyond all doubles. -/
theorem le_halfSteps_of_exponent {d : Decimal} (hdigits : d.digits ≠ 0)
    (hexponent : 400 < d.exponent) : (Binary64.lower Binary64.infinite : ℚ) ≤ d.halfSteps := by
  have hone : (1 : ℚ) ≤ d.digits := by exact_mod_cast Nat.pos_of_ne_zero hdigits
  have hten : (10 : ℚ) ^ (401 : Nat) ≤ 10 ^ d.exponent := by
    rw [← zpow_natCast]
    exact zpow_le_zpow_right₀ (by norm_num) (by omega)
  have htwo : (2 : ℚ) ^ 1024 ≤ 10 ^ d.exponent := (two_pow_le_ten_pow (by decide)).trans hten
  have hvalue : (2 : ℚ) ^ 1024 - 2 ^ 970 ≤ d.value :=
    calc (2 : ℚ) ^ 1024 - 2 ^ 970 ≤ 2 ^ 1024 := sub_le_self _ (pow_nonneg (by norm_num) _)
      _ ≤ 10 ^ d.exponent := htwo
      _ ≤ d.value := le_mul_of_one_le_left (ten_zpow_pos _).le hone
  rw [Binary64.cast_lower_infinite, halfSteps_eq]
  exact mul_le_mul_of_nonneg_right hvalue (pow_nonneg (by norm_num) _)

/-- A decimal that is small for its digits is nearer to zero than to any other double. -/
theorem reads_zero_of_exponent {d : Decimal} (h : d.exponent + Nat.log2 d.digits < -401) :
    Binary64.Reads d.halfSteps 0 := by
  have hdigits : (d.digits : ℚ) ≤ 10 ^ (Nat.log2 d.digits + 1) := by
    have hlog : (d.digits : ℚ) ≤ 2 ^ (Nat.log2 d.digits + 1) := by
      exact_mod_cast (Nat.lt_log2_self (n := d.digits)).le
    exact hlog.trans (two_pow_le_ten_pow (by omega))
  have hvalue : d.value ≤ 10 ^ (-(401 : Nat) : Int) :=
    calc d.value ≤ 10 ^ (Nat.log2 d.digits + 1) * 10 ^ d.exponent :=
          mul_le_mul_of_nonneg_right hdigits (ten_zpow_pos _).le
      _ = 10 ^ ((Nat.log2 d.digits + 1 : Nat) + d.exponent) := by
          rw [zpow_add₀ (by norm_num), zpow_natCast]
      _ ≤ 10 ^ (-(401 : Nat) : Int) := zpow_le_zpow_right₀ (by norm_num) (by push_cast; omega)
  have hscale : (2 : ℚ) ^ 1075 ≤ 10 ^ 401 := two_pow_le_ten_pow (by decide)
  have hpower : (0 : ℚ) < 10 ^ 401 := pow_pos (by norm_num) 401
  have hunit : (0 : ℚ) ≤ 2 ^ 1075 := pow_nonneg (by norm_num) 1075
  have hle : d.halfSteps ≤ 1 := by
    rw [zpow_neg, zpow_natCast] at hvalue
    rw [halfSteps_eq]
    calc d.value * 2 ^ 1075 ≤ (10 ^ 401)⁻¹ * 10 ^ 401 :=
          mul_le_mul hvalue hscale hunit (inv_nonneg.mpr hpower.le)
      _ = 1 := inv_mul_cancel₀ hpower.ne'
  have hnonneg : 0 ≤ d.halfSteps := by
    rw [halfSteps_eq]
    exact mul_nonneg (mul_nonneg (Nat.cast_nonneg _) (ten_zpow_pos _).le) hunit
  have hlower : Binary64.lower 0 = 0 := rfl
  have hupper : Binary64.upper 0 = 1 := rfl
  rw [Binary64.Reads, if_pos rfl, hlower, hupper]
  exact ⟨by exact_mod_cast hnonneg, by exact_mod_cast hle⟩

/-- A decimal is rounded to its magnitude. -/
theorem magnitude_roundsTo (d : Decimal) : Binary64.RoundsTo d.halfSteps d.magnitude := by
  have hzero : (0 : Nat) < Binary64.infinite := by decide
  unfold magnitude
  split
  · next hdigits =>
      have hvalue : d.halfSteps = 0 := by
        simp only [halfSteps, value, hdigits, Nat.cast_zero, zero_mul]
      rw [hvalue]
      exact Or.inl ⟨hzero, Binary64.reads_zero⟩
  · next hdigits =>
      split
      · next hlarge => exact Or.inr ⟨rfl, le_halfSteps_of_exponent hdigits hlarge⟩
      · split
        · next hsmall => exact Or.inl ⟨hzero, reads_zero_of_exponent hsmall⟩
        · rw [halfSteps_eq, value_eq_div]
          exact Binary64.nearest_roundsTo d.num d.den_pos

end Decimal

namespace Binary64

/-! ## Distances -/

/-- What lies in the interval of a magnitude is at most as far from it as from another one, and
less far where it is odd. -/
theorem Reads.dist_le {v : ℚ} {n m : Nat} (h : Reads v n) (hne : m ≠ n) :
    |2 * (units n : ℚ) - v| ≤ |2 * (units m : ℚ) - v| ∧
      (n % 2 = 1 → |2 * (units n : ℚ) - v| < |2 * (units m : ℚ) - v|) := by
  have hlower : (lower n : ℚ) = units (n - 1) + units n := by simp [lower]
  have hupper : (upper n : ℚ) = units n + units (n + 1) := by simp [upper]
  have hle := h.le
  rw [hlower, hupper] at hle
  rcases Nat.lt_or_gt_of_ne hne with hlt | hgt
  · have hpred : (units m : ℚ) ≤ units (n - 1) := by
      exact_mod_cast units_strictMono.monotone (by omega : m ≤ n - 1)
    have hself : (units m : ℚ) < units n := by exact_mod_cast units_strictMono hlt
    have hfar : |2 * (units m : ℚ) - v| = v - 2 * units m := by
      rw [abs_of_nonpos (by linarith)]
      ring
    rw [hfar]
    refine ⟨abs_le.mpr ⟨by linarith, by linarith⟩, fun hodd => ?_⟩
    rw [Reads, if_neg (by omega), hlower] at h
    exact abs_lt.mpr ⟨by linarith, by linarith⟩
  · have hnext : (units (n + 1) : ℚ) ≤ units m := by
      exact_mod_cast units_strictMono.monotone (by omega : n + 1 ≤ m)
    have hself : (units n : ℚ) < units m := by exact_mod_cast units_strictMono hgt
    have hfar : |2 * (units m : ℚ) - v| = 2 * units m - v := abs_of_nonneg (by linarith)
    rw [hfar]
    refine ⟨abs_le.mpr ⟨by linarith, by linarith⟩, fun hodd => ?_⟩
    rw [Reads, if_neg (by omega), hupper] at h
    exact abs_lt.mpr ⟨by linarith, by linarith⟩

/-! ## The nearest double -/

/-- The value of a finite double without its sign. -/
def absValue (x : Binary64) : ℚ := units x.magnitude / 2 ^ 1074

/-- The value of a finite double. -/
def toRat (x : Binary64) : ℚ := if x.negative then -x.absValue else x.absValue

/-- Whether a double has a sign and is the nearest to a number: infinite from half a step beyond
the largest finite double on, and otherwise a finite one that no other finite double is nearer
than, of the even magnitude where another one is as near. -/
structure NearestTo (negative : Bool) (v : ℚ) (x : Binary64) : Prop where
  sign : x.negative = negative
  overflow : 2 ^ 1024 - 2 ^ 970 ≤ |v| → x.magnitude = infinite
  finite : |v| < 2 ^ 1024 - 2 ^ 970 → x.isFinite
  nearest : |v| < 2 ^ 1024 - 2 ^ 970 → ∀ y : Binary64, y.isFinite → |x.toRat - v| ≤ |y.toRat - v|
  even : |v| < 2 ^ 1024 - 2 ^ 970 → ∀ y : Binary64, y.isFinite → y.magnitude ≠ x.magnitude →
    |x.toRat - v| = |y.toRat - v| → x.magnitude % 2 = 0

/-- A number under a sign. -/
def signed (negative : Bool) (w : ℚ) : ℚ := if negative then -w else w

section Sign

variable {negative : Bool} {w : ℚ} {n : Nat}

@[simp] theorem abs_signed (negative : Bool) (w : ℚ) : |signed negative w| = |w| := by
  cases negative
  · rfl
  · exact abs_neg w

theorem toRat_eq (x : Binary64) : x.toRat = signed x.negative x.absValue := rfl

theorem absValue_nonneg (x : Binary64) : 0 ≤ x.absValue :=
  div_nonneg (Nat.cast_nonneg _) (pow_nonneg (by norm_num) _)

/-- Numbers under the same sign are as far apart as without it. -/
theorem abs_signed_sub (negative : Bool) (u w : ℚ) :
    |signed negative u - signed negative w| = |u - w| := by
  cases negative
  · rfl
  · show |-u - -w| = |u - w|
    rw [← abs_neg]
    ring_nf

/-- A distance in half steps. -/
theorem abs_absValue_sub (x : Binary64) (w : ℚ) :
    |x.absValue - w| * 2 ^ 1075 = |2 * (units x.magnitude : ℚ) - w * 2 ^ 1075| := by
  have hstep : (2 : ℚ) ^ 1075 = 2 ^ 1074 * 2 := pow_succ 2 1074
  have hpos : (0 : ℚ) < 2 ^ 1074 := pow_pos (by norm_num) 1074
  rw [absValue, hstep]
  clear hstep
  generalize (2 : ℚ) ^ 1074 = p at *
  have hp : 0 < p * 2 := mul_pos hpos two_pos
  rw [← abs_of_pos hp, ← abs_mul, abs_of_pos hp]
  congr 1
  field_simp

/-- A sign and a magnitude up to that of infinity are kept. -/
theorem parts_ofMagnitude (negative : Bool) (hn : n ≤ infinite) :
    (ofMagnitude negative n).negative = negative ∧ (ofMagnitude negative n).magnitude = n := by
  have hA : Nat.pow 2 63 = 9223372036854775808 := rfl
  have hI : infinite = 9218868437227405312 := rfl
  have hS : UInt64.size = 18446744073709551616 := rfl
  rw [hI] at hn
  cases negative with
  | false =>
      have hbits : (UInt64.ofNat n).toNat = n := UInt64.toNat_ofNat_of_lt' (by rw [hS]; omega)
      simp only [ofMagnitude, Binary64.negative, magnitude, hA, Bool.false_eq_true, if_false, hbits,
        decide_eq_false_iff_not]
      omega
  | true =>
      have hbits : (UInt64.ofNat (9223372036854775808 + n)).toNat = 9223372036854775808 + n :=
        UInt64.toNat_ofNat_of_lt' (by rw [hS]; omega)
      simp only [ofMagnitude, Binary64.negative, magnitude, hA, if_true, hbits, decide_eq_true_eq]
      omega

/-- What is read as a finite magnitude is below the midpoint in front of infinity. -/
theorem Reads.lt_lower_infinite {v : ℚ} (h : Reads v n) (hn : n < infinite) :
    v < lower infinite := by
  by_cases hlast : n + 1 = infinite
  · -- the largest finite magnitude is odd
    have hodd : n % 2 ≠ 0 := by
      have hI : infinite = 9218868437227405312 := rfl
      omega
    rw [Reads, if_neg hodd, upper_eq_lower_succ, hlast] at h
    exact h.2
  · have hnext : (lower (n + 1) : ℚ) < lower infinite := by
      exact_mod_cast lower_strictMono (by omega : n + 1 < infinite)
    exact h.le.2.trans_lt hnext

/-- Of two finite doubles, one in whose interval a number lies is at most as far from it, and less
far where it is of an odd magnitude and the other one of another. -/
theorem absValue_dist_le {x : Binary64} (h : Reads (w * 2 ^ 1075) x.magnitude) (y : Binary64) :
    |x.absValue - w| ≤ |y.absValue - w| ∧
      (y.magnitude ≠ x.magnitude → x.magnitude % 2 = 1 →
        |x.absValue - w| < |y.absValue - w|) := by
  have hunit : (0 : ℚ) < 2 ^ 1075 := pow_pos (by norm_num) 1075
  by_cases hne : y.magnitude = x.magnitude
  · rw [absValue, absValue, hne]
    exact ⟨le_rfl, fun hother => absurd rfl hother⟩
  · obtain ⟨hle, hlt⟩ := h.dist_le hne
    rw [← abs_absValue_sub, ← abs_absValue_sub] at hle hlt
    exact ⟨le_of_mul_le_mul_right hle hunit, fun _ hodd =>
      lt_of_mul_lt_mul_right (hlt hodd) hunit.le⟩

/-- A double of the magnitude that a number is rounded to, under its sign, is the nearest to it. -/
theorem nearestTo_of_roundsTo {x : Binary64} (hw : 0 ≤ w)
    (h : RoundsTo (w * 2 ^ 1075) x.magnitude) :
    NearestTo x.negative (signed x.negative w) x := by
  have hunit : (0 : ℚ) < 2 ^ 1075 := pow_pos (by norm_num) 1075
  have hsize : |signed x.negative w| = w := by rw [abs_signed, abs_of_nonneg hw]
  have hlarge : (2 ^ 1024 - 2 ^ 970 : ℚ) ≤ w ↔ (lower infinite : ℚ) ≤ w * 2 ^ 1075 := by
    rw [cast_lower_infinite]
    exact (mul_le_mul_iff_left₀ hunit).symm
  -- below the bound a number is read in the interval of a finite magnitude
  have hreads : w < 2 ^ 1024 - 2 ^ 970 →
      x.magnitude < infinite ∧ Reads (w * 2 ^ 1075) x.magnitude := fun hsmall =>
    h.resolve_right fun hover => absurd (hlarge.mpr hover.2) (not_le.mpr hsmall)
  have hself : |x.toRat - signed x.negative w| = |x.absValue - w| := by
    rw [toRat_eq, abs_signed_sub]
  have hother : ∀ y : Binary64, |y.absValue - w| ≤ |y.toRat - signed x.negative w| := fun y => by
    have hdist := abs_abs_sub_abs_le y.toRat (signed x.negative w)
    rwa [hsize, toRat_eq, abs_signed, abs_of_nonneg y.absValue_nonneg] at hdist
  constructor
  · rfl
  · intro hover
    rw [hsize, hlarge] at hover
    exact (h.resolve_left fun hfinite =>
      absurd (hfinite.2.lt_lower_infinite hfinite.1) (not_lt.mpr hover)).1
  · intro hsmall
    rw [hsize] at hsmall
    exact decide_eq_true (hreads hsmall).1
  · intro hsmall y _
    rw [hsize] at hsmall
    rw [hself]
    exact (absValue_dist_le (hreads hsmall).2 y).1.trans (hother y)
  · intro hsmall y _ hne heq
    rw [hsize] at hsmall
    by_contra heven
    have hlt := (absValue_dist_le (hreads hsmall).2 y).2 hne (by omega)
    rw [hself] at heq
    exact absurd (hother y) (not_le.mpr (heq ▸ hlt))

/-- Larger magnitudes have larger values. -/
theorem absValue_lt {x y : Binary64} (h : x.magnitude < y.magnitude) : x.absValue < y.absValue := by
  have hunits : (units x.magnitude : ℚ) < units y.magnitude := by
    exact_mod_cast units_strictMono h
  exact div_lt_div_of_pos_right hunits (pow_pos (by norm_num) 1074)

/-- What is strictly between two numbers as far from a third one is nearer to it. -/
theorem abs_sub_lt_of_between {a b c v : ℚ} (hab : a < b) (hbc : b < c)
    (heq : |a - v| = |c - v|) : |b - v| < |a - v| := by
  have hmid : c - v = -(a - v) := by
    rcases abs_eq_abs.mp heq.symm with hsame | hopposite
    · linarith
    · exact hopposite
  rw [abs_of_neg (by linarith : a - v < 0)]
  exact abs_lt.mpr ⟨by linarith, by linarith⟩

/-- Of two nearest doubles of one sign, neither has the smaller magnitude. -/
theorem NearestTo.not_magnitude_lt {v : ℚ} {x y : Binary64} (hx : NearestTo negative v x)
    (hy : NearestTo negative v y) (hsmall : |v| < 2 ^ 1024 - 2 ^ 970) :
    ¬ x.magnitude < y.magnitude := by
  intro hlt
  have hfinite : y.magnitude < infinite := of_decide_eq_true (hy.finite hsmall)
  have hdist := le_antisymm (hx.nearest hsmall y (hy.finite hsmall))
    (hy.nearest hsmall x (hx.finite hsmall))
  have hevenx := hx.even hsmall y (hy.finite hsmall) (by omega) hdist
  have heveny := hy.even hsmall x (hx.finite hsmall) (by omega) hdist.symm
  -- both are even, so there is a double between them, and it is nearer
  obtain ⟨hsign, hmagnitude⟩ :=
    parts_ofMagnitude negative (by omega : x.magnitude + 1 ≤ infinite)
  generalize ofMagnitude negative (x.magnitude + 1) = z at *
  have hbelow := absValue_lt (by omega : x.magnitude < z.magnitude)
  have habove := absValue_lt (by omega : z.magnitude < y.magnitude)
  have hnear := hx.nearest hsmall z (decide_eq_true (by omega))
  rw [toRat_eq, toRat_eq, hx.sign, hsign] at hnear
  rw [toRat_eq, toRat_eq, hx.sign, hy.sign] at hdist
  refine absurd hnear (not_le.mpr ?_)
  cases negative with
  | false => exact abs_sub_lt_of_between hbelow habove hdist
  | true =>
      show |-z.absValue - v| < |-x.absValue - v|
      replace hdist : |-x.absValue - v| = |-y.absValue - v| := hdist
      rw [hdist]
      exact abs_sub_lt_of_between (neg_lt_neg habove) (neg_lt_neg hbelow) hdist.symm

/-- No other double of the same sign is the nearest to a number. -/
theorem NearestTo.unique {v : ℚ} {x y : Binary64} (hx : NearestTo negative v x)
    (hy : NearestTo negative v y) : x = y := by
  have hmagnitude : x.magnitude = y.magnitude := by
    rcases le_or_gt (2 ^ 1024 - 2 ^ 970) |v| with hover | hsmall
    · rw [hx.overflow hover, hy.overflow hover]
    · exact Nat.le_antisymm (Nat.not_lt.mp (hy.not_magnitude_lt hx hsmall))
        (Nat.not_lt.mp (hx.not_magnitude_lt hy hsmall))
  rw [← ofMagnitude_magnitude x, ← ofMagnitude_magnitude y, hx.sign, hy.sign, hmagnitude]

end Sign

end Binary64

/-- A decimal is read as the double nearest to it, under its sign. -/
theorem Decimal.nearestTo_toBinary64 (negative : Bool) (d : Decimal) :
    Binary64.NearestTo negative (Binary64.signed negative d.value) (d.toBinary64 negative) := by
  have hrounds := d.magnitude_roundsTo
  have hle : d.magnitude ≤ Binary64.infinite :=
    hrounds.elim (fun hfinite => hfinite.1.le) fun hover => hover.1.le
  obtain ⟨hsign, hmagnitude⟩ := Binary64.parts_ofMagnitude negative hle
  have hnonneg : 0 ≤ d.value := mul_nonneg (Nat.cast_nonneg _) (ten_zpow_pos _).le
  rw [halfSteps_eq, ← hmagnitude] at hrounds
  have hnearest := Binary64.nearestTo_of_roundsTo hnonneg hrounds
  rwa [hsign] at hnearest

end GenericIR
