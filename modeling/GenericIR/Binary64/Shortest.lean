/-
# The shortest decimal that reads back

The numbers that read as a given double form an interval around it, up to the midpoints to
its two neighbours; a midpoint belongs to the neighbour with the even magnitude.
`Decimal.shortest` looks for the coarsest grid of powers of ten with a point in that
interval: only the two grid points next to the double can be the nearest in it.
-/
import GenericIR.Binary64.Decimal

namespace GenericIR.Decimal

/-! ## The interval of a double -/

/-- Whether a decimal lies in the interval of a finite magnitude. -/
def readsAs (d : Decimal) (n : Nat) : Bool :=
  let value := d.num * Nat.pow 2 1075
  let low := (Binary64.units (n - 1) + Binary64.units n) * d.den
  let high := (Binary64.units n + Binary64.units (n + 1)) * d.den
  if n % 2 = 0 then decide (low ≤ value ∧ value ≤ high)
  else decide (low < value ∧ value < high)

/-! ## The search -/

/-- The double written out in full. -/
def exact (n : Nat) : Decimal := ⟨Binary64.units n * Nat.pow 5 1074, -1074⟩

/-- The multiple of `10 ^ exponent` nearest to a magnitude among those that read back. -/
def onGrid (tie : Tie) (n : Nat) (exponent : Int) : Option Decimal :=
  let num := 2 * Binary64.units n * Nat.pow 10 (-exponent).toNat
  let den := Nat.pow 2 1075 * Nat.pow 10 exponent.toNat
  let low : Decimal := ⟨num / den, exponent⟩
  let high : Decimal := ⟨num / den + 1, exponent⟩
  match low.readsAs n, high.readsAs n with
  | true, true => some ⟨roundDiv tie num den, exponent⟩
  | true, false => some low
  | false, true => some high
  | false, false => none

/-- The decimal with the fewest digits that reads as a magnitude, and of those the nearest;
`tie` decides between two equally near ones. -/
def shortest (tie : Tie) (n : Nat) : Decimal :=
  if n = 0 then ⟨0, 0⟩
  else ((List.range 650).findSome? fun (k : Nat) => onGrid tie n (309 - k)).getD (exact n)

end GenericIR.Decimal
