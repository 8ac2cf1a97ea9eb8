/-
# Written forms of a double

A finite double is written with the fewest digits that read back, either positionally or
with a power of ten.  What a form leaves open is settled by a `FloatStyle`: which powers of
ten are written positionally, whether a whole number keeps `.0`, and where a tie between
two equally short decimals goes.
-/
import GenericIR.Binary64.Shortest

namespace GenericIR

/-! ## Decimals as text -/

namespace Decimal

/-- The power of ten of the first digit. -/
def order (d : Decimal) : Int := d.exponent + (Nat.toDigits 10 d.digits).length - 1

/-- A decimal with all its places; `point` writes a whole number with `.0`. -/
def positional (point : Bool) (d : Decimal) : List Char :=
  let ds := Nat.toDigits 10 d.digits
  if 0 ≤ d.exponent then
    ds ++ List.replicate d.exponent.toNat '0' ++ (if point then ['.', '0'] else [])
  else if 0 ≤ d.order then
    ds.take (d.order + 1).toNat ++ '.' :: ds.drop (d.order + 1).toNat
  else
    '0' :: '.' :: List.replicate (-d.order - 1).toNat '0' ++ ds

/-- A decimal as one digit, its further digits and a signed power of ten. -/
def scientific (d : Decimal) : List Char :=
  let ds := Nat.toDigits 10 d.digits
  let fraction := if ds.length ≤ 1 then [] else '.' :: ds.drop 1
  let sign := if d.order < 0 then '-' else '+'
  ds.take 1 ++ fraction ++ 'e' :: sign :: Nat.toDigits 10 d.order.natAbs

end Decimal

/-! ## Styles -/

/-- The choices that fix the written form of a finite double. -/
structure FloatStyle where
  /-- Where a tie between two shortest decimals goes. -/
  tie : Tie
  /-- Whether a number whose first digit has this power of ten is written positionally. -/
  positional : Int → Bool
  /-- Whether a whole number is written with `.0`. -/
  point : Bool

namespace Binary64

/-- A finite double in a style. -/
def finiteText (style : FloatStyle) (x : Binary64) : List Char :=
  let d := Decimal.shortest style.tie x.magnitude
  let text := if style.positional d.order then d.positional style.point else d.scientific
  if x.negative then '-' :: text else text

/-- Messages and plain values show every place and no needless point, a tie going up. -/
def plainStyle : FloatStyle := ⟨.up, fun _ => true, false⟩

/-- The text of any double in a message or a plain value. -/
def render (x : Binary64) : String :=
  if x.isNaN then "NaN"
  else if x.isFinite then String.ofList (x.finiteText plainStyle)
  else if x.negative then "-inf"
  else "inf"

end Binary64

end GenericIR
