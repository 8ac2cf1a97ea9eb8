/-
# Texts that are read as doubles

A text is read as a double where it is a decimal or one of the words for infinity and for a
not-a-number, each behind an optional sign.  A decimal has digits on at least one side of an
optional point, and perhaps a power of ten.  Nothing may be left behind it, so any other text
is no double at all.

* `Decimal.ofText?` : the decimal of a text;
* `Binary64.ofText?` : the double of a text.
-/
import GenericIR.Binary64.Decimal
import GenericIR.Text.Number

namespace GenericIR

namespace Decimal

/-! ## Decimals -/

/-- The digits behind a point at the front of a text, and what follows them. -/
def fractionPart : List Char → List Char × List Char
  | '.' :: rest => (rest.takeWhile Char.isDigit, rest.dropWhile Char.isDigit)
  | text => ([], text)

/-- The decimal at the front of a text. -/
def ofText (text : List Char) : Decimal :=
  let fraction := fractionPart (text.dropWhile Char.isDigit)
  ⟨Nat.ofDigitChars 10 (text.takeWhile Char.isDigit ++ fraction.1) 0,
    (exponentPart fraction.2).2 - fraction.1.length⟩

/-- The decimal that a text is, if it has a digit and nothing is left behind the decimal. -/
def ofText? (text : List Char) : Option Decimal :=
  let fraction := fractionPart (text.dropWhile Char.isDigit)
  if text.takeWhile Char.isDigit ++ fraction.1 = [] then none
  else if (exponentPart fraction.2).1 ≠ fraction.2 then none
  else some (ofText text)

end Decimal

namespace Binary64

/-! ## Words -/

/-- The magnitude of the not-a-number that is read from its word. -/
def quiet : Nat := infinite + Nat.pow 2 51

/-- The double that a word stands for under a sign, in letters of either case. -/
def ofWord? (negative : Bool) (text : List Char) : Option Binary64 :=
  let word := text.map Char.toLower
  if word = "inf".toList ∨ word = "infinity".toList then some (ofMagnitude negative infinite)
  else if word = "nan".toList then some (ofMagnitude negative quiet)
  else none

/-! ## Doubles -/

/-- The double that a text is read as: the nearest one to its decimal, or that of its word. -/
def ofText? (text : List Char) : Option Binary64 :=
  let sign := signPart text
  let body := text.drop sign.length
  match Decimal.ofText? body with
  | some d => some (d.toBinary64 (sign == ['-']))
  | none => ofWord? (sign == ['-']) body

end Binary64

end GenericIR
