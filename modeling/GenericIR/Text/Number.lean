/-
# Signs and powers of ten

A written number may have a sign in front of its digits, and a power of ten behind them: an
`e` of either case, an optional sign and at least one digit.

* `signPart_append_drop` : a text is its sign and what follows the sign;
* `exponentPart_isPrefix` : a power of ten is the front of the text behind the digits.
-/

namespace GenericIR

/-! ## Signs -/

/-- The sign at the front of a text, if there is one. -/
def signPart : List Char → List Char
  | '+' :: _ => ['+']
  | '-' :: _ => ['-']
  | _ => []

/-- The sign is the front of the text. -/
theorem signPart_isPrefix (text : List Char) : signPart text <+: text := by
  fun_cases signPart text <;> simp

/-- A text is its sign and what follows the sign. -/
theorem signPart_append_drop (text : List Char) :
    signPart text ++ text.drop (signPart text).length = text :=
  List.prefix_iff_eq_append.mp (signPart_isPrefix text)

/-! ## Powers of ten -/

/-- The power of ten at the front of a text with its value: `e` or `E`, an optional sign and
at least one digit.  Without a digit there is none. -/
def exponentPart : List Char → List Char × Int
  | [] => ([], 0)
  | c :: rest =>
    let sign := signPart rest
    let digits := (rest.drop sign.length).takeWhile Char.isDigit
    if (c = 'e' ∨ c = 'E') ∧ digits ≠ [] then
      let n : Int := Nat.ofDigitChars 10 digits 0
      (c :: sign ++ digits, if sign = ['-'] then -n else n)
    else ([], 0)

/-- The power of ten is the front of the text. -/
theorem exponentPart_isPrefix (text : List Char) : (exponentPart text).1 <+: text := by
  fun_cases exponentPart text with
  | case1 => exact List.prefix_rfl
  | case2 c rest sign digits h n =>
      have h1 : sign ++ digits <+: rest := by
        rw [← signPart_append_drop rest]
        exact (List.prefix_append_right_inj _).mpr (List.takeWhile_prefix _)
      simpa using h1
  | case3 c rest => exact List.nil_prefix

end GenericIR
