/-
# Numerals

A numeral is an optional sign and a run of digits, and then one of three things: hexadecimal
digits after a lone `0` and an `x`, a fraction with an optional power of ten, or nothing
more.  Hexadecimal digits give the bits of a 64-bit integer; a decimal integer has to fit in
one; a text with a fraction is filled in on both sides of its point and read as a double.

* `numeral_isPrefix` : the scan is the front of the text;
* `numeral_ok_cases` : what a numeral means.
-/
import GenericIR.Binary64.Reading
import GenericIR.Scan.Basic

namespace GenericIR

/-! ## Parts of a numeral -/

/-- Whether a text starts with a decimal digit. -/
def startsWithDigit : List Char → Bool
  | c :: _ => c.isDigit
  | [] => false

/-- Whether a text starts with a numeral: a digit, or a sign or a point before a digit. -/
def startsWithNumeral : List Char → Bool
  | c :: rest => c.isDigit || ((c == '.' || c == '-' || c == '+') && startsWithDigit rest)
  | [] => false

/-- The value of a hexadecimal digit. -/
def hexDigitValue (c : Char) : Nat :=
  if c.isDigit then c.toNat - 48 else if c ≤ 'F' then c.toNat - 55 else c.toNat - 87

/-- The value of a run of hexadecimal digits. -/
def hexValue (digits : List Char) : Nat :=
  digits.foldl (fun n c => 16 * n + hexDigitValue c) 0

/-- The signed value of a run of digits. -/
def signedValue (sign : List Char) (n : Nat) : Int := if sign = ['-'] then -(n : Int) else n

/-! ## What the digits are read as -/

/-- The bits that hexadecimal digits stand for, unless there are no digits or too many bits. -/
def hexBits? (digits : List Char) : Option UInt64 :=
  if digits = [] ∨ UInt64.size ≤ hexValue digits then none
  else some (UInt64.ofNat (hexValue digits))

/-- The integer of hexadecimal digits under a sign.  The digits are the bits of the integer,
so the upper half of them is negative, and a minus sign negates modulo `2 ^ 64`. -/
def hexInteger? (sign digits : List Char) : Option Int64 :=
  (hexBits? digits).map fun bits =>
    let value := bits.toInt64
    if sign = ['-'] then -value else value

/-- The integer of decimal digits under a sign, which has to fit in 64 bits. -/
def decimalInteger? (sign digits : List Char) : Option Int64 :=
  let n := signedValue sign (Nat.ofDigitChars 10 digits 0)
  if Int64.minValue.toInt ≤ n ∧ n ≤ Int64.maxValue.toInt then some (Int64.ofInt n) else none

/-- Digits, or a zero where there are none. -/
def orZero (digits : List Char) : List Char := if digits = [] then ['0'] else digits

/-- The text of a float that is read as a double: it has no plus sign, and a zero on a side of
its point without digits. -/
def normalFloat (sign whole fraction power : List Char) : List Char :=
  (if sign = ['-'] then ['-'] else []) ++
    (orZero whole ++ '.' :: (orZero fraction ++ power))

/-- Two's complement: hexadecimal digits under a sign are their signed value cut to 64 bits. -/
theorem hexInteger?_eq (sign digits : List Char) :
    hexInteger? sign digits =
      if digits = [] ∨ UInt64.size ≤ hexValue digits then none
      else some (Int64.ofInt (signedValue sign (hexValue digits))) := by
  have hbits : (UInt64.ofNat (hexValue digits)).toInt64 = Int64.ofInt (hexValue digits) :=
    Int64.toBitVec.inj (by simp)
  unfold hexInteger? hexBits?
  by_cases hbad : digits = [] ∨ UInt64.size ≤ hexValue digits
  · rw [if_pos hbad, if_pos hbad]
    rfl
  · rw [if_neg hbad, if_neg hbad, Option.map_some, hbits, signedValue]
    split
    · rw [Int64.ofInt_neg]
    · rfl

/-! ## The three forms -/

/-- The scan of a numeral that cannot be read. -/
def badNumeral (lexeme : List Char) : Scan Meaning :=
  ⟨lexeme, .error (.invalidNumber (String.ofList lexeme))⟩

/-- The scan of a numeral with the value that its digits are read as, if they are. -/
def readNumeral (lexeme : List Char) (kind : TokenKind) : Option TokenValue → Scan Meaning
  | none => badNumeral lexeme
  | some value => ⟨lexeme, .ok (kind, value)⟩

/-- A hexadecimal integer after its `0x`. -/
def hexadecimal (sign rest : List Char) : Scan Meaning :=
  let digits := rest.takeWhile isHexDigit
  readNumeral (sign ++ '0' :: 'x' :: digits) .hexadecimalLiteral
    ((hexInteger? sign digits).map .int)

/-- A float after its point. -/
def fractional (sign whole rest : List Char) : Scan Meaning :=
  let fraction := rest.takeWhile Char.isDigit
  let power := (exponentPart (rest.dropWhile Char.isDigit)).1
  readNumeral (sign ++ whole ++ '.' :: fraction ++ power) .floatLiteral
    ((Binary64.ofText? (normalFloat sign whole fraction power)).map .float)

/-- A decimal integer. -/
def integral (sign digits : List Char) : Scan Meaning :=
  readNumeral (sign ++ digits) .integerLiteral ((decimalInteger? sign digits).map .int)

/-- A numeral. -/
def numeral (text : List Char) : Scan Meaning :=
  let sign := signPart text
  let body := text.drop sign.length
  let whole := body.takeWhile Char.isDigit
  match body.dropWhile Char.isDigit with
  | 'x' :: rest => if whole = ['0'] then hexadecimal sign rest else integral sign whole
  | '.' :: rest => fractional sign whole rest
  | _ => integral sign whole

/-! ## What a numeral takes -/

/-- A numeral takes the same characters whether its digits are read as a value or not. -/
@[simp] theorem lexeme_readNumeral (lexeme : List Char) (kind : TokenKind)
    (value : Option TokenValue) : (readNumeral lexeme kind value).lexeme = lexeme := by
  cases value <;> rfl

/-- A decimal integer takes its sign and its digits. -/
theorem lexeme_integral (sign digits : List Char) :
    (integral sign digits).lexeme = sign ++ digits :=
  lexeme_readNumeral _ _ _

/-- A hexadecimal integer takes all hexadecimal digits. -/
theorem lexeme_hexadecimal (sign rest : List Char) :
    (hexadecimal sign rest).lexeme = sign ++ '0' :: 'x' :: rest.takeWhile isHexDigit :=
  lexeme_readNumeral _ _ _

/-- A float takes its sign, its whole digits, its point, its fraction and its power of ten. -/
theorem lexeme_fractional (sign whole rest : List Char) :
    (fractional sign whole rest).lexeme =
      sign ++ whole ++ '.' :: rest.takeWhile Char.isDigit ++
        (exponentPart (rest.dropWhile Char.isDigit)).1 :=
  lexeme_readNumeral _ _ _

/-- A text is its sign, the run of digits after it, and the rest. -/
theorem signPart_append_digits (text : List Char) :
    signPart text ++ (text.drop (signPart text).length).takeWhile Char.isDigit ++
      (text.drop (signPart text).length).dropWhile Char.isDigit = text := by
  rw [List.append_assoc, List.takeWhile_append_dropWhile, signPart_append_drop]

/-- The scan is the front of the text. -/
theorem numeral_isPrefix (text : List Char) : (numeral text).lexeme <+: text := by
  fun_cases numeral text with
  | case1 sign body whole rest hrest hzero =>
      have h : sign ++ whole ++ body.dropWhile Char.isDigit = text := signPart_append_digits text
      rw [lexeme_hexadecimal, ← h, hrest, hzero]
      simpa using List.takeWhile_prefix isHexDigit
  | case2 sign body whole rest hrest hzero =>
      have h : sign ++ whole ++ body.dropWhile Char.isDigit = text := signPart_append_digits text
      rw [lexeme_integral, ← h]
      exact List.prefix_append _ _
  | case3 sign body whole rest hrest =>
      have h : sign ++ whole ++ body.dropWhile Char.isDigit = text := signPart_append_digits text
      have hpower : rest.takeWhile Char.isDigit ++
          (exponentPart (rest.dropWhile Char.isDigit)).1 <+: rest := by
        have hp := (List.prefix_append_right_inj (rest.takeWhile Char.isDigit)).mpr
          (exponentPart_isPrefix (rest.dropWhile Char.isDigit))
        rwa [List.takeWhile_append_dropWhile] at hp
      rw [lexeme_fractional, ← h, hrest]
      simpa using hpower
  | case4 sign body whole _ _ =>
      have h : sign ++ whole ++ body.dropWhile Char.isDigit = text := signPart_append_digits text
      rw [lexeme_integral, ← h]
      exact List.prefix_append _ _

/-- Where a numeral has neither sign nor whole digits, it goes on with its point. -/
theorem exists_point_of_startsWithNumeral (text : List Char) (h : startsWithNumeral text)
    (hsign : signPart text = []) (hwhole : text.takeWhile Char.isDigit = []) :
    ∃ rest, text.dropWhile Char.isDigit = '.' :: rest := by
  cases text with
  | nil => simp [startsWithNumeral] at h
  | cons c rest =>
      by_cases hdigit : c.isDigit
      · simp [hdigit] at hwhole
      · have hplus : c ≠ '+' := by rintro rfl; simp [signPart] at hsign
        have hminus : c ≠ '-' := by rintro rfl; simp [signPart] at hsign
        have hpoint : c = '.' := by
          simp [startsWithNumeral, hdigit, hplus, hminus] at h
          exact h.1
        exact ⟨rest, by simp [hpoint]⟩

/-- The scan of a numeral takes a character. -/
theorem lexeme_numeral_ne_nil (text : List Char) (h : startsWithNumeral text) :
    (numeral text).lexeme ≠ [] := by
  fun_cases numeral text with
  | case1 sign body whole rest hrest hzero => simp [lexeme_hexadecimal]
  | case2 sign body whole rest hrest hzero =>
      rw [lexeme_integral]
      intro hnil
      obtain ⟨hsign, hwhole⟩ := List.append_eq_nil_iff.mp hnil
      have hbody : body = text := by simp [body, hsign]
      rw [hbody] at hrest
      obtain ⟨r, hr⟩ :=
        exists_point_of_startsWithNumeral text h hsign (by rw [← hbody]; exact hwhole)
      simp [hr] at hrest
  | case3 sign body whole rest hrest => simp [lexeme_fractional]
  | case4 sign body whole hx hpoint =>
      rw [lexeme_integral]
      intro hnil
      obtain ⟨hsign, hwhole⟩ := List.append_eq_nil_iff.mp hnil
      have hbody : body = text := by simp [body, hsign]
      obtain ⟨r, hr⟩ :=
        exists_point_of_startsWithNumeral text h hsign (by rw [← hbody]; exact hwhole)
      exact hpoint r (by rw [hbody]; exact hr)

/-! ## What a numeral means -/

/-- A numeral whose digits are read as a value means that value. -/
theorem readNumeral_ok_cases {α : Type} {f : α → TokenValue} {lexeme : List Char}
    {kind : TokenKind} {value : Option α} {meaning : Meaning}
    (h : (readNumeral lexeme kind (value.map f)).outcome = .ok meaning) :
    ∃ a, meaning = (kind, f a) := by
  cases value with
  | none => cases h
  | some a =>
      cases h
      exact ⟨a, rfl⟩

/-- The fault of a numeral whose digits are read as no value holds its text. -/
theorem fault_of_readNumeral {lexeme : List Char} {kind : TokenKind} {value : Option TokenValue}
    {fault : Fault} (h : (readNumeral lexeme kind value).outcome = .error fault) :
    fault = .invalidNumber (String.ofList lexeme) := by
  cases value with
  | none => exact (Except.error.inj h).symm
  | some v => cases h

/-- A numeral means a decimal integer, a hexadecimal one or a float. -/
theorem numeral_ok_cases {text : List Char} {meaning : Meaning}
    (h : (numeral text).outcome = .ok meaning) :
    (∃ n, meaning = (.integerLiteral, .int n)) ∨ (∃ n, meaning = (.hexadecimalLiteral, .int n)) ∨
      ∃ x, meaning = (.floatLiteral, .float x) := by
  revert h
  fun_cases numeral text with
  | case1 sign body whole rest hrest hzero =>
      exact fun h => Or.inr (Or.inl (readNumeral_ok_cases h))
  | case2 sign body whole rest hrest hzero => exact fun h => Or.inl (readNumeral_ok_cases h)
  | case3 sign body whole rest hrest => exact fun h => Or.inr (Or.inr (readNumeral_ok_cases h))
  | case4 sign body whole hx hpoint => exact fun h => Or.inl (readNumeral_ok_cases h)

end GenericIR
