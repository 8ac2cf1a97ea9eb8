/-
# Integer literals are exact

A run of digits with an optional sign is an integer where neither a point nor the `x` of a
hexadecimal number follows.  A decimal integer is read as its value, or as no number at all where
64 bits do not hold the value, with any number of zeros in front.  Hexadecimal digits are the bits
of a value, so they are read modulo `2 ^ 64`, as far as there are at most 64 bits.  Every integer
of 64 bits is read back from its decimal text and from its bits.

* `Lexer.ReadsBits`, `Lexer.ReadsDecimal` : the two outcomes;
* `readsBits_of_comesTo`, `readsDecimal_of_comesTo` : a lexer in front of a number has them;
* `isOneToken_bits` : integers written with their bits.
-/
import GenericIR.Proofs.Generic.Token
import GenericIR.Proofs.Tokens.Digits
import GenericIR.Proofs.Tokens.Reading
import Mathlib.Data.Int.ModEq

namespace GenericIR

variable {l : Lexer} {limits : Limits} {text sign digits hex rest : List Char}

/-! ## Values of 64 bits -/

/-- The value of 64 bits that an integer is cut to is congruent to it. -/
theorem toInt_ofInt_modEq (n : Int) : (Int64.ofInt n).toInt ≡ n [ZMOD 2 ^ 64] := by
  rw [Int.ModEq, Int64.toInt_ofInt]
  exact Int.bmod_emod

/-- Congruent values of 64 bits are equal. -/
theorem eq_of_toInt_modEq {m n : Int64} (h : m.toInt ≡ n.toInt [ZMOD 2 ^ 64]) : m = n := by
  have hbmod := congrArg (fun k : Int => k.bmod (2 ^ 64)) h
  rw [← Int64.toInt_inj, ← Int64.toInt_bmod m, ← Int64.toInt_bmod n,
    ← Int.emod_bmod m.toInt, ← Int.emod_bmod n.toInt]
  exact hbmod

/-- An integer is cut to the one value of 64 bits that is congruent to it. -/
theorem toInt_modEq_iff (n : Int) (m : Int64) :
    m.toInt ≡ n [ZMOD 2 ^ 64] ↔ m = Int64.ofInt n := by
  constructor
  · exact fun h => eq_of_toInt_modEq (h.trans (toInt_ofInt_modEq n).symm)
  · rintro rfl
    exact toInt_ofInt_modEq n

/-- The bits of a value, as a natural number, are congruent to it. -/
theorem toNat_toUInt64_modEq (n : Int64) : n.toInt ≡ n.toUInt64.toNat [ZMOD 2 ^ 64] := by
  rw [← Int64.toInt_toBitVec, BitVec.toInt_eq_toNat_bmod, Int64.toNat_toBitVec]
  exact Int.bmod_emod

/-! ## The two outcomes -/

/-- What hexadecimal digits behind a sign, a zero and an `x` are read as: where there are digits,
and no more than 64 bits, as the one value that is congruent to them, and otherwise as no number. -/
structure Lexer.ReadsBits (l : Lexer) (sign hex rest : List Char) : Prop where
  bad : hex = [] ∨ 2 ^ 64 ≤ runValue 16 hex →
    l.Faults (sign ++ '0' :: 'x' :: hex)
      (.invalidNumber (String.ofList (sign ++ '0' :: 'x' :: hex))) rest
  bits : hex ≠ [] → runValue 16 hex < 2 ^ 64 →
    ∃ n : Int64,
      (∀ m : Int64, m.toInt ≡ signedValue sign (runValue 16 hex) [ZMOD 2 ^ 64] ↔ m = n) ∧
      l.Gives (sign ++ '0' :: 'x' :: hex) .hexadecimalLiteral (.int n) rest

/-- What digits behind a sign are read as: where 64 bits hold the value, as the value, and
otherwise as no number. -/
structure Lexer.ReadsDecimal (l : Lexer) (sign digits rest : List Char) : Prop where
  bad : ¬ (-2 ^ 63 ≤ signedValue sign (runValue 10 digits) ∧
      signedValue sign (runValue 10 digits) ≤ 2 ^ 63 - 1) →
    l.Faults (sign ++ digits) (.invalidNumber (String.ofList (sign ++ digits))) rest
  value : -2 ^ 63 ≤ signedValue sign (runValue 10 digits) →
    signedValue sign (runValue 10 digits) ≤ 2 ^ 63 - 1 →
    ∃ n : Int64, n.toInt = signedValue sign (runValue 10 digits) ∧
      l.Gives (sign ++ digits) .integerLiteral (.int n) rest

/-! ## Scans of the two forms -/

/-- The scan of hexadecimal digits, in terms of their value. -/
theorem hexadecimal_append (sign : List Char) (hhex : ∀ c ∈ hex, isHexDigit c)
    (hends : rest.head?.any isHexDigit = false) :
    hexadecimal sign (hex ++ rest) =
      if hex = [] ∨ 2 ^ 64 ≤ runValue 16 hex then badNumeral (sign ++ '0' :: 'x' :: hex)
      else ⟨sign ++ '0' :: 'x' :: hex,
        .ok (.hexadecimalLiteral, .int (Int64.ofInt (signedValue sign (runValue 16 hex))))⟩ := by
  rw [hexadecimal, (takeWhile_run hhex hends).1, hexInteger?_eq, hexValue_eq_runValue hhex]
  by_cases hbad : hex = [] ∨ 2 ^ 64 ≤ runValue 16 hex
  · rw [if_pos hbad]
    exact congrArg (fun value : Option Int64 => readNumeral _ _ (value.map .int)) (if_pos hbad)
  · rw [if_neg hbad]
    exact congrArg (fun value : Option Int64 => readNumeral _ _ (value.map .int)) (if_neg hbad)

/-- The scan of decimal digits, in terms of their value. -/
theorem integral_eq (sign : List Char) (hdigits : ∀ c ∈ digits, c.isDigit) :
    integral sign digits =
      if -2 ^ 63 ≤ signedValue sign (runValue 10 digits) ∧
          signedValue sign (runValue 10 digits) ≤ 2 ^ 63 - 1 then
        ⟨sign ++ digits,
          .ok (.integerLiteral, .int (Int64.ofInt (signedValue sign (runValue 10 digits))))⟩
      else badNumeral (sign ++ digits) := by
  rw [integral, decimalInteger?, ofDigitChars_eq_runValue hdigits, Int64.toInt_minValue,
    Int64.toInt_maxValue]
  split <;> rfl

/-! ## A lexer in front of a number -/

/-- A text that starts with a numeral is scanned as one. -/
theorem exists_scanToken_of_numeral (h : startsWithNumeral text) :
    ∃ c u, text = c :: u ∧ ∀ limits : Limits, scanToken limits c u = numeral text := by
  cases text with
  | nil => cases h
  | cons c u => exact ⟨c, u, rfl, fun limits => scanToken_of_numeral h⟩

/-- A lexer in front of a lone zero and an `x` reads the hexadecimal digits behind them. -/
theorem readsBits_of_comesTo (hl : l.ComesTo text)
    (h : SignedRun text sign ['0'] ('x' :: (hex ++ rest))) (hhex : ∀ c ∈ hex, isHexDigit c)
    (hends : rest.head?.any isHexDigit = false) : l.ReadsBits sign hex rest := by
  obtain ⟨c, u, htext, hscan⟩ :=
    exists_scanToken_of_numeral (h.startsWithNumeral (List.cons_ne_nil _ _))
  have hform : scanToken l.limits c u = hexadecimal sign (hex ++ rest) :=
    (hscan _).trans (h.numeral_hexadecimal rfl rfl)
  have hsplit : (sign ++ '0' :: 'x' :: hex) ++ rest = text := by
    rw [h.text_eq, List.append_assoc]
    rfl
  rw [hexadecimal_append sign hhex hends] at hform
  constructor
  · intro hbad
    rw [if_pos hbad] at hform
    exact Lexer.faults_of_scanToken (hsplit ▸ hl) (hsplit.trans htext) hform
  · intro hne hlt
    rw [if_neg (not_or.mpr ⟨hne, Nat.not_le.mpr hlt⟩)] at hform
    exact ⟨_, toInt_modEq_iff _,
      Lexer.gives_of_scanToken (hsplit ▸ hl) (hsplit.trans htext) hform⟩

/-- A lexer in front of digits without a point or the `x` of a hexadecimal number reads their
value. -/
theorem readsDecimal_of_comesTo (hl : l.ComesTo text) (h : SignedRun text sign digits rest)
    (hdigits : digits ≠ []) (hx : ¬ (digits = ['0'] ∧ rest.head? = some 'x'))
    (hpoint : rest.head? ≠ some '.') : l.ReadsDecimal sign digits rest := by
  obtain ⟨c, u, htext, hscan⟩ := exists_scanToken_of_numeral (h.startsWithNumeral hdigits)
  have hform : scanToken l.limits c u = integral sign digits :=
    (hscan _).trans (h.numeral_integral hdigits hx hpoint)
  have hsplit : (sign ++ digits) ++ rest = text := by
    rw [h.text_eq, List.append_assoc]
  rw [integral_eq sign h.isDigit] at hform
  constructor
  · intro hbad
    rw [if_neg hbad] at hform
    exact Lexer.faults_of_scanToken (hsplit ▸ hl) (hsplit.trans htext) hform
  · intro hlow hhigh
    rw [if_pos ⟨hlow, hhigh⟩] at hform
    refine ⟨_, Int64.toInt_ofInt_of_le hlow ?_,
      Lexer.gives_of_scanToken (hsplit ▸ hl) (hsplit.trans htext) hform⟩
    omega

/-! ## Integers read back -/

/-- The decimal text of an integer of 64 bits is one token. -/
theorem isOneToken_integerText (limits : Limits) (n : Int64) :
    Lexer.IsOneToken limits (String.ofList (integerText n.toInt)) .integerLiteral (.int n) := by
  obtain ⟨c, u, htext, hblank, hslash, hscan⟩ := scanToken_integerText n
  exact Lexer.isOneToken_of_scanToken htext hblank hslash (by decide) hscan

/-- The bits of an integer in hexadecimal digits, with any number of zeros in front and with
letters of either case, are one token. -/
theorem isOneToken_bits (limits : Limits) (n : Int64) (hne : hex ≠ [])
    (hhex : ∀ c ∈ hex, isHexDigit c) (hvalue : runValue 16 hex = n.toUInt64.toNat) :
    Lexer.IsOneToken limits (String.ofList ('0' :: 'x' :: hex)) .hexadecimalLiteral (.int n) := by
  have hrun : SignedRun ('0' :: 'x' :: hex) [] ['0'] ('x' :: (hex ++ [])) :=
    ⟨by rw [List.append_nil]; rfl, by decide, List.all_eq_true.mp rfl, rfl⟩
  have hscan : scanToken limits '0' ('x' :: hex) = hexadecimal [] (hex ++ []) :=
    (scanToken_of_numeral rfl).trans (hrun.numeral_hexadecimal rfl rfl)
  have hlt : runValue 16 hex < 2 ^ 64 := by
    rw [hvalue]
    exact n.toUInt64.toNat_lt
  have hbits : n = Int64.ofInt (signedValue [] (runValue 16 hex)) := by
    rw [← toInt_modEq_iff, hvalue]
    exact toNat_toUInt64_modEq n
  rw [hexadecimal_append [] hhex rfl, if_neg (not_or.mpr ⟨hne, Nat.not_le.mpr hlt⟩),
    ← hbits] at hscan
  exact Lexer.isOneToken_of_scanToken rfl (by decide) (by decide) (by decide) hscan

/-! ## All integer literals -/

/-- Integer literals are exact: hexadecimal digits behind a lone zero and an `x` are read as bits,
all other digits without a point behind them as a decimal number, each as no number where 64 bits
do not hold it.  Every integer is read back from its decimal text and from its bits. -/
theorem integers_read_exactly :
    (∀ (l : Lexer) (text sign digits rest : List Char),
      l.ComesTo text → SignedRun text sign digits rest → digits ≠ [] →
        (∀ hex behind, digits = ['0'] → rest = 'x' :: (hex ++ behind) →
          (∀ c ∈ hex, isHexDigit c) → behind.head?.any isHexDigit = false →
            l.ReadsBits sign hex behind) ∧
        (¬ (digits = ['0'] ∧ rest.head? = some 'x') → rest.head? ≠ some '.' →
          l.ReadsDecimal sign digits rest)) ∧
    (∀ (limits : Limits) (n : Int64),
      Lexer.IsOneToken limits (String.ofList (integerText n.toInt)) .integerLiteral (.int n) ∧
      Lexer.IsOneToken limits (String.ofList ('0' :: 'x' :: Nat.toDigits 16 n.toUInt64.toNat))
        .hexadecimalLiteral (.int n) ∧
      ∀ hex, hex ≠ [] → (∀ c ∈ hex, isHexDigit c) → runValue 16 hex = n.toUInt64.toNat →
        Lexer.IsOneToken limits (String.ofList ('0' :: 'x' :: hex))
          .hexadecimalLiteral (.int n)) := by
  refine ⟨fun l text sign digits rest hl h hdigits => ⟨?_, ?_⟩, fun limits n => ⟨?_, ?_, ?_⟩⟩
  · rintro hex behind rfl rfl hhex hends
    exact readsBits_of_comesTo hl h hhex hends
  · exact readsDecimal_of_comesTo hl h hdigits
  · exact isOneToken_integerText limits n
  · exact isOneToken_bits limits n Nat.toDigits_ne_nil (isHexDigit_of_mem_toDigits _)
      (runValue_toDigits (by decide) (by decide) _)
  · exact fun hex hne hhex hvalue => isOneToken_bits limits n hne hhex hvalue

/-- The bits of the lowest integer behind a minus sign are the lowest integer, which is its own
negative, and one bit more is no number. -/
theorem integers_read_exactly_lowest :
    (Lexer.ofSource .standard "-0x8000000000000000 ").Gives "-0x8000000000000000".toList
      .hexadecimalLiteral (.int Int64.minValue) [' '] ∧
    (Lexer.ofSource .standard "+0x10000000000000000").Faults "+0x10000000000000000".toList
      (.invalidNumber "+0x10000000000000000") [] ∧
    (Lexer.ofSource .standard "-09223372036854775808)").Gives "-09223372036854775808".toList
      .integerLiteral (.int Int64.minValue) [')'] := by
  refine ⟨?_, ?_, ?_⟩
  · have h := (integers_read_exactly.1 (.ofSource .standard "-0x8000000000000000 ")
      "-0x8000000000000000 ".toList ['-'] ['0'] "x8000000000000000 ".toList rfl
      ⟨rfl, by decide, List.all_eq_true.mp rfl, by decide⟩ (by decide)).1
      "8000000000000000".toList [' '] rfl rfl (List.all_eq_true.mp rfl) (by decide)
    obtain ⟨n, hn, hgives⟩ := h.bits (by decide) (by decide)
    obtain rfl : Int64.minValue = n := (hn _).mp (by decide)
    exact hgives
  · exact ((integers_read_exactly.1 (.ofSource .standard "+0x10000000000000000")
      "+0x10000000000000000".toList ['+'] ['0'] "x10000000000000000".toList rfl
      ⟨rfl, by decide, List.all_eq_true.mp rfl, by decide⟩ (by decide)).1
      "10000000000000000".toList [] rfl rfl (List.all_eq_true.mp rfl) (by decide)).bad (by decide)
  · have h := (integers_read_exactly.1 (.ofSource .standard "-09223372036854775808)")
      "-09223372036854775808)".toList ['-'] "09223372036854775808".toList [')'] rfl
      ⟨rfl, by decide, List.all_eq_true.mp rfl, by decide⟩ (by decide)).2 (by decide) (by decide)
    obtain ⟨n, hn, hgives⟩ := h.value (by decide) (by decide)
    obtain rfl : Int64.minValue = n := Int64.toInt_inj.mp (hn.symm ▸ by decide)
    exact hgives

end GenericIR
