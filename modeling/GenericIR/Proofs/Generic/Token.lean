/-
# The tokens of generic forms

Every token that a generic form is written with is scanned as it was meant: marks and words,
value ids, string literals with their escapes, integers, and texts that are known to be one
token.

* `scanToken_quotedText` : a string literal is decoded to its string;
* `scanToken_integerText` : the digits of an integer are decoded to the integer;
* `scanToken_of_lexesAs` : a text that is read as one token is scanned as it.
-/
import GenericIR.Proofs.Generic.Text
import GenericIR.Proofs.Partition.Shape
import GenericIR.Proofs.Tokens.Digits
import GenericIR.Proofs.Spelling

namespace GenericIR

variable {limits : Limits}

/-! ## Value ids -/

/-- A value id is one token. -/
theorem scanToken_of_isValueId {text : String} (h : IsValueId text) :
    ∃ d u, text.toList = d :: u ∧ ¬ isBlank d ∧ d ≠ '/' ∧
      scanToken limits d u = ⟨text.toList, .ok (.valueId, .text text)⟩ := by
  obtain ⟨sigil, name, htext, hsigil, hname⟩ := h
  have htake : name.takeWhile isIdChar = name := by
    rw [← List.append_nil name, List.takeWhile_append_of_pos hname, List.takeWhile_nil]
  have hvalue : valueId sigil name = ⟨text.toList, .ok (.valueId, .text text)⟩ := by
    rw [valueId, htake, Scan.plain, ← htext, String.ofList_toList]
  refine ⟨sigil, name, htext, ?_, ?_, ?_⟩
  · rcases hsigil with rfl | rfl <;> decide
  · rcases hsigil with rfl | rfl <;> decide
  · rw [← hvalue]
    rcases hsigil with rfl | rfl <;> rfl

/-! ## String literals -/

/-- A body with its escapes is decoded, whatever follows its closing quote. -/
theorem quotedBody_escaped (s t : List Char) :
    quotedBody (s.flatMap escaped ++ '"' :: t) = ⟨s.flatMap escaped ++ ['"'], .ok s⟩ := by
  induction s with
  | nil => rfl
  | cons c s ih =>
      rw [List.flatMap_cons, List.append_assoc]
      by_cases hc : c = '"' ∨ c = '\\'
      · have hunescape : unescape c = c := by rcases hc with rfl | rfl <;> rfl
        rw [escaped, if_pos hc]
        show quotedBody ('\\' :: c :: (s.flatMap escaped ++ '"' :: t)) = _
        rw [quotedBody, ih, hunescape]
        rfl
      · have hquote : c ≠ '"' := fun h => hc (Or.inl h)
        have hslash : c ≠ '\\' := fun h => hc (Or.inr h)
        rw [escaped, if_neg hc]
        show quotedBody (c :: (s.flatMap escaped ++ '"' :: t)) = _
        rw [quotedBody, ih]
        · rfl
        · exact hquote
        · exact fun _ _ h => absurd h hslash

/-- A string literal is decoded to its string, whatever follows it. -/
theorem scanToken_quotedText (s : String) (t : List Char) :
    scanToken limits '"' (s.toList.flatMap escaped ++ '"' :: t) =
      ⟨quotedText s, .ok (.stringLiteral, .text s)⟩ := by
  show quoted _ = _
  rw [quoted, quotedBody_escaped, Scan.map, Scan.prepend]
  simp only [Except.map, String.ofList_toList, List.singleton_append, quotedText]

/-! ## Integers -/

/-- Digits without a sign or with a minus sign are an integer, where it fits in 64 bits. -/
theorem numeral_digits {sign digits : List Char} (hsign : sign = [] ∨ sign = ['-'])
    (hdigits : ∀ c ∈ digits, c.isDigit) (hne : digits ≠ []) :
    numeral (sign ++ digits) = integral sign digits := by
  have hrun : SignedRun (sign ++ digits) sign digits [] :=
    ⟨by rw [List.append_nil], by rcases hsign with rfl | rfl <;> decide, hdigits, rfl⟩
  exact hrun.numeral_integral hne (fun hx => Option.some_ne_none _ hx.2.symm) (by decide)

/-- A text that starts with a digit, or with a minus sign before one, is scanned as a
numeral. -/
theorem scanToken_of_numeral {d : Char} {u : List Char} (h : startsWithNumeral (d :: u)) :
    scanToken limits d u = numeral (d :: u) := by
  rw [scanToken, if_pos h]

/-- Digits under a sign are scanned as an integer of that value. -/
theorem integral_of_value {sign digits : List Char} {n : Int64}
    (h : signedValue sign (Nat.ofDigitChars 10 digits 0) = n.toInt) :
    integral sign digits = ⟨sign ++ digits, .ok (.integerLiteral, .int n)⟩ := by
  have hread : decimalInteger? sign digits = some n := by
    rw [decimalInteger?, h, Int64.ofInt_toInt]
    exact if_pos ⟨n.minValue_le_toInt, n.toInt_le⟩
  rw [integral, hread]
  rfl

/-- An integer is scanned as itself. -/
theorem scanToken_integerText (n : Int64) :
    ∃ d u, integerText n.toInt = d :: u ∧ ¬ isBlank d ∧ d ≠ '/' ∧
      scanToken limits d u = ⟨integerText n.toInt, .ok (.integerLiteral, .int n)⟩ := by
  have hdigits : ∀ c ∈ Nat.toDigits 10 n.toInt.natAbs, c.isDigit := fun c hc =>
    Nat.isDigit_of_mem_toDigits (by decide) (by decide) hc
  have hvalue : Nat.ofDigitChars 10 (Nat.toDigits 10 n.toInt.natAbs) 0 = n.toInt.natAbs :=
    Nat.ofDigitChars_toDigits (by decide) (by decide)
  have hne : Nat.toDigits 10 n.toInt.natAbs ≠ [] := Nat.toDigits_ne_nil
  rw [integerText]
  generalize Nat.toDigits 10 n.toInt.natAbs = digits at *
  obtain ⟨d, u, rfl⟩ := List.exists_cons_of_ne_nil hne
  have hd := hdigits d List.mem_cons_self
  by_cases hneg : n.toInt < 0
  · rw [if_pos hneg]
    refine ⟨'-', d :: u, rfl, by decide, by decide, ?_⟩
    have hsigned : signedValue ['-'] (Nat.ofDigitChars 10 (d :: u) 0) = n.toInt := by
      rw [hvalue, signedValue, if_pos rfl]
      omega
    rw [scanToken_of_numeral (by simp [startsWithNumeral, startsWithDigit, hd])]
    show numeral (['-'] ++ d :: u) = _
    rw [numeral_digits (Or.inr rfl) hdigits hne, integral_of_value hsigned]
    rfl
  · rw [if_neg hneg]
    have hblank : ¬ isBlank d := fun h => by
      simp only [isBlank, Bool.or_eq_true, beq_iff_eq] at h
      rcases h with (((rfl | rfl) | rfl) | rfl) | rfl <;> exact absurd hd (by decide)
    refine ⟨d, u, rfl, hblank, by rintro rfl; exact absurd hd (by decide), ?_⟩
    have hsigned : signedValue [] (Nat.ofDigitChars 10 (d :: u) 0) = n.toInt := by
      rw [hvalue, signedValue, if_neg (by decide)]
      omega
    rw [scanToken_of_numeral (by simp [startsWithNumeral, hd])]
    show numeral ([] ++ d :: u) = _
    rw [numeral_digits (Or.inl rfl) hdigits hne, integral_of_value hsigned]
    rfl

/-! ## Texts that are one token -/

/-- An identifier or a type carries its own text. -/
theorem value_of_scanToken {d : Char} {u : List Char} {kind : TokenKind} {value : TokenValue}
    (h : (scanToken limits d u).outcome = .ok (kind, value))
    (hkind : kind = .identifier ∨ kind = .type) :
    value = .text (String.ofList (scanToken limits d u).lexeme) := by
  have hcarries := carries_of_scanToken h
  rcases hkind with rfl | rfl
  · exact hcarries.own (by decide) rfl (by rintro ⟨⟩) (by decide)
  · exact hcarries.own (by decide) rfl (by rintro ⟨⟩) (by decide)

/-- A text that is read as one identifier or type is scanned as that token. -/
theorem scanToken_of_lexesAs {kind : TokenKind} {text : String}
    (h : LexesAs limits kind text) (hkind : kind = .identifier ∨ kind = .type) :
    ∃ d u, text.toList = d :: u ∧ ¬ isBlank d ∧ d ≠ '/' ∧
      scanToken limits d u = ⟨text.toList, .ok (kind, .text text)⟩ := by
  obtain ⟨x, e, hreads, hx, htext⟩ := h
  have hnext : ∃ m, Lexer.next (.ofSource limits text) = .ok x m := by
    cases hreads with
    | more hnext _ _ => exact ⟨_, hnext⟩
  obtain ⟨m, hnext⟩ := hnext
  rcases Lexer.next_ok_cases hnext with ⟨_, _, rfl⟩ | ⟨d, u, k, v, hrest, hout, _, rfl⟩
  · rcases hkind with rfl | rfl <;> cases hx
  obtain rfl : k = kind := hx
  have hlexeme : (scanToken limits d u).lexeme = text.toList := by
    rw [← htext, String.toList_ofList]
    rfl
  replace hout : (scanToken limits d u).outcome = .ok (k, v) := hout
  -- the token is as long as the text, so there is neither a gap before it nor more behind it
  have hsplit : gap text.toList ++ d :: u = text.toList := by
    have hskip := Lexer.gap_append_rest_skip (.ofSource limits text)
    rwa [hrest] at hskip
  have hle := (scanToken_isPrefix limits d u).length_le
  have hlengths := congrArg List.length hsplit
  rw [List.length_append] at hlengths
  have hgap : gap text.toList = [] := by
    rw [hlexeme] at hle
    exact List.eq_nil_of_length_eq_zero (by omega)
  have hwhole : text.toList = d :: u := by
    rw [hgap] at hsplit
    exact hsplit.symm
  refine ⟨d, u, hwhole, ?_, ?_, ?_⟩
  · intro hblank
    rw [hwhole, gap, gapFrom_blank hblank] at hgap
    cases hgap
  · rintro rfl
    cases hout
    rcases hkind with h | h <;> cases h
  · have hvalue := value_of_scanToken hout hkind
    rw [hlexeme, String.ofList_toList] at hvalue
    rw [← hlexeme, ← hvalue, ← hout]

end GenericIR
