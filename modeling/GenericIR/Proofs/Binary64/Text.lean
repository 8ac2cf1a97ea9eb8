/-
# Written doubles read back

The text of a decimal reads back to a decimal of the same value, whether its places are
written out or not, and it keeps to the number grammar.  Since the shortest decimals of
different magnitudes have different values, a style of floats tells finite doubles apart.

* `Decimal.value_ofText_positional`, `Decimal.ofText_scientific` : texts read back;
* `FloatStyle.printer` : every style is a printer of numbers.
-/
import GenericIR.Binary64.Text
import GenericIR.Proofs.Binary64.Interval
import GenericIR.Proofs.Json.Number
import GenericIR.Proofs.Spaced.Alone

namespace GenericIR

namespace Decimal

/-! ## Reading a decimal -/

/-- A decimal with a known run of whole digits. -/
theorem ofText_append {whole rest : List Char} (hwhole : ∀ c ∈ whole, c.isDigit)
    (hrest : rest.head?.any Char.isDigit = false) :
    ofText (whole ++ rest) =
      ⟨Nat.ofDigitChars 10 (whole ++ (fractionPart rest).1) 0,
        (exponentPart (fractionPart rest).2).2 - (fractionPart rest).1.length⟩ := by
  obtain ⟨htake, hdrop⟩ := takeWhile_run hwhole hrest
  rw [ofText, htake, hdrop]

/-- A fraction with a known run of digits. -/
theorem fractionPart_point {fraction rest : List Char} (hfraction : ∀ c ∈ fraction, c.isDigit)
    (hrest : rest.head?.any Char.isDigit = false) :
    fractionPart ('.' :: (fraction ++ rest)) = (fraction, rest) := by
  obtain ⟨htake, hdrop⟩ := takeWhile_run hfraction hrest
  rw [fractionPart, htake, hdrop]

/-- Whole digits with nothing behind them. -/
theorem ofText_whole {whole : List Char} (hwhole : ∀ c ∈ whole, c.isDigit) :
    ofText whole = ⟨Nat.ofDigitChars 10 whole 0, 0⟩ := by
  have hread : ofText (whole ++ []) = _ := ofText_append hwhole rfl
  rw [List.append_nil] at hread
  rw [hread]
  simp [fractionPart, exponentPart]

/-- Whole digits and a fraction with nothing behind them. -/
theorem ofText_point {whole fraction : List Char} (hwhole : ∀ c ∈ whole, c.isDigit)
    (hfraction : ∀ c ∈ fraction, c.isDigit) :
    ofText (whole ++ '.' :: fraction) =
      ⟨Nat.ofDigitChars 10 (whole ++ fraction) 0, -fraction.length⟩ := by
  have hpoint : fractionPart ('.' :: (fraction ++ [])) = _ := fractionPart_point hfraction rfl
  rw [List.append_nil] at hpoint
  rw [ofText_append hwhole rfl, hpoint]
  simp [exponentPart]

/-- A power of ten reads back. -/
theorem exponentPart_power (n : Int) :
    (exponentPart ('e' :: (if n < 0 then '-' else '+') :: Nat.toDigits 10 n.natAbs)).2 = n := by
  obtain ⟨hne, hdigits⟩ := Json.isDigits_toDigits n.natAbs
  have htake : (Nat.toDigits 10 n.natAbs).takeWhile Char.isDigit = Nat.toDigits 10 n.natAbs :=
    List.takeWhile_eq_self_iff.mpr hdigits
  by_cases hn : n < 0
  · simp [exponentPart, signPart, hn, htake, hne, Nat.ofDigitChars_ten_toDigits, abs_of_neg hn]
  · simp [exponentPart, signPart, hn, htake, hne, Nat.ofDigitChars_ten_toDigits, not_lt.mp hn]

/-- Zeros behind the digits of a number multiply it by powers of ten. -/
theorem ofDigitChars_replicate (k n : Nat) :
    Nat.ofDigitChars 10 (List.replicate k '0') n = n * 10 ^ k := by
  induction k generalizing n with
  | zero => simp [Nat.ofDigitChars]
  | succ k ih =>
      rw [List.replicate_succ, Nat.ofDigitChars_cons, ih, pow_succ]
      simp only [Nat.sub_self, Nat.add_zero]
      ring

/-- Zeros are digits. -/
theorem isDigit_of_mem_replicate {k : Nat} {c : Char} (hc : c ∈ List.replicate k '0') :
    c.isDigit := by
  rw [List.eq_of_mem_replicate hc]
  decide

/-- The characters of a lone zero are digits. -/
theorem isDigit_of_mem_zero : ∀ c ∈ ['0'], c.isDigit :=
  fun _ => isDigit_of_mem_replicate (k := 1)

/-! ## The text of a decimal reads back -/

/-- The power of ten of the first digit, the digits and the exponent belong together. -/
theorem order_eq (d : Decimal) :
    d.order = d.exponent + (Nat.toDigits 10 d.digits).length - 1 := rfl

/-- A decimal written with a power of ten reads back. -/
theorem ofText_scientific (d : Decimal) : ofText d.scientific = d := by
  obtain ⟨hne, hdigits⟩ := Json.isDigits_toDigits d.digits
  have horder := d.order_eq
  have hvalue := Nat.ofDigitChars_ten_toDigits (n := d.digits)
  have hpower := exponentPart_power d.order
  have hlength := List.length_pos_of_ne_nil hne
  unfold scientific
  dsimp only
  generalize Nat.toDigits 10 d.digits = ds at *
  generalize (if d.order < 0 then '-' else '+') :: Nat.toDigits 10 d.order.natAbs = power at *
  have hfraction :
      fractionPart ((if ds.length ≤ 1 then [] else '.' :: ds.drop 1) ++ 'e' :: power) =
        (ds.drop 1, 'e' :: power) := by
    split
    · next hone => rw [List.drop_eq_nil_of_le hone]; rfl
    · exact fractionPart_point (fun c hc => hdigits c (List.mem_of_mem_drop hc)) rfl
  rw [List.append_assoc, ofText_append (fun c hc => hdigits c (List.mem_of_mem_take hc))
    (by split <;> rfl), hfraction, List.take_append_drop, hvalue, hpower, List.length_drop, horder]
  congr 1
  omega

/-- A whole number with its zeros written out reads back to its value. -/
theorem value_ofText_zeros (d : Decimal) (hexponent : 0 ≤ d.exponent) (point : Bool) :
    (ofText (Nat.toDigits 10 d.digits ++ List.replicate d.exponent.toNat '0' ++
      if point then ['.', '0'] else [])).value = d.value := by
  obtain ⟨-, hdigits⟩ := Json.isDigits_toDigits d.digits
  obtain ⟨k, hk⟩ := Int.eq_ofNat_of_zero_le hexponent
  have hwhole : ∀ c ∈ Nat.toDigits 10 d.digits ++ List.replicate k '0', c.isDigit :=
    fun c hc => (List.mem_append.mp hc).elim (hdigits c) isDigit_of_mem_replicate
  have hvalue : Nat.ofDigitChars 10 (Nat.toDigits 10 d.digits ++ List.replicate k '0') 0 =
      d.digits * 10 ^ k := by
    rw [Nat.ofDigitChars_append, Nat.ofDigitChars_ten_toDigits, ofDigitChars_replicate]
  rw [hk, Int.toNat_natCast]
  cases point with
  | true =>
      rw [if_pos rfl, ofText_point hwhole isDigit_of_mem_zero, Nat.ofDigitChars_append, hvalue]
      simp [value, hk, Nat.ofDigitChars_cons]
      field_simp
  | false =>
      rw [if_neg (by decide), List.append_nil, ofText_whole hwhole, hvalue]
      simp [value, hk]

/-- A decimal with its places written out reads back to its value. -/
theorem value_ofText_positional (d : Decimal) (point : Bool) :
    (ofText (d.positional point)).value = d.value := by
  obtain ⟨hne, hdigits⟩ := Json.isDigits_toDigits d.digits
  have horder := d.order_eq
  have hvalue := Nat.ofDigitChars_ten_toDigits (n := d.digits)
  unfold positional
  dsimp only
  split
  · next hexponent => exact value_ofText_zeros d hexponent point
  · generalize Nat.toDigits 10 d.digits = ds at *
    split
    · next hexponent hwhole =>
        -- The point stands between two of the digits.
        rw [ofText_point (fun c hc => hdigits c (List.mem_of_mem_take hc))
          (fun c hc => hdigits c (List.mem_of_mem_drop hc)), List.take_append_drop, hvalue,
          List.length_drop]
        congr 2
        omega
    · next hexponent hwhole =>
        -- Zeros stand between the point and the digits.
        have hzeros : ∀ c ∈ List.replicate (-d.order - 1).toNat '0' ++ ds, c.isDigit :=
          fun c hc => (List.mem_append.mp hc).elim isDigit_of_mem_replicate (hdigits c)
        have hplaces : Nat.ofDigitChars 10
            (['0'] ++ (List.replicate (-d.order - 1).toNat '0' ++ ds)) 0 = d.digits := by
          rw [← List.append_assoc, Nat.ofDigitChars_append, ← List.replicate_one,
            ← List.replicate_add, ofDigitChars_replicate, Nat.zero_mul, hvalue]
        have hread : ofText (['0'] ++ '.' :: _) = _ := ofText_point isDigit_of_mem_zero hzeros
        rw [hplaces, List.length_append, List.length_replicate] at hread
        rw [List.cons_append, List.cons_append]
        refine (congrArg value hread).trans (congrArg (fun e => value ⟨d.digits, e⟩) ?_)
        omega

/-! ## The text of a decimal is a number -/

/-- A decimal written with a power of ten is a number. -/
theorem isUnsigned_scientific (d : Decimal) : Json.IsUnsigned d.scientific := by
  obtain ⟨hne, hdigits⟩ := Json.isDigits_toDigits d.digits
  have hpower := Json.isDigits_toDigits d.order.natAbs
  unfold scientific
  dsimp only
  generalize Nat.toDigits 10 d.digits = ds at *
  generalize Nat.toDigits 10 d.order.natAbs = power at *
  obtain ⟨c, rest, rfl⟩ := List.exists_cons_of_ne_nil hne
  have hrest : ∀ c ∈ rest, c.isDigit := fun c hc => hdigits c (List.mem_cons_of_mem _ hc)
  refine ⟨[c], if (c :: rest).length ≤ 1 then [] else '.' :: rest,
    'e' :: [if d.order < 0 then '-' else '+'] ++ power, ?_, ?_, ?_, rfl⟩
  · refine ⟨⟨by simp, by simpa using hdigits c List.mem_cons_self⟩, ?_⟩
    simp
  · split
    · exact .none
    · next hlong =>
        have hlength : rest ≠ [] := by
          rintro rfl
          exact hlong (by simp)
        exact .point ⟨hlength, hrest⟩
  · refine .power (by decide) ?_ hpower
    split <;> decide

/-- A decimal with its places written out is a number, unless it is a zero with further zeros
behind it. -/
theorem isUnsigned_positional (d : Decimal) (hd : d.digits = 0 → d.exponent = 0) (point : Bool) :
    Json.IsUnsigned (d.positional point) := by
  obtain ⟨hne, hdigits⟩ := Json.isDigits_toDigits d.digits
  have horder := d.order_eq
  have hlength := List.length_pos_of_ne_nil hne
  have hzero : (Nat.toDigits 10 d.digits).head? = some '0' → d.digits = 0 := by
    intro h
    by_contra hpos
    exact Json.head?_toDigits_ne_zero (Nat.pos_of_ne_zero hpos) h
  unfold positional
  dsimp only
  split
  · next hexponent =>
      refine ⟨Nat.toDigits 10 d.digits ++ List.replicate d.exponent.toNat '0',
        if point then ['.', '0'] else [], [], ⟨⟨by simp [hne], ?_⟩, ?_⟩, ?_, .none, by simp⟩
      · exact fun c hc => (List.mem_append.mp hc).elim (hdigits c) isDigit_of_mem_replicate
      · rw [List.head?_append_of_ne_nil _ hne]
        intro h
        rw [hzero h, hd (hzero h)]
        rfl
      · split
        · exact .point ⟨by simp, isDigit_of_mem_zero⟩
        · exact .none
  · next hexponent =>
      split
      · next hwhole =>
          refine ⟨(Nat.toDigits 10 d.digits).take (d.order + 1).toNat,
            '.' :: (Nat.toDigits 10 d.digits).drop (d.order + 1).toNat, [],
            ⟨⟨?_, fun c hc => hdigits c (List.mem_of_mem_take hc)⟩, ?_⟩,
            .point ⟨?_, fun c hc => hdigits c (List.mem_of_mem_drop hc)⟩, .none, by simp⟩
          · rw [← List.length_pos_iff_ne_nil, List.length_take]
            omega
          · rw [List.head?_take, if_neg (by omega)]
            intro h
            exact absurd (hd (hzero h)) (by omega)
          · rw [← List.length_pos_iff_ne_nil, List.length_drop]
            omega
      · next hwhole =>
          refine ⟨['0'], '.' :: (List.replicate (-d.order - 1).toNat '0' ++ Nat.toDigits 10 d.digits),
            [], ⟨⟨by simp, isDigit_of_mem_zero⟩, fun _ => rfl⟩, .point ⟨by simp [hne], ?_⟩, .none,
            by simp⟩
          exact fun c hc => (List.mem_append.mp hc).elim isDigit_of_mem_replicate (hdigits c)

end Decimal

/-! ## Styles as printers -/

section

variable (style : FloatStyle)

/-- The text of a finite double without its sign. -/
def Binary64.unsignedText (x : Binary64) : List Char :=
  let d := Decimal.shortest style.tie x.magnitude
  if style.positional d.order then d.positional style.point else d.scientific

/-- A finite double is its sign in front of its unsigned text. -/
theorem Binary64.finiteText_eq (x : Binary64) :
    x.finiteText style = (if x.negative then ['-'] else []) ++ x.unsignedText style := by
  cases hsign : x.negative <;> simp [finiteText, unsignedText, hsign]

/-- The unsigned text of a double is a number without a sign. -/
theorem Binary64.isUnsigned_unsignedText (x : Binary64) :
    Json.IsUnsigned (x.unsignedText style) := by
  unfold unsignedText
  dsimp only
  split
  · refine Decimal.isUnsigned_positional _ (fun h => ?_) style.point
    rw [Decimal.shortest_of_digits_eq_zero h]
  · exact Decimal.isUnsigned_scientific _

/-- The unsigned text of a double reads back to its value. -/
theorem Binary64.value_ofText_unsignedText (x : Binary64) :
    (Decimal.ofText (x.unsignedText style)).value =
      (Decimal.shortest style.tie x.magnitude).value := by
  unfold unsignedText
  dsimp only
  split
  · exact Decimal.value_ofText_positional _ _
  · rw [Decimal.ofText_scientific]

/-- Different doubles have different texts. -/
theorem Binary64.finiteText_injective {x y : Binary64}
    (h : x.finiteText style = y.finiteText style) : x = y := by
  have hne : ∀ (u v : Binary64), '-' :: u.unsignedText style ≠ v.unsignedText style := by
    intro u v huv
    have hdigit := (v.isUnsigned_unsignedText style).startsWithDigit
    rw [← huv] at hdigit
    exact absurd hdigit Bool.false_ne_true
  have hparts : x.negative = y.negative ∧ x.unsignedText style = y.unsignedText style := by
    rw [finiteText_eq, finiteText_eq] at h
    cases hx : x.negative <;> cases hy : y.negative <;> simp only [hx, hy] at h
    · exact ⟨rfl, h⟩
    · exact absurd h.symm (hne y x)
    · exact absurd h (hne x y)
    · exact ⟨rfl, (List.cons.inj h).2⟩
  obtain ⟨hsign, htext⟩ := hparts
  have hvalue := x.value_ofText_unsignedText style
  rw [htext, y.value_ofText_unsignedText style] at hvalue
  rw [← ofMagnitude_magnitude x, ← ofMagnitude_magnitude y, hsign,
    Decimal.shortest_value_injective hvalue]

/-- A style of floats as a printer of numbers. -/
def FloatStyle.printer : Json.FloatPrinter where
  text x := x.finiteText style
  number x _ := by
    refine ⟨_, _, ?_, x.isUnsigned_unsignedText style, x.finiteText_eq style⟩
    split <;> decide
  injective _ _ _ _ h := Binary64.finiteText_injective style h

end

/-- The documents of the program are written with the shortest numbers that read back. -/
theorem Json.word_floatStyle_printer (x : Binary64) :
    (Json.floatStyle.printer.word x).chars = Json.floatText x := by
  unfold FloatPrinter.word floatText
  split <;> rfl

end GenericIR
