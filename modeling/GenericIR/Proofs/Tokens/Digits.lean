/-
# Runs of digits

The value of a run of digits to a base, most significant digit first, with digits beyond nine as
letters of either case.  The folds that the scan of a numeral makes over its digits give this
value, and the digits that a number is written with have it again.

* `runValue` : the value of a run of digits;
* `ofDigitChars_eq_runValue`, `hexValue_eq_runValue` : the folds of the scan;
* `runValue_toDigits` : writing a number and taking the value of its digits;
* `SignedRun` : a text with an optional sign and all the digits that follow it at its front.
-/
import GenericIR.Proofs.Bytes.Source
import GenericIR.Proofs.Spaced.Alone
import Mathlib.Data.List.Induction
import Mathlib.Data.Nat.Digits.Defs

namespace GenericIR

/-! ## Values of digits -/

/-- The value of a digit to a base up to sixteen. -/
def digitValue (c : Char) : Nat := "0123456789abcdef".toList.idxOf c.toLower

/-- The value of a run of digits to a base. -/
def runValue (base : Nat) (digits : List Char) : Nat :=
  Nat.ofDigits base (digits.map digitValue).reverse

@[simp] theorem runValue_nil (base : Nat) : runValue base [] = 0 := rfl

/-- One more digit at the end. -/
theorem runValue_concat (base : Nat) (digits : List Char) (c : Char) :
    runValue base (digits ++ [c]) = base * runValue base digits + digitValue c := by
  simp only [runValue, List.map_append, List.map_cons, List.map_nil, List.reverse_append,
    List.reverse_singleton, List.singleton_append, Nat.ofDigits_cons]
  exact Nat.add_comm _ _

/-- A run in front of another one is worth a power of the base. -/
theorem runValue_append (base : Nat) (digits more : List Char) :
    runValue base (digits ++ more) =
      base ^ more.length * runValue base digits + runValue base more := by
  simp only [runValue, List.map_append, List.reverse_append, Nat.ofDigits_append,
    List.length_reverse, List.length_map]
  exact Nat.add_comm _ _

/-- A fold that takes digit after digit gives the value of the run. -/
theorem foldl_eq_runValue {base : Nat} {value : Char → Nat} (digits : List Char)
    (h : ∀ c ∈ digits, value c = digitValue c) :
    digits.foldl (fun n c => base * n + value c) 0 = runValue base digits := by
  induction digits using List.reverseRecOn with
  | nil => rfl
  | append_singleton digits c ih =>
      have hfront := ih fun d hd => h d (List.mem_append_left _ hd)
      have hlast := h c (List.mem_append_right _ List.mem_cons_self)
      rw [List.foldl_append, hfront, List.foldl_cons, List.foldl_nil, hlast, runValue_concat]

/-! ## The folds of a numeral -/

/-- A decimal digit has the same value to the base sixteen. -/
theorem digitValue_of_isDigit {c : Char} (h : c.isDigit) : c.toNat - '0'.toNat = digitValue c :=
  forall_ascii (p := fun c => c.isDigit → c.toNat - '0'.toNat = digitValue c) (by decide)
    (ascii_of_isDigit c h) h

/-- The two cases of a letter have the same value as digits. -/
theorem digitValue_of_isHexDigit {c : Char} (h : isHexDigit c) : hexDigitValue c = digitValue c :=
  forall_ascii (p := fun c => isHexDigit c → hexDigitValue c = digitValue c) (by decide)
    (ascii_of_isHexDigit c h) h

/-- The decimal number that the scan makes of digits is their value. -/
theorem ofDigitChars_eq_runValue {digits : List Char} (h : ∀ c ∈ digits, c.isDigit) :
    Nat.ofDigitChars 10 digits 0 = runValue 10 digits :=
  foldl_eq_runValue digits fun c hc => digitValue_of_isDigit (h c hc)

/-- The hexadecimal number that the scan makes of digits is their value. -/
theorem hexValue_eq_runValue {digits : List Char} (h : ∀ c ∈ digits, isHexDigit c) :
    hexValue digits = runValue 16 digits :=
  foldl_eq_runValue digits fun c hc => digitValue_of_isHexDigit (h c hc)

/-! ## Numbers written in digits -/

/-- A number below the base is the value of its digit. -/
theorem digitValue_digitChar : ∀ n < 16, digitValue n.digitChar = n := by decide

/-- The digits that numbers are written with are hexadecimal digits. -/
theorem isHexDigit_digitChar : ∀ n < 16, isHexDigit n.digitChar := by decide

/-- The digits of a number have the number as their value. -/
theorem runValue_toDigits {base : Nat} (hone : 1 < base) (hbase : base ≤ 16) (n : Nat) :
    runValue base (Nat.toDigits base n) = n := by
  induction n using Nat.strongRecOn with
  | ind n ih =>
      rcases Nat.lt_or_ge n base with hlt | hge
      · rw [Nat.toDigits_of_lt_base hlt, ← List.nil_append [_], runValue_concat, runValue_nil,
          digitValue_digitChar n (by omega)]
        omega
      · have hless : n / base < n := Nat.div_lt_self (by omega) hone
        have hmod : n % base < 16 := Nat.lt_of_lt_of_le (Nat.mod_lt n (by omega)) hbase
        rw [Nat.toDigits_of_base_le hone hge, runValue_concat, ih _ hless,
          digitValue_digitChar _ hmod]
        exact Nat.div_add_mod n base

/-- The digits of a number to the base sixteen are hexadecimal digits. -/
theorem isHexDigit_of_mem_toDigits (n : Nat) : ∀ c ∈ Nat.toDigits 16 n, isHexDigit c := by
  induction n using Nat.strongRecOn with
  | ind n ih =>
      rcases Nat.lt_or_ge n 16 with hlt | hge
      · rw [Nat.toDigits_of_lt_base hlt]
        intro c hc
        rw [List.mem_singleton.mp hc]
        exact isHexDigit_digitChar n hlt
      · rw [Nat.toDigits_of_base_le (by decide) hge]
        intro c hc
        rcases List.mem_append.mp hc with hfront | hlast
        · exact ih _ (Nat.div_lt_self (by omega) (by decide)) c hfront
        · rw [List.mem_singleton.mp hlast]
          exact isHexDigit_digitChar _ (Nat.mod_lt n (by decide))

/-! ## A sign and the digits behind it -/

/-- An optional sign is found again in front of what is no sign. -/
theorem signPart_append_of_mem {sign u : List Char} (hsign : sign ∈ [[], ['+'], ['-']])
    (hfirst : ∀ c ∈ u.head?, ¬ (c = '+' ∨ c = '-')) : signPart (sign ++ u) = sign := by
  have hself : signPart sign = sign := by
    simp only [List.mem_cons, List.not_mem_nil, or_false] at hsign
    rcases hsign with rfl | rfl | rfl <;> rfl
  have happend := signPart_signPart sign hfirst
  rwa [hself] at happend

/-- A run of digits does not start with a sign. -/
theorem not_sign_of_digits {digits : List Char} (hne : digits ≠ [])
    (hdigits : ∀ c ∈ digits, c.isDigit) (rest : List Char) :
    ∀ c ∈ (digits ++ rest).head?, ¬ (c = '+' ∨ c = '-') := by
  obtain ⟨d, ds, rfl⟩ := List.exists_cons_of_ne_nil hne
  intro c hc
  obtain rfl : d = c := Option.some.inj hc
  have hd := hdigits d List.mem_cons_self
  rintro (rfl | rfl) <;> exact absurd hd (by decide)

/-- A text that starts with an optional sign and a run of digits that no digit follows. -/
structure SignedRun (text sign digits rest : List Char) : Prop where
  text_eq : text = sign ++ (digits ++ rest)
  sign_mem : sign ∈ [[], ['+'], ['-']]
  isDigit : ∀ c ∈ digits, c.isDigit
  ends : rest.head?.any Char.isDigit = false

namespace SignedRun

variable {text sign digits rest more : List Char}

/-- The sign at the front is taken as one. -/
theorem signPart_eq (h : SignedRun text sign digits rest)
    (hfirst : ∀ c ∈ (digits ++ rest).head?, ¬ (c = '+' ∨ c = '-')) : signPart text = sign := by
  rw [h.text_eq, signPart_append_of_mem h.sign_mem hfirst]

/-- No digit is a sign. -/
theorem first_of_ne_nil (h : SignedRun text sign digits rest) (hdigits : digits ≠ []) :
    ∀ c ∈ (digits ++ rest).head?, ¬ (c = '+' ∨ c = '-') :=
  not_sign_of_digits hdigits h.isDigit rest

/-- A point is no sign. -/
theorem first_of_point (h : SignedRun text sign digits rest) (hrest : rest = '.' :: more) :
    ∀ c ∈ (digits ++ rest).head?, ¬ (c = '+' ∨ c = '-') := by
  by_cases hdigits : digits = []
  · rw [hdigits, hrest]
    intro c hc
    obtain rfl : '.' = c := Option.some.inj hc
    decide
  · exact h.first_of_ne_nil hdigits

/-- A text with a point behind its digits has one sign and one run of digits in front of it. -/
theorem unique {sign' digits' more' : List Char} (h : SignedRun text sign digits ('.' :: more))
    (h' : SignedRun text sign' digits' ('.' :: more')) :
    sign = sign' ∧ digits = digits' ∧ more = more' := by
  have hsign : sign = sign' :=
    (h.signPart_eq (h.first_of_point rfl)).symm.trans (h'.signPart_eq (h'.first_of_point rfl))
  subst hsign
  have hbody := List.append_cancel_left (h.text_eq.symm.trans h'.text_eq)
  obtain ⟨htake, hdrop⟩ := takeWhile_run h.isDigit h.ends
  obtain ⟨htake', hdrop'⟩ := takeWhile_run h'.isDigit h'.ends
  rw [hbody] at htake hdrop
  exact ⟨rfl, htake.symm.trans htake', (List.cons.inj (hdrop.symm.trans hdrop')).2⟩

/-- A text with a digit behind its sign starts with a numeral. -/
theorem startsWithNumeral (h : SignedRun text sign digits rest) (hdigits : digits ≠ []) :
    startsWithNumeral text := by
  obtain ⟨d, ds, rfl⟩ := List.exists_cons_of_ne_nil hdigits
  have hd := h.isDigit d List.mem_cons_self
  have hmem := h.sign_mem
  simp only [List.mem_cons, List.not_mem_nil, or_false] at hmem
  rw [h.text_eq]
  rcases hmem with rfl | rfl | rfl
  · simp only [List.nil_append, List.cons_append, GenericIR.startsWithNumeral, hd, Bool.true_or]
  · exact hd
  · exact hd

/-- The scan of a lone zero with an `x` behind it. -/
theorem numeral_hexadecimal (h : SignedRun text sign digits rest) (hzero : digits = ['0'])
    (hrest : rest = 'x' :: more) : numeral text = hexadecimal sign more := by
  have hsign := h.signPart_eq (h.first_of_ne_nil (by rw [hzero]; exact List.cons_ne_nil _ _))
  rw [h.text_eq] at hsign ⊢
  exact (numeral_split hsign h.isDigit h.ends).1 more hrest hzero

/-- The scan of digits with a point behind them. -/
theorem numeral_fractional (h : SignedRun text sign digits rest) (hrest : rest = '.' :: more) :
    numeral text = fractional sign digits more := by
  have hsign := h.signPart_eq (h.first_of_point hrest)
  rw [h.text_eq] at hsign ⊢
  exact (numeral_split hsign h.isDigit h.ends).2.1 more hrest

/-- The scan of digits with neither a point nor the `x` of a hexadecimal number behind them. -/
theorem numeral_integral (h : SignedRun text sign digits rest) (hdigits : digits ≠ [])
    (hx : ¬ (digits = ['0'] ∧ rest.head? = some 'x')) (hpoint : rest.head? ≠ some '.') :
    numeral text = integral sign digits := by
  have hsign := h.signPart_eq (h.first_of_ne_nil hdigits)
  obtain ⟨htake, hdrop⟩ := takeWhile_run h.isDigit h.ends
  have hbody : text.drop (signPart text).length = digits ++ rest := by
    rw [hsign, h.text_eq, List.drop_left]
  unfold numeral
  dsimp only
  rw [hbody, hsign, htake, hdrop]
  split
  · next more => exact if_neg fun hzero => hx ⟨hzero, rfl⟩
  · next more => exact absurd rfl hpoint
  · rfl

end SignedRun

end GenericIR
