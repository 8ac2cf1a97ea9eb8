/-
# Float literals are exact

A number with a point behind its digits is a float: an optional sign, digits, the point, digits and
an optional power of ten, where there may be no digits on a side of the point.  The lexer takes the
longest front of that form and fills it in before it is read as a double: a zero for a side of the
point without digits, and no plus sign.  The text filled in still writes the same number, so every
reader that knows only such texts and rounds correctly gives the nearest double, the reader of the
lexer among them; and a float is always read.

* `FloatText` : floats as they are written, with the number that they write;
* `FloatText.normal`, `FloatText.text_normal` : the text with both sides of the point filled in;
* `FloatText.ofText?_text` : such a text is read as a double;
* `SignedRun.float`, `SignedRun.numeral_float` : the longest float at the front of a text;
* `floats_read_exactly` : what a lexer in front of a float reads.
-/
import GenericIR.Proofs.Binary64.Nearest
import GenericIR.Proofs.Binary64.Text
import GenericIR.Proofs.Tokens.Integer

namespace GenericIR

/-! ## Floats as they are written -/

/-- The forms of a power of ten at the end of a float, with its exponent: there may be none, and
otherwise an `e` of either case, an optional sign and digits. -/
inductive PowerForm : List Char → Int → Prop where
  | none : PowerForm [] 0
  | power {e : Char} {sign digits : List Char} (he : e = 'e' ∨ e = 'E')
      (hsign : sign ∈ [[], ['+'], ['-']]) (hne : digits ≠ []) (hdigits : ∀ c ∈ digits, c.isDigit) :
      PowerForm (e :: (sign ++ digits)) (signedValue sign (runValue 10 digits))

/-- A float as it is written. -/
structure FloatText where
  sign : List Char
  whole : List Char
  fraction : List Char
  power : List Char
  exponent : Int
  sign_mem : sign ∈ [[], ['+'], ['-']]
  whole_isDigit : ∀ c ∈ whole, c.isDigit
  fraction_isDigit : ∀ c ∈ fraction, c.isDigit
  powerForm : PowerForm power exponent

namespace FloatText

/-- The text of a float. -/
def text (f : FloatText) : List Char := f.sign ++ (f.whole ++ '.' :: (f.fraction ++ f.power))

/-- Whether a float has a minus sign. -/
def negative (f : FloatText) : Bool := f.sign == ['-']

/-- The number that a float writes, without its sign. -/
def size (f : FloatText) : ℚ :=
  (runValue 10 f.whole + runValue 10 f.fraction / 10 ^ f.fraction.length) * 10 ^ f.exponent

/-- The number that a float writes. -/
def value (f : FloatText) : ℚ := Binary64.signed f.negative f.size

/-- Whether a float has no plus sign and digits on both sides of its point. -/
structure IsNormal (f : FloatText) : Prop where
  sign_ne : f.sign ≠ ['+']
  whole_ne : f.whole ≠ []
  fraction_ne : f.fraction ≠ []

end FloatText

/-- Digits with a zero for none are digits. -/
theorem isDigit_of_mem_orZero {digits : List Char} (h : ∀ c ∈ digits, c.isDigit) :
    ∀ c ∈ orZero digits, c.isDigit := by
  unfold orZero
  split
  · exact Decimal.isDigit_of_mem_zero
  · exact h

theorem orZero_ne_nil (digits : List Char) : orZero digits ≠ [] := by
  unfold orZero
  split
  · exact List.cons_ne_nil _ _
  · assumption

namespace FloatText

/-- A float without its plus sign and with a zero on a side of its point without digits. -/
def normal (f : FloatText) : FloatText where
  sign := if f.negative then ['-'] else []
  whole := orZero f.whole
  fraction := orZero f.fraction
  power := f.power
  exponent := f.exponent
  sign_mem := by split <;> decide
  whole_isDigit := isDigit_of_mem_orZero f.whole_isDigit
  fraction_isDigit := isDigit_of_mem_orZero f.fraction_isDigit
  powerForm := f.powerForm

variable {f : FloatText}

theorem isNormal_normal (f : FloatText) : f.normal.IsNormal where
  sign_ne := by
    show (if f.negative then ['-'] else []) ≠ ['+']
    split <;> decide
  whole_ne := orZero_ne_nil f.whole
  fraction_ne := orZero_ne_nil f.fraction

/-- The text that the lexer fills in is that of the float filled in. -/
theorem text_normal (f : FloatText) :
    f.normal.text = normalFloat f.sign f.whole f.fraction f.power := by
  have hsign : f.normal.sign = if f.sign = ['-'] then ['-'] else [] := by
    show (if (f.sign == ['-']) = true then ['-'] else []) = _
    simp only [beq_iff_eq]
  rw [text, hsign]
  rfl

/-- The sign of zero and of all other numbers is kept. -/
theorem negative_normal (f : FloatText) : f.normal.negative = f.negative := by
  show ((if f.negative then ['-'] else []) == ['-']) = f.negative
  cases f.negative <;> rfl

/-- Filling in the sides of a point does not change the number. -/
theorem value_normal (f : FloatText) : f.normal.value = f.value := by
  have hwhole : runValue 10 (orZero f.whole) = runValue 10 f.whole := by
    unfold orZero
    split
    · next hnil => rw [hnil]; rfl
    · rfl
  have hfraction : (runValue 10 (orZero f.fraction) : ℚ) / 10 ^ (orZero f.fraction).length =
      runValue 10 f.fraction / 10 ^ f.fraction.length := by
    unfold orZero
    split
    · next hnil =>
        have hzero : runValue 10 ['0'] = 0 := rfl
        rw [hnil, hzero, runValue_nil, Nat.cast_zero, zero_div, zero_div]
    · rfl
  have hsize : f.normal.size = f.size := by
    show (_ + _) * (10 : ℚ) ^ f.exponent = _
    rw [size, ← hfraction, ← hwhole]
    rfl
  rw [value, value, negative_normal, hsize]

/-! ## Decimals of floats -/

/-- A float as a decimal, without its sign. -/
def decimal (f : FloatText) : Decimal :=
  ⟨Nat.ofDigitChars 10 (f.whole ++ f.fraction) 0, f.exponent - f.fraction.length⟩

/-- The decimal of a float is the number that it writes. -/
theorem value_decimal (f : FloatText) : f.decimal.value = f.size := by
  have hdigits : ∀ c ∈ f.whole ++ f.fraction, c.isDigit := fun c hc =>
    (List.mem_append.mp hc).elim (f.whole_isDigit c) (f.fraction_isDigit c)
  have hten : (10 : ℚ) ^ f.fraction.length ≠ 0 := pow_ne_zero _ (by norm_num)
  rw [Decimal.value, decimal, ofDigitChars_eq_runValue hdigits, runValue_append, size,
    zpow_sub₀ (by norm_num), zpow_natCast]
  push_cast
  field_simp

/-- A float is read as the double nearest to the number that it writes. -/
theorem nearestTo (f : FloatText) :
    Binary64.NearestTo f.negative f.value (f.decimal.toBinary64 f.negative) := by
  have hnearest := f.decimal.nearestTo_toBinary64 f.negative
  rwa [value_decimal] at hnearest

end FloatText

/-! ## Powers of ten -/

/-- A power of ten is taken with all the digits behind it. -/
theorem exponentPart_power {e : Char} {sign digits : List Char} (he : e = 'e' ∨ e = 'E')
    (hsign : sign ∈ [[], ['+'], ['-']]) (hne : digits ≠ []) (hdigits : ∀ c ∈ digits, c.isDigit)
    (behind : List Char) :
    exponentPart (e :: (sign ++ (digits ++ behind))) =
      (e :: (sign ++ (digits ++ behind.takeWhile Char.isDigit)),
        signedValue sign (runValue 10 (digits ++ behind.takeWhile Char.isDigit))) := by
  have hpart := signPart_append_of_mem hsign (not_sign_of_digits hne hdigits behind)
  have htake : (digits ++ behind).takeWhile Char.isDigit =
      digits ++ behind.takeWhile Char.isDigit := List.takeWhile_append_of_pos hdigits
  have hall : ∀ c ∈ digits ++ behind.takeWhile Char.isDigit, c.isDigit := fun c hc =>
    (List.mem_append.mp hc).elim (hdigits c) List.mem_takeWhile_imp
  have hlong : digits ++ behind.takeWhile Char.isDigit ≠ [] := fun hnil =>
    hne (List.append_eq_nil_iff.mp hnil).1
  rw [exponentPart]
  dsimp only
  rw [hpart, List.drop_left, htake, if_pos ⟨he, hlong⟩, ofDigitChars_eq_runValue hall]
  rfl

/-- What is taken as a power of ten has the form of one. -/
theorem powerForm_exponentPart (text : List Char) :
    PowerForm (exponentPart text).1 (exponentPart text).2 := by
  fun_cases exponentPart text with
  | case1 => exact .none
  | case2 c rest sign digits h n =>
      have hdigits : ∀ c ∈ digits, c.isDigit := fun c hc => List.mem_takeWhile_imp hc
      have hsign : sign ∈ [[], ['+'], ['-']] := by
        simp only [sign]
        fun_cases signPart rest <;> decide
      have hform := PowerForm.power h.1 hsign h.2 hdigits
      rwa [← ofDigitChars_eq_runValue hdigits] at hform
  | case3 c rest => exact .none

/-- A power of ten is taken as it is written. -/
theorem PowerForm.exponentPart_eq {power : List Char} {exponent : Int}
    (h : PowerForm power exponent) : exponentPart power = (power, exponent) := by
  cases h with
  | none => rfl
  | @power e sign digits he hsign hne hdigits =>
      have hpart := exponentPart_power he hsign hne hdigits []
      rwa [List.takeWhile_nil, List.append_nil] at hpart

/-- A power of ten does not start with a digit. -/
theorem PowerForm.head?_any {power : List Char} {exponent : Int} (h : PowerForm power exponent)
    (hne : power ≠ []) (behind : List Char) : (power ++ behind).head?.any Char.isDigit = false := by
  cases h with
  | none => exact absurd rfl hne
  | power he => rcases he with rfl | rfl <;> rfl

/-- All of a power of ten is taken, whatever follows it. -/
theorem PowerForm.isPrefix {power : List Char} {exponent : Int} (h : PowerForm power exponent)
    (behind : List Char) : power <+: (exponentPart (power ++ behind)).1 := by
  cases h with
  | none => exact List.nil_prefix
  | @power e sign digits he hsign hne hdigits =>
      rw [List.cons_append, List.append_assoc, exponentPart_power he hsign hne hdigits]
      exact ⟨behind.takeWhile Char.isDigit, by simp⟩

/-! ## Readers of doubles -/

/-- Whether a reader knows every float without a plus sign and with digits on both sides of the
point, and reads it as the nearest double, with its sign. -/
def CorrectlyRounded (read : List Char → Option Binary64) : Prop :=
  ∀ f : FloatText, f.IsNormal →
    ∃ x, read f.text = some x ∧ Binary64.NearestTo f.negative f.value x

/-- The text of a float that is filled in is read as the double of its decimal. -/
theorem FloatText.ofText?_text {f : FloatText} (hf : f.IsNormal) :
    Binary64.ofText? f.text = some (f.decimal.toBinary64 f.negative) := by
  have hsign : signPart f.text = f.sign :=
    signPart_append_of_mem f.sign_mem (not_sign_of_digits hf.whole_ne f.whole_isDigit _)
  have hbody : f.text.drop f.sign.length = f.whole ++ '.' :: (f.fraction ++ f.power) :=
    List.drop_left
  have hends : f.power.head?.any Char.isDigit = false := by
    by_cases hnil : f.power = []
    · rw [hnil]
      rfl
    · have hhead := f.powerForm.head?_any hnil []
      rwa [List.append_nil] at hhead
  -- the digits in front of the point, those behind it, and the power of ten are all of the text
  obtain ⟨htake, hdrop⟩ : _ ∧ _ :=
    takeWhile_run (v := '.' :: (f.fraction ++ f.power)) f.whole_isDigit rfl
  have hfraction := Decimal.fractionPart_point f.fraction_isDigit hends
  have hpower := f.powerForm.exponentPart_eq
  have hdecimal : Decimal.ofText? (f.whole ++ '.' :: (f.fraction ++ f.power)) = some f.decimal := by
    rw [Decimal.ofText?, Decimal.ofText, htake, hdrop, hfraction]
    dsimp only
    rw [hpower, if_neg fun hnil => hf.whole_ne (List.append_eq_nil_iff.mp hnil).1,
      if_neg (not_not_intro rfl)]
    rfl
  rw [Binary64.ofText?, hsign, hbody, hdecimal]
  rfl

/-- The reader of the lexer rounds correctly. -/
theorem correctlyRounded_ofText? : CorrectlyRounded Binary64.ofText? :=
  fun f hf => ⟨_, f.ofText?_text hf, f.nearestTo⟩

/-- Every reader that rounds correctly reads a float filled in as the same double. -/
theorem CorrectlyRounded.read_normalFloat {read : List Char → Option Binary64}
    (hread : CorrectlyRounded read) (f : FloatText) :
    read (normalFloat f.sign f.whole f.fraction f.power) =
      some (f.normal.decimal.toBinary64 f.negative) := by
  obtain ⟨x, hx, hnearest⟩ := hread f.normal f.isNormal_normal
  have hself := f.normal.nearestTo
  rw [f.negative_normal] at hnearest hself
  rw [← f.text_normal, hx, hnearest.unique hself]

/-! ## The float at the front of a text -/

namespace SignedRun

variable {text sign digits more : List Char}

/-- The float at the front of a text with a point behind its digits. -/
def float (h : SignedRun text sign digits ('.' :: more)) : FloatText where
  sign := sign
  whole := digits
  fraction := more.takeWhile Char.isDigit
  power := (exponentPart (more.dropWhile Char.isDigit)).1
  exponent := (exponentPart (more.dropWhile Char.isDigit)).2
  sign_mem := h.sign_mem
  whole_isDigit := h.isDigit
  fraction_isDigit := fun _ hc => List.mem_takeWhile_imp hc
  powerForm := powerForm_exponentPart _

/-- A number with a point behind its digits is scanned as its float, filled in. -/
theorem numeral_float (h : SignedRun text sign digits ('.' :: more)) :
    numeral text = ⟨h.float.text,
      .ok (.floatLiteral, .float (h.float.normal.decimal.toBinary64 h.float.negative))⟩ := by
  have hread := correctlyRounded_ofText?.read_normalFloat h.float
  have htext : sign ++ digits ++ '.' :: more.takeWhile Char.isDigit ++
      (exponentPart (more.dropWhile Char.isDigit)).1 = h.float.text := by
    rw [List.append_assoc, List.append_assoc]
    rfl
  have hform : fractional sign digits more = readNumeral h.float.text .floatLiteral
      ((Binary64.ofText? (normalFloat h.float.sign h.float.whole h.float.fraction
        h.float.power)).map .float) := by
    rw [fractional, htext]
    rfl
  rw [h.numeral_fractional rfl, hform, hread]
  rfl

/-- The float at the front of a text is a front of it. -/
theorem float_isPrefix (h : SignedRun text sign digits ('.' :: more)) : h.float.text <+: text := by
  have hprefix := numeral_isPrefix text
  rwa [h.numeral_float] at hprefix

/-- No longer front of a text is a float. -/
theorem length_le_float (h : SignedRun text sign digits ('.' :: more)) (g : FloatText)
    (hg : g.text <+: text) : g.text.length ≤ h.float.text.length := by
  obtain ⟨behind, hbehind⟩ := hg
  have hrun : SignedRun text g.sign g.whole ('.' :: (g.fraction ++ (g.power ++ behind))) :=
    ⟨by rw [← hbehind, FloatText.text]; simp, g.sign_mem, g.whole_isDigit, rfl⟩
  obtain ⟨hsign, hwhole, hmore⟩ := h.unique hrun
  have htail : (g.fraction ++ g.power).length ≤
      (more.takeWhile Char.isDigit ++ (exponentPart (more.dropWhile Char.isDigit)).1).length := by
    by_cases hnil : g.power = []
    · rw [hnil, List.append_nil, hmore, List.takeWhile_append_of_pos g.fraction_isDigit,
        List.append_assoc, List.length_append]
      exact Nat.le_add_right _ _
    · obtain ⟨htake, hdrop⟩ :=
        takeWhile_run g.fraction_isDigit (g.powerForm.head?_any hnil behind)
      rw [← hmore] at htake hdrop
      rw [htake, hdrop, List.length_append, List.length_append]
      exact Nat.add_le_add_left (g.powerForm.isPrefix behind).length_le _
  show (g.sign ++ (g.whole ++ '.' :: (g.fraction ++ g.power))).length ≤
    (sign ++ (digits ++ '.' :: (more.takeWhile Char.isDigit ++
      (exponentPart (more.dropWhile Char.isDigit)).1))).length
  rw [hsign, hwhole]
  simp only [List.length_append, List.length_cons] at htail ⊢
  omega

end SignedRun

/-! ## A lexer in front of a float -/

/-- Float literals are exact.  A lexer in front of a number with a point behind its digits takes
the longest front of the text that is a float, and never fails.  What it hands to its reader of
doubles, a text filled in on both sides of the point, writes the same number with the same sign;
the reader gives the value of the token, which is the double nearest to the number, and so does
any other reader that rounds correctly. -/
theorem floats_read_exactly (l : Lexer) (text sign digits more : List Char) (hl : l.ComesTo text)
    (hstarts : startsWithNumeral text) (h : SignedRun text sign digits ('.' :: more)) :
    ∃ (f : FloatText) (rest : List Char) (x : Binary64),
      (f.sign = sign ∧ f.whole = digits ∧ text = f.text ++ rest ∧
        ∀ g : FloatText, g.text <+: text → g.text.length ≤ f.text.length) ∧
      (l.Gives f.text .floatLiteral (.float x) rest ∧ ∀ d m, Lexer.next l ≠ .error d m) ∧
      (f.normal.text = normalFloat f.sign f.whole f.fraction f.power ∧ f.normal.IsNormal ∧
        f.normal.value = f.value ∧ f.normal.negative = f.negative) ∧
      Binary64.NearestTo f.negative f.value x ∧
      (Binary64.ofText? (normalFloat f.sign f.whole f.fraction f.power) = some x ∧
        ∀ read, CorrectlyRounded read →
          read (normalFloat f.sign f.whole f.fraction f.power) = some x) := by
  obtain ⟨rest, hrest⟩ := h.float_isPrefix
  obtain ⟨c, u, htext, hscan⟩ := exists_scanToken_of_numeral hstarts
  have hfront : l.ComesTo (h.float.text ++ rest) := by rwa [hrest]
  have hgives := Lexer.gives_of_scanToken hfront (hrest.trans htext)
    ((hscan l.limits).trans h.numeral_float)
  have hnearest := h.float.normal.nearestTo
  rw [FloatText.value_normal, FloatText.negative_normal] at hnearest
  refine ⟨h.float, rest, h.float.normal.decimal.toBinary64 h.float.negative,
    ⟨rfl, rfl, hrest.symm, h.length_le_float⟩, ⟨hgives, fun d m herror => ?_⟩,
    ⟨h.float.text_normal, h.float.isNormal_normal, h.float.value_normal,
      h.float.negative_normal⟩,
    hnearest, correctlyRounded_ofText?.read_normalFloat h.float,
    fun read hread => hread.read_normalFloat h.float⟩
  obtain ⟨k, hnext, -⟩ := hgives
  rw [hnext] at herror
  cases herror

/-- A zero with a minus sign is read as the negative zero, up to an `e` without digits, and the
reader of doubles is given a text with a zero behind the point. -/
theorem floats_read_exactly_negative_zero :
    (Lexer.ofSource .standard "-0.e+").Gives "-0.".toList .floatLiteral
      (.float ⟨0x8000000000000000⟩) "e+".toList ∧
    normalFloat ['-'] ['0'] [] [] = "-0.0".toList ∧
    Binary64.ofText? "-0.0".toList = some ⟨0x8000000000000000⟩ := by
  obtain ⟨f, rest, x, ⟨hsign, hwhole, hsplit, -⟩, ⟨hgives, -⟩, -, -, hreads, -⟩ :=
    floats_read_exactly (.ofSource .standard "-0.e+") "-0.e+".toList ['-'] ['0'] "e+".toList rfl
      (by decide) ⟨rfl, by decide, List.all_eq_true.mp rfl, by decide⟩
  have hread : Lexer.next (.ofSource .standard "-0.e+") =
      .ok ⟨"", "-0.", ⟨.floatLiteral, .float ⟨0x8000000000000000⟩, ⟨.start, 3⟩⟩⟩
        ⟨.standard, ⟨3, 1, 4⟩, "e+".toList⟩ := rfl
  have ⟨_, hnext, _⟩ := hgives
  obtain ⟨-, hlexeme, htoken⟩ := Lexeme.mk.inj (EStateM.Result.ok.inj (hread.symm.trans hnext)).1
  obtain rfl := TokenValue.float.inj (Token.mk.inj htoken).2.1
  have htext : f.text = "-0.".toList := by rw [hlexeme, String.toList_ofList]
  rw [htext] at hsplit hgives
  obtain rfl : "e+".toList = rest := @List.append_cancel_left _ "-0.".toList _ _ hsplit
  have htail : f.fraction = [] ∧ f.power = [] := by
    rw [FloatText.text, hsign, hwhole] at htext
    simpa using htext
  rw [hsign, hwhole, htail.1, htail.2] at hreads
  exact ⟨hgives, rfl, hreads⟩

end GenericIR
