/-
# Tokens read from their own text

What a token is was decided with the characters behind it in view, but does not hang on them:
the text of a token alone is scanned as that token.  Each scan stops where its own rule ends, and
what made it stop may be taken away.

* `numeral_alone`, `word_alone`, `parts_alone`, `label_alone` : the scans of tokens;
* `scanToken_alone` : every token is scanned alike from its own text;
* `scanToken_before` : and from its own text before one that goes on with no token.
-/
import GenericIR.Proofs.Bytes.Reading
import GenericIR.Proofs.Reading

namespace GenericIR

variable {limits : Limits}

/-! ## Runs and first characters -/

/-- A front of a text starts as the text does. -/
theorem head?_of_isPrefix {u text : List Char} (h : u <+: text) {c : Char}
    (hu : u.head? = some c) : text.head? = some c := by
  obtain ⟨v, rfl⟩ := h
  cases u with
  | nil => cases hu
  | cons d u => exact hu

/-- A run of characters of a class ends before a character of no such class. -/
theorem takeWhile_run {p : Char → Bool} {run v : List Char} (hrun : ∀ c ∈ run, p c)
    (hv : v.head?.any p = false) :
    (run ++ v).takeWhile p = run ∧ (run ++ v).dropWhile p = v := by
  rw [List.takeWhile_append_of_pos hrun, List.dropWhile_append_of_pos hrun]
  cases v with
  | nil => exact ⟨List.append_nil run, rfl⟩
  | cons c v =>
      rw [List.head?_cons, Option.any_some] at hv
      rw [List.takeWhile_cons, List.dropWhile_cons, hv]
      exact ⟨List.append_nil run, rfl⟩

/-- Behind a run of characters of a class nothing is left of the run. -/
theorem dropWhile_takeWhile (p : Char → Bool) (text : List Char) :
    (text.takeWhile p).dropWhile p = [] :=
  List.dropWhile_eq_nil_iff.mpr fun _ hc => List.mem_takeWhile_imp hc

/-! ## Numerals -/

/-- A sign is found again before characters that are no signs. -/
theorem signPart_signPart {u : List Char} (text : List Char)
    (hu : ∀ c ∈ u.head?, ¬ (c = '+' ∨ c = '-')) : signPart (signPart text ++ u) = signPart text := by
  fun_cases signPart text with
  | case1 rest => rfl
  | case2 rest => rfl
  | case3 text hplus hminus =>
      cases u with
      | nil => rfl
      | cons c u => rw [List.nil_append, signPart_cons, if_neg (hu c rfl)]

section Numeral

variable {sign whole v : List Char}

/-- The three forms of a numeral, told apart by what follows its whole digits. -/
theorem numeral_split (hsign : signPart (sign ++ (whole ++ v)) = sign)
    (hwhole : ∀ c ∈ whole, c.isDigit) (hv : v.head?.any Char.isDigit = false) :
    (∀ rest, v = 'x' :: rest → whole = ['0'] →
      numeral (sign ++ (whole ++ v)) = hexadecimal sign rest) ∧
    (∀ rest, v = '.' :: rest → numeral (sign ++ (whole ++ v)) = fractional sign whole rest) ∧
    (v = [] → numeral (sign ++ (whole ++ v)) = integral sign whole) := by
  obtain ⟨htake, hdrop⟩ := takeWhile_run hwhole hv
  refine ⟨?_, ?_, ?_⟩
  · rintro rest rfl hzero
    rw [numeral, hsign, List.drop_left, htake, hdrop]
    exact if_pos hzero
  · rintro rest rfl
    rw [numeral, hsign, List.drop_left, htake, hdrop]
    rfl
  · rintro rfl
    rw [numeral, hsign, List.drop_left, htake, hdrop]

end Numeral

/-- A hexadecimal integer takes its digits alone. -/
theorem hexadecimal_takeWhile (sign rest : List Char) :
    hexadecimal sign (rest.takeWhile isHexDigit) = hexadecimal sign rest := by
  rw [hexadecimal, hexadecimal, List.takeWhile_idem]

/-- A power of ten takes its own characters alone. -/
theorem exponentPart_exponentPart (text : List Char) :
    exponentPart (exponentPart text).1 = exponentPart text := by
  fun_cases exponentPart text with
  | case1 => rfl
  | case2 c rest sign digits hand n =>
      have hsign : signPart (sign ++ digits) = sign := ByteLexer.signPart_signPart_append rest
      have hdigits : digits.takeWhile Char.isDigit = digits := List.takeWhile_idem
      rw [List.cons_append, exponentPart]
      dsimp only
      rw [hsign, List.drop_left, hdigits, if_pos hand]
      rfl
  | case3 c rest sign digits hand => rfl

/-- A power of ten does not start with a digit. -/
theorem not_startsWithDigit_exponentPart (text : List Char) :
    (exponentPart text).1.head?.any Char.isDigit = false := by
  fun_cases exponentPart text with
  | case1 => rfl
  | case2 c rest sign digits hand n => rcases hand.1 with rfl | rfl <;> rfl
  | case3 c rest sign digits hand => rfl

/-- A float takes its fraction and its power of ten alone. -/
theorem fractional_takeWhile (sign whole rest : List Char) :
    fractional sign whole
        (rest.takeWhile Char.isDigit ++ (exponentPart (rest.dropWhile Char.isDigit)).1) =
      fractional sign whole rest := by
  obtain ⟨htake, hdrop⟩ := takeWhile_run
    (fun c (hc : c ∈ rest.takeWhile Char.isDigit) => List.mem_takeWhile_imp hc)
    (not_startsWithDigit_exponentPart (rest.dropWhile Char.isDigit))
  rw [fractional, fractional, htake, hdrop, exponentPart_exponentPart]

/-- A numeral is scanned alike from its own text. -/
theorem numeral_alone (text : List Char) : numeral (numeral text).lexeme = numeral text := by
  have hsign : ∀ v : List Char, (∀ c ∈ v.head?, ¬ (c = '+' ∨ c = '-')) →
      signPart (signPart text ++
        ((text.drop (signPart text).length).takeWhile Char.isDigit ++ v)) = signPart text := by
    intro v hv
    apply signPart_signPart
    intro c hc
    cases hrun : (text.drop (signPart text).length).takeWhile Char.isDigit with
    | nil =>
        rw [hrun, List.nil_append] at hc
        exact hv c hc
    | cons d run =>
        rw [hrun] at hc
        obtain rfl : d = c := Option.some.inj hc
        have hd : d.isDigit := List.mem_takeWhile_imp (hrun ▸ List.mem_cons_self)
        rintro (rfl | rfl) <;> exact absurd hd (by decide)
  have hdigits : ∀ c ∈ (text.drop (signPart text).length).takeWhile Char.isDigit, c.isDigit :=
    fun c hc => List.mem_takeWhile_imp hc
  have hnil := hsign [] fun c hc => by cases hc
  have hintegral : ∀ {sign whole : List Char}, signPart (sign ++ (whole ++ [])) = sign →
      (∀ c ∈ whole, c.isDigit) →
      numeral (integral sign whole).lexeme = integral sign whole := by
    intro sign whole hpart hwhole
    rw [lexeme_integral, ← (numeral_split hpart hwhole rfl).2.2 rfl, List.append_nil]
  fun_cases numeral text with
  | case1 sign body whole rest hrest hzero =>
      have hpart := hsign ('x' :: rest.takeWhile isHexDigit) fun c hc => by cases hc; decide
      have hform := (numeral_split hpart hdigits rfl).1 _ rfl hzero
      have hlexeme : (hexadecimal sign rest).lexeme =
          sign ++ (whole ++ 'x' :: rest.takeWhile isHexDigit) := by
        rw [lexeme_hexadecimal, hzero]
        rfl
      rw [hlexeme]
      exact hform.trans (hexadecimal_takeWhile sign rest)
  | case2 sign body whole rest hrest hzero => exact hintegral hnil hdigits
  | case3 sign body whole rest hrest =>
      have hpart := hsign ('.' :: (rest.takeWhile Char.isDigit ++
        (exponentPart (rest.dropWhile Char.isDigit)).1)) fun c hc => by cases hc; decide
      have hform := (numeral_split hpart hdigits rfl).2.1 _ rfl
      have hlexeme : (fractional sign whole rest).lexeme = sign ++ (whole ++ '.' ::
          (rest.takeWhile Char.isDigit ++ (exponentPart (rest.dropWhile Char.isDigit)).1)) := by
        rw [lexeme_fractional]
        simp only [List.append_assoc, List.cons_append]
      rw [hlexeme]
      exact hform.trans (fractional_takeWhile sign whole rest)
  | case4 sign body whole hx hpoint => exact hintegral hnil hdigits

/-- A numeral takes its sign and all its whole digits. -/
theorem isPrefix_lexeme_numeral (text : List Char) :
    signPart text ++ (text.drop (signPart text).length).takeWhile Char.isDigit <+:
      (numeral text).lexeme := by
  fun_cases numeral text with
  | case1 sign body whole rest hrest hzero =>
      have hlexeme : (hexadecimal sign rest).lexeme =
          sign ++ whole ++ 'x' :: rest.takeWhile isHexDigit := by
        rw [lexeme_hexadecimal, hzero, List.append_assoc]
        rfl
      rw [hlexeme]
      exact List.prefix_append _ _
  | case2 sign body whole rest hrest hzero =>
      exact (lexeme_integral sign whole).symm ▸ List.prefix_rfl
  | case3 sign body whole rest hrest =>
      rw [lexeme_fractional, List.append_assoc (sign ++ whole)]
      exact List.prefix_append _ _
  | case4 sign body whole hx hpoint =>
      exact (lexeme_integral sign whole).symm ▸ List.prefix_rfl

/-- The text of a numeral starts as a numeral does. -/
theorem startsWithNumeral_alone {c : Char} {rest : List Char}
    (h : startsWithNumeral (c :: rest)) :
    ∃ u, (numeral (c :: rest)).lexeme = c :: u ∧ startsWithNumeral (c :: u) := by
  have hprefix := numeral_isPrefix (c :: rest)
  obtain ⟨d, u, hlexeme⟩ := List.exists_cons_of_ne_nil (lexeme_numeral_ne_nil _ h)
  rw [hlexeme] at hprefix
  obtain ⟨rfl, hu⟩ := List.cons_prefix_cons.mp hprefix
  refine ⟨u, hlexeme, ?_⟩
  by_cases hdigit : d.isDigit
  · simp only [startsWithNumeral, hdigit, Bool.true_or]
  · -- a sign or a point, and the digit behind it is taken too
    have htakes := isPrefix_lexeme_numeral (d :: rest)
    simp only [startsWithNumeral, hdigit, Bool.false_or, Bool.and_eq_true] at h ⊢
    refine ⟨h.1, ?_⟩
    cases rest with
    | nil => exact absurd h.2 (by decide)
    | cons e rest =>
        have he : e.isDigit := h.2
        by_cases hsign : d = '+' ∨ d = '-'
        · rw [signPart_cons, if_pos hsign, hlexeme] at htakes
          simp only [List.length_singleton, List.drop_one, List.tail_cons, List.takeWhile_cons, he,
            if_true, List.singleton_append] at htakes
          obtain ⟨v, rfl⟩ := (List.cons_prefix_cons.mp htakes).2
          exact he
        · obtain rfl : d = '.' := by
            simp only [Bool.or_eq_true, beq_iff_eq] at h
            rcases h.1 with (hpoint | hminus) | hplus
            · exact hpoint
            · exact absurd (Or.inr hminus) hsign
            · exact absurd (Or.inl hplus) hsign
          have hsign : signPart ([] ++ ([] ++ '.' :: e :: rest)) = [] := rfl
          have hform : numeral ('.' :: e :: rest) = fractional [] [] (e :: rest) :=
            (numeral_split hsign (fun c hc => by cases hc) rfl).2.1 _ rfl
          rw [hform, lexeme_fractional] at hlexeme
          simp only [List.takeWhile_cons, he, if_true, List.nil_append, List.cons_append,
            List.cons.injEq, true_and] at hlexeme
          rw [← hlexeme]
          exact he

/-! ## Quoted text and angle brackets -/

/-- A string literal that is closed is scanned alike from its own text. -/
theorem quotedBody_alone {text s : List Char} (h : (quotedBody text).outcome = .ok s) :
    quotedBody (quotedBody text).lexeme = quotedBody text := by
  obtain ⟨behind, hbehind⟩ := quotedBody_isPrefix text
  have hwithin : (quotedBody ((quotedBody text).lexeme ++ behind)).Within
      (quotedBody text).lexeme.length := by
    rw [hbehind]
    exact ⟨Nat.le_refl _, s, h⟩
  have halone := quotedBody_append [] _ hwithin
  rwa [List.append_nil, hbehind] at halone

/-- Angle brackets that are closed are scanned alike from their own text. -/
theorem angles_alone {max depth : Nat} {text : List Char}
    (h : (angles max depth text).2 = .closed) :
    angles max depth (angles max depth text).1 = angles max depth text := by
  obtain ⟨behind, hbehind⟩ := angles_isPrefix max depth text
  have halone := @angles_append max behind [] depth (angles max depth text).1
    (by rw [hbehind]) (by rw [hbehind]; exact h)
  rwa [List.append_nil, hbehind] at halone

/-! ## Words -/

/-- A word or an angle bracket form is scanned alike from its own text. -/
theorem word_alone {text : List Char} {meaning : Meaning}
    (h : (word limits text).outcome = .ok meaning) :
    word limits (word limits text).lexeme = word limits text := by
  have hword : ∀ c ∈ text.takeWhile isWordChar, isWordChar c := fun c hc =>
    List.mem_takeWhile_imp hc
  rw [word_of_dropWhile text] at h ⊢
  by_cases hopen : (text.dropWhile isWordChar).head? = some '<'
  · rw [if_pos hopen] at h ⊢
    have halone := angles_alone (closed_of_angleForm h)
    have hne := angles_ne_nil_of_closed (closed_of_angleForm h)
    have hprefix := angles_isPrefix limits.maxNestingDepth 0 (text.dropWhile isWordChar)
    generalize angles limits.maxNestingDepth 0 (text.dropWhile isWordChar) = run at *
    obtain ⟨c, u, hrun⟩ := List.exists_cons_of_ne_nil hne
    obtain rfl : c = '<' := by
      have hhead := head?_of_isPrefix hprefix (by rw [hrun]; rfl)
      rw [hopen] at hhead
      exact (Option.some.inj hhead).symm
    have hstop : run.1.head?.any isWordChar = false := by rw [hrun]; rfl
    obtain ⟨htake, hdrop⟩ := takeWhile_run hword hstop
    rw [lexeme_angleForm, word_of_dropWhile, htake, hdrop, if_pos (by rw [hrun]; rfl), halone]
  · rw [if_neg hopen] at h ⊢
    rw [word_of_dropWhile, dropWhile_takeWhile, List.takeWhile_idem]
    exact if_neg nofun

/-! ## References and labels -/

/-- The parts of a reference are scanned alike from their own text. -/
theorem parts_alone {sigil : Char} {max count : Nat} {text : List Char}
    (h : ∃ name, (parts sigil max count text).outcome = .ok name) :
    parts sigil max count (parts sigil max count text).lexeme = parts sigil max count text := by
  have hfirst : ∀ {text u : List Char}, ¬ (sigil = '@' ∧ text.head? = some '"') → u <+: text →
      ¬ (sigil = '@' ∧ u.head? = some '"') := fun hquote hu hand =>
    hquote ⟨hand.1, head?_of_isPrefix hu hand.2⟩
  fun_induction parts sigil max count text with
  | case1 count text hquote =>
      obtain ⟨name, h⟩ := h
      rw [Scan.outcome_prepend] at h
      rw [Scan.lexeme_prepend, parts, if_pos ⟨hquote.1, rfl⟩]
      exact congrArg (Scan.prepend ['"']) (quotedBody_alone h)
  | case2 count text hquote front rest hrest hmax =>
      obtain ⟨name, h⟩ := h
      cases h
  | case3 count text hquote front rest hrest hmax again mark ih =>
      obtain ⟨name, h⟩ := h
      rw [Scan.outcome_prepend] at h
      obtain ⟨later, hlater, _⟩ := Scan.exists_of_map_ok _ _ _ h
      have halone := ih ⟨later, hlater⟩
      have hprefix := parts_isPrefix sigil max (count + 1) (rest.drop again.length)
      rw [Scan.lexeme_prepend, Scan.lexeme_map]
      generalize parts sigil max (count + 1) (rest.drop again.length) = scan at *
      have hfront : ∀ c ∈ front, isIdChar c := fun c hc => List.mem_takeWhile_imp hc
      obtain ⟨htake, hdrop⟩ := @takeWhile_run isIdChar front
        (':' :: ':' :: (again ++ scan.lexeme)) hfront rfl
      -- the sigil is repeated in the text of the token where it is in the whole text
      have hagain : (if (again ++ scan.lexeme).head? = some sigil then [sigil] else []) = again := by
        by_cases hsigil : rest.head? = some sigil
        · have hone : again = [sigil] := if_pos hsigil
          rw [hone]
          exact if_pos rfl
        · have hnone : again = [] := if_neg hsigil
          rw [hnone] at hprefix ⊢
          exact if_neg fun hhead => hsigil (head?_of_isPrefix hprefix hhead)
      have hlexeme : mark ++ scan.lexeme = front ++ ':' :: ':' :: (again ++ scan.lexeme) := by
        simp only [mark, List.append_assoc, List.cons_append]
      have hwhole : mark ++ scan.lexeme <+: text := by
        have htext : mark ++ rest.drop again.length = text := mark_append_drop sigil hrest
        rw [← htext]
        exact (List.prefix_append_right_inj mark).mpr hprefix
      rw [hlexeme] at hwhole ⊢
      rw [parts_of_more (hfirst hquote hwhole) hdrop, if_neg hmax, hagain, htake, List.drop_left,
        halone]
  | case4 count text hquote front hrest =>
      show parts sigil max count (text.takeWhile isIdChar) = _
      rw [parts_of_last (hfirst hquote (List.takeWhile_prefix _)), List.takeWhile_idem]
      intro rest hdrop
      rw [dropWhile_takeWhile] at hdrop
      cases hdrop

/-- A symbol or a label with parts is scanned alike from its own text. -/
theorem reference_alone {sigil : Char} {kind : TokenKind} {rest : List Char} {meaning : Meaning}
    (h : (reference limits sigil kind rest).outcome = .ok meaning) :
    ∃ u, (reference limits sigil kind rest).lexeme = sigil :: u ∧
      u = (parts sigil limits.maxSymbolSegments 1 rest).lexeme ∧
      reference limits sigil kind u = reference limits sigil kind rest := by
  rw [reference, Scan.outcome_prepend] at h
  obtain ⟨name, hname, _⟩ := Scan.exists_of_map_ok _ _ _ h
  refine ⟨(parts sigil limits.maxSymbolSegments 1 rest).lexeme, rfl, rfl, ?_⟩
  rw [reference, reference, parts_alone ⟨name, hname⟩]

/-- The parts of a name that start with a colon start with two. -/
theorem colons_of_parts {sigil : Char} {max count : Nat} {text : List Char}
    (h : ∃ name, (parts sigil max count text).outcome = .ok name)
    (hhead : (parts sigil max count text).lexeme.head? = some ':') :
    (parts sigil max count text).lexeme.tail.head? = some ':' := by
  have hrun : ∀ v : List Char, (text.takeWhile isIdChar ++ v).head? = some ':' →
      text.takeWhile isIdChar = [] := by
    intro v hv
    cases hfront : text.takeWhile isIdChar with
    | nil => rfl
    | cons d front =>
        rw [hfront] at hv
        obtain rfl : d = ':' := Option.some.inj hv
        have hd : isIdChar ':' := List.mem_takeWhile_imp (hfront ▸ List.mem_cons_self)
        exact absurd hd (by decide)
  by_cases hquote : sigil = '@' ∧ text.head? = some '"'
  · rw [parts, if_pos hquote] at hhead
    exact absurd hhead (by simp)
  by_cases hmore : ∃ rest, text.dropWhile isIdChar = ':' :: ':' :: rest
  · obtain ⟨rest, hrest⟩ := hmore
    rw [parts_of_more hquote hrest] at h hhead ⊢
    by_cases hmax : max ≤ count
    · rw [if_pos hmax] at h
      obtain ⟨name, hname⟩ := h
      cases hname
    · rw [if_neg hmax, Scan.lexeme_prepend, List.append_assoc] at hhead ⊢
      rw [hrun _ hhead]
      rfl
  · have hlast : ∀ rest, text.dropWhile isIdChar ≠ ':' :: ':' :: rest := fun rest hrest =>
      hmore ⟨rest, hrest⟩
    rw [parts_of_last hquote hlast] at hhead
    have hnil := hrun [] (by rwa [List.append_nil])
    rw [hnil] at hhead
    cases hhead

/-- A block label is scanned alike from its own text. -/
theorem label_alone {rest : List Char} {meaning : Meaning}
    (h : (label limits rest).outcome = .ok meaning) :
    ∃ u, (label limits rest).lexeme = '^' :: u ∧ label limits u = label limits rest := by
  rw [label_eq rest] at h ⊢
  by_cases hsingle : rest.head? = some ':' ∧ rest.tail.head? ≠ some ':'
  · rw [if_pos hsingle]
    exact ⟨[':'], rfl, rfl⟩
  · rw [if_neg hsingle] at h ⊢
    obtain ⟨u, hlexeme, hu, halone⟩ := reference_alone h
    refine ⟨u, hlexeme, ?_⟩
    obtain ⟨name, hname, _⟩ := Scan.exists_of_map_ok _ _ _ h
    rw [label_eq, if_neg, halone]
    rintro ⟨hcolon, hnext⟩
    rw [hu] at hcolon hnext
    exact hnext (colons_of_parts ⟨name, hname⟩ hcolon)

/-! ## Marks and value ids -/

/-- A mark is scanned alike from its own text. -/
theorem mark_alone (c : Char) (rest : List Char) :
    ∃ u, (mark c rest).lexeme = c :: u ∧ mark c u = mark c rest := by
  cases rest with
  | nil => exact ⟨[], by rw [mark_nil]; rfl, rfl⟩
  | cons d rest =>
      rw [mark_cons]
      split
      · next h => exact ⟨[d], rfl, by rw [mark_cons, if_pos h]⟩
      · next harrow =>
          split
          · next h => exact ⟨[d], rfl, by rw [mark_cons, if_neg harrow, if_pos h]⟩
          · next hcolons =>
              split
              · next h => exact ⟨[d], rfl, by rw [mark_cons, if_neg harrow, if_neg hcolons, if_pos h]⟩
              · exact ⟨[], rfl, mark_nil c⟩

/-! ## All tokens -/

section Tokens

variable {c : Char} {rest : List Char} {meaning : Meaning}

/-- A token is scanned alike from its own text. -/
theorem scanToken_alone (h : (scanToken limits c rest).outcome = .ok meaning) :
    ∃ u, (scanToken limits c rest).lexeme = c :: u ∧
      scanToken limits c u = scanToken limits c rest := by
  unfold scanToken at h ⊢
  by_cases hnumeral : startsWithNumeral (c :: rest) = true
  · rw [if_pos hnumeral]
    obtain ⟨u, hlexeme, hstarts⟩ := startsWithNumeral_alone hnumeral
    refine ⟨u, hlexeme, ?_⟩
    rw [if_pos hstarts, ← hlexeme, numeral_alone]
  rw [if_neg hnumeral] at h ⊢
  -- the front of a text that starts with no numeral starts with none
  have hnone : ∀ {u}, c :: u <+: c :: rest → ¬ startsWithNumeral (c :: u) = true := by
    rintro u hu hstarts
    obtain ⟨v, hv⟩ := (List.cons_prefix_cons.mp hu).2
    refine hnumeral ?_
    rw [← hv]
    cases u with
    | nil =>
        simp only [startsWithNumeral, startsWithDigit, Bool.and_false, Bool.or_false] at hstarts
        simp only [startsWithNumeral, hstarts, Bool.true_or]
    | cons d u => exact hstarts
  have hprefix := scanToken_isPrefix limits c rest
  rw [scanToken, if_neg hnumeral] at hprefix
  by_cases hquote : c = '"'
  · simp only [if_pos hquote] at h hprefix ⊢
    obtain ⟨s, hs, _⟩ := Scan.exists_of_map_ok _ _ _ h
    refine ⟨(quotedBody rest).lexeme, congrArg (· :: _) hquote.symm, ?_⟩
    have hfront : c :: (quotedBody rest).lexeme <+: c :: rest := hquote ▸ hprefix
    rw [if_neg (hnone hfront), quoted, quoted, quotedBody_alone hs]
  simp only [if_neg hquote] at h hprefix ⊢
  by_cases hword : isWordStart c = true
  · simp only [if_pos hword] at h hprefix ⊢
    have hstart : isWordChar c := by simp only [isWordChar, hword, Bool.true_or]
    obtain ⟨d, u, hlexeme⟩ := List.exists_cons_of_ne_nil (lexeme_word_ne_nil limits c rest hstart)
    obtain rfl : d = c := (List.cons_prefix_cons.mp (hlexeme ▸ hprefix)).1
    refine ⟨u, hlexeme, ?_⟩
    rw [if_neg (hnone (hlexeme ▸ hprefix)), ← hlexeme, word_alone h]
  simp only [if_neg hword] at h hprefix ⊢
  by_cases hsymbol : c = '@'
  · simp only [if_pos hsymbol] at h hprefix ⊢
    obtain ⟨u, hlexeme, _, halone⟩ := reference_alone h
    have hlexeme := hlexeme.trans (congrArg (· :: u) hsymbol.symm)
    exact ⟨u, hlexeme, by rw [if_neg (hnone (hlexeme ▸ hprefix)), halone]⟩
  simp only [if_neg hsymbol] at h hprefix ⊢
  by_cases hvalue : c = '%' ∨ c = '$'
  · simp only [if_pos hvalue] at h hprefix ⊢
    refine ⟨rest.takeWhile isIdChar, rfl, ?_⟩
    rw [if_neg (hnone hprefix), valueId, valueId, List.takeWhile_idem]
  simp only [if_neg hvalue] at h hprefix ⊢
  by_cases hlabel : c = '^'
  · simp only [if_pos hlabel] at h hprefix ⊢
    obtain ⟨u, hlexeme, halone⟩ := label_alone h
    have hlexeme := hlexeme.trans (congrArg (· :: u) hlabel.symm)
    exact ⟨u, hlexeme, by rw [if_neg (hnone (hlexeme ▸ hprefix)), halone]⟩
  · simp only [if_neg hlabel] at h hprefix ⊢
    obtain ⟨u, hlexeme, halone⟩ := mark_alone c rest
    exact ⟨u, hlexeme, by rw [if_neg (hnone (hlexeme ▸ hprefix)), halone]⟩

/-- A token is scanned alike from its own text before one that goes on with no token. -/
theorem scanToken_before (h : (scanToken limits c rest).outcome = .ok meaning) {t : List Char}
    (ht : Stops t) :
    ∃ u, (scanToken limits c rest).lexeme = c :: u ∧
      scanToken limits c (u ++ t) = scanToken limits c rest := by
  obtain ⟨u, hlexeme, halone⟩ := scanToken_alone h
  refine ⟨u, hlexeme, ?_⟩
  have hbefore := @scanToken_append limits [] t .nil ht c u
  rw [List.append_nil, halone] at hbefore
  apply hbefore
  constructor
  · rw [hlexeme]
  · exact ⟨meaning, h⟩

end Tokens

end GenericIR
