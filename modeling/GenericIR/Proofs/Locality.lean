/-
# Scans look no further than their token

The scan of a token depends on the characters it takes and on those that could go on with the
token behind them.  A character that goes on with no token, a blank or a closing bracket for
example, cuts a text in two: what stands behind it does not change the scan of a token before
it.

* `isStop` : the characters that go on with no token;
* `scanToken_append` : a token before such a character is scanned alike whatever follows.
-/
import GenericIR.Scan.Blank
import GenericIR.Scan.Token

namespace GenericIR

/-! ## Characters that go on with no token -/

/-- A character that is no part of an id, a word or a number and starts no further part of a
token. -/
def isStop (c : Char) : Bool :=
  !(isWordChar c || isIdChar c || c == '<' || c == ':' || c == '"' || c == '+' || c == '=' ||
    c == '@' || c == '^')

/-- Texts that go on with no token in front of them. -/
def Stops (text : List Char) : Prop := ∀ c ∈ text.head?, isStop c

namespace Stops

/-- The empty text goes on with nothing. -/
theorem nil : Stops [] := fun c hc => by cases hc

/-- A text goes on with nothing where its first character does not. -/
theorem cons {c : Char} (hc : isStop c) (text : List Char) : Stops (c :: text) := by
  intro d hd
  cases hd
  exact hc

/-- The first character of such a text goes on with no token. -/
theorem head {c : Char} {text : List Char} (h : Stops (c :: text)) : isStop c := h c rfl

/-- The first character of such a text is none of those that go on with a token. -/
theorem ne_cons {c : Char} {text : List Char} (h : Stops text) (hc : ¬ isStop c)
    (rest : List Char) : text ≠ c :: rest := fun heq => hc (heq ▸ h).head

end Stops

/-- Characters of ids go on with a token. -/
theorem isIdChar_of_isStop (c : Char) (h : isStop c) : isIdChar c = false := by
  simp only [isStop, Bool.not_eq_true', Bool.or_eq_false_iff] at h
  exact h.1.1.1.1.1.1.1.2

/-- Characters of words go on with a token. -/
theorem isWordChar_of_isStop (c : Char) (h : isStop c) : isWordChar c = false := by
  simp only [isStop, Bool.not_eq_true', Bool.or_eq_false_iff] at h
  exact h.1.1.1.1.1.1.1.1

/-- Digits go on with a token. -/
theorem isDigit_of_isStop (c : Char) (h : isStop c) : c.isDigit = false := by
  have hword := isWordChar_of_isStop c h
  simp only [isWordChar, Bool.or_eq_false_iff] at hword
  exact hword.1.1.1.1.1.2

/-- A hexadecimal digit is a digit or a letter. -/
theorem isDigit_or_isAlpha_of_isHexDigit (c : Char) (h : isHexDigit c) :
    c.isDigit ∨ c.isAlpha := by
  simp only [isHexDigit, Bool.or_eq_true, Bool.and_eq_true, decide_eq_true_eq, Char.le_def] at h
  rcases h with (hdigit | hlower) | hupper
  · exact Or.inl hdigit
  · have hc : c.isLower := Bool.and_eq_true_iff.mpr
      ⟨decide_eq_true hlower.1, decide_eq_true (UInt32.le_trans hlower.2 (by decide))⟩
    exact Or.inr (Bool.or_eq_true_iff.mpr (Or.inr hc))
  · have hc : c.isUpper := decide_eq_true ⟨hupper.1, UInt32.le_trans hupper.2 (by decide)⟩
    exact Or.inr (Bool.or_eq_true_iff.mpr (Or.inl hc))

/-- Hexadecimal digits go on with a token. -/
theorem isHexDigit_of_isStop (c : Char) (h : isStop c) : isHexDigit c = false := by
  have hword := isWordChar_of_isStop c h
  rw [Bool.eq_false_iff]
  intro hhex
  rcases isDigit_or_isAlpha_of_isHexDigit c hhex with hdigit | halpha
  · exact absurd hdigit (by rw [isDigit_of_isStop c h]; decide)
  · simp [isWordChar, isWordStart, halpha] at hword

section Append

variable {p : Char → Bool} {t : List Char}

/-- A run of characters that go on with a token ends before a text that does not. -/
theorem takeWhile_append_stops (hp : ∀ c, isStop c → p c = false) (ht : Stops t)
    (u : List Char) : (u ++ t).takeWhile p = u.takeWhile p := by
  induction u with
  | nil =>
      cases t with
      | nil => rfl
      | cons c rest => rw [List.nil_append, List.takeWhile_cons, hp c ht.head]; rfl
  | cons c u ih => simp only [List.cons_append, List.takeWhile_cons, ih]

/-- Behind such a run the text is all left. -/
theorem dropWhile_append_stops (hp : ∀ c, isStop c → p c = false) (ht : Stops t)
    (u : List Char) : (u ++ t).dropWhile p = u.dropWhile p ++ t := by
  induction u with
  | nil =>
      cases t with
      | nil => rfl
      | cons c rest => rw [List.nil_append, List.dropWhile_cons, hp c ht.head]; rfl
  | cons c u ih =>
      simp only [List.cons_append, List.dropWhile_cons, ih]
      split <;> rfl

/-! ## Numerals -/

/-- A sign is one character. -/
theorem signPart_cons (c : Char) (rest : List Char) :
    signPart (c :: rest) = if c = '+' ∨ c = '-' then [c] else [] := by
  unfold signPart
  split
  · next h => cases h; rfl
  · next h => cases h; rfl
  · next hplus hminus =>
      rw [if_neg]
      rintro (rfl | rfl)
      · exact hplus rest rfl
      · exact hminus rest rfl

/-- A sign is looked for in the token alone. -/
theorem signPart_append (ht : Stops t) (u : List Char) : signPart (u ++ t) = signPart u := by
  cases u with
  | cons c u => rw [List.cons_append, signPart_cons, signPart_cons]
  | nil =>
      cases t with
      | nil => rfl
      | cons c rest =>
          rw [List.nil_append, signPart_cons, if_neg]
          · rfl
          · rintro (rfl | rfl) <;> exact absurd ht.head (by decide)

/-- What follows the sign is what follows it in the token. -/
theorem drop_signPart_append (u : List Char) :
    (u ++ t).drop (signPart u).length = u.drop (signPart u).length ++ t :=
  List.drop_append_of_le_length (signPart_isPrefix u).length_le

/-- Whether a digit comes first is seen in the token alone. -/
theorem startsWithDigit_append (ht : Stops t) (u : List Char) :
    startsWithDigit (u ++ t) = startsWithDigit u := by
  cases u with
  | cons c u => rfl
  | nil =>
      cases t with
      | nil => rfl
      | cons c rest => exact isDigit_of_isStop c ht.head

/-- Whether a numeral comes first is seen in the token alone. -/
theorem startsWithNumeral_append (ht : Stops t) (c : Char) (u : List Char) :
    startsWithNumeral (c :: (u ++ t)) = startsWithNumeral (c :: u) := by
  rw [startsWithNumeral, startsWithNumeral, startsWithDigit_append ht]

/-- A power of ten is looked for in the token alone. -/
theorem exponentPart_append (ht : Stops t) (u : List Char) :
    exponentPart (u ++ t) = exponentPart u := by
  cases u with
  | cons c u =>
      rw [List.cons_append, exponentPart, exponentPart, signPart_append ht, drop_signPart_append,
        takeWhile_append_stops isDigit_of_isStop ht]
  | nil =>
      cases t with
      | nil => rfl
      | cons c rest =>
          rw [List.nil_append, exponentPart, exponentPart, if_neg]
          rintro ⟨rfl | rfl, _⟩ <;> exact absurd ht.head (by decide)

/-- A numeral is scanned alike whatever follows it. -/
theorem numeral_append (ht : Stops t) (u : List Char) : numeral (u ++ t) = numeral u := by
  have hx := ht.ne_cons (c := 'x') (by decide)
  have hpoint := ht.ne_cons (c := '.') (by decide)
  unfold numeral
  dsimp only
  rw [signPart_append ht, drop_signPart_append,
    takeWhile_append_stops isDigit_of_isStop ht, dropWhile_append_stops isDigit_of_isStop ht]
  generalize signPart u = sign
  generalize (u.drop sign.length).takeWhile Char.isDigit = whole
  generalize (u.drop sign.length).dropWhile Char.isDigit = v
  have hhexadecimal : ∀ rest, hexadecimal sign (rest ++ t) = hexadecimal sign rest := by
    intro rest
    rw [hexadecimal, hexadecimal, takeWhile_append_stops isHexDigit_of_isStop ht]
  have hfractional : ∀ rest, fractional sign whole (rest ++ t) = fractional sign whole rest := by
    intro rest
    rw [fractional, fractional, takeWhile_append_stops isDigit_of_isStop ht,
      dropWhile_append_stops isDigit_of_isStop ht, exponentPart_append ht]
  cases v with
  | nil =>
      rw [List.nil_append]
      split
      · next rest => exact absurd rfl (hx rest)
      · next rest => exact absurd rfl (hpoint rest)
      · rfl
  | cons c v =>
      rw [List.cons_append]
      split
      · next rest h =>
          obtain ⟨rfl, rfl⟩ := List.cons.inj h
          simp only [hhexadecimal]
      · next rest h =>
          obtain ⟨rfl, rfl⟩ := List.cons.inj h
          simp only [hfractional]
      · next hnotx hnotpoint =>
          split
          · next h => exact absurd (by rw [(List.cons.inj h).1]) (hnotx (v ++ t))
          · next h => exact absurd (by rw [(List.cons.inj h).1]) (hnotpoint (v ++ t))
          · rfl

/-! ## Marks and value ids -/

/-- A mark of one character or, where the next one doubles it, of two. -/
theorem mark_cons (c d : Char) (rest : List Char) :
    mark c (d :: rest) = if c = '-' ∧ d = '>' then .plain .arrow [c, d]
      else if c = ':' ∧ d = ':' then .plain .doubleColon [c, d]
      else if c = '=' ∧ d = '=' then .plain .equalEqual [c, d]
      else .plain (markKind c) [c] := by
  unfold mark
  split
  · next h => cases h; rfl
  · next h => cases h; rfl
  · next h => cases h; rfl
  · next harrow hcolon hequal =>
      rw [if_neg, if_neg, if_neg]
      · rintro ⟨rfl, rfl⟩
        exact hequal _ rfl rfl
      · rintro ⟨rfl, rfl⟩
        exact hcolon _ rfl rfl
      · rintro ⟨rfl, rfl⟩
        exact harrow _ rfl rfl

/-- A mark at the end of a text is one character. -/
theorem mark_nil (c : Char) : mark c [] = .plain (markKind c) [c] := by
  unfold mark
  split <;> first | rfl | cases ‹_›

/-- A mark is scanned alike whatever follows it. -/
theorem mark_append (ht : Stops t) (c : Char) (u : List Char) : mark c (u ++ t) = mark c u := by
  cases u with
  | cons d u => rw [List.cons_append, mark_cons, mark_cons]
  | nil =>
      cases t with
      | nil => rfl
      | cons d rest =>
          rw [List.nil_append, mark_cons, if_neg, if_neg, if_neg, mark_nil]
          · rintro ⟨_, rfl⟩
            exact absurd ht.head (by decide)
          · rintro ⟨_, rfl⟩
            exact absurd ht.head (by decide)
          · rintro ⟨_, rfl⟩
            exact absurd ht.head (by decide)

/-- A value id is scanned alike whatever follows it. -/
theorem valueId_append (ht : Stops t) (sigil : Char) (u : List Char) :
    valueId sigil (u ++ t) = valueId sigil u := by
  rw [valueId, valueId, takeWhile_append_stops isIdChar_of_isStop ht]

end Append

/-! ## Tokens that end within a text -/

/-- A scan that finds a token and takes at most some number of characters. -/
structure Scan.Within {α : Type} (s : Scan α) (n : Nat) : Prop where
  short : s.lexeme.length ≤ n
  ok : ∃ a, s.outcome = .ok a

/-- A change of meaning takes as many characters. -/
theorem Scan.within_map {α β : Type} (f : α → β) (s : Scan α) (n : Nat) :
    (s.map f).Within n ↔ s.Within n := by
  constructor
  · rintro ⟨hshort, b, hb⟩
    rw [Scan.outcome_map] at hb
    cases hs : s.outcome with
    | error fault => rw [hs] at hb; cases hb
    | ok a => exact ⟨hshort, a, hs⟩
  · rintro ⟨hshort, a, ha⟩
    refine ⟨hshort, f a, ?_⟩
    rw [Scan.outcome_map, ha]
    rfl

/-- Characters taken before come on top. -/
theorem Scan.within_prepend {α : Type} (front : List Char) (s : Scan α) (u : List Char) :
    (s.prepend front).Within (front ++ u).length ↔ s.Within u.length := by
  rw [List.length_append]
  constructor
  · rintro ⟨hshort, hok⟩
    rw [Scan.lexeme_prepend, List.length_append] at hshort
    exact ⟨Nat.le_of_add_le_add_left hshort, hok⟩
  · rintro ⟨hshort, hok⟩
    refine ⟨?_, hok⟩
    rw [Scan.lexeme_prepend, List.length_append]
    exact Nat.add_le_add_left hshort _

/-- A string literal that is closed takes its closing quote. -/
theorem not_within_quotedBody (text : List Char) : ¬ (quotedBody text).Within 0 := by
  rintro ⟨hshort, a, ha⟩
  have hnil := List.eq_nil_of_length_eq_zero (Nat.le_zero.mp hshort)
  revert hnil ha
  fun_cases quotedBody text with
  | case1 => intro ha; cases ha
  | case2 rest => intro _ hnil; cases hnil
  | case3 c rest => intro _ hnil; cases hnil
  | case4 c rest => intro _ hnil; cases hnil

/-- A string literal that is closed within a text is scanned alike whatever follows. -/
theorem quotedBody_append {t : List Char} (t' : List Char) (u : List Char)
    (h : (quotedBody (u ++ t)).Within u.length) : quotedBody (u ++ t') = quotedBody (u ++ t) := by
  fun_induction quotedBody u with
  | case1 => exact absurd h (not_within_quotedBody t)
  | case2 rest => rfl
  | case3 c rest ih =>
      simp only [List.cons_append, quotedBody] at h ⊢
      rw [ih ((Scan.within_map _ _ _).mp ((Scan.within_prepend ['\\', c] _ rest).mp h))]
  | case4 c rest hquote hescape ih =>
      by_cases hc : c = '\\'
      · subst hc
        cases rest with
        | cons d rest => exact absurd rfl (hescape d rest rfl)
        | nil =>
            exfalso
            cases t with
            | nil =>
                obtain ⟨_, _, ha⟩ := h
                cases ha
            | cons d rest =>
                have hshort := h.short
                simp [quotedBody] at hshort
      · have hcons : ∀ text, quotedBody (c :: text) =
            ((quotedBody text).map (c :: ·)).prepend [c] := by
          intro text
          rw [quotedBody]
          · exact hquote
          · exact fun d rest heq => absurd heq hc
        simp only [List.cons_append, hcons] at h ⊢
        rw [ih ((Scan.within_map _ _ _).mp ((Scan.within_prepend [c] _ rest).mp h))]

/-- Angle brackets that are closed take their closing bracket. -/
theorem angles_ne_nil_of_closed {max depth : Nat} {text : List Char}
    (h : (angles max depth text).2 = .closed) : (angles max depth text).1 ≠ [] := by
  revert h
  fun_cases angles max depth text with
  | case1 => intro h; cases h
  | case2 depth rest hmax => simp
  | case3 depth rest hmax tail ending heq => simp
  | case4 depth c rest hopen hclose => simp
  | case5 depth c rest hopen hclose tail ending heq => simp

/-- Angle brackets that are closed within a text are scanned alike whatever follows. -/
theorem angles_append {max : Nat} {t : List Char} (t' : List Char) (depth : Nat) (u : List Char)
    (hshort : (angles max depth (u ++ t)).1.length ≤ u.length)
    (hclosed : (angles max depth (u ++ t)).2 = .closed) :
    angles max depth (u ++ t') = angles max depth (u ++ t) := by
  induction u generalizing depth with
  | nil =>
      have hnil := List.eq_nil_of_length_eq_zero (Nat.le_zero.mp hshort)
      exact absurd hnil (angles_ne_nil_of_closed hclosed)
  | cons c u ih =>
      simp only [List.cons_append, angles] at hshort hclosed ⊢
      by_cases hopen : c = '<'
      · rw [if_pos hopen, if_pos hopen]
        rw [if_pos hopen] at hshort hclosed
        by_cases hmax : max ≤ depth
        · rw [if_pos hmax, if_pos hmax]
        · rw [if_neg hmax] at hshort hclosed
          rw [if_neg hmax, if_neg hmax,
            ih (depth + 1) (Nat.le_of_succ_le_succ hshort) hclosed]
      · rw [if_neg hopen, if_neg hopen]
        rw [if_neg hopen] at hshort hclosed
        by_cases hclose : c = '>' ∧ depth ≤ 1
        · rw [if_pos hclose, if_pos hclose]
        · rw [if_neg hclose] at hshort hclosed
          rw [if_neg hclose, if_neg hclose, ih _ (Nat.le_of_succ_le_succ hshort) hclosed]

section Tokens

variable {limits : Limits} {t t' : List Char}

/-- A word, or an angle bracket form where an opening bracket follows the word. -/
theorem word_of_dropWhile (text : List Char) :
    word limits text = if (text.dropWhile isWordChar).head? = some '<' then
        angleForm limits (text.takeWhile isWordChar ++
          (angles limits.maxNestingDepth 0 (text.dropWhile isWordChar)).1)
          (angles limits.maxNestingDepth 0 (text.dropWhile isWordChar)).2
      else ⟨text.takeWhile isWordChar, .ok (wordMeaning (text.takeWhile isWordChar))⟩ := by
  unfold word
  dsimp only
  split
  · next rest h =>
      rw [h]
      rfl
  · next h =>
      rw [if_neg]
      intro hhead
      cases hdrop : text.dropWhile isWordChar with
      | nil => rw [hdrop] at hhead; cases hhead
      | cons c rest =>
          rw [hdrop] at hhead
          cases hhead
          exact h rest hdrop

/-- A word or an angle bracket form that ends within a text is scanned alike whatever
follows. -/
theorem word_append (ht : Stops t) (ht' : Stops t') (u : List Char)
    (h : (word limits (u ++ t)).Within u.length) : word limits (u ++ t') = word limits (u ++ t) := by
  rw [word_of_dropWhile] at h
  rw [word_of_dropWhile, word_of_dropWhile]
  simp only [takeWhile_append_stops isWordChar_of_isStop ht,
    takeWhile_append_stops isWordChar_of_isStop ht',
    dropWhile_append_stops isWordChar_of_isStop ht,
    dropWhile_append_stops isWordChar_of_isStop ht'] at h ⊢
  have hlength : (u.takeWhile isWordChar).length + (u.dropWhile isWordChar).length = u.length := by
    rw [← List.length_append, List.takeWhile_append_dropWhile]
  revert h hlength
  cases u.dropWhile isWordChar with
  | nil =>
      intro _ _
      have hopen : ∀ {text}, Stops text → ([] ++ text).head? ≠ some '<' := by
        intro text hstops hhead
        exact absurd (hstops '<' hhead) (by decide)
      rw [if_neg (hopen ht'), if_neg (hopen ht)]
  | cons c v =>
      intro h hlength
      have hhead : ∀ text, (c :: v ++ text).head? = some c := fun _ => rfl
      by_cases hc : c = '<'
      · rw [if_pos (by rw [hhead, hc])] at h
        obtain ⟨_, hok⟩ := h.ok
        have hshort := h.short
        rw [lexeme_angleForm, List.length_append] at hshort
        rw [if_pos (by rw [hhead, hc]), if_pos (by rw [hhead, hc]),
          angles_append t' 0 (c :: v) (by omega) (closed_of_angleForm hok)]
      · have hne : ∀ text, (c :: v ++ text).head? ≠ some '<' := by
          intro text heq
          rw [hhead] at heq
          exact hc (Option.some.inj heq)
        rw [if_neg (hne t'), if_neg (hne t)]

/-! ### References -/

/-- The last part of a reference. -/
theorem parts_of_last {sigil : Char} {max count : Nat} {text : List Char}
    (hquote : ¬ (sigil = '@' ∧ text.head? = some '"'))
    (hrest : ∀ rest, text.dropWhile isIdChar ≠ ':' :: ':' :: rest) :
    parts sigil max count text = ⟨text.takeWhile isIdChar, .ok (text.takeWhile isIdChar)⟩ := by
  rw [parts, if_neg hquote]
  dsimp only
  split
  · next rest h => exact absurd h (hrest rest)
  · rfl

/-- A part of a reference with more parts behind it. -/
theorem parts_of_more {sigil : Char} {max count : Nat} {text rest : List Char}
    (hquote : ¬ (sigil = '@' ∧ text.head? = some '"'))
    (hrest : text.dropWhile isIdChar = ':' :: ':' :: rest) :
    parts sigil max count text =
      if max ≤ count then
        ⟨text.takeWhile isIdChar, .error (.limitExceeded "qualified reference segments" max)⟩
      else
        let mark := text.takeWhile isIdChar ++
          ':' :: ':' :: if rest.head? = some sigil then [sigil] else []
        ((parts sigil max (count + 1)
          (rest.drop (if rest.head? = some sigil then [sigil] else []).length)).map
            (mark ++ ·)).prepend mark := by
  rw [parts, if_neg hquote]
  dsimp only
  split
  · next rest' h =>
      rw [hrest] at h
      cases h
      rfl
  · next h => exact absurd hrest (h rest)

/-- What comes first is seen in the token alone. -/
theorem head?_append_stops (ht : Stops t) {c : Char} (hc : ¬ isStop c) (u : List Char) :
    (u ++ t).head? = some c ↔ u.head? = some c := by
  cases u with
  | cons d u => rfl
  | nil =>
      constructor
      · intro h
        exact absurd (ht c h) hc
      · intro h
        cases h

/-- The parts of a reference that end within a text are scanned alike whatever follows. -/
theorem parts_append {sigil : Char} (hsigil : ¬ isStop sigil) (ht : Stops t) (ht' : Stops t')
    (max count : Nat) (u : List Char)
    (h : (parts sigil max count (u ++ t)).Within u.length) :
    parts sigil max count (u ++ t') = parts sigil max count (u ++ t) := by
  have hquoted : ∀ {v text : List Char}, Stops text →
      ((sigil = '@' ∧ (v ++ text).head? = some '"') ↔ sigil = '@' ∧ v.head? = some '"') :=
    fun hstops => and_congr_right fun _ => head?_append_stops hstops (by decide) _
  have hlast : ∀ {v text : List Char}, Stops text →
      (∀ rest, v.dropWhile isIdChar ≠ ':' :: ':' :: rest) →
      ∀ rest, (v ++ text).dropWhile isIdChar ≠ ':' :: ':' :: rest := by
    intro v text hstops hv rest heq
    rw [dropWhile_append_stops isIdChar_of_isStop hstops] at heq
    have hne := hstops.ne_cons (c := ':') (by decide)
    match hdrop : v.dropWhile isIdChar, heq with
    | [], heq => exact hne _ heq
    | [c], heq => exact hne _ (List.cons.inj heq).2
    | c :: d :: w, heq =>
        simp only [List.cons_append, List.cons.injEq] at heq
        exact hv w (by rw [hdrop, heq.1, heq.2.1])
  fun_induction parts sigil max count u with
  | case1 count u hquote =>
      obtain ⟨hat, hhead⟩ := hquote
      cases u with
      | nil => cases hhead
      | cons c v =>
          obtain rfl : c = '"' := Option.some.inj hhead
          rw [parts, if_pos ⟨hat, rfl⟩] at h
          rw [parts, if_pos ⟨hat, rfl⟩, parts, if_pos ⟨hat, rfl⟩]
          simp only [List.cons_append, List.drop_succ_cons, List.drop_zero] at h ⊢
          rw [quotedBody_append t' v ((Scan.within_prepend ['"'] _ v).mp h)]
  | case2 count u hquote front rest hrest hmax =>
      have hdrop : (u ++ t).dropWhile isIdChar = ':' :: ':' :: (rest ++ t) := by
        rw [dropWhile_append_stops isIdChar_of_isStop ht, hrest]
        rfl
      rw [parts_of_more (mt (hquoted ht).mp hquote) hdrop, if_pos hmax] at h
      obtain ⟨_, _, hok⟩ := h
      cases hok
  | case3 count u hquote front rest hrest hmax again mark ih =>
      have hdrop : ∀ {text}, Stops text →
          (u ++ text).dropWhile isIdChar = ':' :: ':' :: (rest ++ text) := by
        intro text hstops
        rw [dropWhile_append_stops isIdChar_of_isStop hstops, hrest]
        rfl
      -- the sigil is repeated before the next part alike in both texts
      have hmore : ∀ {text}, Stops text → parts sigil max count (u ++ text) =
          ((parts sigil max (count + 1) (rest.drop again.length ++ text)).map
            (mark ++ ·)).prepend mark := by
        intro text hstops
        have hagain : (if (rest ++ text).head? = some sigil then [sigil] else []) = again := by
          simp only [head?_append_stops hstops hsigil]
          rfl
        have hlen : (again ++ rest.drop again.length).length = rest.length :=
          congrArg List.length (sigil_append_drop sigil rest)
        rw [List.length_append] at hlen
        rw [parts_of_more (mt (hquoted hstops).mp hquote) (hdrop hstops), if_neg hmax, hagain,
          takeWhile_append_stops isIdChar_of_isStop hstops,
          List.drop_append_of_le_length (by omega)]
      have hu : mark ++ rest.drop again.length = u := mark_append_drop sigil hrest
      rw [hmore ht] at h
      rw [hmore ht', hmore ht, ih ?_]
      rw [← hu] at h
      exact (Scan.within_map _ _ _).mp ((Scan.within_prepend mark _ _).mp h)
  | case4 count u hquote front hrest =>
      rw [parts_of_last (mt (hquoted ht').mp hquote) (hlast ht' hrest),
        parts_of_last (mt (hquoted ht).mp hquote) (hlast ht hrest),
        takeWhile_append_stops isIdChar_of_isStop ht,
        takeWhile_append_stops isIdChar_of_isStop ht']

/-- A reference that ends within a text is scanned alike whatever follows. -/
theorem reference_append {sigil : Char} (hsigil : ¬ isStop sigil) (kind : TokenKind)
    (ht : Stops t) (ht' : Stops t') (u : List Char)
    (h : (reference limits sigil kind (u ++ t)).Within (sigil :: u).length) :
    reference limits sigil kind (u ++ t') = reference limits sigil kind (u ++ t) := by
  have hwithin := (Scan.within_map _ _ _).mp ((Scan.within_prepend [sigil] _ u).mp h)
  rw [reference, reference, parts_append hsigil ht ht' _ _ u hwithin]

/-- A label is a reference, unless it is the colon of a label with no name. -/
theorem label_eq (rest : List Char) :
    label limits rest = if rest.head? = some ':' ∧ rest.tail.head? ≠ some ':' then
        .plain .caretId ['^', ':']
      else reference limits '^' .caretId rest := by
  unfold label
  split
  · next rest => rw [if_neg fun h => h.2 rfl]
  · next rest hne =>
      have hcolon : rest.head? ≠ some ':' := by
        intro h
        cases rest with
        | nil => cases h
        | cons c rest =>
            cases h
            exact hne rest rfl
      exact (if_pos ⟨rfl, hcolon⟩).symm
  · next hne =>
      rw [if_neg]
      rintro ⟨h, _⟩
      cases rest with
      | nil => cases h
      | cons c rest =>
          cases h
          exact hne rest rfl

/-- A label that ends within a text is scanned alike whatever follows. -/
theorem label_append (ht : Stops t) (ht' : Stops t') (u : List Char)
    (h : (label limits (u ++ t)).Within ('^' :: u).length) :
    label limits (u ++ t') = label limits (u ++ t) := by
  have hcond : ∀ {text}, Stops text →
      (((u ++ text).head? = some ':' ∧ (u ++ text).tail.head? ≠ some ':') ↔
        u.head? = some ':' ∧ u.tail.head? ≠ some ':') := by
    intro text hstops
    rw [head?_append_stops hstops (by decide)]
    refine and_congr_right fun hhead => not_congr ?_
    cases u with
    | nil => cases hhead
    | cons c u => exact head?_append_stops hstops (by decide) u
  rw [label_eq] at h
  rw [label_eq, label_eq]
  by_cases hu : u.head? = some ':' ∧ u.tail.head? ≠ some ':'
  · rw [if_pos ((hcond ht').mpr hu), if_pos ((hcond ht).mpr hu)]
  · rw [if_neg (mt (hcond ht).mp hu)] at h
    rw [if_neg (mt (hcond ht').mp hu), if_neg (mt (hcond ht).mp hu),
      reference_append (by decide) .caretId ht ht' u h]

/-! ### All tokens -/

/-- A token that ends within a text is scanned alike whatever follows the text. -/
theorem scanToken_append (ht : Stops t) (ht' : Stops t') (c : Char) (u : List Char)
    (h : (scanToken limits c (u ++ t)).Within (c :: u).length) :
    scanToken limits c (u ++ t') = scanToken limits c (u ++ t) := by
  unfold scanToken at h ⊢
  rw [startsWithNumeral_append ht] at h
  rw [startsWithNumeral_append ht, startsWithNumeral_append ht']
  by_cases hnumeral : startsWithNumeral (c :: u) = true
  · rw [if_pos hnumeral, if_pos hnumeral, ← List.cons_append, ← List.cons_append,
      numeral_append ht', numeral_append ht]
  rw [if_neg hnumeral] at h
  rw [if_neg hnumeral, if_neg hnumeral]
  by_cases hquote : c = '"'
  · rw [if_pos hquote] at h
    have hwithin := (Scan.within_map _ _ _).mp ((Scan.within_prepend ['"'] _ u).mp h)
    rw [if_pos hquote, if_pos hquote, quoted, quoted, quotedBody_append t' u hwithin]
  rw [if_neg hquote] at h
  rw [if_neg hquote, if_neg hquote]
  by_cases hword : isWordStart c = true
  · rw [if_pos hword, ← List.cons_append] at h
    rw [if_pos hword, if_pos hword, ← List.cons_append, ← List.cons_append,
      word_append ht ht' (c :: u) h]
  rw [if_neg hword] at h
  rw [if_neg hword, if_neg hword]
  by_cases hsymbol : c = '@'
  · rw [if_pos hsymbol] at h
    rw [if_pos hsymbol, if_pos hsymbol, reference_append (by decide) .symbolRefId ht ht' u h]
  rw [if_neg hsymbol] at h
  rw [if_neg hsymbol, if_neg hsymbol]
  by_cases hvalue : c = '%' ∨ c = '$'
  · rw [if_pos hvalue, if_pos hvalue, valueId_append ht', valueId_append ht]
  rw [if_neg hvalue] at h
  rw [if_neg hvalue, if_neg hvalue]
  by_cases hlabel : c = '^'
  · rw [if_pos hlabel] at h
    rw [if_pos hlabel, if_pos hlabel, label_append ht ht' u h]
  · rw [if_neg hlabel, if_neg hlabel, mark_append ht', mark_append ht]

end Tokens

end GenericIR
