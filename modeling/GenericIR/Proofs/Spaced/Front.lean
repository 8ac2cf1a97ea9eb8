/-
# Tokens read from a front of their text

A token is settled where a part of the text behind it has been seen, however short: a scan of a
text that leaves some of a front of the text is the scan of that front.  What stands behind the
front may then be anything.

* `numeral_front`, `word_front`, `parts_front`, `label_front` : the scans of tokens;
* `scanToken_front` : every token is scanned alike from a front that it leaves some of;
* `Lexeme.ReadBefore.front` : a lexeme before a text that goes on in another way.
-/
import GenericIR.Proofs.Spaced.Before

namespace GenericIR

variable {limits : Limits} {v t : List Char}

/-! ## Runs and first characters -/

/-- A run and what is left behind it make up the text. -/
theorem length_takeWhile_add_length_dropWhile (p : Char → Bool) (text : List Char) :
    (text.takeWhile p).length + (text.dropWhile p).length = text.length := by
  rw [← List.length_append, List.takeWhile_append_dropWhile]

/-- A run of characters that ends within a front ends there in the front alone. -/
theorem takeWhile_front {p : Char → Bool} (h : ((v ++ t).takeWhile p).length < v.length) :
    (v ++ t).takeWhile p = v.takeWhile p ∧ (v ++ t).dropWhile p = v.dropWhile p ++ t ∧
      v.dropWhile p ≠ [] := by
  have hne : v.dropWhile p ≠ [] := by
    intro hnil
    rw [List.takeWhile_append_of_pos (List.dropWhile_eq_nil_iff.mp hnil), List.length_append] at h
    omega
  have hlength : (v.takeWhile p).length ≠ v.length := by
    intro heq
    have hsplit := length_takeWhile_add_length_dropWhile p v
    exact hne (List.eq_nil_of_length_eq_zero (by omega))
  refine ⟨by rw [List.takeWhile_append, if_neg hlength], ?_, hne⟩
  rw [List.dropWhile_append, if_neg]
  rwa [List.isEmpty_iff]

/-- A run of characters in a front goes on in the whole text. -/
theorem takeWhile_isPrefix_append {p : Char → Bool} : v.takeWhile p <+: (v ++ t).takeWhile p := by
  rw [List.takeWhile_append]
  split
  · next hall =>
      rw [(List.takeWhile_prefix p).eq_of_length hall]
      exact List.prefix_append _ _
  · exact List.prefix_rfl

/-- The first character is that of the front, if it has one. -/
theorem head?_front (hv : v ≠ []) : (v ++ t).head? = v.head? := List.head?_append_of_ne_nil _ hv

/-- The second character is that of the front, if it has two. -/
theorem head?_tail_front (hv : 1 < v.length) : (v ++ t).tail.head? = v.tail.head? := by
  cases v with
  | nil => simp at hv
  | cons c v =>
      have hne : v ≠ [] := by
        rintro rfl
        simp at hv
      exact head?_front hne

/-! ## Numerals -/

/-- A sign is found in the first character alone. -/
theorem signPart_front (hv : v ≠ []) : signPart (v ++ t) = signPart v := by
  cases v with
  | nil => exact absurd rfl hv
  | cons c v => rw [List.cons_append, signPart_cons, signPart_cons]

/-- A power of ten that leaves some of a front is found in the front alone. -/
theorem exponentPart_front (h : (exponentPart (v ++ t)).1.length < v.length) :
    exponentPart (v ++ t) = exponentPart v := by
  cases v with
  | nil => simp at h
  | cons c v =>
      rw [List.cons_append, exponentPart] at h
      rw [List.cons_append, exponentPart, exponentPart]
      dsimp only at h ⊢
      cases v with
      | nil =>
          rw [if_neg, if_neg]
          · exact fun hand => hand.2 rfl
          · intro hand
            rw [if_pos hand] at h
            simp at h
      | cons d v =>
          have hlength : ((d :: v).drop (signPart (d :: v)).length).length +
              (signPart (d :: v)).length = (d :: v).length := by
            rw [Nat.add_comm, ← List.length_append, signPart_append_drop]
          rw [signPart_front (List.cons_ne_nil d v), drop_signPart_append] at h ⊢
          by_cases hletter : c = 'e' ∨ c = 'E'
          · have hdigits : ((d :: v).drop (signPart (d :: v)).length ++ t).takeWhile Char.isDigit =
                ((d :: v).drop (signPart (d :: v)).length).takeWhile Char.isDigit := by
              by_cases hnone :
                  ((d :: v).drop (signPart (d :: v)).length ++ t).takeWhile Char.isDigit = []
              · rw [hnone]
                exact (List.prefix_nil.mp (hnone ▸ takeWhile_isPrefix_append)).symm
              · rw [if_pos ⟨hletter, hnone⟩] at h
                refine (takeWhile_front ?_).1
                simp only [List.cons_append, List.length_cons, List.length_append] at h hlength
                omega
            rw [hdigits]
          · rw [if_neg fun hand => hletter hand.1, if_neg fun hand => hletter hand.1]

/-- A numeral that leaves some of a front is scanned alike from the front alone. -/
theorem numeral_front (h : (numeral (v ++ t)).lexeme.length < v.length) :
    numeral (v ++ t) = numeral v := by
  have hne : v ≠ [] := by
    rintro rfl
    simp at h
  have hlength : (signPart v).length + (v.drop (signPart v).length).length = v.length := by
    rw [← List.length_append, signPart_append_drop]
  have htakes := (isPrefix_lexeme_numeral (v ++ t)).length_le
  rw [signPart_front hne, drop_signPart_append, List.length_append] at htakes
  -- the whole digits leave some of the front
  obtain ⟨hwhole, hrest, hleft⟩ :=
    @takeWhile_front (v.drop (signPart v).length) t Char.isDigit (by omega)
  have hsplit := length_takeWhile_add_length_dropWhile Char.isDigit (v.drop (signPart v).length)
  unfold numeral at h ⊢
  dsimp only at h ⊢
  rw [signPart_front hne, drop_signPart_append, hwhole, hrest] at h ⊢
  generalize signPart v = sign at *
  generalize (v.drop sign.length).takeWhile Char.isDigit = whole at *
  obtain ⟨c, w, hw⟩ := List.exists_cons_of_ne_nil hleft
  rw [hw, List.cons_append] at h ⊢
  rw [hw, List.length_cons] at hsplit
  by_cases hx : c = 'x'
  · subst hx
    change (if whole = ['0'] then hexadecimal sign (w ++ t)
      else integral sign whole).lexeme.length < v.length at h
    change (if whole = ['0'] then hexadecimal sign (w ++ t) else integral sign whole) =
      if whole = ['0'] then hexadecimal sign w else integral sign whole
    by_cases hzero : whole = ['0']
    · rw [if_pos hzero, lexeme_hexadecimal] at h
      rw [if_pos hzero, if_pos hzero, hexadecimal, hexadecimal, (takeWhile_front ?_).1]
      rw [hzero] at hsplit
      simp only [List.length_append, List.length_cons, List.length_nil] at h hsplit
      omega
    · rw [if_neg hzero, if_neg hzero]
  by_cases hpoint : c = '.'
  · subst hpoint
    change (fractional sign whole (w ++ t)).lexeme.length < v.length at h
    change fractional sign whole (w ++ t) = fractional sign whole w
    rw [lexeme_fractional] at h
    simp only [List.length_append, List.length_cons] at h
    obtain ⟨hfraction, hpower, -⟩ := @takeWhile_front w t Char.isDigit (by omega)
    have hdigits := length_takeWhile_add_length_dropWhile Char.isDigit w
    rw [hfraction, hpower] at h
    rw [fractional, fractional, hfraction, hpower, exponentPart_front (by omega)]
  · split
    · next rest heq => exact absurd (List.cons.inj heq).1 hx
    · next rest heq => exact absurd (List.cons.inj heq).1 hpoint
    · split
      · next rest heq => exact absurd (List.cons.inj heq).1 hx
      · next rest heq => exact absurd (List.cons.inj heq).1 hpoint
      · rfl

/-! ## Quoted text, angle brackets and words -/

/-- A string literal that is closed within a front is scanned alike from the front alone. -/
theorem quotedBody_front (h : (quotedBody (v ++ t)).Within v.length) :
    quotedBody (v ++ t) = quotedBody v := by
  have halone := quotedBody_append [] v h
  rwa [List.append_nil, eq_comm] at halone

/-- Angle brackets that are closed within a front are scanned alike from the front alone. -/
theorem angles_front {max depth : Nat} (hshort : (angles max depth (v ++ t)).1.length ≤ v.length)
    (hclosed : (angles max depth (v ++ t)).2 = .closed) :
    angles max depth (v ++ t) = angles max depth v := by
  have halone := @angles_append max t [] depth v hshort hclosed
  rwa [List.append_nil, eq_comm] at halone

/-- A word or an angle bracket form that leaves some of a front is scanned alike from the front
alone. -/
theorem word_front {meaning : Meaning} (hok : (word limits (v ++ t)).outcome = .ok meaning)
    (hshort : (word limits (v ++ t)).lexeme.length < v.length) :
    word limits (v ++ t) = word limits v := by
  rw [word_of_dropWhile] at hshort hok
  rw [word_of_dropWhile, word_of_dropWhile]
  have hfront : ((v ++ t).takeWhile isWordChar).length < v.length := by
    refine Nat.lt_of_le_of_lt ?_ hshort
    split
    · rw [lexeme_angleForm, List.length_append]
      exact Nat.le_add_right _ _
    · exact Nat.le_refl _
  obtain ⟨htake, hdrop, hne⟩ := takeWhile_front hfront
  have hsplit := length_takeWhile_add_length_dropWhile isWordChar v
  rw [htake, hdrop, head?_front hne] at hshort hok ⊢
  by_cases hopen : (v.dropWhile isWordChar).head? = some '<'
  · rw [if_pos hopen] at hshort hok
    rw [lexeme_angleForm, List.length_append] at hshort
    rw [if_pos hopen, if_pos hopen, angles_front (by omega) (closed_of_angleForm hok)]
  · rw [if_neg hopen, if_neg hopen]

/-! ## References and labels -/

/-- The parts of a reference that leave some of a front are scanned alike from the front alone. -/
theorem parts_front {sigil : Char} {max count : Nat}
    (hok : ∃ name, (parts sigil max count (v ++ t)).outcome = .ok name)
    (hshort : (parts sigil max count (v ++ t)).lexeme.length < v.length) :
    parts sigil max count (v ++ t) = parts sigil max count v := by
  induction hlength : v.length using Nat.strongRecOn generalizing v count with
  | ind m ih =>
      have hne : v ≠ [] := by
        rintro rfl
        simp at hshort
      have hsplit := length_takeWhile_add_length_dropWhile isIdChar v
      by_cases hquote : sigil = '@' ∧ v.head? = some '"'
      · have hquote' : sigil = '@' ∧ (v ++ t).head? = some '"' := by rwa [head?_front hne]
        obtain ⟨w, rfl⟩ : ∃ w, v = '"' :: w := List.head?_eq_some_iff.mp hquote.2
        rw [parts, if_pos hquote'] at hok hshort
        rw [parts, if_pos hquote', parts, if_pos hquote]
        simp only [List.cons_append, List.drop_succ_cons, List.drop_zero] at hok hshort ⊢
        have hwithin : ((quotedBody (w ++ t)).prepend ['"']).Within (['"'] ++ w).length :=
          ⟨Nat.le_of_lt hshort, hok⟩
        rw [quotedBody_front ((Scan.within_prepend _ _ _).mp hwithin)]
      have hquote' : ¬ (sigil = '@' ∧ (v ++ t).head? = some '"') := by rwa [head?_front hne]
      by_cases hmore : ∃ rest, (v ++ t).dropWhile isIdChar = ':' :: ':' :: rest
      · obtain ⟨rest, hrest⟩ := hmore
        rw [parts_of_more hquote' hrest] at hok hshort
        by_cases hmax : max ≤ count
        · rw [if_pos hmax] at hok
          obtain ⟨_, hok⟩ := hok
          cases hok
        rw [if_neg hmax] at hok hshort
        simp only [Scan.lexeme_prepend, Scan.lexeme_map, List.length_append, List.length_cons]
          at hshort
        obtain ⟨htake, hdrop, -⟩ := @takeWhile_front v t isIdChar (by omega)
        rw [htake] at hshort
        -- both colons are in the front, and so is what stands behind them
        obtain ⟨w, hw, rfl⟩ : ∃ w, v.dropWhile isIdChar = ':' :: ':' :: w ∧ rest = w ++ t := by
          rw [hdrop] at hrest
          rcases hv : v.dropWhile isIdChar with _ | ⟨c, _ | ⟨d, w⟩⟩
          · rw [hv] at hsplit
            simp only [List.length_nil] at hsplit
            omega
          · rw [hv] at hsplit
            simp only [List.length_singleton] at hsplit
            omega
          · rw [hv] at hrest
            simp only [List.cons_append, List.cons.injEq] at hrest
            exact ⟨w, by rw [hrest.1, hrest.2.1], hrest.2.2.symm⟩
        rw [hw] at hsplit
        simp only [List.length_cons] at hsplit
        have hwne : w ≠ [] := by
          rintro rfl
          simp only [List.length_nil] at hsplit
          omega
        have hagain := congrArg List.length (sigil_append_drop sigil w)
        rw [List.length_append] at hagain
        rw [parts_of_more hquote' hrest, parts_of_more hquote hw, if_neg hmax, if_neg hmax, htake]
        rw [head?_front hwne] at hok hshort ⊢
        generalize hsigil : (if w.head? = some sigil then [sigil] else []) = again at *
        rw [List.drop_append_of_le_length (by omega)] at hok hshort ⊢
        obtain ⟨name, hname⟩ := hok
        rw [Scan.outcome_prepend] at hname
        obtain ⟨later, hlater, _⟩ := Scan.exists_of_map_ok _ _ _ hname
        rw [ih _ (by omega) ⟨later, hlater⟩ (by omega) rfl]
      · have hlast : ∀ rest, (v ++ t).dropWhile isIdChar ≠ ':' :: ':' :: rest := fun rest hrest =>
          hmore ⟨rest, hrest⟩
        rw [parts_of_last hquote' hlast] at hshort
        obtain ⟨htake, hdrop, -⟩ := takeWhile_front hshort
        rw [parts_of_last hquote' hlast, parts_of_last hquote, htake]
        intro rest hrest
        exact hlast (rest ++ t) (by rw [hdrop, hrest]; rfl)

/-- A symbol or a label with parts that leaves some of a front is scanned alike from the front
alone. -/
theorem reference_front {sigil : Char} {kind : TokenKind} {meaning : Meaning}
    (hok : (reference limits sigil kind (v ++ t)).outcome = .ok meaning)
    (hshort : (reference limits sigil kind (v ++ t)).lexeme.length < (sigil :: v).length) :
    reference limits sigil kind (v ++ t) = reference limits sigil kind v := by
  rw [reference, Scan.outcome_prepend] at hok
  obtain ⟨name, hname, _⟩ := Scan.exists_of_map_ok _ _ _ hok
  rw [reference, reference, parts_front ⟨name, hname⟩]
  exact Nat.lt_of_succ_lt_succ hshort

/-- A name that starts with two colons takes them. -/
theorem two_le_length_parts {sigil : Char} {max count : Nat} {rest : List Char}
    (hsigil : sigil ≠ '@')
    (hok : ∃ name, (parts sigil max count (':' :: ':' :: rest)).outcome = .ok name) :
    2 ≤ (parts sigil max count (':' :: ':' :: rest)).lexeme.length := by
  have hquote : ¬ (sigil = '@' ∧ (':' :: ':' :: rest).head? = some '"') := fun h => hsigil h.1
  have hrest : (':' :: ':' :: rest).dropWhile isIdChar = ':' :: ':' :: rest := rfl
  rw [parts_of_more hquote hrest] at hok ⊢
  by_cases hmax : max ≤ count
  · rw [if_pos hmax] at hok
    obtain ⟨_, hok⟩ := hok
    cases hok
  · rw [if_neg hmax]
    simp only [Scan.lexeme_prepend, List.length_append, List.length_cons]
    omega

/-- A block label that leaves some of a front is scanned alike from the front alone. -/
theorem label_front {meaning : Meaning} (hok : (label limits (v ++ t)).outcome = .ok meaning)
    (hshort : (label limits (v ++ t)).lexeme.length < ('^' :: v).length) :
    label limits (v ++ t) = label limits v := by
  have hne : v ≠ [] := by
    rintro rfl
    exact lexeme_label_ne_nil limits _ (List.eq_nil_of_length_eq_zero (by simpa using hshort))
  rw [label_eq] at hok hshort
  rw [label_eq, label_eq, head?_front hne] at *
  by_cases htwo : 1 < v.length
  · rw [head?_tail_front htwo] at hok hshort ⊢
    by_cases hsingle : v.head? = some ':' ∧ v.tail.head? ≠ some ':'
    · rw [if_pos hsingle, if_pos hsingle]
    · rw [if_neg hsingle] at hok hshort
      rw [if_neg hsingle, if_neg hsingle, reference_front hok hshort]
  · obtain ⟨d, rfl⟩ : ∃ d, v = [d] := by
      match v, hne, htwo with
      | [d], _, _ => exact ⟨d, rfl⟩
      | _ :: _ :: _, _, htwo => simp at htwo
    by_cases hd : d = ':'
    · subst hd
      -- the label would take another colon
      by_cases hcolon : t.head? = some ':'
      · obtain ⟨rest, rfl⟩ := List.head?_eq_some_iff.mp hcolon
        rw [if_neg fun hand => hand.2 rfl] at hok hshort
        rw [reference, Scan.outcome_prepend] at hok
        obtain ⟨name, hname, _⟩ := Scan.exists_of_map_ok _ _ _ hok
        have htwo := two_le_length_parts (by decide) ⟨name, hname⟩
        have hlength : (['^'] ++ (parts '^' limits.maxSymbolSegments 1
            (':' :: ':' :: rest)).lexeme).length < 2 := hshort
        rw [List.length_append, List.length_singleton] at hlength
        omega
      · rw [if_pos ⟨rfl, hcolon⟩] at hshort
        simp at hshort
    · have hother : ∀ next : Option Char, ¬ ([d].head? = some ':' ∧ next ≠ some ':') :=
        fun _ hand => hd (Option.some.inj hand.1)
      rw [if_neg (hother _)] at hok hshort
      rw [if_neg (hother _), if_neg (hother _), reference_front hok hshort]

/-! ## All tokens -/

/-- A mark that leaves some of a front is scanned alike from the front alone. -/
theorem mark_front {c : Char} (hv : v ≠ []) : mark c (v ++ t) = mark c v := by
  cases v with
  | nil => exact absurd rfl hv
  | cons d v => rw [List.cons_append, mark_cons, mark_cons]

/-- A token that leaves some of a front is scanned alike from the front alone. -/
theorem scanToken_front {c : Char} {meaning : Meaning}
    (hok : (scanToken limits c (v ++ t)).outcome = .ok meaning)
    (hshort : (scanToken limits c (v ++ t)).lexeme.length < (c :: v).length) :
    scanToken limits c (v ++ t) = scanToken limits c v := by
  have hne : v ≠ [] := by
    rintro rfl
    exact lexeme_scanToken_ne_nil limits c t
      (List.eq_nil_of_length_eq_zero (Nat.lt_one_iff.mp hshort))
  have hstarts : startsWithNumeral (c :: (v ++ t)) = startsWithNumeral (c :: v) := by
    obtain ⟨d, v, rfl⟩ := List.exists_cons_of_ne_nil hne
    rfl
  unfold scanToken at hok hshort ⊢
  rw [hstarts] at hok hshort ⊢
  by_cases hnumeral : startsWithNumeral (c :: v) = true
  · rw [if_pos hnumeral] at hshort
    rw [if_pos hnumeral, if_pos hnumeral]
    exact @numeral_front (c :: v) t hshort
  rw [if_neg hnumeral] at hok hshort
  rw [if_neg hnumeral, if_neg hnumeral]
  by_cases hquote : c = '"'
  · rw [if_pos hquote] at hok hshort
    obtain ⟨s, hs, _⟩ := Scan.exists_of_map_ok _ _ _ hok
    have hwithin : (quotedBody (v ++ t)).Within v.length :=
      ⟨Nat.le_of_lt (Nat.lt_of_succ_lt_succ hshort), s, hs⟩
    rw [if_pos hquote, if_pos hquote, quoted, quoted, quotedBody_front hwithin]
  rw [if_neg hquote] at hok hshort
  rw [if_neg hquote, if_neg hquote]
  by_cases hword : isWordStart c = true
  · rw [if_pos hword] at hok hshort
    rw [if_pos hword, if_pos hword]
    exact @word_front limits (c :: v) t meaning hok hshort
  rw [if_neg hword] at hok hshort
  rw [if_neg hword, if_neg hword]
  by_cases hsymbol : c = '@'
  · rw [if_pos hsymbol] at hok hshort
    rw [if_pos hsymbol, if_pos hsymbol, reference_front hok hshort]
  rw [if_neg hsymbol] at hok hshort
  rw [if_neg hsymbol, if_neg hsymbol]
  by_cases hvalue : c = '%' ∨ c = '$'
  · rw [if_pos hvalue] at hshort
    rw [if_pos hvalue, if_pos hvalue, valueId, valueId,
      (takeWhile_front (Nat.lt_of_succ_lt_succ hshort)).1]
  rw [if_neg hvalue] at hok hshort
  rw [if_neg hvalue, if_neg hvalue]
  by_cases hlabel : c = '^'
  · rw [if_pos hlabel] at hok hshort
    rw [if_pos hlabel, if_pos hlabel, label_front hok hshort]
  · rw [if_neg hlabel, if_neg hlabel, mark_front hne]

/-! ## Lexemes and readings -/

/-- A lexeme before a text is read again where the text goes on in another way behind its front. -/
theorem Lexeme.ReadBefore.front {x : Lexeme} (h : x.ReadBefore limits (v ++ t)) (hv : v ≠ [])
    {t' : List Char} (ht' : Stops t') : x.ReadBefore limits (v ++ t') := by
  obtain ⟨c, u, htext, hgap, hscan⟩ := h
  obtain ⟨d, w, hd⟩ : ∃ d w, u ++ v = d :: w :=
    List.exists_cons_of_ne_nil (List.append_ne_nil_of_right_ne_nil u hv)
  rw [← List.append_assoc] at hgap hscan
  refine ⟨c, u, htext, ?_, ?_⟩
  · rw [gap_cons_eq_nil_iff] at hgap ⊢
    rw [← List.append_assoc, hd]
    rw [hd] at hgap
    exact hgap
  · have hfront : scanToken limits c (u ++ v ++ t) = scanToken limits c (u ++ v) := by
      have hok : (scanToken limits c (u ++ v ++ t)).outcome = .ok (x.kind, x.token.value) := by
        rw [hscan]
      refine scanToken_front hok ?_
      have hpos := List.length_pos_of_ne_nil hv
      rw [hscan, List.length_cons, List.length_cons, List.length_append]
      omega
    have hbefore := @scanToken_append limits [] t' .nil ht' c (u ++ v)
    rw [List.append_nil, ← hfront, hscan] at hbefore
    rw [← List.append_assoc]
    apply hbefore
    refine ⟨?_, _, rfl⟩
    rw [List.length_cons, List.length_cons, List.length_append]
    omega

end GenericIR
