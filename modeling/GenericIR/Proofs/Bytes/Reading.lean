/-
# Readings over bytes

The lexer over bytes never goes wrong: from a place that stands in its source it gives what the
lexer over characters gives, and stands in the source again.  Each scan is followed from the
place where its token starts, with the text that was taken since, so every slice is one between
two characters and no length is counted backwards.

* `ByteLexer.numeral_eq`, `ByteLexer.word_eq`, `ByteLexer.parts_eq` : the scans of tokens;
* `ByteLexer.next_eq` : a reading over bytes is a reading.
-/
import Mathlib.Data.List.TakeWhile
import GenericIR.Proofs.Bytes.Step
import GenericIR.Proofs.Locality
import GenericIR.Proofs.Reading

namespace GenericIR

namespace ByteLexer

open Checked

variable {source taken text : List Char} {start : Place}

/-! ## Quoted text -/

/-- The loop over a string literal ends behind its closing quote, or with a fault at the end. -/
theorem loop_quotedTurn_eq (value : List Char) (h : start.Stands source (taken ++ text)) :
    loop (left source) (quotedTurn source start) value (start.after taken) =
      some (((GenericIR.quotedBody text).map (value ++ ·)).result start taken) := by
  fun_induction GenericIR.quotedBody text generalizing taken value with
  | case1 =>
      refine loop_of_error ?_
      rw [quotedTurn, bind_ok (peek_eq h.after)]
      exact fault_result start taken _
  | case2 rest =>
      have hturn : quotedTurn source start value (start.after taken) =
          some (.ok (.done value), start.after (taken ++ ['"'])) := by
        rw [quotedTurn, bind_ok (peek_eq h.after)]
        dsimp only [List.head?_cons]
        rw [bind_ok (advance_taken h), if_pos rfl]
        rfl
      rw [loop_of_done hturn, Scan.result, Scan.outcome_map, Except.map, List.append_nil]
      rfl
  | case3 c rest ih =>
      have hturn : quotedTurn source start value (start.after taken) =
          some (.ok (.again (value ++ [unescape c])), start.after (taken ++ ['\\'] ++ [c])) := by
        rw [quotedTurn, bind_ok (peek_eq h.after)]
        dsimp only [List.head?_cons]
        rw [bind_ok (advance_taken h), if_neg (by decide), if_pos rfl,
          bind_ok (peek_eq h.snoc.after)]
        dsimp only [List.head?_cons]
        rw [bind_ok (advance_taken h.snoc)]
        rfl
      have hleft := Nat.lt_trans (left_snoc_lt h.snoc) (left_snoc_lt h)
      rw [loop_of_again hturn hleft, ih _ h.snoc.snoc, Scan.map_prepend, Scan.result_prepend,
        Scan.map_map, List.append_assoc]
      simp only [List.append_assoc, List.cons_append, List.nil_append]
  | case4 c rest hquote hescape ih =>
      by_cases hback : c = '\\'
      · -- a backslash with nothing behind it
        obtain rfl : rest = [] := by
          cases rest with
          | nil => rfl
          | cons d rest => exact absurd rfl (hescape d rest hback)
        refine loop_of_error ?_
        rw [quotedTurn, bind_ok (peek_eq h.after)]
        dsimp only [List.head?_cons]
        rw [bind_ok (advance_taken h), if_neg hquote, if_pos hback, bind_ok (peek_eq h.snoc.after)]
        exact fault_eq start (taken ++ [c]) _
      · have hturn : quotedTurn source start value (start.after taken) =
            some (.ok (.again (value ++ [c])), start.after (taken ++ [c])) := by
          rw [quotedTurn, bind_ok (peek_eq h.after)]
          dsimp only [List.head?_cons]
          rw [bind_ok (advance_taken h), if_neg hquote, if_neg hback]
          rfl
        rw [loop_of_again hturn (left_snoc_lt h), ih _ h.snoc, Scan.map_prepend,
          Scan.result_prepend, Scan.map_map]
        simp only [List.append_assoc, List.cons_append, List.nil_append]

/-- A text in quotes is scanned behind its opening quote. -/
theorem quotedBody_eq (h : start.Stands source (taken ++ text)) :
    quotedBody source start (start.after taken) =
      some ((GenericIR.quotedBody text).result start taken) := by
  exact (loop_quotedTurn_eq [] h).trans (by simp only [List.nil_append, Scan.map_id])

/-! ## Numerals -/

/-- Digits are told from the first byte. -/
theorem decides_isDigitByte : Decides isDigitByte Char.isDigit :=
  decides_asciiByte _ ascii_of_isDigit

/-- A sign is the first character or nothing. -/
theorem signPart_head? (text : List Char) : signPart text.head?.toList = signPart text := by
  cases text with
  | nil => rfl
  | cons c rest =>
      rw [List.head?_cons, Option.toList_some, signPart_cons, signPart_cons]

/-- The lexer goes over a sign. -/
theorem skipSign_eq (h : start.Stands source text) :
    skipSign source start = some (.ok (signPart text), start.after (signPart text)) := by
  rw [skipSign, bind_ok (peek_eq h), signPart_head?]
  by_cases hsign : signPart text = []
  · rw [if_pos hsign, hsign]
    rfl
  · cases text with
    | nil => exact absurd rfl hsign
    | cons c rest =>
        have hc : signPart (c :: rest) = [c] := by
          rw [signPart_cons] at hsign ⊢
          split at hsign
          · next hc => rw [if_pos hc]
          · exact absurd rfl hsign
        rw [if_neg hsign, bind_ok (advance_eq h), hc]
        rfl

/-- What a numeral means behind its whole text. -/
theorem readNumeral_eq {lexeme rest : List Char} (h : start.Stands source (lexeme ++ rest))
    (kind : TokenKind) (value : Option TokenValue) :
    readNumeral source start kind value (start.after lexeme) =
      some ((GenericIR.readNumeral lexeme kind value).result start []) := by
  cases value with
  | some v => rfl
  | none =>
      rw [readNumeral, bind_ok (textSince_eq h), fault_eq]
      rfl

/-- A hexadecimal integer is scanned from its `x` on. -/
theorem hexadecimal_eq (sign rest : List Char)
    (h : start.Stands source (sign ++ ['0'] ++ 'x' :: rest)) :
    hexadecimal source start sign (start.after (sign ++ ['0'])) =
      some ((GenericIR.hexadecimal sign rest).result start []) := by
  have hlexeme : sign ++ ['0'] ++ ['x'] ++ rest.takeWhile isHexDigit =
      sign ++ '0' :: 'x' :: rest.takeWhile isHexDigit := by
    simp only [List.append_assoc, List.cons_append, List.nil_append]
  have hrun := h.snoc.run isHexDigit
  rw [hexadecimal, bind_ok (advance_taken h), here_bind,
    bind_ok (skipWhile_taken (decides_asciiByte _ ascii_of_isHexDigit) h.snoc),
    bind_ok (textSince_taken hrun), hlexeme]
  rw [hlexeme] at hrun
  exact readNumeral_eq hrun _ _

/-- A decimal integer is scanned from its whole text. -/
theorem integral_eq (sign digits rest : List Char) (hsign : signPart (sign ++ digits) = sign)
    (h : start.Stands source (sign ++ digits ++ rest)) :
    integral source start (start.after (sign ++ digits)) =
      some ((GenericIR.integral sign digits).result start []) := by
  rw [integral, bind_ok (textSince_eq h), hsign, List.drop_left]
  exact readNumeral_eq h _ _

/-- A sign is told from its byte. -/
theorem decides_sign :
    Decides (fun b => isByte '+' b || isByte '-' b) (fun c => c == '+' || c == '-') :=
  .or (decides_isByte (by decide)) (decides_isByte (by decide))

/-- A run of characters is empty where the first character is not of the class. -/
theorem takeWhile_eq_nil_iff (good : Char → Bool) (text : List Char) :
    text.takeWhile good = [] ↔ text.head?.any good = false := by
  cases text with
  | nil => exact ⟨fun _ => rfl, fun _ => rfl⟩
  | cons c rest =>
      rw [List.takeWhile_cons, List.head?_cons, Option.any_some]
      cases good c <;> simp

/-- A sign with digits behind it keeps its sign. -/
theorem signPart_signPart_append (text : List Char) :
    signPart (signPart text ++ (text.drop (signPart text).length).takeWhile Char.isDigit) =
      signPart text := by
  cases text with
  | nil => rfl
  | cons c rest =>
      by_cases hc : c = '+' ∨ c = '-'
      · rw [signPart_cons, if_pos hc, List.cons_append, signPart_cons, if_pos hc]
      · rw [signPart_cons, if_neg hc, List.nil_append, List.length_nil, List.drop_zero,
          List.takeWhile_cons]
        cases c.isDigit with
        | false => rfl
        | true =>
            rw [if_pos rfl, signPart_cons, if_neg hc]

/-- A power of ten is an `e` with a sign and digits behind it, if there are any. -/
theorem exponentPart_cons {c : Char} (hc : c = 'e' ∨ c = 'E') (rest : List Char) :
    (exponentPart (c :: rest)).1 =
      if (rest.drop (signPart rest).length).head?.any Char.isDigit then
        c :: signPart rest ++ (rest.drop (signPart rest).length).takeWhile Char.isDigit
      else [] := by
  rw [exponentPart]
  dsimp only
  by_cases hdigit : (rest.drop (signPart rest).length).head?.any Char.isDigit
  · have hne : (rest.drop (signPart rest).length).takeWhile Char.isDigit ≠ [] := by
      rw [Ne, takeWhile_eq_nil_iff, hdigit]
      decide
    rw [if_pos ⟨hc, hne⟩, if_pos hdigit]
  · rw [if_neg fun hand => hand.2 ((takeWhile_eq_nil_iff _ _).mpr (Bool.eq_false_iff.mpr hdigit)),
      if_neg hdigit]

/-- The lexer goes over a power of ten that has a digit. -/
theorem skipPower_eq (h : start.Stands source (taken ++ text)) :
    skipPower source (start.after taken) =
      some (.ok (), start.after (taken ++ (exponentPart text).1)) := by
  rw [skipPower, bind_ok (peek_eq h.after)]
  cases text with
  | nil =>
      rw [exponentPart, List.append_nil]
      rfl
  | cons c rest =>
      rw [List.head?_cons]
      by_cases hc : c = 'e' ∨ c = 'E'
      · have hascii : c.toNat < 128 := by rcases hc with rfl | rfl <;> decide
        rw [if_pos (by simpa using hc), bind_ok (sees_one decides_sign hascii h.after),
          exponentPart_cons hc]
        cases rest with
        | nil =>
            rw [List.head?_nil, Option.any_none, if_neg (by decide),
              bind_ok (sees_one decides_isDigitByte hascii h.after)]
            exact congrArg (fun t => some (Except.ok (), start.after t)) (List.append_nil _).symm
        | cons d rest =>
            by_cases hd : d = '+' ∨ d = '-'
            · have hsigned : ((d :: rest).head?.any fun c => c == '+' || c == '-') = true := by
                simpa using hd
              have hdascii : d.toNat < 128 := by rcases hd with rfl | rfl <;> decide
              rw [hsigned, if_pos rfl, bind_ok (sees_two decides_isDigitByte hascii hdascii h.after),
                signPart_cons, if_pos hd, List.length_singleton, List.drop_one, List.tail_cons]
              by_cases hdigit : rest.head?.any Char.isDigit
              · rw [if_pos hdigit, if_pos hdigit, bind_ok (advance_taken h), if_pos rfl,
                  bind_ok (advance_taken h.snoc),
                  skipWhile_taken decides_isDigitByte h.snoc.snoc]
                simp only [List.append_assoc, List.cons_append, List.nil_append]
              · rw [if_neg hdigit, if_neg hdigit, List.append_nil]
                rfl
            · have hsigned : ((d :: rest).head?.any fun c => c == '+' || c == '-') = false := by
                simpa using hd
              rw [hsigned, if_neg (by decide), bind_ok (sees_one decides_isDigitByte hascii h.after),
                signPart_cons, if_neg hd, List.length_nil, List.drop_zero]
              by_cases hdigit : (d :: rest).head?.any Char.isDigit
              · rw [if_pos hdigit, if_pos hdigit, bind_ok (advance_taken h), if_neg (by decide),
                  skipWhile_taken decides_isDigitByte h.snoc]
                simp only [List.append_assoc, List.cons_append, List.nil_append]
              · rw [if_neg hdigit, if_neg hdigit, List.append_nil]
                rfl
      · rw [if_neg (by simpa using hc), exponentPart]
        dsimp only
        rw [if_neg fun hand => hc hand.1, List.append_nil]
        rfl

/-- A float is scanned from its point on. -/
theorem fractional_eq (sign whole rest : List Char)
    (h : start.Stands source (sign ++ whole ++ '.' :: rest)) :
    fractional source start sign whole (start.after (sign ++ whole)) =
      some ((GenericIR.fractional sign whole rest).result start []) := by
  have hrun := h.snoc.run Char.isDigit
  have hpower := exponentPart_isPrefix (rest.dropWhile Char.isDigit)
  obtain ⟨behind, hbehind⟩ := hpower
  have hlexeme : sign ++ whole ++ ['.'] ++ rest.takeWhile Char.isDigit ++
      (exponentPart (rest.dropWhile Char.isDigit)).1 =
        sign ++ whole ++ '.' :: rest.takeWhile Char.isDigit ++
          (exponentPart (rest.dropWhile Char.isDigit)).1 := by
    simp only [List.append_assoc, List.cons_append, List.nil_append]
  have hall : start.Stands source (sign ++ whole ++ ['.'] ++ rest.takeWhile Char.isDigit ++
      (exponentPart (rest.dropWhile Char.isDigit)).1 ++ behind) := by
    rwa [List.append_assoc _ _ behind, hbehind]
  have hfraction : ∀ q, textBetween source (start.after (sign ++ whole ++ ['.']))
      (start.after (sign ++ whole ++ ['.'] ++ rest.takeWhile Char.isDigit)) q =
        some (.ok (rest.takeWhile Char.isDigit), q) := by
    intro q
    rw [Place.after_append _ _ (rest.takeWhile Char.isDigit)]
    rw [List.append_assoc _ (rest.takeWhile Char.isDigit)] at hrun
    exact textBetween_eq hrun.after q
  rw [fractional, bind_ok (advance_taken h), here_bind,
    bind_ok (skipWhile_taken decides_isDigitByte h.snoc), here_bind, bind_ok (skipPower_eq hrun),
    bind_ok (hfraction _), bind_ok (textSince_taken hall), hlexeme]
  rw [hlexeme] at hall
  exact readNumeral_eq hall _ _

/-- The text of a numeral is scanned as a numeral. -/
theorem numeral_eq (h : start.Stands source text) :
    numeral source start start = some ((GenericIR.numeral text).result start []) := by
  have hsign : start.Stands source (signPart text ++ text.drop (signPart text).length) := by
    rwa [signPart_append_drop]
  have hrun := hsign.run Char.isDigit
  rw [numeral, bind_ok (skipSign_eq h), here_bind,
    bind_ok (skipWhile_taken decides_isDigitByte hsign), bind_ok (textSince_taken hrun),
    bind_ok (peek_eq hrun.after)]
  fun_cases GenericIR.numeral text with
  | case1 sign body whole rest hrest hzero =>
      have hrest' : (text.drop (signPart text).length).dropWhile Char.isDigit = 'x' :: rest := hrest
      have hzero' : (text.drop (signPart text).length).takeWhile Char.isDigit = ['0'] := hzero
      rw [hrest', hzero'] at hrun
      rw [hrest', hzero', if_pos ⟨rfl, rfl⟩]
      exact hexadecimal_eq sign rest hrun
  | case2 sign body whole rest hrest hzero =>
      have hrest' : (text.drop (signPart text).length).dropWhile Char.isDigit = 'x' :: rest := hrest
      rw [if_neg fun hand => hzero hand.1, hrest', if_neg (by simp)]
      exact integral_eq sign whole _ (signPart_signPart_append text) hrun
  | case3 sign body whole rest hrest =>
      have hrest' : (text.drop (signPart text).length).dropWhile Char.isDigit = '.' :: rest := hrest
      rw [hrest'] at hrun
      rw [hrest', if_neg (by simp), if_pos List.head?_cons]
      exact fractional_eq sign whole rest hrun
  | case4 sign body whole hx hpoint =>
      have hnext : ∀ c, (∀ rest, body.dropWhile Char.isDigit ≠ c :: rest) →
          (body.dropWhile Char.isDigit).head? ≠ some c := by
        intro c hc hhead
        obtain ⟨rest, hrest⟩ := List.head?_eq_some_iff.mp hhead
        exact hc rest hrest
      rw [if_neg fun hand => hnext 'x' (fun rest hrest => hx rest hrest) hand.2,
        if_neg (hnext '.' fun rest hrest => hpoint rest hrest)]
      exact integral_eq sign whole _ (signPart_signPart_append text) hrun

/-! ## Words and angle bracket forms -/

section Word

variable (limits : Limits)

/-- What a word means that ends behind the text taken. -/
theorem wordEnd_eq {rest : List Char} (h : start.Stands source (taken ++ rest)) (depth : Nat)
    (opened : Bool) :
    wordEnd source start depth opened (start.after taken) =
      some ((if 0 < depth then angleForm limits taken .unclosed
        else if opened then angleForm limits taken .closed
        else ⟨taken, .ok (wordMeaning taken)⟩).result start []) := by
  rw [wordEnd, bind_ok (textSince_eq h)]
  by_cases hdepth : 0 < depth
  · rw [if_pos hdepth, if_pos hdepth, fault_eq]
    rfl
  · rw [if_neg hdepth, if_neg hdepth]
    cases opened <;> rfl

/-- A depth within the bound is let through. -/
theorem checkDepth_ok {depth : Nat} (h : depth ≤ limits.maxNestingDepth) (p : Place) :
    checkDepth limits start depth p = some (.ok (), p) := by
  rw [checkDepth, if_neg (by omega)]
  rfl

/-- A depth past the bound is a fault that covers the text taken. -/
theorem checkDepth_error {depth : Nat} (h : limits.maxNestingDepth < depth) :
    checkDepth limits start depth (start.after taken) =
      some (.error (.ofFault (.limitExceeded "type nesting depth" limits.maxNestingDepth)
        (.ofText start taken)), start.after taken) := by
  rw [checkDepth, if_pos h, fault_eq]

/-- One turn of the loop behind an opening bracket. -/
theorem wordTurn_cons {depth : Nat} (hdepth : 0 < depth) {c : Char} {rest : List Char}
    (h : start.Stands source (taken ++ c :: rest)) :
    wordTurn source limits start (depth, true) (start.after taken) =
      (if c = '<' then do
        checkDepth limits start (depth + 1)
        return .again (depth + 1, true)
      else if c = '>' then do
        let depth ← subtract depth 1
        return if depth = 0 then .done (0, true) else .again (depth, true)
      else return .again (depth, true) : ByteLexer (Flow (Nat × Bool) (Nat × Bool)))
        (start.after (taken ++ [c])) := by
  rw [wordTurn, bind_ok (peek_eq h.after)]
  dsimp only [List.head?_cons]
  rw [if_neg (by omega), bind_ok (advance_taken h)]

/-- A turn behind an opening bracket that goes on leaves the loop to the turns after it. -/
theorem skipWord_of_again {depth next : Nat} {opened : Bool} {c : Char} {rest : List Char}
    (h : start.Stands source (taken ++ c :: rest))
    (hturn : wordTurn source limits start (depth, opened) (start.after taken) =
      some (.ok (.again (next, opened)), start.after (taken ++ [c]))) :
    skipWord source limits start depth opened (start.after taken) =
      skipWord source limits start next opened (start.after (taken ++ [c])) :=
  loop_of_again hturn (left_snoc_lt h)

/-- Behind an opening bracket the loop ends behind the bracket that closes it, or with a fault. -/
theorem skipWord_angles_eq {depth : Nat} (hdepth : 0 < depth)
    (h : start.Stands source (taken ++ text)) :
    (skipWord source limits start depth true >>= fun r => wordEnd source start r.1 r.2)
        (start.after taken) =
      some ((angleForm limits (taken ++ (angles limits.maxNestingDepth depth text).1)
        (angles limits.maxNestingDepth depth text).2).result start []) := by
  fun_induction angles limits.maxNestingDepth depth text generalizing taken with
  | case1 depth =>
      have hturn : wordTurn source limits start (depth, true) (start.after taken) =
          some (.ok (.done (depth, true)), start.after taken) := by
        rw [wordTurn, bind_ok (peek_eq h.after)]
        rfl
      have hend : skipWord source limits start depth true (start.after taken) =
          some (.ok (depth, true), start.after taken) := loop_of_done hturn
      rw [bind_ok hend, wordEnd_eq limits h, if_pos hdepth, List.append_nil]
  | case2 depth rest hmax =>
      have hturn := wordTurn_cons limits hdepth h
      rw [if_pos rfl, bind_error (checkDepth_error limits (by omega))] at hturn
      have hfault : skipWord source limits start depth true (start.after taken) = _ :=
        loop_of_error hturn
      rw [bind_error hfault]
      rfl
  | case3 depth rest hmax tail ending heq ih =>
      have hturn := wordTurn_cons limits hdepth h
      rw [if_pos rfl, bind_ok (checkDepth_ok limits (by omega) _)] at hturn
      have hrest := ih (Nat.succ_pos depth) h.snoc
      rw [heq, List.append_assoc] at hrest
      rw [bind_congr _ (skipWord_of_again limits h hturn), hrest]
      rfl
  | case4 depth c rest hopen hclose =>
      obtain ⟨rfl, hone⟩ := hclose
      have hturn := wordTurn_cons limits hdepth h
      have hzero : depth - 1 = 0 := by omega
      rw [if_neg (by decide), if_pos rfl, bind_ok (subtract_eq hdepth _), if_pos hzero] at hturn
      have hend : skipWord source limits start depth true (start.after taken) =
          some (.ok (0, true), start.after (taken ++ ['>'])) := loop_of_done hturn
      rw [bind_ok hend, wordEnd_eq limits h.snoc]
      rfl
  | case5 depth c rest hopen hclose tail ending heq ih =>
      have hturn := wordTurn_cons limits hdepth h
      rw [if_neg hopen] at hturn
      have hagain : wordTurn source limits start (depth, true) (start.after taken) =
          some (.ok (.again (if c = '>' then depth - 1 else depth, true)),
            start.after (taken ++ [c])) := by
        by_cases hc : c = '>'
        · have hmore : ¬ depth - 1 = 0 := fun hzero => hclose ⟨hc, by omega⟩
          rw [hturn, if_pos hc, if_pos hc, bind_ok (subtract_eq hdepth _), if_neg hmore]
          rfl
        · rw [hturn, if_neg hc, if_neg hc]
          rfl
      have hpos : 0 < if c = '>' then depth - 1 else depth := by
        split
        · next hc => exact Nat.pos_of_ne_zero fun hzero => hclose ⟨hc, by omega⟩
        · exact hdepth
      have hrest := ih hpos h.snoc
      rw [heq, List.append_assoc] at hrest
      rw [bind_congr _ (skipWord_of_again limits h hagain), hrest]
      rfl

/-- The loop goes over the front of a word. -/
theorem skipWord_front_eq (h : start.Stands source (taken ++ text)) :
    skipWord source limits start 0 false (start.after taken) =
      skipWord source limits start 0 false (start.after (taken ++ text.takeWhile isWordChar)) := by
  induction text generalizing taken with
  | nil => rw [List.takeWhile_nil, List.append_nil]
  | cons c rest ih =>
      cases hc : isWordChar c with
      | false => rw [List.takeWhile_cons_of_neg (by rw [hc]; decide), List.append_nil]
      | true =>
          have hopen : c ≠ '<' := by
            rintro rfl
            exact absurd hc (by decide)
          have hturn : wordTurn source limits start (0, false) (start.after taken) =
              some (.ok (.again (0, false)), start.after (taken ++ [c])) := by
            rw [wordTurn, bind_ok (peek_eq h.after)]
            dsimp only [List.head?_cons]
            rw [if_pos rfl, if_neg hopen, if_pos hc, bind_ok (advance_taken h)]
            rfl
          have hrest := ih h.snoc
          rw [List.append_assoc] at hrest
          rw [List.takeWhile_cons_of_pos hc]
          exact (skipWord_of_again limits h hturn).trans hrest

/-- An opening bracket at the end of a word starts the loop behind it. -/
theorem skipWord_open_eq {rest : List Char} (h : start.Stands source (taken ++ '<' :: rest)) :
    (skipWord source limits start 0 false >>= fun r => wordEnd source start r.1 r.2)
        (start.after taken) =
      some ((angleForm limits (taken ++ (angles limits.maxNestingDepth 0 ('<' :: rest)).1)
        (angles limits.maxNestingDepth 0 ('<' :: rest)).2).result start []) := by
  have hturn : wordTurn source limits start (0, false) (start.after taken) =
      (checkDepth limits start 1 >>= fun _ => pure (Flow.again (1, true)))
        (start.after (taken ++ ['<'])) := by
    rw [wordTurn, bind_ok (peek_eq h.after)]
    dsimp only [List.head?_cons]
    rw [if_pos rfl, if_pos rfl, bind_ok (advance_taken h)]
  rw [angles, if_pos rfl]
  by_cases hmax : limits.maxNestingDepth ≤ 0
  · rw [bind_error (checkDepth_error limits (by omega))] at hturn
    have hfault : skipWord source limits start 0 false (start.after taken) = _ :=
      loop_of_error hturn
    rw [bind_error hfault, if_pos hmax]
    rfl
  · rw [bind_ok (checkDepth_ok limits (by omega) _)] at hturn
    have hnext : skipWord source limits start 0 false (start.after taken) =
        skipWord source limits start 1 true (start.after (taken ++ ['<'])) :=
      loop_of_again hturn (left_snoc_lt h)
    have hrest := skipWord_angles_eq limits Nat.one_pos h.snoc
    rw [List.append_assoc] at hrest
    rw [bind_congr _ hnext, hrest, if_neg hmax]
    rfl

/-- The text of a word is scanned as a word. -/
theorem word_eq (h : start.Stands source text) :
    word source limits start start = some ((GenericIR.word limits text).result start []) := by
  have hfront := @skipWord_front_eq source [] text start limits h
  have hrun : start.Stands source (text.takeWhile isWordChar ++ text.dropWhile isWordChar) := by
    rwa [List.takeWhile_append_dropWhile]
  show (skipWord source limits start 0 false >>= fun r => wordEnd source start r.1 r.2)
    (start.after []) = _
  rw [bind_congr _ hfront, List.nil_append]
  fun_cases GenericIR.word limits text with
  | case1 front rest hrest tail ending heq =>
      rw [hrest] at hrun
      have hform := skipWord_open_eq limits hrun
      rw [heq] at hform
      exact hform
  | case2 front hopen =>
      have hturn : wordTurn source limits start (0, false) (start.after front) =
          some (.ok (.done (0, false)), start.after front) := by
        rw [wordTurn, bind_ok (peek_eq hrun.after)]
        cases hrest : text.dropWhile isWordChar with
        | nil => rfl
        | cons c rest =>
            have hc : ¬ isWordChar c := not_of_head?_dropWhile (by rw [hrest]; rfl)
            dsimp only [List.head?_cons]
            rw [if_pos rfl, if_neg fun hc => hopen rest (by rw [hrest, hc]), if_neg hc]
            rfl
      have hend : skipWord source limits start 0 false (start.after front) =
          some (.ok (0, false), start.after front) := loop_of_done hturn
      rw [bind_ok hend, wordEnd_eq limits hrun]
      rfl

end Word

/-! ## Ids with a sigil -/

/-- Characters of ids are told from the first byte. -/
theorem decides_isIdByte : Decides isIdByte isIdChar := decides_asciiByte _ ascii_of_isIdChar

/-- A token that carries the text taken. -/
theorem plain_eq {rest : List Char} (kind : TokenKind) (h : start.Stands source (taken ++ rest)) :
    plain source kind start (start.after taken) =
      some ((Scan.plain kind taken).result start []) :=
  bind_ok (textSince_eq h)

/-- The text of a value id is scanned as one. -/
theorem valueId_eq {sigil : Char} {rest : List Char}
    (h : start.Stands source (sigil :: rest)) :
    valueId source start start = some ((GenericIR.valueId sigil rest).result start []) := by
  have hsigil : start.Stands source ([sigil] ++ rest) := h
  rw [valueId, bind_ok (advance_eq h)]
  exact (bind_ok (skipWhile_taken decides_isIdByte hsigil)).trans
    (plain_eq .valueId (hsigil.run isIdChar))

/-- The lexer goes over a sigil that is repeated. -/
theorem skipSigil_eq (sigil : Char) (h : start.Stands source (taken ++ text)) :
    skipSigil source sigil (start.after taken) =
      some (.ok (if text.head? = some sigil then [sigil] else []),
        start.after (taken ++ if text.head? = some sigil then [sigil] else [])) := by
  rw [skipSigil, bind_ok (peek_eq h.after)]
  by_cases hsigil : text.head? = some sigil
  · obtain ⟨rest, rfl⟩ := List.head?_eq_some_iff.mp hsigil
    rw [if_pos hsigil, if_pos hsigil, bind_ok (advance_taken h)]
    rfl
  · rw [if_neg hsigil, if_neg hsigil, List.append_nil]
    rfl

/-- A text starts with a doubled colon where its run of id characters is left in front of one. -/
theorem colons_isPrefix_iff {rest : List Char} :
    [':', ':'] <+: rest ↔ ∃ behind, rest = ':' :: ':' :: behind :=
  ⟨fun ⟨behind, h⟩ => ⟨behind, h.symm⟩, fun ⟨behind, h⟩ => ⟨behind, h.symm⟩⟩

section Reference

variable (limits : Limits)

/-- A turn over a part that is not in quotes comes to what stands behind the part. -/
theorem partTurn_plain {sigil : Char} {name : List Char} {count : Nat}
    (h : start.Stands source (taken ++ text)) (hquote : ¬ (sigil = '@' ∧ text.head? = some '"')) :
    partTurn source limits start sigil (name, count) (start.after taken) =
      (if decide ([':', ':'] <+: text.dropWhile isIdChar) then
        if limits.maxSymbolSegments < count + 1 then
          fault start (.limitExceeded "qualified reference segments" limits.maxSymbolSegments)
        else do
          advance source
          advance source
          let again ← skipSigil source sigil
          return .again (name ++ text.takeWhile isIdChar ++ ':' :: ':' :: again, count + 1)
      else return .done (name ++ text.takeWhile isIdChar) :
        ByteLexer (Flow (List Char × Nat) (List Char)))
          (start.after (taken ++ text.takeWhile isIdChar)) := by
  have hrun := h.run isIdChar
  rw [partTurn, bind_ok (peek_eq h.after), if_neg hquote, here_bind,
    bind_ok (skipWhile_taken decides_isIdByte h), bind_ok (textSince_taken hrun),
    bind_ok (seesBoth_eq (by decide) (by decide) hrun.after)]

/-- The loop over the parts of a name ends behind the last of them, or with a fault. -/
theorem loop_partTurn_eq (sigil : Char) (name : List Char) (count : Nat)
    (h : start.Stands source (taken ++ text)) :
    loop (left source) (partTurn source limits start sigil) (name, count) (start.after taken) =
      some (((GenericIR.parts sigil limits.maxSymbolSegments count text).map
        (name ++ ·)).result start taken) := by
  fun_induction GenericIR.parts sigil limits.maxSymbolSegments count text
    generalizing taken name with
  | case1 count text hquote =>
      obtain ⟨rest, rfl⟩ := List.head?_eq_some_iff.mp hquote.2
      have hturn : partTurn source limits start sigil (name, count) (start.after taken) =
          some ((((GenericIR.quotedBody rest).map (name ++ ·)).map Flow.done).result start
            (taken ++ ['"'])) := by
        rw [partTurn, bind_ok (peek_eq h.after), if_pos hquote, bind_ok (advance_taken h),
          Scan.map_map]
        exact bind_map _ (quotedBody_eq h.snoc)
      rw [Scan.map_prepend, Scan.result_prepend]
      show _ = some (((GenericIR.quotedBody rest).map (name ++ ·)).result start (taken ++ ['"']))
      generalize GenericIR.quotedBody rest = s at hturn ⊢
      obtain ⟨lexeme, outcome⟩ := s
      cases outcome with
      | ok body => exact loop_of_done hturn
      | error fault => exact loop_of_error hturn
  | case2 count text hquote front rest hrest =>
      rename_i hmax
      refine loop_of_error ?_
      rw [partTurn_plain limits h hquote,
        if_pos (decide_eq_true (colons_isPrefix_iff.mpr ⟨rest, hrest⟩)), if_pos (by omega), fault_eq]
      rfl
  | case3 count text hquote front rest hrest hmax again mark =>
      rename_i ih
      have hcolons : start.Stands source (taken ++ front ++ ':' :: ':' :: rest) :=
        hrest ▸ h.run isIdChar
      have hmark : taken ++ front ++ [':'] ++ [':'] ++ again = taken ++ mark := by
        simp only [mark, List.append_assoc, List.cons_append, List.nil_append]
      have hagain : start.Stands source (taken ++ mark ++ rest.drop again.length) := by
        rw [List.append_assoc]
        exact (mark_append_drop sigil hrest).symm ▸ h
      have hturn : partTurn source limits start sigil (name, count) (start.after taken) =
          some (.ok (.again (name ++ mark, count + 1)), start.after (taken ++ mark)) := by
        rw [partTurn_plain limits h hquote,
          if_pos (decide_eq_true (colons_isPrefix_iff.mpr ⟨rest, hrest⟩)), if_neg (by omega),
          bind_ok (advance_taken hcolons), bind_ok (advance_taken hcolons.snoc),
          bind_ok (skipSigil_eq sigil hcolons.snoc.snoc), List.append_assoc name]
        exact congrArg (fun t => some (Except.ok (Flow.again (name ++ mark, count + 1)),
          start.after t)) hmark
      have hleft := left_after_lt hagain (by simp [mark])
      rw [loop_of_again hturn hleft, ih _ hagain, Scan.map_prepend, Scan.result_prepend,
        Scan.map_map]
      simp only [List.append_assoc]
  | case4 count text hquote front =>
      rename_i hcolons
      have hnone : ¬ [':', ':'] <+: text.dropWhile isIdChar := by
        rw [colons_isPrefix_iff]
        rintro ⟨rest, hrest⟩
        exact hcolons rest hrest
      refine loop_of_done ?_
      rw [partTurn_plain limits h hquote, decide_eq_false hnone, if_neg (by decide)]
      rfl

/-- The parts of a name are scanned behind its sigil. -/
theorem parts_eq (sigil : Char) (h : start.Stands source (taken ++ text)) :
    parts source limits start sigil (start.after taken) =
      some ((GenericIR.parts sigil limits.maxSymbolSegments 1 text).result start taken) :=
  (loop_partTurn_eq limits sigil [] 1 h).trans (by simp only [List.nil_append, Scan.map_id])

/-- The text of a symbol or a label is scanned behind its sigil. -/
theorem reference_eq {sigil : Char} {rest : List Char} (kind : TokenKind)
    (h : start.Stands source (sigil :: rest)) :
    reference source limits start sigil kind (start.after [sigil]) =
      some ((GenericIR.reference limits sigil kind rest).result start []) := by
  have hsigil : start.Stands source ([sigil] ++ rest) := h
  rw [GenericIR.reference, Scan.result_prepend]
  exact bind_map _ (parts_eq limits sigil hsigil)

/-- The text of a label is scanned as a label. -/
theorem label_eq {rest : List Char} (h : start.Stands source ('^' :: rest)) :
    label source limits start start = some ((GenericIR.label limits rest).result start []) := by
  have hsigil : start.Stands source (['^'] ++ rest) := h
  have hreference := reference_eq limits .caretId h
  rw [label, bind_ok (advance_eq h)]
  refine (bind_ok (peek_eq hsigil.after)).trans ?_
  fun_cases GenericIR.label limits rest with
  | case1 behind =>
      rw [bind_ok (sees_one (decides_isByte (by decide)) (by decide) hsigil.after), if_neg (by simp)]
      exact hreference
  | case2 behind hbehind =>
      have hsecond : behind.head?.any (· == ':') = false := by
        cases behind with
        | nil => rfl
        | cons c behind => exact beq_eq_false_iff_ne.mpr fun hc => hbehind behind (by rw [hc])
      rw [bind_ok (sees_one (decides_isByte (by decide)) (by decide) hsigil.after), hsecond,
        if_pos ⟨rfl, by decide⟩, bind_ok (advance_taken hsigil)]
      exact plain_eq .caretId hsigil.snoc
  | case3 =>
      rename_i hcolon
      have hnext : ¬ rest.head? = some ':' := by
        intro hhead
        obtain ⟨behind, hbehind⟩ := List.head?_eq_some_iff.mp hhead
        exact hcolon behind hbehind
      rw [bind_ok (sees_eq hsigil.after 1 _), if_neg fun hand => hnext hand.1]
      exact hreference

end Reference

/-! ## Tokens -/

/-- The text of a mark is scanned as a mark. -/
theorem mark_eq {c : Char} {rest : List Char} (h : start.Stands source (c :: rest)) :
    mark source start c start = some ((GenericIR.mark c rest).result start []) := by
  have hfirst : start.Stands source ([c] ++ rest) := h
  rw [mark, bind_ok (advance_eq h)]
  refine (bind_ok (peek_eq hfirst.after)).trans ?_
  cases rest with
  | nil =>
      rw [if_neg (by simp), if_neg (by simp), if_neg (by simp), mark_nil]
      exact plain_eq _ hfirst
  | cons d rest =>
      have hboth := hfirst.snoc
      have hadvance := advance_taken hfirst
      rw [mark_cons]
      simp only [List.head?_cons, Option.some.injEq]
      split
      · exact (bind_ok hadvance).trans (plain_eq _ hboth)
      · split
        · exact (bind_ok hadvance).trans (plain_eq _ hboth)
        · split
          · exact (bind_ok hadvance).trans (plain_eq _ hboth)
          · exact plain_eq _ hfirst

section Token

variable (limits : Limits)

/-- Whether a numeral comes first is told from the first character and the byte behind it. -/
theorem startsWithNumeral_eq {c : Char} {rest : List Char} {p : Place}
    (h : p.Stands source (c :: rest)) :
    ∃ digit, sees source 1 isDigitByte p = some (.ok digit, p) ∧
      (c.isDigit || ((c == '.' || c == '-' || c == '+') && digit)) =
        startsWithNumeral (c :: rest) := by
  refine ⟨_, sees_eq h 1 _, ?_⟩
  rw [startsWithNumeral]
  by_cases hc : (c == '.' || c == '-' || c == '+') = true
  · have hascii : c.toNat < 128 := by
      simp only [Bool.or_eq_true, beq_iff_eq] at hc
      rcases hc with (rfl | rfl) | rfl <;> decide
    rw [byteAt?_cons_succ c rest 0 ((utf8Size_eq_one_iff_ascii c).mpr hascii),
      any_byteAt?_zero decides_isDigitByte]
    cases rest <;> rfl
  · rw [Bool.not_eq_true] at hc
    rw [hc, Bool.false_and, Bool.false_and]

/-- A token is scanned from its first character on. -/
theorem meaning_eq {c : Char} {rest : List Char} (h : start.Stands source (c :: rest)) :
    meaning source limits start c start = some ((scanToken limits c rest).result start []) := by
  obtain ⟨digit, hdigit, hnumeral⟩ := startsWithNumeral_eq h
  rw [meaning, bind_ok hdigit, hnumeral]
  have hfirst : start.Stands source ([c] ++ rest) := h
  fun_cases scanToken limits c rest with
  | case1 hn =>
      rw [if_pos hn]
      exact numeral_eq h
  | case2 hn hc =>
      obtain rfl := hc
      rw [if_neg hn, if_pos rfl, bind_ok (advance_eq h), quoted, Scan.result_prepend]
      exact bind_map _ (quotedBody_eq hfirst)
  | case3 hn hc hw =>
      rw [if_neg hn, if_neg hc, if_pos hw]
      exact word_eq limits h
  | case4 hn hc hw hs =>
      obtain rfl := hs
      rw [if_neg hn, if_neg hc, if_neg hw, if_pos rfl, bind_ok (advance_eq h)]
      exact reference_eq limits .symbolRefId h
  | case5 hn hc hw hs hv =>
      rw [if_neg hn, if_neg hc, if_neg hw, if_neg hs, if_pos hv]
      exact valueId_eq h
  | case6 hn hc hw hs hv hl =>
      obtain rfl := hl
      rw [if_neg hn, if_neg hc, if_neg hw, if_neg hs, if_neg hv, if_pos rfl]
      exact label_eq limits h
  | case7 hn hc hw hs hv hl =>
      rw [if_neg hn, if_neg hc, if_neg hw, if_neg hs, if_neg hv, if_neg hl]
      exact mark_eq h

/-! ## Readings -/

/-- What a reading of a lexer gives to one over bytes: the token or the diagnostic, and the
place after it. -/
def ofReading : EStateM.Result Diagnostic Lexer Lexeme → Except Diagnostic Token × Place
  | .ok x m => (.ok x.token, m.place)
  | .error d m => (.error d, m.place)

/-- A lexer that stands in the source reads over bytes what it reads, and nothing goes wrong. -/
theorem next_eq (l : Lexer) (h : l.place.Stands source l.rest) :
    next source l.limits l.place = some (ofReading (Lexer.next l)) := by
  have hgap : l.place.Stands source (gap l.rest ++ (l.skip (gap l.rest)).rest) := by
    rwa [Lexer.gap_append_rest_skip]
  rw [next, bind_ok (skipBlanks_eq h), bind_ok (peek_eq hgap.after)]
  rcases Lexer.next_cases l with ⟨hrest, hnext⟩ | ⟨c, rest, hrest, hnext⟩
  · rw [hrest, hnext]
    rfl
  · rw [hrest] at hgap
    rw [hrest, hnext, List.head?_cons]
    dsimp only
    rw [here_bind]
    have hmeaning := meaning_eq l.limits hgap.after
    generalize scanToken l.limits c rest = s at hmeaning ⊢
    obtain ⟨lexeme, outcome⟩ := s
    cases outcome with
    | error fault =>
        rw [bind_error hmeaning]
        rfl
    | ok m =>
        rw [bind_ok hmeaning]
        exact bind_ok (spanFrom_eq _ lexeme)

end Token

end ByteLexer

end GenericIR
