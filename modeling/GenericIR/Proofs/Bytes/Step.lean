/-
# Steps over bytes

What one step of the lexer over bytes does at a place that stands in the source: a peek finds
the next character, a test of a byte is one of a character, and going on stands in the source
again.  The loops that go on while a test holds end behind a run of characters, and the loop
over blanks and comments ends behind the gap.

* `ByteLexer.skipWhile_eq` : going on by a test of bytes goes over a run of characters;
* `ByteLexer.skipBlanks_eq` : the loop over blanks and comments ends behind the gap.
-/
import GenericIR.Proofs.Bytes.Lexer
import GenericIR.Proofs.Spelling

namespace GenericIR

/-! ## Outcomes -/

/-- The outcome of a scan behind a text that was taken from a place on before. -/
def Scan.result {α : Type} (start : Place) (taken : List Char) (s : Scan α) :
    Except Diagnostic α × Place :=
  (s.outcome.mapError fun f => .ofFault f (.ofText start (taken ++ s.lexeme)),
    start.after (taken ++ s.lexeme))

/-- What a scan took before counts as taken. -/
theorem Scan.result_prepend {α : Type} (start : Place) (taken front : List Char) (s : Scan α) :
    (s.prepend front).result start taken = s.result start (taken ++ front) := by
  simp only [Scan.result, Scan.lexeme_prepend, Scan.outcome_prepend, List.append_assoc]

/-- Characters in front of a scan do not change what it means. -/
theorem Scan.map_prepend {α β : Type} (f : α → β) (front : List Char) (s : Scan α) :
    (s.prepend front).map f = (s.map f).prepend front := rfl

/-- Two changes of meaning are one. -/
theorem Scan.map_map {α β γ : Type} (f : α → β) (g : β → γ) (s : Scan α) :
    (s.map f).map g = s.map fun a => g (f a) := by
  obtain ⟨lexeme, outcome⟩ := s
  cases outcome <;> rfl

/-- A change of meaning that changes nothing. -/
theorem Scan.map_id {α : Type} (s : Scan α) : (s.map fun a => a) = s := by
  obtain ⟨lexeme, outcome⟩ := s
  cases outcome <;> rfl

namespace ByteLexer

open Checked

variable {α β : Type}

/-! ## Steps at a place -/

/-- A scan with another meaning. -/
theorem bind_map {m : ByteLexer α} (f : α → β) {start p : Place} {taken : List Char} {s : Scan α}
    (h : m p = some (s.result start taken)) :
    (m >>= fun a => pure (f a)) p = some ((s.map f).result start taken) := by
  obtain ⟨lexeme, outcome⟩ := s
  cases outcome with
  | ok a => exact bind_ok h
  | error fault => exact bind_error h

/-- The span from a place up to behind a text. -/
theorem spanFrom_eq (start : Place) (taken : List Char) :
    spanFrom start (start.after taken) = some (.ok (.ofText start taken), start.after taken) := by
  have hle : start.offset ≤ (start.after taken).offset := by
    rw [Place.offset_after]
    exact Nat.le_add_right _ _
  have hlen : (start.after taken).offset - start.offset = byteLength taken := by
    rw [Place.offset_after, Nat.add_sub_cancel_left]
  rw [spanFrom, here_bind, bind_ok (subtract_eq hle _), hlen]
  rfl

/-- A fault behind a text covers it. -/
theorem fault_eq (start : Place) (taken : List Char) (f : Fault) :
    (fault start f : ByteLexer α) (start.after taken) =
      some (.error (.ofFault f (.ofText start taken)), start.after taken) :=
  bind_ok (spanFrom_eq start taken)

/-- A fault behind a text that was taken is that of a scan with no characters. -/
theorem fault_result (start : Place) (taken : List Char) (f : Fault) :
    (fault start f : ByteLexer α) (start.after taken) =
      some ((⟨[], .error f⟩ : Scan α).result start taken) := by
  rw [fault_eq, Scan.result, List.append_nil]
  rfl

section

variable {source rest : List Char} {p : Place}

/-- A reader that stands in the source peeks at the next character. -/
theorem peek_eq (h : p.Stands source rest) : peek source p = some (.ok rest.head?, p) := by
  show Option.bind (Option.map _ (textFrom? source p.offset)) _ = _
  rw [h.textFrom?]
  rfl

/-- A reader in front of a character goes on over it. -/
theorem advance_eq {c : Char} (h : p.Stands source (c :: rest)) :
    advance source p = some (.ok (), p.step c) := by
  rw [advance, bind_ok (peek_eq h)]
  rfl

/-- The text behind a place that stands in the source is a slice of it. -/
theorem textBetween_eq {text : List Char} (h : p.Stands source (text ++ rest)) (q : Place) :
    textBetween source p (p.after text) q = some (.ok text, q) := by
  show Option.map _ (slice? source p.offset (p.after text).offset) = _
  rw [h.slice?]
  rfl

/-- The text gone over from a place that stands in the source is a slice of it. -/
theorem textSince_eq {text : List Char} (h : p.Stands source (text ++ rest)) :
    textSince source p (p.after text) = some (.ok text, p.after text) :=
  textBetween_eq h _

/-- The bytes ahead of a reader are those of the text it has not read yet. -/
theorem sees_eq (h : p.Stands source rest) (n : Nat) (test : UInt8 → Bool) :
    sees source n test p = some (.ok ((byteAt? rest n).any test), p) := by
  show some (Except.ok ((byteAt? source (p.offset + n)).any test), p) = _
  rw [h.byteAt?]

/-- A test of the first byte of a text is one of its first character. -/
theorem any_byteAt?_zero {test : UInt8 → Bool} {good : Char → Bool} (htest : Decides test good)
    (text : List Char) : (byteAt? text 0).any test = text.head?.any good := by
  cases text with
  | nil => rfl
  | cons c text =>
      rw [byteAt?_cons_zero, List.head?_cons, Option.any_some, Option.any_some, htest c]

/-- A test of the next byte is one of the next character. -/
theorem sees_zero {test : UInt8 → Bool} {good : Char → Bool} (htest : Decides test good)
    (h : p.Stands source rest) :
    sees source 0 test p = some (.ok (rest.head?.any good), p) := by
  rw [sees_eq h, any_byteAt?_zero htest]

/-- Going over more of the source leaves less of it. -/
theorem left_after_lt {start : Place} {taken text : List Char}
    (h : start.Stands source (taken ++ text ++ rest)) (htext : text ≠ []) :
    left source (start.after (taken ++ text)) < left source (start.after taken) := by
  obtain ⟨front, hsource, hstart⟩ := h
  have hpos : 0 < byteLength text :=
    Nat.pos_of_ne_zero fun hzero => htext (eq_nil_of_byteLength_eq_zero text hzero)
  rw [left, left, hsource]
  simp only [Place.offset_after, byteLength_append, hstart]
  omega

/-- Going over a character leaves less of the source. -/
theorem left_step_lt {c : Char} (h : p.Stands source (c :: rest)) :
    left source (p.step c) < left source p :=
  @left_after_lt source rest p [] [c] h (List.cons_ne_nil c [])

/-- Going over a character behind a text that was taken leaves less of the source. -/
theorem left_snoc_lt {start : Place} {taken : List Char} {c : Char}
    (h : start.Stands source (taken ++ c :: rest)) :
    left source (start.after (taken ++ [c])) < left source (start.after taken) :=
  left_after_lt h.snoc (List.cons_ne_nil c [])

/-- Going on while the next byte passes a test goes over all characters of its class. -/
theorem skipWhile_eq {test : UInt8 → Bool} {good : Char → Bool} (htest : Decides test good)
    (h : p.Stands source rest) :
    skipWhile source test p = some (.ok (), p.after (rest.takeWhile good)) := by
  induction rest generalizing p with
  | nil =>
      have hturn : whileTurn source test () p = some (.ok (.done ()), p) := by
        rw [whileTurn, bind_ok (sees_zero htest h)]
        rfl
      exact loop_of_done hturn
  | cons c rest ih =>
      rw [List.takeWhile_cons]
      cases hc : good c with
      | false =>
          have hturn : whileTurn source test () p = some (.ok (.done ()), p) := by
            rw [whileTurn, bind_ok (sees_zero htest h), List.head?_cons, Option.any_some, hc]
            rfl
          exact loop_of_done hturn
      | true =>
          have hturn : whileTurn source test () p = some (.ok (.again ()), p.step c) := by
            rw [whileTurn, bind_ok (sees_zero htest h), List.head?_cons, Option.any_some, hc,
              if_pos rfl, bind_ok (advance_eq h)]
            rfl
          exact (loop_of_again hturn (left_step_lt h)).trans (ih h.step)

/-- Behind a text that was taken, the character gone over is taken too. -/
theorem advance_taken {start : Place} {taken : List Char} {c : Char}
    (h : start.Stands source (taken ++ c :: rest)) :
    advance source (start.after taken) = some (.ok (), start.after (taken ++ [c])) := by
  rw [advance_eq h.after, Place.after_snoc]

/-- Behind a text that was taken, the run of characters gone over is taken too. -/
theorem skipWhile_taken {test : UInt8 → Bool} {good : Char → Bool} {start : Place}
    {taken : List Char} (htest : Decides test good) (h : start.Stands source (taken ++ rest)) :
    skipWhile source test (start.after taken) =
      some (.ok (), start.after (taken ++ rest.takeWhile good)) := by
  rw [skipWhile_eq htest h.after, Place.after_append]

/-- Behind a text that was taken, the text gone over is a slice. -/
theorem textSince_taken {start : Place} {taken text : List Char}
    (h : start.Stands source (taken ++ text ++ rest)) :
    textSince source (start.after taken) (start.after (taken ++ text)) =
      some (.ok text, start.after (taken ++ text)) := by
  rw [List.append_assoc] at h
  rw [Place.after_append, textSince_eq h.after]

/-- The test for one ASCII character. -/
theorem decides_isByte {c : Char} (hc : c.toNat < 128) : Decides (isByte c) (· == c) :=
  decides_eq_byte c hc

/-- A test of the byte behind an ASCII character is one of the character behind it. -/
theorem sees_one {test : UInt8 → Bool} {good : Char → Bool} {c : Char}
    (htest : Decides test good) (hc : c.toNat < 128) (h : p.Stands source (c :: rest)) :
    sees source 1 test p = some (.ok (rest.head?.any good), p) := by
  rw [sees_eq h, byteAt?_cons_succ c rest 0 ((utf8Size_eq_one_iff_ascii c).mpr hc)]
  exact congrArg (fun b => some (Except.ok b, p)) (any_byteAt?_zero htest rest)

/-- A test of the byte behind two ASCII characters is one of the character behind them. -/
theorem sees_two {test : UInt8 → Bool} {good : Char → Bool} {c d : Char}
    (htest : Decides test good) (hc : c.toNat < 128) (hd : d.toNat < 128)
    (h : p.Stands source (c :: d :: rest)) :
    sees source 2 test p = some (.ok (rest.head?.any good), p) := by
  rw [sees_eq h, byteAt?_cons_succ c _ 1 ((utf8Size_eq_one_iff_ascii c).mpr hc),
    byteAt?_cons_succ d rest 0 ((utf8Size_eq_one_iff_ascii d).mpr hd)]
  exact congrArg (fun b => some (Except.ok b, p)) (any_byteAt?_zero htest rest)

/-- Two bytes are two ASCII characters where the text starts with them. -/
theorem seesBoth_eq {c d : Char} (hc : c.toNat < 128) (hd : d.toNat < 128)
    (h : p.Stands source rest) :
    seesBoth source c d p = some (.ok (decide ([c, d] <+: rest)), p) := by
  rw [seesBoth, bind_ok (sees_zero (decides_isByte hc) h)]
  cases rest with
  | nil =>
      rw [bind_ok (sees_eq h 1 _)]
      rfl
  | cons x rest =>
      by_cases hx : x = c
      · subst hx
        rw [bind_ok (sees_one (decides_isByte hd) hc h), List.head?_cons, Option.any_some,
          beq_self_eq_true, Bool.true_and]
        cases rest with
        | nil =>
            rw [decide_eq_false (by simp)]
            rfl
        | cons y rest =>
            rw [List.head?_cons, Option.any_some]
            by_cases hy : y = d
            · rw [beq_iff_eq.mpr hy, decide_eq_true (by simp [hy])]
              rfl
            · rw [beq_eq_false_iff_ne.mpr hy, decide_eq_false (by simp [Ne.symm hy])]
              rfl
      · rw [bind_ok (sees_eq h 1 _), List.head?_cons, Option.any_some,
          beq_eq_false_iff_ne.mpr hx, Bool.false_and, decide_eq_false (by simp [Ne.symm hx])]
        rfl

/-! ## Blanks and comments -/

/-- Blank characters at the front of a text come first in its gap. -/
theorem gapFrom_between_eq (text : List Char) :
    gapFrom .between text =
      text.takeWhile isBlank ++ gapFrom .between (text.dropWhile isBlank) := by
  induction text with
  | nil => rfl
  | cons c text ih =>
      by_cases hc : isBlank c
      · rw [gapFrom_blank hc, ih, List.takeWhile_cons_of_pos hc, List.dropWhile_cons_of_pos hc]
        rfl
      · rw [List.takeWhile_cons_of_neg hc, List.dropWhile_cons_of_neg hc]
        rfl

/-- A comment goes on to the end of its line, which is a blank. -/
theorem gapFrom_line_eq (text : List Char) :
    gapFrom .line text =
      text.takeWhile (!· == '\n') ++ gapFrom .between (text.dropWhile (!· == '\n')) := by
  induction text with
  | nil => rfl
  | cons c text ih =>
      by_cases hc : c = '\n'
      · subst hc
        rfl
      · have hne : (!c == '\n') = true := by rw [beq_eq_false_iff_ne.mpr hc, Bool.not_false]
        rw [gapFrom, if_neg hc, ih]
        simp only [List.takeWhile_cons, List.dropWhile_cons, hne, if_true, List.cons_append]

/-- A text with neither a blank nor a comment at its front has no gap. -/
theorem gapFrom_between_eq_nil {text : List Char} (hblank : ∀ c ∈ text.head?, ¬ isBlank c)
    (hline : ¬ ['/', '/'] <+: text) (hblock : ¬ ['/', '*'] <+: text) :
    gapFrom .between text = [] := by
  cases text with
  | nil => rfl
  | cons c text =>
      rw [gapFrom, if_neg (hblank c rfl)]
      · rintro rest rfl rfl
        exact hline (List.prefix_append ['/', '/'] rest)
      · rintro rest rfl rfl
        exact hblock (List.prefix_append ['/', '*'] rest)

/-- A block comment behind its opening mark, up to its closing mark if it has one. -/
def blockComment : List Char → List Char
  | '*' :: '/' :: _ => ['*', '/']
  | c :: rest => c :: blockComment rest
  | [] => []

/-- The gap goes on behind a block comment. -/
theorem exists_gapFrom_block_eq (text : List Char) :
    ∃ rest, text = blockComment text ++ rest ∧
      gapFrom .block text = blockComment text ++ gapFrom .between rest := by
  fun_induction blockComment text with
  | case1 rest => exact ⟨rest, rfl, rfl⟩
  | case2 c rest hclose ih =>
      obtain ⟨behind, htext, hgap⟩ := ih
      refine ⟨behind, congrArg (c :: ·) htext, ?_⟩
      rw [gapFrom, hgap, List.cons_append]
      rintro r rfl rfl
      exact hclose r rfl rfl
  | case3 => exact ⟨[], rfl, rfl⟩

/-- The loop over a block comment ends behind it. -/
theorem skipBlock_eq (h : p.Stands source rest) :
    skipBlock source p = some (.ok (), p.after (blockComment rest)) := by
  have hbyte : ∀ {p : Place} {rest : List Char}, p.Stands source rest →
      byteAhead source 0 p = some (.ok (byteAt? rest 0), p) := fun h =>
    congrArg (fun b => some (Except.ok b, _)) (h.byteAt? 0)
  fun_induction blockComment rest generalizing p with
  | case1 rest =>
      have hclose : ['*', '/'] <+: '*' :: '/' :: rest := List.prefix_append ['*', '/'] rest
      have hturn : blockTurn source () p = some (.ok (.done ()), (p.step '*').step '/') := by
        rw [blockTurn, bind_ok (hbyte h), byteAt?_cons_zero, Option.isNone_some,
          if_neg (by decide), bind_ok (seesBoth_eq (by decide) (by decide) h),
          if_pos (decide_eq_true hclose), bind_ok (advance_eq h), bind_ok (advance_eq h.step)]
        rfl
      exact loop_of_done hturn
  | case2 c rest hclose ih =>
      have hopen : ¬ ['*', '/'] <+: c :: rest := by
        rintro ⟨r, hr⟩
        obtain ⟨rfl, rfl⟩ := List.cons.inj hr
        exact hclose r rfl rfl
      have hturn : blockTurn source () p = some (.ok (.again ()), p.step c) := by
        rw [blockTurn, bind_ok (hbyte h), byteAt?_cons_zero, Option.isNone_some,
          if_neg (by decide), bind_ok (seesBoth_eq (by decide) (by decide) h),
          decide_eq_false hopen, if_neg (by decide), bind_ok (advance_eq h)]
        rfl
      exact (loop_of_again hturn (left_step_lt h)).trans (ih h.step)
  | case3 =>
      have hturn : blockTurn source () p = some (.ok (.done ()), p) := by
        rw [blockTurn, bind_ok (hbyte h)]
        rfl
      exact loop_of_done hturn

/-- Blank characters are ASCII characters. -/
theorem ascii_of_isBlank (c : Char) (h : isBlank c) : c.toNat < 128 := by
  simp only [isBlank, Bool.or_eq_true, beq_iff_eq] at h
  rcases h with (((rfl | rfl) | rfl) | rfl) | rfl <;> decide

/-- Behind a run of characters of a class stands none of that class. -/
theorem not_of_head?_dropWhile {good : Char → Bool} {text : List Char} {c : Char}
    (h : c ∈ (text.dropWhile good).head?) : ¬ good c := by
  have hhead := List.head?_dropWhile_not good text
  rw [Option.mem_def.mp h] at hhead
  rw [hhead]
  decide

/-- A turn over blanks ends behind the gap, or goes over the front of it. -/
theorem blanksTurn_cases (h : p.Stands source rest) :
    blanksTurn source () p = some (.ok (.done ()), p.after (gap rest)) ∨
    ∃ text behind, text ≠ [] ∧ rest = text ++ behind ∧ gap rest = text ++ gap behind ∧
      blanksTurn source () p = some (.ok (.again ()), p.after text) := by
  have hsplit : rest = rest.takeWhile isBlank ++ rest.dropWhile isBlank :=
    List.takeWhile_append_dropWhile.symm
  have hgap : gap rest = rest.takeWhile isBlank ++ gapFrom .between (rest.dropWhile isBlank) :=
    gapFrom_between_eq rest
  have hq : (p.after (rest.takeWhile isBlank)).Stands source (rest.dropWhile isBlank) :=
    (@Place.Stands.run p source rest [] h isBlank).after
  rw [blanksTurn, bind_ok (skipWhile_eq (decides_asciiByte _ ascii_of_isBlank) h),
    bind_ok (seesBoth_eq (by decide) (by decide) hq)]
  by_cases hline : ['/', '/'] <+: rest.dropWhile isBlank
  · right
    obtain ⟨body, hbody⟩ := hline
    have hslash : Decides (fun b => !isByte '\n' b) (!· == '\n') := (decides_isByte (by decide)).not
    rw [← hbody] at hq hgap hsplit ⊢
    refine ⟨rest.takeWhile isBlank ++ '/' :: '/' :: body.takeWhile (!· == '\n'),
      body.dropWhile (!· == '\n'), by simp, ?_, ?_, ?_⟩
    · rw [List.append_assoc, List.cons_append, List.cons_append, List.takeWhile_append_dropWhile]
      exact hsplit
    · rw [hgap, List.append_assoc]
      show _ ++ '/' :: '/' :: gapFrom .line body = _
      rw [gapFrom_line_eq]
      rfl
    · rw [if_pos (decide_eq_true (List.prefix_append ['/', '/'] body)),
        bind_ok (skipWhile_eq hslash hq), Place.after_append]
      rfl
  · rw [decide_eq_false hline, if_neg (by decide), bind_ok (seesBoth_eq (by decide) (by decide) hq)]
    by_cases hblock : ['/', '*'] <+: rest.dropWhile isBlank
    · right
      obtain ⟨body, hbody⟩ := hblock
      obtain ⟨behind, hbehind, hcomment⟩ := exists_gapFrom_block_eq body
      rw [← hbody] at hq hgap hsplit ⊢
      refine ⟨rest.takeWhile isBlank ++ '/' :: '*' :: blockComment body, behind, by simp, ?_, ?_, ?_⟩
      · rw [List.append_assoc, List.cons_append, List.cons_append, ← hbehind]
        exact hsplit
      · rw [hgap, List.append_assoc]
        show _ ++ '/' :: '*' :: gapFrom .block body = _
        rw [hcomment]
        rfl
      · rw [if_pos (decide_eq_true (List.prefix_append ['/', '*'] body)), bind_ok (advance_eq hq),
          bind_ok (advance_eq hq.step), bind_ok (skipBlock_eq hq.step.step), Place.after_append]
        rfl
    · left
      rw [decide_eq_false hblock, if_neg (by decide), hgap,
        gapFrom_between_eq_nil (fun c hc => not_of_head?_dropWhile hc) hline hblock,
        List.append_nil]
      rfl

/-- The loop over blanks and comments ends behind the gap. -/
theorem skipBlanks_eq (h : p.Stands source rest) :
    skipBlanks source p = some (.ok (), p.after (gap rest)) := by
  -- every turn that goes on leaves a shorter text
  induction hn : rest.length using Nat.strongRecOn generalizing p rest with
  | ind n ih =>
      rcases blanksTurn_cases h with hdone | ⟨text, behind, htext, rfl, hgap, hagain⟩
      · exact loop_of_done hdone
      · have hshort : behind.length < n := by
          have hpos := List.length_pos_iff.mpr htext
          rw [List.length_append] at hn
          omega
        have hbehind : p.Stands source ([] ++ text ++ behind) := h
        have hlater := ih _ hshort h.after rfl
        rw [← Place.after_append, ← hgap] at hlater
        exact (loop_of_again hagain (left_after_lt hbehind htext)).trans hlater

end

end ByteLexer

end GenericIR
