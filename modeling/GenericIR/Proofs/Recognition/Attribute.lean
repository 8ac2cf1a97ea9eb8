/-
# Types, attributes and captures

The productions that read types, attribute dictionaries and verbatim text agree with their
phrases.  In an attribute value and in a capture the depth of open brackets can only grow by
one with each lexeme, so the lexemes ahead bound the depths that are checked.

* `Parse.recognizes_type`, `Parse.recognizes_attributes`, `Parse.recognizes_balanced` : the
  productions, one by one.
-/
import GenericIR.Proofs.Recognition.Repeat

namespace GenericIR.Parse

section Productions

variable {fits : Nat → Prop}

/-! ## Types -/

/-- A type. -/
theorem recognizes_type : Recognizes fits type Grammar.IsType := by
  intro n p xs hp
  obtain ⟨x, xs, rfl⟩ := hp.exists_cons
  refine .look hp ?_
  by_cases hplain : x.kind = .type ∨ x.kind = .identifier
  · rw [if_pos hplain]
    refine .past hp (fun heof => ?_) fun q _ hat => .pure hat fun a ys => ⟨fun h => ?_, ?_⟩
    · rcases hplain with h | h <;> rw [h] at heof <;> cases heof
    · cases h with
      | plain _ => exact ⟨rfl, rfl⟩
      | dialect hbang _ _ _ => rcases hplain with h | h <;> rw [hbang] at h <;> cases h
    · rintro ⟨rfl, rfl⟩
      exact .plain hplain
  · rw [if_neg hplain]
    by_cases hbang : x.kind = .keyword ∧ x.token.hasText "!"
    · rw [if_pos hbang, dialectType]
      have hx : x.kind ≠ .eof := by rw [hbang.1]; decide
      refine .past hp hx fun q _ hat => ?_
      obtain ⟨y, ys, rfl⟩ := hat.exists_cons
      refine .look hat ?_
      by_cases hy : y.token.span.offset = x.token.span.stop ∧
          (y.kind = .type ∨ y.kind = .identifier)
      · rw [if_pos hy]
        have hgap := hp.faces.touches_iff.mp hy.1
        refine .past hat (fun heof => ?_) fun r _ hat' => .pure hat' fun a zs => ⟨fun h => ?_, ?_⟩
        · rcases hy.2 with h | h <;> rw [h] at heof <;> cases heof
        · cases h with
          | plain h => exact absurd h hplain
          | dialect _ _ _ _ => exact ⟨rfl, rfl⟩
        · rintro ⟨rfl, rfl⟩
          exact .dialect hbang.1 hbang.2 hy.2 hgap
      · rw [if_neg hy]
        refine .unexpected fun a zs h => ?_
        cases h with
        | plain h => exact hplain h
        | dialect _ _ hkind hgap => exact hy ⟨hp.faces.touches_iff.mpr hgap, hkind⟩
    · rw [if_neg hbang]
      refine .unexpected fun a zs h => ?_
      cases h with
      | plain h => exact hplain h
      | dialect hkind htext _ _ => exact hbang ⟨hkind, htext⟩

/-- Types in parentheses, or bare. -/
theorem recognizes_typeList : Recognizes fits typeList Grammar.IsTypeList := by
  intro n p xs hp
  obtain ⟨x, xs, rfl⟩ := hp.exists_cons
  refine .accept hp (by decide) (fun hx q _ hat => ?_) fun hx => ?_
  · refine .congr (recognizes_enclosed recognizes_type composed_type hx hat) fun types ys =>
      ⟨fun h => ?_, .enclosed⟩
    cases h with
    | enclosed h => exact h
    | bare hne _ => exact absurd hx hne
  · refine .congr (recognizes_openItems recognizes_type composed_type hp) fun types ys =>
      ⟨fun h => ?_, .bare hx⟩
    cases h with
    | enclosed h =>
        cases h with
        | intro hparen _ _ => exact absurd hparen hx
    | bare _ h => exact h

/-! ## Attributes -/

/-- The lexemes of an attribute value, from a depth that the lexemes ahead can nest to. -/
theorem recognizes_valueRun {n depth : Nat} {p : Parser} {xs : List Lexeme}
    (hp : p.At fits n xs) (hdepth : depth + xs.length ≤ n) :
    Outcome fits n (collect attributeValueTurn depth) p (Grammar.ValueRun fits depth xs) := by
  induction xs generalizing p depth with
  | nil => exact absurd rfl hp.faces.ne_nil
  | cons x xs ih =>
    rw [List.length_cons] at hdepth
    -- behind the lexeme the run goes on at the depth `next`
    have hmore : ∀ {next} (hx : x.kind ≠ .eof) (hnext : next + xs.length ≤ n),
        Outcome fits n (advance >>= fun x =>
          collect attributeValueTurn next >>= fun run => pure (x :: run)) p
          fun run ys => ∃ v, Grammar.ValueRun fits next xs v ys ∧ run = x :: v :=
      fun hx hnext => .past hp hx fun _ _ hat => .map (x :: ·) (ih hat hnext)
    rw [collect_attributeValueTurn_eq]
    refine .look hp ?_
    by_cases hstop : depth = 0 ∧ (x.kind = .comma ∨ x.kind = .rbrace)
    · rw [if_pos hstop]
      obtain ⟨rfl, hstop⟩ := hstop
      exact .pure hp fun _ _ => Grammar.valueRun_iff_of_stop hstop
    rw [if_neg hstop]
    by_cases heof : x.kind = .eof
    · rw [if_pos heof]
      exact .fails ⟨_, _, rfl⟩ fun _ _ => Grammar.not_valueRun_of_eof heof
    rw [if_neg heof]
    by_cases hopen : x.kind.isOpenBracket = true
    · rw [if_pos hopen]
      refine .check hp (by omega) (fun hfits v ys h => ?_) fun hfits =>
        .congr (hmore heof (by omega)) fun v ys => ?_
      · exact hfits ((Grammar.valueRun_iff_of_opening hopen).mp h).1
      · rw [Grammar.valueRun_iff_of_opening hopen, and_iff_right hfits]
    rw [if_neg hopen]
    by_cases hclose : x.kind.isCloseBracket = true
    · rw [if_pos hclose]
      cases depth with
      | zero =>
          rw [if_pos rfl]
          exact .fails ⟨_, _, rfl⟩ fun _ _ =>
            Grammar.not_valueRun_of_closing hclose fun hbrace => hstop ⟨rfl, Or.inr hbrace⟩
      | succ depth =>
          rw [if_neg (Nat.succ_ne_zero depth), Nat.add_sub_cancel]
          exact .congr (hmore heof (by omega)) fun _ _ => Grammar.valueRun_iff_of_closing hclose
    · rw [if_neg hclose]
      exact .congr (hmore heof (by omega)) fun _ _ =>
        Grammar.valueRun_iff_of_inner hopen hclose (fun hzero hx => hstop ⟨hzero, Or.inl hx⟩) heof

/-- An entry of a dictionary. -/
theorem recognizes_attributeEntry :
    Recognizes fits attributeEntry (Grammar.IsEntry fits) := by
  intro n p xs hp
  obtain ⟨x, xs, rfl⟩ := hp.exists_cons
  refine .sees hp (fun hx => ?_) fun hx => ?_
  · refine .past hp (by rw [hx]; decide) fun q _ hat => ?_
    obtain ⟨y, ys, rfl⟩ := hat.exists_cons
    refine .accept hat (by decide) (fun hy r _ hat' => ?_) fun hy => ?_
    · refine .congr (.map _ (.map AttributeValue.ofLexemes (recognizes_valueRun hat'
        (by simpa using hat'.short)))) fun entry zs => ⟨fun h => ?_, ?_⟩
      · cases h with
        | unit _ hne => exact absurd hy hne
        | valued _ _ hv => exact ⟨_, ⟨_, hv, rfl⟩, rfl⟩
      · rintro ⟨_, ⟨v, hv, rfl⟩, rfl⟩
        exact .valued hx hy hv
    · refine .pure hat fun entry zs => ⟨fun h => ?_, ?_⟩
      · cases h with
        | unit _ _ => exact ⟨rfl, rfl⟩
        | valued _ heq _ => exact absurd heq hy
      · rintro ⟨rfl, rfl⟩
        exact .unit hx hy
  · refine .unexpected fun entry zs h => ?_
    cases h with
    | unit hkind _ => exact hx hkind
    | valued hkind _ _ => exact hx hkind

/-- An entry with the commas behind it. -/
theorem recognizes_separatedEntry :
    Recognizes fits (attributeEntry >>= fun entry => skipCommas >>= fun _ => pure entry)
      (Grammar.IsSeparatedEntry fits) := by
  intro n p xs hp
  refine .congr (.bind (recognizes_attributeEntry hp) fun entry _ _ _ _ hat =>
    .bind (recognizes_skipCommas hat) fun _ _ _ _ _ h => .pure h fun _ _ => Iff.rfl)
    fun entry zs => ⟨fun h => ?_, ?_⟩
  · cases h with
    | intro h hcommas => exact ⟨_, _, h, (), _, hcommas, rfl, rfl⟩
  · rintro ⟨_, ys, h, _, _, hcommas, rfl, rfl⟩
    exact .intro h hcommas

/-- A dictionary, set into attributes. -/
theorem recognizes_attributes (into : Attributes) :
    Recognizes fits (attributes into) fun xs as ys =>
      ∃ entries, Grammar.IsDictionary fits xs entries ys ∧ as = into.insertAll entries := by
  intro n p xs hp
  obtain ⟨x, xs, rfl⟩ := hp.exists_cons
  refine .consume hp (by decide) (fun hx as ys => ?_) fun hx q _ hat => ?_
  · rintro ⟨_, ⟨hkind, _, _⟩, _⟩
    exact hx hkind
  · refine .congr (.bind (recognizes_itemsUntil _ recognizes_separatedEntry
      advances_separatedEntry hat)
      fun entries _ _ _ _ hat' => .closing hat' (by decide)) fun as zs => ⟨?_, ?_⟩
    · rintro ⟨entries, ⟨_, h, hy⟩, rfl⟩
      exact ⟨entries, _, h, _, rfl, hy, rfl⟩
    · rintro ⟨entries, _, h, y, rfl, hy, rfl⟩
      exact ⟨entries, .intro hx h hy, rfl⟩

/-- A dictionary that may be missing. -/
theorem recognizes_optionalAttributes (into : Attributes) :
    Recognizes fits (optionalAttributes into) fun xs as ys =>
      ∃ entries, Grammar.MayHaveDictionary fits xs entries ys ∧ as = into.insertAll entries := by
  intro n p xs hp
  obtain ⟨x, xs, rfl⟩ := hp.exists_cons
  have hentries : Outcome fits n (optionalAttributes into) p fun as ys => ∃ entries,
      Grammar.Optionally (·.kind = .lbrace) (Grammar.IsDictionary fits) (x :: xs) entries ys ∧
        as = into.insertAll (entries.getD []) := by
    refine .optionallyMap (fun entries => into.insertAll (entries.getD [])) hp (fun hx =>
      .sees hp (fun _ => recognizes_attributes into hp) fun hne => absurd hx hne) fun hx => ?_
    rw [optionalAttributes, sees_bind_apply, hp.kind_eq, decide_eq_false hx]
    rfl
  refine .congr hentries fun as ys => ⟨?_, ?_⟩
  · rintro ⟨_, ⟨h⟩, rfl⟩
    exact ⟨_, h, rfl⟩
  · rintro ⟨_, h, rfl⟩
    exact ⟨_, .intro h, rfl⟩

/-- A dictionary behind its word. -/
theorem recognizes_attributesClause (into : Attributes) :
    Recognizes fits (attributesClause into) fun xs as ys =>
      ∃ entries, Grammar.MayHaveClause fits xs entries ys ∧ as = into.insertAll entries := by
  intro n p xs hp
  obtain ⟨x, xs, rfl⟩ := hp.exists_cons
  refine .look hp ?_
  by_cases hx : x.kind = .identifier ∧ x.token.hasText "attributes"
  · rw [if_pos hx]
    refine .past hp (by rw [hx.1]; decide) fun q _ hat =>
      .congr (recognizes_attributes into hat) fun as ys => ⟨?_, ?_⟩
    · rintro ⟨entries, h, rfl⟩
      exact ⟨entries, h.of_starts hx, rfl⟩
    · rintro ⟨entries, h, rfl⟩
      exact ⟨entries, .present hx h, rfl⟩
  · rw [if_neg hx]
    refine .pure hp fun as ys => ⟨?_, ?_⟩
    · rintro ⟨entries, h, rfl⟩
      obtain ⟨rfl, rfl⟩ := h.of_not hx
      exact ⟨rfl, rfl⟩
    · rintro ⟨rfl, rfl⟩
      exact ⟨[], .missing hx, rfl⟩

/-! ## Captures -/

/-- The lexemes of a capture, from a depth that the lexemes ahead can nest to. -/
theorem recognizes_captureRun {opening closing : TokenKind} (context : String)
    (hopening : opening ≠ .eof) (hclosing : closing ≠ .eof) (hne : opening ≠ closing)
    {n depth : Nat} {p : Parser} {xs : List Lexeme} (hp : p.At fits n xs)
    (hpos : 1 ≤ depth) (hdepth : depth + xs.length ≤ n) :
    Outcome fits n (collect (captureTurn opening closing context) depth) p
      (Grammar.CaptureRun fits opening closing depth xs) := by
  induction xs generalizing p depth with
  | nil => exact absurd rfl hp.faces.ne_nil
  | cons x xs ih =>
    rw [List.length_cons] at hdepth
    -- behind the lexeme the run goes on at the depth `next`
    have hmore : ∀ {next q}, q.At fits n xs → 1 ≤ next → next + xs.length ≤ n →
        Outcome fits n (collect (captureTurn opening closing context) next >>= fun run =>
          pure (x :: run)) q
          fun run ys => ∃ v, Grammar.CaptureRun fits opening closing next xs v ys ∧
            run = x :: v :=
      fun hat hnext hroom => .map (x :: ·) (ih hat hnext hroom)
    rw [collect_captureTurn_eq]
    refine .sees hp (fun heof => ?_) fun heof => ?_
    · exact .fails ⟨_, _, rfl⟩ fun _ _ => Grammar.not_captureRun_of_eof hopening hclosing heof
    refine .past hp heof fun q _ hat => ?_
    by_cases hopen : x.kind = opening
    · rw [if_pos hopen]
      refine .check hat (by omega) (fun hfits run ys h => ?_) fun hfits =>
        .congr (hmore hat (by omega) (by omega)) fun run ys => ?_
      · exact hfits ((Grammar.captureRun_iff_of_opening hne hopen).mp h).1
      · rw [Grammar.captureRun_iff_of_opening hne hopen, and_iff_right hfits]
    rw [if_neg hopen]
    by_cases hclose : x.kind = closing
    · rw [if_pos hclose]
      match depth, hpos with
      | 1, _ =>
          rw [if_pos (Nat.le_refl 1)]
          exact .pure hat fun _ _ => Grammar.captureRun_iff_of_last hne hclose
      | depth + 2, _ =>
          rw [if_neg (by omega)]
          exact .congr (hmore hat (by omega) (by omega)) fun _ _ =>
            Grammar.captureRun_iff_of_closing hne hclose
    · rw [if_neg hclose]
      exact .congr (hmore hat (by omega) (by omega)) fun _ _ =>
        Grammar.captureRun_iff_of_inner hopen hclose heof

/-- The lexemes from an opening bracket to the one that closes it. -/
theorem recognizes_balanced {opening closing : TokenKind} (context : String)
    (hopening : opening ≠ .eof) (hclosing : closing ≠ .eof) (hne : opening ≠ closing) :
    Recognizes fits (balanced opening closing context)
      (Grammar.IsCapture fits opening closing) := by
  intro n p xs hp
  obtain ⟨x, xs, rfl⟩ := hp.exists_cons
  refine .consume hp hopening (fun hx run ys h => ?_) fun hx q _ hat => ?_
  · cases h with
    | intro hkind _ => exact hx hkind
  · have hroom : 1 + xs.length ≤ n := by
      have hshort := hp.short
      rw [List.length_cons] at hshort
      omega
    refine .congr (.map (x :: ·) (recognizes_captureRun context hopening hclosing hne hat
      (Nat.le_refl 1) hroom)) fun run ys => ⟨fun h => ?_, ?_⟩
    · cases h with
      | intro _ h => exact ⟨_, h, rfl⟩
    · rintro ⟨run, h, rfl⟩
      exact .intro hx h

/-- The text of a capture. -/
theorem recognizes_capture {opening closing : TokenKind} (context : String)
    (hopening : opening ≠ .eof) (hclosing : closing ≠ .eof) (hne : opening ≠ closing) :
    Recognizes fits (capture opening closing context)
      (Grammar.IsCaptured fits opening closing) := by
  intro n p xs hp
  refine .nothingSkipped hp ?_
  simp only [verbatimPast_nil]
  refine .congr (.map verbatim (recognizes_balanced context hopening hclosing hne hp))
    fun text ys => ⟨fun h => ?_, ?_⟩
  · cases h with
    | intro h => exact ⟨_, h, rfl⟩
  · rintro ⟨run, h, rfl⟩
    exact .intro h

/-- A location, if there is one. -/
theorem recognizes_location :
    Recognizes fits location (Grammar.Optionally Grammar.IsLocWord (Grammar.IsLocation fits)) := by
  intro n p xs hp
  obtain ⟨x, xs, rfl⟩ := hp.exists_cons
  refine .optionally hp (fun hx => .look hp ?_) fun hx => ?_
  · unfold Grammar.IsLocWord at hx
    rw [if_pos hx]
    refine .nothingSkipped hp ?_
    simp only [verbatimPast_nil]
    refine .past hp (by rw [hx.1]; decide) fun q _ hat => ?_
    obtain ⟨y, ys, rfl⟩ := hat.exists_cons
    refine .sees hat (fun _ => ?_) fun hy => ?_
    · refine .congr (.map _ (recognizes_balanced "location" (by decide) (by decide) (by decide)
        hat)) fun text zs => ⟨?_, ?_⟩
      · rintro ⟨_, ⟨_, h⟩, rfl⟩
        exact ⟨_, h, rfl⟩
      · rintro ⟨run, h, rfl⟩
        exact ⟨_, .intro hx h, rfl⟩
    · refine .unexpected fun text zs => ?_
      rintro ⟨_, ⟨_, hparen, _⟩, _⟩
      exact hy hparen
  · unfold Grammar.IsLocWord at hx
    rw [location, current_bind_apply, hp.faces.lookahead, if_neg hx]
    rfl

end Productions

end GenericIR.Parse
