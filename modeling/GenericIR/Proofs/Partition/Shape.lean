/-
# What gaps and tokens look like

A gap is a run of blanks and closed comments, unless it goes up to the end of the text: then it
may end in a comment that nothing closes.  A token carries the text it was read from, except
where reading it decodes that text.

* `gap_shape` : the shape of a gap;
* `carries_of_scanToken` : what a token carries of its text.
-/
import GenericIR.Proofs.Reading
import GenericIR.Proofs.Spelling

namespace GenericIR

/-! ## Gaps -/

/-- A comment that a text ends in: one with no line feed behind it, or one that is not closed. -/
inductive OpenComment : List Char → Prop where
  | line {body : List Char} (hbody : '\n' ∉ body) : OpenComment ('/' :: '/' :: body)
  | block {body : List Char} (hbody : ¬ ['*', '/'] <:+: body) : OpenComment ('/' :: '*' :: body)

/-- A layout with another one behind it. -/
theorem Layout.append {g g' : List Char} (h : Layout g) (h' : Layout g') : Layout (g ++ g') := by
  induction h with
  | nil => exact h'
  | blank hc _ ih => exact .blank hc ih
  | @line body g hbody _ ih =>
      have hline := Layout.line hbody ih
      simpa only [List.cons_append, List.append_assoc] using hline
  | @block body g hbody _ ih =>
      have hblock := Layout.block hbody ih
      simpa only [List.cons_append, List.append_assoc] using hblock

/-- A line comment with no line feed goes up to the end. -/
theorem gapFrom_line_of_not_mem {body : List Char} (hbody : '\n' ∉ body) :
    gapFrom .line body = body := by
  induction body with
  | nil => rfl
  | cons c body ih =>
      have hc : c ≠ '\n' := fun h => hbody (h ▸ List.mem_cons_self)
      rw [gapFrom, if_neg hc, ih fun h => hbody (List.mem_cons_of_mem c h)]

/-- A block comment that is not closed goes up to the end. -/
theorem gapFrom_block_of_unclosed {body : List Char} (hbody : ¬ ['*', '/'] <:+: body) :
    gapFrom .block body = body := by
  induction body with
  | nil => rfl
  | cons c body ih =>
      rw [gapFrom, ih fun h => hbody (h.trans (List.suffix_cons c body).isInfix)]
      rintro rest rfl rfl
      exact hbody (List.prefix_append ['*', '/'] rest).isInfix

/-- A comment that is closed somewhere is closed somewhere first. -/
theorem exists_first_close {text : List Char} (h : ['*', '/'] <:+: text) :
    ∃ body behind, ¬ ['*', '/'] <:+: body ∧ text = body ++ '*' :: '/' :: behind := by
  induction text with
  | nil => exact absurd h (by simp)
  | cons c text ih =>
      by_cases hhere : ['*', '/'] <+: c :: text
      · obtain ⟨behind, hbehind⟩ := hhere
        exact ⟨[], behind, by simp, hbehind.symm⟩
      · obtain ⟨body, behind, hbody, rfl⟩ := ih ((List.infix_cons_iff.mp h).resolve_left hhere)
        refine ⟨c :: body, behind, fun hinfix => ?_, rfl⟩
        rcases List.infix_cons_iff.mp hinfix with hfront | hlater
        · exact hhere (hfront.trans (List.prefix_append (c :: body) _))
        · exact hbody hlater

/-- A line feed that is somewhere in a text is somewhere first. -/
theorem exists_first_line_feed {text : List Char} (h : '\n' ∈ text) :
    ∃ body behind, '\n' ∉ body ∧ text = body ++ '\n' :: behind := by
  obtain ⟨body, behind, hbehind, hbody⟩ := List.eq_append_cons_of_mem h
  exact ⟨body, behind, hbody, hbehind⟩

/-- A text starts with no gap, is an open comment, or starts with a piece of layout. -/
theorem gap_cases (text : List Char) :
    gap text = [] ∨ (gap text = text ∧ OpenComment text) ∨
      ∃ piece behind, piece ≠ [] ∧ Layout piece ∧ text = piece ++ behind ∧
        gap text = piece ++ gap behind := by
  -- a piece of layout at the front is taken whole
  have hpiece : ∀ {piece behind : List Char}, piece ≠ [] → Layout piece →
      gap (piece ++ behind) = [] ∨
        (gap (piece ++ behind) = piece ++ behind ∧ OpenComment (piece ++ behind)) ∨
        ∃ front back, front ≠ [] ∧ Layout front ∧ piece ++ behind = front ++ back ∧
          gap (piece ++ behind) = front ++ gap back := fun hne hlayout =>
    Or.inr (Or.inr ⟨_, _, hne, hlayout, rfl, gapFrom_append hlayout _⟩)
  by_cases hline : ['/', '/'] <+: text
  · obtain ⟨body, rfl⟩ := hline
    by_cases hfeed : '\n' ∈ body
    · obtain ⟨comment, behind, hcomment, rfl⟩ := exists_first_line_feed hfeed
      have hlayout : Layout ('/' :: '/' :: (comment ++ '\n' :: [])) := .line hcomment .nil
      have hsplit : ['/', '/'] ++ (comment ++ '\n' :: behind) =
          '/' :: '/' :: (comment ++ '\n' :: []) ++ behind := by simp
      rw [hsplit]
      exact hpiece (List.cons_ne_nil _ _) hlayout
    · refine Or.inr (Or.inl ⟨?_, .line hfeed⟩)
      show '/' :: '/' :: gapFrom .line body = _
      rw [gapFrom_line_of_not_mem hfeed]
      rfl
  by_cases hblock : ['/', '*'] <+: text
  · obtain ⟨body, rfl⟩ := hblock
    by_cases hclose : ['*', '/'] <:+: body
    · obtain ⟨comment, behind, hcomment, rfl⟩ := exists_first_close hclose
      have hlayout : Layout ('/' :: '*' :: (comment ++ '*' :: '/' :: [])) := .block hcomment .nil
      have hsplit : ['/', '*'] ++ (comment ++ '*' :: '/' :: behind) =
          '/' :: '*' :: (comment ++ '*' :: '/' :: []) ++ behind := by simp
      rw [hsplit]
      exact hpiece (List.cons_ne_nil _ _) hlayout
    · refine Or.inr (Or.inl ⟨?_, .block hclose⟩)
      show '/' :: '*' :: gapFrom .block body = _
      rw [gapFrom_block_of_unclosed hclose]
      rfl
  cases text with
  | nil => exact Or.inl rfl
  | cons c rest =>
      by_cases hc : isBlank c
      · exact hpiece (List.cons_ne_nil c []) (.blank hc .nil)
      · left
        rw [gap, gapFrom, if_neg hc]
        · rintro r rfl rfl
          exact hline (List.prefix_append ['/', '/'] r)
        · rintro r rfl rfl
          exact hblock (List.prefix_append ['/', '*'] r)

/-- A layout with an open comment behind it. -/
def EndsOpen (g : List Char) : Prop := ∃ front comment, g = front ++ comment ∧ Layout front ∧ OpenComment comment

/-- A gap is a layout, or is the whole text and ends in an open comment. -/
theorem gap_shape (text : List Char) : Layout (gap text) ∨ gap text = text ∧ EndsOpen text := by
  induction hn : text.length using Nat.strongRecOn generalizing text with
  | ind n ih =>
      rcases gap_cases text with hnone | ⟨hall, hopen⟩ | ⟨piece, behind, hne, hlayout, rfl, hgap⟩
      · exact Or.inl (hnone ▸ .nil)
      · exact Or.inr ⟨hall, [], text, rfl, .nil, hopen⟩
      · have hshort : behind.length < n := by
          have hpos := List.length_pos_iff.mpr hne
          rw [List.length_append] at hn
          omega
        rw [hgap]
        rcases ih _ hshort behind rfl with hbehind | ⟨hall, front, comment, hsplit, hfront, hopen⟩
        · exact Or.inl (hlayout.append hbehind)
        · refine Or.inr ⟨by rw [hall], piece ++ front, comment, ?_, hlayout.append hfront, hopen⟩
          rw [hsplit, List.append_assoc]

/-- A text with no gap at its front starts neither with a blank nor with a comment. -/
theorem not_gap_of_gap_eq_nil {text : List Char} (h : gap text = []) :
    (∀ c ∈ text.head?, ¬ isBlank c) ∧ ¬ ['/', '/'] <+: text ∧ ¬ ['/', '*'] <+: text := by
  refine ⟨?_, ?_, ?_⟩
  · rintro c hc hblank
    obtain ⟨rest, rfl⟩ := List.head?_eq_some_iff.mp hc
    rw [gap, gapFrom_blank hblank] at h
    cases h
  · rintro ⟨rest, rfl⟩
    cases h
  · rintro ⟨rest, rfl⟩
    cases h

/-! ## Tokens -/

/-- A text as it is written in quotes, with the text it is decoded to. -/
inductive Quoted : List Char → List Char → Prop where
  | nil : Quoted [] []
  | plain {c : Char} {body s : List Char} (hquote : c ≠ '"') (hback : c ≠ '\\')
      (h : Quoted body s) : Quoted (c :: body) (c :: s)
  | escaped {c : Char} {body s : List Char} (h : Quoted body s) :
      Quoted ('\\' :: c :: body) (unescape c :: s)

/-- What a token of a kind carries of the text it was read from.  A string literal carries what
its quotes decode to; a scalar literal is decoded, and so is a symbol with a part in quotes; any
other token carries its text. -/
structure Carries (kind : TokenKind) (value : TokenValue) (text : List Char) : Prop where
  own : kind ≠ .stringLiteral → kind.isScalarLiteral = false →
    (kind = .symbolRefId → '"' ∉ text) → kind ≠ .eof → value = .text (String.ofList text)
  quoted : kind = .stringLiteral → ∃ body s, text = '"' :: (body ++ ['"']) ∧ Quoted body s ∧
    value = .text (String.ofList s)

/-- A token that carries its text, and is no string literal, carries what it has to. -/
theorem Carries.of_text {kind : TokenKind} {text : List Char} (hkind : kind ≠ .stringLiteral) :
    Carries kind (.text (String.ofList text)) text :=
  ⟨fun _ _ _ _ => rfl, fun h => absurd h hkind⟩

/-- A scalar literal carries its value. -/
theorem Carries.of_isScalarLiteral {kind : TokenKind} (hkind : kind.isScalarLiteral)
    (value : TokenValue) (text : List Char) : Carries kind value text := by
  refine ⟨fun _ h => ?_, fun h => ?_⟩
  · rw [hkind] at h
    cases h
  · rw [h] at hkind
    cases hkind

/-- A text in quotes is closed by the first quote that is not escaped. -/
theorem quoted_of_quotedBody {text s : List Char} (h : (quotedBody text).outcome = .ok s) :
    ∃ body, (quotedBody text).lexeme = body ++ ['"'] ∧ Quoted body s := by
  fun_induction quotedBody text generalizing s with
  | case1 => cases h
  | case2 rest =>
      cases h
      exact ⟨[], rfl, .nil⟩
  | case3 c rest ih =>
      obtain ⟨t, ht, rfl⟩ := Scan.exists_of_map_ok _ _ _ h
      obtain ⟨body, hlexeme, hbody⟩ := ih ht
      exact ⟨'\\' :: c :: body, congrArg (['\\', c] ++ ·) hlexeme, .escaped hbody⟩
  | case4 c rest hquote hescape ih =>
      obtain ⟨t, ht, rfl⟩ := Scan.exists_of_map_ok _ _ _ h
      obtain ⟨body, hlexeme, hbody⟩ := ih ht
      have hback : c ≠ '\\' := by
        rintro rfl
        -- the text behind a lone backslash is empty, and never closed
        cases rest with
        | nil => cases ht
        | cons d rest => exact hescape d rest rfl rfl
      exact ⟨c :: body, congrArg ([c] ++ ·) hlexeme, .plain hquote hback hbody⟩

/-- The parts of a name are read as they are written, unless one of them is in quotes. -/
theorem eq_lexeme_of_parts {sigil : Char} {max count : Nat} {text name : List Char}
    (h : (parts sigil max count text).outcome = .ok name)
    (hquote : sigil = '@' → '"' ∉ (parts sigil max count text).lexeme) :
    name = (parts sigil max count text).lexeme := by
  fun_induction parts sigil max count text generalizing name with
  | case1 count text hquoted => exact absurd List.mem_cons_self (hquote hquoted.1)
  | case2 count text hquoted front rest hrest => cases h
  | case3 count text hquoted front rest hrest hmax again mark =>
      rename_i ih
      obtain ⟨later, hlater, rfl⟩ := Scan.exists_of_map_ok _ _ _ h
      have hnone : sigil = '@' →
          '"' ∉ (parts sigil max (count + 1) (rest.drop again.length)).lexeme := fun hsigil hmem =>
        hquote hsigil (List.mem_append_right mark hmem)
      rw [ih hlater hnone]
      rfl
  | case4 count text hquoted front =>
      cases h
      rfl

/-- A symbol or a label with parts carries its text, unless a part is in quotes. -/
theorem carries_of_reference {limits : Limits} {sigil : Char} {kind k : TokenKind}
    {rest : List Char} {value : TokenValue} (hkind : k ≠ .stringLiteral)
    (hsigil : sigil = '@' → k = .symbolRefId)
    (h : (reference limits sigil k rest).outcome = .ok (kind, value)) :
    Carries kind value (reference limits sigil k rest).lexeme := by
  obtain ⟨name, hname, hvalue⟩ := Scan.exists_of_map_ok _ _ _ h
  cases hvalue
  refine ⟨fun _ _ hquote _ => ?_, fun h => absurd h hkind⟩
  have hown := eq_lexeme_of_parts hname fun hs hmem =>
    hquote (hsigil hs) (List.mem_cons_of_mem sigil hmem)
  rw [hown]
  rfl

/-- A word or an angle bracket form carries its text, unless it is a boolean. -/
theorem carries_of_word {limits : Limits} {text : List Char} {kind : TokenKind}
    {value : TokenValue} (h : (word limits text).outcome = .ok (kind, value)) :
    Carries kind value (word limits text).lexeme := by
  rcases word_ok_cases h with ⟨b, hb⟩ | ⟨k, hk, htext⟩
  · cases hb
    exact .of_isScalarLiteral rfl _ _
  · cases htext
    exact .of_text (by rintro rfl; exact absurd hk (by decide))

/-- A mark carries its text. -/
theorem carries_of_mark {c : Char} {rest : List Char} {kind : TokenKind} {value : TokenValue}
    (h : (mark c rest).outcome = .ok (kind, value)) : Carries kind value (mark c rest).lexeme := by
  obtain ⟨k, hk, htext⟩ := mark_ok_cases h
  cases htext
  exact .of_text (by rintro rfl; exact absurd hk (by decide))

/-- What a token carries of the text it was read from. -/
theorem carries_of_scanToken {limits : Limits} {c : Char} {rest : List Char} {kind : TokenKind}
    {value : TokenValue} (h : (scanToken limits c rest).outcome = .ok (kind, value)) :
    Carries kind value (scanToken limits c rest).lexeme := by
  revert h
  fun_cases scanToken limits c rest with
  | case1 _ => exact fun h => .of_isScalarLiteral (isScalarLiteral_of_numeral _ _ _ h) _ _
  | case2 _ _ =>
      intro h
      obtain ⟨s, hs, hvalue⟩ := Scan.exists_of_map_ok _ _ _ h
      obtain ⟨body, hlexeme, hbody⟩ := quoted_of_quotedBody hs
      cases hvalue
      exact ⟨fun hne => absurd rfl hne,
        fun _ => ⟨body, s, congrArg (['"'] ++ ·) hlexeme, hbody, rfl⟩⟩
  | case3 _ _ _ => exact carries_of_word
  | case4 _ _ _ _ => exact carries_of_reference (by decide) fun _ => rfl
  | case5 _ _ _ _ _ =>
      intro h
      cases h
      exact .of_text (by decide)
  | case6 _ _ _ _ _ _ =>
      fun_cases label limits rest with
      | case1 r => exact carries_of_reference (by decide) fun h => absurd h (by decide)
      | case2 r _ =>
          intro h
          cases h
          exact .of_text (by decide)
      | case3 => exact carries_of_reference (by decide) fun h => absurd h (by decide)
  | case7 _ _ _ _ _ _ => exact carries_of_mark

end GenericIR
