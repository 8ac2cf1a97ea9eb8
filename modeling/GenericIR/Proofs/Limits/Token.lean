/-
# Tokens within the limits

The lexer counts the angle brackets that are open in a type or a dense literal, and the parts of a
symbol or a block label.  No more angle brackets than the bound are open at any character.  The
first part of a name is there before the parts are counted, so there is at least that one, and
otherwise there are no more than the bound.

* `TextWithin` : what the limits allow the text of a token of some kind to be;
* `textWithin_of_scanToken` : every token is within the limits.
-/
import Mathlib.Data.List.TakeWhile
import GenericIR.Proofs.WellFormed.Source

namespace GenericIR

/-! ## Angle brackets -/

/-- Whether, from the first angle bracket of a text on, no more than a bound of them are open at any
character. -/
def AnglesWithin (bound : Nat) (text : List Char) : Prop :=
  ∀ front, front <+: text.dropWhile (· ≠ '<') → front.count '<' ≤ front.count '>' + bound

/-- Angle brackets that are closed are never open beyond the bound. -/
theorem count_of_angles_closed {bound depth : Nat} {text : List Char}
    (h : (angles bound depth text).2 = .closed) (hdepth : depth ≤ bound) :
    ∀ front, front <+: (angles bound depth text).1 →
      depth + front.count '<' ≤ front.count '>' + bound := by
  fun_induction angles bound depth text with
  | case1 => cases h
  | case2 depth rest hmax => cases h
  | case3 depth rest hmax tail ending heq ih =>
      rw [heq] at ih
      intro front hfront
      cases front with
      | nil => simpa using hdepth
      | cons c front =>
          obtain ⟨rfl, htail⟩ := List.cons_prefix_cons.mp hfront
          have hcount := ih h (by omega) front htail
          rw [List.count_cons_self, List.count_cons_of_ne (by decide)]
          omega
  | case4 depth c rest hopen hclose =>
      obtain ⟨rfl, hone⟩ := hclose
      intro front hfront
      cases front with
      | nil => simpa using hdepth
      | cons d front =>
          obtain ⟨rfl, htail⟩ := List.cons_prefix_cons.mp hfront
          rw [List.prefix_nil.mp htail]
          have hopens : List.count '<' ['>'] = 0 := by decide
          have hcloses : List.count '>' ['>'] = 1 := by decide
          omega
  | case5 depth c rest hopen hclose tail ending heq ih =>
      simp only [heq] at ih
      intro front hfront
      cases front with
      | nil => simpa using hdepth
      | cons d front =>
          obtain ⟨rfl, htail⟩ := List.cons_prefix_cons.mp hfront
          rw [List.count_cons_of_ne hopen]
          by_cases hgreater : d = '>'
          · subst hgreater
            have hcount := ih h (by simp only [if_pos]; omega) front htail
            simp only [if_pos] at hcount
            rw [List.count_cons_self]
            have htwo : ¬ depth ≤ 1 := fun hle => hclose ⟨rfl, hle⟩
            omega
          · have hcount := ih h (by rw [if_neg hgreater]; exact hdepth) front htail
            rw [if_neg hgreater] at hcount
            rw [List.count_cons_of_ne hgreater]
            exact hcount

/-- The text of angle brackets starts with the first of them. -/
theorem exists_cons_of_angles (bound depth : Nat) (rest : List Char) :
    ∃ tail, (angles bound depth ('<' :: rest)).1 = '<' :: tail := by
  rw [angles, if_pos rfl]
  split
  · exact ⟨[], rfl⟩
  · exact ⟨_, rfl⟩

/-! ## Parts of names -/

/-- How many double colons stand one after the other in a text. -/
def joints : List Char → Nat
  | ':' :: ':' :: rest => joints rest + 1
  | _ :: rest => joints rest
  | [] => 0

/-- How many parts a symbol or a block label has: one more than the double colons between them.
Only the last part may be in quotes, where a colon is one of its characters. -/
def partCount (text : List Char) : Nat := joints (text.takeWhile (· ≠ '"')) + 1

/-- Characters that are neither colons nor quotes in front of a text are of no part of their own. -/
theorem joints_append {front : List Char} (h : ∀ c ∈ front, c ≠ ':' ∧ c ≠ '"') (text : List Char) :
    joints ((front ++ text).takeWhile (· ≠ '"')) = joints (text.takeWhile (· ≠ '"')) := by
  induction front with
  | nil => rfl
  | cons c front ih =>
      obtain ⟨⟨hcolon, hquote⟩, hfront⟩ := List.forall_mem_cons.mp h
      rw [List.cons_append, List.takeWhile_cons, if_pos (decide_eq_true hquote), joints]
      · exact ih hfront
      · rintro _ rfl _
        exact hcolon rfl

/-- A double colon in front of a text ends a part. -/
theorem joints_colons (text : List Char) :
    joints ((':' :: ':' :: text).takeWhile (· ≠ '"')) =
      joints (text.takeWhile (· ≠ '"')) + 1 := rfl

/-- A character of an id is neither a colon nor a quote. -/
theorem ne_of_isIdChar {c : Char} (h : isIdChar c) : c ≠ ':' ∧ c ≠ '"' :=
  ⟨by rintro rfl; exact absurd h (by decide), by rintro rfl; exact absurd h (by decide)⟩

/-- The parts that are read number no more than the bound, but at least the first one. -/
theorem partCount_of_parts {sigil : Char} {bound count : Nat} {text name : List Char}
    (hsigil : sigil ≠ ':' ∧ sigil ≠ '"')
    (h : (parts sigil bound count text).outcome = .ok name) :
    count + joints ((parts sigil bound count text).lexeme.takeWhile (· ≠ '"')) ≤
      max count bound := by
  fun_induction parts sigil bound count text generalizing name with
  | case1 count text hquoted => exact Nat.le_max_left _ _
  | case2 => cases h
  | case3 count text hquoted front rest hrest hmax again mark =>
      rename_i ih
      obtain ⟨later, hlater, rfl⟩ := Scan.exists_of_map_ok _ _ _ h
      have hcount := ih hlater
      have hfront : ∀ c ∈ front, c ≠ ':' ∧ c ≠ '"' := fun c hc =>
        ne_of_isIdChar (List.mem_takeWhile_imp hc)
      have hagain : ∀ c ∈ again, c ≠ ':' ∧ c ≠ '"' := by
        intro c hc
        simp only [again] at hc
        split at hc
        · exact List.mem_singleton.mp hc ▸ hsigil
        · cases hc
      have hlexeme : ((Scan.map (mark ++ ·) (parts sigil bound (count + 1)
          (rest.drop again.length))).prepend mark).lexeme = front ++ (':' :: ':' :: (again ++
            (parts sigil bound (count + 1) (rest.drop again.length)).lexeme)) :=
        List.append_assoc _ _ _
      rw [hlexeme, joints_append hfront, joints_colons, joints_append hagain]
      omega
  | case4 count text hquoted front =>
      have hfront : ∀ c ∈ front, c ≠ ':' ∧ c ≠ '"' := fun c hc =>
        ne_of_isIdChar (List.mem_takeWhile_imp hc)
      have hnone := joints_append hfront []
      rw [List.append_nil] at hnone
      show count + joints (front.takeWhile (· ≠ '"')) ≤ max count bound
      rw [hnone]
      exact Nat.le_max_left _ _

/-! ## Tokens -/

/-- What the limits allow the text of a token of a kind to be. -/
structure TextWithin (limits : Limits) (kind : TokenKind) (text : List Char) : Prop where
  angles : kind = .type ∨ kind = .dense → AnglesWithin limits.maxNestingDepth text
  parts : kind = .symbolRefId ∨ kind = .caretId → partCount text ≤ max 1 limits.maxSymbolSegments

/-- The limits say nothing of the text of a token of another kind. -/
theorem TextWithin.of_not_mem {limits : Limits} {kind : TokenKind}
    (h : kind ∉ [.type, .dense, .symbolRefId, .caretId]) (text : List Char) :
    TextWithin limits kind text := by
  simp only [List.mem_cons, List.not_mem_nil, or_false, not_or] at h
  exact ⟨fun hk => absurd hk (not_or.mpr ⟨h.1, h.2.1⟩),
    fun hk => absurd hk (not_or.mpr h.2.2)⟩

/-- A word or an angle bracket form is within the limits. -/
theorem textWithin_of_word {limits : Limits} {text : List Char} {kind : TokenKind}
    {value : TokenValue} (h : (word limits text).outcome = .ok (kind, value)) :
    TextWithin limits kind (word limits text).lexeme := by
  revert h
  fun_cases word limits text with
  | case1 front rest hrest tail ending heq =>
      intro h
      obtain rfl := closed_of_angleForm h
      rw [lexeme_angleForm]
      have hcount := @count_of_angles_closed limits.maxNestingDepth 0 ('<' :: rest) (by rw [heq])
        (Nat.zero_le _)
      obtain ⟨more, htail⟩ := exists_cons_of_angles limits.maxNestingDepth 0 rest
      rw [heq] at hcount htail
      obtain rfl : tail = '<' :: more := htail
      have hangles : AnglesWithin limits.maxNestingDepth (front ++ '<' :: more) := by
        -- the word before the first bracket has none
        have hword : ∀ c ∈ front, decide (c ≠ '<') := fun c hc =>
          decide_eq_true (by rintro rfl; exact absurd (List.mem_takeWhile_imp hc) (by decide))
        have hdrop : (front ++ '<' :: more).dropWhile (· ≠ '<') = '<' :: more := by
          rw [List.dropWhile_append_of_pos hword]
          rfl
        intro u hu
        rw [hdrop] at hu
        have hbound := hcount u hu
        omega
      cases h
      refine ⟨fun _ => hangles, fun hk => ?_⟩
      split at hk <;> rcases hk with hk | hk <;> cases hk
  | case2 front _ =>
      intro h
      have hkind := kind_of_wordMeaning front
      rw [show wordMeaning front = (kind, value) by simpa using h] at hkind
      refine .of_not_mem (fun hmem => ?_) _
      simp only [List.mem_cons, List.not_mem_nil, or_false] at hkind hmem
      rcases hkind with rfl | rfl | rfl <;> simp at hmem

/-- A symbol or a block label is within the limits. -/
theorem textWithin_of_reference {limits : Limits} {sigil : Char} {k kind : TokenKind}
    {rest : List Char} {value : TokenValue} (hk : k = .symbolRefId ∨ k = .caretId)
    (hsigil : sigil ≠ ':' ∧ sigil ≠ '"')
    (h : (reference limits sigil k rest).outcome = .ok (kind, value)) :
    TextWithin limits kind (reference limits sigil k rest).lexeme := by
  obtain ⟨name, hname, hvalue⟩ := Scan.exists_of_map_ok _ _ _ h
  cases hvalue
  refine ⟨fun hangle => ?_, fun _ => ?_⟩
  · rcases hk with rfl | rfl <;> rcases hangle with hangle | hangle <;> cases hangle
  · have hcount := partCount_of_parts hsigil hname
    have hlexeme : (reference limits sigil k rest).lexeme =
        [sigil] ++ (parts sigil limits.maxSymbolSegments 1 rest).lexeme := rfl
    rw [hlexeme, partCount, joints_append fun c hc => List.mem_singleton.mp hc ▸ hsigil]
    omega

/-- A mark is within the limits. -/
theorem textWithin_of_mark {limits : Limits} {c : Char} {rest : List Char} {kind : TokenKind}
    {value : TokenValue} (h : (mark c rest).outcome = .ok (kind, value)) :
    TextWithin limits kind (mark c rest).lexeme := by
  obtain ⟨k, hk, htext⟩ := mark_ok_cases h
  cases htext
  have hnone : ∀ k ∈ markKinds, k ∉ [TokenKind.type, .dense, .symbolRefId, .caretId] := by decide
  exact .of_not_mem (hnone _ hk) _

/-- **Every token is within the limits.** -/
theorem textWithin_of_scanToken {limits : Limits} {c : Char} {rest : List Char} {kind : TokenKind}
    {value : TokenValue} (h : (scanToken limits c rest).outcome = .ok (kind, value)) :
    TextWithin limits kind (scanToken limits c rest).lexeme := by
  revert h
  fun_cases scanToken limits c rest with
  | case1 _ =>
      intro h
      have hkind := isScalarLiteral_of_numeral _ _ _ h
      refine .of_not_mem (fun hmem => ?_) _
      simp only [List.mem_cons, List.not_mem_nil, or_false] at hmem
      rcases hmem with rfl | rfl | rfl | rfl <;> cases hkind
  | case2 _ _ =>
      intro h
      obtain ⟨s, _, hs⟩ := Scan.exists_of_map_ok _ _ _ h
      cases hs
      exact .of_not_mem (by decide) _
  | case3 _ _ _ => exact textWithin_of_word
  | case4 _ _ _ _ => exact textWithin_of_reference (Or.inl rfl) (by decide)
  | case5 _ _ _ _ _ =>
      intro h
      cases h
      exact .of_not_mem (by decide) _
  | case6 _ _ _ _ _ _ =>
      fun_cases label limits rest with
      | case1 r => exact textWithin_of_reference (Or.inr rfl) (by decide)
      | case2 r _ =>
          intro h
          cases h
          exact ⟨fun hk => by simp at hk, fun _ => Nat.le_max_left _ _⟩
      | case3 => exact textWithin_of_reference (Or.inr rfl) (by decide)
  | case7 _ _ _ _ _ _ => exact textWithin_of_mark

/-- The text of a lexeme that is read is within the limits. -/
theorem Lexer.textWithin_of_next {l m : Lexer} {x : Lexeme} (hnext : next l = .ok x m) :
    TextWithin l.limits x.kind x.text.toList := by
  rcases next_ok_cases hnext with ⟨_, _, rfl⟩ | ⟨c, rest, kind, value, _, hout, _, rfl⟩
  · exact @TextWithin.of_not_mem l.limits .eof (by decide) _
  · rw [String.toList_ofList]
    exact textWithin_of_scanToken hout

/-- The texts of all lexemes that are read are within the limits. -/
theorem Lexer.Reads.textWithin {l : Lexer} {xs : List Lexeme} (h : Reads l xs) :
    ∀ x ∈ xs, TextWithin l.limits x.kind x.text.toList := by
  induction h with
  | last hnext _ => exact List.forall_mem_singleton.mpr (textWithin_of_next hnext)
  | more hnext _ _ ih =>
      rw [(took_of_next hnext).1.limits] at ih
      exact List.forall_mem_cons.mpr ⟨textWithin_of_next hnext, ih⟩

end GenericIR
