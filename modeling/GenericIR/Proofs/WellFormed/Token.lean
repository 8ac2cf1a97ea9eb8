/-
# The forms of tokens

What the kind of a token tells of the text it was read from: the sigil it starts with, the
bracket it is, the word it is, and which character it ends in.

* `tokenForm_of_scanToken` : the form of a token by its kind;
* `single_or_endsInToken` : a token is one character, or ends in one that tokens go on with;
* `endsSolid_scanToken` : no token ends in a blank.
-/
import Mathlib.Data.List.TakeWhile
import GenericIR.Proofs.Layout.Relaid
import GenericIR.Proofs.Partition.Shape

namespace GenericIR

/-! ## Forms -/

/-- Words that name something: they start with a letter or an underscore, go on with characters of
words, and are neither a boolean nor a keyword. -/
structure IsIdentifier (word : String) : Prop where
  start : ∃ c rest, word.toList = c :: rest ∧ isWordStart c
  chars : ∀ c ∈ word.toList, isWordChar c
  notBoolean : word ≠ "true" ∧ word ≠ "false"
  notKeyword : word ≠ "module" ∧ word ≠ "loc" ∧ ¬ "func".toList <:+ word.toList

/-- An identifier is not empty. -/
theorem IsIdentifier.ne_empty {word : String} (h : IsIdentifier word) : word ≠ "" := by
  rintro rfl
  obtain ⟨c, rest, hword, _⟩ := h.start
  cases hword

/-- What the kind of a token tells of its value and of the text it was read from. -/
structure TokenForm (kind : TokenKind) (value : TokenValue) (text : List Char) : Prop where
  identifier : kind = .identifier → IsIdentifier (String.ofList text)
  valueId : kind = .valueId → ∃ c rest, text = c :: rest ∧ (c = '%' ∨ c = '$')
  symbol : kind = .symbolRefId → ∃ name, value = .text (String.ofList ('@' :: name))
  type : kind = .type → text ≠ []
  dense : kind = .dense → "dense".toList <+: text ∧ ['>'] <:+ text
  bracket : ∀ c ∈ ['(', ')', '\x7b', '\x7d'], kind = markKind c → text = [c]

/-- A kind that is none of a bracket's. -/
theorem not_markKind_of_not_mem {kind : TokenKind} {R : Char → Prop}
    (h : kind ∉ [.lparen, .rparen, .lbrace, .rbrace]) :
    ∀ c ∈ ['(', ')', '\x7b', '\x7d'], kind = markKind c → R c := by
  intro c hc hkind
  refine absurd ?_ h
  rw [hkind]
  simp only [List.mem_cons, List.not_mem_nil, or_false] at hc
  rcases hc with rfl | rfl | rfl | rfl <;> decide

/-- A kind that tells nothing of the text. -/
theorem tokenForm_of_not_mem {kind : TokenKind} (value : TokenValue) (text : List Char)
    (h : kind ∉ [.identifier, .valueId, .symbolRefId, .type, .dense, .lparen, .rparen, .lbrace,
      .rbrace]) : TokenForm kind value text := by
  have hbracket : kind ∉ [TokenKind.lparen, .rparen, .lbrace, .rbrace] := fun hmem =>
    h (List.mem_append_right [TokenKind.identifier, .valueId, .symbolRefId, .type, .dense] hmem)
  simp only [List.mem_cons, List.not_mem_nil, or_false, not_or] at h
  exact ⟨fun hk => absurd hk h.1, fun hk => absurd hk h.2.1, fun hk => absurd hk h.2.2.1,
    fun hk => absurd hk h.2.2.2.1, fun hk => absurd hk h.2.2.2.2.1,
    not_markKind_of_not_mem hbracket⟩

/-! ## Words -/

/-- A word that starts with a letter or an underscore and is no keyword and no boolean is an
identifier. -/
theorem isIdentifier_of_wordMeaning {front : List Char} {value : TokenValue}
    (hstart : ∃ c rest, front = c :: rest ∧ isWordStart c) (hchars : ∀ c ∈ front, isWordChar c)
    (h : wordMeaning front = (.identifier, value)) : IsIdentifier (String.ofList front) := by
  simp only [wordMeaning] at h
  split at h
  · cases h
  · next hkeyword =>
      split at h
      · cases h
      · next htrue =>
          split at h
          · cases h
          · next hfalse =>
              simp only [not_or] at hkeyword
              exact ⟨by simpa using hstart, by simpa using hchars, ⟨htrue, hfalse⟩,
                ⟨hkeyword.1, hkeyword.2.1, by simpa using hkeyword.2.2⟩⟩

/-- The meaning of a word is that of a keyword, a boolean or an identifier. -/
theorem kind_of_wordMeaning (front : List Char) :
    (wordMeaning front).1 ∈ [TokenKind.keyword, .booleanLiteral, .identifier] := by
  rcases wordMeaning_eq_or front with ⟨b, hb⟩ | ⟨k, rfl | rfl, htext⟩
  · simp [hb]
  · simp [htext]
  · simp [htext]

/-- Angle brackets that are closed end with a closing bracket. -/
theorem getLast_of_angles_closed {max depth : Nat} {text : List Char}
    (h : (angles max depth text).2 = .closed) : ['>'] <:+ (angles max depth text).1 := by
  fun_induction angles max depth text with
  | case1 => cases h
  | case2 depth rest hmax => cases h
  | case3 depth rest hmax tail ending heq ih =>
      rw [heq] at ih
      exact (ih h).trans (List.suffix_cons _ _)
  | case4 depth c rest hopen hclose => exact hclose.1 ▸ List.suffix_rfl
  | case5 depth c rest hopen hclose tail ending heq ih =>
      simp only [heq] at ih
      exact (ih h).trans (List.suffix_cons _ _)

/-- The form of a word or of an angle bracket form. -/
theorem tokenForm_of_word {limits : Limits} {c : Char} {rest : List Char} {kind : TokenKind}
    {value : TokenValue} (hc : isWordStart c)
    (h : (word limits (c :: rest)).outcome = .ok (kind, value)) :
    TokenForm kind value (word limits (c :: rest)).lexeme := by
  have hchar : isWordChar c := by simp [isWordChar, hc]
  revert h
  fun_cases word limits (c :: rest) with
  | case1 front behind hrest tail ending heq =>
      intro h
      obtain rfl := closed_of_angleForm h
      have hlast : ['>'] <:+ tail := by
        have hclosed :=
          @getLast_of_angles_closed limits.maxNestingDepth 0 ('<' :: behind) (by rw [heq])
        rwa [heq] at hclosed
      have htext : front ++ tail ≠ [] := by simp [front, hchar]
      cases h
      rw [lexeme_angleForm]
      by_cases hdense : "dense".toList <+: front ++ tail
      · rw [if_pos hdense]
        exact ⟨by simp, by simp, by simp, by simp,
          fun _ => ⟨hdense, hlast.trans (List.suffix_append _ _)⟩,
          not_markKind_of_not_mem (by decide)⟩
      · rw [if_neg hdense]
        exact ⟨by simp, by simp, by simp, fun _ => htext, by simp,
          not_markKind_of_not_mem (by decide)⟩
  | case2 front _ =>
      intro h
      have hmeaning : wordMeaning front = (kind, value) := by simpa using h
      have hkind := kind_of_wordMeaning front
      rw [hmeaning] at hkind
      simp only [List.mem_cons, List.not_mem_nil, or_false] at hkind
      rcases hkind with rfl | rfl | rfl
      · exact tokenForm_of_not_mem _ _ (by decide)
      · exact tokenForm_of_not_mem _ _ (by decide)
      · have hstart : ∃ d more, front = d :: more ∧ isWordStart d :=
          ⟨c, rest.takeWhile isWordChar, by simp [front, hchar], hc⟩
        have hchars : ∀ d ∈ front, isWordChar d := fun d hd => List.mem_takeWhile_imp hd
        exact ⟨fun _ => isIdentifier_of_wordMeaning hstart hchars hmeaning, by simp, by simp,
          by simp, by simp, not_markKind_of_not_mem (by decide)⟩

/-! ## Other tokens -/

/-- The form of a symbol or a block label. -/
theorem tokenForm_of_reference {limits : Limits} {sigil : Char} {k kind : TokenKind}
    {rest : List Char} {value : TokenValue} (hk : k = .caretId ∨ k = .symbolRefId ∧ sigil = '@')
    (h : (reference limits sigil k rest).outcome = .ok (kind, value)) :
    TokenForm kind value (reference limits sigil k rest).lexeme := by
  obtain ⟨name, _, hvalue⟩ := Scan.exists_of_map_ok _ _ _ h
  cases hvalue
  rcases hk with rfl | ⟨rfl, rfl⟩
  · exact tokenForm_of_not_mem _ _ (by decide)
  · exact ⟨by simp, by simp, fun _ => ⟨name, rfl⟩, by simp, by simp,
      not_markKind_of_not_mem (by decide)⟩

/-- A character is a bracket where it has the kind of one. -/
theorem eq_of_markKind {c d : Char} (hd : d ∈ ['(', ')', '\x7b', '\x7d'])
    (h : markKind c = markKind d) : c = d := by
  simp only [List.mem_cons, List.not_mem_nil, or_false] at hd
  unfold markKind at h
  rcases hd with rfl | rfl | rfl | rfl <;> split at h <;> first | rfl | cases h

/-- The form of a mark. -/
theorem tokenForm_of_mark {c : Char} {rest : List Char} {kind : TokenKind} {value : TokenValue}
    (h : (mark c rest).outcome = .ok (kind, value)) :
    TokenForm kind value (mark c rest).lexeme := by
  revert h
  fun_cases mark c rest with
  | case1 r => intro h; cases h; exact tokenForm_of_not_mem _ _ (by decide)
  | case2 r => intro h; cases h; exact tokenForm_of_not_mem _ _ (by decide)
  | case3 r => intro h; cases h; exact tokenForm_of_not_mem _ _ (by decide)
  | case4 c r =>
      intro h
      cases h
      have hne : ∀ k ∈ [TokenKind.identifier, .valueId, .symbolRefId, .type, .dense],
          markKind c ≠ k := by
        intro k hk
        simp only [List.mem_cons, List.not_mem_nil, or_false] at hk
        unfold markKind
        rcases hk with rfl | rfl | rfl | rfl | rfl <;> split <;> decide
      exact ⟨fun hk => absurd hk (hne _ (by simp)), fun hk => absurd hk (hne _ (by simp)),
        fun hk => absurd hk (hne _ (by simp)), fun hk => absurd hk (hne _ (by simp)),
        fun hk => absurd hk (hne _ (by simp)), fun d hd hk => by rw [eq_of_markKind hd hk]; rfl⟩

/-- The form of a token by its kind. -/
theorem tokenForm_of_scanToken {limits : Limits} {c : Char} {rest : List Char} {kind : TokenKind}
    {value : TokenValue} (h : (scanToken limits c rest).outcome = .ok (kind, value)) :
    TokenForm kind value (scanToken limits c rest).lexeme := by
  revert h
  fun_cases scanToken limits c rest with
  | case1 _ =>
      intro h
      have hkind := isScalarLiteral_of_numeral _ _ _ h
      refine tokenForm_of_not_mem _ _ fun hmem => ?_
      simp only [List.mem_cons, List.not_mem_nil, or_false] at hmem
      rcases hmem with rfl | rfl | rfl | rfl | rfl | rfl | rfl | rfl | rfl <;> cases hkind
  | case2 _ _ =>
      intro h
      obtain ⟨s, _, hs⟩ := Scan.exists_of_map_ok _ _ _ h
      cases hs
      exact tokenForm_of_not_mem _ _ (by decide)
  | case3 _ _ hw => exact tokenForm_of_word hw
  | case4 _ _ _ _ => exact tokenForm_of_reference (Or.inr ⟨rfl, rfl⟩)
  | case5 _ _ _ _ hv =>
      intro h
      cases h
      exact ⟨by simp, fun _ => ⟨c, _, rfl, hv⟩, by simp, by simp, by simp,
        not_markKind_of_not_mem (by decide)⟩
  | case6 _ _ _ _ _ _ =>
      fun_cases label limits rest with
      | case1 r => exact tokenForm_of_reference (Or.inl rfl)
      | case2 r _ => intro h; cases h; exact tokenForm_of_not_mem _ _ (by decide)
      | case3 => exact tokenForm_of_reference (Or.inl rfl)
  | case7 _ _ _ _ _ _ => exact tokenForm_of_mark

/-- The form of a lexeme that is read. -/
theorem Lexer.tokenForm_of_next {l m : Lexer} {x : Lexeme} (hnext : next l = .ok x m)
    (hx : x.kind ≠ .eof) : TokenForm x.kind x.token.value x.text.toList := by
  rcases next_ok_cases hnext with ⟨_, _, rfl⟩ | ⟨c, rest, kind, value, _, hout, _, rfl⟩
  · exact absurd rfl hx
  · rw [String.toList_ofList]
    exact tokenForm_of_scanToken hout

/-! ## The end of a token -/

/-- Whether the last character of a text, if there is one, is one that goes on with a token. -/
def EndsInToken (text : List Char) : Prop := ∀ c ∈ text.getLast?, ¬ isStop c

namespace EndsInToken

variable {front back text : List Char}

/-- A text of such characters. -/
theorem of_forall (h : ∀ c ∈ text, ¬ isStop c) : EndsInToken text :=
  fun c hc => h c (List.mem_of_getLast? hc)

/-- A text with such a character at its end. -/
theorem of_suffix {c : Char} (h : [c] <:+ text) (hc : ¬ isStop c) : EndsInToken text := by
  obtain ⟨front, rfl⟩ := h
  intro d hd
  rw [List.getLast?_append] at hd
  cases hd
  exact hc

/-- A text behind another one. -/
theorem append (hfront : EndsInToken front) (hback : EndsInToken back) :
    EndsInToken (front ++ back) := by
  intro c hc
  rw [List.getLast?_append] at hc
  cases hlast : back.getLast? with
  | none =>
      rw [hlast, Option.none_or] at hc
      exact hfront c hc
  | some d =>
      rw [hlast, Option.some_or] at hc
      exact hback c (hlast ▸ hc)

/-- A text behind such a character. -/
theorem cons {c : Char} (h : EndsInToken text) (hc : ¬ isStop c) : EndsInToken (c :: text) :=
  @append [c] text (.of_suffix List.suffix_rfl hc) h

/-- A run of characters of a class that all go on with a token. -/
theorem takeWhile {class? : Char → Bool} (hclass : ∀ c, isStop c → class? c = false)
    (text : List Char) : EndsInToken (text.takeWhile class?) :=
  .of_forall fun c hc hstop => by
    have hmem := List.mem_takeWhile_imp hc
    rw [hclass c hstop] at hmem
    cases hmem

end EndsInToken

/-- A numeral does not end in a character that ends tokens: it would be read as well without it. -/
theorem endsInToken_numeral (text : List Char) : EndsInToken (numeral text).lexeme := by
  intro c hc hstop
  obtain ⟨u, hu⟩ := List.getLast?_eq_some_iff.mp hc
  obtain ⟨rest, hrest⟩ := numeral_isPrefix text
  have hshort : (numeral u).lexeme <+: u := numeral_isPrefix u
  rw [hu, List.append_assoc, List.singleton_append] at hrest
  rw [← hrest, numeral_append (Stops.cons hstop rest)] at hu
  have hlength := hshort.length_le
  rw [hu, List.length_append, List.length_singleton] at hlength
  omega

/-- Text in quotes ends with a quote. -/
theorem endsInToken_quotedBody {text s : List Char} (h : (quotedBody text).outcome = .ok s) :
    EndsInToken (quotedBody text).lexeme := by
  obtain ⟨body, hlexeme, _⟩ := quoted_of_quotedBody h
  rw [hlexeme]
  exact .of_suffix (List.suffix_append _ _) (by decide)

/-- A word ends in one of its characters, an angle bracket form in a bracket. -/
theorem endsInToken_word {limits : Limits} {text : List Char} {meaning : Meaning}
    (h : (word limits text).outcome = .ok meaning) : EndsInToken (word limits text).lexeme := by
  have hfront : EndsInToken (text.takeWhile isWordChar) := .takeWhile isWordChar_of_isStop text
  revert h
  fun_cases word limits text with
  | case1 front rest hrest tail ending heq =>
      intro h
      obtain rfl := closed_of_angleForm h
      have hlast := @getLast_of_angles_closed limits.maxNestingDepth 0 ('<' :: rest) (by rw [heq])
      rw [heq] at hlast
      rw [lexeme_angleForm]
      exact hfront.append (.of_suffix hlast (by decide))
  | case2 front _ => exact fun _ => hfront

/-- The parts of a name end in a character of an id, a quote or a colon. -/
theorem endsInToken_parts {sigil : Char} {max count : Nat} {text name : List Char}
    (hsigil : ¬ isStop sigil) (h : (parts sigil max count text).outcome = .ok name) :
    EndsInToken (parts sigil max count text).lexeme := by
  have hfront : ∀ text : List Char, EndsInToken (text.takeWhile isIdChar) :=
    .takeWhile isIdChar_of_isStop
  fun_induction parts sigil max count text generalizing name with
  | case1 count text hquoted =>
      exact (endsInToken_quotedBody h).cons (by decide)
  | case2 => cases h
  | case3 count text hquoted front rest hrest hmax again mark =>
      rename_i ih
      obtain ⟨later, hlater, rfl⟩ := Scan.exists_of_map_ok _ _ _ h
      refine .append (.append (hfront text) ?_) (ih hlater)
      by_cases hagain : rest.head? = some sigil
      · have heq : again = [sigil] := if_pos hagain
        rw [heq]
        exact .of_suffix (List.suffix_append [':', ':'] [sigil]) hsigil
      · have heq : again = [] := if_neg hagain
        rw [heq]
        exact .of_suffix (List.suffix_append [':'] [':']) (by decide)
  | case4 count text hquoted front => exact hfront text

/-- A token is a single character, or ends in one that goes on with a token. -/
theorem single_or_endsInToken {limits : Limits} {c : Char} {rest : List Char} {meaning : Meaning}
    (h : (scanToken limits c rest).outcome = .ok meaning) :
    (scanToken limits c rest).lexeme = [c] ∨ EndsInToken (scanToken limits c rest).lexeme := by
  have hreference : ∀ {sigil : Char} {kind : TokenKind}, ¬ isStop sigil →
      (reference limits sigil kind rest).outcome = .ok meaning →
      EndsInToken (reference limits sigil kind rest).lexeme := by
    intro sigil kind hsigil h
    obtain ⟨name, hname, _⟩ := Scan.exists_of_map_ok _ _ _ h
    exact (endsInToken_parts hsigil hname).cons hsigil
  revert h
  fun_cases scanToken limits c rest with
  | case1 _ => exact fun _ => Or.inr (endsInToken_numeral _)
  | case2 _ _ =>
      intro h
      obtain ⟨s, hs, _⟩ := Scan.exists_of_map_ok _ _ _ h
      exact Or.inr ((endsInToken_quotedBody hs).cons (by decide))
  | case3 _ _ _ => exact fun h => Or.inr (endsInToken_word h)
  | case4 _ _ _ _ => exact fun h => Or.inr (hreference (by decide) h)
  | case5 _ _ _ _ _ =>
      intro _
      have hname : EndsInToken (rest.takeWhile isIdChar) := .takeWhile isIdChar_of_isStop rest
      show c :: rest.takeWhile isIdChar = [c] ∨ EndsInToken (c :: rest.takeWhile isIdChar)
      cases hcase : rest.takeWhile isIdChar with
      | nil => exact Or.inl rfl
      | cons d name =>
          rw [hcase] at hname
          refine Or.inr fun e he => hname e ?_
          rwa [List.getLast?_cons_cons] at he
  | case6 _ _ _ _ _ _ =>
      fun_cases label limits rest with
      | case1 r => exact fun h => Or.inr (hreference (by decide) h)
      | case2 r _ => exact fun _ => Or.inr (.of_suffix (List.suffix_append ['^'] [':']) (by decide))
      | case3 => exact fun h => Or.inr (hreference (by decide) h)
  | case7 _ _ _ _ _ _ =>
      fun_cases mark c rest with
      | case1 r => exact fun _ => Or.inr (.of_suffix (List.suffix_append ['-'] ['>']) (by decide))
      | case2 r => exact fun _ => Or.inr (.of_suffix (List.suffix_append [':'] [':']) (by decide))
      | case3 r => exact fun _ => Or.inr (.of_suffix (List.suffix_append ['='] ['=']) (by decide))
      | case4 c r => exact fun _ => Or.inl rfl

/-- Whether the last character of a text, if there is one, is no blank. -/
def EndsSolid (text : List Char) : Prop := ∀ c ∈ text.getLast?, ¬ isBlank c

/-- No token ends in a blank. -/
theorem endsSolid_scanToken {limits : Limits} {c : Char} {rest : List Char} {meaning : Meaning}
    (hc : ¬ isBlank c) (h : (scanToken limits c rest).outcome = .ok meaning) :
    EndsSolid (scanToken limits c rest).lexeme := by
  intro d hd hblank
  rcases single_or_endsInToken h with hone | hlast
  · rw [hone] at hd
    cases hd
    exact hc hblank
  · exact hlast d hd (isStop_of_isBlank hblank)

/-- No lexeme that is read ends in a blank. -/
theorem Lexer.endsSolid_of_next {l m : Lexer} {x : Lexeme} (hnext : next l = .ok x m) :
    EndsSolid x.text.toList := by
  rcases next_ok_cases hnext with ⟨_, _, rfl⟩ | ⟨c, rest, kind, value, hrest, hout, _, rfl⟩
  · exact nofun
  · rw [String.toList_ofList]
    have hnone : gap (c :: rest) = [] := hrest ▸ gap_drop_gap l.rest
    exact endsSolid_scanToken ((not_gap_of_gap_eq_nil hnone).1 c rfl) hout

end GenericIR
