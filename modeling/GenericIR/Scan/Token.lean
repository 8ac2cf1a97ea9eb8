/-
# The token at the front of a text

What a token is follows from its first character and, for a sign, a point or a mark that
may be doubled, from the one after it.  Every text that is not empty starts with a token or
with a fault, and either takes a character: a character with no rule of its own is a
keyword by itself.

* `mark_ok_cases` : what a mark means;
* `scanToken_isPrefix` : the scan is the front of the text;
* `lexeme_scanToken_ne_nil` : the scan takes a character.
-/
import GenericIR.Scan.Numeral
import GenericIR.Scan.Reference
import GenericIR.Scan.Word

namespace GenericIR

/-! ## Marks -/

/-- The kind of a mark of one character. -/
def markKind (c : Char) : TokenKind :=
  match c with
  | ',' => .comma
  | '(' => .lparen
  | ')' => .rparen
  | '{' => .lbrace
  | '}' => .rbrace
  | '[' => .lbracket
  | ']' => .rbracket
  | '<' => .lessThan
  | '>' => .greaterThan
  | ':' => .colon
  | '=' => .equal
  | _ => .keyword

/-- A mark of one or two characters. -/
def mark : Char → List Char → Scan Meaning
  | '-', '>' :: _ => .plain .arrow ['-', '>']
  | ':', ':' :: _ => .plain .doubleColon [':', ':']
  | '=', '=' :: _ => .plain .equalEqual ['=', '=']
  | c, _ => .plain (markKind c) [c]

/-! ## Tokens -/

/-- The token at the front of a text that is not empty. -/
def scanToken (limits : Limits) (c : Char) (rest : List Char) : Scan Meaning :=
  if startsWithNumeral (c :: rest) then numeral (c :: rest)
  else if c = '"' then quoted rest
  else if isWordStart c then word limits (c :: rest)
  else if c = '@' then reference limits '@' .symbolRefId rest
  else if c = '%' ∨ c = '$' then valueId c rest
  else if c = '^' then label limits rest
  else mark c rest

/-- The scan of a mark is the front of the text. -/
theorem mark_isPrefix (c : Char) (rest : List Char) : (mark c rest).lexeme <+: c :: rest := by
  fun_cases mark c rest <;> simp

/-- The scan is the front of the text. -/
theorem scanToken_isPrefix (limits : Limits) (c : Char) (rest : List Char) :
    (scanToken limits c rest).lexeme <+: c :: rest := by
  fun_cases scanToken limits c rest with
  | case1 h => exact numeral_isPrefix _
  | case2 h hc => simpa [quoted, hc] using quotedBody_isPrefix rest
  | case3 h hc hw => exact word_isPrefix limits _
  | case4 h hc hw hs => simpa [hs] using reference_isPrefix limits '@' .symbolRefId rest
  | case5 h hc hw hs hv => exact valueId_isPrefix c rest
  | case6 h hc hw hs hv hl => simpa [hl] using label_isPrefix limits rest
  | case7 h hc hw hs hv hl => exact mark_isPrefix c rest

/-- The kinds of marks. -/
def markKinds : List TokenKind :=
  [.arrow, .doubleColon, .equalEqual, .comma, .lparen, .rparen, .lbrace, .rbrace, .lbracket,
    .rbracket, .lessThan, .greaterThan, .colon, .equal, .keyword]

/-- A mark of one character is of one of these kinds. -/
theorem markKind_mem_markKinds (c : Char) : markKind c ∈ markKinds := by
  unfold markKind
  split <;> decide

/-- A mark means its own text, as one of these kinds. -/
theorem mark_ok_cases {c : Char} {rest : List Char} {meaning : Meaning}
    (h : (mark c rest).outcome = .ok meaning) :
    ∃ k ∈ markKinds, meaning = (k, .text (String.ofList (mark c rest).lexeme)) := by
  revert h
  fun_cases mark c rest with
  | case1 r => intro h; cases h; exact ⟨_, by decide, rfl⟩
  | case2 r => intro h; cases h; exact ⟨_, by decide, rfl⟩
  | case3 r => intro h; cases h; exact ⟨_, by decide, rfl⟩
  | case4 c r => intro h; cases h; exact ⟨_, markKind_mem_markKinds c, rfl⟩

/-- The scan of a mark takes a character. -/
theorem lexeme_mark_ne_nil (c : Char) (rest : List Char) : (mark c rest).lexeme ≠ [] := by
  fun_cases mark c rest <;> simp

/-- The scan of a label takes a character. -/
theorem lexeme_label_ne_nil (limits : Limits) (rest : List Char) :
    (label limits rest).lexeme ≠ [] := by
  fun_cases label limits rest <;> simp [reference]

/-- The scan takes a character. -/
theorem lexeme_scanToken_ne_nil (limits : Limits) (c : Char) (rest : List Char) :
    (scanToken limits c rest).lexeme ≠ [] := by
  fun_cases scanToken limits c rest with
  | case1 h => exact lexeme_numeral_ne_nil _ h
  | case2 h => simp [quoted]
  | case3 h hc hw => exact lexeme_word_ne_nil limits c rest (by simp [isWordChar, hw])
  | case4 h => simp [reference]
  | case5 h hc hw hs hv => simp [valueId]
  | case6 h => exact lexeme_label_ne_nil limits rest
  | case7 h hc hw hs hv hl => exact lexeme_mark_ne_nil c rest

end GenericIR
