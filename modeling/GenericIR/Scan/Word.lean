/-
# Words and angle bracket forms

A word is a run of word characters.  Where an opening angle bracket follows, the token goes
on through anything at all up to the bracket that closes it, and is a type or a dense
literal; otherwise it is a keyword, a boolean or an identifier.

* `word_isPrefix` : the scan is the front of the text;
* `word_ok_cases` : what a word or an angle bracket form means.
-/
import GenericIR.Limits
import GenericIR.Scan.Basic

namespace GenericIR

/-! ## Angle brackets -/

/-- How a run of nested angle brackets ends. -/
inductive AngleEnd where
  | closed
  | tooDeep
  | unclosed
deriving DecidableEq, Repr

/-- The text from an angle bracket at some depth up to where the depth returns to zero or
passes `max`, and how it ends. -/
def angles (max : Nat) : Nat → List Char → List Char × AngleEnd
  | _, [] => ([], .unclosed)
  | depth, c :: rest =>
    if c = '<' then
      if max ≤ depth then ([c], .tooDeep)
      else
        let (tail, ending) := angles max (depth + 1) rest
        (c :: tail, ending)
    else if c = '>' ∧ depth ≤ 1 then ([c], .closed)
    else
      let (tail, ending) := angles max (if c = '>' then depth - 1 else depth) rest
      (c :: tail, ending)

/-- The text taken is the front of the text. -/
theorem angles_isPrefix (max depth : Nat) (text : List Char) :
    (angles max depth text).1 <+: text := by
  fun_induction angles max depth text with
  | case1 => exact List.prefix_rfl
  | case2 depth rest h => simp
  | case3 depth rest h tail ending heq ih =>
      rw [heq] at ih
      simpa using ih
  | case4 depth c rest hopen hclose => simp
  | case5 depth c rest hopen hclose tail ending heq ih =>
      simp only [heq] at ih
      simpa using ih

/-! ## Words -/

/-- What a word without angle brackets means. -/
def wordMeaning (front : List Char) : Meaning :=
  let text := String.ofList front
  if text = "module" ∨ text = "loc" ∨ "func".toList <:+ front then (.keyword, .text text)
  else if text = "true" then (.booleanLiteral, .bool true)
  else if text = "false" then (.booleanLiteral, .bool false)
  else (.identifier, .text text)

/-- An angle bracket form with its whole text, given how its brackets end. -/
def angleForm (limits : Limits) (lexeme : List Char) : AngleEnd → Scan Meaning
  | .closed => .plain (if "dense".toList <+: lexeme then .dense else .type) lexeme
  | .tooDeep =>
    ⟨lexeme, .error (.limitExceeded "type nesting depth" limits.maxNestingDepth)⟩
  | .unclosed => ⟨lexeme, .error (.unterminatedType (String.ofList lexeme))⟩

/-- A word, or an angle bracket form. -/
def word (limits : Limits) (text : List Char) : Scan Meaning :=
  let front := text.takeWhile isWordChar
  match text.dropWhile isWordChar with
  | '<' :: rest =>
    let (tail, ending) := angles limits.maxNestingDepth 0 ('<' :: rest)
    angleForm limits (front ++ tail) ending
  | _ => ⟨front, .ok (wordMeaning front)⟩

@[simp] theorem lexeme_angleForm (limits : Limits) (lexeme : List Char) (ending : AngleEnd) :
    (angleForm limits lexeme ending).lexeme = lexeme := by
  cases ending <;> rfl

/-- The scan is the front of the text. -/
theorem word_isPrefix (limits : Limits) (text : List Char) :
    (word limits text).lexeme <+: text := by
  fun_cases word limits text with
  | case1 front rest hrest tail ending heq =>
      have h := angles_isPrefix limits.maxNestingDepth 0 ('<' :: rest)
      rw [heq, ← hrest] at h
      have hp := (List.prefix_append_right_inj front).mpr h
      rw [List.takeWhile_append_dropWhile] at hp
      rwa [lexeme_angleForm]
  | case2 front _ => exact List.takeWhile_prefix _

/-- A word that starts with a word character takes it. -/
theorem lexeme_word_ne_nil (limits : Limits) (c : Char) (rest : List Char)
    (hc : isWordChar c) : (word limits (c :: rest)).lexeme ≠ [] := by
  fun_cases word limits (c :: rest) with
  | case1 front r hrest tail ending heq => simp [front, hc]
  | case2 front _ => simp [front, hc]

/-! ## What a word means -/

/-- A word means a truth value, or its own text as a keyword or an identifier. -/
theorem wordMeaning_eq_or (front : List Char) :
    (∃ b, wordMeaning front = (.booleanLiteral, .bool b)) ∨
      ∃ k, (k = .keyword ∨ k = .identifier) ∧
        wordMeaning front = (k, .text (String.ofList front)) := by
  unfold wordMeaning
  dsimp only
  split
  · exact Or.inr ⟨_, Or.inl rfl, rfl⟩
  · split
    · exact Or.inl ⟨_, rfl⟩
    · split
      · exact Or.inl ⟨_, rfl⟩
      · exact Or.inr ⟨_, Or.inr rfl, rfl⟩

/-- Only an angle bracket form that is closed is a token. -/
theorem closed_of_angleForm {limits : Limits} {lexeme : List Char} {ending : AngleEnd}
    {meaning : Meaning} (h : (angleForm limits lexeme ending).outcome = .ok meaning) :
    ending = .closed := by
  cases ending with
  | closed => rfl
  | tooDeep => cases h
  | unclosed => cases h

/-- A word or an angle bracket form means a truth value, or its own text. -/
theorem word_ok_cases {limits : Limits} {text : List Char} {meaning : Meaning}
    (h : (word limits text).outcome = .ok meaning) :
    (∃ b, meaning = (.booleanLiteral, .bool b)) ∨
      ∃ k ∈ [TokenKind.keyword, .identifier, .type, .dense],
        meaning = (k, .text (String.ofList (word limits text).lexeme)) := by
  revert h
  fun_cases word limits text with
  | case1 front rest hrest tail ending heq =>
      intro h
      obtain rfl := closed_of_angleForm h
      cases h
      exact Or.inr ⟨_, by split <;> decide, rfl⟩
  | case2 front _ =>
      intro h
      cases h
      rcases wordMeaning_eq_or front with hbool | ⟨k, hk, htext⟩
      · exact Or.inl hbool
      · exact Or.inr ⟨k, by rcases hk with rfl | rfl <;> decide, htext⟩

end GenericIR
