/-
# Quoted text

Text between double quotes.  A backslash takes the next character with it: `n`, `r` and `t`
stand for line feed, carriage return and tab, and any other character for itself.

* `quotedBody_isPrefix` : the scan is the front of the text.
-/
import GenericIR.Scan.Basic

namespace GenericIR

/-- The character that an escaped character stands for. -/
def unescape (c : Char) : Char :=
  if c = 'n' then '\n' else if c = 'r' then '\r' else if c = 't' then '\t' else c

/-- The decoded text up to the closing quote, which the scan takes too. -/
def quotedBody : List Char → Scan (List Char)
  | [] => ⟨[], .error .unterminatedString⟩
  | '"' :: _ => ⟨['"'], .ok []⟩
  | '\\' :: c :: rest => ((quotedBody rest).map (unescape c :: ·)).prepend ['\\', c]
  | c :: rest => ((quotedBody rest).map (c :: ·)).prepend [c]

/-- The scan is the front of the text. -/
theorem quotedBody_isPrefix (text : List Char) : (quotedBody text).lexeme <+: text := by
  fun_induction quotedBody text with
  | case1 => exact List.prefix_rfl
  | case2 rest => simp
  | case3 c rest ih => simpa using ih
  | case4 c rest _ _ ih => simpa using ih

/-- A string literal, from its opening quote on. -/
def quoted (rest : List Char) : Scan Meaning :=
  ((quotedBody rest).map fun s => (.stringLiteral, .text (String.ofList s))).prepend ['"']

end GenericIR
