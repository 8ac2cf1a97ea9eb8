/-
# Captures

A region group, a body and a location are kept as they are written.  A capture goes from
an opening bracket to the bracket of the same kind that closes it; other brackets do not
count.  Its text is that of its lexemes with the gaps between them, and with the text that the
lexer skipped behind the first of them, which is a stretch of the source.
-/
import GenericIR.Grammar.Repeat

namespace GenericIR

/-- The text of a run of lexemes with the gaps between them. -/
def verbatim : List Lexeme → String
  | [] => ""
  | x :: xs => x.text ++ String.join (xs.map fun y => y.gap ++ y.text)

/-- The text of a run of lexemes with the gaps between them, where some text was skipped behind the
first one. -/
def verbatimPast (skipped : List Char) : List Lexeme → String
  | [] => ""
  | x :: xs => x.text ++ String.ofList skipped ++ String.join (xs.map fun y => y.gap ++ y.text)

/-- Where nothing was skipped, this is the text of the lexemes. -/
@[simp] theorem verbatimPast_nil (run : List Lexeme) : verbatimPast [] run = verbatim run := by
  cases run with
  | nil => rfl
  | cons x xs => rw [verbatimPast, String.ofList_nil, String.append_empty, verbatim]

namespace Parse

/-- One lexeme of a capture, at a depth that counts the open brackets. -/
def captureTurn (opening closing : TokenKind) (context : String) (depth : Nat) :
    Parse (Turn Nat Lexeme) := do
  if ← sees .eof then fail (.unbalanced context)
  else
    let x ← advance
    if x.token.kind = opening then
      checkDepth (depth + 1)
      return .more x (depth + 1)
    else if x.token.kind = closing then
      if depth ≤ 1 then return .last x else return .more x (depth - 1)
    else return .more x depth

/-- The lexemes from an opening bracket to the one that closes it. -/
def balanced (opening closing : TokenKind) (context : String) : Parse (List Lexeme) := do
  let first ← consume opening
  let more ← collect (captureTurn opening closing context) 1
  return first :: more

/-- The text from an opening bracket to the one that closes it. -/
def capture (opening closing : TokenKind) (context : String) : Parse String := do
  let skipped ← skipped
  return verbatimPast skipped (← balanced opening closing context)

/-- The location at the lookahead with its keyword, if there is one. -/
def location : Parse (Option String) := do
  let t ← current
  if t.kind = .keyword ∧ t.hasText "loc" then
    let skipped ← skipped
    let x ← advance
    if ← sees .lparen then
      return some (verbatimPast skipped (x :: (← balanced .lparen .rparen "location")))
    else unexpected "a location"
  else return none

end Parse

end GenericIR
