/-
# Types

A type is an angle bracket form or a single identifier, either of them with a `!` that
touches it.
-/
import GenericIR.Grammar.Repeat

namespace GenericIR

/-- The value of a lexeme as text. -/
def Lexeme.valueText (x : Lexeme) : String := x.token.value.render

namespace Parse

/-- A type that starts with `!`, which has to touch what follows. -/
def dialectType : Parse String := do
  let bang ← advance
  let t ← current
  if t.span.offset = bang.token.span.stop ∧ (t.kind = .type ∨ t.kind = .identifier) then
    return "!" ++ (← advance).valueText
  else unexpected "a dialect type"

/-- A type. -/
def type : Parse String := do
  let t ← current
  if t.kind = .type ∨ t.kind = .identifier then return (← advance).valueText
  else if t.kind = .keyword ∧ t.hasText "!" then dialectType
  else unexpected "a type"

/-- Types in parentheses, or one type and more after commas. -/
def typeList : Parse (List String) := do
  if ← accept .lparen then
    let types ← closedItems .rparen type
    let _ ← consume .rparen
    return types
  else openItems type

end Parse

end GenericIR
