/-
# Functions

A function is a keyword that ends in `func`, an optional visibility, a symbol, parameters,
optional results with attributes before or after them, and a body in braces.  Without a
body it is a declaration.
-/
import GenericIR.Grammar.Operation

namespace GenericIR

/-- A symbol without its sigil. -/
def dropSigil (symbol : String) : String :=
  match symbol.toList with
  | '@' :: name => String.ofList name
  | _ => symbol

namespace Parse

/-! ## Signatures -/

/-- The visibilities of a function. -/
def visibilities : List String := ["private", "public", "nested"]

/-- The visibility at the lookahead, if it is one. -/
def visibility : Parse (Option String) := do
  let t ← current
  if t.kind = .identifier ∧ visibilities.any t.hasText then return some (← advance).valueText
  else return none

/-- A parameter. -/
def parameter : Parse Parameter := do
  let name := (← consume .valueId).valueText
  let _ ← consume .colon
  let ty ← type
  let attributes ← optionalAttributes .empty
  let location ← location
  return ⟨name, ty, attributes, location⟩

/-- The parameters in parentheses. -/
def parameters : Parse (List Parameter) := do
  let _ ← consume .lparen
  let params ← closedItems .rparen parameter
  let _ ← consume .rparen
  return params

/-- A result with its attributes. -/
def result : Parse FunctionResult := do
  let ty ← type
  let attributes ← optionalAttributes .empty
  return ⟨ty, attributes⟩

/-- Results in parentheses, or one type without attributes. -/
def results : Parse (List FunctionResult) := do
  if ← accept .lparen then
    let results ← closedItems .rparen result
    let _ ← consume .rparen
    return results
  else return [⟨← type, .empty⟩]

/-- The results after an arrow, if there is one. -/
def resultsClause : Parse (List FunctionResult) := do
  if ← accept .arrow then results else return []

/-! ## Functions -/

/-- The body in braces, if there is one. -/
def functionBody : Parse (Option (List Operation)) := do
  if ← accept .lbrace then
    let operations ← itemsUntil [.rbrace, .eof] operation
    let _ ← consume .rbrace
    return some operations
  else return none

/-- A function after its keyword. -/
def functionTail : Parse Function := do
  let visibility ← visibility
  let name := dropSigil (← consume .symbolRefId).valueText
  let parameters ← parameters
  let early ← attributesClause .empty
  let results ← resultsClause
  let late ← attributesClause early
  let body ← functionBody
  return ⟨name, visibility, parameters, results, late, body.getD [], body.isSome⟩

/-- A function. -/
def function : Parse Function := do
  let _ ← consume .keyword
  functionTail

end Parse

end GenericIR
