/-
# Attribute dictionaries

A dictionary holds names in braces, each with a value or alone.  A value goes up to the
comma or the brace that ends it; the brackets in it have to close in number, but need not
pair off by kind.  A value of one literal token is decoded, any other is kept as text.
-/
import GenericIR.Grammar.Type
import GenericIR.Graph.Attribute
import GenericIR.Text.WhiteSpace

namespace GenericIR

/-! ## Values -/

/-- The texts of lexemes joined by single spaces, without white space at its ends. -/
def joinedText (xs : List Lexeme) : String :=
  String.ofList (trim (List.intercalate [' '] (xs.map fun x => x.text.toList)))

/-- The attribute value that a run of lexemes stands for. -/
def AttributeValue.ofLexemes : List Lexeme → AttributeValue
  | [x] =>
    match x.token.kind, x.token.value with
    | .booleanLiteral, .bool b => .bool b
    | .integerLiteral, .int n => .integer n
    | .hexadecimalLiteral, .int n => .integer n
    | .floatLiteral, .float f => .float f
    | .stringLiteral, .text s => .str s
    | _, _ => .opaqueText (joinedText [x])
  | xs => .opaqueText (joinedText xs)

/-- Sets a run of entries in order. -/
def Attributes.insertAll (as : Attributes) (entries : List (String × AttributeValue)) :
    Attributes :=
  entries.foldl (fun acc entry => acc.insert entry.1 entry.2) as

namespace Parse

/-- One lexeme of an attribute value, at a depth that counts the open brackets. -/
def attributeValueTurn (depth : Nat) : Parse (Turn Nat Lexeme) := do
  let k := (← current).kind
  if depth = 0 ∧ (k = .comma ∨ k = .rbrace) then return .stop
  else if k = .eof then fail (.unbalanced "attribute value")
  else if k.isOpenBracket then
    checkDepth (depth + 1)
    return .more (← advance) (depth + 1)
  else if k.isCloseBracket then
    if depth = 0 then fail (.unbalanced "attribute value")
    else return .more (← advance) (depth - 1)
  else return .more (← advance) depth

/-- An attribute value. -/
def attributeValue : Parse AttributeValue := do
  return .ofLexemes (← collect attributeValueTurn 0)

/-! ## Dictionaries -/

/-- A name with its value, or alone. -/
def attributeEntry : Parse (String × AttributeValue) := do
  if ← sees .identifier then
    let name := (← advance).valueText
    if ← accept .equal then return (name, ← attributeValue)
    else return (name, .unit name)
  else unexpected "an attribute dictionary"

/-- A dictionary in braces, set into attributes that are there already. -/
def attributes (into : Attributes) : Parse Attributes := do
  let _ ← consume .lbrace
  let entries ← itemsUntil [.rbrace] do
    let entry ← attributeEntry
    skipCommas
    return entry
  let _ ← consume .rbrace
  return into.insertAll entries

/-- A dictionary, if the lookahead opens one. -/
def optionalAttributes (into : Attributes) : Parse Attributes := do
  if ← sees .lbrace then attributes into else return into

/-- A dictionary after the word `attributes`, if the lookahead is that word. -/
def attributesClause (into : Attributes) : Parse Attributes := do
  let t ← current
  if t.kind = .identifier ∧ t.hasText "attributes" then
    let _ ← advance
    attributes into
  else return into

end Parse

end GenericIR
