/-
# Operations

An operation is written as the values it defines, its name, a callee, its operands and its
signature, with region groups, attributes, a body and a location in their places; all but
the name may be missing.  Nothing marks its end: each part is taken wherever the lookahead
can start it.
-/
import GenericIR.Grammar.Attribute
import GenericIR.Grammar.Capture
import GenericIR.Graph.Basic

namespace GenericIR.Parse

/-! ## Values and names -/

/-- A value that an operation defines, perhaps a group of several. -/
def returnValue : Parse String := do
  let value := (← consume .valueId).valueText
  if ← accept .colon then return value ++ ":" ++ (← consume .integerLiteral).valueText
  else return value

/-- The values that an operation defines: in parentheses, bare, or none. -/
def returnValues : Parse (List String) := do
  if ← accept .lparen then
    let values ← closedItems .rparen returnValue
    let _ ← consume .rparen
    return values
  else if ← sees .valueId then openItems returnValue
  else return []

/-- The name of an operation: a string, or one or two identifiers run together. -/
def operationName : Parse String := do
  let t ← current
  if t.kind = .stringLiteral then return (← advance).valueText
  else if t.kind = .identifier then
    let name := (← advance).valueText
    if ← sees .identifier then return name ++ (← advance).valueText else return name
  else unexpected "an operation name"

/-- The symbol before the operands, if there is one. -/
def callee : Parse (Option String) := do
  if ← sees .symbolRefId then return some (← advance).valueText else return none

/-! ## Operands -/

/-- Kinds that end the operands and stay the lookahead. -/
def operandTerminators : List TokenKind :=
  [.rparen, .colon, .arrow, .lbrace, .identifier, .stringLiteral, .rbrace, .eof]

/-- One operand after any commas.  A constant ends the operands. -/
def operandTurn : Parse (Turn Unit String) := do
  skipCommas
  let k := (← current).kind
  if k ∈ operandTerminators then return .stop
  else if k = .valueId then return .more (← advance).valueText ()
  else if k = .dense then return .last (← advance).valueText
  else if k.isScalarLiteral then return .last (← advance).text
  else unexpected "operation operands"

/-- The operands, in parentheses or bare. -/
def operands : Parse (List String) := do
  let opened ← accept .lparen
  let inputs ← collect (fun (_ : Unit) => operandTurn) ()
  if opened then
    let _ ← consume .rparen
    return inputs
  else return inputs

/-! ## After the operands -/

/-- The text of a region group, if there is one. -/
def regionGroup : Parse (Option String) := do
  if ← sees .lparen then return some (← capture .lparen .rparen "region group")
  else return none

/-- The types after a kind of token, if it is the lookahead. -/
def typesAfter (kind : TokenKind) : Parse (List String) := do
  if ← accept kind then typeList else return []

/-- Whether the brace at the lookahead opens a dictionary: the two lexemes behind it are an
identifier and an equals sign, a comma or a closing brace.  The parser does not move. -/
def braceOpensAttributes : Parse Bool := fun p =>
  match Lexer.next p.lexer with
  | .error d _ => .error d p
  | .ok x l =>
    if x.token.kind = .identifier then
      match Lexer.next l with
      | .error d _ => .error d p
      | .ok y _ => .ok (decide (y.token.kind ∈ [.equal, .comma, .rbrace])) p
    else .ok false p

/-- A block in braces after the signature: a dictionary or a body. -/
def block (into : Attributes) : Parse (Attributes × Option String) := do
  if ← sees .lbrace then
    if ← braceOpensAttributes then return (← attributes into, none)
    else return (into, some (← capture .lbrace .rbrace "operation body"))
  else return (into, none)

/-! ## Operations -/

/-- The values that an operation defines with the equals sign behind them, if there are
any. -/
def definitions : Parse (List String) := do
  let outputs ← returnValues
  if outputs = [] then return []
  else
    let _ ← consume .equal
    return outputs

/-- An operation up to the types of its operands. -/
def operationHead : Parse Operation := do
  let outputs ← definitions
  let name ← operationName
  let callee ← callee
  let inputs ← operands
  let regions ← regionGroup
  let attributes ← optionalAttributes .empty
  let inputTypes ← typesAfter .colon
  return ⟨name, callee, inputs, inputTypes, outputs, [], attributes, none, regions, none, false⟩

/-- What follows the head of a constant, which keeps no types. -/
def constantTail (op : Operation) : Parse Operation := do
  let location ← location
  return { op with inputTypes := [], location := location, isConstant := true }

/-- What follows the head of any other operation. -/
def operationTail (op : Operation) : Parse Operation := do
  let outputTypes ← typesAfter .arrow
  let (middle, body) ← block op.attributes
  let late ← optionalAttributes middle
  let location ← location
  return { op with outputTypes := outputTypes, attributes := late, body := body,
                   location := location }

/-- Whether a name is that of a constant. -/
def isConstantName (name : String) : Bool := decide ("constant".toList <:+ name.toList)

/-- An operation.  A constant is written without result types. -/
def operation : Parse Operation := do
  let op ← operationHead
  let arrow ← sees .arrow
  if isConstantName op.name && !arrow then constantTail op else operationTail op

end GenericIR.Parse
