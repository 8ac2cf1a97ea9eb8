/-
# A parser over bytes

The parser once more, as a checked program over the lexer over bytes.  It keeps the place of the
lexer, the one token read ahead of it, and the tokens it has gone past, each with its role: a
token of the structure, one inside an attribute value, or one inside a capture.  It cuts the
text of a token and of a capture out of the source by their offsets and counts depths down, and
both are checked.  A turn of any of its loops that goes on has to have gone past a token, or
there is no result.

* `ByteParser.parse` : the graph or the diagnostic of a source with the tokens gone past, if
  nothing goes wrong on the way.
-/
import GenericIR.Grammar.Module
import GenericIR.Proofs.Bytes.Lexer

namespace GenericIR

/-! ## Parsers -/

/-- Where in the grammar a token is gone past. -/
inductive Role where
  /-- In a production that asks for the token. -/
  | structural
  /-- In an attribute value. -/
  | value
  /-- Between the brackets of a body, a region group or a location. -/
  | captured
deriving DecidableEq, Repr

/-- A token that was gone past, with its role. -/
structure Mark where
  role : Role
  token : Token
deriving DecidableEq, Repr

/-- The place of the lexer, the token read last, and the tokens that were the lookahead before,
the latest first. -/
structure ByteParser where
  place : Place
  lookahead : Token
  passed : List Mark

/-- A step of the parser over bytes. -/
abbrev ByteParse : Type → Type := Checked ByteParser

namespace ByteParse

open Checked

variable {σ α : Type}

/-! ## Steps -/

/-- The lookahead. -/
def current : ByteParse Token := fun p => some (.ok p.lookahead, p)

/-- Whether the lookahead is of a kind. -/
def sees (kind : TokenKind) : ByteParse Bool := do return decide ((← current).kind = kind)

/-- Ends with a fault at the lookahead. -/
def fail (fault : Fault) : ByteParse α := do throw (Diagnostic.ofFault fault (← current).span)

/-- Ends with the lookahead as the token that a production cannot start with. -/
def unexpected (context : String) : ByteParse α := do
  fail (.unexpectedConstruct context (← current).render)

section

variable (source : List Char) (limits : Limits)

/-- The lookahead, which the next token takes the place of. -/
def advance (role : Role) : ByteParse Token := fun p =>
  match ByteLexer.next source limits p.place with
  | none => none
  | some (.ok t, q) => some (.ok p.lookahead, ⟨q, t, ⟨role, p.lookahead⟩ :: p.passed⟩)
  | some (.error d, q) => some (.error d, { p with place := q })

/-- Goes on from a lookahead of a kind. -/
def consume (kind : TokenKind) : ByteParse Token := do
  let t ← current
  if t.kind = kind then advance source limits .structural
  else fail (.unexpectedKind kind t.render)

/-- Goes on from a lookahead of a kind that carries a text. -/
def consumeText (kind : TokenKind) (text : String) : ByteParse Token := do
  let t ← current
  if t.kind = kind ∧ ¬ t.hasText text then fail (.unexpectedValue text t.render)
  else consume source limits kind

/-- Goes on from a lookahead of a kind, if it is of that kind. -/
def accept (kind : TokenKind) : ByteParse Bool := do
  if ← sees kind then
    let _ ← advance source limits .structural
    return true
  else return false

/-- Ends where a depth of brackets passes the bound. -/
def checkDepth (depth : Nat) : ByteParse Unit :=
  if limits.maxNestingDepth < depth then
    fail (.limitExceeded "bracket nesting depth" limits.maxNestingDepth)
  else return ()

/-- The slice of the source from where one token starts to where another one stops. -/
def textBetween (first last : Token) : ByteParse String := do
  return String.ofList (← ofOption (slice? source first.span.offset last.span.stop))

/-! ## Lists -/

/-- How much is left to go past: the bytes that are not read yet, and the lookahead. -/
def left (p : ByteParser) : Nat :=
  byteLength source - p.place.offset + if p.lookahead.kind = .eof then 0 else 1

/-- One turn of a list behind the items before it.  A turn that goes on has to have gone past a
token. -/
def collectTurn (turn : σ → ByteParse (Turn σ α)) :
    σ × List α → ByteParse (Flow (σ × List α) (List α))
  | (s, items) => do
    let before ← here
    match ← turn s with
    | .stop => return .done items
    | .last item => return .done (items ++ [item])
    | .more item next =>
      let behind ← here
      require (before.passed.length < behind.passed.length)
      return .again (next, items ++ [item])

section CollectTurn

variable {turn : σ → ByteParse (Turn σ α)} {s : σ} {items : List α} {p q : ByteParser}

/-- A turn that ends with a diagnostic. -/
theorem collectTurn_of_error {d : Diagnostic} (h : turn s p = some (.error d, q)) :
    collectTurn turn (s, items) p = some (.error d, q) := by
  rw [collectTurn, here_bind, bind_error h]

/-- A turn that ends the list. -/
theorem collectTurn_of_stop (h : turn s p = some (.ok .stop, q)) :
    collectTurn turn (s, items) p = some (.ok (.done items), q) := by
  rw [collectTurn, here_bind, bind_ok h]
  rfl

/-- A turn with the last item. -/
theorem collectTurn_of_last {item : α} (h : turn s p = some (.ok (.last item), q)) :
    collectTurn turn (s, items) p = some (.ok (.done (items ++ [item])), q) := by
  rw [collectTurn, here_bind, bind_ok h]
  rfl

/-- A turn that goes on behind a token it has gone past. -/
theorem collectTurn_of_more {item : α} {next : σ} (h : turn s p = some (.ok (.more item next), q))
    (hpast : p.passed.length < q.passed.length) :
    collectTurn turn (s, items) p = some (.ok (.again (next, items ++ [item])), q) := by
  rw [collectTurn, here_bind, bind_ok h]
  dsimp only
  rw [here_bind, require_bind hpast]
  rfl

/-- What the turn was whose outcome goes on or ends the loop. -/
theorem collectTurn_cases {flow : Flow (σ × List α) (List α)}
    (h : collectTurn turn (s, items) p = some (.ok flow, q)) :
    (turn s p = some (.ok .stop, q) ∧ flow = .done items) ∨
    (∃ item, turn s p = some (.ok (.last item), q) ∧ flow = .done (items ++ [item])) ∨
    ∃ item next, turn s p = some (.ok (.more item next), q) ∧
      flow = .again (next, items ++ [item]) := by
  rw [collectTurn, here_bind] at h
  obtain ⟨t, r, ht, hrest⟩ := exists_of_bind_ok h
  cases t with
  | stop =>
      cases hrest
      exact Or.inl ⟨ht, rfl⟩
  | last item =>
      cases hrest
      exact Or.inr (Or.inl ⟨item, ht, rfl⟩)
  | more item next =>
      dsimp only at hrest
      rw [here_bind] at hrest
      by_cases hpast : p.passed.length < r.passed.length
      · rw [require_bind hpast] at hrest
        cases hrest
        exact Or.inr (Or.inr ⟨item, next, ht, rfl⟩)
      · obtain ⟨_, _, hrequire, _⟩ := exists_of_bind_ok hrest
        rw [require, if_neg hpast] at hrequire
        cases hrequire

end CollectTurn

/-- The items of all turns from a state on. -/
def collect (turn : σ → ByteParse (Turn σ α)) (s : σ) : ByteParse (List α) :=
  loop (left source) (collectTurn turn) (s, [])

/-- One item, unless the lookahead is of a kind that ends the list. -/
def untilTurn (stops : List TokenKind) (item : ByteParse α) (_ : Unit) :
    ByteParse (Turn Unit α) := do
  if (← current).kind ∈ stops then return .stop
  else return .more (← item) ()

/-- Items up to a lookahead of one of some kinds. -/
def itemsUntil (stops : List TokenKind) (item : ByteParse α) : ByteParse (List α) :=
  collect source (untilTurn stops item) ()

/-- One item with the comma behind it, unless the lookahead closes the list. -/
def closedTurn (close : TokenKind) (item : ByteParse α) (_ : Unit) :
    ByteParse (Turn Unit α) := do
  if ← sees close then return .stop
  else
    let a ← item
    if ← accept source limits .comma then return .more a () else return .last a

/-- Items with commas between them up to a closing bracket. -/
def closedItems (close : TokenKind) (item : ByteParse α) : ByteParse (List α) :=
  collect source (closedTurn source limits close item) ()

/-- A comma with the item behind it. -/
def commaTurn (item : ByteParse α) (_ : Unit) : ByteParse (Turn Unit α) := do
  if ← accept source limits .comma then return .more (← item) () else return .stop

/-- One item, and more for as long as a comma follows. -/
def openItems (item : ByteParse α) : ByteParse (List α) := do
  let first ← item
  let more ← collect source (commaTurn source limits item) ()
  return first :: more

/-- Goes on from any number of commas. -/
def skipCommas : ByteParse Unit := do
  let _ ← collect source (commaTurn source limits (pure ())) ()

/-! ## Captures -/

/-- One token of a capture, at a depth that counts the open brackets. -/
def captureTurn (opening closing : TokenKind) (context : String) (depth : Nat) :
    ByteParse (Turn Nat Token) := do
  if ← sees .eof then fail (.unbalanced context)
  else
    let closes := decide ((← current).kind = closing ∧ depth ≤ 1)
    let t ← advance source limits (if closes then .structural else .captured)
    if t.kind = opening then
      checkDepth limits (depth + 1)
      return .more t (depth + 1)
    else if t.kind = closing then
      let depth ← subtract depth 1
      if depth = 0 then return .last t else return .more t depth
    else return .more t depth

/-- The last token from an opening bracket to the one that closes it. -/
def balanced (opening closing : TokenKind) (context : String) : ByteParse (Token × Token) := do
  let first ← consume source limits opening
  let more ← collect source (captureTurn source limits opening closing context) 1
  return (first, more.getLastD first)

/-- The text from an opening bracket to the one that closes it. -/
def capture (opening closing : TokenKind) (context : String) : ByteParse String := do
  let (first, last) ← balanced source limits opening closing context
  textBetween source first last

/-- The location at the lookahead with its keyword, if there is one. -/
def location : ByteParse (Option String) := do
  let t ← current
  if t.kind = .keyword ∧ t.hasText "loc" then
    let first ← advance source limits .structural
    if ← sees .lparen then
      let (_, last) ← balanced source limits .lparen .rparen "location"
      return some (← textBetween source first last)
    else unexpected "a location"
  else return none

/-! ## Types -/

/-- A type that starts with `!`, which has to touch what follows. -/
def dialectType : ByteParse String := do
  let bang ← advance source limits .structural
  let t ← current
  if t.span.offset = bang.span.stop ∧ (t.kind = .type ∨ t.kind = .identifier) then
    return "!" ++ (← advance source limits .structural).value.render
  else unexpected "a dialect type"

/-- A type. -/
def type : ByteParse String := do
  let t ← current
  if t.kind = .type ∨ t.kind = .identifier then
    return (← advance source limits .structural).value.render
  else if t.kind = .keyword ∧ t.hasText "!" then dialectType source limits
  else unexpected "a type"

/-- Types in parentheses, or one type and more after commas. -/
def typeList : ByteParse (List String) := do
  if ← accept source limits .lparen then
    let types ← closedItems source limits .rparen (type source limits)
    let _ ← consume source limits .rparen
    return types
  else openItems source limits (type source limits)

/-! ## Attribute dictionaries -/

/-- One token of an attribute value, at a depth that counts the open brackets. -/
def attributeValueTurn (depth : Nat) : ByteParse (Turn Nat Token) := do
  let k := (← current).kind
  if depth = 0 ∧ (k = .comma ∨ k = .rbrace) then return .stop
  else if k = .eof then fail (.unbalanced "attribute value")
  else if k.isOpenBracket then
    checkDepth limits (depth + 1)
    return .more (← advance source limits .value) (depth + 1)
  else if k.isCloseBracket then
    if depth = 0 then fail (.unbalanced "attribute value")
    else
      let depth ← subtract depth 1
      return .more (← advance source limits .value) depth
  else return .more (← advance source limits .value) depth

/-- The texts of tokens joined by single spaces, without white space at its ends. -/
def joinedText (texts : List String) : String :=
  String.ofList (trim (List.intercalate [' '] (texts.map String.toList)))

/-- The value that one literal token stands for. -/
def literalValue? : List Token → Option AttributeValue
  | [t] =>
    match t.kind, t.value with
    | .booleanLiteral, .bool b => some (.bool b)
    | .integerLiteral, .int n => some (.integer n)
    | .hexadecimalLiteral, .int n => some (.integer n)
    | .floatLiteral, .float f => some (.float f)
    | .stringLiteral, .text s => some (.str s)
    | _, _ => none
  | _ => none

/-- An attribute value: a literal, or else the texts of its tokens. -/
def attributeValue : ByteParse AttributeValue := do
  let tokens ← collect source (attributeValueTurn source limits) 0
  match literalValue? tokens with
  | some value => return value
  | none => return .opaqueText (joinedText (← tokens.mapM fun t => textBetween source t t))

/-- A name with its value, or alone. -/
def attributeEntry : ByteParse (String × AttributeValue) := do
  if ← sees .identifier then
    let name := (← advance source limits .structural).value.render
    if ← accept source limits .equal then return (name, ← attributeValue source limits)
    else return (name, .unit name)
  else unexpected "an attribute dictionary"

/-- A dictionary in braces, set into attributes that are there already. -/
def attributes (into : Attributes) : ByteParse Attributes := do
  let _ ← consume source limits .lbrace
  let entries ← itemsUntil source [.rbrace] do
    let entry ← attributeEntry source limits
    skipCommas source limits
    return entry
  let _ ← consume source limits .rbrace
  return into.insertAll entries

/-- A dictionary, if the lookahead opens one. -/
def optionalAttributes (into : Attributes) : ByteParse Attributes := do
  if ← sees .lbrace then attributes source limits into else return into

/-- A dictionary after the word `attributes`, if the lookahead is that word. -/
def attributesClause (into : Attributes) : ByteParse Attributes := do
  let t ← current
  if t.kind = .identifier ∧ t.hasText "attributes" then
    let _ ← advance source limits .structural
    attributes source limits into
  else return into

/-! ## Operations -/

/-- A value that an operation defines, perhaps a group of several. -/
def returnValue : ByteParse String := do
  let value := (← consume source limits .valueId).value.render
  if ← accept source limits .colon then
    return value ++ ":" ++ (← consume source limits .integerLiteral).value.render
  else return value

/-- The values that an operation defines: in parentheses, bare, or none. -/
def returnValues : ByteParse (List String) := do
  if ← accept source limits .lparen then
    let values ← closedItems source limits .rparen (returnValue source limits)
    let _ ← consume source limits .rparen
    return values
  else if ← sees .valueId then openItems source limits (returnValue source limits)
  else return []

/-- The name of an operation: a string, or one or two identifiers run together. -/
def operationName : ByteParse String := do
  let t ← current
  if t.kind = .stringLiteral then return (← advance source limits .structural).value.render
  else if t.kind = .identifier then
    let name := (← advance source limits .structural).value.render
    if ← sees .identifier then
      return name ++ (← advance source limits .structural).value.render
    else return name
  else unexpected "an operation name"

/-- The symbol before the operands, if there is one. -/
def callee : ByteParse (Option String) := do
  if ← sees .symbolRefId then return some (← advance source limits .structural).value.render
  else return none

/-- One operand after any commas.  A constant ends the operands. -/
def operandTurn : ByteParse (Turn Unit String) := do
  skipCommas source limits
  let k := (← current).kind
  if k ∈ Parse.operandTerminators then return .stop
  else if k = .valueId then return .more (← advance source limits .structural).value.render ()
  else if k = .dense then return .last (← advance source limits .structural).value.render
  else if k.isScalarLiteral then
    let t ← advance source limits .structural
    return .last (← textBetween source t t)
  else unexpected "operation operands"

/-- The operands, in parentheses or bare. -/
def operands : ByteParse (List String) := do
  let opened ← accept source limits .lparen
  let inputs ← collect source (fun (_ : Unit) => operandTurn source limits) ()
  if opened then
    let _ ← consume source limits .rparen
    return inputs
  else return inputs

/-- The text of a region group, if there is one. -/
def regionGroup : ByteParse (Option String) := do
  if ← sees .lparen then return some (← capture source limits .lparen .rparen "region group")
  else return none

/-- The types after a kind of token, if it is the lookahead. -/
def typesAfter (kind : TokenKind) : ByteParse (List String) := do
  if ← accept source limits kind then typeList source limits else return []

/-- Whether the brace at the lookahead opens a dictionary, as the two tokens behind it tell.  The
lexer that reads them is a copy, and the parser stays where it is. -/
def braceOpensAttributes : ByteParse Bool := fun p =>
  match ByteLexer.next source limits p.place with
  | none => none
  | some (.error d, _) => some (.error d, p)
  | some (.ok t, q) =>
    if t.kind = .identifier then
      match ByteLexer.next source limits q with
      | none => none
      | some (.error d, _) => some (.error d, p)
      | some (.ok u, _) => some (.ok (decide (u.kind ∈ [.equal, .comma, .rbrace])), p)
    else some (.ok false, p)

/-- A block in braces after the signature: a dictionary or a body. -/
def block (into : Attributes) : ByteParse (Attributes × Option String) := do
  if ← sees .lbrace then
    if ← braceOpensAttributes source limits then return (← attributes source limits into, none)
    else return (into, some (← capture source limits .lbrace .rbrace "operation body"))
  else return (into, none)

/-- The values that an operation defines with the equals sign behind them, if there are
any. -/
def definitions : ByteParse (List String) := do
  let outputs ← returnValues source limits
  if outputs = [] then return []
  else
    let _ ← consume source limits .equal
    return outputs

/-- An operation up to the types of its operands. -/
def operationHead : ByteParse Operation := do
  let outputs ← definitions source limits
  let name ← operationName source limits
  let callee ← callee source limits
  let inputs ← operands source limits
  let regions ← regionGroup source limits
  let attributes ← optionalAttributes source limits .empty
  let inputTypes ← typesAfter source limits .colon
  return ⟨name, callee, inputs, inputTypes, outputs, [], attributes, none, regions, none, false⟩

/-- What follows the head of a constant, which keeps no types. -/
def constantTail (op : Operation) : ByteParse Operation := do
  let location ← location source limits
  return { op with inputTypes := [], location := location, isConstant := true }

/-- What follows the head of any other operation. -/
def operationTail (op : Operation) : ByteParse Operation := do
  let outputTypes ← typesAfter source limits .arrow
  let (middle, body) ← block source limits op.attributes
  let late ← optionalAttributes source limits middle
  let location ← location source limits
  return { op with outputTypes := outputTypes, attributes := late, body := body,
                   location := location }

/-- An operation.  A constant is written without result types. -/
def operation : ByteParse Operation := do
  let op ← operationHead source limits
  let arrow ← sees .arrow
  if Parse.isConstantName op.name && !arrow then constantTail source limits op
  else operationTail source limits op

/-! ## Functions -/

/-- The visibility at the lookahead, if it is one. -/
def visibility : ByteParse (Option String) := do
  let t ← current
  if t.kind = .identifier ∧ Parse.visibilities.any t.hasText then
    return some (← advance source limits .structural).value.render
  else return none

/-- A parameter. -/
def parameter : ByteParse Parameter := do
  let name := (← consume source limits .valueId).value.render
  let _ ← consume source limits .colon
  let ty ← type source limits
  let attributes ← optionalAttributes source limits .empty
  let location ← location source limits
  return ⟨name, ty, attributes, location⟩

/-- The parameters in parentheses. -/
def parameters : ByteParse (List Parameter) := do
  let _ ← consume source limits .lparen
  let params ← closedItems source limits .rparen (parameter source limits)
  let _ ← consume source limits .rparen
  return params

/-- A result with its attributes. -/
def result : ByteParse FunctionResult := do
  let ty ← type source limits
  let attributes ← optionalAttributes source limits .empty
  return ⟨ty, attributes⟩

/-- Results in parentheses, or one type without attributes. -/
def results : ByteParse (List FunctionResult) := do
  if ← accept source limits .lparen then
    let results ← closedItems source limits .rparen (result source limits)
    let _ ← consume source limits .rparen
    return results
  else return [⟨← type source limits, .empty⟩]

/-- The results after an arrow, if there is one. -/
def resultsClause : ByteParse (List FunctionResult) := do
  if ← accept source limits .arrow then results source limits else return []

/-- The body in braces, if there is one. -/
def functionBody : ByteParse (Option (List Operation)) := do
  if ← accept source limits .lbrace then
    let operations ← itemsUntil source [.rbrace, .eof] (operation source limits)
    let _ ← consume source limits .rbrace
    return some operations
  else return none

/-- A function after its keyword. -/
def functionTail : ByteParse Function := do
  let visibility ← visibility source limits
  let name := dropSigil (← consume source limits .symbolRefId).value.render
  let parameters ← parameters source limits
  let early ← attributesClause source limits .empty
  let results ← resultsClause source limits
  let late ← attributesClause source limits early
  let body ← functionBody source limits
  return ⟨name, visibility, parameters, results, late, body.getD [], body.isSome⟩

/-- A function. -/
def function : ByteParse Function := do
  let _ ← consume source limits .keyword
  functionTail source limits

/-! ## Modules -/

/-- The name of a module, if there is one. -/
def moduleName : ByteParse (Option String) := do
  if ← sees .symbolRefId then
    return some (dropSigil (← advance source limits .structural).value.render)
  else return none

/-- A function or an operation. -/
def moduleItem : ByteParse ModuleItem := do
  if (← current).startsFunction then return .function (← function source limits)
  else return .operation (← operation source limits)

/-- A module up to its closing brace. -/
def moduleText : ByteParse Graph := do
  let _ ← consumeText source limits .keyword "module"
  let name ← moduleName source limits
  let attributes ← attributesClause source limits .empty
  let _ ← consume source limits .lbrace
  let items ← itemsUntil source [.rbrace, .eof] (moduleItem source limits)
  let _ ← consume source limits .rbrace
  return ⟨name, items.filterMap ModuleItem.function?, items.filterMap ModuleItem.operation?,
    attributes⟩

/-- A module with nothing behind it. -/
def graph : ByteParse Graph := do
  let g ← moduleText source limits
  let _ ← consume source limits .eof
  return g

end

end ByteParse

/-- The graph of a source or the diagnostic of its first fault, with the tokens that the parser
has gone past. -/
def ByteParser.parse (limits : Limits) (source : String) :
    Option (Except Diagnostic Graph × List Mark) :=
  match ByteLexer.next source.toList limits .start with
  | none => none
  | some (.error d, _) => some (.error (d.inSource source), [])
  | some (.ok t, p) =>
    match ByteParse.graph source.toList limits ⟨p, t, []⟩ with
    | none => none
    | some (.ok g, q) => some (.ok g, q.passed.reverse)
    | some (.error d, q) => some (.error (d.inSource source), q.passed.reverse)

end GenericIR
