/-
# A lexer over bytes

The lexer once more, as a program that keeps a byte offset into its source.  It tests single
bytes, goes on by whole characters, slices the source and subtracts offsets and depths, and
each of these steps is checked: a slice that does not stand between two characters and a
subtraction below zero have no result, nor has a loop that takes a turn without going forward.

* `ByteLexer.next` : the next token of a source, if nothing goes wrong on the way.
-/
import GenericIR.Proofs.Bytes.Checked
import GenericIR.Proofs.Bytes.Source
import GenericIR.Scan.Blank
import GenericIR.Scan.Token

namespace GenericIR

/-- A step of the lexer over bytes, whose state is its place. -/
abbrev ByteLexer : Type → Type := Checked Place

namespace ByteLexer

open Checked

/-! ## Checked steps -/

/-- The span from a place up to the lexer. -/
def spanFrom (start : Place) : ByteLexer Span := do
  return ⟨start, ← subtract (← here).offset start.offset⟩

/-- Ends with a fault that covers the text from a place up to the lexer. -/
def fault {α : Type} (start : Place) (f : Fault) : ByteLexer α := do
  throw (Diagnostic.ofFault f (← spanFrom start))

section

variable (source : List Char)

/-- The slice of the source between two places. -/
def textBetween (a b : Place) : ByteLexer (List Char) := ofOption (slice? source a.offset b.offset)

/-- The slice of the source from a place up to the lexer. -/
def textSince (start : Place) : ByteLexer (List Char) := do textBetween source start (← here)

/-- The character behind the lexer, which slices the source there. -/
def peek : ByteLexer (Option Char) := do
  return (← ofOption (textFrom? source (← here).offset)).head?

/-- Goes on by a whole character, unless the lexer is at the end. -/
def advance : ByteLexer Unit := do
  match ← peek source with
  | some c => goTo ((← here).step c)
  | none => return ()

/-- The byte some bytes ahead of the lexer, if the source is that long. -/
def byteAhead (n : Nat) : ByteLexer (Option UInt8) := do
  return byteAt? source ((← here).offset + n)

/-- Whether there is a byte some bytes ahead and passes a test. -/
def sees (n : Nat) (test : UInt8 → Bool) : ByteLexer Bool := do
  return (← byteAhead source n).any test

/-- How many bytes of the source are left behind a place. -/
def left (p : Place) : Nat := byteLength source - p.offset

/-- Goes on by a whole character if the byte behind the lexer passes a test. -/
def whileTurn (test : UInt8 → Bool) (_ : Unit) : ByteLexer (Flow Unit Unit) := do
  if ← sees source 0 test then
    advance source
    return .again ()
  else return .done ()

/-- Goes on by whole characters for as long as the byte behind the lexer passes a test. -/
def skipWhile (test : UInt8 → Bool) : ByteLexer Unit := loop (left source) (whileTurn source test) ()

/-! ## Tests of bytes -/

end

/-- Whether a byte is an ASCII character. -/
def isByte (c : Char) (b : UInt8) : Bool := b == UInt8.ofNat c.toNat

/-- Whether a byte is a decimal digit. -/
def isDigitByte : UInt8 → Bool := asciiByte Char.isDigit

/-- Whether a byte may stand in a value, symbol or caret id. -/
def isIdByte : UInt8 → Bool := asciiByte isIdChar

section

variable (source : List Char)

/-- Whether the next two bytes are two ASCII characters. -/
def seesBoth (c d : Char) : ByteLexer Bool := do
  return (← sees source 0 (isByte c)) && (← sees source 1 (isByte d))

/-! ## Blanks and comments -/

/-- One turn over a block comment behind its opening mark. -/
def blockTurn (_ : Unit) : ByteLexer (Flow Unit Unit) := do
  if (← byteAhead source 0).isNone then return .done ()
  else if ← seesBoth source '*' '/' then
    advance source
    advance source
    return .done ()
  else
    advance source
    return .again ()

/-- Goes over a block comment behind its opening mark. -/
def skipBlock : ByteLexer Unit := loop (left source) (blockTurn source) ()

/-- Goes over blank characters and one comment, if there is one behind them. -/
def blanksTurn (_ : Unit) : ByteLexer (Flow Unit Unit) := do
  skipWhile source (asciiByte isBlank)
  if ← seesBoth source '/' '/' then
    skipWhile source fun b => !isByte '\n' b
    return .again ()
  else if ← seesBoth source '/' '*' then
    advance source
    advance source
    skipBlock source
    return .again ()
  else return .done ()

/-- Goes over blanks and comments. -/
def skipBlanks : ByteLexer Unit := loop (left source) (blanksTurn source) ()

/-! ## Quoted text -/

/-- One character of a text in quotes behind the decoded text before it. -/
def quotedTurn (start : Place) (value : List Char) : ByteLexer (Flow (List Char) (List Char)) := do
  match ← peek source with
  | none => fault start .unterminatedString
  | some c =>
    advance source
    if c = '"' then return .done value
    else if c = '\\' then
      match ← peek source with
      | none => fault start .unterminatedString
      | some d =>
        advance source
        return .again (value ++ [unescape d])
    else return .again (value ++ [c])

/-- The decoded text up to the closing quote. -/
def quotedBody (start : Place) : ByteLexer (List Char) := loop (left source) (quotedTurn source start) []

/-! ## Numerals -/

/-- Goes over a sign, if there is one. -/
def skipSign : ByteLexer (List Char) := do
  let sign := signPart (← peek source).toList
  if sign = [] then return []
  else
    advance source
    return sign

/-- What a numeral means with the value that its digits are read as, if they are. -/
def readNumeral (start : Place) (kind : TokenKind) : Option TokenValue → ByteLexer Meaning
  | none => do fault start (.invalidNumber (String.ofList (← textSince source start)))
  | some value => return (kind, value)

/-- A hexadecimal integer from its `x` on. -/
def hexadecimal (start : Place) (sign : List Char) : ByteLexer Meaning := do
  advance source
  let first ← here
  skipWhile source (asciiByte isHexDigit)
  let digits ← textSince source first
  readNumeral source start .hexadecimalLiteral ((hexInteger? sign digits).map .int)

/-- Goes over a power of ten, if there is one. -/
def skipPower : ByteLexer Unit := do
  let next ← peek source
  if next = some 'e' ∨ next = some 'E' then
    let signed ← sees source 1 fun b => isByte '+' b || isByte '-' b
    if ← sees source (if signed then 2 else 1) isDigitByte then
      advance source
      if signed then
        advance source
        skipWhile source isDigitByte
      else skipWhile source isDigitByte
    else return ()
  else return ()

/-- A float from its point on. -/
def fractional (start : Place) (sign whole : List Char) : ByteLexer Meaning := do
  advance source
  let first ← here
  skipWhile source isDigitByte
  let last ← here
  skipPower source
  let fraction ← textBetween source first last
  let power ← textSince source last
  let text := normalFloat sign whole fraction power
  readNumeral source start .floatLiteral ((Binary64.ofText? text).map .float)

/-- A decimal integer behind its digits. -/
def integral (start : Place) : ByteLexer Meaning := do
  let text ← textSince source start
  let sign := signPart text
  let digits := text.drop sign.length
  readNumeral source start .integerLiteral ((decimalInteger? sign digits).map .int)

/-- A numeral. -/
def numeral (start : Place) : ByteLexer Meaning := do
  let sign ← skipSign source
  let first ← here
  skipWhile source isDigitByte
  let whole ← textSince source first
  let next ← peek source
  if whole = ['0'] ∧ next = some 'x' then hexadecimal source start sign
  else if next = some '.' then fractional source start sign whole
  else integral source start

/-! ## Words and angle bracket forms -/

variable (limits : Limits)

/-- Ends where a depth of angle brackets passes the bound. -/
def checkDepth (start : Place) (depth : Nat) : ByteLexer Unit :=
  if limits.maxNestingDepth < depth then
    fault start (.limitExceeded "type nesting depth" limits.maxNestingDepth)
  else return ()

/-- One character of a word, or of all up to the closing bracket once there was an opening one,
with the depth of brackets before it and whether there was any. -/
def wordTurn (start : Place) : Nat × Bool → ByteLexer (Flow (Nat × Bool) (Nat × Bool))
  | (depth, opened) => do
    match ← peek source with
    | none => return .done (depth, opened)
    | some c =>
      if depth = 0 then
        if c = '<' then
          advance source
          checkDepth limits start 1
          return .again (1, true)
        else if isWordChar c then
          advance source
          return .again (0, opened)
        else return .done (0, opened)
      else
        advance source
        if c = '<' then
          checkDepth limits start (depth + 1)
          return .again (depth + 1, opened)
        else if c = '>' then
          let depth ← subtract depth 1
          return if depth = 0 then .done (0, opened) else .again (depth, opened)
        else return .again (depth, opened)

/-- Goes over a word, and over all up to the closing bracket once there was an opening one.
Gives the depth of brackets at the end, and whether there was any. -/
def skipWord (start : Place) (depth : Nat) (opened : Bool) : ByteLexer (Nat × Bool) :=
  loop (left source) (wordTurn source limits start) (depth, opened)

/-- What a word means that ends at a depth of brackets, with an opening one before or not. -/
def wordEnd (start : Place) (depth : Nat) (opened : Bool) : ByteLexer Meaning := do
  let text ← textSince source start
  if 0 < depth then fault start (.unterminatedType (String.ofList text))
  else if opened then
    return (if "dense".toList <+: text then .dense else .type, .text (String.ofList text))
  else return wordMeaning text

/-- A word, or an angle bracket form. -/
def word (start : Place) : ByteLexer Meaning := do
  let (depth, opened) ← skipWord source limits start 0 false
  wordEnd source start depth opened

/-! ## Ids with a sigil, and marks -/

/-- A token with the text from a place on. -/
def plain (kind : TokenKind) (start : Place) : ByteLexer Meaning := do
  return (kind, .text (String.ofList (← textSince source start)))

/-- A value id. -/
def valueId (start : Place) : ByteLexer Meaning := do
  advance source
  skipWhile source isIdByte
  plain source .valueId start

/-- Goes over a sigil that is repeated. -/
def skipSigil (sigil : Char) : ByteLexer (List Char) := do
  if (← peek source) = some sigil then
    advance source
    return [sigil]
  else return []

/-- One part of a name behind the decoded text before it, with the number of the part. -/
def partTurn (start : Place) (sigil : Char) :
    List Char × Nat → ByteLexer (Flow (List Char × Nat) (List Char))
  | (name, count) => do
    let next ← peek source
    if sigil = '@' ∧ next = some '"' then
      advance source
      return .done (name ++ (← quotedBody source start))
    else
      let first ← here
      skipWhile source isIdByte
      let part ← textSince source first
      if ← seesBoth source ':' ':' then
        if limits.maxSymbolSegments < count + 1 then
          fault start (.limitExceeded "qualified reference segments" limits.maxSymbolSegments)
        else
          advance source
          advance source
          let again ← skipSigil source sigil
          return .again (name ++ part ++ ':' :: ':' :: again, count + 1)
      else return .done (name ++ part)

/-- The parts of a name after its sigil, as they are decoded. -/
def parts (start : Place) (sigil : Char) : ByteLexer (List Char) :=
  loop (left source) (partTurn source limits start sigil) ([], 1)

/-- A symbol or a block label. -/
def reference (start : Place) (sigil : Char) (kind : TokenKind) : ByteLexer Meaning := do
  let name ← parts source limits start sigil
  return (kind, .text (String.ofList (sigil :: name)))

/-- A block label. -/
def label (start : Place) : ByteLexer Meaning := do
  advance source
  if (← peek source) = some ':' ∧ ¬ (← sees source 1 (isByte ':')) then
    advance source
    plain source .caretId start
  else reference source limits start '^' .caretId

/-- A mark of one or two characters. -/
def mark (start : Place) (c : Char) : ByteLexer Meaning := do
  advance source
  let next ← peek source
  if c = '-' ∧ next = some '>' then
    advance source
    plain source .arrow start
  else if c = ':' ∧ next = some ':' then
    advance source
    plain source .doubleColon start
  else if c = '=' ∧ next = some '=' then
    advance source
    plain source .equalEqual start
  else plain source (markKind c) start

/-! ## Tokens -/

/-- What the token means that starts at a place with a character. -/
def meaning (start : Place) (c : Char) : ByteLexer Meaning := do
  let digit ← sees source 1 isDigitByte
  if c.isDigit || ((c == '.' || c == '-' || c == '+') && digit) then numeral source start
  else if c = '"' then
    advance source
    let text ← quotedBody source start
    return (.stringLiteral, .text (String.ofList text))
  else if isWordStart c then word source limits start
  else if c = '@' then
    advance source
    reference source limits start '@' .symbolRefId
  else if c = '%' ∨ c = '$' then valueId source start
  else if c = '^' then label source limits start
  else mark source start c

/-- The next token, the end of the source included. -/
def next : ByteLexer Token := do
  skipBlanks source
  match ← peek source with
  | none => return ⟨.eof, .none, ⟨← here, 0⟩⟩
  | some c =>
    let start ← here
    let (kind, value) ← meaning source limits start c
    return ⟨kind, value, ← spanFrom start⟩

end

end ByteLexer

end GenericIR
