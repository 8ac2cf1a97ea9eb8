/-
# Tokens

A token is a kind with a decoded value and the span it was read from.  Literals carry their
value, the end of the text carries none, and every other token carries text: that of a
string literal after its escapes, that of a sigil id with its sigil.
-/
import GenericIR.Source.Place
import GenericIR.Binary64.Text
import GenericIR.Text.Integer
import GenericIR.Token.Kind

namespace GenericIR

/-! ## Values -/

/-- The decoded value of a token. -/
inductive TokenValue where
  | bool (b : Bool)
  | int (n : Int64)
  | float (x : Binary64)
  | text (s : String)
  | none
deriving DecidableEq, Repr

namespace TokenValue

/-- The text a value carries, if it is no literal. -/
def text? : TokenValue → Option String
  | text s => some s
  | _ => Option.none

/-- The written form of a value. -/
def render : TokenValue → String
  | bool b => if b then "true" else "false"
  | int n => String.ofList (integerText n.toInt)
  | float x => x.render
  | text s => s
  | none => "<eof>"

end TokenValue

/-! ## Tokens -/

/-- A token and where it stands. -/
structure Token where
  kind : TokenKind
  value : TokenValue
  span : Span
deriving DecidableEq, Repr

namespace Token

/-- Whether a token carries exactly this text. -/
def hasText (t : Token) (text : String) : Bool := t.value.text? == some text

/-- The written form of a token in messages: strings in double quotes, other values in
back quotes, and the kind alone where there is no value. -/
def render (t : Token) : String :=
  match t.kind, t.value with
  | k, .none => k.name
  | .stringLiteral, .text s => TokenKind.stringLiteral.name ++ " \"" ++ s ++ "\""
  | k, v => k.name ++ " `" ++ v.render ++ "`"

end Token

end GenericIR
