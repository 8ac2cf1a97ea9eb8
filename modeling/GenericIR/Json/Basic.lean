/-
# JSON documents and their compact text

A document is written with no blanks.  Strings escape the quote, the backslash and the
characters below the space; doubles are written with the fewest digits that read back,
positionally for powers of ten from -5 to 15, and as `null` where they are not finite.
-/
import GenericIR.Binary64.Text
import GenericIR.Text.Integer

namespace GenericIR

/-- A JSON document; the members of an object are in order. -/
inductive Json where
  | null
  | bool (b : Bool)
  | integer (n : Int)
  | float (x : Binary64)
  | string (s : String)
  | array (items : List Json)
  | object (members : List (String × Json))
deriving Inhabited

namespace Json

/-! ## Leaves -/

/-- A character inside a string. -/
def escape (c : Char) : List Char :=
  if c = '"' then ['\\', '"']
  else if c = '\\' then ['\\', '\\']
  else if c = '\x08' then ['\\', 'b']
  else if c = '\x0c' then ['\\', 'f']
  else if c = '\n' then ['\\', 'n']
  else if c = '\r' then ['\\', 'r']
  else if c = '\t' then ['\\', 't']
  else if c.toNat < 32 then ['\\', 'u', '0', '0', Nat.digitChar (c.toNat / 16),
    Nat.digitChar (c.toNat % 16)]
  else [c]

/-- A string in quotes. -/
def stringText (s : String) : List Char := '"' :: s.toList.flatMap escape ++ ['"']

/-- Documents write whole doubles with `.0` and take a tie to the even digit. -/
def floatStyle : FloatStyle := ⟨.toEven, fun e => decide (-5 ≤ e ∧ e ≤ 15), true⟩

/-- A double. -/
def floatText (x : Binary64) : List Char :=
  if x.isFinite then x.finiteText floatStyle else "null".toList

/-! ## Documents -/

mutual

/-- The compact text of a document. -/
def text : Json → List Char
  | null => "null".toList
  | bool b => (if b then "true" else "false").toList
  | integer n => integerText n
  | float x => floatText x
  | string s => stringText s
  | array items => '[' :: itemsText items ++ [']']
  | object members => '{' :: membersText members ++ ['}']

/-- The items of an array, with commas between them. -/
def itemsText : List Json → List Char
  | [] => []
  | [item] => item.text
  | item :: items => item.text ++ ',' :: itemsText items

/-- The members of an object, with commas between them. -/
def membersText : List (String × Json) → List Char
  | [] => []
  | [(name, value)] => stringText name ++ ':' :: value.text
  | (name, value) :: members =>
    stringText name ++ ':' :: value.text ++ ',' :: membersText members

end

/-- The compact text of a document, as a string. -/
def render (j : Json) : String := String.ofList j.text

/-! ## Constructions -/

/-- A value, or `null` where there is none. -/
def ofOption {α : Type} (encode : α → Json) : Option α → Json
  | some a => encode a
  | none => null

/-- An array of encoded values. -/
def ofList {α : Type} (encode : α → Json) (items : List α) : Json := array (items.map encode)

/-- The member of an object with a given name. -/
def member? : Json → String → Option Json
  | object members, name => members.lookup name
  | _, _ => none

end Json

end GenericIR
