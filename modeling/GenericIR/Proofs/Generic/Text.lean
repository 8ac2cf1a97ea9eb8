/-
# The generic form of operations

An operation in generic form is written on one line with all its parts in brackets: the
values it defines, its name as a string literal, its operands, its attributes and its types.
`GenericForm` holds the parts of such an operation with what makes each of them writable, and
`GenericForm.text` is the line.

* `GenericForm.operation` : the operation that a generic form stands for;
* `genericModule` : a module with one function whose body is written in generic form.
-/
import GenericIR.Grammar.Module
import GenericIR.Proofs.Reading

namespace GenericIR

/-! ## Texts that are one token -/

/-- Whether a text is read as one token of a kind that covers the whole text. -/
def LexesAs (limits : Limits) (kind : TokenKind) (text : String) : Prop :=
  ∃ x e, (Lexer.ofSource limits text).Reads [x, e] ∧ x.kind = kind ∧ x.text = text

/-- Whether a text is a value id: a sigil and any characters of ids. -/
def IsValueId (text : String) : Prop :=
  ∃ sigil name, text.toList = sigil :: name ∧ (sigil = '%' ∨ sigil = '$') ∧
    ∀ c ∈ name, isIdChar c

/-- Whether a text is a type of one token, with or without a `!` in front of it. -/
def IsTypeText (limits : Limits) (text : String) : Prop :=
  ∃ token, (LexesAs limits .type token ∨ LexesAs limits .identifier token) ∧
    (text = token ∨ text = "!" ++ token)

/-! ## Values of attributes -/

/-- A value of an attribute that is written as one literal, or not at all. -/
inductive PlainValue where
  | bool (b : Bool)
  | integer (n : Int64)
  | str (s : String)
  | unit
deriving DecidableEq, Repr

/-- A character in a string literal, with a backslash where it needs one. -/
def escaped (c : Char) : List Char := if c = '"' ∨ c = '\\' then ['\\', c] else [c]

/-- A string literal. -/
def quotedText (s : String) : List Char := '"' :: (s.toList.flatMap escaped ++ ['"'])

namespace PlainValue

/-- The attribute value of a name. -/
def value (name : String) : PlainValue → AttributeValue
  | bool b => .bool b
  | integer n => .integer n
  | str s => .str s
  | unit => .unit name

/-- The literal of a value, if it has one. -/
def literal? : PlainValue → Option (List Char)
  | bool b => some (if b then "true".toList else "false".toList)
  | integer n => some (integerText n.toInt)
  | str s => some (quotedText s)
  | unit => none

end PlainValue

/-! ## Lines -/

/-- Texts with a comma and a space between them. -/
def listText : List (List Char) → List Char
  | [] => []
  | t :: ts => t ++ ts.flatMap fun u => ',' :: ' ' :: u

/-- A name with its value, or alone. -/
def entryText (entry : String × PlainValue) : List Char :=
  entry.1.toList ++ (entry.2.literal?.elim [] fun text => " = ".toList ++ text)

/-- An operation in generic form: ids, a name, attributes with distinct names, and types. -/
structure GenericForm (limits : Limits) where
  outputs : List String
  name : String
  inputs : List String
  entries : List (String × PlainValue)
  inputTypes : List String
  outputTypes : List String
  isValueId_outputs : ∀ id ∈ outputs, IsValueId id
  isValueId_inputs : ∀ id ∈ inputs, IsValueId id
  lexesAs_entries : ∀ entry ∈ entries, LexesAs limits .identifier entry.1
  distinct : (entries.map Prod.fst).Nodup
  isTypeText_inputTypes : ∀ type ∈ inputTypes, IsTypeText limits type
  isTypeText_outputTypes : ∀ type ∈ outputTypes, IsTypeText limits type

namespace GenericForm

variable {limits : Limits}

/-- The values of the attributes under their names. -/
def values (op : GenericForm limits) : List (String × AttributeValue) :=
  op.entries.map fun entry => (entry.1, entry.2.value entry.1)

/-- The names of the values are those of the attributes. -/
theorem map_fst_values (op : GenericForm limits) :
    op.values.map Prod.fst = op.entries.map Prod.fst := by
  rw [values, List.map_map]
  rfl

/-- The operation that a generic form stands for. -/
def operation (op : GenericForm limits) : Operation where
  name := op.name
  callee := none
  inputs := op.inputs
  inputTypes := op.inputTypes
  outputs := op.outputs
  outputTypes := op.outputTypes
  attributes := ⟨op.values, op.map_fst_values ▸ op.distinct⟩
  body := none
  regions := none
  location := none
  isConstant := false

/-- The values that are defined with their equals sign, if there are any. -/
def definitionsText (op : GenericForm limits) : List Char :=
  if op.outputs = [] then [] else listText (op.outputs.map String.toList) ++ " = ".toList

/-- The attributes in braces, if there are any. -/
def attributesText (op : GenericForm limits) : List Char :=
  if op.entries = [] then [] else " \x7b".toList ++ (listText (op.entries.map entryText) ++ ['}'])

/-- Types in parentheses. -/
def typesText (types : List String) : List Char :=
  '(' :: (listText (types.map String.toList) ++ [')'])

/-- The line of an operation. -/
def text (op : GenericForm limits) : List Char :=
  op.definitionsText ++ (quotedText op.name ++
    ('(' :: (listText (op.inputs.map String.toList) ++ [')']) ++ (op.attributesText ++
      (" : ".toList ++ (typesText op.inputTypes ++
        (" -> ".toList ++ typesText op.outputTypes))))))

/-- A line with all its parts: ids of both sigils, a quote in the name, an attribute with a value
and one without, and types with and without a mark in front of them. -/
def allParts : GenericForm .standard where
  outputs := ["%r", "$s"]
  name := "a \"b\""
  inputs := ["%0"]
  entries := [("k", .integer (-5)), ("u", .unit)]
  inputTypes := ["!t"]
  outputTypes := ["i32", "tensor<2x!t>"]
  isValueId_outputs := List.forall_mem_cons.mpr
    ⟨⟨'%', ['r'], rfl, Or.inl rfl, List.forall_mem_singleton.mpr rfl⟩,
      List.forall_mem_singleton.mpr
        ⟨'$', ['s'], rfl, Or.inr rfl, List.forall_mem_singleton.mpr rfl⟩⟩
  isValueId_inputs := List.forall_mem_singleton.mpr
    ⟨'%', ['0'], rfl, Or.inl rfl, List.forall_mem_singleton.mpr rfl⟩
  lexesAs_entries := List.forall_mem_cons.mpr
    ⟨⟨_, _, .more rfl (by decide) (.last rfl rfl), rfl, rfl⟩,
      List.forall_mem_singleton.mpr ⟨_, _, .more rfl (by decide) (.last rfl rfl), rfl, rfl⟩⟩
  distinct := by decide
  isTypeText_inputTypes := List.forall_mem_singleton.mpr
    ⟨"t", Or.inr ⟨_, _, .more rfl (by decide) (.last rfl rfl), rfl, rfl⟩, Or.inr rfl⟩
  isTypeText_outputTypes := List.forall_mem_cons.mpr
    ⟨⟨"i32", Or.inr ⟨_, _, .more rfl (by decide) (.last rfl rfl), rfl, rfl⟩, Or.inl rfl⟩,
      List.forall_mem_singleton.mpr ⟨"tensor<2x!t>",
        Or.inl ⟨_, _, .more rfl (by decide) (.last rfl rfl), rfl, rfl⟩, Or.inl rfl⟩⟩

end GenericForm

/-- A module with one function `f`, its operations in generic form on lines of their own. -/
def genericModule {limits : Limits} (ops : List (GenericForm limits)) : String :=
  String.ofList ("module \x7b func @f() \x7b".toList ++
    (ops.flatMap (fun op => '\n' :: op.text) ++ "\n\x7d \x7d".toList))

end GenericIR
