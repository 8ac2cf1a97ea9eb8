/-
# Graphs and their documents

A graph is determined by the text of its document up to its doubles that are not finite,
which are all written as `null`.  This holds of the texts of the program, and of those with
any other printer of finite doubles that keeps to the number grammar and tells them apart.

* `Graph.Alike` : graphs that agree field by field but for doubles that are not finite;
* `Graph.render_eq_iff` : graphs have the same text exactly if they are alike.
-/
import GenericIR.Json.Graph
import GenericIR.Proofs.Binary64.Text

namespace GenericIR

/-! ## The texts of the program -/

namespace Json

mutual

/-- The program writes documents with the shortest numbers that read back. -/
theorem text_eq_textWith : (j : Json) → j.text = j.textWith floatStyle.printer
  | null => rfl
  | bool b => by cases b <;> rfl
  | integer n => rfl
  | float x => (word_floatStyle_printer x).symm
  | string s => rfl
  | array items => by
      rw [text, itemsText_eq items]
      rfl
  | object members => by
      rw [text, membersText_eq members]
      rfl

/-- The items of an array are written with commas between them. -/
theorem itemsText_eq : (items : List Json) →
    itemsText items = commas (Written.itemTexts (writtenItems floatStyle.printer items))
  | [] => rfl
  | [item] => text_eq_textWith item
  | item :: next :: items => by
      have hitem := text_eq_textWith item
      have hitems := itemsText_eq (next :: items)
      rw [itemsText, hitem, hitems]
      · rfl
      · simp

/-- The members of an object are written with commas between them. -/
theorem membersText_eq : (members : List (String × Json)) →
    membersText members = commas (Written.memberTexts (writtenMembers floatStyle.printer members))
  | [] => rfl
  | [(name, value)] => by
      have hvalue := text_eq_textWith value
      rw [membersText, hvalue]
      rfl
  | (name, value) :: next :: members => by
      have hvalue := text_eq_textWith value
      have hmembers := membersText_eq (next :: members)
      rw [membersText, hvalue, hmembers]
      · rfl
      · simp

end

/-- Texts of the program are equal where the documents with its numbers are. -/
theorem render_eq_iff_textWith (j k : Json) :
    j.render = k.render ↔ j.textWith floatStyle.printer = k.textWith floatStyle.printer := by
  rw [render, render, String.ofList_inj, text_eq_textWith, text_eq_textWith]

end Json

/-! ## Graphs that are alike -/

/-- Two values that are equal or two doubles that are not finite. -/
def AttributeValue.Alike : AttributeValue → AttributeValue → Prop
  | .float x, .float y => x.Alike y
  | v, w => v = w

/-- Two dictionaries with the same names in the same order and values that are alike. -/
def Attributes.Alike (as bs : Attributes) : Prop :=
  List.Forall₂ (fun a b => a.1 = b.1 ∧ a.2.Alike b.2) as.entries bs.entries

/-- Two operations that agree but for doubles among their attributes. -/
@[mk_iff]
structure Operation.Alike (a b : Operation) : Prop where
  name : a.name = b.name
  callee : a.callee = b.callee
  inputs : a.inputs = b.inputs
  inputTypes : a.inputTypes = b.inputTypes
  outputs : a.outputs = b.outputs
  outputTypes : a.outputTypes = b.outputTypes
  attributes : a.attributes.Alike b.attributes
  body : a.body = b.body
  regions : a.regions = b.regions
  location : a.location = b.location
  isConstant : a.isConstant = b.isConstant

/-- Two parameters that agree but for doubles among their attributes. -/
@[mk_iff]
structure Parameter.Alike (a b : Parameter) : Prop where
  name : a.name = b.name
  type : a.type = b.type
  attributes : a.attributes.Alike b.attributes
  location : a.location = b.location

/-- Two results that agree but for doubles among their attributes. -/
@[mk_iff]
structure FunctionResult.Alike (a b : FunctionResult) : Prop where
  type : a.type = b.type
  attributes : a.attributes.Alike b.attributes

/-- Two functions that agree but for doubles among their attributes. -/
@[mk_iff]
structure Function.Alike (a b : Function) : Prop where
  name : a.name = b.name
  visibility : a.visibility = b.visibility
  parameters : List.Forall₂ Parameter.Alike a.parameters b.parameters
  results : List.Forall₂ FunctionResult.Alike a.results b.results
  attributes : a.attributes.Alike b.attributes
  operations : List.Forall₂ Operation.Alike a.operations b.operations
  hasBody : a.hasBody = b.hasBody

/-- Two graphs that agree field by field, item by item and in the order of their attributes,
but for doubles that are not finite. -/
@[mk_iff]
structure Graph.Alike (a b : Graph) : Prop where
  name : a.name = b.name
  functions : List.Forall₂ Function.Alike a.functions b.functions
  operations : List.Forall₂ Operation.Alike a.operations b.operations
  attributes : a.attributes.Alike b.attributes

/-! ## What the documents tell apart -/

section

variable {printer : Json.FloatPrinter}

/-- Attribute values are told apart unless they are alike. -/
theorem AttributeValue.written_eq_iff (v w : AttributeValue) :
    v.toJson.written printer = w.toJson.written printer ↔ v.Alike w := by
  cases v <;> cases w <;> simp [toJson, Alike, Int64.toInt_inj]

/-- Dictionaries are told apart unless they are alike. -/
@[simp]
theorem Attributes.written_eq_iff (as bs : Attributes) :
    as.toJson.written printer = bs.toJson.written printer ↔ as.Alike bs := by
  rw [toJson, toJson, Json.written_object_eq_iff, List.forall₂_map_left_iff,
    List.forall₂_map_right_iff]
  simp only [AttributeValue.written_eq_iff, Alike]

/-- Operations are told apart unless they are alike. -/
theorem Operation.written_eq_iff (a b : Operation) :
    a.toJson.written printer = b.toJson.written printer ↔ a.Alike b := by
  simp [toJson, alike_iff]

/-- Parameters are told apart unless they are alike. -/
theorem Parameter.written_eq_iff (a b : Parameter) :
    a.toJson.written printer = b.toJson.written printer ↔ a.Alike b := by
  simp [toJson, alike_iff]

/-- Results are told apart unless they are alike. -/
theorem FunctionResult.written_eq_iff (a b : FunctionResult) :
    a.toJson.written printer = b.toJson.written printer ↔ a.Alike b := by
  simp [toJson, alike_iff]

/-- Functions are told apart unless they are alike. -/
theorem Function.written_eq_iff (a b : Function) :
    a.toJson.written printer = b.toJson.written printer ↔ a.Alike b := by
  simp [toJson, alike_iff, Json.written_ofList_eq_iff Parameter.written_eq_iff,
    Json.written_ofList_eq_iff FunctionResult.written_eq_iff,
    Json.written_ofList_eq_iff Operation.written_eq_iff]

/-- Graphs are told apart unless they are alike. -/
theorem Graph.written_eq_iff (a b : Graph) :
    a.toJson.written printer = b.toJson.written printer ↔ a.Alike b := by
  simp [toJson, alike_iff, Json.written_ofList_eq_iff Function.written_eq_iff,
    Json.written_ofList_eq_iff Operation.written_eq_iff]

end

/-- Graphs have the same text exactly if they are alike, in the program and with any printer of
doubles. -/
theorem Graph.render_eq_iff (a b : Graph) :
    (∀ printer : Json.FloatPrinter,
        a.toJson.textWith printer = b.toJson.textWith printer ↔ a.Alike b) ∧
      (a.toJson.render = b.toJson.render ↔ a.Alike b) := by
  have hwith : ∀ printer : Json.FloatPrinter,
      a.toJson.textWith printer = b.toJson.textWith printer ↔ a.Alike b := by
    intro printer
    rw [Json.textWith_eq_iff, written_eq_iff]
  refine ⟨hwith, ?_⟩
  rw [Json.render_eq_iff_textWith, hwith]

-- Infinity and a not-a-number are written alike, and apart from the largest finite double.
example : (AttributeValue.float ⟨0x7FF0000000000000⟩).Alike (.float ⟨0xFFF8000000000000⟩) ∧
    ¬(AttributeValue.float ⟨0x7FF0000000000000⟩).Alike (.float ⟨0x7FEFFFFFFFFFFFFF⟩) :=
  ⟨.inr (by decide), fun h => h.elim (by decide) (by decide)⟩

end GenericIR
