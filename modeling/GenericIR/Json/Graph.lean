/-
# Graphs as JSON

Every record is an object with its fields in a fixed order, every dictionary an object in
its own order, and an attribute value an object with one member that names its form.
-/
import GenericIR.Graph.Basic
import GenericIR.Json.Basic

namespace GenericIR

/-! ## Attributes -/

/-- The document of an attribute value. -/
def AttributeValue.toJson : AttributeValue → Json
  | .bool b => .object [("Bool", .bool b)]
  | .integer n => .object [("Integer", .integer n.toInt)]
  | .float x => .object [("Float", .float x)]
  | .str s => .object [("Str", .string s)]
  | .unit s => .object [("Unit", .string s)]
  | .opaqueText s => .object [("Opaque", .string s)]

/-- The document of a dictionary. -/
def Attributes.toJson (as : Attributes) : Json :=
  .object (as.entries.map fun (name, value) => (name, value.toJson))

/-! ## Graphs -/

/-- The document of an operation. -/
def Operation.toJson (op : Operation) : Json :=
  .object [("name", .string op.name), ("callee", .ofOption .string op.callee),
    ("inputs", .ofList .string op.inputs), ("input_types", .ofList .string op.inputTypes),
    ("outputs", .ofList .string op.outputs), ("output_types", .ofList .string op.outputTypes),
    ("attributes", op.attributes.toJson), ("body", .ofOption .string op.body),
    ("regions", .ofOption .string op.regions), ("location", .ofOption .string op.location),
    ("is_constant", .bool op.isConstant)]

/-- The document of a parameter. -/
def Parameter.toJson (p : Parameter) : Json :=
  .object [("name", .string p.name), ("ty", .string p.type),
    ("attributes", p.attributes.toJson), ("location", .ofOption .string p.location)]

/-- The document of a function result. -/
def FunctionResult.toJson (r : FunctionResult) : Json :=
  .object [("ty", .string r.type), ("attributes", r.attributes.toJson)]

/-- The document of a function. -/
def Function.toJson (f : Function) : Json :=
  .object [("name", .string f.name), ("visibility", .ofOption .string f.visibility),
    ("parameters", .ofList Parameter.toJson f.parameters),
    ("results", .ofList FunctionResult.toJson f.results),
    ("attributes", f.attributes.toJson), ("operations", .ofList Operation.toJson f.operations),
    ("has_body", .bool f.hasBody)]

/-- The document of a graph. -/
def Graph.toJson (g : Graph) : Json :=
  .object [("name", .ofOption .string g.name), ("functions", .ofList Function.toJson g.functions),
    ("operations", .ofList Operation.toJson g.operations), ("attributes", g.attributes.toJson)]

end GenericIR
