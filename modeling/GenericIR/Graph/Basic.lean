/-
# Graphs

A graph is the content of one module: its operations and its functions in source order,
with attributes.  Values are kept as the ids they are written with, and what is not
structured (types, regions, bodies, locations) as text.
-/
import GenericIR.Graph.Attribute

namespace GenericIR

/-! ## Operations -/

/-- One operation, of a module or of a function. -/
structure Operation where
  name : String
  /-- The symbol before the operands, with its sigil. -/
  callee : Option String
  /-- The operands, of which the last may be a constant. -/
  inputs : List String
  inputTypes : List String
  /-- The value ids that the operation defines. -/
  outputs : List String
  outputTypes : List String
  attributes : Attributes
  /-- The text in braces after the signature. -/
  body : Option String
  /-- The text in parentheses after the operands. -/
  regions : Option String
  location : Option String
  /-- Whether the operation is a constant written without result types. -/
  isConstant : Bool
deriving DecidableEq, Inhabited

namespace Operation

/-- An operation with a name and nothing else. -/
def named (name : String) : Operation :=
  ⟨name, none, [], [], [], [], .empty, none, none, none, false⟩

/-- Whether an operation defines a value. -/
def defines (op : Operation) (value : String) : Bool := op.outputs.contains value

/-- Whether a value is among the operands of an operation. -/
def uses (op : Operation) (value : String) : Bool := op.inputs.contains value

end Operation

/-! ## Functions -/

/-- A parameter of a function. -/
structure Parameter where
  name : String
  type : String
  attributes : Attributes
  location : Option String
deriving DecidableEq

/-- A result of a function. -/
structure FunctionResult where
  type : String
  attributes : Attributes
deriving DecidableEq

/-- A function, or its declaration where it has no body. -/
structure Function where
  name : String
  visibility : Option String
  parameters : List Parameter
  results : List FunctionResult
  attributes : Attributes
  operations : List Operation
  hasBody : Bool
deriving DecidableEq

namespace Function

/-- A function with a name and an empty body. -/
def named (name : String) : Function := ⟨name, none, [], [], .empty, [], true⟩

/-- The function with an operation at the end of its body, a helper like the additions to graphs. -/
def addOperation (f : Function) (op : Operation) : Function :=
  { f with operations := f.operations ++ [op] }

/-- Whether a function has no body. -/
def isDeclaration (f : Function) : Bool := !f.hasBody

/-- The first parameter with a name. -/
def parameter? (f : Function) (name : String) : Option Parameter :=
  f.parameters.find? fun p => p.name == name

/-- The first operation that defines a value. -/
def producer? (f : Function) (value : String) : Option Operation :=
  f.operations.find? fun op => op.defines value

end Function

/-! ## Modules -/

/-- The content of a module. -/
structure Graph where
  name : Option String
  functions : List Function
  /-- The operations outside of functions. -/
  operations : List Operation
  attributes : Attributes
deriving DecidableEq

namespace Graph

/-- A module with nothing in it. -/
def empty : Graph := ⟨none, [], [], .empty⟩

/-! ### Additions

The fields of a graph are open to whoever holds it.  These are helpers for changes to them: the
grammar makes no use of them, and nothing is claimed of them. -/

/-- The graph with a function after its functions. -/
def addFunction (g : Graph) (f : Function) : Graph := { g with functions := g.functions ++ [f] }

/-- The graph with an operation after those of the module. -/
def addOperation (g : Graph) (op : Operation) : Graph :=
  { g with operations := g.operations ++ [op] }

/-- The graph with an operation after those of the function at an index, if there is one. -/
def addOperationTo? (g : Graph) (index : Nat) (op : Operation) : Option Graph :=
  if index < g.functions.length then
    some { g with functions := g.functions.modify index fun f => f.addOperation op }
  else none

/-- The graph with an attribute of the module set. -/
def setAttribute (g : Graph) (name : String) (value : AttributeValue) : Graph :=
  { g with attributes := g.attributes.insert name value }

/-! ### Queries -/

/-- The first function with a name. -/
def function? (g : Graph) (name : String) : Option Function :=
  g.functions.find? fun f => f.name == name

/-- All operations: those of the module, then those of each function. -/
def allOperations (g : Graph) : List Operation :=
  g.operations ++ g.functions.flatMap Function.operations

/-- The number of all operations. -/
def operationCount (g : Graph) : Nat :=
  g.functions.foldl (fun count f => count + f.operations.length) g.operations.length

/-- Every operation is counted once. -/
theorem length_allOperations (g : Graph) : g.allOperations.length = g.operationCount := by
  have hfold : ∀ (fs : List Function) (count : Nat),
      count + (fs.flatMap Function.operations).length =
        fs.foldl (fun count f => count + f.operations.length) count := by
    intro fs
    induction fs with
    | nil => exact fun count => Nat.add_zero count
    | cons f fs ih =>
        intro count
        rw [List.flatMap_cons, List.length_append, List.foldl_cons, ← ih, Nat.add_assoc]
  rw [allOperations, List.length_append, hfold]
  rfl

/-- Whether a graph has no functions, operations or attributes. -/
def isEmpty (g : Graph) : Bool :=
  g.functions.isEmpty && g.operations.isEmpty && g.attributes.isEmpty

end Graph

end GenericIR
