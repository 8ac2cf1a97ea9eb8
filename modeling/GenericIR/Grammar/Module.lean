/-
# Modules

A module is its keyword, an optional symbol, optional attributes, and functions and
operations in braces, with nothing behind them.  `Graph.parse` reads a whole source as one
module and shows the source line with any diagnostic.  What is logged along the way is no part of
the model: no value and no diagnostic depends on it.
-/
import GenericIR.Grammar.Function

namespace GenericIR

/-- An item of a module. -/
inductive ModuleItem where
  | function (f : Function)
  | operation (op : Operation)

namespace ModuleItem

/-- The function of an item that is one. -/
def function? : ModuleItem → Option Function
  | function f => some f
  | operation _ => none

/-- The operation of an item that is one. -/
def operation? : ModuleItem → Option Operation
  | function _ => none
  | operation op => some op

end ModuleItem

/-- Whether a token starts a function: a keyword that ends in `func`. -/
def Token.startsFunction (t : Token) : Bool :=
  t.kind == .keyword &&
    t.value.text?.any fun text => decide ("func".toList <:+ text.toList)

namespace Parse

/-- The name of a module, if there is one. -/
def moduleName : Parse (Option String) := do
  if ← sees .symbolRefId then return some (dropSigil (← advance).valueText) else return none

/-- A function or an operation. -/
def moduleItem : Parse ModuleItem := do
  if (← current).startsFunction then return .function (← function)
  else return .operation (← operation)

/-- A module up to its closing brace. -/
def moduleText : Parse Graph := do
  let _ ← consumeText .keyword "module"
  let name ← moduleName
  let attributes ← attributesClause .empty
  let _ ← consume .lbrace
  let items ← itemsUntil [.rbrace, .eof] moduleItem
  let _ ← consume .rbrace
  return ⟨name, items.filterMap ModuleItem.function?, items.filterMap ModuleItem.operation?,
    attributes⟩

/-- A module with nothing behind it. -/
def graph : Parse Graph := do
  let g ← moduleText
  let _ ← consume .eof
  return g

end Parse

/-- The graph of a source, or the diagnostic of its first fault with its source line. -/
def Graph.parse (limits : Limits) (source : String) : Except Diagnostic Graph :=
  match Parser.ofSource limits source with
  | .error d => .error (d.inSource source)
  | .ok p =>
    match Parse.graph p with
    | .ok g _ => .ok g
    | .error d _ => .error (d.inSource source)

end GenericIR
