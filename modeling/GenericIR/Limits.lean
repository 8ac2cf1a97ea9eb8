/-
# Limits

Bounds on how much nesting and how long a reference is accepted.  Nothing here guards a
stack: every depth is a counter, and the bounds cut off hostile inputs.
-/

namespace GenericIR

/-- The bounds of one reading. -/
structure Limits where
  /-- Deepest nesting of angle brackets in a type, and of brackets in an attribute value, a
  body, a region group or a location. -/
  maxNestingDepth : Nat
  /-- Most parts of one symbol or caret reference. -/
  maxSymbolSegments : Nat
deriving DecidableEq, Repr

namespace Limits

/-- The bounds that hold when none are given. -/
def standard : Limits := ⟨256, 32⟩

instance : Inhabited Limits := ⟨standard⟩

/-- The same limits with another depth of nesting. -/
def withMaxNestingDepth (l : Limits) (depth : Nat) : Limits := { l with maxNestingDepth := depth }

/-- The same limits with another number of parts. -/
def withMaxSymbolSegments (l : Limits) (segments : Nat) : Limits :=
  { l with maxSymbolSegments := segments }

end Limits

end GenericIR
