/-
# Limits as JSON

Limits are read from an object in which each bound may be missing, and is then the standard
one; a bound has to be a natural number of at most 64 bits, and other members do not count.
This is for limits that are kept in a document of their own; the lexer and the parser are given
their limits and read none, so nothing else is claimed of these documents.

* `Limits.ofJson?_toJson` : limits read back from the document they are written to.
-/
import GenericIR.Json.Basic
import GenericIR.Limits

namespace GenericIR

/-- The natural number of a document, if it is one of at most 64 bits. -/
def Json.nat64? : Json → Option Nat
  | .integer n => if 0 ≤ n ∧ n < UInt64.size then some n.toNat else none
  | _ => none

/-- A natural number of at most 64 bits is read as itself. -/
theorem Json.nat64?_integer (n : Nat) (h : n < UInt64.size) : (Json.integer n).nat64? = some n := by
  have hn : (0 : Int) ≤ n ∧ (n : Int) < UInt64.size := by omega
  simp only [nat64?, if_pos hn, Int.toNat_natCast]

/-- A bound from an object: the standard one where it is missing, and nothing where it is
not a bound. -/
def Json.bound? (j : Json) (name : String) (standard : Nat) : Option Nat :=
  match j.member? name with
  | some value => value.nat64?
  | none => some standard

namespace Limits

/-- The document of limits. -/
def toJson (l : Limits) : Json :=
  .object [("max_nesting_depth", .integer l.maxNestingDepth),
    ("max_symbol_segments", .integer l.maxSymbolSegments)]

/-- Limits from a document. -/
def ofJson? : Json → Option Limits
  | .object members => do
    let depth ← (Json.object members).bound? "max_nesting_depth" standard.maxNestingDepth
    let segments ← (Json.object members).bound? "max_symbol_segments" standard.maxSymbolSegments
    return ⟨depth, segments⟩
  | _ => none

/-- Limits of at most 64 bits read back from the document they are written to. -/
theorem ofJson?_toJson (l : Limits) (hdepth : l.maxNestingDepth < UInt64.size)
    (hsegments : l.maxSymbolSegments < UInt64.size) : ofJson? l.toJson = some l := by
  have hdepth' : l.toJson.bound? "max_nesting_depth" standard.maxNestingDepth =
      some l.maxNestingDepth := by
    have hmember : l.toJson.member? "max_nesting_depth" =
        some (.integer l.maxNestingDepth) := rfl
    rw [Json.bound?, hmember]
    exact Json.nat64?_integer _ hdepth
  have hsegments' : l.toJson.bound? "max_symbol_segments" standard.maxSymbolSegments =
      some l.maxSymbolSegments := by
    have hmember : l.toJson.member? "max_symbol_segments" =
        some (.integer l.maxSymbolSegments) := rfl
    rw [Json.bound?, hmember]
    exact Json.nat64?_integer _ hsegments
  show (do
    let depth ← l.toJson.bound? "max_nesting_depth" standard.maxNestingDepth
    let segments ← l.toJson.bound? "max_symbol_segments" standard.maxSymbolSegments
    return (⟨depth, segments⟩ : Limits)) = _
  rw [hdepth', hsegments']
  rfl

end Limits

end GenericIR
