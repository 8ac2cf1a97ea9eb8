/-
# Diagnostics

A reading ends at its first fault.  A `Fault` says what went wrong, a `Diagnostic` where it
was, and a diagnostic may carry the source line it points at.  The message is worked out
from these parts in one place: the place in brackets, the wording of the fault, and under
the source line a caret in the column of the place.
-/
import GenericIR.Source.Line
import GenericIR.Token.Basic

namespace GenericIR

/-! ## Faults -/

/-- What can go wrong in a reading. -/
inductive Fault where
  /-- A string literal with no closing quote. -/
  | unterminatedString
  /-- An angle bracket form that is never closed, with its text so far. -/
  | unterminatedType (text : String)
  /-- A number that is not complete or does not fit in 64 bits. -/
  | invalidNumber (text : String)
  /-- A token of another kind than the grammar asks for. -/
  | unexpectedKind (expected : TokenKind) (found : String)
  /-- A token of the right kind with another text than the grammar asks for. -/
  | unexpectedValue (expected found : String)
  /-- A token that nothing in a production can start with. -/
  | unexpectedConstruct (context found : String)
  /-- Brackets that do not close. -/
  | unbalanced (context : String)
  /-- A bound that was passed, with its value. -/
  | limitExceeded (limit : String) (value : Nat)
deriving DecidableEq, Repr

namespace Fault

/-- Whether a fault is of the kinds that only the lexer raises. -/
def isLexical : Fault → Bool
  | unterminatedString | unterminatedType _ | invalidNumber _ => true
  | _ => false

/-- The wording of a fault. -/
def message : Fault → String
  | unterminatedString => "unterminated string literal"
  | unterminatedType text => "unterminated angle-bracket form '" ++ text ++ "'"
  | invalidNumber text => "invalid number literal '" ++ text ++ "'"
  | unexpectedKind expected found => "expected " ++ expected.name ++ ", found " ++ found
  | unexpectedValue expected found => "expected value '" ++ expected ++ "', found " ++ found
  | unexpectedConstruct context found => "unexpected " ++ found ++ " while parsing " ++ context
  | unbalanced context => "unbalanced brackets in " ++ context
  | limitExceeded limit value => limit ++ " exceeded (limit is " ++ toString value ++ ")"

end Fault

/-! ## Diagnostics -/

/-- A fault with the span it points at and the source line shown with it. -/
structure Diagnostic where
  fault : Fault
  span : Option Span
  sourceLine : Option String
deriving DecidableEq, Repr

namespace Diagnostic

/-- The diagnostic of a fault at a span, with no source line yet. -/
def ofFault (fault : Fault) (span : Span) : Diagnostic := ⟨fault, some span, none⟩

/-- The same diagnostic with a source line. -/
def withSourceLine (d : Diagnostic) (line : String) : Diagnostic :=
  { d with sourceLine := some line }

/-- The same diagnostic with the line of a source that its span points at, and unchanged
where it has no span or the source has no such line. -/
def inSource (d : Diagnostic) (source : String) : Diagnostic :=
  match d.span.bind fun s => sourceLine? source s.line with
  | some line => d.withSourceLine line
  | none => d

/-- Showing the line of a source with a diagnostic does not change its fault. -/
@[simp] theorem fault_inSource (d : Diagnostic) (source : String) :
    (d.inSource source).fault = d.fault := by
  unfold inSource
  split <;> rfl

/-- Showing the line of a source with a diagnostic does not change its span. -/
@[simp] theorem span_inSource (d : Diagnostic) (source : String) :
    (d.inSource source).span = d.span := by
  unfold inSource
  split <;> rfl

/-- The full message of a diagnostic, on several lines where it has a source line. -/
def message (d : Diagnostic) : String :=
  let place := match d.span with
    | some s => "[" ++ s.render ++ "] "
    | none => ""
  let caret := match d.span with
    | some s => "\n  | " ++ String.ofList (List.replicate (s.col - 1) ' ') ++ "^"
    | none => ""
  let shown := match d.sourceLine with
    | some line => "\n  | " ++ line ++ caret
    | none => ""
  place ++ d.fault.message ++ shown

end Diagnostic

end GenericIR
