/-
# Readings further down in a text

A lexer looks at the text in front of it and carries its place along.  Where it starts further
down, by some bytes and some lines but in the same column, it reads the same lexemes and comes to
the same error, all of them further down by as much.

* `Place.relocates_lowered` : going over a text from a lower place;
* `Lexer.readAll_lowered` : all readings from a lower place.
-/
import GenericIR.Proofs.Cursor.Relocated

namespace GenericIR

/-! ## Lower places -/

/-- A place that is some bytes and some lines further down, in the same column. -/
def Place.lowered (bytes lines : Nat) (p : Place) : Place :=
  ⟨p.offset + bytes, p.line + lines, p.col⟩

/-- A span whose place is further down. -/
def Span.lowered (bytes lines : Nat) (s : Span) : Span :=
  { s with toPlace := s.toPlace.lowered bytes lines }

/-- A token that stands further down. -/
def Token.lowered (bytes lines : Nat) (t : Token) : Token :=
  { t with span := t.span.lowered bytes lines }

/-- A lexeme whose token stands further down. -/
def Lexeme.lowered (bytes lines : Nat) (x : Lexeme) : Lexeme :=
  { x with token := x.token.lowered bytes lines }

/-- A diagnostic that points further down. -/
def Diagnostic.lowered (bytes lines : Nat) (d : Diagnostic) : Diagnostic :=
  { d with span := d.span.map (Span.lowered bytes lines) }

/-- A lexer that stands further down before the same text. -/
def Lexer.lowered (bytes lines : Nat) (l : Lexer) : Lexer :=
  { l with place := l.place.lowered bytes lines }

section

variable (bytes lines : Nat)

/-- One character goes on from a lower place as it goes on from the place itself. -/
theorem Place.lowered_step (p : Place) (c : Char) :
    (p.step c).lowered bytes lines = (p.lowered bytes lines).step c := by
  unfold Place.step
  split
  · simp only [Place.lowered, Place.mk.injEq, and_true]
    omega
  · simp only [Place.lowered, Place.mk.injEq, and_true]
    omega

/-- A text goes on from a lower place as it goes on from the place itself. -/
theorem Place.relocates_lowered (p : Place) : p.Relocates (Place.lowered bytes lines) :=
  .of_step (P := fun _ => True) (fun _ _ _ => trivial)
    (fun p c _ => p.lowered_step bytes lines c) trivial

/-! ## Readings -/

namespace Lexer

/-- All readings from a lower place give the same, further down. -/
theorem readAll_lowered (l : Lexer) :
    readAll (l.lowered bytes lines) =
      ⟨(readAll l).lexemes.map (Lexeme.lowered bytes lines),
        (readAll l).fault.map (Diagnostic.lowered bytes lines),
        (readAll l).lexer.lowered bytes lines⟩ :=
  readAll_relocated (l.place.relocates_lowered bytes lines)

end Lexer

end

end GenericIR
