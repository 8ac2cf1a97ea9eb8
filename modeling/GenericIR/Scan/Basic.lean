/-
# Scans

A scan is what a reader makes of the front of a text: the characters it takes, its lexeme,
and either what they mean or the fault they hold.  A scan knows nothing of places, so one
text is scanned in the same way wherever it stands.
-/
import GenericIR.Diagnostic

namespace GenericIR

/-! ## Classes of characters -/

/-- Characters of value, symbol and caret ids after the sigil. -/
def isIdChar (c : Char) : Bool :=
  c.isAlphanum || c == '_' || c == '$' || c == '.' || c == '-'

/-- Characters that start a word. -/
def isWordStart (c : Char) : Bool := c.isAlpha || c == '_'

/-- Characters of a word, opening angle brackets apart. -/
def isWordChar (c : Char) : Bool :=
  isWordStart c || c.isDigit || c == '$' || c == '>' || c == '-' || c == '.' || c == '*'

/-- Digits to the base sixteen, in either case. -/
def isHexDigit (c : Char) : Bool :=
  c.isDigit || ('a' ≤ c && c ≤ 'f') || ('A' ≤ c && c ≤ 'F')

/-! ## Scans -/

/-- The characters taken from the front of a text, and their meaning or their fault. -/
structure Scan (α : Type) where
  lexeme : List Char
  outcome : Except Fault α
deriving Repr

namespace Scan

/-- A scan that took more characters before. -/
def prepend {α : Type} (front : List Char) (s : Scan α) : Scan α :=
  { s with lexeme := front ++ s.lexeme }

/-- A scan with another meaning. -/
def map {α β : Type} (f : α → β) (s : Scan α) : Scan β :=
  ⟨s.lexeme, s.outcome.map f⟩

@[simp] theorem lexeme_prepend {α : Type} (front : List Char) (s : Scan α) :
    (s.prepend front).lexeme = front ++ s.lexeme := rfl

@[simp] theorem outcome_prepend {α : Type} (front : List Char) (s : Scan α) :
    (s.prepend front).outcome = s.outcome := rfl

@[simp] theorem lexeme_map {α β : Type} (f : α → β) (s : Scan α) :
    (s.map f).lexeme = s.lexeme := rfl

@[simp] theorem outcome_map {α β : Type} (f : α → β) (s : Scan α) :
    (s.map f).outcome = s.outcome.map f := rfl

end Scan

/-! ## What a token means -/

/-- The kind and the value of a token. -/
abbrev Meaning : Type := TokenKind × TokenValue

/-- A scan of a token that carries its own lexeme as text. -/
def Scan.plain (kind : TokenKind) (lexeme : List Char) : Scan Meaning :=
  ⟨lexeme, .ok (kind, .text (String.ofList lexeme))⟩

@[simp] theorem Scan.lexeme_plain (kind : TokenKind) (lexeme : List Char) :
    (Scan.plain kind lexeme).lexeme = lexeme := rfl

end GenericIR
