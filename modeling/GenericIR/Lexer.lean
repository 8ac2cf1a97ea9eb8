/-
# The lexer

A lexer is a place in a text with the text after it.  `Lexer.next` reads one lexeme: it
goes over the gap, scans the token behind it, and gives both the span it covers.  A fault
covers the characters scanned so far and the lexer stands behind them, so it can be asked
again.  At the end of the text every reading gives the same empty token.

* `Lexer.length_rest_of_next` : a reading that is not the end of the text moves on;
* `Lexer.readAll` : the readings up to the end of the text or the first fault.
-/
import GenericIR.Scan.Blank
import GenericIR.Scan.Token

namespace GenericIR

/-! ## Lexemes and lexers -/

/-- A token with the text it was read from and the gap before it. -/
structure Lexeme where
  gap : String
  text : String
  token : Token
deriving DecidableEq, Repr

/-- A place in a text, the text from there on, and the bounds that tokens are held to. -/
structure Lexer where
  limits : Limits
  place : Place
  rest : List Char
deriving DecidableEq, Repr

namespace Lexer

/-- A lexer at the start of a source. -/
def ofSource (limits : Limits) (source : String) : Lexer := ⟨limits, .start, source.toList⟩

/-- The lexer after a text that its own text starts with. -/
def skip (l : Lexer) (text : List Char) : Lexer :=
  { l with place := l.place.after text, rest := l.rest.drop text.length }

/-- The text of a lexer up to where a lexer further on stands. -/
def textUpTo (l m : Lexer) : List Char := l.rest.take (l.rest.length - m.rest.length)

/-! ## One reading -/

/-- The lexeme of a scan at a lexer's place, after a gap; the lexer goes on behind it. -/
def take (blank : List Char) (scan : Scan Meaning) : EStateM Diagnostic Lexer Lexeme :=
  fun l =>
    let span := Span.ofText l.place scan.lexeme
    match scan.outcome with
    | .ok (kind, value) =>
      .ok ⟨String.ofList blank, String.ofList scan.lexeme, ⟨kind, value, span⟩⟩
        (l.skip scan.lexeme)
    | .error fault => .error (.ofFault fault span) (l.skip scan.lexeme)

/-- The next lexeme of a text. -/
def next : EStateM Diagnostic Lexer Lexeme := fun l =>
  let blank := gap l.rest
  let l := l.skip blank
  match l.rest with
  | [] => .ok ⟨String.ofList blank, "", ⟨.eof, .none, ⟨l.place, 0⟩⟩⟩ l
  | c :: rest => take blank (scanToken l.limits c rest) l

/-- Taking a scan leaves the text behind its characters. -/
theorem rest_of_take (blank : List Char) (scan : Scan Meaning) (l m : Lexer) (x : Lexeme)
    (h : take blank scan l = .ok x m) : m.rest = l.rest.drop scan.lexeme.length := by
  unfold take at h
  dsimp only at h
  split at h
  · cases h; rfl
  · cases h

/-- No reading goes back. -/
theorem length_rest_le_of_next (l m : Lexer) (x : Lexeme) (h : next l = .ok x m) :
    m.rest.length ≤ l.rest.length := by
  have hle : (l.skip (gap l.rest)).rest.length ≤ l.rest.length := by simp [skip]
  unfold next at h
  dsimp only at h
  split at h
  · cases h
    exact hle
  · rw [rest_of_take _ _ _ _ _ h, List.length_drop]
    omega

/-- A reading that is not the end of the text moves on. -/
theorem length_rest_of_next (l m : Lexer) (x : Lexeme) (h : next l = .ok x m)
    (hx : x.token.kind ≠ .eof) : m.rest.length < l.rest.length := by
  unfold next at h
  dsimp only at h
  split at h
  · cases h
    exact absurd rfl hx
  · next c rest hrest =>
      have hne := lexeme_scanToken_ne_nil (l.skip (gap l.rest)).limits c rest
      have hpos := List.length_pos_iff.mpr hne
      have hle : (l.skip (gap l.rest)).rest.length ≤ l.rest.length := by simp [skip]
      rw [rest_of_take _ _ _ _ _ h, List.length_drop]
      have hcons : 0 < (l.skip (gap l.rest)).rest.length := by simp [hrest]
      omega

/-! ## All readings -/

/-- The lexemes of a text up to its end or to the first fault, and the lexer after them. -/
structure Tokenization where
  lexemes : List Lexeme
  fault : Option Diagnostic
  lexer : Lexer

/-- Reads up to the end of the text or to the first fault. -/
def readAll (l : Lexer) : Tokenization :=
  match _h : next l with
  | .error d m => ⟨[], some d, m⟩
  | .ok x m =>
    if _hx : x.token.kind = .eof then ⟨[x], none, m⟩
    else
      let later := readAll m
      { later with lexemes := x :: later.lexemes }
termination_by l.rest.length
decreasing_by exact length_rest_of_next l m x _h _hx

/-- Reading up to the end is one reading and, where it is not the end, the rest of them. -/
theorem readAll_eq (l : Lexer) :
    readAll l = match next l with
      | .error d m => ⟨[], some d, m⟩
      | .ok x m =>
        if x.token.kind = .eof then ⟨[x], none, m⟩
        else ⟨x :: (readAll m).lexemes, (readAll m).fault, (readAll m).lexer⟩ := by
  rw [readAll]
  split
  · next d m h => rw [h]
  · next x m h =>
      rw [h]
      dsimp only
      split <;> rfl

/-- All tokens of a text, the end of the text last. -/
def tokenize : EStateM Diagnostic Lexer (List Token) := fun l =>
  let all := readAll l
  match all.fault with
  | none => .ok (all.lexemes.map Lexeme.token) all.lexer
  | some d => .error d all.lexer

end Lexer

end GenericIR
