/-
# Readings at another place

A lexer looks at the text in front of it and only carries its place along.  So its places may be
taken for other ones, as long as going over a text comes to the same either way: the lexer then
reads the same lexemes and comes to the same error, all of them at the other places.

* `Place.Relocates` : going over a text from a place and from the one that it is taken for;
* `Lexer.next_relocated` : one reading;
* `Lexer.readAll_relocated`, `Lexer.tokenize_relocated` : all readings.
-/
import GenericIR.Proofs.Reading

namespace GenericIR

/-! ## Places taken for others -/

/-- A span with its place taken for another one. -/
def Span.relocated (f : Place → Place) (s : Span) : Span := { s with toPlace := f s.toPlace }

/-- A token with its place taken for another one. -/
def Token.relocated (f : Place → Place) (t : Token) : Token := { t with span := t.span.relocated f }

/-- A lexeme with the place of its token taken for another one. -/
def Lexeme.relocated (f : Place → Place) (x : Lexeme) : Lexeme :=
  { x with token := x.token.relocated f }

/-- A diagnostic with the place that it points at taken for another one. -/
def Diagnostic.relocated (f : Place → Place) (d : Diagnostic) : Diagnostic :=
  { d with span := d.span.map (Span.relocated f) }

/-- A lexer before the same text with its place taken for another one. -/
def Lexer.relocated (f : Place → Place) (l : Lexer) : Lexer := { l with place := f l.place }

/-- Any text that is gone over from a place leads to a place that is taken for the one where the
text leads from the other place. -/
def Place.Relocates (f : Place → Place) (p : Place) : Prop :=
  ∀ text, f (p.after text) = (f p).after text

namespace Place.Relocates

variable {f : Place → Place} {p : Place}

/-- So does any text that is gone over behind a text. -/
theorem after (h : p.Relocates f) (text : List Char) : (p.after text).Relocates f := by
  intro behind
  rw [← after_append, h, h, after_append]

/-- What every single character does at places of some kind, which it does not leave, any text does
there, by induction on the text. -/
theorem of_step {P : Place → Prop} (hP : ∀ p c, P p → P (p.step c))
    (hf : ∀ p c, P p → f (p.step c) = (f p).step c) (hp : P p) : p.Relocates f := by
  intro text
  induction text generalizing p with
  | nil => rfl
  | cons c text ih => rw [after_cons, after_cons, ih (hP p c hp), hf p c hp]

end Place.Relocates

namespace Lexer

/-- What a call comes to at other places, where its value becomes another one too. -/
def relocatedResult {α : Type} (f : Place → Place) (g : α → α) :
    EStateM.Result Diagnostic Lexer α → EStateM.Result Diagnostic Lexer α
  | .ok a m => .ok (g a) (m.relocated f)
  | .error d m => .error (d.relocated f) (m.relocated f)

/-! ## One reading -/

section

variable {f : Place → Place} {l : Lexer}

/-- Skipping a text at another place. -/
theorem relocated_skip (h : l.place.Relocates f) (text : List Char) :
    (l.relocated f).skip text = (l.skip text).relocated f := by
  unfold skip relocated
  rw [h]

/-- Taking a scan at another place. -/
theorem take_relocated (h : l.place.Relocates f) (blank : List Char) (scan : Scan Meaning) :
    take blank scan (l.relocated f) =
      relocatedResult f (Lexeme.relocated f) (take blank scan l) := by
  unfold take
  dsimp only
  rw [relocated_skip h]
  cases scan.outcome <;> rfl

/-- One reading at another place gives the same, at other places. -/
theorem next_relocated (h : l.place.Relocates f) :
    next (l.relocated f) = relocatedResult f (Lexeme.relocated f) (next l) := by
  have hgap : gap (l.relocated f).rest = gap l.rest := rfl
  have hrest : ((l.skip (gap l.rest)).relocated f).rest = (l.skip (gap l.rest)).rest := rfl
  have hskip : (l.skip (gap l.rest)).place.Relocates f := h.after (gap l.rest)
  unfold next
  dsimp only
  rw [hgap, relocated_skip h, hrest]
  cases (l.skip (gap l.rest)).rest with
  | nil => rfl
  | cons c rest => exact take_relocated hskip _ _

/-! ## All readings -/

/-- A reading leaves the lexer at a place behind some text, so readings go on from there. -/
theorem relocates_of_next {x : Lexeme} {m : Lexer} (h : l.place.Relocates f)
    (hnext : next l = .ok x m) : m.place.Relocates f := by
  rw [(took_of_next hnext).1.place]
  exact (h.after _).after _

/-- All readings at another place give the same, at other places. -/
theorem readAll_relocated (h : l.place.Relocates f) :
    readAll (l.relocated f) =
      ⟨(readAll l).lexemes.map (Lexeme.relocated f),
        (readAll l).fault.map (Diagnostic.relocated f), (readAll l).lexer.relocated f⟩ := by
  fun_induction readAll l with
  | case1 l d m hnext =>
      rw [readAll_eq, next_relocated h, hnext]
      rfl
  | case2 l x m hnext hx =>
      rw [readAll_eq, next_relocated h, hnext]
      exact if_pos hx
  | case3 l x m hnext hx later ih =>
      rw [readAll_eq, next_relocated h, hnext]
      show (if (x.relocated f).token.kind = .eof then _ else _) = _
      rw [if_neg (show (x.relocated f).token.kind ≠ .eof from hx), ih (relocates_of_next h hnext)]
      rfl

/-- Tokenizing at another place gives the same, at other places. -/
theorem tokenize_relocated (h : l.place.Relocates f) :
    tokenize (l.relocated f) = relocatedResult f (List.map (Token.relocated f)) (tokenize l) := by
  unfold tokenize
  dsimp only
  rw [readAll_relocated h]
  cases (readAll l).fault with
  | none =>
      show EStateM.Result.ok _ _ = EStateM.Result.ok _ _
      rw [List.map_map, List.map_map]
      rfl
  | some d => rfl

end

end Lexer

end GenericIR
