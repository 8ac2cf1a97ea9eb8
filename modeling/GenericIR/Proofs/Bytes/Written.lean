/-
# What a parser has gone past

The lexemes that a parser has gone past are written one after the other from the start of the
source up to its lookahead.  So the text of any run of them, with the gaps in between, is the
slice of the source from where the first of the run starts to where the last one stops.

* `Parser.Over.advance` : going on keeps a parser over its source;
* `Parser.Over.slice?_eq` : the slice from one lexeme gone past to another one.
-/
import GenericIR.Grammar.Capture
import GenericIR.Proofs.Bytes.Source
import GenericIR.Proofs.Reading

namespace GenericIR

/-! ## Lexemes that are written one after the other -/

/-- The text of lexemes with the gaps before them, where the latest lexeme comes first. -/
def written : List Lexeme → List Char
  | [] => []
  | x :: xs => written xs ++ (x.gap.toList ++ x.text.toList)

/-- Whether lexemes, the latest first, each stand where the text of those before it ends. -/
def Laid : List Lexeme → Prop
  | [] => True
  | x :: xs =>
    x.token.span = .ofText (Place.start.after (written xs ++ x.gap.toList)) x.text.toList ∧ Laid xs

/-- A lexeme stands where the text of those before it ends. -/
theorem Laid.span_eq {x : Lexeme} {later earlier : List Lexeme} (h : Laid (later ++ x :: earlier)) :
    x.token.span = .ofText (Place.start.after (written earlier ++ x.gap.toList)) x.text.toList := by
  induction later with
  | nil => exact h.1
  | cons y later ih => exact ih h.2

/-- A run of lexemes is written behind those before it. -/
theorem written_reverse_append (run earlier : List Lexeme) :
    written (run.reverse ++ earlier) =
      written earlier ++ run.flatMap fun x => x.gap.toList ++ x.text.toList := by
  induction run generalizing earlier with
  | nil => simp
  | cons x run ih =>
      rw [List.reverse_cons, List.append_assoc, List.singleton_append, ih, written,
        List.flatMap_cons, List.append_assoc]

/-- The verbatim text of a run is what is written behind its first gap. -/
theorem gap_append_verbatim (x : Lexeme) (run : List Lexeme) :
    x.gap.toList ++ (verbatim (x :: run)).toList =
      (x :: run).flatMap fun y => y.gap.toList ++ y.text.toList := by
  rw [verbatim, String.toList_append, List.flatMap_cons, List.append_assoc, String.toList_join,
    List.flatMap_map]
  simp only [String.toList_append]

/-! ## Parsers over a source -/

/-- A parser that has come to its lookahead in a source: the lexemes gone past and the lookahead
are written from the start of the source up to the place of the lexer, with nothing skipped. -/
structure Parser.Over (source : List Char) (p : Parser) : Prop where
  skipped : p.skipped = []
  laid : Laid (p.lookahead :: p.passed)
  place : p.lexer.place = Place.start.after (written (p.lookahead :: p.passed))
  source : source = written (p.lookahead :: p.passed) ++ p.lexer.rest

namespace Parser.Over

variable {source : List Char} {p : Parser}

/-- The lexer of a parser stands in the source. -/
theorem stands (h : p.Over source) : p.lexer.place.Stands source p.lexer.rest := by
  refine ⟨_, h.source, ?_⟩
  rw [h.place, Place.offset_after]
  exact Nat.zero_add _

/-- A reading at the start of a source puts a parser over it. -/
theorem ofSource {limits : Limits} {text : String} {x : Lexeme} {l : Lexer}
    (hnext : Lexer.next (.ofSource limits text) = .ok x l) : Over text.toList ⟨l, x, [], []⟩ := by
  obtain ⟨htook, hspan⟩ := Lexer.took_of_next hnext
  refine ⟨rfl, ⟨hspan, trivial⟩, ?_, ?_⟩
  · rw [htook.place, ← Place.after_append]
    rfl
  · show text.toList = _
    rw [written, written, List.nil_append, List.append_assoc, ← htook.rest]
    rfl

/-- A reading behind the lookahead keeps a parser over its source. -/
theorem advance (h : p.Over source) {x : Lexeme} {l : Lexer}
    (hnext : Lexer.next p.lexer = .ok x l) : Over source ⟨l, x, p.lookahead :: p.passed, []⟩ := by
  obtain ⟨htook, hspan⟩ := Lexer.took_of_next hnext
  have hplace := h.place
  have hsource := h.source
  refine ⟨rfl, ⟨?_, h.laid⟩, ?_, ?_⟩
  · rw [hspan, hplace, ← Place.after_append]
  · rw [htook.place, hplace, ← Place.after_append, ← Place.after_append]
    simp only [written, List.append_assoc]
  · rw [hsource, htook.rest]
    simp only [written, List.append_assoc]

/-- The verbatim text of a run of lexemes gone past is the slice from its first lexeme to its
last. -/
theorem slice?_eq (h : p.Over source) {x : Lexeme} {run earlier : List Lexeme}
    (hpassed : p.passed = (x :: run).reverse ++ earlier) :
    slice? source x.token.span.offset
        ((x :: run).getLast (List.cons_ne_nil x run)).token.span.stop =
      some (verbatim (x :: run)).toList := by
  obtain ⟨front, last, hsplit⟩ : ∃ front last, x :: run = front ++ [last] :=
    ⟨_, _, (List.dropLast_concat_getLast (List.cons_ne_nil x run)).symm⟩
  have hlast : (x :: run).getLast (List.cons_ne_nil x run) = last := by
    simp [hsplit]
  have hwritten : written p.passed =
      written earlier ++ x.gap.toList ++ (verbatim (x :: run)).toList := by
    rw [hpassed, written_reverse_append, ← gap_append_verbatim, List.append_assoc]
  -- the first lexeme of the run is the last but the rest of it in the lexemes gone past
  have hfirst : x.token.span.offset = byteLength (written earlier ++ x.gap.toList) := by
    have hlaid := h.laid
    rw [hpassed, List.reverse_cons, List.append_assoc, List.singleton_append, ← List.cons_append]
      at hlaid
    rw [hlaid.span_eq, Span.ofText, Place.offset_after]
    exact Nat.zero_add _
  have hstop : last.token.span.stop = byteLength (written p.passed) := by
    have hlaid := h.laid
    have hpassed' : p.passed = last :: (front.reverse ++ earlier) := by
      rw [hpassed, hsplit, List.reverse_append]
      rfl
    rw [hpassed'] at hlaid ⊢
    rw [hlaid.2.1, Span.stop_ofText, ← Place.after_append, Place.offset_after, written,
      List.append_assoc]
    exact Nat.zero_add _
  rw [hlast]
  refine (slice?_eq_some_iff _ _ _ _).mpr
    ⟨_, p.lookahead.gap.toList ++ p.lookahead.text.toList ++ p.lexer.rest, ?_, hfirst, ?_⟩
  · rw [h.source, written, hwritten]
    simp only [List.append_assoc]
  · rw [hstop, hwritten]

end Parser.Over

end GenericIR
