/-
# Lines and columns

A place in a source is told by its offset alone: the line counts the line feeds before it, and the
column the bytes since the last of them.  A reader that starts at the start of a source and goes
over all of its text comes to such places only.

* `Place.start_after` : the place behind a text that starts a source;
* `Place.CountedIn` : the formula for the line and the column of an offset;
* `Place.Reached.countedIn` : places that are reached from the start follow the formula.
-/
import Mathlib.Data.List.DropRight
import GenericIR.Proofs.Bytes.Source

namespace GenericIR

/-! ## The last line of a text -/

/-- What a text has behind its last line feed, or the whole text where it has none. -/
def lastLine (text : List Char) : List Char := text.rtakeWhile (· != '\n')

@[simp] theorem lastLine_nil : lastLine [] = [] := rfl

/-- A line feed starts an empty line. -/
@[simp] theorem lastLine_concat_line_feed (text : List Char) : lastLine (text ++ ['\n']) = [] :=
  List.rtakeWhile_concat_neg _ _ _ (by simp)

/-- Any other character goes on with the last line. -/
theorem lastLine_concat {c : Char} (hc : c ≠ '\n') (text : List Char) :
    lastLine (text ++ [c]) = lastLine text ++ [c] :=
  List.rtakeWhile_concat_pos _ _ _ (by simpa using hc)

/-! ## The formula -/

/-- The text of a source before an offset. -/
def textBefore (source : String) (n : Nat) : List Char := (slice? source.toList 0 n).getD []

/-- The text before an offset where a front of the source ends is that front. -/
theorem textBefore_of_eq_append {source : String} {front rest : List Char}
    (h : source.toList = front ++ rest) : textBefore source (byteLength front) = front := by
  have hslice : slice? source.toList 0 (byteLength front) = some front :=
    (slice?_eq_some_iff _ _ _ _).mpr ⟨[], rest, h, rfl, rfl⟩
  rw [textBefore, hslice]
  rfl

namespace Place

/-- A place between two characters of a source, whose line counts the line feeds before it and whose
column counts the bytes since the last of them, both from one. -/
structure CountedIn (source : String) (p : Place) : Prop where
  offset_le : p.offset ≤ source.utf8ByteSize
  isValid : String.Pos.Raw.IsValid source ⟨p.offset⟩
  line : p.line = 1 + (textBefore source p.offset).count '\n'
  col : p.col = 1 + byteLength (lastLine (textBefore source p.offset))

/-- The place behind a text that starts a source, by induction from the end of the text. -/
theorem start_after (text : List Char) :
    start.after text = ⟨byteLength text, 1 + text.count '\n', 1 + byteLength (lastLine text)⟩ := by
  induction text using List.reverseRecOn with
  | nil => rfl
  | append_singleton text c ih =>
      rw [after_append, ih, after_cons, after_nil, step]
      by_cases hc : c = '\n'
      · subst hc
        simp [Nat.add_assoc]
      · rw [if_neg hc, lastLine_concat hc]
        simp [hc, Nat.add_assoc]

/-! ## Places that a reader reaches -/

/-- A place that a reader has reached from the start of a source, with the text it has not read
yet. -/
def Reached (p : Place) (source rest : List Char) : Prop :=
  ∃ front, source = front ++ rest ∧ p = start.after front

namespace Reached

variable {p : Place} {source rest : List Char}

/-- Every reader starts at the start. -/
theorem start (source : List Char) : Place.start.Reached source source := ⟨[], rfl, rfl⟩

/-- Going over a text reaches the place behind it. -/
theorem after {text : List Char} (h : p.Reached source (text ++ rest)) :
    (p.after text).Reached source rest := by
  obtain ⟨front, hsource, rfl⟩ := h
  refine ⟨front ++ text, ?_, (Place.start.after_append front text).symm⟩
  rw [hsource, List.append_assoc]

/-- A reader that has reached a place stands there. -/
theorem stands (h : p.Reached source rest) : p.Stands source rest := by
  obtain ⟨front, hsource, rfl⟩ := h
  refine ⟨front, hsource, ?_⟩
  rw [offset_after]
  exact Nat.zero_add _

/-- A place that is reached follows the formula. -/
theorem countedIn {source : String} (h : p.Reached source.toList rest) : p.CountedIn source := by
  obtain ⟨front, hsource, rfl⟩ := h
  have hvalid : (textFrom? source.toList (byteLength front)).isSome := by
    rw [hsource, textFrom?_append]
    rfl
  rw [start_after]
  constructor
  · show byteLength front ≤ _
    rw [← byteLength_toList, hsource, byteLength_append]
    omega
  · exact (isSome_textFrom?_iff source _).mp hvalid
  · show 1 + front.count '\n' = 1 + (textBefore source (byteLength front)).count '\n'
    rw [textBefore_of_eq_append hsource]
  · show 1 + byteLength (lastLine front) = 1 + byteLength (lastLine (textBefore source _))
    rw [textBefore_of_eq_append hsource]

end Reached

end Place

end GenericIR
