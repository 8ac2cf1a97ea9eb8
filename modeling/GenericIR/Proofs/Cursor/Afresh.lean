/-
# Reading on is reading afresh

All that a lexer keeps between calls is its place and the text behind it.  So what it reads next is
what a new lexer reads first in that text by itself, with the places in that text counted from where
the text starts in the source.  The same holds of the lexer over bytes, which has the whole source
in its hands and slices it at offsets from the start of it.

* `Place.beyond` : the places of a text that stands behind a place;
* `Place.relocates_beyond` : going over a text comes to the same in the text and in the source;
* `Lexer.afresh_of_reachable` : readings of any lexer that calls leave behind.
-/
import GenericIR.Proofs.Bytes.Reading
import GenericIR.Proofs.Cursor.Reachable
import GenericIR.Proofs.Cursor.Relocated

namespace GenericIR

/-! ## Places behind a place -/

/-- A place of a text that stands in a source behind another place.  The first line of the text goes
on with the line of that place, so the columns in it move on; all other lines keep their columns. -/
def Place.beyond (base p : Place) : Place :=
  ⟨p.offset + base.offset, p.line + (base.line - 1),
    if p.line = 1 then p.col + (base.col - 1) else p.col⟩

namespace Place

variable (base : Place)

/-- The start of the text is the place that it stands behind. -/
theorem beyond_start (hline : 1 ≤ base.line) (hcol : 1 ≤ base.col) : base.beyond start = base := by
  show (⟨0 + base.offset, 1 + (base.line - 1), 1 + (base.col - 1)⟩ : Place) = base
  rw [Nat.zero_add, Nat.add_sub_cancel' hline, Nat.add_sub_cancel' hcol]

/-- One character goes on in the source as it goes on in the text. -/
theorem beyond_step (p : Place) (c : Char) (hp : 1 ≤ p.line) :
    base.beyond (p.step c) = (base.beyond p).step c := by
  by_cases hc : c = '\n'
  · have hline : p.line + 1 ≠ 1 := by omega
    simp only [step, beyond, if_pos hc, if_neg hline, Place.mk.injEq, and_true]
    omega
  · simp only [step, beyond, if_neg hc, Place.mk.injEq]
    refine ⟨by omega, trivial, ?_⟩
    split
    · omega
    · rfl

/-- Any text goes on in the source as it goes on in the text. -/
theorem relocates_beyond {p : Place} (hp : 1 ≤ p.line) : p.Relocates base.beyond := by
  refine .of_step (P := fun p => 1 ≤ p.line) (fun p c hp => ?_) base.beyond_step hp
  -- no character leads back to before the first line
  unfold step
  split
  · exact Nat.le_add_left 1 p.line
  · exact hp

/-- A place of a source is a line and a column from one on. -/
theorem CountedIn.beyond_start {source : String} {p : Place} (h : p.CountedIn source) :
    p.beyond start = p :=
  p.beyond_start (h.line ▸ Nat.le_add_right 1 _) (h.col ▸ Nat.le_add_right 1 _)

end Place

/-! ## Readings over bytes -/

/-- What a reading over bytes comes to at other places. -/
def ByteLexer.relocated (f : Place → Place) :
    Except Diagnostic Token × Place → Except Diagnostic Token × Place
  | (.ok t, p) => (.ok (t.relocated f), f p)
  | (.error d, p) => (.error (d.relocated f), f p)

/-- A reading gives a reading over bytes at other places what that one comes to there. -/
theorem ByteLexer.ofReading_relocated (f : Place → Place)
    (r : EStateM.Result Diagnostic Lexer Lexeme) :
    ofReading (Lexer.relocatedResult f (Lexeme.relocated f) r) = relocated f (ofReading r) := by
  cases r <;> rfl

namespace Lexer

/-! ## Any lexer that calls leave behind -/

section

variable {limits : Limits} {source : String} {l : Lexer}

/-- A lexer that calls have left behind stands in front of a text as a new lexer does, at the places
of that text in the source. -/
theorem Reachable.eq_relocated (h : Reachable limits source l) :
    l = (ofSource limits (String.ofList l.rest)).relocated l.place.beyond := by
  have hstart : l.place.beyond .start = l.place := h.reached.countedIn.beyond_start
  show l = ⟨limits, l.place.beyond .start, (String.ofList l.rest).toList⟩
  rw [hstart, String.toList_ofList, ← h.limits_eq]

/-- The text that such a lexer stands in front of is the source from its offset on. -/
theorem Reachable.exists_front (h : Reachable limits source l) :
    ∃ front, source = front ++ String.ofList l.rest ∧ l.place.offset = front.utf8ByteSize := by
  obtain ⟨front, hsource, hoffset⟩ := h.reached.stands
  refine ⟨String.ofList front, ?_, ?_⟩
  · rw [← String.ofList_append, ← hsource, String.ofList_toList]
  · rw [hoffset, ← byteLength_toList, String.toList_ofList]

/-- The lexer over bytes reads at the place of such a lexer what that lexer reads. -/
theorem Reachable.next_bytes (h : Reachable limits source l) :
    ByteLexer.next source.toList limits l.place = some (ByteLexer.ofReading (next l)) := by
  rw [← h.limits_eq]
  exact ByteLexer.next_eq l h.reached.stands

/-- A lexer that calls have left behind in a source, calls with an error among them, reads what a
new lexer with the same limits reads in the source from its offset on.  It gives the same lexeme or
the same fault and moves by as many bytes.  Spans keep their lengths; their offsets are larger by
the offset of the lexer and their lines by the lines before its own, and columns by the columns
before its own where they are in the first line of the new source.  So it is with a reading, with
tokenizing, and with a reading of the lexer over bytes. -/
theorem afresh_of_reachable (limits : Limits) (source : String) (l : Lexer)
    (h : Reachable limits source l) :
    ∃ front rest : String, source = front ++ rest ∧ l.place.offset = front.utf8ByteSize ∧
      next l = relocatedResult l.place.beyond (Lexeme.relocated l.place.beyond)
        (next (.ofSource limits rest)) ∧
      tokenize l = relocatedResult l.place.beyond (List.map (Token.relocated l.place.beyond))
        (tokenize (.ofSource limits rest)) ∧
      ∃ r, ByteLexer.next rest.toList limits .start = some r ∧
        ByteLexer.next source.toList limits l.place =
          some (ByteLexer.relocated l.place.beyond r) := by
  obtain ⟨front, hsource, hoffset⟩ := h.exists_front
  -- the lexer is the new one with its places taken for those in the source
  have hrelocates : (ofSource limits (String.ofList l.rest)).place.Relocates l.place.beyond :=
    l.place.relocates_beyond (Nat.le_refl 1)
  have hnext := next_relocated hrelocates
  have htokenize := tokenize_relocated hrelocates
  rw [← h.eq_relocated] at hnext htokenize
  have hnew : Reachable limits (String.ofList l.rest) (ofSource limits (String.ofList l.rest)) :=
    .start
  refine ⟨front, String.ofList l.rest, hsource, hoffset, hnext, htokenize, _, hnew.next_bytes, ?_⟩
  rw [h.next_bytes, hnext, ByteLexer.ofReading_relocated]

/-- A lexer that has read a string with a letter of two bytes, then a number with no digits, and now
faces a string with a line feed in it.  A new lexer reads that string at offset 1, in the second
column of its first line, and stops in the third column of its second line. -/
theorem afresh_behind_error :
    Reachable .standard "\"é\"\n0x \"b\nc\""
      ⟨.standard, ⟨7, 2, 3⟩, [' ', '"', 'b', '\n', 'c', '"']⟩ ∧
    next (.ofSource .standard " \"b\nc\"") =
      .ok ⟨" ", "\"b\nc\"", ⟨.stringLiteral, .text "b\nc", ⟨⟨1, 1, 2⟩, 5⟩⟩⟩
        ⟨.standard, ⟨6, 2, 3⟩, []⟩ ∧
    next ⟨.standard, ⟨7, 2, 3⟩, [' ', '"', 'b', '\n', 'c', '"']⟩ =
      .ok ⟨" ", "\"b\nc\"", ⟨.stringLiteral, .text "b\nc", ⟨⟨8, 2, 4⟩, 5⟩⟩⟩
        ⟨.standard, ⟨13, 3, 3⟩, []⟩ := by
  have hafter : after next (after next (.ofSource .standard "\"é\"\n0x \"b\nc\"")) =
      ⟨.standard, ⟨7, 2, 3⟩, [' ', '"', 'b', '\n', 'c', '"']⟩ := by cbv
  have h : Reachable .standard "\"é\"\n0x \"b\nc\""
      ⟨.standard, ⟨7, 2, 3⟩, [' ', '"', 'b', '\n', 'c', '"']⟩ :=
    hafter ▸ Reachable.start.reading.reading
  have hfirst : next (.ofSource .standard " \"b\nc\"") =
      .ok ⟨" ", "\"b\nc\"", ⟨.stringLiteral, .text "b\nc", ⟨⟨1, 1, 2⟩, 5⟩⟩⟩
        ⟨.standard, ⟨6, 2, 3⟩, []⟩ := by cbv
  obtain ⟨front, rest, hsource, hoffset, hnext, _⟩ := afresh_of_reachable .standard _ _ h
  -- only one end of the source is behind seven bytes
  have htext : textFrom? ("\"é\"\n0x \"b\nc\"").toList 7 = some rest.toList := by
    have hseven : 7 = byteLength front.toList := hoffset.trans (byteLength_toList front).symm
    rw [hsource, String.toList_append, hseven, textFrom?_append]
  have hrest : rest = " \"b\nc\"" := by
    have hvalue : textFrom? ("\"é\"\n0x \"b\nc\"").toList 7 = some (" \"b\nc\"").toList := by cbv
    rw [hvalue] at htext
    exact (String.toList_inj.mp (Option.some.inj htext)).symm
  rw [hrest, hfirst] at hnext
  exact ⟨h, hfirst, hnext⟩

end

end Lexer

end GenericIR
