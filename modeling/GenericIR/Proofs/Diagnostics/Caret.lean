/-
# Where the caret stands

A message with a source line ends with a caret under that line, behind as many spaces as the column
of the diagnostic says.  The column counts bytes and a space stands for a character, so the caret is
under the character that the diagnostic is at where only ASCII characters are before it on the line,
and too far to the right where there are others.

* `lineAround_of_not_blank` : what a line has before a point that is at no blank, and at it;
* `Parse.invariant_startsIn` : a diagnostic is at no blank;
* `Diagnostic.lastLine_message` : the last line of a message;
* `Graph.caret_of_parse` : the caret of a source that is no module.
-/
import GenericIR.Proofs.Diagnostics.Located
import GenericIR.Proofs.Layout.Relaid

namespace GenericIR

/-! ## Bytes and characters -/

/-- A text has as many bytes as characters where all of them are ASCII characters. -/
theorem byteLength_eq_length_iff (text : List Char) :
    byteLength text = text.length ↔ ∀ c ∈ text, c.toNat < 128 := by
  induction text with
  | nil => simp
  | cons c text ih =>
      have hpos := c.utf8Size_pos
      have hle := length_le_byteLength text
      rw [List.forall_mem_cons, ← ih, ← utf8Size_eq_one_iff_ascii, byteLength_cons,
        List.length_cons]
      omega

/-! ## A point of a line -/

/-- A carriage return at the end of a line is not taken off what stands before another character. -/
theorem withoutReturn_append_cons (front : List Char) {c : Char} (hc : c ≠ '\r')
    (back : List Char) : withoutReturn (front ++ c :: back) = front ++ c :: withoutReturn back := by
  induction front with
  | nil =>
      cases back with
      | nil => exact withoutReturn_singleton hc
      | cons d back => exact withoutReturn_cons_cons c d back
  | cons b front ih =>
      cases front with
      | nil =>
          show withoutReturn (b :: c :: back) = _
          rw [withoutReturn_cons_cons]
          exact congrArg (b :: ·) ih
      | cons e front =>
          show withoutReturn (b :: e :: (front ++ c :: back)) = _
          rw [withoutReturn_cons_cons]
          exact congrArg (b :: ·) ih

/-- Around a point that is at no blank, a line has all that is before the point, and then the
character at the point, if there is one. -/
theorem lineAround_of_not_blank (front : List Char) {back : List Char}
    (h : ∀ c ∈ back.head?, ¬ isBlank c) :
    lastLine front <+: lineAround front back ∧
      (lineAround front back)[(lastLine front).length]? = back.head? := by
  have hsplit : ∃ rest, lineAround front back = lastLine front ++ rest ∧
      rest.head? = back.head? := by
    unfold lineAround
    by_cases hfeed : '\n' ∈ back
    · cases back with
      | nil => cases hfeed
      | cons c back =>
          have hc : ¬ isBlank c := h c rfl
          have hline : c ≠ '\n' := by rintro rfl; exact hc rfl
          have hreturn : c ≠ '\r' := by rintro rfl; exact hc rfl
          rw [if_pos hfeed, List.takeWhile_cons_of_pos (by simpa using hline),
            withoutReturn_append_cons _ hreturn]
          exact ⟨_, rfl, rfl⟩
    · rw [if_neg hfeed]
      exact ⟨back, rfl, rfl⟩
  obtain ⟨rest, hline, hhead⟩ := hsplit
  rw [hline]
  refine ⟨List.prefix_append _ _, ?_⟩
  rw [List.getElem?_append_right (Nat.le_refl _), Nat.sub_self, ← hhead, List.head?_eq_getElem?]

/-! ## Diagnostics are at no blank -/

/-- A span that starts at the end of a source or at a character that is no blank. -/
def Span.StartsIn (source : List Char) (s : Span) : Prop :=
  ∃ rest, s.toPlace.Reached source rest ∧ ∀ c ∈ rest.head?, ¬ isBlank c

/-- A diagnostic with no source line yet and a span that starts at no blank. -/
def Diagnostic.StartsIn (source : List Char) (d : Diagnostic) : Prop :=
  ∃ s, d.span = some s ∧ d.sourceLine = none ∧ s.StartsIn source

namespace Lexer

variable {source : List Char} {l m : Lexer}

/-- Behind a gap there is no blank. -/
theorem startsIn_gap (h : ReachedIn source l) {s : Span}
    (hs : s.toPlace = l.place.after (gap l.rest)) : s.StartsIn source := by
  have hreached : l.place.Reached source (gap l.rest ++ (l.skip (gap l.rest)).rest) := by
    rw [gap_append_rest_skip]
    exact h
  exact ⟨_, hs ▸ hreached.after, (not_gap_of_gap_eq_nil (gap_drop_gap l.rest)).1⟩

/-- A token starts at no blank. -/
theorem startsIn_of_next (h : ReachedIn source l) {x : Lexeme} (hnext : next l = .ok x m) :
    x.token.span.StartsIn source := by
  apply startsIn_gap h
  rcases next_ok_cases hnext with ⟨_, _, rfl⟩ | ⟨_, _, _, _, _, _, _, rfl⟩ <;> rfl

/-- An error of the lexer starts at no blank. -/
theorem startsIn_of_next_error (h : ReachedIn source l) {d : Diagnostic}
    (hnext : next l = .error d m) : d.StartsIn source := by
  rcases next_cases l with ⟨_, hend⟩ | ⟨c, rest, _, htake⟩
  · rw [hend] at hnext
    cases hnext
  · rw [htake] at hnext
    unfold take at hnext
    dsimp only at hnext
    split at hnext
    · cases hnext
    · cases hnext
      exact ⟨_, rfl, rfl, startsIn_gap h rfl⟩

end Lexer

/-- A parser that has reached its place, with its lookahead at no blank. -/
structure Parser.StartsIn (source : List Char) (p : Parser) : Prop where
  reached : Lexer.ReachedIn source p.lexer
  lookahead : p.lookahead.token.span.StartsIn source

/-- Every lookahead is at no blank, and so is every fault. -/
theorem Parse.invariant_startsIn (source : List Char) :
    Invariant (Parser.StartsIn source) (Diagnostic.StartsIn source) := by
  refine .of_fail (fun p hp => ?_) fun {p fault} hp _ => ⟨_, rfl, rfl, hp.lookahead⟩
  unfold advance
  cases hnext : Lexer.next p.lexer with
  | error d l => exact .error (Lexer.startsIn_of_next_error hp.reached hnext)
  | ok x l =>
      exact .ok ⟨(Lexer.reached_of_next hp.reached hnext).2.1,
        Lexer.startsIn_of_next hp.reached hnext⟩

/-- A source that is no module ends with a diagnostic at no blank, and shows the line of its
span. -/
theorem Graph.exists_startsIn_of_parse {limits : Limits} {source : String} {d : Diagnostic}
    (h : Graph.parse limits source = .error d) :
    ∃ e : Diagnostic, e.StartsIn source.toList ∧ d = e.inSource source := by
  have hstart : Lexer.ReachedIn source.toList (.ofSource limits source) := .start source.toList
  refine Graph.exists_of_parse_error (Parse.invariant_startsIn source.toList)
    (fun p hp => ?_) (fun e he => ?_) h
  · obtain ⟨hnext, _⟩ := Parser.next_of_ofSource hp
    exact ⟨(Lexer.reached_of_next hstart hnext).2.1, Lexer.startsIn_of_next hstart hnext⟩
  · obtain ⟨l, hnext⟩ := Parser.next_of_ofSource_error he
    exact Lexer.startsIn_of_next_error hstart hnext

/-! ## The last line of a message -/

namespace Diagnostic

/-- A line with a caret behind a number of spaces, set off like the source line above it. -/
def caretLine (n : Nat) : List Char := "  | ".toList ++ List.replicate n ' ' ++ ['^']

/-- A caret line tells how many spaces it has. -/
theorem caretLine_inj {n k : Nat} : caretLine n = caretLine k ↔ n = k := by
  refine ⟨fun h => ?_, fun h => h ▸ rfl⟩
  have hlength := congrArg List.length h
  simp only [caretLine, List.length_append, List.length_replicate] at hlength
  omega

/-- The last line of a message with a source line has its caret in the column of the span. -/
theorem lastLine_message {d : Diagnostic} {s : Span} {line : String} (hspan : d.span = some s)
    (hline : d.sourceLine = some line) : lastLine d.message.toList = caretLine (s.col - 1) := by
  have hcaret : '\n' ∉ caretLine (s.col - 1) := by simp [caretLine, List.mem_replicate]
  have hsplit : d.message.toList = (("[" ++ s.render ++ "] ") ++ d.fault.message ++
      ("\n  | " ++ line)).toList ++ '\n' :: caretLine (s.col - 1) := by
    rw [message, hspan, hline]
    simp [caretLine, String.toList_append]
  rw [hsplit, lastLine_append_line_feed, lastLine_of_not_mem hcaret]

end Diagnostic

/-! ## The caret -/

/-- Where the caret of a source that is no module stands.  The source line that is shown starts with
the text that is before the diagnostic on its line, and goes on with the character that the
diagnostic is at, or ends there where that is the end of the source.  Under it the caret stands
behind as many spaces as that text has bytes.  So it is under that character, or right behind the
last one, where that text is made of ASCII characters, and only there. -/
theorem Graph.caret_of_parse (limits : Limits) (source : String) (d : Diagnostic) (line : String)
    (h : Graph.parse limits source = .error d) (hline : d.sourceLine = some line) :
    ∃ s before, d.span = some s ∧ before = lastLine (textBefore source s.offset) ∧
      before <+: line.toList ∧
      line.toList[before.length]? = (textBehind source s.offset).head? ∧
      lastLine d.message.toList = Diagnostic.caretLine (byteLength before) ∧
      (lastLine d.message.toList = Diagnostic.caretLine before.length ↔
        ∀ c ∈ before, c.toNat < 128) := by
  obtain ⟨e, ⟨s, hspan, hnone, rest, hreached, hblank⟩, rfl⟩ := Graph.exists_startsIn_of_parse h
  have hspan' : (e.inSource source).span = some s := by rw [Diagnostic.span_inSource, hspan]
  have hshown := (Place.sourceLine?_of_reached hreached).2 line
    (Diagnostic.sourceLine_inSource hspan hnone source ▸ hline)
  have hbehind : textBehind source s.offset = rest := by
    obtain ⟨front, hsource, hplace⟩ := hreached
    have hoffset : s.offset = byteLength front := by
      show s.toPlace.offset = _
      rw [hplace, Place.start_after]
    rw [hoffset, textBehind_of_eq_append hsource]
  obtain ⟨hstarts, hat⟩ := lineAround_of_not_blank (textBefore source s.offset) (hbehind ▸ hblank)
  have hcaret : lastLine (e.inSource source).message.toList =
      Diagnostic.caretLine (byteLength (lastLine (textBefore source s.offset))) := by
    rw [Diagnostic.lastLine_message hspan' hline, hreached.countedIn.col, Nat.add_sub_cancel_left]
  refine ⟨s, _, hspan', rfl, hshown ▸ hstarts, hshown ▸ hat, hcaret, ?_⟩
  rw [hcaret, Diagnostic.caretLine_inj, byteLength_eq_length_iff]

/-- A number where a symbol should be, in the second line behind ASCII characters: the caret stands
behind as many spaces as there are characters. -/
theorem Graph.caret_below_number :
    ∃ d, Graph.parse .standard "module \x7b\n  func 7\n\x7d" = .error d ∧
      d.sourceLine = some "  func 7" ∧
      lastLine (textBefore "module \x7b\n  func 7\n\x7d" 16) = "  func ".toList ∧
      lastLine d.message.toList = Diagnostic.caretLine "  func ".toList.length := by
  have h : Graph.parse .standard "module \x7b\n  func 7\n\x7d" =
      .error ⟨.unexpectedKind .symbolRefId "INTEGER_LITERAL `7`", some ⟨⟨16, 2, 8⟩, 1⟩,
        some "  func 7"⟩ := by cbv
  have hfront : lastLine (textBefore "module \x7b\n  func 7\n\x7d" 16) = "  func ".toList := by cbv
  obtain ⟨s, before, hspan, rfl, _, _, _, hcaret⟩ := Graph.caret_of_parse _ _ _ _ h rfl
  obtain rfl := Option.some.inj hspan
  rw [hfront] at hcaret
  have hascii : ∀ c ∈ "  func ".toList, c.toNat < 128 := by simp
  exact ⟨_, h, rfl, hfront, hcaret.mpr hascii⟩

/-- A word where a module should be, behind a comment with a letter of two bytes: six characters are
before the word, and the caret stands behind seven spaces. -/
theorem Graph.caret_behind_letter :
    ∃ d, Graph.parse .standard "/*é*/ x" = .error d ∧ d.span = some ⟨⟨7, 1, 8⟩, 1⟩ ∧
      d.sourceLine = some "/*é*/ x" ∧
      lastLine (textBefore "/*é*/ x" 7) = "/*é*/ ".toList ∧
      lastLine d.message.toList = Diagnostic.caretLine 7 ∧
      lastLine d.message.toList ≠ Diagnostic.caretLine "/*é*/ ".toList.length := by
  have h : Graph.parse .standard "/*é*/ x" =
      .error ⟨.unexpectedKind .keyword "IDENTIFIER `x`", some ⟨⟨7, 1, 8⟩, 1⟩, some "/*é*/ x"⟩ := by
    cbv
  have hcaret := Diagnostic.lastLine_message (d := ⟨.unexpectedKind .keyword "IDENTIFIER `x`",
    some ⟨⟨7, 1, 8⟩, 1⟩, some "/*é*/ x"⟩) rfl rfl
  refine ⟨_, h, rfl, rfl, by cbv, hcaret, ?_⟩
  rw [hcaret, Ne, Diagnostic.caretLine_inj]
  decide

end GenericIR
