/-
# Where diagnostics point

Every production ends on track or with a diagnostic that points into the source, and so a source
that is no module ends with a diagnostic at the right place: its line and column follow the formula
for its offset, its source line is the text around that offset, and a token that it quotes is the
one at its span.

* `Graph.exists_pointsInto_of_parse` : a source that is no module ends with a diagnostic into it;
* `Graph.located_of_parse` : the span, the source line and the token of a diagnostic.
-/
import GenericIR.Proofs.Diagnostics.Line
import GenericIR.Proofs.Diagnostics.Pointing

namespace GenericIR

/-! ## Whole sources -/

/-- A stretch of a source stops at the end of a character of it. -/
theorem Span.Covers.isValid_stop {source : String} {s : Span} (h : s.Covers source.toList) :
    s.stop ≤ source.utf8ByteSize ∧ String.Pos.Raw.IsValid source ⟨s.stop⟩ := by
  obtain ⟨text, rest, hreached, hlen⟩ := h
  have hcounted := hreached.after.countedIn
  have hstop : (s.toPlace.after text).offset = s.stop := by
    rw [Place.offset_after, Span.stop, hlen]
  rw [← hstop]
  exact ⟨hcounted.offset_le, hcounted.isValid⟩

/-- The source line of a diagnostic is the line with the number of its span. -/
theorem Diagnostic.sourceLine_inSource {d : Diagnostic} {s : Span} (hspan : d.span = some s)
    (hline : d.sourceLine = none) (source : String) :
    (d.inSource source).sourceLine = sourceLine? source s.line := by
  rw [inSource, hspan, Option.bind_some]
  cases sourceLine? source s.line with
  | none => exact hline
  | some line => rfl

/-- A source that is no module ends with a diagnostic that points into the source, and shows the
line of its span. -/
theorem Graph.exists_pointsInto_of_parse {limits : Limits} {source : String} {d : Diagnostic}
    (h : Graph.parse limits source = .error d) :
    ∃ e : Diagnostic, e.PointsInto limits source ∧ d = e.inSource source := by
  refine Graph.exists_of_parse_error (Parse.invariant_onTrack limits source)
    (fun p hp => Parser.onTrack_ofSource hp) (fun e he => ?_) h
  obtain ⟨l, hnext⟩ := Parser.next_of_ofSource_error he
  exact (Lexer.OnTrack.ofSource limits source).next_error hnext

/-- A source that is no module ends with a diagnostic at the right place.  It has a span between
two characters of the source, whose line and column follow the formula for its offset.  It shows
the text of that line, without the line end, unless it is at the end of a source that is empty or
ends with a line feed.  And where it quotes a token, the lexer finds that token with exactly that
span. -/
theorem Graph.located_of_parse (limits : Limits) (source : String) (d : Diagnostic)
    (h : Graph.parse limits source = .error d) :
    ∃ s, d.span = some s ∧ s.toPlace.CountedIn source ∧
      s.stop ≤ source.utf8ByteSize ∧ String.Pos.Raw.IsValid source ⟨s.stop⟩ ∧
      (d.sourceLine = none ↔ s.offset = source.utf8ByteSize ∧
        (source.toList = [] ∨ source.toList.getLast? = some '\n')) ∧
      (∀ line, d.sourceLine = some line →
        line.toList = lineAround (textBefore source s.offset) (textBehind source s.offset)) ∧
      ∀ text, d.fault.found? = some text →
        ∃ t ∈ (Lexer.ofSource limits source).tokens, t.span = s ∧ t.render = text := by
  obtain ⟨e, ⟨s, hspan, hnone, hcovers, hfound⟩, rfl⟩ := Graph.exists_pointsInto_of_parse h
  obtain ⟨hle, hvalid⟩ := hcovers.isValid_stop
  obtain ⟨_, _, hreached, _⟩ := hcovers
  obtain ⟨habsent, hshown⟩ := Place.sourceLine?_of_reached hreached
  rw [Diagnostic.span_inSource, Diagnostic.fault_inSource,
    Diagnostic.sourceLine_inSource hspan hnone]
  exact ⟨s, hspan, hreached.countedIn, hle, hvalid, habsent, hshown, hfound⟩

/-- A function with a letter of two bytes where its symbol should be, in a line that ends with a
carriage return: the diagnostic is at that letter, quotes it, and shows the line without its end. -/
theorem Graph.located_missing_symbol :
    Graph.parse .standard "module \x7b\r\n  func é7\r\n\x7d" =
      .error ⟨.unexpectedKind .symbolRefId "KEYWORD `é`", some ⟨⟨17, 2, 8⟩, 2⟩,
        some "  func é7"⟩ ∧
    (⟨17, 2, 8⟩ : Place).CountedIn "module \x7b\r\n  func é7\r\n\x7d" ∧
    "  func é7".toList = lineAround (textBefore "module \x7b\r\n  func é7\r\n\x7d" 17)
      (textBehind "module \x7b\r\n  func é7\r\n\x7d" 17) ∧
    ∃ t ∈ (Lexer.ofSource .standard "module \x7b\r\n  func é7\r\n\x7d").tokens,
      t.span = ⟨⟨17, 2, 8⟩, 2⟩ ∧ t.render = "KEYWORD `é`" := by
  have h : Graph.parse .standard "module \x7b\r\n  func é7\r\n\x7d" =
      .error ⟨.unexpectedKind .symbolRefId "KEYWORD `é`", some ⟨⟨17, 2, 8⟩, 2⟩,
        some "  func é7"⟩ := by cbv
  obtain ⟨s, hspan, hcounted, _, _, _, hshown, hfound⟩ := Graph.located_of_parse _ _ _ h
  obtain rfl := Option.some.inj hspan
  exact ⟨h, hcounted, hshown _ rfl, hfound _ rfl⟩

end GenericIR
