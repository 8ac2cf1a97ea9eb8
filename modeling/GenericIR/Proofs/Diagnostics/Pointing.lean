/-
# What diagnostics point at

A lexer that reads a source in order, and a parser on top of it, end with a diagnostic at one of
two places: at a text that the lexer has gone over and cannot make a token of, or at the lookahead,
which is a token of the source.  A diagnostic that quotes a token quotes that lookahead.

* `Lexer.OnTrack.next`, `Lexer.OnTrack.next_error` : what one reading does;
* `Parse.invariant_onTrack` : what a parser on track keeps, and where its faults point.
-/
import GenericIR.Proofs.Cursor.Faults
import GenericIR.Proofs.Cursor.Reachable
import GenericIR.Proofs.Invariant

namespace GenericIR

/-! ## Diagnostics into a source -/

/-- The lexer quotes no token. -/
theorem Fault.found?_of_isFromLexer {fault : Fault} (h : fault.isFromLexer) :
    fault.found? = none := by
  cases fault <;> first | rfl | cases h

/-- A span that starts where a reader of a source comes to, and covers a stretch of text there. -/
def Span.Covers (source : List Char) (s : Span) : Prop :=
  ∃ text rest, s.toPlace.Reached source (text ++ rest) ∧ s.len = byteLength text

/-- A diagnostic with a span in a source, no source line yet, and the written form of the token with
that span where it quotes a token. -/
def Diagnostic.PointsInto (limits : Limits) (source : String) (d : Diagnostic) : Prop :=
  ∃ s, d.span = some s ∧ d.sourceLine = none ∧ s.Covers source.toList ∧
    ∀ text, d.fault.found? = some text →
      ∃ t ∈ (Lexer.ofSource limits source).tokens, t.span = s ∧ t.render = text

section

variable {limits : Limits} {source : String}

/-! ## Readings in order -/

namespace Lexer

/-- Behind the end of a text the only token is that end again. -/
theorem tokens_of_next_eof {l m : Lexer} {x : Lexeme} (hnext : next l = .ok x m)
    (hx : x.kind = .eof) : m.tokens = [x.token] := by
  have hend := next_of_rest_nil m (rest_of_next_eof hnext hx).1
  rcases next_ok_cases hnext with ⟨rfl, _, rfl⟩ | ⟨c, rest, kind, value, _, hout, rfl, rfl⟩
  · rw [tokens, readAll_eq, hend]
    rfl
  · exact absurd hx (kind_ne_eof_of_scanToken l.limits c rest kind value hout)

/-- A lexer that has come to where it is by reading a source in order: it has reached its place, and
its tokens are tokens of the source. -/
structure OnTrack (limits : Limits) (source : String) (l : Lexer) : Prop where
  reached : ReachedIn source.toList l
  tokens : l.tokens ⊆ (Lexer.ofSource limits source).tokens

namespace OnTrack

variable {l m : Lexer}

/-- Every lexer starts on track. -/
theorem ofSource (limits : Limits) (source : String) :
    OnTrack limits source (.ofSource limits source) :=
  ⟨.start source.toList, List.Subset.refl _⟩

/-- A reading gives a token of the source that covers its text, and stays on track. -/
theorem next {x : Lexeme} (h : OnTrack limits source l) (hnext : Lexer.next l = .ok x m) :
    x.token ∈ (Lexer.ofSource limits source).tokens ∧ x.token.span.Covers source.toList ∧
      OnTrack limits source m := by
  obtain ⟨hplace, hm, _⟩ := reached_of_next h.reached hnext
  obtain ⟨_, hspan⟩ := took_of_next hnext
  have hcovers : x.token.span.Covers source.toList := ⟨_, _, hplace, by rw [hspan]; rfl⟩
  have hread : l.tokens = if x.kind = .eof then [x.token] else x.token :: m.tokens := by
    rw [Lexer.tokens, readAll_eq, hnext]
    dsimp only
    split <;> rfl
  by_cases hx : x.kind = .eof
  · rw [if_pos hx] at hread
    have hmem : x.token ∈ l.tokens := hread ▸ List.mem_cons_self
    refine ⟨h.tokens hmem, hcovers, hm, ?_⟩
    rw [tokens_of_next_eof hnext hx, ← hread]
    exact h.tokens
  · rw [if_neg hx] at hread
    have hsub := h.tokens
    rw [hread] at hsub
    exact ⟨hsub List.mem_cons_self, hcovers, hm, fun t ht => hsub (List.mem_cons_of_mem _ ht)⟩

/-- An error of a reading points at the text that the lexer has gone over. -/
theorem next_error {d : Diagnostic} (h : OnTrack limits source l)
    (hnext : Lexer.next l = .error d m) : d.PointsInto limits source := by
  have hfound := Fault.found?_of_isFromLexer (isFromLexer_of_next_error hnext)
  obtain ⟨blank, text, fault, htook, rfl⟩ := took_of_next_error hnext
  refine ⟨_, rfl, rfl, ⟨text, m.rest, (htook.reached h.reached).1, rfl⟩, fun found hsome => ?_⟩
  rw [hfound] at hsome
  cases hsome

end OnTrack

end Lexer

/-- A parser on track: its lexer is, and its lookahead is a token of the source. -/
structure Parser.OnTrack (limits : Limits) (source : String) (p : Parser) : Prop where
  lexer : p.lexer.OnTrack limits source
  mem : p.lookahead.token ∈ (Lexer.ofSource limits source).tokens
  covers : p.lookahead.token.span.Covers source.toList

/-- A parser at the start of a source is on track. -/
theorem Parser.onTrack_ofSource {p : Parser} (h : Parser.ofSource limits source = .ok p) :
    p.OnTrack limits source := by
  obtain ⟨hnext, _⟩ := Parser.next_of_ofSource h
  obtain ⟨hmem, hcovers, hl⟩ := (Lexer.OnTrack.ofSource limits source).next hnext
  exact ⟨hl, hmem, hcovers⟩

/-- A parser on track goes on along the track, and a fault that it meets or that it has at its
lookahead points into the source. -/
theorem Parse.invariant_onTrack (limits : Limits) (source : String) :
    Invariant (Parser.OnTrack limits source) (Diagnostic.PointsInto limits source) := by
  refine .of_fail (fun p hp => ?_) fun {p fault} hp hfound => ?_
  · unfold advance
    cases hnext : Lexer.next p.lexer with
    | error d l => exact .error (hp.lexer.next_error hnext)
    | ok x l =>
        obtain ⟨hmem, hcovers, hl⟩ := hp.lexer.next hnext
        exact .ok ⟨hl, hmem, hcovers⟩
  · exact ⟨_, rfl, rfl, hp.covers, fun text htext => ⟨_, hp.mem, rfl, hfound text htext⟩⟩

end

end GenericIR
