/-
# Text that a parser skips

A fault of the lexer leaves the lookahead of a parser, while the lexer stands behind the text with
the fault.  So all that lies between a lookahead and the lexer was skipped, and this is nothing
where the lookahead is the lexeme that the lexer read last.

* `Parser.Advanced` : the parsers of a source, whatever they were asked for before;
* `Parser.Advanced.moves`, `Parser.Advanced.call` : productions and calls lead to no others;
* `Parser.Advanced.placed` : what such a parser skipped, by induction on its readings;
* `Parser.Advanced.ready_iff` : when it skipped nothing.
-/
import GenericIR.Proofs.Cursor.Lockstep

namespace GenericIR

/-! ## Text that is taken -/

namespace Lexer

variable {k l m : Lexer} {front blank text : List Char}

/-- The text up to where a reading leaves the lexer is the gap and the text that it takes. -/
theorem Took.textUpTo (h : Took l blank text m) : l.textUpTo m = blank ++ text := by
  rw [Lexer.textUpTo, h.rest, ← List.append_assoc, List.length_append, Nat.add_sub_cancel,
    List.take_left]

/-- A reading behind a text that was taken takes its gap and its text as well. -/
theorem Took.further (h : Took k [] front l) (h' : Took l blank text m) :
    Took k [] (front ++ (blank ++ text)) m where
  rest := by
    rw [h.rest, h'.rest]
    simp only [List.append_assoc]
  limits := h'.limits.trans h.limits
  place := by
    rw [h'.place, h.place, ← Place.after_append, ← Place.after_append]

/-- Where no text is taken a lexer stays where it is. -/
theorem Took.eq_of_nil (h : Took l [] [] m) : m = l := by
  obtain ⟨hrest, hlimits, hplace⟩ := h
  cases l
  cases m
  cases hrest
  cases hlimits
  cases hplace
  rfl

end Lexer

namespace Parser

/-! ## Parsers of a source -/

/-- The parsers that any number of readings leave behind in a source, those with an error among
them. -/
inductive Advanced (limits : Limits) (source : String) : Parser → Prop where
  | start {p : Parser} (h : Parser.ofSource limits source = .ok p) : Advanced limits source p
  | reading {p : Parser} (h : Advanced limits source p) :
      Advanced limits source (Parse.after Parse.advance p)

/-- A parser of a source with the lexeme that its lexer read last as its lookahead.  Its lexer may
have been asked for anything before, and have met errors. -/
def Ready (limits : Limits) (source : String) (p : Parser) : Prop :=
  ∃ l, l.Reachable limits source ∧ Lexer.next l = .ok p.lookahead p.lexer

/-- A parser of a source with its lookahead, the text it skipped, and its lexer one behind the
other. -/
structure Placed (limits : Limits) (source : String) (p : Parser) : Prop where
  lexer : p.lexer.Reachable limits source
  lookahead : ∃ l m, l.Reachable limits source ∧ Lexer.next l = .ok p.lookahead m ∧
    m.Took [] p.skipped p.lexer

namespace Advanced

variable {limits : Limits} {source : String} {p q : Parser}

/-- Moves are readings. -/
theorem moves (h : p.Advanced limits source) (hmoves : p.Moves q) : q.Advanced limits source := by
  induction hmoves with
  | refl => exact h
  | tail _ hmove ih =>
      have hreading := ih.reading
      unfold Parse.after Parse.advance at hreading
      cases hmove with
      | past hnext _ => rwa [hnext] at hreading
      | fault hnext _ => rwa [hnext] at hreading

/-- Asking for a kind goes on or changes nothing. -/
theorem consume (h : p.Advanced limits source) (kind : TokenKind) :
    (Parse.after (Parse.consume kind) p).Advanced limits source := by
  unfold Parse.after
  rw [Parse.consume, Parse.current_bind_apply]
  by_cases hkind : p.lookahead.token.kind = kind
  · rw [if_pos hkind]
    exact h.reading
  · rw [if_neg hkind]
    exact h

/-- A call leads to a parser of the same source. -/
theorem call (h : p.Advanced limits source) (call : Call) :
    (call.after p).Advanced limits source := by
  cases call with
  | consume kind => exact h.consume kind
  | consumeText kind text =>
      show (Parse.after (Parse.consumeText kind text) p).Advanced limits source
      unfold Parse.after
      rw [Parse.consumeText, Parse.current_bind_apply]
      by_cases hother : p.lookahead.token.kind = kind ∧ ¬ p.lookahead.token.hasText text
      · rw [if_pos hother]
        exact h
      · rw [if_neg hother]
        exact h.consume kind
  | module =>
      have hmodule := h.moves (Parse.composed_moduleText.moves (P := Parse.Any) p trivial)
      show (Parse.after Parse.graph p).Advanced limits source
      rw [Parse.after_graph]
      cases hm : Parse.moduleText p with
      | error d q => exact Parse.after_of_error hm ▸ hmodule
      | ok g q => exact (Parse.after_of_ok hm ▸ hmodule).consume .eof

/-- Any number of calls lead to a parser of the same source. -/
theorem afterCalls (h : p.Advanced limits source) (calls : List Call) :
    (p.afterCalls calls).Advanced limits source := by
  induction calls generalizing p with
  | nil => exact h
  | cons call calls ih => exact ih (h.call call)

/-! ## What was skipped -/

/-- Between the lookahead and the lexer of a parser lies the text it skipped, by induction on its
readings: one with an error adds the text it takes, any other has a new lookahead. -/
theorem placed (h : p.Advanced limits source) : p.Placed limits source := by
  induction h with
  | start h =>
      obtain ⟨hnext, _, hskipped⟩ := Parser.next_of_ofSource h
      refine ⟨.of_next .start hnext, _, _, .start, hnext, ?_⟩
      rw [hskipped]
      exact ⟨rfl, rfl, rfl⟩
  | @reading p _ ih =>
      obtain ⟨hlexer, l, m, hl, hlookahead, htook⟩ := ih
      unfold Parse.after Parse.advance
      cases hnext : Lexer.next p.lexer with
      | ok x k => exact ⟨hlexer.of_next hnext, _, _, hlexer, hnext, ⟨rfl, rfl, rfl⟩⟩
      | error d k =>
          obtain ⟨blank, text, fault, htook', rfl⟩ := Lexer.took_of_next_error hnext
          refine ⟨Lexer.after_of_error hnext ▸ hlexer.reading, l, m, hl, hlookahead, ?_⟩
          show m.Took [] (p.skipped ++ p.lexer.textUpTo k) k
          rw [htook'.textUpTo]
          exact htook.further htook'

/-- The lookahead is the lexeme that was read last exactly where nothing was skipped. -/
theorem ready_iff (h : p.Advanced limits source) : p.Ready limits source ↔ p.skipped = [] := by
  obtain ⟨_, l, m, hl, hlookahead, htook⟩ := h.placed
  constructor
  · rintro ⟨l', hl', hnext⟩
    -- the lookahead stops in one place, which is that of both lexers
    have hstop := (Lexer.reached_of_next hl.reached hlookahead).2.2
    have hstop' := (Lexer.reached_of_next hl'.reached hnext).2.2
    have hoffset : p.lexer.place.offset = m.place.offset + byteLength p.skipped := by
      rw [htook.place]
      exact Place.offset_after _ _
    exact eq_nil_of_byteLength_eq_zero _ (by omega)
  · intro hskipped
    rw [hskipped] at htook
    exact ⟨l, hl, htook.eq_of_nil ▸ hlookahead⟩

/-- Going past a lexeme makes a parser ready, whatever it was asked for before. -/
theorem ready_of_advance {x : Lexeme} (h : p.Advanced limits source)
    (hadvance : Parse.advance p = .ok x q) : q.Ready limits source :=
  ⟨p.lexer, h.placed.lexer, Parser.next_of_advance hadvance⟩

end Advanced

end Parser

end GenericIR
