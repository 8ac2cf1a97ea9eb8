/-
# Parser and lexer in step

A parser may be asked for a token, for a token with a text or for a whole module, again and again,
and an error is no end to that.  Its lexer always stands where a lexer by itself stands after some
number of readings, and its lookahead is the last token that these readings have given.  So no call
reads on too far, and no error loses a token.

* `Parser.InStep` : a parser in step with a number of readings;
* `Parser.InStep.exists_call` : what one call does to that number;
* `Parser.inStep_of_calls` : any number of calls, by induction on them.
-/
import Mathlib.Logic.Function.Iterate
import GenericIR.Proofs.Cursor.Faults
import GenericIR.Proofs.Cursor.Reachable

namespace GenericIR

/-! ## Readings of a lexer by itself -/

namespace Lexer

/-- The lexer after a number of readings, those with an error among them. -/
def afterReadings (l : Lexer) (k : Nat) : Lexer := (after next)^[k] l

/-- The lexeme that a reading gives, unless it ends with an error. -/
def reading? (l : Lexer) : Option Lexeme :=
  match next l with
  | .ok x _ => some x
  | .error _ _ => none

/-- The lexemes that a number of readings give in order, those with an error left out. -/
def given (l : Lexer) (k : Nat) : List Lexeme :=
  (List.range k).filterMap fun i => (l.afterReadings i).reading?

variable (l : Lexer) (k : Nat)

@[simp] theorem given_zero : l.given 0 = [] := rfl

/-- One more reading goes on from the lexer after those before it. -/
theorem afterReadings_succ : l.afterReadings (k + 1) = after next (l.afterReadings k) :=
  Function.iterate_succ_apply' _ _ _

/-- Readings of a reachable lexer leave reachable lexers. -/
theorem Reachable.afterReadings {limits : Limits} {source : String} {l : Lexer}
    (h : Reachable limits source l) (k : Nat) : Reachable limits source (l.afterReadings k) := by
  induction k with
  | zero => exact h
  | succ k ih => exact afterReadings_succ l k ▸ ih.reading

/-- One more reading gives one more lexeme, unless it ends with an error. -/
theorem given_succ : l.given (k + 1) = l.given k ++ (l.afterReadings k).reading?.toList := by
  rw [given, List.range_succ, List.filterMap_append, ← given]
  cases hread : (l.afterReadings k).reading? <;> simp [hread]

end Lexer

namespace Parser

/-! ## In step -/

/-- A parser of a source that is in step with a number of readings: its lexer is the lexer after
them, its lookahead is the last lexeme that they give, and the lexemes that it has gone past are
the ones that they give before. -/
structure InStep (limits : Limits) (source : String) (k : Nat) (p : Parser) : Prop where
  pos : 1 ≤ k
  lexer : p.lexer = (Lexer.ofSource limits source).afterReadings k
  lookahead : ((Lexer.ofSource limits source).given k).getLast? = some p.lookahead
  passed : (Lexer.ofSource limits source).given k = p.passed.reverse ++ [p.lookahead]

namespace InStep

variable {limits : Limits} {source : String} {k : Nat} {p q : Parser}

/-- The lexemes that the readings give tell whether a parser is in step with them. -/
theorem of_given (hlexer : p.lexer = (Lexer.ofSource limits source).afterReadings k)
    (hgiven : (Lexer.ofSource limits source).given k = p.passed.reverse ++ [p.lookahead]) :
    InStep limits source k p where
  pos := by
    refine Nat.pos_of_ne_zero fun hzero => ?_
    rw [hzero, Lexer.given_zero] at hgiven
    exact absurd hgiven.symm (by simp)
  lexer := hlexer
  lookahead := by rw [hgiven, List.getLast?_concat]
  passed := hgiven

/-- At the start of a source a parser has made one reading. -/
theorem ofSource (h : Parser.ofSource limits source = .ok p) : InStep limits source 1 p := by
  obtain ⟨hnext, hpassed, _⟩ := Parser.next_of_ofSource h
  apply of_given
  · exact (Lexer.after_of_ok hnext).symm
  · have hread : (Lexer.ofSource limits source).reading? = some p.lookahead := by
      rw [Lexer.reading?, hnext]
    show (Lexer.ofSource limits source).given (0 + 1) = _
    rw [Lexer.given_succ, hpassed]
    show [] ++ (Lexer.ofSource limits source).reading?.toList = _
    rw [hread]
    rfl

/-- A reading that gives a lexeme makes it the lookahead, behind the one before. -/
theorem past {x : Lexeme} {l : Lexer} (h : InStep limits source k p)
    (hnext : Lexer.next p.lexer = .ok x l) :
    InStep limits source (k + 1) ⟨l, x, p.lookahead :: p.passed, []⟩ := by
  apply of_given
  · rw [Lexer.afterReadings_succ, ← h.lexer, Lexer.after_of_ok hnext]
  · rw [Lexer.given_succ, ← h.lexer, Lexer.reading?, hnext, h.passed, List.reverse_cons]
    rfl

/-- A reading with an error leaves the lookahead. -/
theorem fault {d : Diagnostic} {l : Lexer} (h : InStep limits source k p)
    (hnext : Lexer.next p.lexer = .error d l) :
    InStep limits source (k + 1) ⟨l, p.lookahead, p.passed, p.skipped ++ p.lexer.textUpTo l⟩ := by
  apply of_given
  · rw [Lexer.afterReadings_succ, ← h.lexer, Lexer.after_of_error hnext]
  · rw [Lexer.given_succ, ← h.lexer, Lexer.reading?, hnext, h.passed, Option.toList_none,
      List.append_nil]

/-- Moves of a parser are further readings, and go past further lexemes. -/
theorem moves (h : InStep limits source k p) (hmoves : p.Moves q) :
    ∃ k', k ≤ k' ∧ InStep limits source k' q ∧ p.passed <:+ q.passed := by
  induction hmoves with
  | refl => exact ⟨k, Nat.le_refl k, h, List.suffix_rfl⟩
  | tail _ hmove ih =>
      obtain ⟨n, hn, hstep, hsuffix⟩ := ih
      cases hmove with
      | past hnext _ =>
          exact ⟨n + 1, by omega, hstep.past hnext, hsuffix.trans (List.suffix_cons _ _)⟩
      | fault hnext _ => exact ⟨n + 1, by omega, hstep.fault hnext, hsuffix⟩

end InStep

end Parser

/-! ## One call -/

/-- Behind the closing brace of a module only the end of the text is asked for. -/
theorem Parse.after_graph (p : Parser) : after graph p = match moduleText p with
    | .ok _ q => after (consume .eof) q
    | .error _ q => q := by
  rw [graph, after_bind]
  cases moduleText p with
  | error d q => rfl
  | ok g q =>
      dsimp only
      rw [after_bind, after]
      cases consume .eof q <;> rfl

/-- Whether a fault is that of a token of another kind or with another text than asked for. -/
def Fault.isMismatch : Fault → Bool
  | .unexpectedKind _ _ | .unexpectedValue _ _ => true
  | _ => false

namespace Parser

/-- What a parser may be asked for: a token of a kind, one that carries a text, or a module. -/
inductive Call where
  | consume (kind : TokenKind)
  | consumeText (kind : TokenKind) (text : String)
  | module
deriving DecidableEq, Repr

/-- How asking for a token ends, and what it does to the number of readings.  The lookahead is
handed out with one more reading; a mismatch changes nothing; and an error of the lexer takes one
more reading and leaves the lookahead. -/
inductive Asked (p : Parser) (k : Nat) : EStateM.Result Diagnostic Parser Lexeme → Nat → Prop where
  | handed {q : Parser} (h : q.passed = p.lookahead :: p.passed) :
      Asked p k (.ok p.lookahead q) (k + 1)
  | mismatch {d : Diagnostic} (h : d.fault.isMismatch) : Asked p k (.error d p) k
  | fault {d : Diagnostic} {q : Parser} (h : d.fault.isFromLexer)
      (hlookahead : q.lookahead = p.lookahead) (hpassed : q.passed = p.passed) :
      Asked p k (.error d q) (k + 1)

/-- Asking for a token takes no reading back, and goes past no lexeme but the lookahead. -/
theorem Asked.le_and_suffix {m : Parse Lexeme} {p : Parser} {k k' : Nat}
    (h : Asked p k (m p) k') : k ≤ k' ∧ p.passed <:+ (Parse.after m p).passed := by
  unfold Parse.after
  generalize m p = r at h
  cases h with
  | handed hpassed => exact ⟨Nat.le_succ k, hpassed ▸ List.suffix_cons _ _⟩
  | mismatch _ => exact ⟨Nat.le_refl k, List.suffix_rfl⟩
  | fault _ _ hpassed => exact ⟨Nat.le_succ k, hpassed ▸ List.suffix_rfl⟩

namespace Call

/-- The parser after a call, whether the call gave a value or a diagnostic. -/
def after : Call → Parser → Parser
  | consume kind => Parse.after (Parse.consume kind)
  | consumeText kind text => Parse.after (Parse.consumeText kind text)
  | module => Parse.after Parse.graph

/-- What a call does to the number of readings and to the lexemes gone past. -/
def Counts (k k' : Nat) (p : Parser) : Call → Prop
  | consume kind => Asked p k (Parse.consume kind p) k'
  | consumeText kind text => Asked p k (Parse.consumeText kind text p) k'
  | module => k ≤ k' ∧ p.passed <:+ (Parse.after Parse.graph p).passed

end Call

namespace InStep

variable {limits : Limits} {source : String} {k : Nat} {p : Parser}

/-- Going on takes one more reading, whether that gives a lexeme or an error. -/
theorem advance (h : InStep limits source k p) : Asked p k (Parse.advance p) (k + 1) ∧
    InStep limits source (k + 1) (Parse.after Parse.advance p) := by
  unfold Parse.after Parse.advance
  cases hnext : Lexer.next p.lexer with
  | ok x l => exact ⟨.handed rfl, h.past hnext⟩
  | error d l => exact ⟨.fault (Lexer.isFromLexer_of_next_error hnext) rfl rfl, h.fault hnext⟩

/-- Asking for a kind takes one more reading, or changes nothing. -/
theorem consume (h : InStep limits source k p) (kind : TokenKind) :
    ∃ k', Asked p k (Parse.consume kind p) k' ∧
      InStep limits source k' (Parse.after (Parse.consume kind) p) := by
  unfold Parse.after
  rw [Parse.consume, Parse.current_bind_apply]
  split
  · exact ⟨k + 1, h.advance⟩
  · exact ⟨k, .mismatch rfl, h⟩

/-- Asking for a kind with a text takes one more reading, or changes nothing. -/
theorem consumeText (h : InStep limits source k p) (kind : TokenKind) (text : String) :
    ∃ k', Asked p k (Parse.consumeText kind text p) k' ∧
      InStep limits source k' (Parse.after (Parse.consumeText kind text) p) := by
  unfold Parse.after
  rw [Parse.consumeText, Parse.current_bind_apply]
  split
  · exact ⟨k, .mismatch rfl, h⟩
  · exact h.consume kind

/-- A module takes no reading back, wherever it ends. -/
theorem module (h : InStep limits source k p) :
    ∃ k', k ≤ k' ∧ InStep limits source k' (Parse.after Parse.graph p) ∧
      p.passed <:+ (Parse.after Parse.graph p).passed := by
  have hmoves := Parse.composed_moduleText.moves (P := Parse.Any) p trivial
  obtain ⟨n, hn, hstep, hsuffix⟩ := h.moves hmoves
  rw [Parse.after_graph]
  cases hm : Parse.moduleText p with
  | error d q =>
      rw [Parse.after_of_error hm] at hstep hsuffix
      exact ⟨n, hn, hstep, hsuffix⟩
  | ok g q =>
      rw [Parse.after_of_ok hm] at hstep hsuffix
      obtain ⟨n', hasked, hstep'⟩ := hstep.consume .eof
      obtain ⟨hle, hsuffix'⟩ := hasked.le_and_suffix
      exact ⟨n', by omega, hstep', hsuffix.trans hsuffix'⟩

/-- What one call does: it counts its readings, and the parser is in step with them behind it. -/
theorem exists_call (h : InStep limits source k p) (call : Call) :
    ∃ k', call.Counts k k' p ∧ InStep limits source k' (call.after p) := by
  cases call with
  | consume kind => exact h.consume kind
  | consumeText kind text => exact h.consumeText kind text
  | module =>
      obtain ⟨k', hle, hstep, hsuffix⟩ := h.module
      exact ⟨k', ⟨hle, hsuffix⟩, hstep⟩

end InStep

/-! ## Any number of calls -/

/-- The parser after calls, each of them made whether the one before gave a value or not. -/
def afterCalls (p : Parser) (calls : List Call) : Parser :=
  calls.foldl (fun q call => call.after q) p

/-- A parser in step goes on to be in step, call after call. -/
theorem InStep.exists_count {limits : Limits} {source : String} (calls : List Call) {k : Nat}
    {p : Parser} (h : InStep limits source k p) :
    ∃ count : Nat → Nat, count 0 = k ∧
      (∀ i, InStep limits source (count i) (p.afterCalls (calls.take i))) ∧
      ∀ i (hi : i < calls.length),
        calls[i].Counts (count i) (count (i + 1)) (p.afterCalls (calls.take i)) := by
  induction calls generalizing k p with
  | nil => exact ⟨fun _ => k, rfl, fun i => by simpa [afterCalls] using h, nofun⟩
  | cons call calls ih =>
      obtain ⟨k', hcounts, hstep⟩ := h.exists_call call
      obtain ⟨count, rfl, hsteps, hcalls⟩ := ih hstep
      refine ⟨fun i => i.casesOn k count, rfl, fun i => ?_, fun i hi => ?_⟩
      · cases i with
        | zero => exact h
        | succ i => exact hsteps i
      · cases i with
        | zero => exact hcounts
        | succ i => exact hcalls i (Nat.lt_of_succ_lt_succ hi)

/-- Parser and lexer stay in step over any number of calls: after each of them the lexer of the
parser stands where a lexer by itself stands after some number of readings, the lookahead is the
last lexeme that they give, and the lexemes gone past are those before it.  The first reading is
made at the start; a mismatch adds none, a token that is handed out or an error of the lexer adds
one, and a module takes none back. -/
theorem inStep_of_calls (limits : Limits) (source : String) (p : Parser)
    (h : Parser.ofSource limits source = .ok p) (calls : List Call) :
    ∃ count : Nat → Nat, count 0 = 1 ∧
      (∀ i, InStep limits source (count i) (p.afterCalls (calls.take i))) ∧
      ∀ i (hi : i < calls.length),
        calls[i].Counts (count i) (count (i + 1)) (p.afterCalls (calls.take i)) :=
  (InStep.ofSource h).exists_count calls

/-- A parser that faces a word, a number with no digits and a string with no end, and is asked for
the end of the text, for that word and for a module: all three fail, and it is in step behind
them. -/
theorem inStep_of_failed_calls :
    ∃ p, Parser.ofSource .standard "func 0x \"a" = .ok p ∧
      ∃ k, InStep .standard "func 0x \"a" k
        (p.afterCalls [.consume .eof, .consumeText .keyword "func", .module]) := by
  let word : Lexeme := ⟨"", "func", ⟨.keyword, .text "func", ⟨⟨0, 1, 1⟩, 4⟩⟩⟩
  let p : Parser := ⟨⟨.standard, ⟨4, 1, 5⟩, [' ', '0', 'x', ' ', '"', 'a']⟩, word, [], []⟩
  have h : Parser.ofSource .standard "func 0x \"a" = .ok p := by cbv
  obtain ⟨count, _, hsteps, _⟩ := inStep_of_calls .standard "func 0x \"a" p h
    [.consume .eof, .consumeText .keyword "func", .module]
  exact ⟨p, h, count 3, hsteps 3⟩

end Parser

end GenericIR
