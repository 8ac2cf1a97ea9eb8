/-
# The first fault of a text

A parser reads the lexemes that a lexer finds when it reads up to the end in one go, so the
fault that such a lexer comes to stays ahead of the parser until the parser comes to it too.
A production keeps that fault ahead, ends with it, or ends with a fault of its own at a lexeme
that was read before it.

* `Lexer.offset_le_of_ahead` : the fault ahead is not behind the place of the lexer;
* `Parse.Composed.keeps` : what one production does to the fault ahead;
* `Graph.parse_tokenize_agree` : parsing a source and tokenizing it agree on the faults of the lexer.
-/
import GenericIR.Proofs.Composition

namespace GenericIR

/-! ## The fault ahead of a lexer -/

namespace Lexer

/-- The fault that reading up to the end of the text comes to, if there is one. -/
def ahead (l : Lexer) : Option Diagnostic := (readAll l).fault

/-- The tokens that reading up to the end of the text gives before that fault. -/
def tokens (l : Lexer) : List Token := (readAll l).lexemes.map Lexeme.token

/-- A reading without a fault keeps the fault ahead. -/
theorem ahead_of_next_ok {l m : Lexer} {x : Lexeme} (h : next l = .ok x m) :
    m.ahead = l.ahead := by
  rw [ahead, ahead, readAll_eq l, h]
  by_cases hx : x.kind = .eof
  · -- behind the end of the text there is nothing to go wrong
    have hend := next_of_rest_nil m (rest_of_next_eof h hx).1
    rw [readAll_eq, hend]
    simp [hx]
  · simp [hx]

/-- A reading with a fault comes to the fault ahead. -/
theorem ahead_of_next_error {l m : Lexer} {d : Diagnostic} (h : next l = .error d m) :
    l.ahead = some d := by
  rw [ahead, readAll_eq, h]

/-- A reading never brings the place of the lexer back. -/
theorem Took.offset_le {l m : Lexer} {blank text : List Char} (h : Took l blank text m) :
    l.place.offset ≤ m.place.offset := by
  rw [h.place, Place.offset_after, Place.offset_after]
  omega

/-- The fault ahead is not behind the place of the lexer. -/
theorem offset_le_of_ahead {l : Lexer} {d : Diagnostic} (h : l.ahead = some d) :
    ∃ s, d.span = some s ∧ l.place.offset ≤ s.offset := by
  unfold ahead at h
  fun_induction readAll l with
  | case1 l e m hnext =>
      cases h
      obtain ⟨blank, text, fault, _, rfl⟩ := took_of_next_error hnext
      refine ⟨_, rfl, ?_⟩
      show l.place.offset ≤ (l.place.after blank).offset
      rw [Place.offset_after]
      exact Nat.le_add_right _ _
  | case2 l x m hnext hx => cases h
  | case3 l x m hnext hx later ih =>
      obtain ⟨s, hs, hle⟩ := ih h
      exact ⟨s, hs, Nat.le_trans (took_of_next hnext).1.offset_le hle⟩

/-- Tokenizing ends with the fault ahead. -/
theorem tokenize_eq_error_iff (l : Lexer) (d : Diagnostic) :
    (∃ m, tokenize l = .error d m) ↔ l.ahead = some d := by
  rw [tokenize, ahead]
  cases (readAll l).fault with
  | none =>
      refine iff_of_false ?_ (by simp)
      rintro ⟨m, h⟩
      cases h
  | some e =>
      constructor
      · rintro ⟨m, h⟩
        cases h
        rfl
      · intro h
        cases h
        exact ⟨_, rfl⟩

/-- Tokenizing gives tokens where there is no fault ahead. -/
theorem exists_tokenize_eq_ok_iff (l : Lexer) :
    (∃ tokens m, tokenize l = .ok tokens m) ↔ l.ahead = none := by
  constructor
  · rintro ⟨tokens, m, h⟩
    exact ((tokenize_eq_ok_iff l m tokens).mp h).1
  · intro h
    exact ⟨_, _, (tokenize_eq_ok_iff l _ _).mpr ⟨h, rfl, rfl⟩⟩

end Lexer

/-! ## Steps and the fault ahead -/

/-- A parser that has read its lookahead last. -/
def Parser.Fresh (p : Parser) : Prop := ∃ l, Lexer.next l = .ok p.lookahead p.lexer

/-- The lexer of a parser stands behind the lookahead. -/
theorem Parser.Fresh.stop_eq {p : Parser} (h : p.Fresh) :
    p.lookahead.token.span.stop = p.lexer.place.offset := by
  obtain ⟨l, hnext⟩ := h
  obtain ⟨htook, hspan⟩ := Lexer.took_of_next hnext
  rw [hspan, Span.stop_ofText, ← htook.place]

/-- A diagnostic that is not of the lexer, at a span that ends before the fault ahead. -/
def Diagnostic.EndsBefore (d : Diagnostic) (ahead : Option Diagnostic) : Prop :=
  d.fault.isFromLexer = false ∧
    ∃ s, d.span = some s ∧ ∀ e ∈ ahead, ∃ s', e.span = some s' ∧ s.stop ≤ s'.offset

/-- Results of a step from a parser with some fault ahead: a value with the same fault ahead, or
a diagnostic that is that fault or ends before it. -/
inductive Parse.Keeps {α : Type} (ahead : Option Diagnostic) :
    EStateM.Result Diagnostic Parser α → Prop where
  | ok {a : α} {q : Parser} (hfresh : q.Fresh) (hahead : q.lexer.ahead = ahead) :
      Keeps ahead (.ok a q)
  | reached {d : Diagnostic} {q : Parser} (h : ahead = some d) : Keeps ahead (.error d q)
  | before {d : Diagnostic} {q : Parser} (h : d.EndsBefore ahead) : Keeps ahead (.error d q)

namespace Parse

namespace Keeps

variable {α β : Type} {p : Parser}

/-- A fault of the parser at the lookahead, which was read before the fault ahead. -/
theorem fail (hp : p.Fresh) {fault : Fault} (hfault : fault.isFromLexer = false) :
    Keeps p.lexer.ahead ((Parse.fail fault : Parse α) p) := by
  refine .before ⟨hfault, _, rfl, fun e he => ?_⟩
  obtain ⟨s, hs, hle⟩ := Lexer.offset_le_of_ahead he
  exact ⟨s, hs, hp.stop_eq ▸ hle⟩

/-- Going past the lookahead, or coming to the fault ahead. -/
theorem advance (p : Parser) : Keeps p.lexer.ahead (Parse.advance p) := by
  unfold Parse.advance
  split
  · next x l hnext => exact .ok ⟨_, hnext⟩ (Lexer.ahead_of_next_ok hnext)
  · next d l hnext => exact .reached (Lexer.ahead_of_next_error hnext)

/-- One step after another. -/
theorem bind {m : Parse α} {f : α → Parse β} (hm : Keeps p.lexer.ahead (m p))
    (hf : ∀ a q, q.Fresh → Keeps q.lexer.ahead (f a q)) :
    Keeps p.lexer.ahead ((m >>= f) p) := by
  rw [bind_apply]
  generalize m p = r at hm
  cases hm with
  | ok hfresh hahead => exact hahead ▸ hf _ _ hfresh
  | reached h => exact .reached h
  | before h => exact .before h

/-- Checking a depth before a step. -/
theorem check {m : Parse α} (hp : p.Fresh) (depth : Nat) (hm : Keeps p.lexer.ahead (m p)) :
    Keeps p.lexer.ahead ((checkDepth depth >>= fun _ => m) p) := by
  rw [bind_apply, checkDepth]
  by_cases hdeep : p.lexer.limits.maxNestingDepth < depth
  · rw [if_pos hdeep]
    exact fail hp rfl
  · rw [if_neg hdeep]
    exact hm

/-- The peek behind a brace reads the lexemes that the parser comes to. -/
theorem peek {f : Bool → Parse α} (hf : ∀ b, Keeps p.lexer.ahead (f b p)) :
    Keeps p.lexer.ahead ((braceOpensAttributes >>= f) p) := by
  rw [bind_apply, braceOpensAttributes]
  cases hnext : Lexer.next p.lexer with
  | error d l => exact .reached (Lexer.ahead_of_next_error hnext)
  | ok x l =>
      dsimp only
      by_cases hx : x.token.kind = .identifier
      · rw [if_pos hx]
        cases hnext' : Lexer.next l with
        | error d m =>
            refine .reached ?_
            rw [← Lexer.ahead_of_next_ok hnext]
            exact Lexer.ahead_of_next_error hnext'
        | ok y m => exact hf _
      · rw [if_neg hx]
        exact hf false

/-- A list of turns, by induction on the turns. -/
theorem collect {σ : Type} {turn : σ → Parse (Turn σ α)}
    (h : ∀ s p, p.Fresh → Keeps p.lexer.ahead (turn s p)) (s : σ) (hp : p.Fresh) :
    Keeps p.lexer.ahead (Parse.collect turn s p) := by
  induction hn : p.left using Nat.strongRecOn generalizing s p with
  | ind n ih =>
      have hfirst := h s p hp
      rw [Parse.collect]
      generalize turn s p = r at hfirst
      cases hfirst with
      | reached h => exact .reached h
      | before h => exact .before h
      | @ok t q hfresh hahead =>
          cases t with
          | stop => exact .ok hfresh hahead
          | last item => exact .ok hfresh hahead
          | more item next =>
              dsimp only
              split
              · next hleft =>
                  have hlater := ih q.left (hn ▸ hleft) next hfresh rfl
                  rw [hahead] at hlater
                  generalize Parse.collect turn next q = r at hlater
                  cases hlater with
                  | ok hfresh hahead => exact .ok hfresh hahead
                  | reached h => exact .reached h
                  | before h => exact .before h
              · exact .ok hfresh hahead

end Keeps

end Parse

/-! ## Productions and the fault ahead -/

namespace Parse

/-- A production keeps the fault ahead where it gives a value, and else ends with that fault or
before it. -/
theorem Composed.keeps {α : Type} {P : TokenKind → Prop} {m : Parse α} (h : Composed P m)
    {p : Parser} (hkind : P p.kind) (hp : p.Fresh) : Keeps p.lexer.ahead (m p) := by
  induction h generalizing p with
  | pure a => exact .ok hp rfl
  | fail fault hfault => exact .fail hp hfault
  | advance _ => exact .advance p
  | bind _ _ ihm ihf => exact .bind (ihm hkind hp) fun a q hq => ihf a trivial hq
  | look _ ih => exact ih p.lookahead.token hkind rfl hp
  | check _ ih => exact .check hp _ (ih hkind hp)
  | skipped _ ih => exact ih p.skipped hkind hp
  | peek _ ih => exact .peek fun b => ih b hkind hp
  | collect _ ih => exact .collect (fun s p hp => ih s trivial hp) _ hp

/-- A whole module keeps the fault ahead, or ends with it or before it. -/
theorem keeps_graph {p : Parser} (hp : p.Fresh) : Keeps p.lexer.ahead (graph p) := by
  refine .bind (composed_moduleText.keeps (P := Any) trivial hp) fun g q hq => .bind ?_ fun _ r hr =>
    .ok hr rfl
  rw [consume, current_bind_apply]
  split
  · exact .advance q
  · exact .fail hq rfl

/-- A module that is read to its end has no fault ahead. -/
theorem ahead_of_graph {p q : Parser} {g : Graph} (hp : p.Fresh) (h : graph p = .ok g q) :
    p.lexer.ahead = none := by
  have hmodule := composed_moduleText.keeps (P := Any) trivial hp
  rw [graph, bind_apply] at h
  split at h
  · next g' r hr =>
      rw [hr] at hmodule
      cases hmodule with
      | ok hfresh hahead =>
          rw [bind_apply, consume, current_bind_apply] at h
          by_cases heof : r.lookahead.token.kind = .eof
          · obtain ⟨l, hnext⟩ := hfresh
            have hend := Lexer.next_of_rest_nil _ (Lexer.rest_of_next_eof hnext heof).1
            rw [← hahead, Lexer.ahead, Lexer.readAll_eq, hend]
            simp
          · rw [if_neg heof] at h
            cases h
  · cases h

end Parse

/-! ## Whole sources -/

/-- A parser at the start of a source has made one reading, gone past no lexeme and skipped no
text. -/
theorem Parser.next_of_ofSource {limits : Limits} {source : String} {p : Parser}
    (h : Parser.ofSource limits source = .ok p) :
    Lexer.next (.ofSource limits source) = .ok p.lookahead p.lexer ∧ p.passed = [] ∧
      p.skipped = [] := by
  unfold Parser.ofSource at h
  split at h
  · next x l hnext =>
      cases h
      exact ⟨hnext, rfl, rfl⟩
  · cases h

/-- There is no parser of a source whose first reading ends with an error. -/
theorem Parser.next_of_ofSource_error {limits : Limits} {source : String} {d : Diagnostic}
    (h : Parser.ofSource limits source = .error d) :
    ∃ l, Lexer.next (.ofSource limits source) = .error d l := by
  unfold Parser.ofSource at h
  split at h
  · cases h
  · next e l hnext =>
      cases h
      exact ⟨l, hnext⟩

/-- A parser at the start of a source has read its lookahead, with the fault ahead that the
source has. -/
theorem Parser.fresh_of_ofSource {limits : Limits} {source : String} {p : Parser}
    (h : Parser.ofSource limits source = .ok p) :
    p.Fresh ∧ p.lexer.ahead = (Lexer.ofSource limits source).ahead := by
  obtain ⟨hnext, _⟩ := Parser.next_of_ofSource h
  exact ⟨⟨_, hnext⟩, Lexer.ahead_of_next_ok hnext⟩

/-- The outcome of a source that is parsed, and the first fault of the source. -/
theorem Graph.parse_cases (limits : Limits) (source : String) :
    (∃ g, Graph.parse limits source = .ok g ∧ (Lexer.ofSource limits source).ahead = none) ∨
    (∃ d, Graph.parse limits source = .error (d.inSource source) ∧
      ((Lexer.ofSource limits source).ahead = some d ∨
        d.EndsBefore (Lexer.ofSource limits source).ahead)) := by
  unfold Graph.parse
  cases hp : Parser.ofSource limits source with
  | error d =>
      obtain ⟨l, hnext⟩ := Parser.next_of_ofSource_error hp
      exact Or.inr ⟨d, rfl, Or.inl (Lexer.ahead_of_next_error hnext)⟩
  | ok p =>
      obtain ⟨hfresh, hahead⟩ := Parser.fresh_of_ofSource hp
      have hkeeps := Parse.keeps_graph hfresh
      rw [hahead] at hkeeps
      dsimp only
      cases hgraph : Parse.graph p with
      | ok g q => exact Or.inl ⟨g, rfl, hahead ▸ Parse.ahead_of_graph hfresh hgraph⟩
      | error d q =>
          rw [hgraph] at hkeeps
          cases hkeeps with
          | reached h => exact Or.inr ⟨d, rfl, Or.inl h⟩
          | before h => exact Or.inr ⟨d, rfl, Or.inr h⟩

/-- Parsing a source and tokenizing it agree on the faults of the lexer: a source that parses
has tokens; a fault of the lexer that ends the parsing ends the tokenizing too, with the same
span; and where tokenizing ends with a fault, parsing ends with that fault and span or with a
fault of the parser whose span ends before that span starts. -/
theorem Graph.parse_tokenize_agree (limits : Limits) (source : String) :
    (∀ g, Graph.parse limits source = .ok g →
      ∃ tokens l, Lexer.tokenize (.ofSource limits source) = .ok tokens l) ∧
    (∀ d, Graph.parse limits source = .error d → d.fault.isFromLexer →
      ∃ e l, Lexer.tokenize (.ofSource limits source) = .error e l ∧
        e.fault = d.fault ∧ e.span = d.span) ∧
    (∀ e l, Lexer.tokenize (.ofSource limits source) = .error e l →
      ∃ d, Graph.parse limits source = .error d ∧
        (d.fault = e.fault ∧ d.span = e.span ∨
          d.fault.isFromLexer = false ∧
            ∃ s s', d.span = some s ∧ e.span = some s' ∧ s.stop ≤ s'.offset)) := by
  have hcases := Graph.parse_cases limits source
  refine ⟨fun g hg => ?_, fun d hd hlexer => ?_, fun e l he => ?_⟩
  · rw [Lexer.exists_tokenize_eq_ok_iff]
    rcases hcases with ⟨_, _, hahead⟩ | ⟨d, hd, _⟩
    · exact hahead
    · rw [hd] at hg
      cases hg
  · rcases hcases with ⟨g, hg, _⟩ | ⟨d', hd', hfirst⟩
    · rw [hg] at hd
      cases hd
    · rw [hd'] at hd
      cases hd
      rcases hfirst with hahead | hbefore
      · obtain ⟨l, hl⟩ := (Lexer.tokenize_eq_error_iff _ _).mpr hahead
        exact ⟨d', l, hl, (d'.fault_inSource source).symm, (d'.span_inSource source).symm⟩
      · rw [Diagnostic.fault_inSource, hbefore.1] at hlexer
        cases hlexer
  · have hahead := (Lexer.tokenize_eq_error_iff _ _).mp ⟨l, he⟩
    rcases hcases with ⟨_, _, hnone⟩ | ⟨d, hd, hfirst⟩
    · rw [hnone] at hahead
      cases hahead
    · refine ⟨_, hd, ?_⟩
      rw [Diagnostic.fault_inSource, Diagnostic.span_inSource]
      rcases hfirst with hsame | ⟨hparser, s, hs, hbefore⟩
      · rw [hahead] at hsame
        cases hsame
        exact Or.inl ⟨rfl, rfl⟩
      · obtain ⟨s', hs', hle⟩ := hbefore e hahead
        exact Or.inr ⟨hparser, s, s', hs, hs', hle⟩

end GenericIR
