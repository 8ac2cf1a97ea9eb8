/-
# How far an attribute value goes

An attribute value is read lexeme by lexeme with a depth of open brackets carried along.  What it
comes to can be said without that, by the first of four events in what lies ahead, each at the
count of all brackets opened and closed before it: a comma or a closing brace where as many are
closed as opened, which ends the value; the end of the text; another closing bracket where none is
open; and a bracket that brings the count above the bound.

* `EventAt`, `FirstEvent` : the events and the first of them, by the count of brackets;
* `Parse.collect_attributeValueTurn_of_firstEvent` : what one lexeme after the other comes to, by
  induction on those before the event;
* `Parse.attributeValue_extent` : values in a source, whatever the parser was asked for before.
-/
import GenericIR.Proofs.Captures.Verbatim
import GenericIR.Proofs.Values.Classification

namespace GenericIR

/-! ## The count of brackets -/

/-- How many more brackets of any kind are opened than closed. -/
def openCount (kinds : List TokenKind) : Int :=
  (kinds.countP TokenKind.isOpenBracket : Int) - kinds.countP TokenKind.isCloseBracket

/-- A token in front of others adds to their count. -/
theorem openCount_cons (k : TokenKind) (kinds : List TokenKind) :
    openCount (k :: kinds) = openCount [k] + openCount kinds := by
  simp only [openCount, List.countP_cons, List.countP_nil]
  omega

/-- A bracket that is opened counts one. -/
theorem openCount_opening {k : TokenKind} (hk : k.isOpenBracket) : openCount [k] = 1 := by
  cases k <;> first | rfl | cases hk

/-- A bracket that is closed counts one less. -/
theorem openCount_closing {k : TokenKind} (hk : k.isCloseBracket) : openCount [k] = -1 := by
  cases k <;> first | rfl | cases hk

/-- Any other token does not count. -/
theorem openCount_other {k : TokenKind} (hopen : ¬ k.isOpenBracket) (hclose : ¬ k.isCloseBracket) :
    openCount [k] = 0 := by
  simp [openCount, hopen, hclose]

/-! ## Events -/

/-- What can end the reading of an attribute value. -/
inductive ValueEvent where
  /-- A comma or a closing brace behind the value. -/
  | ends
  /-- The end of the text. -/
  | eof
  /-- A closing bracket that closes nothing. -/
  | stray
  /-- An opening bracket beyond the bound. -/
  | deep
deriving DecidableEq, Repr

/-- Whether a token of a kind is an event, where a number of brackets is open before it. -/
inductive EventAt (max : Nat) (depth : Int) (k : TokenKind) : ValueEvent → Prop where
  | ends (hdepth : depth = 0) (hk : k = .comma ∨ k = .rbrace) : EventAt max depth k .ends
  | eof (hk : k = .eof) : EventAt max depth k .eof
  | stray (hdepth : depth = 0) (hk : k = .rparen ∨ k = .rbracket) : EventAt max depth k .stray
  | deep (hk : k = .lparen ∨ k = .lbracket ∨ k = .lbrace) (hdeep : max < depth + 1) :
      EventAt max depth k .deep

/-- Whether a token is the first event behind others, where a number of brackets is open already. -/
structure FirstEventFrom (max : Nat) (depth : Int) (before : List TokenKind) (k : TokenKind)
    (event : ValueEvent) : Prop where
  event : EventAt max (depth + openCount before) k event
  first : ∀ front j back, before = front ++ j :: back →
    ∀ other, ¬ EventAt max (depth + openCount front) j other

/-- Whether a token is the first event behind others. -/
abbrev FirstEvent (max : Nat) (before : List TokenKind) (k : TokenKind) (event : ValueEvent) :
    Prop := FirstEventFrom max 0 before k event

section Events

variable {max : Nat} {depth : Int} {j k : TokenKind} {before : List TokenKind}
  {event : ValueEvent}

/-- The first token is an event, or the first event comes behind it. -/
theorem firstEventFrom_nil_iff :
    FirstEventFrom max depth [] k event ↔ EventAt max depth k event := by
  constructor
  · intro h
    have hevent := h.event
    rwa [openCount, List.countP_nil, List.countP_nil, Int.sub_self, Int.add_zero] at hevent
  · intro h
    refine ⟨?_, fun front j back hsplit => absurd hsplit (by simp)⟩
    rwa [openCount, List.countP_nil, List.countP_nil, Int.sub_self, Int.add_zero]

/-- Behind a token that is no event the first event is that of the tokens after it. -/
theorem firstEventFrom_cons_iff : FirstEventFrom max depth (j :: before) k event ↔
    (∀ other, ¬ EventAt max depth j other) ∧
      FirstEventFrom max (depth + openCount [j]) before k event := by
  constructor
  · intro h
    refine ⟨?_, ?_, fun front i back hsplit => ?_⟩
    · have hfirst := h.first [] j before rfl
      rwa [openCount, List.countP_nil, List.countP_nil, Int.sub_self, Int.add_zero] at hfirst
    · have hevent := h.event
      rwa [openCount_cons, ← Int.add_assoc] at hevent
    · have hlater := h.first (j :: front) i back (congrArg (j :: ·) hsplit)
      rwa [openCount_cons, ← Int.add_assoc] at hlater
  · rintro ⟨hnone, h⟩
    refine ⟨?_, fun front i back hsplit => ?_⟩
    · rw [openCount_cons, ← Int.add_assoc]
      exact h.event
    · cases front with
      | nil =>
          obtain ⟨rfl, _⟩ := List.cons.inj hsplit
          rwa [openCount, List.countP_nil, List.countP_nil, Int.sub_self, Int.add_zero]
      | cons l front =>
          obtain ⟨rfl, hrest⟩ := List.cons.inj hsplit
          rw [openCount_cons, ← Int.add_assoc]
          exact h.first front i back hrest

/-- Tokens with the end of the text among them have a first event. -/
theorem exists_firstEventFrom (max : Nat) {kinds : List TokenKind} (heof : .eof ∈ kinds)
    (depth : Int) : ∃ before k after event, kinds = before ++ k :: after ∧
      FirstEventFrom max depth before k event := by
  induction kinds generalizing depth with
  | nil => cases heof
  | cons j kinds ih =>
      by_cases hevent : ∃ event, EventAt max depth j event
      · obtain ⟨event, hevent⟩ := hevent
        exact ⟨[], j, kinds, event, rfl, firstEventFrom_nil_iff.mpr hevent⟩
      · have hnone : ∀ other, ¬ EventAt max depth j other := fun other h => hevent ⟨other, h⟩
        have hlater : .eof ∈ kinds := by
          rcases List.mem_cons.mp heof with hj | hlater
          · exact absurd (.eof hj.symm) (hnone .eof)
          · exact hlater
        obtain ⟨before, k, after, event, rfl, hfirst⟩ := ih hlater (depth + openCount [j])
        exact ⟨j :: before, k, after, event, rfl, firstEventFrom_cons_iff.mpr ⟨hnone, hfirst⟩⟩

end Events

/-! ## One lexeme after the other -/

/-- How a reading ends with an event at the lookahead: with what was read before, or with an error
that has the span of the lookahead. -/
def ValueEvent.result {α : Type} (max : Nat) (a : α) (q : Parser) :
    ValueEvent → EStateM.Result Diagnostic Parser α
  | .ends => .ok a q
  | .eof | .stray => .error (.ofFault (.unbalanced "attribute value") q.lookahead.token.span) q
  | .deep =>
    .error (.ofFault (.limitExceeded "bracket nesting depth" max) q.lookahead.token.span) q

namespace Parse

open GenericIR.Parser (GoesPast advance_eq_ok_iff kind_of_advance limits_of_advance)

variable {p q r : Parser} {x : Lexeme} {xs : List Lexeme} {depth : Nat} {event : ValueEvent}

/-- An event at the lookahead ends the reading. -/
theorem collect_attributeValueTurn_of_eventAt
    (h : EventAt p.lexer.limits.maxNestingDepth depth p.kind event) :
    collect attributeValueTurn depth p = event.result p.lexer.limits.maxNestingDepth [] p := by
  rw [collect_attributeValueTurn_eq, current_bind_apply]
  change EventAt _ _ p.lookahead.token.kind event at h
  generalize p.lookahead.token.kind = k at h ⊢
  cases h with
  | ends hdepth hk =>
      rw [if_pos ⟨by omega, hk⟩]
      rfl
  | eof hk =>
      rw [hk, if_neg (by simp), if_pos rfl]
      rfl
  | stray hdepth hk =>
      obtain rfl : depth = 0 := by omega
      rcases hk with rfl | rfl <;> rfl
  | deep hk hdeep =>
      have hcheck : ∀ f : Unit → Parse (List Lexeme), (checkDepth (depth + 1) >>= f) p =
          ValueEvent.deep.result p.lexer.limits.maxNestingDepth [] p := by
        intro f
        rw [bind_apply, checkDepth, if_pos (by omega)]
        rfl
      rcases hk with rfl | rfl | rfl
      all_goals
        rw [if_neg (by simp), if_neg (by simp)]
        exact hcheck _

/-- A lookahead that is no event is gone past, and changes the count. -/
theorem collect_attributeValueTurn_of_none
    (h : ∀ other, ¬ EventAt p.lexer.limits.maxNestingDepth depth p.kind other) {n : Nat}
    (hn : (n : Int) = depth + openCount [p.kind]) :
    collect attributeValueTurn depth p = (advance >>= fun x =>
      collect attributeValueTurn n >>= fun run => pure (x :: run)) p := by
  have hstop : ¬ (depth = 0 ∧ (p.lookahead.token.kind = .comma ∨
      p.lookahead.token.kind = .rbrace)) :=
    fun hstop => h .ends (.ends (by rw [hstop.1]; rfl) hstop.2)
  have heof : p.lookahead.token.kind ≠ .eof := fun heof => h .eof (.eof heof)
  change (n : Int) = depth + openCount [p.lookahead.token.kind] at hn
  rw [collect_attributeValueTurn_eq, current_bind_apply, if_neg hstop, if_neg heof]
  by_cases hopen : p.lookahead.token.kind.isOpenBracket
  · rw [openCount_opening hopen] at hn
    obtain rfl : n = depth + 1 := by omega
    have hkind : p.kind = .lparen ∨ p.kind = .lbracket ∨ p.kind = .lbrace := by
      change p.kind.isOpenBracket at hopen
      cases hk : p.kind <;> rw [hk] at hopen <;> simp_all [TokenKind.isOpenBracket]
    have hle : ¬ p.lexer.limits.maxNestingDepth < depth + 1 := fun hdeep =>
      h .deep (.deep hkind (by omega))
    rw [if_pos hopen, bind_apply, checkDepth, if_neg hle]
  rw [if_neg hopen]
  by_cases hclose : p.lookahead.token.kind.isCloseBracket
  · rw [openCount_closing hclose] at hn
    have hpos : depth ≠ 0 := by omega
    obtain rfl : n = depth - 1 := by omega
    rw [if_pos hclose, if_neg hpos]
  · rw [openCount_other hopen hclose] at hn
    obtain rfl : n = depth := by omega
    rw [if_neg hclose]

/-- A lexeme that is no event is read, and changes the count. -/
theorem collect_attributeValueTurn_of_advance
    (h : ∀ other, ¬ EventAt p.lexer.limits.maxNestingDepth depth p.kind other)
    (hadvance : advance p = .ok x r) {n : Nat} (hn : (n : Int) = depth + openCount [x.kind]) :
    collect attributeValueTurn depth p =
      (collect attributeValueTurn n >>= fun run => pure (x :: run)) r := by
  rw [← kind_of_advance hadvance] at hn
  rw [collect_attributeValueTurn_of_none h hn, bind_apply, hadvance]

/-- A lexeme that is no event closes no more brackets than are open. -/
theorem exists_openCount {max : Nat} {k : TokenKind}
    (h : ∀ other, ¬ EventAt max depth k other) : ∃ n : Nat, (n : Int) = depth + openCount [k] := by
  by_cases hclose : k.isCloseBracket
  · have hpos : depth ≠ 0 := by
      rintro rfl
      cases k with
      | rbrace => exact h .ends (.ends rfl (Or.inr rfl))
      | rparen => exact h .stray (.stray rfl (Or.inl rfl))
      | rbracket => exact h .stray (.stray rfl (Or.inr rfl))
      | _ => cases hclose
    exact ⟨depth - 1, by rw [openCount_closing hclose]; omega⟩
  by_cases hopen : k.isOpenBracket
  · exact ⟨depth + 1, by rw [openCount_opening hopen]; rfl⟩
  · exact ⟨depth, by rw [openCount_other hopen hclose, Int.add_zero]⟩

/-- The lexemes of a value are those before the first event, and the event says how it ends. -/
theorem collect_attributeValueTurn_of_firstEvent (hgoes : GoesPast p xs q)
    (h : FirstEventFrom p.lexer.limits.maxNestingDepth depth (xs.map Lexeme.kind) q.kind event) :
    collect attributeValueTurn depth p = event.result p.lexer.limits.maxNestingDepth xs q := by
  induction hgoes generalizing depth with
  | nil => exact collect_attributeValueTurn_of_eventAt (firstEventFrom_nil_iff.mp h)
  | @cons p r q x xs _ hadvance hgoes ih =>
      rw [List.map_cons, firstEventFrom_cons_iff] at h
      have hlimits := limits_of_advance hadvance
      have hnone : ∀ other, ¬ EventAt p.lexer.limits.maxNestingDepth depth p.kind other := by
        rw [kind_of_advance hadvance]
        exact h.1
      obtain ⟨n, hn⟩ := exists_openCount h.1
      rw [← hn, ← hlimits] at h
      rw [collect_attributeValueTurn_of_advance hnone hadvance hn, bind_apply, ih h.2, hlimits]
      cases event <;> rfl

end Parse

/-! ## What lies ahead of a parser -/

namespace Parser

/-- The lexemes that a parser has ahead of it, its lookahead first and the end of the text last,
where its lexer reads them without an error. -/
inductive Ahead (p : Parser) : List Lexeme → Prop where
  | last (h : p.kind = .eof) : Ahead p [p.lookahead]
  | more {xs : List Lexeme} (h : p.kind ≠ .eof) (hreads : p.lexer.Reads xs) :
      Ahead p (p.lookahead :: xs)

/-- What a parser faces is ahead of it. -/
theorem Ahead.of_faces {p : Parser} {xs : List Lexeme} (h : p.Faces xs) : p.Ahead xs := by
  obtain ⟨_, l, hnext, hreads⟩ := h
  cases hreads with
  | last hx heof =>
      rw [hnext] at hx
      cases hx
      exact .last heof
  | more hx hne hrest =>
      rw [hnext] at hx
      cases hx
      exact .more hne hrest

/-- The end of the text is among the lexemes ahead. -/
theorem Ahead.eof_mem {p : Parser} {xs : List Lexeme} (h : p.Ahead xs) :
    .eof ∈ xs.map Lexeme.kind := by
  cases h with
  | last h => exact List.mem_singleton.mpr h.symm
  | more h hreads =>
      refine List.mem_cons_of_mem _ ?_
      clear h
      generalize p.lexer = l at hreads
      induction hreads with
      | last _ hx => exact List.mem_singleton.mpr hx.symm
      | more _ _ _ ih => exact List.mem_cons_of_mem _ ih

/-- A parser goes past the lexemes ahead of it up to any one of them. -/
theorem Ahead.exists_goesPast {p : Parser} {before after : List Lexeme} {e : Lexeme}
    (h : p.Ahead (before ++ e :: after)) :
    ∃ q, p.GoesPast before q ∧ q.lookahead = e ∧ q.Ahead (e :: after) := by
  induction before generalizing p with
  | nil =>
      have hlook : p.lookahead = e := by cases h <;> rfl
      exact ⟨p, .nil, hlook, h⟩
  | cons x before ih =>
      generalize hxs : x :: before ++ e :: after = xs at h
      rw [List.cons_append] at hxs
      cases h with
      | last _ => exact absurd (List.cons.inj hxs).2 (by simp)
      | @more xs hkind hreads =>
          obtain ⟨rfl, rfl⟩ := List.cons.inj hxs
          obtain ⟨y, m, hnext, hahead⟩ : ∃ y m, Lexer.next p.lexer = .ok y m ∧
              Ahead ⟨m, y, p.lookahead :: p.passed, []⟩ (before ++ e :: after) := by
            generalize before ++ e :: after = ys at hreads
            cases hreads with
            | last hnext hy => exact ⟨_, _, hnext, .last hy⟩
            | more hnext hy hrest => exact ⟨_, _, hnext, .more hy hrest⟩
          obtain ⟨q, hgoes, hlook, hlater⟩ := ih hahead
          exact ⟨q, .cons hkind (advance_eq_ok_iff.mpr ⟨rfl, hnext, rfl, rfl⟩) hgoes, hlook, hlater⟩

/-- A parser of a source, whatever it was asked for before: its lexer can be reached by calls, and
so can the one that has read its lookahead. -/
structure Reachable (limits : Limits) (source : String) (p : Parser) : Prop where
  lexer : p.lexer.Reachable limits source
  lookahead : ∃ l m, l.Reachable limits source ∧ Lexer.next l = .ok p.lookahead m

namespace Reachable

variable {limits : Limits} {source : String} {p q : Parser} {x : Lexeme} {xs : List Lexeme}

/-- A parser that is in step with a number of readings is one of the source. -/
theorem of_inStep {k : Nat} (h : InStep limits source k p) : p.Reachable limits source := by
  have hreachable : ∀ i,
      ((Lexer.ofSource limits source).afterReadings i).Reachable limits source :=
    Lexer.Reachable.start.afterReadings
  refine ⟨h.lexer ▸ hreachable k, ?_⟩
  obtain ⟨i, _, hread⟩ := List.mem_filterMap.mp (List.mem_of_getLast? h.lookahead)
  unfold Lexer.reading? at hread
  split at hread
  · next x m hnext =>
      cases hread
      exact ⟨_, m, hreachable i, hnext⟩
  · cases hread

/-- Going on leads to a parser of the same source. -/
theorem advance (hp : p.Reachable limits source) (h : Parse.advance p = .ok x q) :
    q.Reachable limits source := by
  obtain ⟨_, hnext, _⟩ := advance_eq_ok_iff.mp h
  exact ⟨hp.lexer.of_next hnext, _, _, hp.lexer, hnext⟩

/-- The lookahead carries its decoded value, and stands in the source where its span is. -/
theorem lookahead_read (hp : p.Reachable limits source) :
    IsDecoded p.lookahead.kind p.lookahead.token.value ∧
      slice? source.toList p.lookahead.token.span.offset p.lookahead.token.span.stop =
        some p.lookahead.text.toList := by
  obtain ⟨l, m, hl, hnext⟩ := hp.lookahead
  refine ⟨Lexer.isDecoded_of_next hnext, ?_⟩
  obtain ⟨htook, hspan⟩ := Lexer.took_of_next hnext
  have hstands : l.place.Stands source.toList l.rest := hl.reached.stands
  rw [htook.rest] at hstands
  rw [hspan, Span.stop_ofText]
  exact hstands.after.slice?

/-- So does every lexeme that a parser goes past. -/
theorem goesPast_read (hp : p.Reachable limits source) (h : GoesPast p xs q) :
    ∀ x ∈ xs, IsDecoded x.kind x.token.value ∧
      slice? source.toList x.token.span.offset x.token.span.stop = some x.text.toList := by
  induction h with
  | nil => exact fun x hx => by cases hx
  | cons _ hadvance _ ih =>
      obtain ⟨rfl, _⟩ := advance_eq_ok_iff.mp hadvance
      exact List.forall_mem_cons.mpr ⟨hp.lookahead_read, ih (hp.advance hadvance)⟩

end Reachable

end Parser

/-! ## Values in a source -/

/-- What an attribute value comes to where an event at some lexeme is the first: the value that
the lexemes before it stand for, with the event as the lookahead, or an error there. -/
structure ValueUpTo (limits : Limits) (source : String) (p : Parser) (before : List Lexeme)
    (e : Lexeme) (after : List Lexeme) (event : ValueEvent) : Prop where
  result : ∃ a q, StandsFor before a ∧ q.lookahead = e ∧ q.Ahead (e :: after) ∧
    Parse.attributeValue p = event.result limits.maxNestingDepth a q
  source : ∀ x ∈ before,
    slice? source.toList x.token.span.offset x.token.span.stop = some x.text.toList

namespace Parse

/-- What an attribute value comes to, whatever the parser of a source was asked for before.  Where
all that lies ahead is read without an error, one lexeme is the first event.  A comma or a closing
brace ends the value and stays the lookahead, and the value is what the lexemes before it stand
for; the end of the text and a closing bracket that closes nothing are unbalanced; a bracket above
the bound exceeds it.  An error has the span of the event. -/
theorem attributeValue_extent {limits : Limits} {source : String} {p : Parser} {xs : List Lexeme}
    (hp : p.Reachable limits source) (hxs : p.Ahead xs) :
    (∃ before e after event, xs = before ++ e :: after ∧
      FirstEvent limits.maxNestingDepth (before.map Lexeme.kind) e.kind event) ∧
    ∀ before e after event, xs = before ++ e :: after →
      FirstEvent limits.maxNestingDepth (before.map Lexeme.kind) e.kind event →
        ValueUpTo limits source p before e after event := by
  refine ⟨?_, fun before e after event hsplit hfirst => ?_⟩
  · obtain ⟨front, k, back, event, hsplit, hfirst⟩ :=
      exists_firstEventFrom limits.maxNestingDepth hxs.eof_mem 0
    obtain ⟨before, rest, rfl, rfl, hrest⟩ := List.map_eq_append_iff.mp hsplit
    obtain ⟨e, after, rfl, rfl, _⟩ := List.map_eq_cons_iff.mp hrest
    exact ⟨before, e, after, event, rfl, hfirst⟩
  · subst hsplit
    obtain ⟨q, hgoes, rfl, hahead⟩ := hxs.exists_goesPast
    have hread := hp.goesPast_read hgoes
    have hlimits : p.lexer.limits = limits := hp.lexer.limits_eq
    refine ⟨⟨.ofLexemes before, q, ?_, rfl, hahead, ?_⟩, fun x hx => (hread x hx).2⟩
    · exact standsFor_ofLexemes fun x hx => (hread x hx).1
    · rw [← hlimits] at hfirst ⊢
      rw [attributeValue, bind_apply, collect_attributeValueTurn_of_firstEvent hgoes hfirst]
      cases event <;> rfl

/-- A value with a comma in brackets, behind which a comma ends it. -/
theorem attributeValue_extent_inner_comma :
    ∃ p xs, Parser.ofSource .standard "[1, 2], 3" = .ok p ∧
      p.Reachable .standard "[1, 2], 3" ∧ p.Ahead xs ∧
      ∃ before e after event, xs = before ++ e :: after ∧
        FirstEvent Limits.standard.maxNestingDepth (before.map Lexeme.kind) e.kind event ∧
        ValueUpTo .standard "[1, 2], 3" p before e after event := by
  have hreads : ∃ xs, (Lexer.ofSource .standard "[1, 2], 3").Reads xs :=
    ⟨_, .more rfl (by decide) <| .more rfl (by decide) <| .more rfl (by decide) <|
      .more rfl (by decide) <| .more rfl (by decide) <| .more rfl (by decide) <|
      .more rfl (by decide) <| .last rfl rfl⟩
  obtain ⟨xs, hreads⟩ := hreads
  obtain ⟨p, hsource, hfaces, _⟩ := Parser.faces_ofSource .standard _ xs hreads
  have hp : p.Reachable .standard "[1, 2], 3" := .of_inStep (.ofSource hsource)
  obtain ⟨⟨before, e, after, event, hsplit, hfirst⟩, hvalue⟩ :=
    attributeValue_extent hp (.of_faces hfaces)
  exact ⟨p, xs, hsource, hp, .of_faces hfaces, before, e, after, event, hsplit, hfirst,
    hvalue before e after event hsplit hfirst⟩

end Parse

end GenericIR
