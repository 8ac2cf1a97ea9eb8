/-
# Brackets that are refused

A source whose brackets nest too deep ends where the count of open brackets passes the bound.  In
an attribute value the depth is checked before the bracket is gone past, so the error is at that
bracket.  In a capture it is checked behind the bracket, and the error is at whatever follows it.

* `Parse.exists_event_of_collect` : an error of the parser in an attribute value is at an event;
* `Parse.deepFrom_of_collect` : a bracket too deep in a capture, with the lexeme behind it;
* `Parse.invariant_tracks` : every production keeps track of the readings;
* `Graph.refused_of_parse` : where the error of a source is that nests too deep.
-/
import GenericIR.Proofs.Cursor.Progress
import GenericIR.Proofs.Values.Extent

namespace GenericIR

/-! ## Brackets too deep in a capture -/

/-- Whether one bracket more, behind some tokens, is the first to bring the brackets of a capture
above a bound, where a number of them is open already: they do not close before, and no bracket
that is opened before brings them above the bound. -/
structure DeepFrom (opening closing : TokenKind) (max : Nat) (depth : Int)
    (before : List TokenKind) : Prop where
  positive : ∀ front back, before = front ++ back → 0 < depth + excess opening closing front
  nests : NestsFrom opening closing max depth before
  deep : max < depth + excess opening closing before + 1

section Count

variable {opening closing k : TokenKind} {before : List TokenKind} {max : Nat} {depth : Int}

/-- The first token brings the brackets above the bound where they reach it already. -/
theorem deepFrom_nil_iff :
    DeepFrom opening closing max depth [] ↔ 0 < depth ∧ max < depth + 1 := by
  constructor
  · intro h
    exact ⟨by simpa using h.positive [] [] rfl, by simpa using h.deep⟩
  · rintro ⟨hdepth, hdeep⟩
    refine ⟨fun front back hsplit => ?_, fun front back hsplit => absurd hsplit (by simp), ?_⟩
    · rw [(List.append_eq_nil_iff.mp hsplit.symm).1, excess_nil, Int.add_zero]
      exact hdepth
    · rw [excess_nil, Int.add_zero]
      exact hdeep

/-- Behind a token that does not bring the brackets above the bound they are counted on. -/
theorem deepFrom_cons_iff (hne : opening ≠ closing) :
    DeepFrom opening closing max depth (k :: before) ↔
      0 < depth ∧ (k = opening → depth + 1 ≤ max) ∧
        DeepFrom opening closing max (depth + excess opening closing [k]) before := by
  constructor
  · intro h
    obtain ⟨hfits, hnests⟩ := (nestsFrom_cons_iff hne).mp h.nests
    refine ⟨by simpa using h.positive [] (k :: before) rfl, hfits,
      fun front back hsplit => ?_, hnests, ?_⟩
    · have hpos := h.positive (k :: front) back (congrArg (k :: ·) hsplit)
      rw [excess_cons] at hpos
      omega
    · have hdeep := h.deep
      rw [excess_cons] at hdeep
      omega
  · rintro ⟨hdepth, hfits, h⟩
    refine ⟨fun front back hsplit => ?_, (nestsFrom_cons_iff hne).mpr ⟨hfits, h.nests⟩, ?_⟩
    · cases front with
      | nil => simpa using hdepth
      | cons j front =>
          obtain ⟨rfl, hrest⟩ := List.cons.inj hsplit
          have hpos := h.positive front back hrest
          rw [excess_cons]
          omega
    · have hdeep := h.deep
      rw [excess_cons]
      omega

end Count

/-! ## Errors of the two counts -/

/-- An event that is an error is one whatever was read before it. -/
theorem ValueEvent.result_eq_error {α β : Type} {max : Nat} {a : α} {b : β} {q r : Parser}
    {d : Diagnostic} {event : ValueEvent} (h : event.result max a q = .error d r) :
    event.result max b q = .error d r := by
  cases event with
  | ends => cases h
  | eof | stray | deep =>
      cases h
      rfl

/-- A fault of the lexer is not that brackets nest too deep. -/
theorem Fault.not_isFromLexer_of_bracket {fault : Fault} {n : Nat}
    (h : fault = .limitExceeded "bracket nesting depth" n) : fault.isFromLexer = false := by
  rw [h]
  rfl

namespace Parse

open GenericIR.Parser (GoesPast kind_of_advance limits_of_advance isFromLexer_of_advance)

variable {p q r : Parser} {d : Diagnostic} {depth : Nat}

/-- Going on does not fail because brackets nest too deep. -/
theorem not_advance_of_bracket {n : Nat} (hadvance : advance p = .error d q)
    (hd : d.fault = .limitExceeded "bracket nesting depth" n) : False := by
  have hlexer := isFromLexer_of_advance hadvance
  rw [Fault.not_isFromLexer_of_bracket hd] at hlexer
  cases hlexer

/-- An error in an attribute value that is not one of the lexer's is at the first event.  By
induction on what is left: a lookahead that is no event is gone past. -/
theorem exists_event_of_collect (h : collect attributeValueTurn depth p = .error d q)
    (hd : d.fault.isFromLexer = false) :
    ∃ run event, GoesPast p run q ∧
      FirstEventFrom p.lexer.limits.maxNestingDepth depth (run.map Lexeme.kind) q.kind event ∧
      event.result p.lexer.limits.maxNestingDepth run q = .error d q := by
  induction hn : p.left using Nat.strongRecOn generalizing p depth with
  | ind n ih =>
      by_cases hevent : ∃ event, EventAt p.lexer.limits.maxNestingDepth depth p.kind event
      · obtain ⟨event, hevent⟩ := hevent
        rw [collect_attributeValueTurn_of_eventAt hevent] at h
        obtain rfl : p = q := by cases event <;> cases h <;> rfl
        exact ⟨[], event, .nil, firstEventFrom_nil_iff.mpr hevent, h⟩
      · have hnone : ∀ other, ¬ EventAt p.lexer.limits.maxNestingDepth depth p.kind other :=
          fun other hother => hevent ⟨other, hother⟩
        have heof : p.kind ≠ .eof := fun heof => hnone .eof (.eof heof)
        obtain ⟨m, hm⟩ := exists_openCount hnone
        rw [collect_attributeValueTurn_of_none hnone hm] at h
        rcases cases_of_bind_error h with hadvance | ⟨x, r, hadvance, h⟩
        · rw [isFromLexer_of_advance hadvance] at hd
          cases hd
        · rcases cases_of_bind_error h with h | ⟨_, _, _, h⟩
          · obtain ⟨run, event, hgoes, hfirst, hresult⟩ :=
              ih r.left (hn ▸ Parser.left_of_advance p r x hadvance heof) h rfl
            rw [limits_of_advance hadvance] at hfirst hresult
            refine ⟨x :: run, event, .cons heof hadvance hgoes, ?_,
              ValueEvent.result_eq_error hresult⟩
            rw [List.map_cons, firstEventFrom_cons_iff, ← kind_of_advance hadvance, ← hm]
            exact ⟨hnone, hfirst⟩
          · cases h

/-- Brackets that nest too deep in a capture do so at a bracket, and the error is at the lexeme
behind it.  By induction on what is left. -/
theorem deepFrom_of_collect {opening closing : TokenKind} {context : String} {n : Nat}
    (hne : opening ≠ closing) (hdepth : 1 ≤ depth)
    (h : collect (captureTurn opening closing context) depth p = .error d q)
    (hd : d.fault = .limitExceeded "bracket nesting depth" n) :
    ∃ run bracket r, GoesPast p run r ∧ r.kind = opening ∧ r.kind ≠ .eof ∧
      advance r = .ok bracket q ∧
      DeepFrom opening closing p.lexer.limits.maxNestingDepth depth (run.map Lexeme.kind) ∧
      d = .ofFault (.limitExceeded "bracket nesting depth" p.lexer.limits.maxNestingDepth)
        q.lookahead.token.span := by
  induction hleft : p.left using Nat.strongRecOn generalizing p depth with
  | ind left ih =>
      by_cases heof : p.kind = .eof
      · rw [collect_captureTurn_of_eof heof] at h
        cases h
        cases hd
      cases hadvance : advance p with
      | error e r =>
          rw [collect_captureTurn_of_error heof hadvance] at h
          cases h
          exact (not_advance_of_bracket hadvance hd).elim
      | ok x r =>
          have hlimits := limits_of_advance hadvance
          by_cases hfits : x.kind = opening → depth + 1 ≤ r.lexer.limits.maxNestingDepth
          · obtain ⟨m, hm⟩ := exists_depth hne hdepth x.kind
            rw [collect_captureTurn_of_advance hne heof hadvance hdepth hfits hm] at h
            by_cases hzero : m = 0
            · rw [if_pos hzero] at h
              cases h
            · rw [if_neg hzero] at h
              rcases cases_of_bind_error h with h | ⟨_, _, _, h⟩
              · obtain ⟨run, bracket, s, hgoes, hs, hseof, hbracket, hdeep, hspan⟩ :=
                  ih r.left (hleft ▸ Parser.left_of_advance p r x hadvance heof) (by omega) h rfl
                rw [hlimits] at hdeep hspan hfits
                refine ⟨x :: run, bracket, s, .cons heof hadvance hgoes, hs, hseof, hbracket, ?_,
                  hspan⟩
                rw [List.map_cons, deepFrom_cons_iff hne, ← hm]
                exact ⟨by omega, fun hopen => by exact_mod_cast hfits hopen, hdeep⟩
              · cases h
          · obtain ⟨hopen, hdeep⟩ := Classical.not_imp.mp hfits
            have hdeep := Nat.lt_of_not_le hdeep
            rw [collect_captureTurn_of_deep heof hadvance hopen hdeep, hlimits] at h
            rw [hlimits] at hdeep
            cases h
            refine ⟨[], x, p, .nil, (kind_of_advance hadvance).trans hopen, heof, hadvance, ?_,
              rfl⟩
            rw [List.map_nil, deepFrom_nil_iff]
            omega

/-- An entry where brackets nest too deep is a name with an equals sign, and they do so in the value
behind it. -/
theorem exists_value_of_attributeEntry {n : Nat} (h : attributeEntry p = .error d q)
    (hd : d.fault = .limitExceeded "bracket nesting depth" n) :
    ∃ x r y s, p.kind = .identifier ∧ advance p = .ok x r ∧ r.kind = .equal ∧
      advance r = .ok y s ∧ collect attributeValueTurn 0 s = .error d q := by
  rw [attributeEntry, sees_bind_apply] at h
  by_cases hname : p.kind = .identifier
  · rw [decide_eq_true hname, if_pos rfl] at h
    rcases cases_of_bind_error h with hadvance | ⟨x, r, hx, h⟩
    · exact (not_advance_of_bracket hadvance hd).elim
    rw [accept_bind, sees_bind_apply] at h
    by_cases hequal : r.kind = .equal
    · rw [decide_eq_true hequal, if_pos rfl] at h
      rcases cases_of_bind_error h with hadvance | ⟨y, s, hy, h⟩
      · exact (not_advance_of_bracket hadvance hd).elim
      rcases cases_of_bind_error h with hvalue | ⟨_, _, _, h⟩
      · rcases cases_of_bind_error hvalue with hturns | ⟨_, _, _, h⟩
        · exact ⟨x, r, y, s, hname, hx, hequal, hy, hturns⟩
        · cases h
      · cases h
    · rw [decide_eq_false hequal] at h
      cases h
  · rw [decide_eq_false hname] at h
    cases h
    cases hd

/-- A capture where brackets nest too deep has its first bracket, and they do so behind it. -/
theorem exists_more_of_balanced {opening closing : TokenKind} {context : String} {n : Nat}
    (h : balanced opening closing context p = .error d q)
    (hd : d.fault = .limitExceeded "bracket nesting depth" n) :
    ∃ x r, p.kind = opening ∧ advance p = .ok x r ∧
      collect (captureTurn opening closing context) 1 r = .error d q := by
  rw [balanced, bind_apply, consume_apply] at h
  by_cases hfirst : p.kind = opening
  · rw [if_pos hfirst] at h
    cases hadvance : advance p with
    | error e r =>
        rw [hadvance] at h
        cases h
        exact (not_advance_of_bracket hadvance hd).elim
    | ok x r =>
        rw [hadvance] at h
        rcases cases_of_bind_error h with hmore | ⟨_, _, _, h⟩
        · exact ⟨x, r, hfirst, rfl, hmore⟩
        · cases h
  · rw [if_neg hfirst] at h
    cases h
    cases hd

end Parse

/-! ## Keeping track of the readings -/

namespace Parser

variable {limits : Limits} {source : String} {p q : Parser} {x : Lexeme} {xs : List Lexeme} {k : Nat}

/-- Going on is one more reading. -/
theorem InStep.of_advance (h : InStep limits source k p) (hadvance : Parse.advance p = .ok x q) :
    InStep limits source (k + 1) q := by
  obtain ⟨_, hnext, hpassed, hskipped⟩ := advance_eq_ok_iff.mp hadvance
  obtain ⟨lexer, lookahead, passed, skipped⟩ := q
  obtain rfl : passed = p.lookahead :: p.passed := hpassed
  obtain rfl : skipped = [] := hskipped
  exact h.past hnext

/-- Going past lexemes is as many readings, which give these lexemes behind those before. -/
theorem InStep.goesPast (h : InStep limits source k p) (hgoes : GoesPast p xs q) :
    InStep limits source (k + xs.length) q ∧ q.passed = xs.reverse ++ p.passed := by
  induction hgoes generalizing k with
  | nil => exact ⟨h, rfl⟩
  | @cons p r q x xs _ hadvance _ ih =>
      obtain ⟨hstep, hpassed⟩ := ih (h.of_advance hadvance)
      obtain ⟨rfl, _, hr, _⟩ := advance_eq_ok_iff.mp hadvance
      refine ⟨?_, ?_⟩
      · rw [List.length_cons, Nat.add_comm xs.length 1, ← Nat.add_assoc]
        exact hstep
      · rw [hpassed, hr, List.reverse_cons, List.append_assoc]
        rfl

/-- A parser that goes on has read its lookahead last. -/
theorem Fresh.of_advance (h : Parse.advance p = .ok x q) : q.Fresh :=
  ⟨_, (advance_eq_ok_iff.mp h).2.1⟩

/-- So has one that goes past lexemes. -/
theorem Fresh.goesPast (h : p.Fresh) (hgoes : GoesPast p xs q) : q.Fresh := by
  induction hgoes with
  | nil => exact h
  | cons _ hadvance _ ih => exact ih (.of_advance hadvance)

/-- The next lookahead starts behind the one before it. -/
theorem Fresh.offset_lt_of_advance (h : p.Fresh) (hp : p.kind ≠ .eof)
    (hadvance : Parse.advance p = .ok x q) :
    x.token.span.offset < q.lookahead.token.span.offset := by
  obtain ⟨rfl, hnext, _⟩ := advance_eq_ok_iff.mp hadvance
  have hstart := Lexer.offset_le_of_next hnext
  rw [← h.stop_eq] at hstart
  refine Nat.lt_of_lt_of_le ?_ hstart
  obtain ⟨l, hl⟩ := h
  have htext : byteLength p.lookahead.text.toList ≠ 0 :=
    mt (eq_nil_of_byteLength_eq_zero _)
      ((Lexer.ReadsTo.cons hl hp .nil).solid p.lookahead (List.mem_singleton_self _)).1
  rw [(Lexer.took_of_next hl).2, Span.stop_ofText, Place.offset_after]
  show (l.place.after p.lookahead.gap.toList).offset < _
  omega

/-- A parser of a source that is in step with readings and has read its lookahead last. -/
structure Tracks (limits : Limits) (source : String) (p : Parser) : Prop where
  step : ∃ k, InStep limits source k p
  fresh : p.Fresh

/-- A parser at the start of a source keeps track. -/
theorem Tracks.ofSource (h : Parser.ofSource limits source = .ok p) : Tracks limits source p :=
  ⟨⟨1, .ofSource h⟩, (Parser.fresh_of_ofSource h).1⟩

/-- A production that gives a value keeps track. -/
theorem Tracks.of_composed {α : Type} {m : Parse α} (hm : Parse.Composed Parse.Any m)
    (hp : Tracks limits source p) {a : α} (h : m p = .ok a q) : Tracks limits source q := by
  obtain ⟨k, hstep⟩ := hp.step
  have hmoves := hm.moves p trivial
  have hkeeps := hm.keeps trivial hp.fresh
  rw [Parse.after_of_ok h] at hmoves
  rw [h] at hkeeps
  obtain ⟨k', _, hstep', _⟩ := hstep.moves hmoves
  cases hkeeps with
  | ok hfresh _ => exact ⟨⟨k', hstep'⟩, hfresh⟩

end Parser

/-! ## Where brackets are refused -/

/-- Lexemes that a parser goes past, and the lexeme at which it then ends because brackets nest too
deep.  In an attribute value this is the first bracket that brings the count of all brackets behind
the equals sign above the bound.  In a capture it is whatever follows the first bracket that brings
the count of the capture's own brackets above it, that of the capture itself among them. -/
inductive Refused (max : Nat) : List Lexeme → Lexeme → Prop where
  | value {name equal t : Lexeme} {run : List Lexeme} (hname : name.kind = .identifier)
      (hequal : equal.kind = .equal) (hdeep : FirstEvent max (run.map Lexeme.kind) t.kind .deep) :
      Refused max (name :: equal :: run) t
  | capture {opening closing : TokenKind} {first bracket t : Lexeme} {run : List Lexeme}
      (hpair : IsCapturePair opening closing) (hfirst : first.kind = opening)
      (hbracket : bracket.kind = opening)
      (hdeep : DeepFrom opening closing max 1 (run.map Lexeme.kind))
      (hbehind : bracket.token.span.offset < t.token.span.offset) :
      Refused max (first :: (run ++ [bracket])) t

/-- A diagnostic that, where it says that brackets nest too deep, names the bound and has the span of
the lexeme at which the readings of the source up to there are refused. -/
def Diagnostic.RefusesIn (limits : Limits) (source : String) (d : Diagnostic) : Prop :=
  ∀ n, d.fault = .limitExceeded "bracket nesting depth" n → n = limits.maxNestingDepth ∧
    ∃ k front scan t, (Lexer.ofSource limits source).given k = front ++ (scan ++ [t]) ∧
      d.span = some t.token.span ∧ Refused limits.maxNestingDepth scan t

section

variable {limits : Limits} {source : String} {p q : Parser} {d : Diagnostic}

/-- A fault of the lexer does not say so. -/
theorem Diagnostic.refusesIn_of_isFromLexer (h : d.fault.isFromLexer) :
    d.RefusesIn limits source := by
  intro n hn
  rw [Fault.not_isFromLexer_of_bracket hn] at h
  cases h

namespace Parser.Tracks

/-- A parser that keeps track has the limits of its source. -/
theorem limits_eq (hp : p.Tracks limits source) : p.lexer.limits = limits := by
  obtain ⟨k, hstep⟩ := hp.step
  exact (Parser.Reachable.of_inStep hstep).lexer.limits_eq

/-- What a parser has gone past when it is refused is given by the readings. -/
theorem refusesIn {scan : List Lexeme} (hp : p.Tracks limits source) (hgoes : p.GoesPast scan q)
    (hd : d = .ofFault (.limitExceeded "bracket nesting depth" limits.maxNestingDepth)
      q.lookahead.token.span)
    (hrefused : Refused limits.maxNestingDepth scan q.lookahead) : d.RefusesIn limits source := by
  intro n hn
  subst hd
  cases hn
  obtain ⟨k, hstep⟩ := hp.step
  obtain ⟨hlater, hpassed⟩ := hstep.goesPast hgoes
  refine ⟨rfl, k + scan.length, p.passed.reverse, scan, q.lookahead, ?_, rfl, hrefused⟩
  rw [hlater.passed, hpassed, List.reverse_append, List.reverse_reverse, List.append_assoc]

end Parser.Tracks

namespace Parse

open GenericIR.Parser (GoesPast kind_of_advance limits_of_advance isFromLexer_of_advance)

/-- An entry of a dictionary is refused at the bracket that nests too deep in its value. -/
theorem upholds_attributeEntry_tracks :
    Upholds (Parser.Tracks limits source) (Diagnostic.RefusesIn limits source) attributeEntry := by
  intro p hp
  cases h : attributeEntry p with
  | ok entry q => exact .ok (hp.of_composed composed_attributeEntry h)
  | error d q =>
      refine .error fun n hn => ?_
      obtain ⟨x, r, y, s, hname, hx, hequal, hy, hturns⟩ := exists_value_of_attributeEntry h hn
      obtain ⟨run, event, hgoes, hfirst, hresult⟩ :=
        exists_event_of_collect hturns (Fault.not_isFromLexer_of_bracket hn)
      rw [limits_of_advance hy, limits_of_advance hx, hp.limits_eq] at hfirst hresult
      cases event with
      | ends => cases hresult
      | eof | stray =>
          cases hresult
          cases hn
      | deep =>
          cases hresult
          have hscan : GoesPast p (x :: y :: run) q :=
            .cons (hname ▸ nofun) hx (.cons (hequal ▸ nofun) hy hgoes)
          exact hp.refusesIn hscan rfl
            (.value (kind_of_advance hx ▸ hname) (kind_of_advance hy ▸ hequal) hfirst) n hn

/-- A capture is refused at what follows the bracket of its own that nests too deep. -/
theorem upholds_balanced_tracks {opening closing : TokenKind}
    (hpair : IsCapturePair opening closing) (context : String) :
    Upholds (Parser.Tracks limits source) (Diagnostic.RefusesIn limits source)
      (balanced opening closing context) := by
  intro p hp
  cases h : balanced opening closing context p with
  | ok run q => exact .ok (hp.of_composed (composed_balanced _ _ hpair.ne_eof) h)
  | error d q =>
      refine .error fun n hn => ?_
      obtain ⟨x, r, hfirst, hx, hmore⟩ := exists_more_of_balanced h hn
      obtain ⟨run, bracket, s, hgoes, hs, hseof, hbracket, hdeep, hd⟩ :=
        deepFrom_of_collect hpair.ne (Nat.le_refl 1) hmore hn
      rw [limits_of_advance hx, hp.limits_eq] at hdeep hd
      have hscan : GoesPast p (x :: (run ++ [bracket])) q :=
        .cons (hfirst ▸ hpair.ne_eof) hx (hgoes.concat hseof hbracket)
      have hfresh : s.Fresh := (Parser.Fresh.of_advance hx).goesPast hgoes
      exact hp.refusesIn hscan hd (.capture hpair (kind_of_advance hx ▸ hfirst)
        (kind_of_advance hbracket ▸ hs) hdeep (hfresh.offset_lt_of_advance hseof hbracket)) n hn

/-- A parser keeps track of the readings of its source, and is refused where they are. -/
theorem invariant_tracks (limits : Limits) (source : String) :
    Invariant (Parser.Tracks limits source) (Diagnostic.RefusesIn limits source) where
  advance := by
    intro p hp
    cases h : advance p with
    | ok x q =>
        obtain ⟨k, hstep⟩ := hp.step
        exact .ok ⟨⟨k + 1, hstep.of_advance h⟩, .of_advance h⟩
    | error d q => exact .error (Diagnostic.refusesIn_of_isFromLexer (isFromLexer_of_advance h))
  quoting := by
    intro p fault _ hfound n hn
    change fault = _ at hn
    rw [hn] at hfound
    cases hfound
  attributeEntry := upholds_attributeEntry_tracks
  balanced := upholds_balanced_tracks

end Parse

end

/-! ## Whole sources -/

/-- Where the error of a source is that brackets nest too deep, it names the bound, and the source
is read up to the lexeme at its span, where a scan of brackets is refused.  The lexeme is the
bracket that passes the bound if the scan is one of an attribute value.  If it is one of a region
group, of a location or of a body, that bracket is the lexeme before it. -/
theorem Graph.refused_of_parse (limits : Limits) (source : String) (d : Diagnostic) (n : Nat)
    (h : Graph.parse limits source = .error d)
    (hd : d.fault = .limitExceeded "bracket nesting depth" n) :
    n = limits.maxNestingDepth ∧ ∃ k front scan t,
      (Lexer.ofSource limits source).given k = front ++ (scan ++ [t]) ∧
      d.span = some t.token.span ∧ Refused limits.maxNestingDepth scan t := by
  have hfirst : ∀ e, Parser.ofSource limits source = .error e → e.RefusesIn limits source := by
    intro e he
    obtain ⟨l, hnext⟩ := Parser.next_of_ofSource_error he
    exact Diagnostic.refusesIn_of_isFromLexer (Lexer.isFromLexer_of_next_error hnext)
  obtain ⟨e, he, rfl⟩ := Graph.exists_of_parse_error (Parse.invariant_tracks limits source)
    (fun p hp => .ofSource hp) hfirst h
  rw [Diagnostic.fault_inSource] at hd
  rw [Diagnostic.span_inSource]
  exact he n hd

/-- The value of an attribute with one bracket in another, where only one may be open, is refused at
the inner one. -/
theorem Graph.refused_inner_bracket :
    ∃ d, Graph.parse ⟨1, 32⟩ "module attributes \x7bk = [[1]]\x7d \x7b\x7d" = .error d ∧
      d.fault = .limitExceeded "bracket nesting depth" 1 ∧ d.span = some ⟨⟨24, 1, 25⟩, 1⟩ ∧
      ∃ k front scan t, (Lexer.ofSource ⟨1, 32⟩
          "module attributes \x7bk = [[1]]\x7d \x7b\x7d").given k = front ++ (scan ++ [t]) ∧
        d.span = some t.token.span ∧ Refused 1 scan t := by
  have h : Graph.parse ⟨1, 32⟩ "module attributes \x7bk = [[1]]\x7d \x7b\x7d" =
      .error ⟨.limitExceeded "bracket nesting depth" 1, some ⟨⟨24, 1, 25⟩, 1⟩,
        some "module attributes \x7bk = [[1]]\x7d \x7b\x7d"⟩ := by cbv
  exact ⟨_, h, rfl, rfl, (Graph.refused_of_parse _ _ _ 1 h rfl).2⟩

/-- A region group with one bracket in another, where only one may be open, is refused at the
bracket that closes the inner one: no opening bracket of the source has the span of the error. -/
theorem Graph.refused_behind_bracket :
    ∃ d, Graph.parse ⟨1, 32⟩ "module \x7b a()(()) \x7d" = .error d ∧
      d.fault = .limitExceeded "bracket nesting depth" 1 ∧ d.span = some ⟨⟨14, 1, 15⟩, 1⟩ ∧
      ¬ ∃ t ∈ (Lexer.ofSource ⟨1, 32⟩ "module \x7b a()(()) \x7d").tokens,
        t.kind.isOpenBracket ∧ d.span = some t.span := by
  have hnone : ((Lexer.ofSource ⟨1, 32⟩ "module \x7b a()(()) \x7d").tokens.all fun t =>
      !(t.kind.isOpenBracket && decide (t.span = ⟨⟨14, 1, 15⟩, 1⟩))) = true := by cbv
  refine ⟨⟨.limitExceeded "bracket nesting depth" 1, some ⟨⟨14, 1, 15⟩, 1⟩,
    some "module \x7b a()(()) \x7d"⟩, by cbv, rfl, rfl, ?_⟩
  rintro ⟨t, ht, hopen, hspan⟩
  have hother := List.all_eq_true.mp hnone t ht
  rw [hopen, ← Option.some.inj hspan] at hother
  cases hother

end GenericIR
