/-
# Captures are verbatim and minimal

A capture gives a run of lexemes exactly where the brackets that it counts close again, without an
error in what it reads, the lexeme behind the run included.  Its text is the stretch of the source
from the first bracket to the last one.  Where the first bracket is the lexeme that the lexer read
last, this text alone is read as the tokens of the run; behind an error it holds what was skipped.

* `CaptureAt` : the run that a capture gives and the parser behind it, by the count of brackets;
* `Parse.balanced_eq_ok_iff`, `Parse.balanced_of_unclosed` : when a capture gives a run, and what
  it comes to where the text ends before;
* `Lexer.ReadsTo.slice?_past`, `Lexer.ReadsTo.exists_reads` : the text of a run;
* `Parse.capture_spec` : all of this together;
* `Parse.slice?_location` : the text of a location, which is captured from its keyword on.
-/
import GenericIR.Proofs.Captures.Count
import GenericIR.Proofs.Cursor.Skipped
import GenericIR.Proofs.Invariant
import GenericIR.Proofs.Spaced.Before

namespace GenericIR

/-! ## What a capture gives -/

/-- Whether brackets are open behind every token but the last one, and none is open behind that. -/
structure ClosesFirst (opening closing : TokenKind) (kinds : List TokenKind) : Prop where
  zero : excess opening closing kinds = 0
  positive : ∀ front back, kinds = front ++ back → front ≠ [] → back ≠ [] →
    0 < excess opening closing front

/-- Whether no more than a bound of brackets are open at any one that is opened behind the first
token. -/
def NestsWithin (opening closing : TokenKind) (max : Nat) (kinds : List TokenKind) : Prop :=
  ∀ front back, kinds = front ++ opening :: back → front ≠ [] →
    excess opening closing (front ++ [opening]) ≤ max

/-- The run of lexemes from a lookahead that opens a bracket up to the one that closes it, and the
parser with the next lexeme behind them as its lookahead, which has skipped nothing since. -/
structure CaptureAt (opening closing : TokenKind) (p : Parser) (run : List Lexeme) (q : Parser) :
    Prop where
  opens : p.kind = opening
  reads : ∃ xs m, run = p.lookahead :: xs ∧ p.lexer.ReadsTo xs m ∧
    m.next = .ok q.lookahead q.lexer
  passed : q.passed = run.reverse ++ p.passed
  skipped : q.skipped = []
  closes : ClosesFirst opening closing (run.map Lexeme.kind)
  nests : NestsWithin opening closing p.lexer.limits.maxNestingDepth (run.map Lexeme.kind)

section Count

variable {opening closing : TokenKind} {kinds : List TokenKind} {max : Nat}

/-- The bracket in front is open behind itself, and closes at the last token. -/
theorem closesFirst_cons_iff (hne : opening ≠ closing) :
    ClosesFirst opening closing (opening :: kinds) ↔ ClosesFrom opening closing 1 kinds := by
  constructor
  · intro h
    refine ⟨?_, fun front back hsplit hback => ?_⟩
    · have hzero := h.zero
      rwa [excess_cons, excess_opening hne] at hzero
    · have hpos := h.positive (opening :: front) back (by rw [hsplit]; rfl)
        (List.cons_ne_nil _ _) hback
      rwa [excess_cons, excess_opening hne] at hpos
  · intro h
    refine ⟨?_, fun front back hsplit hfront hback => ?_⟩
    · rw [excess_cons, excess_opening hne]
      exact h.zero
    · obtain ⟨k, front, rfl⟩ := List.exists_cons_of_ne_nil hfront
      obtain ⟨rfl, hrest⟩ := List.cons.inj hsplit
      rw [excess_cons, excess_opening hne]
      exact h.positive front back hrest hback

/-- Behind the bracket in front one is open. -/
theorem nestsWithin_cons_iff (hne : opening ≠ closing) :
    NestsWithin opening closing max (opening :: kinds) ↔
      NestsFrom opening closing max 1 kinds := by
  constructor
  · intro h front back hsplit
    have hle := h (opening :: front) back (by rw [hsplit]; rfl) (List.cons_ne_nil _ _)
    rwa [List.cons_append, excess_cons, excess_opening hne] at hle
  · intro h front back hsplit hfront
    obtain ⟨k, front, rfl⟩ := List.exists_cons_of_ne_nil hfront
    obtain ⟨rfl, hrest⟩ := List.cons.inj hsplit
    rw [List.cons_append, excess_cons, excess_opening hne]
    exact h front back hrest

end Count

/-- The kinds of a run that starts at a lookahead. -/
theorem Parser.map_kind_cons {p : Parser} {k : TokenKind} (hp : p.kind = k) (xs : List Lexeme) :
    (p.lookahead :: xs).map Lexeme.kind = k :: xs.map Lexeme.kind :=
  congrArg (· :: xs.map Lexeme.kind) hp

namespace Parse

open GenericIR.Parser (GoesPast advance_eq_ok_iff goesPast_cons_iff limits_of_advance
  map_kind_cons)

variable {opening closing : TokenKind} {context : String} {p q : Parser} {run : List Lexeme}

/-- A capture goes on from its first bracket. -/
theorem balanced_of_opening (hp : p.kind = opening) {x : Lexeme} {r : Parser}
    (hadvance : advance p = .ok x r) :
    balanced opening closing context p =
      (collect (captureTurn opening closing context) 1 >>= fun more => pure (x :: more)) r := by
  rw [balanced, bind_apply, consume_apply, if_pos hp, hadvance]

/-- A capture gives a run exactly where its brackets close again. -/
theorem balanced_eq_ok_iff (hne : opening ≠ closing) (heof : opening ≠ .eof) :
    balanced opening closing context p = .ok run q ↔ CaptureAt opening closing p run q := by
  constructor
  · intro h
    obtain ⟨x, r, hp, hadvance⟩ : ∃ x r, p.kind = opening ∧ advance p = .ok x r := by
      rw [balanced, bind_apply, consume_apply] at h
      by_cases hp : p.kind = opening
      · rw [if_pos hp] at h
        cases hadvance : advance p with
        | ok x r => exact ⟨x, r, hp, rfl⟩
        | error d r =>
            rw [hadvance] at h
            cases h
      · rw [if_neg hp] at h
        cases h
    rw [balanced_of_opening hp hadvance] at h
    obtain ⟨more, rfl, hmore⟩ := bind_pure_eq_ok_iff.mp h
    obtain ⟨hgoes, hcloses, hnests⟩ := (collect_captureTurn_iff hne (Nat.le_refl 1)).mp hmore
    have hrun : GoesPast p (x :: more) q := .cons (by rw [hp]; exact heof) hadvance hgoes
    obtain ⟨rfl, _, hpassed, hskipped, m, hreads, hnext⟩ := goesPast_cons_iff.mp hrun
    refine ⟨hp, ⟨more, m, rfl, hreads, hnext⟩, hpassed, hskipped, ?_, ?_⟩
    · rw [map_kind_cons hp, closesFirst_cons_iff hne]
      exact hcloses
    · rw [map_kind_cons hp, nestsWithin_cons_iff hne, ← limits_of_advance hadvance]
      exact hnests
  · rintro ⟨hp, ⟨xs, m, rfl, hreads, hnext⟩, hpassed, hskipped, hcloses, hnests⟩
    have hrun : GoesPast p (p.lookahead :: xs) q :=
      goesPast_cons_iff.mpr ⟨rfl, by rw [hp]; exact heof, hpassed, hskipped, m, hreads, hnext⟩
    cases hrun with
    | @cons _ r _ _ _ _ hadvance hgoes =>
        rw [map_kind_cons hp, closesFirst_cons_iff hne] at hcloses
        rw [map_kind_cons hp, nestsWithin_cons_iff hne, ← limits_of_advance hadvance] at hnests
        rw [balanced_of_opening hp hadvance, bind_pure_eq_ok_iff]
        exact ⟨xs, rfl, (collect_captureTurn_iff hne (Nat.le_refl 1)).mpr ⟨hgoes, hcloses, hnests⟩⟩

/-- Where the text ends before the brackets close, a capture is unbalanced at that end. -/
theorem balanced_of_unclosed (hne : opening ≠ closing) (heof : opening ≠ .eof)
    (hp : p.kind = opening) {xs : List Lexeme} {m : Lexer} (hreads : p.lexer.ReadsTo xs m)
    (hnext : m.next = .ok q.lookahead q.lexer) (hq : q.kind = .eof)
    (hpassed : q.passed = (p.lookahead :: xs).reverse ++ p.passed) (hskipped : q.skipped = [])
    (hopen : ∀ front back, (p.lookahead :: xs).map Lexeme.kind = front ++ back → front ≠ [] →
      0 < excess opening closing front)
    (hnests : NestsWithin opening closing p.lexer.limits.maxNestingDepth
      ((p.lookahead :: xs).map Lexeme.kind)) :
    balanced opening closing context p =
      .error (.ofFault (.unbalanced context) q.lookahead.token.span) q := by
  have hrun : GoesPast p (p.lookahead :: xs) q :=
    goesPast_cons_iff.mpr ⟨rfl, by rw [hp]; exact heof, hpassed, hskipped, m, hreads, hnext⟩
  cases hrun with
  | @cons _ r _ _ _ _ hadvance hgoes =>
      rw [map_kind_cons hp] at hopen hnests
      rw [nestsWithin_cons_iff hne, ← limits_of_advance hadvance] at hnests
      have hlater : ∀ front back, xs.map Lexeme.kind = front ++ back →
          0 < ((1 : Nat) : Int) + excess opening closing front := by
        intro front back hsplit
        have hpos := hopen (opening :: front) back (congrArg (opening :: ·) hsplit)
          (List.cons_ne_nil _ _)
        rwa [excess_cons, excess_opening hne] at hpos
      rw [balanced_of_opening hp hadvance, bind_apply,
        collect_captureTurn_of_unclosed hne (Nat.le_refl 1) hgoes hq hlater hnests]

/-- The text of a capture is that of its run, with what was skipped behind its first bracket. -/
theorem capture_eq_ok_iff {text : String} :
    capture opening closing context p = .ok text q ↔
      ∃ run, balanced opening closing context p = .ok run q ∧
        text = verbatimPast p.skipped run := by
  rw [capture, skipped_bind_apply, bind_pure_eq_ok_iff]
  simp only [and_comm]

end Parse

/-! ## The text of a capture -/

namespace Lexer

variable {l m : Lexer} {x z : Lexeme} {xs : List Lexeme}

/-- The lexemes of a run have the forms of their kinds. -/
theorem ReadsTo.formed (h : ReadsTo l xs m) : ∀ x ∈ xs, x.Formed := by
  induction h with
  | nil => exact nofun
  | cons hnext _ _ ih => exact List.forall_mem_cons.mpr ⟨formed_of_next hnext, ih⟩

/-- The last lexeme of a run stops where the reading of the run leaves the lexer. -/
theorem ReadsTo.stop_eq (h : ReadsTo l (xs ++ [z]) m) : z.token.span.stop = m.place.offset := by
  induction xs generalizing l with
  | nil =>
      cases h with
      | cons hnext _ h =>
          cases h
          obtain ⟨htook, hspan⟩ := took_of_next hnext
          rw [hspan, Span.stop_ofText, htook.place]
  | cons x xs ih =>
      cases h with
      | cons _ _ h => exact ih h

/-- A lexeme, some text taken behind it and a run of lexemes stand in the source from that lexeme to
the last one of the run. -/
theorem ReadsTo.slice?_past {source skipped : List Char} {k n : Lexer}
    (hl : l.place.Stands source l.rest) (hnext : next l = .ok x m) (htook : m.Took [] skipped k)
    (h : ReadsTo k (xs ++ [z]) n) :
    slice? source x.token.span.offset z.token.span.stop =
      some (verbatimPast skipped (x :: (xs ++ [z]))).toList := by
  obtain ⟨hfirst, hspan⟩ := took_of_next hnext
  obtain ⟨hrest, _, hplace⟩ := h.took
  have htext : (verbatimPast skipped (x :: (xs ++ [z]))).toList =
      x.text.toList ++ (skipped ++ spelled (xs ++ [z])) := by
    rw [toList_verbatimPast_cons, List.append_assoc]
  have hstop : z.token.span.stop = ((l.place.after x.gap.toList).after
      (x.text.toList ++ (skipped ++ spelled (xs ++ [z])))).offset := by
    rw [h.stop_eq, hplace, htook.place, hfirst.place, Place.after_append _ x.text.toList,
      Place.after_append _ skipped, Place.after_nil]
  rw [hfirst.rest, htook.rest, hrest] at hl
  have hstands : (l.place.after x.gap.toList).Stands source
      (x.text.toList ++ (skipped ++ spelled (xs ++ [z])) ++ n.rest) := by
    simpa only [List.append_assoc, List.nil_append] using hl.after
  rw [hstop, hspan, htext]
  exact hstands.slice?

/-- Lexemes written down with their own gaps. -/
def kept (xs : List Lexeme) : List Chunk := xs.map fun x => chunk x.gap.toList x

/-- Lexemes with their own gaps spell out their text. -/
theorem spell_kept (xs : List Lexeme) (t : List Char) : spell (kept xs) t = spelled xs ++ t := by
  induction xs with
  | nil => rfl
  | cons x xs ih =>
      show x.gap.toList ++ (x.text.toList ++ spell (kept xs) t) = _
      rw [ih, spelled_cons, List.append_assoc, List.append_assoc]

/-- A run up to a bracket is written down as it stands, without what is behind the bracket. -/
theorem ReadsTo.written {c : Char} (hc : isStop c) (hslash : c ≠ '/')
    (h : ReadsTo l (xs ++ [z]) m) (hz : z.text.toList = [c]) :
    Written l.limits (xs ++ [z]) (kept (xs ++ [z])) := by
  induction xs generalizing l with
  | nil =>
      cases h with
      | cons hnext hkind h =>
          exact .cons (layout_of_next hnext hkind) ((readBefore_of_next hnext hkind).at_end .nil)
            .nil
  | cons x xs ih =>
      rw [List.cons_append] at h ⊢
      cases h with
      | @cons _ k _ _ _ hnext hkind h =>
          have hlater := ih h
          rw [(took_of_next hnext).1.limits] at hlater
          refine .cons (layout_of_next hnext hkind) ?_ hlater
          show x.ReadBefore l.limits (spell (kept (xs ++ [z])) [])
          -- what is behind the lexeme goes on alike up to the bracket
          have hspelled : spelled (xs ++ [z]) = spelled xs ++ z.gap.toList ++ [c] := by
            rw [spelled_append, spelled_cons, spelled_nil, hz, List.append_nil, List.append_assoc]
          have hbefore := readBefore_of_next hnext hkind
          rw [h.took.1, hspelled, List.append_assoc _ [c]] at hbefore
          rw [spell_kept, List.append_nil, hspelled]
          exact hbefore.cut (.cons hc m.rest) (.cons hc hslash [])

/-- The text of a run up to a bracket is read as the lexemes of the run. -/
theorem ReadsTo.exists_reads {c : Char} (hc : isStop c) (hslash : c ≠ '/')
    (h : ReadsTo l (x :: (xs ++ [z])) m) (hz : z.text.toList = [c]) :
    ∃ ys e, Reads (ofSource l.limits (verbatim (x :: (xs ++ [z])))) (ys ++ [e]) ∧
      e.kind = .eof ∧ List.Forall₂ Lexeme.Same (x :: (xs ++ [z])) ys := by
  have hwritten : Written l.limits (x :: (xs ++ [z])) (kept (x :: (xs ++ [z]))) :=
    @ReadsTo.written l m z (x :: xs) c hc hslash h hz
  -- the first lexeme stands without its gap
  have hfirst : Written l.limits (x :: (xs ++ [z])) (chunk [] x :: kept (xs ++ [z])) := by
    cases hwritten with
    | cons _ hx h => exact .cons .nil hx h
  refine hfirst.exists_reads ?_
  show _ = x.text.toList ++ spell (kept (xs ++ [z])) []
  rw [toList_verbatim_cons, spell_kept, List.append_nil]

end Lexer

/-- The closing bracket of a capture is one character, and goes on with nothing. -/
theorem IsCapturePair.exists_char {opening closing : TokenKind}
    (hpair : IsCapturePair opening closing) :
    ∃ c ∈ ['(', ')', '\x7b', '\x7d'], closing = markKind c ∧ isStop c ∧ c ≠ '/' := by
  cases hpair with
  | parens => exact ⟨')', by simp, rfl, by decide, by decide⟩
  | braces => exact ⟨'\x7d', by simp, rfl, by decide, by decide⟩

/-! ## Captures in a source -/

/-- Lexemes that are the same are of the same kinds. -/
theorem kinds_of_forall₂ {xs ys : List Lexeme} (h : List.Forall₂ Lexeme.Same xs ys) :
    xs.map Lexeme.kind = ys.map Lexeme.kind := by
  induction h with
  | nil => rfl
  | cons hxy _ ih => rw [List.map_cons, List.map_cons, hxy.kind, ih]

/-- The text of a capture in a source: the stretch from the first bracket up to the one that closes
it.  Where the first bracket is the lexeme that was read last, it is read as the tokens of the
run. -/
structure Captures (limits : Limits) (source : String) (opening closing : TokenKind) (p : Parser)
    (run : List Lexeme) : Prop where
  slice : ∃ first middle last, run = first :: (middle ++ [last]) ∧ first.kind = opening ∧
    last.kind = closing ∧ slice? source.toList first.token.span.offset last.token.span.stop =
      some (verbatimPast p.skipped run).toList
  tokens : p.Ready limits source → ∃ ts e l,
    Lexer.tokenize (.ofSource limits (verbatimPast p.skipped run)) = .ok (ts ++ [e]) l ∧
    e.kind = .eof ∧ List.Forall₂ Token.Same (run.map Lexeme.token) ts ∧
    ClosesFirst opening closing (ts.map Token.kind)

namespace CaptureAt

variable {limits : Limits} {source : String} {opening closing : TokenKind} {p q : Parser}
  {run : List Lexeme}

/-- A run of a capture goes from the lookahead to a bracket of the closing kind. -/
theorem exists_last (hne : opening ≠ closing) (h : CaptureAt opening closing p run q) :
    ∃ xs z m, run = p.lookahead :: (xs ++ [z]) ∧ z.kind = closing ∧
      p.lexer.ReadsTo (xs ++ [z]) m := by
  obtain ⟨hopens, ⟨xs, m, rfl, hreads, _⟩, _, _, hcloses, _⟩ := h
  rw [Parser.map_kind_cons hopens, closesFirst_cons_iff hne] at hcloses
  obtain ⟨front, hfront⟩ := hcloses.exists_last (by decide)
  obtain ⟨ys, zs, rfl, _, hzs⟩ := List.map_eq_append_iff.mp hfront
  obtain ⟨z, rfl, hz⟩ := List.map_eq_singleton_iff.mp hzs
  exact ⟨ys, z, m, rfl, hz, hreads⟩

/-- The text of a capture by itself is read as the tokens of its run, where the first bracket is the
lexeme that was read last. -/
theorem exists_tokens (hpair : IsCapturePair opening closing) (hp : p.Ready limits source)
    (h : CaptureAt opening closing p run q) :
    ∃ ts e l, Lexer.tokenize (.ofSource limits (verbatim run)) = .ok (ts ++ [e]) l ∧
      e.kind = .eof ∧ List.Forall₂ Token.Same (run.map Lexeme.token) ts ∧
      ClosesFirst opening closing (ts.map Token.kind) := by
  obtain ⟨xs, z, m, rfl, hz, hreads⟩ := h.exists_last hpair.ne
  obtain ⟨c, hc, rfl, hstop, hslash⟩ := hpair.exists_char
  obtain ⟨l, hl, hnext⟩ := hp
  have hfirst : p.lookahead.kind ≠ .eof := fun heof => hpair.ne_eof (h.opens.symm.trans heof)
  have hrun : l.ReadsTo (p.lookahead :: (xs ++ [z])) m := .cons hnext hfirst hreads
  have htext : z.text.toList = [c] := (hrun.formed z (by simp)).bracket c hc hz
  obtain ⟨us, e, hus, he, hsame⟩ := hrun.exists_reads hstop hslash htext
  obtain ⟨k, htokenize⟩ := hus.exists_tokenize
  rw [hl.limits_eq, List.map_append] at htokenize
  refine ⟨us.map Lexeme.token, e.token, k, htokenize, he, forall₂_token_same hsame, ?_⟩
  have hsamekinds : (us.map Lexeme.token).map Token.kind =
      (p.lookahead :: (xs ++ [z])).map Lexeme.kind := by
    rw [List.map_map]
    exact (kinds_of_forall₂ hsame).symm
  rw [hsamekinds]
  exact h.closes

/-- The run of a capture in a source has its text there. -/
theorem captures (hpair : IsCapturePair opening closing) (hp : p.Advanced limits source)
    (h : CaptureAt opening closing p run q) : Captures limits source opening closing p run := by
  constructor
  · obtain ⟨xs, z, m, rfl, hz, hreads⟩ := h.exists_last hpair.ne
    obtain ⟨_, l, k, hl, hnext, htook⟩ := hp.placed
    exact ⟨_, xs, z, rfl, h.opens, hz, hreads.slice?_past hl.reached.stands hnext htook⟩
  · intro hready
    rw [hp.ready_iff.mp hready, verbatimPast_nil]
    exact h.exists_tokens hpair hready

end CaptureAt

namespace Parse

/-- What a capture of a bracket pair comes to.  It gives the text of a run exactly where the
brackets close again, nothing that is read up to the lexeme behind the run has an error, and the
brackets nest within the bound; this lexeme is then the lookahead.  Where the text ends before, the
capture is unbalanced.  In a source the text is the stretch from bracket to bracket, whatever the
parser was asked for before, and is read by itself as the tokens of the run where the first bracket
is what the lexer read last. -/
theorem capture_spec {opening closing : TokenKind} (hpair : IsCapturePair opening closing)
    (context : String) (p : Parser) :
    (∀ text q, capture opening closing context p = .ok text q ↔
      ∃ run, CaptureAt opening closing p run q ∧ text = verbatimPast p.skipped run) ∧
    (∀ limits source run q, p.Advanced limits source → CaptureAt opening closing p run q →
      Captures limits source opening closing p run) ∧
    (∀ xs m q, p.kind = opening → p.lexer.ReadsTo xs m →
      m.next = .ok q.lookahead q.lexer → q.kind = .eof →
      q.passed = (p.lookahead :: xs).reverse ++ p.passed → q.skipped = [] →
      (∀ front back, (p.lookahead :: xs).map Lexeme.kind = front ++ back → front ≠ [] →
        0 < excess opening closing front) →
      NestsWithin opening closing p.lexer.limits.maxNestingDepth
        ((p.lookahead :: xs).map Lexeme.kind) →
      capture opening closing context p =
        .error (.ofFault (.unbalanced context) q.lookahead.token.span) q) := by
  refine ⟨fun text q => ?_, fun limits source run q hp h => h.captures hpair hp,
    fun xs m q hp hreads hnext hq hpassed hskipped hopen hnests => ?_⟩
  · rw [capture_eq_ok_iff]
    simp only [balanced_eq_ok_iff hpair.ne hpair.ne_eof]
  · rw [capture, skipped_bind_apply, bind_apply, balanced_of_unclosed hpair.ne hpair.ne_eof hp
      hreads hnext hq hpassed hskipped hopen hnests]

/-- A capture with a bracket in a string and one more pair inside: neither ends it. -/
theorem capture_spec_inner_brackets :
    ∃ p q run, Parser.ofSource .standard "(a \"(\" (b)) c" = .ok p ∧
      IsCapturePair .lparen .rparen ∧
      capture .lparen .rparen "region group" p = .ok "(a \"(\" (b))" q ∧
      CaptureAt .lparen .rparen p run q ∧ verbatimPast p.skipped run = "(a \"(\" (b))" ∧
      Captures .standard "(a \"(\" (b)) c" .lparen .rparen p run := by
  let p : Parser := ⟨⟨.standard, ⟨1, 1, 2⟩, "a \"(\" (b)) c".toList⟩,
    ⟨"", "(", ⟨.lparen, .text "(", ⟨⟨0, 1, 1⟩, 1⟩⟩⟩, [], []⟩
  have hsource : Parser.ofSource .standard "(a \"(\" (b)) c" = .ok p := by cbv
  have hvalue : EStateM.run' (capture .lparen .rparen "region group") p =
      some "(a \"(\" (b))" := by cbv
  obtain ⟨q, hcapture⟩ : ∃ q, capture .lparen .rparen "region group" p =
      .ok "(a \"(\" (b))" q := by
    unfold EStateM.run' EStateM.run at hvalue
    split at hvalue
    · next text q h =>
        obtain rfl := Option.some.inj hvalue
        exact ⟨q, h⟩
    · cases hvalue
  obtain ⟨hiff, hsourced, _⟩ := capture_spec .parens "region group" p
  obtain ⟨run, hrun, htext⟩ := (hiff _ q).mp hcapture
  exact ⟨p, q, run, hsource, .parens, hcapture, hrun, htext.symm,
    hsourced _ _ run q (.start hsource) hrun⟩

/-- A parser that was asked for a bracket in front of a number with no digits still faces that
bracket.  What it captures then are two brackets, and the text is the stretch of the source between
them; but this text has the number in it, and by itself is not read as any tokens. -/
theorem capture_past_fault :
    ∃ p d q run r, Parser.ofSource .standard "( 0x )" = .ok p ∧ consume .lparen p = .error d q ∧
      q.Advanced .standard "( 0x )" ∧ CaptureAt .lparen .rparen q run r ∧
      run.map Lexeme.kind = [.lparen, .rparen] ∧
      capture .lparen .rparen "region group" q = .ok "( 0x )" r ∧
      ∃ e l, Lexer.tokenize (.ofSource .standard "( 0x )") = .error e l ∧
        e.fault = .invalidNumber "0x" := by
  let opened : Lexeme := ⟨"", "(", ⟨.lparen, .text "(", ⟨⟨0, 1, 1⟩, 1⟩⟩⟩
  let closed : Lexeme := ⟨" ", ")", ⟨.rparen, .text ")", ⟨⟨5, 1, 6⟩, 1⟩⟩⟩
  let e : Lexeme := ⟨"", "", ⟨.eof, .none, ⟨⟨6, 1, 7⟩, 0⟩⟩⟩
  let p : Parser := ⟨⟨.standard, ⟨1, 1, 2⟩, [' ', '0', 'x', ' ', ')']⟩, opened, [], []⟩
  let q : Parser := ⟨⟨.standard, ⟨4, 1, 5⟩, [' ', ')']⟩, opened, [], [' ', '0', 'x']⟩
  let r : Parser := ⟨⟨.standard, ⟨6, 1, 7⟩, []⟩, e, [closed, opened], []⟩
  let d : Diagnostic := .ofFault (.invalidNumber "0x") ⟨⟨2, 1, 3⟩, 2⟩
  have hp : Parser.ofSource .standard "( 0x )" = .ok p := by cbv
  have hconsume : consume .lparen p = .error d q := by cbv
  have hq : q.Advanced .standard "( 0x )" :=
    after_of_error hconsume ▸ (Parser.Advanced.start hp).consume .lparen
  have hrun : balanced .lparen .rparen "region group" q = .ok [opened, closed] r := by cbv
  have hcapture : capture .lparen .rparen "region group" q = .ok "( 0x )" r :=
    capture_eq_ok_iff.mpr ⟨_, hrun, by decide⟩
  have htokens : ∃ l, Lexer.tokenize (.ofSource .standard "( 0x )") = .error d l :=
    (Lexer.tokenize_eq_error_iff _ _).mpr (by cbv)
  obtain ⟨l, hl⟩ := htokens
  exact ⟨p, d, q, _, r, hp, hconsume, hq, (balanced_eq_ok_iff (by decide) (by decide)).mp hrun, rfl,
    hcapture, d, l, hl, rfl⟩

/-- The text of a location in a source is the stretch from its keyword to the bracket that closes
it, whatever the parser was asked for before. -/
theorem slice?_location {limits : Limits} {source text : String} {p q : Parser}
    (hp : p.Advanced limits source) (h : location p = .ok (some text) q) :
    ∃ last, q.passed.head? = some last ∧ last.kind = .rparen ∧
      slice? source.toList p.lookahead.token.span.offset last.token.span.stop =
        some text.toList := by
  rw [location, current_bind_apply] at h
  split at h
  · rw [skipped_bind_apply] at h
    obtain ⟨x, r, hadvance, h⟩ := exists_of_bind_ok h
    rw [sees_bind_apply] at h
    split at h
    · obtain ⟨run, s, hrun, h⟩ := exists_of_bind_ok h
      cases h
      obtain ⟨rfl, hnext, _⟩ := Parser.advance_eq_ok_iff.mp hadvance
      have hcapture := (balanced_eq_ok_iff (by decide) (by decide)).mp hrun
      obtain ⟨xs, z, m, rfl, hz, hreads⟩ := hcapture.exists_last (by decide)
      obtain ⟨_, l, k, hl, hlookahead, htook⟩ := hp.placed
      -- the bracket is read right behind the keyword
      have hopen : r.lookahead.kind ≠ .eof := fun heof => nomatch hcapture.opens.symm.trans heof
      have hbehind : p.lexer.ReadsTo ((r.lookahead :: xs) ++ [z]) m := .cons hnext hopen hreads
      have hslice := hbehind.slice?_past hl.reached.stands hlookahead htook
      rw [List.cons_append] at hslice
      refine ⟨z, ?_, hz, hslice⟩
      rw [hcapture.passed]
      simp
    · cases h
  · cases h

end Parse

end GenericIR
