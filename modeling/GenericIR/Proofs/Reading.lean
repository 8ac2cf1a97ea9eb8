/-
# Readings of a text

What one reading of a lexer does, said once: it splits off a gap and a lexeme, and moves the
place over both.  From this follow the facts about whole runs of readings that the parser
depends on.

* `Lexer.took_of_next` : a reading takes its gap and its text from the front of the rest;
* `Lexer.reads_iff` : `Lexer.Reads` is reading up to the end without a fault;
* `Parser.Faces.advance` : a parser that faces a run of lexemes goes past them one by one.
-/
import GenericIR.Grammar.Parser

namespace GenericIR

/-- The kind of the token of a lexeme. -/
abbrev Lexeme.kind (x : Lexeme) : TokenKind := x.token.kind

/-! ## No token is the end -/

/-- A numeral is a scalar literal. -/
theorem isScalarLiteral_of_numeral (text : List Char) (kind : TokenKind) (value : TokenValue)
    (h : (numeral text).outcome = .ok (kind, value)) : kind.isScalarLiteral := by
  rcases numeral_ok_cases h with ⟨n, hn⟩ | ⟨n, hn⟩ | ⟨x, hx⟩
  · cases hn; rfl
  · cases hn; rfl
  · cases hx; rfl

/-- A word or an angle bracket form is not the end of the text. -/
theorem kind_ne_eof_of_word (limits : Limits) (text : List Char) (kind : TokenKind)
    (value : TokenValue) (h : (word limits text).outcome = .ok (kind, value)) :
    kind ≠ .eof := by
  rintro rfl
  rcases word_ok_cases h with ⟨b, hb⟩ | ⟨k, hk, htext⟩
  · cases hb
  · cases htext
    exact absurd hk (by decide)

/-- What a scan means after a change of its meaning. -/
theorem Scan.exists_of_map_ok {α β : Type} (f : α → β) (s : Scan α) (b : β)
    (h : (s.map f).outcome = .ok b) : ∃ a, s.outcome = .ok a ∧ f a = b := by
  rw [Scan.outcome_map] at h
  cases hs : s.outcome with
  | error fault => rw [hs] at h; cases h
  | ok a => rw [hs] at h; cases h; exact ⟨a, rfl, rfl⟩

/-- A symbol or a label with parts is of the kind it is read as. -/
theorem kind_of_reference (limits : Limits) (sigil : Char) (kind k : TokenKind)
    (rest : List Char) (value : TokenValue)
    (h : (reference limits sigil kind rest).outcome = .ok (k, value)) : k = kind := by
  obtain ⟨name, _, hk⟩ := Scan.exists_of_map_ok _ _ _ h
  cases hk
  rfl

/-- No token that is scanned is the end of the text. -/
theorem kind_ne_eof_of_scanToken (limits : Limits) (c : Char) (rest : List Char)
    (kind : TokenKind) (value : TokenValue)
    (h : (scanToken limits c rest).outcome = .ok (kind, value)) : kind ≠ .eof := by
  revert h
  fun_cases scanToken limits c rest with
  | case1 _ =>
      rintro h rfl
      exact absurd (isScalarLiteral_of_numeral _ _ _ h) (by decide)
  | case2 _ _ =>
      intro h
      obtain ⟨s, _, hs⟩ := Scan.exists_of_map_ok _ _ _ h
      cases hs
      decide
  | case3 _ _ _ => exact kind_ne_eof_of_word _ _ _ _
  | case4 _ _ _ _ =>
      intro h
      rw [kind_of_reference _ _ _ _ _ _ h]
      decide
  | case5 _ _ _ _ _ =>
      intro h
      cases h
      decide
  | case6 _ _ _ _ _ _ =>
      fun_cases label limits rest with
      | case1 r => intro h; rw [kind_of_reference _ _ _ _ _ _ h]; decide
      | case2 r _ => intro h; cases h; decide
      | case3 => intro h; rw [kind_of_reference _ _ _ _ _ _ h]; decide
  | case7 _ _ _ _ _ _ =>
      rintro h rfl
      obtain ⟨k, hk, htext⟩ := mark_ok_cases h
      cases htext
      exact absurd hk (by decide)

/-! ## One reading -/

namespace Lexer

/-- Going from one lexer to another takes a gap and a text from the front of the rest. -/
structure Took (l : Lexer) (blank text : List Char) (m : Lexer) : Prop where
  rest : l.rest = blank ++ (text ++ m.rest)
  limits : m.limits = l.limits
  place : m.place = (l.place.after blank).after text

/-- The gap and what follows it make up the rest. -/
theorem gap_append_rest_skip (l : Lexer) : gap l.rest ++ (l.skip (gap l.rest)).rest = l.rest :=
  List.prefix_iff_eq_append.mp (gap_isPrefix l.rest)

/-- Skipping the gap and a text in front of what is left takes both. -/
theorem took_skip (l : Lexer) (text : List Char)
    (h : text <+: (l.skip (gap l.rest)).rest) :
    Took l (gap l.rest) text ((l.skip (gap l.rest)).skip text) where
  rest := by
    have htext : text ++ ((l.skip (gap l.rest)).skip text).rest = (l.skip (gap l.rest)).rest :=
      List.prefix_iff_eq_append.mp h
    rw [htext, gap_append_rest_skip]
  limits := rfl
  place := rfl

/-- A reading is the end of the text, or takes a scan behind the gap. -/
theorem next_cases (l : Lexer) :
    ((l.skip (gap l.rest)).rest = [] ∧
      next l = .ok ⟨String.ofList (gap l.rest), "",
        ⟨.eof, .none, ⟨l.place.after (gap l.rest), 0⟩⟩⟩ (l.skip (gap l.rest))) ∨
    ∃ c rest, (l.skip (gap l.rest)).rest = c :: rest ∧
      next l = take (gap l.rest) (scanToken l.limits c rest) (l.skip (gap l.rest)) := by
  unfold next
  dsimp only
  split
  · next h => exact Or.inl ⟨h, rfl⟩
  · next c rest h => exact Or.inr ⟨c, rest, h, rfl⟩

/-- What a successful reading finds: the end of the text or a scanned token. -/
theorem next_ok_cases {l m : Lexer} {x : Lexeme} (h : next l = .ok x m) :
    (m = l.skip (gap l.rest) ∧ m.rest = [] ∧
      x = ⟨String.ofList (gap l.rest), "", ⟨.eof, .none, ⟨l.place.after (gap l.rest), 0⟩⟩⟩) ∨
    ∃ c rest kind value, (l.skip (gap l.rest)).rest = c :: rest ∧
      (scanToken l.limits c rest).outcome = .ok (kind, value) ∧
      m = (l.skip (gap l.rest)).skip (scanToken l.limits c rest).lexeme ∧
      x = ⟨String.ofList (gap l.rest), String.ofList (scanToken l.limits c rest).lexeme,
        ⟨kind, value, .ofText (l.place.after (gap l.rest)) (scanToken l.limits c rest).lexeme⟩⟩ := by
  rcases next_cases l with ⟨hrest, hnext⟩ | ⟨c, rest, hrest, hnext⟩
  · rw [hnext] at h
    cases h
    exact Or.inl ⟨rfl, hrest, rfl⟩
  · rw [hnext] at h
    unfold take at h
    dsimp only at h
    split at h
    · next kind value hout =>
        cases h
        exact Or.inr ⟨c, rest, kind, value, hrest, hout, rfl, rfl⟩
    · cases h

/-- A successful reading takes its gap and its text, and its span is that of its text. -/
theorem took_of_next {l m : Lexer} {x : Lexeme} (h : next l = .ok x m) :
    Took l x.gap.toList x.text.toList m ∧
      x.token.span = .ofText (l.place.after x.gap.toList) x.text.toList := by
  rcases next_ok_cases h with ⟨rfl, hrest, rfl⟩ | ⟨c, rest, kind, value, hrest, hout, rfl, rfl⟩
  · simp only [String.toList_ofList]
    refine ⟨⟨?_, rfl, rfl⟩, rfl⟩
    rw [hrest]
    have hgap := gap_append_rest_skip l
    rw [hrest] at hgap
    exact hgap.symm
  · have htook := took_skip l _ (hrest ▸ scanToken_isPrefix l.limits c rest)
    simpa only [String.toList_ofList, and_true] using htook

/-- A reading with a fault has taken a gap and the characters that its span covers. -/
theorem took_of_next_error {l m : Lexer} {d : Diagnostic} (h : next l = .error d m) :
    ∃ blank text fault, Took l blank text m ∧
      d = .ofFault fault (.ofText (l.place.after blank) text) := by
  rcases next_cases l with ⟨hrest, hnext⟩ | ⟨c, rest, hrest, hnext⟩
  · rw [hnext] at h
    cases h
  · rw [hnext] at h
    unfold take at h
    dsimp only at h
    split at h
    · cases h
    · next fault hout =>
        cases h
        exact ⟨_, _, fault, took_skip l _ (hrest ▸ scanToken_isPrefix l.limits c rest), rfl⟩

/-- The end of the text is read only where nothing is left, and carries nothing. -/
theorem rest_of_next_eof {l m : Lexer} {x : Lexeme} (h : next l = .ok x m)
    (hx : x.kind = .eof) : m.rest = [] ∧ x.text = "" ∧ x.token.value = .none := by
  rcases next_ok_cases h with ⟨rfl, hrest, rfl⟩ | ⟨c, rest, kind, value, hrest, hout, rfl, rfl⟩
  · exact ⟨hrest, rfl, rfl⟩
  · exact absurd hx (kind_ne_eof_of_scanToken l.limits c rest kind value hout)

/-- Where nothing is left, a reading is the end of the text again. -/
theorem next_of_rest_nil (l : Lexer) (h : l.rest = []) :
    next l = .ok ⟨"", "", ⟨.eof, .none, ⟨l.place, 0⟩⟩⟩ l := by
  obtain ⟨limits, place, rest⟩ := l
  obtain rfl : rest = [] := h
  rfl

/-! ## Readings up to the end -/

/-- The lexemes that a lexer reads up to the end of its text, none of them with a fault. -/
inductive Reads : Lexer → List Lexeme → Prop where
  | last {l m : Lexer} {x : Lexeme} (hnext : next l = .ok x m) (hx : x.kind = .eof) :
      Reads l [x]
  | more {l m : Lexer} {x : Lexeme} {xs : List Lexeme} (hnext : next l = .ok x m)
      (hx : x.kind ≠ .eof) (hrest : Reads m xs) : Reads l (x :: xs)

/-- Reading up to the end without a fault gives the lexemes of `Lexer.readAll`. -/
theorem reads_iff (l : Lexer) (xs : List Lexeme) :
    Reads l xs ↔ (readAll l).fault = none ∧ (readAll l).lexemes = xs := by
  constructor
  · intro h
    induction h with
    | last hnext hx => rw [readAll_eq, hnext]; simp [hx]
    | more hnext hx _ ih => rw [readAll_eq, hnext]; simp [hx, ih]
  · intro h
    fun_induction readAll l generalizing xs with
    | case1 l d m hnext => simp at h
    | case2 l x m hnext hx =>
        obtain ⟨_, rfl⟩ := h
        exact .last hnext hx
    | case3 l x m hnext hx later ih =>
        obtain ⟨hfault, rfl⟩ := h
        exact .more hnext hx (ih _ ⟨hfault, rfl⟩)

/-- Tokenizing gives the tokens of the lexemes read, where they are read without a fault. -/
theorem tokenize_eq_ok_iff (l m : Lexer) (tokens : List Token) :
    tokenize l = .ok tokens m ↔ (readAll l).fault = none ∧
      (readAll l).lexemes.map Lexeme.token = tokens ∧ (readAll l).lexer = m := by
  rw [tokenize]
  cases (readAll l).fault with
  | none =>
      constructor
      · intro h
        cases h
        exact ⟨rfl, rfl, rfl⟩
      · rintro ⟨_, rfl, rfl⟩
        rfl
  | some d =>
      constructor
      · intro h
        cases h
      · rintro ⟨h, _⟩
        cases h

end Lexer

/-! ## The lexemes that a parser faces -/

namespace Parser

/-- The lexemes that a parser has before it, its lookahead first and the end of the text
last, with nothing skipped behind the lookahead. -/
def Faces (p : Parser) (xs : List Lexeme) : Prop :=
  p.skipped = [] ∧ ∃ l, Lexer.next l = .ok p.lookahead p.lexer ∧ l.Reads xs

/-- A parser at the start of a source faces all its lexemes. -/
theorem faces_ofSource (limits : Limits) (source : String) (xs : List Lexeme)
    (h : (Lexer.ofSource limits source).Reads xs) :
    ∃ p, Parser.ofSource limits source = .ok p ∧ p.Faces xs ∧ p.lexer.limits = limits ∧
      p.passed = [] := by
  have hnext : ∃ x m, Lexer.next (Lexer.ofSource limits source) = .ok x m := by
    cases h with
    | last hnext _ => exact ⟨_, _, hnext⟩
    | more hnext _ _ => exact ⟨_, _, hnext⟩
  obtain ⟨x, m, hnext⟩ := hnext
  refine ⟨⟨m, x, [], []⟩, ?_, ⟨rfl, _, hnext, h⟩, (Lexer.took_of_next hnext).1.limits, rfl⟩
  simp [Parser.ofSource, hnext]

/-- The lexeme that a parser reads when it goes on is its next lookahead. -/
theorem next_of_advance {p q : Parser} {x : Lexeme} (h : Parse.advance p = .ok x q) :
    Lexer.next p.lexer = .ok q.lookahead q.lexer := by
  unfold Parse.advance at h
  split at h
  · next y l hnext =>
      cases h
      exact hnext
  · cases h

namespace Faces

variable {p : Parser} {x : Lexeme} {xs : List Lexeme}

/-- A parser that faces a run of lexemes skipped nothing behind its lookahead. -/
theorem skipped (h : p.Faces xs) : p.skipped = [] := h.1

/-- The first lexeme a parser faces is its lookahead. -/
theorem lookahead (h : p.Faces (x :: xs)) : p.lookahead = x := by
  obtain ⟨_, l, hnext, hreads⟩ := h
  cases hreads with
  | last hx _ => rw [hnext] at hx; cases hx; rfl
  | more hx _ _ => rw [hnext] at hx; cases hx; rfl

/-- A parser always faces a lexeme. -/
theorem ne_nil (h : p.Faces xs) : xs ≠ [] := by
  obtain ⟨_, l, _, hreads⟩ := h
  cases hreads <;> simp

/-- A parser faces its lookahead and the lexemes after it. -/
theorem exists_cons (h : p.Faces xs) : ∃ ys, xs = p.lookahead :: ys := by
  cases xs with
  | nil => exact absurd rfl h.ne_nil
  | cons y ys => exact ⟨ys, by rw [h.lookahead]⟩

/-- The end of the text is the last lexeme faced. -/
theorem eq_nil_of_eof (h : p.Faces (x :: xs)) (hx : x.kind = .eof) : xs = [] := by
  obtain ⟨_, l, _, hreads⟩ := h
  cases hreads with
  | last _ _ => rfl
  | more _ hne _ => exact absurd hx hne

/-- The end of the text carries nothing. -/
theorem text_of_eof (h : p.Faces (x :: xs)) (hx : x.kind = .eof) :
    x.text = "" ∧ x.token.value = .none := by
  obtain ⟨_, l, _, hreads⟩ := h
  cases hreads with
  | last hnext _ => exact (Lexer.rest_of_next_eof hnext hx).2
  | more _ hne _ => exact absurd hx hne

/-- A parser that faces a lexeme before the end goes past it. -/
theorem advance (h : p.Faces (x :: xs)) (hx : x.kind ≠ .eof) :
    ∃ q, Parse.advance p = .ok x q ∧ q.Faces xs ∧ q.lexer.limits = p.lexer.limits := by
  have hlook := h.lookahead
  obtain ⟨_, l, hnext, hreads⟩ := h
  cases hreads with
  | last _ heof => exact absurd heof hx
  | @more _ m _ _ hnext' _ hrest =>
      rw [hnext] at hnext'
      cases hnext'
      have hnext' : ∃ y k, Lexer.next p.lexer = .ok y k := by
        cases hrest with
        | last hy _ => exact ⟨_, _, hy⟩
        | more hy _ _ => exact ⟨_, _, hy⟩
      obtain ⟨y, k, hy⟩ := hnext'
      refine ⟨⟨k, y, p.lookahead :: p.passed, []⟩, ?_, ⟨rfl, p.lexer, hy, hrest⟩,
        (Lexer.took_of_next hy).1.limits⟩
      simp [Parse.advance, hy]

/-- At the end of the text a parser goes on to the end again, with no gap before it. -/
theorem advance_eof (h : p.Faces [x]) (hx : x.kind = .eof) :
    ∃ q, Parse.advance p = .ok x q ∧ q.Faces [q.lookahead] ∧ q.kind = .eof ∧
      q.lexer.limits = p.lexer.limits := by
  have hlook := h.lookahead
  obtain ⟨_, l, hnext, hreads⟩ := h
  rw [hlook] at hnext
  have hy := Lexer.next_of_rest_nil p.lexer (Lexer.rest_of_next_eof hnext hx).1
  refine ⟨⟨p.lexer, _, x :: p.passed, []⟩, ?_, ⟨rfl, p.lexer, hy, .last hy rfl⟩, rfl, rfl⟩
  rw [Parse.advance, hy, hlook]

/-- The lookahead stands behind the gap after the text of the lexeme before it. -/
theorem offset_second {y : Lexeme} (h : p.Faces (x :: y :: xs)) :
    y.token.span.offset = x.token.span.stop + byteLength y.gap.toList := by
  obtain ⟨_, l, hnext, hreads⟩ := h
  cases hreads with
  | @more _ m _ _ hx _ hrest =>
      obtain ⟨htook, hspan⟩ := Lexer.took_of_next hx
      have hy : ∃ k, Lexer.next m = .ok y k := by
        cases hrest with
        | last hy _ => exact ⟨_, hy⟩
        | more hy _ _ => exact ⟨_, hy⟩
      obtain ⟨k, hy⟩ := hy
      rw [(Lexer.took_of_next hy).2, hspan, Span.stop_ofText, ← htook.place]
      exact Place.offset_after m.place y.gap.toList

/-- A lexeme touches the one before it where there is no gap. -/
theorem touches_iff {y : Lexeme} (h : p.Faces (x :: y :: xs)) :
    y.token.span.offset = x.token.span.stop ↔ y.gap = "" := by
  rw [h.offset_second]
  constructor
  · intro hoffset
    have hzero : byteLength y.gap.toList = 0 := by omega
    rw [← String.toList_eq_nil_iff]
    cases hgap : y.gap.toList with
    | nil => rfl
    | cons c text =>
        rw [hgap, byteLength_cons] at hzero
        have hpos := Char.utf8Size_pos c
        omega
  · intro hgap
    rw [hgap]
    rfl

end Faces

end Parser

end GenericIR
