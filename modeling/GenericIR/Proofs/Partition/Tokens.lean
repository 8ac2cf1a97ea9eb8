/-
# Tokens partition the source

The tokens of a source stand in order and do not overlap, and what is between two of them is a
gap.  This holds of the tokens up to the end of the source, and of those before a fault.

* `Lexer.tokenAt_of_next` : one reading takes a gap and a token from the front of what is left;
* `Lexer.partition_readAll` : all readings, by induction on them;
* `Lexer.tokens_partition` : the tokens of a source, and those before its first fault.
-/
import GenericIR.Proofs.Bytes.Source
import GenericIR.Proofs.FirstFault
import GenericIR.Proofs.Layout.Relaid
import GenericIR.Proofs.Partition.Shape

namespace GenericIR

/-! ## One token -/

/-- How a token stands in a source behind an offset.  The stretch between them is a layout; where
the token is the end of the source, it may end in an open comment.  The token stands at neither a
blank nor a comment, and carries what it has to of the text that its span covers. -/
structure TokenAt (source : List Char) (n : Nat) (t : Token) : Prop where
  between : ∃ blank, slice? source n t.span.offset = some blank ∧
    (Layout blank ∨ t.kind = .eof ∧ EndsOpen blank)
  start : ∃ rest, textFrom? source t.span.offset = some rest ∧ (∀ c ∈ rest.head?, ¬ isBlank c) ∧
    ¬ ['/', '/'] <+: rest ∧ ¬ ['/', '*'] <+: rest
  text : ∃ text, slice? source t.span.offset t.span.stop = some text ∧
    Carries t.kind t.value text ∧ (t.kind ≠ .eof → text ≠ [])
  ending : t.kind = .eof →
    t.span.offset = byteLength source ∧ t.span.len = 0 ∧ t.value = .none

namespace TokenAt

variable {source : List Char} {n : Nat} {t : Token}

/-- A token does not start before the offset that it stands behind. -/
theorem le_offset (h : TokenAt source n t) : n ≤ t.span.offset := by
  obtain ⟨blank, hblank, _⟩ := h.between
  obtain ⟨front, _, _, hn, hoffset⟩ := (slice?_eq_some_iff _ _ _ _).mp hblank
  rw [hn, hoffset, byteLength_append]
  exact Nat.le_add_right _ _

/-- A token that is not the end of the source covers some of it. -/
theorem offset_lt_stop (h : TokenAt source n t) (ht : t.kind ≠ .eof) :
    t.span.offset < t.span.stop := by
  obtain ⟨text, htext, _, hne⟩ := h.text
  obtain ⟨front, _, _, hstart, hstop⟩ := (slice?_eq_some_iff _ _ _ _).mp htext
  have hpos : 0 < byteLength text :=
    Nat.pos_of_ne_zero fun hzero => hne ht (eq_nil_of_byteLength_eq_zero text hzero)
  rw [hstart, hstop, byteLength_append]
  omega

end TokenAt

/-! ## All tokens -/

/-- Where the last of some tokens stops, or an offset where there is none. -/
def lastStop (n : Nat) : List Token → Nat
  | [] => n
  | t :: tokens => lastStop t.span.stop tokens

/-- Tokens that partition a source from an offset on: they stand in order and do not overlap,
each of them behind the one before it, and only the last may be the end of the source. -/
structure Partition (source : List Char) (n : Nat) (tokens : List Token) : Prop where
  behind : ∀ t ∈ tokens, n ≤ t.span.offset
  ordered : tokens.Pairwise fun s t => s.span.offset < t.span.offset ∧ s.span.stop ≤ t.span.offset
  pieces : ∀ pair ∈ (n :: tokens.map (·.span.stop)).zip tokens, TokenAt source pair.1 pair.2
  ending : ∀ t ∈ tokens.dropLast, t.kind ≠ .eof

namespace Partition

variable {source : List Char} {n : Nat} {t : Token} {tokens : List Token}

/-- No tokens partition a source in which nothing is read. -/
theorem nil (source : List Char) (n : Nat) : Partition source n [] where
  behind _ h := (List.not_mem_nil h).elim
  ordered := .nil
  pieces _ h := (List.not_mem_nil h).elim
  ending _ h := (List.not_mem_nil h).elim

/-- A token before tokens that partition the source behind it. -/
theorem cons (ht : TokenAt source n t) (htokens : Partition source t.span.stop tokens)
    (hend : t.kind = .eof → tokens = []) : Partition source n (t :: tokens) where
  behind s hs := by
    rcases List.mem_cons.mp hs with rfl | hs
    · exact ht.le_offset
    · have hstop : t.span.offset ≤ t.span.stop := Nat.le_add_right _ _
      exact Nat.le_trans ht.le_offset (Nat.le_trans hstop (htokens.behind s hs))
  ordered := by
    refine .cons (fun s hs => ?_) htokens.ordered
    have hne : t.kind ≠ .eof := fun h => List.ne_nil_of_mem hs (hend h)
    exact ⟨Nat.lt_of_lt_of_le (ht.offset_lt_stop hne) (htokens.behind s hs), htokens.behind s hs⟩
  pieces pair hpair := by
    rw [List.zip_cons_cons, List.map_cons] at hpair
    rcases List.mem_cons.mp hpair with rfl | hpair
    · exact ht
    · exact htokens.pieces pair hpair
  ending s hs := by
    cases tokens with
    | nil => exact (List.not_mem_nil hs).elim
    | cons u tokens =>
        rw [List.dropLast_cons_of_ne_nil (List.cons_ne_nil u tokens)] at hs
        rcases List.mem_cons.mp hs with rfl | hs
        · exact fun h => List.cons_ne_nil u tokens (hend h)
        · exact htokens.ending s hs

/-- Every one of the tokens stands in the source behind some offset. -/
theorem exists_tokenAt (h : Partition source n tokens) (ht : t ∈ tokens) : ∃ m, TokenAt source m t := by
  have hlen : tokens.length ≤ (n :: tokens.map (·.span.stop)).length := by simp
  rw [← List.map_snd_zip hlen] at ht
  obtain ⟨⟨m, _⟩, hpair, rfl⟩ := List.mem_map.mp ht
  exact ⟨m, h.pieces _ hpair⟩

end Partition

/-! ## Readings -/

namespace Lexer

variable {source : List Char} {l m : Lexer} {x : Lexeme}

/-- A lexer that stands in a source stands there behind the gap, where no gap follows. -/
theorem stands_skip_gap (h : l.place.Stands source l.rest) :
    l.place.Stands source (gap l.rest ++ (l.skip (gap l.rest)).rest) ∧
      gap (l.skip (gap l.rest)).rest = [] :=
  ⟨by rwa [gap_append_rest_skip], gap_drop_gap l.rest⟩

/-- A gap with text behind it is a layout. -/
theorem layout_gap_of_rest {c : Char} {rest : List Char}
    (hrest : (l.skip (gap l.rest)).rest = c :: rest) : Layout (gap l.rest) := by
  rcases gap_shape l.rest with hlayout | ⟨hall, _⟩
  · exact hlayout
  · have hskip := gap_append_rest_skip l
    rw [hrest, hall] at hskip
    exact absurd (List.append_right_eq_self.mp hskip) (List.cons_ne_nil c rest)

/-- One reading finds a token behind the place of the lexer, and leaves it where that token
stops. -/
theorem tokenAt_of_next (h : l.place.Stands source l.rest) (hnext : next l = .ok x m) :
    TokenAt source l.place.offset x.token ∧ m.place.Stands source m.rest ∧
      m.place.offset = x.token.span.stop := by
  obtain ⟨hgap, hnone⟩ := stands_skip_gap h
  have hstart : ∃ rest, textFrom? source (l.place.after (gap l.rest)).offset = some rest ∧
      (∀ c ∈ rest.head?, ¬ isBlank c) ∧ ¬ ['/', '/'] <+: rest ∧ ¬ ['/', '*'] <+: rest :=
    ⟨_, hgap.after.textFrom?, not_gap_of_gap_eq_nil hnone⟩
  rcases next_ok_cases hnext with ⟨rfl, hrest, rfl⟩ | ⟨c, rest, kind, value, hrest, hout, rfl, rfl⟩
  · rw [hrest] at hgap
    have hend : (l.place.after (gap l.rest)).offset = byteLength source := by
      obtain ⟨front, hsource, hfront⟩ := hgap.after
      rw [hfront, hsource, List.append_nil]
    have hempty : Carries .eof .none [] := ⟨fun _ _ _ hne => absurd rfl hne, fun heq => by cases heq⟩
    have hslice : slice? source (l.place.after (gap l.rest)).offset
        (l.place.after (gap l.rest)).offset = some [] :=
      @Place.Stands.slice? _ source [] [] hgap.after
    refine ⟨⟨⟨_, hgap.slice?, ?_⟩, hstart, ⟨[], hslice, hempty, fun hne => absurd rfl hne⟩,
      fun _ => ⟨hend, rfl, rfl⟩⟩, hrest ▸ hgap.after, rfl⟩
    rcases gap_shape l.rest with hlayout | ⟨hall, hopen⟩
    · exact Or.inl hlayout
    · exact Or.inr ⟨rfl, hall.symm ▸ hopen⟩
  · obtain ⟨behind, hbehind⟩ := scanToken_isPrefix l.limits c rest
    have htext : (l.place.after (gap l.rest)).Stands source
        ((scanToken l.limits c rest).lexeme ++ behind) := by
      rw [hbehind, ← hrest]
      exact hgap.after
    have hlayout := layout_gap_of_rest hrest
    have hkind := kind_ne_eof_of_scanToken l.limits c rest kind value hout
    refine ⟨⟨⟨_, hgap.slice?, Or.inl hlayout⟩, hstart,
      ⟨_, ?_, carries_of_scanToken hout, fun _ => lexeme_scanToken_ne_nil l.limits c rest⟩,
      fun heq => absurd heq hkind⟩, ?_, ?_⟩
    · rw [Span.stop_ofText]
      exact htext.slice?
    · have hafter := htext.after
      have hdrop : (c :: rest).drop (scanToken l.limits c rest).lexeme.length = behind := by
        rw [← hbehind, List.drop_left]
      show Place.Stands _ source ((l.skip (gap l.rest)).rest.drop _)
      rw [hrest, hdrop]
      exact hafter
    · exact (Span.stop_ofText _ _).symm

/-- A fault covers text behind a layout at the place of the lexer. -/
theorem layout_of_next_error {d : Diagnostic} (h : l.place.Stands source l.rest)
    (hnext : next l = .error d m) : ∃ s blank, d.span = some s ∧
      slice? source l.place.offset s.offset = some blank ∧ Layout blank := by
  obtain ⟨hgap, _⟩ := stands_skip_gap h
  rcases next_cases l with ⟨_, hend⟩ | ⟨c, rest, hrest, htake⟩
  · rw [hend] at hnext
    cases hnext
  · rw [htake, take] at hnext
    split at hnext
    · cases hnext
    · cases hnext
      exact ⟨_, _, rfl, hgap.slice?, layout_gap_of_rest hrest⟩

/-- The tokens up to the end of the source or up to the first fault partition the source; either
the end of the source is the last of them, or a layout is between the last of them and the
fault. -/
theorem partition_readAll (h : l.place.Stands source l.rest) :
    Partition source l.place.offset ((readAll l).lexemes.map Lexeme.token) ∧
    ((readAll l).fault = none → ∃ front e, (readAll l).lexemes.map Lexeme.token = front ++ [e] ∧
      e.kind = .eof) ∧
    ∀ d, (readAll l).fault = some d →
      (∀ t ∈ (readAll l).lexemes.map Lexeme.token, t.kind ≠ .eof) ∧
      ∃ s blank, d.span = some s ∧ Layout blank ∧
        slice? source (lastStop l.place.offset ((readAll l).lexemes.map Lexeme.token)) s.offset =
          some blank := by
  fun_induction readAll l with
  | case1 l d m hnext =>
      obtain ⟨s, blank, hspan, hslice, hlayout⟩ := layout_of_next_error h hnext
      refine ⟨.nil source _, (by rintro ⟨⟩), fun e he => ?_⟩
      cases he
      exact ⟨fun t ht => (List.not_mem_nil ht).elim, s, blank, hspan, hlayout, hslice⟩
  | case2 l x m hnext hx =>
      obtain ⟨htoken, _, _⟩ := tokenAt_of_next h hnext
      exact ⟨.cons htoken (.nil source _) fun _ => rfl, fun _ => ⟨[], x.token, rfl, hx⟩,
        (by rintro d ⟨⟩)⟩
  | case3 l x m hnext hx later ih =>
      obtain ⟨htoken, hstands, hstop⟩ := tokenAt_of_next h hnext
      obtain ⟨hlater, hok, herror⟩ := ih hstands
      rw [hstop] at hlater herror
      refine ⟨.cons htoken hlater fun heof => absurd heof hx, fun hnone => ?_, fun d hd => ?_⟩
      · obtain ⟨front, e, hsplit, he⟩ := hok hnone
        exact ⟨x.token :: front, e, congrArg (x.token :: ·) hsplit, he⟩
      · obtain ⟨hne, hspan⟩ := herror d hd
        refine ⟨fun t ht => ?_, hspan⟩
        rcases List.mem_cons.mp ht with rfl | ht
        · exact hx
        · exact hne t ht

/-- The tokens of a source partition it, the end of the source the last of them and no other.  The
tokens before a fault partition the source up to the fault, none of them the end of the source. -/
theorem tokens_partition (limits : Limits) (source : String) :
    (∀ tokens l, tokenize (.ofSource limits source) = .ok tokens l →
      Partition source.toList 0 tokens ∧
      ∃ front e, tokens = front ++ [e] ∧ e.kind = .eof ∧
        e.span.offset = byteLength source.toList ∧ e.span.len = 0) ∧
    (∀ d l, tokenize (.ofSource limits source) = .error d l →
      ∃ tokens, (readAll (.ofSource limits source)).lexemes.map Lexeme.token = tokens ∧
        Partition source.toList 0 tokens ∧ (∀ t ∈ tokens, t.kind ≠ .eof) ∧
        ∃ s blank, d.span = some s ∧ Layout blank ∧
          slice? source.toList (lastStop 0 tokens) s.offset = some blank) := by
  obtain ⟨hpartition, hok, herror⟩ :=
    @partition_readAll source.toList (.ofSource limits source) (.start _)
  constructor
  · intro tokens l htokens
    obtain ⟨hfault, rfl, _⟩ := (tokenize_eq_ok_iff _ _ _).mp htokens
    obtain ⟨front, e, hsplit, he⟩ := hok hfault
    obtain ⟨m, htoken⟩ := hpartition.exists_tokenAt (t := e) (by rw [hsplit]; simp)
    obtain ⟨hoffset, hlen, _⟩ := htoken.ending he
    exact ⟨hpartition, front, e, hsplit, he, hoffset, hlen⟩
  · intro d l hd
    have hfault := (tokenize_eq_error_iff _ _).mp ⟨l, hd⟩
    exact ⟨_, rfl, hpartition, herror d hfault⟩

end Lexer

end GenericIR
