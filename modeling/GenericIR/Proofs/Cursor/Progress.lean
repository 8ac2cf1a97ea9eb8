/-
# Readings always go on

A reading meets the end of the text, which it then meets again and again, or it goes on: neither a
token nor what an error is about is ever empty.  So a lexer that is asked again and again comes to
the end, whatever errors there are on the way, and it takes no more readings than there are bytes
left, and one for the end itself.

* `Lexer.goesOn_next` : what one reading does to the place of the lexer;
* `Lexer.Reachable.exists_end` : the end is met, by induction on the bytes that are left;
* `Lexer.Reachable.exists_tokenizedIn` : tokenizing is a number of readings;
* `Lexer.goesOn_of_reachable` : all of this for any lexer that calls leave behind.
-/
import GenericIR.Proofs.Cursor.Lockstep

namespace GenericIR

namespace Lexer

section

variable {limits : Limits} {source : String} {l m : Lexer} {x : Lexeme} {d : Diagnostic}

/-! ## One reading -/

/-- Skipping a gap and a text that is not empty moves the place of a lexer. -/
theorem offset_lt_skip (l : Lexer) (blank : List Char) {text : List Char} (h : text ≠ []) :
    l.place.offset < ((l.skip blank).skip text).place.offset := by
  show l.place.offset < ((l.place.after blank).after text).offset
  have hpos : byteLength text ≠ 0 := mt (eq_nil_of_byteLength_eq_zero text) h
  rw [Place.offset_after, Place.offset_after]
  omega

/-- A reading that gives a token other than the end moves the place of the lexer. -/
theorem offset_lt_of_next (h : next l = .ok x m) (hx : x.kind ≠ .eof) :
    l.place.offset < m.place.offset := by
  rcases next_ok_cases h with ⟨_, _, rfl⟩ | ⟨c, rest, _, _, _, _, rfl, _⟩
  · exact absurd rfl hx
  · exact offset_lt_skip l _ (lexeme_scanToken_ne_nil l.limits c rest)

/-- A reading with an error moves the place of the lexer. -/
theorem offset_lt_of_next_error (h : next l = .error d m) : l.place.offset < m.place.offset := by
  rcases next_cases l with ⟨_, hnext⟩ | ⟨c, rest, _, hnext⟩
  · rw [hnext] at h
    cases h
  · rw [hnext] at h
    unfold take at h
    dsimp only at h
    split at h
    · cases h
    · cases h
      exact offset_lt_skip l _ (lexeme_scanToken_ne_nil l.limits c rest)

/-- No reading brings the place of the lexer back. -/
theorem offset_le_after_next (l : Lexer) : l.place.offset ≤ (after next l).place.offset := by
  cases hnext : next l with
  | ok x m =>
      rw [after_of_ok hnext]
      exact (took_of_next hnext).1.offset_le
  | error d m =>
      rw [after_of_error hnext]
      exact (offset_lt_of_next_error hnext).le

/-! ## Readings one after the other -/

/-- The first of some readings comes before the others. -/
theorem afterReadings_succ_eq (l : Lexer) (k : Nat) :
    l.afterReadings (k + 1) = (after next l).afterReadings k :=
  Function.iterate_succ_apply _ _ _

/-- The lexemes of some readings are that of the first, unless it ends with an error, and those of
the others. -/
theorem given_succ_eq (l : Lexer) (k : Nat) :
    l.given (k + 1) = l.reading?.toList ++ (after next l).given k := by
  induction k with
  | zero =>
      rw [given_succ, given_zero, given_zero, List.nil_append, List.append_nil]
      rfl
  | succ k ih => rw [given_succ, ih, afterReadings_succ_eq, List.append_assoc, ← given_succ]

/-- Readings never bring the place of a lexer back. -/
theorem offset_le_afterReadings (l : Lexer) (k : Nat) :
    l.place.offset ≤ (l.afterReadings k).place.offset := by
  induction k with
  | zero => exact Nat.le_refl _
  | succ k ih =>
      rw [afterReadings_succ]
      exact ih.trans (offset_le_after_next _)

/-- The token of a reading starts no earlier than the lexer stands. -/
theorem offset_le_of_next (h : next l = .ok x m) : l.place.offset ≤ x.token.span.offset := by
  rw [(took_of_next h).2]
  show l.place.offset ≤ (l.place.after x.gap.toList).offset
  rw [Place.offset_after]
  exact Nat.le_add_right _ _

/-- A reading that meets the end leaves a lexer that further readings do not move, and each of them
gives the same token again. -/
theorem next_afterReadings_of_eof (h : next l = .ok x m) (hx : x.kind = .eof) (k : Nat) :
    m.afterReadings k = m ∧ ∃ y, next m = .ok y m ∧ y.token = x.token := by
  rcases next_ok_cases h with ⟨rfl, hrest, rfl⟩ | ⟨_, _, _, _, _, hout, _, rfl⟩
  · have hagain := next_of_rest_nil _ hrest
    refine ⟨?_, _, hagain, rfl⟩
    exact Function.iterate_fixed (after_of_ok hagain) k
  · exact absurd hx (kind_ne_eof_of_scanToken _ _ _ _ _ hout)

/-- How a reading of a source goes on.  It meets the end of the text, leaves the lexer at the end
of the source, and each later reading gives an equal token and leaves the lexer there; or it gives
another token or an error, and leaves the lexer further on. -/
inductive GoesOn (source : String) (l : Lexer) : EStateM.Result Diagnostic Lexer Lexeme → Prop where
  | atEnd {x : Lexeme} {m : Lexer} (hx : x.kind = .eof)
      (hplace : m.place.offset = source.utf8ByteSize)
      (hagain : ∀ k, ∃ y, next (m.afterReadings k) = .ok y m ∧ y.token = x.token) :
      GoesOn source l (.ok x m)
  | token {x : Lexeme} {m : Lexer} (hx : x.kind ≠ .eof)
      (hplace : l.place.offset < m.place.offset) : GoesOn source l (.ok x m)
  | fault {d : Diagnostic} {m : Lexer} (hplace : l.place.offset < m.place.offset) :
      GoesOn source l (.error d m)

/-- The bytes before the place of a lexer and those of its rest are all bytes of the source. -/
theorem ReachedIn.offset_add (h : ReachedIn source.toList l) :
    l.place.offset + byteLength l.rest = source.utf8ByteSize := by
  obtain ⟨front, hsource, hplace⟩ := h
  rw [← byteLength_toList, hsource, byteLength_append, hplace, Place.offset_after]
  show 0 + byteLength front + _ = _
  rw [Nat.zero_add]

/-- One reading of a lexer that has reached its place goes on, or is at the end. -/
theorem goesOn_next (h : ReachedIn source.toList l) : GoesOn source l (next l) := by
  cases hnext : next l with
  | error d m => exact .fault (offset_lt_of_next_error hnext)
  | ok x m =>
      by_cases hx : x.kind = .eof
      · refine .atEnd hx ?_ fun k => ?_
        · have hall := (reached_of_next h hnext).2.1.offset_add
          rwa [(rest_of_next_eof hnext hx).1] at hall
        · obtain ⟨hfixed, y, hy⟩ := next_afterReadings_of_eof hnext hx k
          exact ⟨y, hfixed.symm ▸ hy⟩
      · exact .token hx (offset_lt_of_next hnext hx)

/-! ## Reading on to the end -/

/-- A lexer that is asked again and again meets the end, in no more readings than there are bytes
left and one more.  The induction is on the bytes that are left. -/
theorem Reachable.exists_end (h : Reachable limits source l) :
    ∃ k ≤ source.utf8ByteSize - l.place.offset, ∃ x m,
      next (l.afterReadings k) = .ok x m ∧ x.kind = .eof := by
  induction hn : source.utf8ByteSize - l.place.offset using Nat.strongRecOn generalizing l with
  | ind n ih =>
      have hlater : l.place.offset < (after next l).place.offset →
          ∃ k ≤ n, ∃ x m, next (l.afterReadings k) = .ok x m ∧ x.kind = .eof := by
        intro hlt
        have hall := h.reading.reached.offset_add
        obtain ⟨k, hk, x, m, hnext, hx⟩ := ih _ (by omega) h.reading rfl
        refine ⟨k + 1, by omega, x, m, ?_, hx⟩
        rw [afterReadings_succ_eq, hnext]
      have hgoes := goesOn_next h.reached
      generalize hnext : next l = r at hgoes
      cases hgoes with
      | @atEnd x m hx _ _ => exact ⟨0, Nat.zero_le _, x, m, hnext, hx⟩
      | token _ hplace => exact hlater ((after_of_ok hnext).symm ▸ hplace)
      | fault hplace => exact hlater ((after_of_error hnext).symm ▸ hplace)

/-! ## Tokenizing -/

/-- Tokenizing that takes a number of readings and one more.  The readings before the last give
tokens other than the end.  The last meets the end, and the tokens of all of them are given; or it
ends with an error, and so does the tokenizing.  The lexer is left where the last reading leaves
it. -/
structure TokenizedIn (l : Lexer) (k : Nat) (r : EStateM.Result Diagnostic Lexer (List Token)) :
    Prop where
  before : ∀ i < k, ∃ x m, next (l.afterReadings i) = .ok x m ∧ x.kind ≠ .eof
  last : match r with
    | .ok tokens m => tokens = (l.given (k + 1)).map Lexeme.token ∧
        ∃ x, next (l.afterReadings k) = .ok x m ∧ x.kind = .eof
    | .error d m => next (l.afterReadings k) = .error d m

/-- What further tokens make of the outcome of tokenizing. -/
def withFirst (t : Token) :
    EStateM.Result Diagnostic Lexer (List Token) → EStateM.Result Diagnostic Lexer (List Token)
  | .ok tokens m => .ok (t :: tokens) m
  | .error d m => .error d m

/-- Tokenizing goes by what the first reading gives: an error or the end is the last of it, and
another token is the first of what is to come. -/
theorem tokenize_eq (l : Lexer) : tokenize l = match next l with
    | .error d m => .error d m
    | .ok x m =>
      if x.kind = .eof then .ok [x.token] m else withFirst x.token (tokenize m) := by
  unfold tokenize
  rw [readAll_eq]
  cases next l with
  | error d m => rfl
  | ok x m =>
      dsimp only
      by_cases hx : x.kind = .eof
      · rw [if_pos hx, if_pos hx]
        rfl
      · rw [if_neg hx, if_neg hx]
        dsimp only
        cases (readAll m).fault <;> rfl

namespace TokenizedIn

variable {k : Nat} {r : EStateM.Result Diagnostic Lexer (List Token)}

/-- Tokenizing that ends with the first reading takes no other. -/
theorem first_error (hnext : next l = .error d m) : TokenizedIn l 0 (.error d m) :=
  ⟨nofun, hnext⟩

/-- Tokenizing that meets the end with the first reading takes no other. -/
theorem first_end (hnext : next l = .ok x m) (hx : x.kind = .eof) :
    TokenizedIn l 0 (.ok [x.token] m) := by
  refine ⟨nofun, ?_, x, hnext, hx⟩
  rw [given_succ_eq, given_zero, reading?, hnext]
  rfl

/-- A token other than the end is one reading before those that are to come. -/
theorem more (hnext : next l = .ok x m) (hx : x.kind ≠ .eof) (h : TokenizedIn m k r) :
    TokenizedIn l (k + 1) (withFirst x.token r) where
  before i hi := by
    cases i with
    | zero => exact ⟨x, m, hnext, hx⟩
    | succ i =>
        rw [afterReadings_succ_eq, after_of_ok hnext]
        exact h.before i (Nat.lt_of_succ_lt_succ hi)
  last := by
    have hlast := h.last
    cases r with
    | error d n =>
        show next _ = _
        rw [afterReadings_succ_eq, after_of_ok hnext]
        exact hlast
    | ok tokens n =>
        obtain ⟨htokens, hend⟩ := hlast
        refine ⟨?_, ?_⟩
        · rw [given_succ_eq, after_of_ok hnext, reading?, hnext, htokens]
          rfl
        · rw [afterReadings_succ_eq, after_of_ok hnext]
          exact hend

end TokenizedIn

/-- Tokenizing takes no more readings than there are bytes left, and one more.  The induction is on
the bytes that are left. -/
theorem Reachable.exists_tokenizedIn (h : Reachable limits source l) :
    ∃ k ≤ source.utf8ByteSize - l.place.offset, TokenizedIn l k (tokenize l) := by
  induction hn : source.utf8ByteSize - l.place.offset using Nat.strongRecOn generalizing l with
  | ind n ih =>
      rw [tokenize_eq]
      cases hnext : next l with
      | error d m => exact ⟨0, Nat.zero_le _, .first_error hnext⟩
      | ok x m =>
          dsimp only
          by_cases hx : x.kind = .eof
          · rw [if_pos hx]
            exact ⟨0, Nat.zero_le _, .first_end hnext hx⟩
          · rw [if_neg hx]
            have hlt := offset_lt_of_next hnext hx
            have hall := (h.of_next hnext).reached.offset_add
            obtain ⟨k, hk, htokenized⟩ := ih _ (by omega) (h.of_next hnext) rfl
            exact ⟨k + 1, by omega, htokenized.more hnext hx⟩

/-! ## Any lexer that calls leave behind -/

/-- A lexer that calls have left behind in a source, calls with an error among them, always goes
on.  One reading meets the end, is at the end of the source and gives an equal token ever after, or
it leaves the lexer further on, with a token or with an error.  So the end is met, whatever errors
there are on the way, in no more readings than there are bytes left and one more; tokenizing is
that many readings at most; and what is read behind an error starts no earlier than where the
reading with that error left the lexer. -/
theorem goesOn_of_reachable (limits : Limits) (source : String) (l : Lexer)
    (h : Reachable limits source l) :
    GoesOn source l (next l) ∧
    (∃ k ≤ source.utf8ByteSize - l.place.offset, ∃ x m,
      next (l.afterReadings k) = .ok x m ∧ x.kind = .eof) ∧
    (∃ k ≤ source.utf8ByteSize - l.place.offset, TokenizedIn l k (tokenize l)) ∧
    ∀ d m, next l = .error d m → ∀ k x n, next (m.afterReadings k) = .ok x n →
      m.place.offset ≤ x.token.span.offset :=
  ⟨goesOn_next h.reached, h.exists_end, h.exists_tokenizedIn, fun _ m _ k _ _ hnext =>
    (offset_le_afterReadings m k).trans (offset_le_of_next hnext)⟩

/-- A lexer that has read a number with no digits in a source of five bytes and now faces a string
with no end: three bytes are left, so the end is met in four readings at most. -/
theorem exists_end_behind_error :
    Reachable .standard "0x \"a" ⟨.standard, ⟨2, 1, 3⟩, [' ', '"', 'a']⟩ ∧
    ∃ k ≤ 3, ∃ x m,
      next (afterReadings ⟨.standard, ⟨2, 1, 3⟩, [' ', '"', 'a']⟩ k) = .ok x m ∧
        x.kind = .eof := by
  have hafter : after next (.ofSource .standard "0x \"a") =
      ⟨.standard, ⟨2, 1, 3⟩, [' ', '"', 'a']⟩ := by cbv
  have h : Reachable .standard "0x \"a" ⟨.standard, ⟨2, 1, 3⟩, [' ', '"', 'a']⟩ :=
    hafter ▸ Reachable.start.reading
  exact ⟨h, (goesOn_of_reachable .standard "0x \"a" _ h).2.1⟩

end

end Lexer

end GenericIR
