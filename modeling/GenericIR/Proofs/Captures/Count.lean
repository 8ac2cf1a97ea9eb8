/-
# Captures by the count of their brackets

A capture is read lexeme by lexeme with a depth carried along.  What it reads can be said without
that: from its first bracket on, more brackets are opened than closed up to the first lexeme where
as many are closed as opened, and this is its last one.  The bound on the depth is one on the
count at every bracket that is opened.

* `excess` : how many more brackets are opened than closed;
* `ClosesFrom`, `NestsFrom` : the count along a run, behind some brackets that are open;
* `Parse.collect_captureTurn_iff`, `Parse.collect_captureTurn_of_unclosed` : what one lexeme after
  the other comes to, by induction on them.
-/
import GenericIR.Proofs.Joined.Reading
import GenericIR.Proofs.Progress

namespace GenericIR

/-! ## The count of brackets -/

/-- How many more brackets are opened than closed, by kinds of tokens. -/
def excess (opening closing : TokenKind) (kinds : List TokenKind) : Int :=
  (kinds.count opening : Int) - kinds.count closing

/-- Whether brackets close for the first time at the last of some tokens, where a number of them
is open already. -/
structure ClosesFrom (opening closing : TokenKind) (depth : Int) (kinds : List TokenKind) :
    Prop where
  zero : depth + excess opening closing kinds = 0
  positive : ∀ front back, kinds = front ++ back → back ≠ [] →
    0 < depth + excess opening closing front

/-- Whether no more than a bound of brackets are open at any one that is opened, where a number of
them is open already. -/
def NestsFrom (opening closing : TokenKind) (max : Nat) (depth : Int) (kinds : List TokenKind) :
    Prop :=
  ∀ front back, kinds = front ++ opening :: back →
    depth + excess opening closing (front ++ [opening]) ≤ max

section Count

variable {opening closing k : TokenKind} {kinds : List TokenKind} {max : Nat} {depth : Int}

@[simp] theorem excess_nil : excess opening closing [] = 0 := rfl

/-- The counts of two runs add up. -/
theorem excess_append (front back : List TokenKind) :
    excess opening closing (front ++ back) =
      excess opening closing front + excess opening closing back := by
  simp only [excess, List.count_append]
  omega

/-- A token in front of others adds to their count. -/
theorem excess_cons (k : TokenKind) (kinds : List TokenKind) :
    excess opening closing (k :: kinds) =
      excess opening closing [k] + excess opening closing kinds :=
  excess_append [k] kinds

/-- A bracket that is opened counts one. -/
theorem excess_opening (hne : opening ≠ closing) : excess opening closing [opening] = 1 := by
  simp [excess, hne]

/-- A bracket that is closed counts one less. -/
theorem excess_closing (hne : opening ≠ closing) : excess opening closing [closing] = -1 := by
  simp [excess, hne.symm]

/-- Any other token does not count. -/
theorem excess_other (hopen : k ≠ opening) (hclose : k ≠ closing) :
    excess opening closing [k] = 0 := by
  simp [excess, hopen, hclose]

/-- Without any tokens brackets close where none is open. -/
theorem closesFrom_nil_iff : ClosesFrom opening closing depth [] ↔ depth = 0 := by
  constructor
  · intro h
    simpa using h.zero
  · rintro rfl
    exact ⟨rfl, fun front back hsplit hback =>
      absurd (List.append_eq_nil_iff.mp hsplit.symm).2 hback⟩

/-- Brackets close at the last token where some are open before the first one, and those that are
open behind it close there. -/
theorem closesFrom_cons_iff : ClosesFrom opening closing depth (k :: kinds) ↔
    0 < depth ∧ ClosesFrom opening closing (depth + excess opening closing [k]) kinds := by
  constructor
  · intro h
    refine ⟨?_, ?_, fun front back hsplit hback => ?_⟩
    · simpa using h.positive [] (k :: kinds) rfl (List.cons_ne_nil k kinds)
    · have hzero := h.zero
      rw [excess_cons] at hzero
      omega
    · have hpos := h.positive (k :: front) back (by rw [hsplit]; rfl) hback
      rw [excess_cons] at hpos
      omega
  · rintro ⟨hdepth, h⟩
    refine ⟨?_, fun front back hsplit hback => ?_⟩
    · have hzero := h.zero
      rw [excess_cons]
      omega
    · cases front with
      | nil => simpa using hdepth
      | cons j front =>
          obtain ⟨rfl, hrest⟩ := List.cons.inj hsplit
          have hpos := h.positive front back hrest hback
          rw [excess_cons]
          omega

/-- A run nests within a bound where its first bracket does, and the rest behind it. -/
theorem nestsFrom_cons_iff (hne : opening ≠ closing) :
    NestsFrom opening closing max depth (k :: kinds) ↔
      (k = opening → depth + 1 ≤ max) ∧
      NestsFrom opening closing max (depth + excess opening closing [k]) kinds := by
  constructor
  · intro h
    refine ⟨?_, fun front back hsplit => ?_⟩
    · rintro rfl
      have hfirst := h [] kinds rfl
      rwa [List.nil_append, excess_opening hne] at hfirst
    · have hlater := h (k :: front) back (by rw [hsplit]; rfl)
      rw [List.cons_append, excess_cons] at hlater
      omega
  · rintro ⟨hfirst, h⟩ front back hsplit
    cases front with
    | nil =>
        obtain ⟨rfl, _⟩ := List.cons.inj hsplit
        rw [List.nil_append, excess_opening hne]
        exact hfirst rfl
    | cons j front =>
        obtain ⟨rfl, hrest⟩ := List.cons.inj hsplit
        have hlater := h front back hrest
        rw [List.cons_append, excess_cons]
        omega

/-- The token where brackets close for the first time closes one. -/
theorem ClosesFrom.exists_last (h : ClosesFrom opening closing depth kinds) (hdepth : 0 < depth) :
    ∃ front, kinds = front ++ [closing] := by
  rcases List.eq_nil_or_concat kinds with rfl | ⟨front, k, rfl⟩
  · rw [closesFrom_nil_iff] at h
    omega
  rw [List.concat_eq_append] at h ⊢
  refine ⟨front, ?_⟩
  have hpos := h.positive front [k] rfl (List.cons_ne_nil k [])
  have hzero := h.zero
  rw [excess_append] at hzero
  by_cases hclose : k = closing
  · rw [hclose]
  · -- only a closing bracket brings the count down
    have hcount : 0 ≤ excess opening closing [k] := by
      simp [excess, hclose]
    omega

end Count

/-! ## Going past lexemes -/

namespace Parser

/-- Going past some lexemes, none of them the end of the text. -/
inductive GoesPast : Parser → List Lexeme → Parser → Prop where
  | nil {p : Parser} : GoesPast p [] p
  | cons {p q r : Parser} {x : Lexeme} {xs : List Lexeme} (hp : p.kind ≠ .eof)
      (hx : Parse.advance p = .ok x q) (h : GoesPast q xs r) : GoesPast p (x :: xs) r

section GoesPast

variable {p q r : Parser} {x : Lexeme} {xs : List Lexeme}

/-- What a parser goes on from is its lookahead, and it reads the next lexeme with nothing skipped
behind that. -/
theorem advance_eq_ok_iff : Parse.advance p = .ok x q ↔
    x = p.lookahead ∧ Lexer.next p.lexer = .ok q.lookahead q.lexer ∧
      q.passed = p.lookahead :: p.passed ∧ q.skipped = [] := by
  unfold Parse.advance
  split
  · next y l hnext =>
      constructor
      · intro h
        cases h
        exact ⟨rfl, hnext, rfl, rfl⟩
      · rintro ⟨rfl, hq, hpassed, hskipped⟩
        rw [hnext] at hq
        obtain ⟨lexer, lookahead, passed, skipped⟩ := q
        cases hq
        cases hpassed
        cases hskipped
        rfl
  · next d l hnext =>
      constructor
      · intro h
        cases h
      · rintro ⟨_, hq, _⟩
        rw [hnext] at hq
        cases hq

/-- What a parser goes on from is of the kind of its lookahead. -/
theorem kind_of_advance (h : Parse.advance p = .ok x q) : p.kind = x.kind := by
  rw [(advance_eq_ok_iff.mp h).1]
  rfl

/-- Going on keeps the limits. -/
theorem limits_of_advance (h : Parse.advance p = .ok x q) : q.lexer.limits = p.lexer.limits :=
  (Lexer.took_of_next (advance_eq_ok_iff.mp h).2.1).1.limits

/-- Going past lexemes reads those behind the lookahead, and one more. -/
theorem goesPast_cons_iff : GoesPast p (x :: xs) q ↔
    x = p.lookahead ∧ p.kind ≠ .eof ∧ q.passed = (x :: xs).reverse ++ p.passed ∧
      q.skipped = [] ∧
      ∃ m, Lexer.ReadsTo p.lexer xs m ∧ Lexer.next m = .ok q.lookahead q.lexer := by
  induction xs generalizing p x with
  | nil =>
      constructor
      · intro h
        cases h with
        | cons hp hadvance h =>
            cases h
            obtain ⟨rfl, hnext, hpassed, hskipped⟩ := advance_eq_ok_iff.mp hadvance
            exact ⟨rfl, hp, hpassed, hskipped, p.lexer, .nil, hnext⟩
      · rintro ⟨rfl, hp, hpassed, hskipped, m, ⟨⟩, hnext⟩
        exact .cons hp (advance_eq_ok_iff.mpr ⟨rfl, hnext, hpassed, hskipped⟩) .nil
  | cons y ys ih =>
      constructor
      · intro h
        cases h with
        | cons hp hadvance h =>
            obtain ⟨rfl, hnext, hpassed, _⟩ := advance_eq_ok_iff.mp hadvance
            obtain ⟨rfl, hy, hlater, hskipped, m, hreads, hlast⟩ := ih.mp h
            refine ⟨rfl, hp, ?_, hskipped, m, .cons hnext hy hreads, hlast⟩
            rw [hlater, hpassed, List.reverse_cons (a := p.lookahead), List.append_assoc]
            rfl
      · rintro ⟨rfl, hp, hpassed, hskipped, m, hreads, hlast⟩
        cases hreads with
        | @cons _ l _ _ _ hnext hy hreads =>
            refine .cons hp (q := ⟨l, y, p.lookahead :: p.passed, []⟩)
              (advance_eq_ok_iff.mpr ⟨rfl, hnext, rfl, rfl⟩)
              (ih.mpr ⟨rfl, hy, ?_, hskipped, m, hreads, hlast⟩)
            rw [hpassed, List.reverse_cons (a := p.lookahead), List.append_assoc]
            rfl

/-- Going past lexemes and then on goes past one more. -/
theorem GoesPast.concat (hgoes : GoesPast p xs q) (hq : q.kind ≠ .eof)
    (hadvance : Parse.advance q = .ok x r) : GoesPast p (xs ++ [x]) r := by
  induction hgoes with
  | nil => exact .cons hq hadvance .nil
  | cons hp hx _ ih => exact .cons hp hx (ih hq hadvance)

end GoesPast

end Parser

/-! ## One lexeme after the other -/

namespace Parse

open GenericIR.Parser (GoesPast advance_eq_ok_iff limits_of_advance)

variable {opening closing : TokenKind} {context : String} {p q r : Parser}

/-- What is made of a value is given where that value is. -/
theorem bind_pure_eq_ok_iff {α β : Type} {m : Parse α} {f : α → β} {b : β} :
    (m >>= fun a => pure (f a)) p = .ok b q ↔ ∃ a, b = f a ∧ m p = .ok a q := by
  rw [bind_apply]
  cases hm : m p with
  | ok a r =>
      constructor
      · intro h
        cases h
        exact ⟨a, rfl, rfl⟩
      · rintro ⟨_, rfl, h⟩
        cases h
        rfl
  | error d r =>
      constructor
      · intro h
        cases h
      · rintro ⟨_, _, h⟩
        cases h

/-- Where the end of the text comes first, a capture is unbalanced there. -/
theorem collect_captureTurn_of_eof (hp : p.kind = .eof) (depth : Nat) :
    collect (captureTurn opening closing context) depth p =
      .error (.ofFault (.unbalanced context) p.lookahead.token.span) p := by
  rw [collect_captureTurn_eq, sees_bind_apply, decide_eq_true hp]
  rfl

/-- A reading with an error is that of the capture. -/
theorem collect_captureTurn_of_error (hp : p.kind ≠ .eof) {d : Diagnostic}
    (h : advance p = .error d q) (depth : Nat) :
    collect (captureTurn opening closing context) depth p = .error d q := by
  rw [collect_captureTurn_eq, sees_bind_apply, decide_eq_false hp, if_neg Bool.false_ne_true,
    bind_apply, h]

/-- A bracket that passes the bound is an error at the lexeme behind it. -/
theorem collect_captureTurn_of_deep (hp : p.kind ≠ .eof) {x : Lexeme} (h : advance p = .ok x r)
    (hx : x.kind = opening) {depth : Nat} (hdeep : r.lexer.limits.maxNestingDepth < depth + 1) :
    collect (captureTurn opening closing context) depth p = .error
      (.ofFault (.limitExceeded "bracket nesting depth" r.lexer.limits.maxNestingDepth)
        r.lookahead.token.span) r := by
  rw [collect_captureTurn_eq, sees_bind_apply, decide_eq_false hp, if_neg Bool.false_ne_true,
    bind_apply, h]
  dsimp only
  rw [if_pos hx, bind_apply, checkDepth, if_pos hdeep]
  rfl

/-- A lexeme that is gone past changes the count, and the capture ends where nothing is open. -/
theorem collect_captureTurn_of_advance (hne : opening ≠ closing) (hp : p.kind ≠ .eof) {x : Lexeme}
    (h : advance p = .ok x r) {depth n : Nat} (hdepth : 1 ≤ depth)
    (hfits : x.kind = opening → depth + 1 ≤ r.lexer.limits.maxNestingDepth)
    (hn : (n : Int) = depth + excess opening closing [x.kind]) :
    collect (captureTurn opening closing context) depth p =
      if n = 0 then .ok [x] r
      else (collect (captureTurn opening closing context) n >>= fun run => pure (x :: run)) r := by
  rw [collect_captureTurn_eq, sees_bind_apply, decide_eq_false hp, if_neg Bool.false_ne_true,
    bind_apply, h]
  dsimp only
  by_cases hopen : x.kind = opening
  · rw [hopen, excess_opening hne] at hn
    obtain rfl : n = depth + 1 := by omega
    rw [if_pos hopen, if_neg (by omega), bind_apply, checkDepth,
      if_neg (Nat.not_lt_of_le (hfits hopen))]
  rw [if_neg hopen]
  by_cases hclose : x.kind = closing
  · rw [hclose, excess_closing hne] at hn
    rw [if_pos hclose]
    by_cases hlast : depth ≤ 1
    · rw [if_pos hlast, if_pos (by omega)]
      rfl
    · obtain rfl : n = depth - 1 := by omega
      rw [if_neg hlast, if_neg (by omega)]
  · rw [excess_other hopen hclose] at hn
    obtain rfl : n = depth := by omega
    rw [if_neg hclose, if_neg (by omega)]

/-- One lexeme closes no more than one bracket. -/
theorem exists_depth (hne : opening ≠ closing) {depth : Nat} (hdepth : 1 ≤ depth)
    (k : TokenKind) : ∃ n : Nat, (n : Int) = depth + excess opening closing [k] := by
  have hcount : -1 ≤ excess opening closing [k] := by
    by_cases hopen : k = opening
    · have hone := excess_opening hne
      rw [hopen]
      omega
    by_cases hclose : k = closing
    · have hone := excess_closing hne
      rw [hclose]
      omega
    · have hzero := excess_other hopen hclose
      omega
  exact ⟨(depth + excess opening closing [k]).toNat, by omega⟩

/-- The first lexeme of a capture and what follows it. -/
theorem collect_captureTurn_eq_ok_iff (hne : opening ≠ closing) {depth : Nat} (hdepth : 1 ≤ depth)
    {run : List Lexeme} :
    collect (captureTurn opening closing context) depth p = .ok run q ↔
      p.kind ≠ .eof ∧ ∃ x r, advance p = .ok x r ∧
        (x.kind = opening → depth + 1 ≤ r.lexer.limits.maxNestingDepth) ∧
        ∃ n : Nat, (n : Int) = depth + excess opening closing [x.kind] ∧
          ((n = 0 ∧ run = [x] ∧ q = r) ∨ (1 ≤ n ∧ ∃ later, run = x :: later ∧
            collect (captureTurn opening closing context) n r = .ok later q)) := by
  by_cases hp : p.kind = .eof
  · rw [collect_captureTurn_of_eof hp]
    exact iff_of_false nofun fun h => h.1 hp
  cases hadvance : advance p with
  | error d r =>
      rw [collect_captureTurn_of_error hp hadvance]
      refine iff_of_false nofun ?_
      rintro ⟨_, _, _, ⟨⟩, _⟩
  | ok x r =>
      by_cases hfits : x.kind = opening → depth + 1 ≤ r.lexer.limits.maxNestingDepth
      · obtain ⟨n, hn⟩ := exists_depth hne hdepth x.kind
        rw [collect_captureTurn_of_advance hne hp hadvance hdepth hfits hn]
        constructor
        · intro h
          refine ⟨hp, x, r, rfl, hfits, n, hn, ?_⟩
          by_cases hzero : n = 0
          · rw [if_pos hzero] at h
            cases h
            exact Or.inl ⟨hzero, rfl, rfl⟩
          · rw [if_neg hzero, bind_pure_eq_ok_iff] at h
            exact Or.inr ⟨by omega, h⟩
        · rintro ⟨_, y, s, hys, _, m, hm, h⟩
          cases hys
          obtain rfl : m = n := by omega
          rcases h with ⟨hzero, rfl, rfl⟩ | ⟨hpos, h⟩
          · rw [if_pos hzero]
          · rw [if_neg (by omega), bind_pure_eq_ok_iff]
            exact h
      · rw [Classical.not_imp] at hfits
        rw [collect_captureTurn_of_deep hp hadvance hfits.1 (by omega)]
        refine iff_of_false nofun ?_
        rintro ⟨_, y, s, hys, hle, _⟩
        cases hys
        exact hfits.2 (hle hfits.1)

/-- The lexemes of a capture are those up to where its brackets close for the first time, if they
are read without an error and nest within the bound. -/
theorem collect_captureTurn_iff (hne : opening ≠ closing) {depth : Nat} (hdepth : 1 ≤ depth)
    {run : List Lexeme} :
    collect (captureTurn opening closing context) depth p = .ok run q ↔
      GoesPast p run q ∧ ClosesFrom opening closing depth (run.map Lexeme.kind) ∧
        NestsFrom opening closing p.lexer.limits.maxNestingDepth depth (run.map Lexeme.kind) := by
  induction run generalizing p depth with
  | nil =>
      rw [collect_captureTurn_eq_ok_iff hne hdepth, List.map_nil, closesFrom_nil_iff]
      constructor
      · rintro ⟨_, _, _, _, _, _, _, ⟨_, hnil, _⟩ | ⟨_, _, hnil, _⟩⟩
        · cases hnil
        · cases hnil
      · rintro ⟨_, hzero, _⟩
        omega
  | cons y ys ih =>
      rw [collect_captureTurn_eq_ok_iff hne hdepth, List.map_cons, closesFrom_cons_iff,
        nestsFrom_cons_iff hne]
      constructor
      · rintro ⟨hp, x, r, hadvance, hfits, n, hn, h⟩
        rw [limits_of_advance hadvance] at hfits
        rcases h with ⟨rfl, hys, rfl⟩ | ⟨hpos, later, hys, h⟩
        · cases hys
          refine ⟨.cons hp hadvance .nil, ⟨by omega, ?_⟩, fun hopen => ?_, ?_⟩
          · rw [List.map_nil, closesFrom_nil_iff]
            exact hn.symm
          · exact_mod_cast hfits hopen
          · exact fun front back hsplit => absurd hsplit (by simp)
        · cases hys
          obtain ⟨hgoes, hcloses, hnests⟩ := (ih hpos).mp h
          rw [limits_of_advance hadvance, hn] at hnests
          rw [hn] at hcloses
          exact ⟨.cons hp hadvance hgoes, ⟨by omega, hcloses⟩,
            fun hopen => by exact_mod_cast hfits hopen, hnests⟩
      · rintro ⟨hgoes, ⟨_, hcloses⟩, hfits, hnests⟩
        cases hgoes with
        | @cons _ r _ _ _ hp hadvance hgoes =>
            obtain ⟨n, hn⟩ := exists_depth hne hdepth y.kind
            rw [← hn] at hcloses hnests
            rw [← limits_of_advance hadvance] at hfits hnests
            refine ⟨hp, y, r, hadvance, fun hopen => by exact_mod_cast hfits hopen, n, hn, ?_⟩
            by_cases hzero : n = 0
            · -- nothing is open any more, so no lexeme follows
              subst hzero
              cases ys with
              | nil =>
                  cases hgoes
                  exact Or.inl ⟨rfl, rfl, rfl⟩
              | cons z ys =>
                  rw [List.map_cons, closesFrom_cons_iff] at hcloses
                  exact absurd hcloses.1 (by simp)
            · have hpos : 1 ≤ n := by omega
              exact Or.inr ⟨hpos, ys, rfl, (ih hpos).mpr ⟨hgoes, hcloses, hnests⟩⟩

/-- Where the text ends before the brackets close, a capture is unbalanced at that end. -/
theorem collect_captureTurn_of_unclosed (hne : opening ≠ closing) {depth : Nat}
    (hdepth : 1 ≤ depth) {run : List Lexeme} (hgoes : GoesPast p run q) (hq : q.kind = .eof)
    (hopen : ∀ front back, run.map Lexeme.kind = front ++ back →
      0 < (depth : Int) + excess opening closing front)
    (hnests : NestsFrom opening closing p.lexer.limits.maxNestingDepth depth
      (run.map Lexeme.kind)) :
    collect (captureTurn opening closing context) depth p =
      .error (.ofFault (.unbalanced context) q.lookahead.token.span) q := by
  induction hgoes generalizing depth with
  | nil => exact collect_captureTurn_of_eof hq depth
  | @cons p r q x xs hp hadvance _ ih =>
      rw [List.map_cons] at hopen hnests
      obtain ⟨hfits, hnests⟩ := (nestsFrom_cons_iff hne).mp hnests
      obtain ⟨n, hn⟩ := exists_depth hne hdepth x.kind
      have hpos := hopen [x.kind] (xs.map Lexeme.kind) rfl
      rw [← hn] at hpos hnests
      rw [← limits_of_advance hadvance] at hfits hnests
      rw [collect_captureTurn_of_advance hne hp hadvance hdepth
        (fun hx => by exact_mod_cast hfits hx) hn, if_neg (by omega), bind_apply,
        ih (by omega) hq (fun front back hsplit => ?_) hnests]
      have hlater := hopen (x.kind :: front) back (congrArg (x.kind :: ·) hsplit)
      rw [excess_cons] at hlater
      omega

end Parse

end GenericIR
