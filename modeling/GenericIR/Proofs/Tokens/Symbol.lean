/-
# Qualified symbols

A symbol may be written with several segments, each with the sigil in front and two colons between
them.  A segment is plain, made of the characters of names, or quoted.  The lexer goes on from
plain segment to plain segment, and with the closing quote of a quoted one the symbol is over: the
token goes up to the first quoted segment, and what is behind it is left for the next readings.  So
a symbol is one token if and only if none but its last segment is quoted.

* `Segment`, `symbolText`, `symbolName` : segments, how they are written and the name they make;
* `upToQuoted`, `behindQuoted` : the segments up to the first quoted one, and the others;
* `parts_of_segments` : the scan of segments;
* `symbol_read_up_to_quoted` : what a lexer in front of a symbol reads.
-/
import GenericIR.Proofs.Quoted.Text
import GenericIR.Proofs.Spaced.Alone
import GenericIR.Proofs.Tokens.Reading

namespace GenericIR

/-! ## Segments -/

/-- A segment of a symbol: a name, or a text in quotes with what it is decoded to. -/
inductive Segment where
  | plain (name : List Char) (hne : name ≠ []) (hid : ∀ c ∈ name, isIdChar c)
  | quoted (body name : List Char) (h : Writes body name)

namespace Segment

/-- How a segment is written. -/
def text : Segment → List Char
  | plain name _ _ => name
  | quoted body _ _ => inQuotes body

/-- What a segment stands for. -/
def name : Segment → List Char
  | plain name _ _ => name
  | quoted _ name _ => name

/-- Whether a segment is written without quotes. -/
def isPlain : Segment → Bool
  | plain _ _ _ => true
  | quoted _ _ _ => false

end Segment

/-- Texts of segments with two colons and the sigil between them. -/
def joined (f : Segment → List Char) (segs : List Segment) : List Char :=
  [':', ':', '@'].intercalate (segs.map f)

/-- How a symbol is written. -/
def symbolText (segs : List Segment) : List Char := '@' :: joined Segment.text segs

/-- The name of a symbol, with the sigils in it. -/
def symbolName (segs : List Segment) : List Char := '@' :: joined Segment.name segs

/-- The segments up to the first quoted one, and with it. -/
def upToQuoted : List Segment → List Segment
  | [] => []
  | s :: segs => if s.isPlain then s :: upToQuoted segs else [s]

/-- The segments behind the first quoted one. -/
def behindQuoted : List Segment → List Segment
  | [] => []
  | s :: segs => if s.isPlain then behindQuoted segs else segs

/-- How segments are written that others are in front of. -/
def continuation (segs : List Segment) : List Char :=
  segs.flatMap fun s => ':' :: ':' :: '@' :: s.text

section Segments

variable {s : Segment} {segs : List Segment}

@[simp] theorem joined_singleton (f : Segment → List Char) (s : Segment) : joined f [s] = f s := by
  rw [joined, List.map_singleton, List.intercalate_singleton]

/-- Joined segments, the first one apart. -/
theorem joined_cons_cons (f : Segment → List Char) (s t : Segment) (segs : List Segment) :
    joined f (s :: t :: segs) = f s ++ ':' :: ':' :: '@' :: joined f (t :: segs) := by
  rw [joined, List.map_cons, List.map_cons, List.intercalate_cons_cons, List.append_assoc]
  rfl

/-- Joined segments are the first one and the continuation by the others. -/
theorem joined_cons (s : Segment) (segs : List Segment) :
    joined Segment.text (s :: segs) = s.text ++ continuation segs := by
  induction segs generalizing s with
  | nil => rw [joined_singleton, continuation, List.flatMap_nil, List.append_nil]
  | cons t segs ih =>
      rw [joined_cons_cons, ih, continuation, continuation, List.flatMap_cons]
      rfl

@[simp] theorem upToQuoted_append_behindQuoted (segs : List Segment) :
    upToQuoted segs ++ behindQuoted segs = segs := by
  induction segs with
  | nil => rfl
  | cons s segs ih =>
      rw [upToQuoted, behindQuoted]
      split
      · rw [List.cons_append, ih]
      · rfl

/-- A plain segment is followed by the others. -/
theorem upToQuoted_plain {name : List Char} {hne : name ≠ []} {hid : ∀ c ∈ name, isIdChar c} :
    upToQuoted (.plain name hne hid :: segs) = .plain name hne hid :: upToQuoted segs := rfl

/-- A quoted segment is the last one. -/
theorem upToQuoted_quoted {body name : List Char} {h : Writes body name} :
    upToQuoted (.quoted body name h :: segs) = [.quoted body name h] := rfl

/-- There are segments up to the first quoted one where there are any. -/
theorem upToQuoted_cons (s : Segment) (segs : List Segment) :
    upToQuoted (s :: segs) = s :: if s.isPlain then upToQuoted segs else [] := by
  rw [upToQuoted]
  split <;> rfl

/-- The text of a symbol is that of its front up to the first quoted segment, and what is behind
it. -/
theorem symbolText_split (hne : segs ≠ []) :
    symbolText (upToQuoted segs) ++ continuation (behindQuoted segs) = symbolText segs := by
  obtain ⟨s, segs, rfl⟩ := List.exists_cons_of_ne_nil hne
  have hsplit := upToQuoted_append_behindQuoted (s :: segs)
  rw [upToQuoted_cons, List.cons_append] at hsplit
  rw [upToQuoted_cons, symbolText, symbolText, joined_cons, joined_cons, List.cons_append,
    List.append_assoc, continuation, continuation, ← List.flatMap_append,
    (List.cons.inj hsplit).2, continuation]

/-- Segments that others are in front of are written with characters. -/
theorem continuation_eq_nil_iff : continuation segs = [] ↔ segs = [] := by
  cases segs <;> simp [continuation]

/-- Nothing is behind the first quoted segment if and only if none but the last is quoted. -/
theorem behindQuoted_eq_nil_iff :
    behindQuoted segs = [] ↔ ∀ s ∈ segs.dropLast, s.isPlain := by
  induction segs with
  | nil => simp [behindQuoted]
  | cons s segs ih =>
      cases segs with
      | nil =>
          rw [behindQuoted]
          split <;> simp [behindQuoted]
      | cons t segs =>
          rw [behindQuoted, List.dropLast_cons_cons, List.forall_mem_cons]
          by_cases hs : s.isPlain
          · rw [if_pos hs, ih]
            exact (and_iff_right hs).symm
          · rw [if_neg hs]
            exact iff_of_false (List.cons_ne_nil _ _) fun h => hs h.1

end Segments

/-! ## The scan of segments -/

section Scan

variable {max count : Nat} {behind : List Char}

/-- A plain segment is not a quoted one. -/
theorem not_quote_of_plain {name : List Char} (hid : ∀ c ∈ name, isIdChar c) (hne : name ≠ [])
    (text : List Char) : ¬ ('@' = '@' ∧ (name ++ text).head? = some '"') := by
  rintro ⟨-, hquote⟩
  obtain ⟨c, name, rfl⟩ := List.exists_cons_of_ne_nil hne
  obtain rfl : c = '"' := Option.some.inj hquote
  exact absurd (hid '"' List.mem_cons_self) (by decide)

/-- A plain segment with nothing that goes on behind it is the last one. -/
theorem parts_of_plain_last {name : List Char} (hid : ∀ c ∈ name, isIdChar c)
    (hne : name ≠ []) (hbehind : behind = [] ∨ behind.head? = some ' ') :
    parts '@' max count (name ++ behind) = ⟨name, .ok name⟩ := by
  have hends : behind.head?.any isIdChar = false := by
    rcases hbehind with rfl | hspace
    · rfl
    · rw [hspace]
      rfl
  obtain ⟨htake, hdrop⟩ := takeWhile_run hid hends
  rw [parts_of_last (not_quote_of_plain hid hne behind), htake]
  intro rest hrest
  rw [hdrop] at hrest
  rw [hrest] at hbehind
  rcases hbehind with hnil | hspace
  · exact absurd hnil (List.cons_ne_nil _ _)
  · exact absurd (Option.some.inj hspace) (by decide)

/-- Behind a plain segment the next one is read. -/
theorem parts_of_plain_more {name : List Char} (hid : ∀ c ∈ name, isIdChar c)
    (hne : name ≠ []) (hmax : count < max) (text : List Char) :
    parts '@' max count (name ++ ':' :: ':' :: '@' :: text) =
      ((parts '@' max (count + 1) text).map ((name ++ [':', ':', '@']) ++ ·)).prepend
        (name ++ [':', ':', '@']) := by
  obtain ⟨htake, hdrop⟩ := takeWhile_run (v := ':' :: ':' :: '@' :: text) hid rfl
  rw [parts_of_more (not_quote_of_plain hid hne _) hdrop, if_neg (Nat.not_le.mpr hmax), htake]
  rfl

/-- The scan of segments takes them up to the first quoted one, and their names. -/
theorem parts_of_segments (s : Segment) (segs : List Segment) (hmax : count + segs.length ≤ max)
    (hbehind : behind = [] ∨ behind.head? = some ' ') :
    parts '@' max count (joined Segment.text (s :: segs) ++ behind) =
      ⟨joined Segment.text (upToQuoted (s :: segs)),
        .ok (joined Segment.name (upToQuoted (s :: segs)))⟩ := by
  induction segs generalizing s count with
  | nil =>
      have hone : upToQuoted [s] = [s] := by
        rw [upToQuoted_cons]
        split <;> rfl
      rw [hone, joined_singleton, joined_singleton]
      cases s with
      | plain name hne hid => exact parts_of_plain_last hid hne hbehind
      | quoted body name h => exact h.parts_eq max count behind
  | cons t segs ih =>
      cases s with
      | plain name hne hid =>
          rw [List.length_cons] at hmax
          have hnext := ih t (by omega : count + 1 + segs.length ≤ max)
          rw [upToQuoted_cons t] at hnext
          rw [upToQuoted_plain, upToQuoted_cons t, joined_cons_cons, joined_cons_cons,
            joined_cons_cons, List.append_assoc]
          show parts '@' max count
            (name ++ ':' :: ':' :: '@' :: (joined Segment.text (t :: segs) ++ behind)) = _
          rw [parts_of_plain_more hid hne (by omega), hnext]
          simp only [Scan.map, Scan.prepend, Except.map, List.append_assoc, List.cons_append,
            List.nil_append, Segment.text, Segment.name]
      | quoted body name h =>
          rw [upToQuoted_quoted, joined_singleton, joined_singleton, joined_cons,
            List.append_assoc]
          exact h.parts_eq max count _

end Scan

/-! ## A lexer in front of a symbol -/

section Reading

variable {l : Lexer} {segs : List Segment} {behind : List Char}

/-- A lexer in front of a symbol, with a space or nothing behind it, reads its segments up to the
first quoted one. -/
theorem gives_symbol (hne : segs ≠ []) (hmax : segs.length ≤ l.limits.maxSymbolSegments)
    (hbehind : behind = [] ∨ behind.head? = some ' ') (hl : l.ComesTo (symbolText segs ++ behind)) :
    l.Gives (symbolText (upToQuoted segs)) .symbolRefId
      (.text (String.ofList (symbolName (upToQuoted segs))))
      (continuation (behindQuoted segs) ++ behind) := by
  have hsplit : symbolText (upToQuoted segs) ++ (continuation (behindQuoted segs) ++ behind) =
      '@' :: (joined Segment.text segs ++ behind) := by
    rw [← List.append_assoc, symbolText_split hne]
    rfl
  refine Lexer.gives_of_scanToken (hsplit ▸ hl) hsplit ?_
  obtain ⟨s, segs, rfl⟩ := List.exists_cons_of_ne_nil hne
  rw [List.length_cons] at hmax
  show reference l.limits '@' .symbolRefId _ = _
  rw [reference, parts_of_segments s segs (by omega) hbehind]
  rfl

/-- A symbol is read up to its first quoted segment, and what is behind that is left.  It is one
token, with all its segments in the name, if and only if none but the last of them is quoted. -/
theorem symbol_read_up_to_quoted (l : Lexer) (segs : List Segment) (behind : List Char)
    (hne : segs ≠ []) (hmax : segs.length ≤ l.limits.maxSymbolSegments)
    (hbehind : behind = [] ∨ behind.head? = some ' ') (hl : l.ComesTo (symbolText segs ++ behind)) :
    l.Gives (symbolText (upToQuoted segs)) .symbolRefId
      (.text (String.ofList (symbolName (upToQuoted segs))))
      (continuation (behindQuoted segs) ++ behind) ∧
    (l.Gives (symbolText segs) .symbolRefId (.text (String.ofList (symbolName segs))) behind ↔
      ∀ s ∈ segs.dropLast, s.isPlain) := by
  have hgives := gives_symbol hne hmax hbehind hl
  refine ⟨hgives, fun hwhole => ?_, fun hplain => ?_⟩
  · have hrest := Lexer.Gives.rest_eq hgives hwhole
    have hnil : continuation (behindQuoted segs) = [] := List.append_left_eq_self.mp hrest
    exact behindQuoted_eq_nil_iff.mp (continuation_eq_nil_iff.mp hnil)
  · have hnil := behindQuoted_eq_nil_iff.mpr hplain
    have hall : upToQuoted segs = segs := by
      have hsplit := upToQuoted_append_behindQuoted segs
      rwa [hnil, List.append_nil] at hsplit
    rwa [hall, hnil] at hgives

/-- Plain segments with a quoted one behind them are one token, as many of them as are allowed. -/
theorem symbol_read_up_to_quoted_last :
    (Lexer.ofSource ⟨256, 3⟩ "@a::@b.c::@\"x\\\" y\" ").Gives "@a::@b.c::@\"x\\\" y\"".toList
      .symbolRefId (.text "@a::@b.c::@x\" y") [' '] := by
  have hquoted : Writes "x\\\" y".toList "x\" y".toList :=
    .cons (.plain (by decide) (by decide)) (.cons (.marked (by decide))
      (.cons (.plain (by decide) (by decide)) (.cons (.plain (by decide) (by decide)) .nil)))
  exact (symbol_read_up_to_quoted (.ofSource ⟨256, 3⟩ "@a::@b.c::@\"x\\\" y\" ")
    [.plain "a".toList (by decide) (List.all_eq_true.mp rfl),
      .plain "b.c".toList (by decide) (List.all_eq_true.mp rfl),
      .quoted "x\\\" y".toList "x\" y".toList hquoted] [' '] (List.cons_ne_nil _ _)
    (Nat.le_refl 3) (.inr rfl) rfl).2.mpr (by simp [Segment.isPlain])

/-- A symbol with a quoted segment in front of a plain one is not one token: the first reading ends
with the closing quote, and the colons and the plain segment are left. -/
theorem quoted_front_is_cut_off :
    ∃ segs : List Segment, segs.length ≤ Limits.standard.maxSymbolSegments ∧
      symbolText segs = "@\"a\"::@b".toList ∧ symbolName segs = "@a::@b".toList ∧
      (Lexer.ofSource .standard "@\"a\"::@b").Gives "@\"a\"".toList .symbolRefId (.text "@a")
        "::@b".toList ∧
      ¬ Lexer.IsOneToken .standard "@\"a\"::@b" .symbolRefId (.text "@a::@b") := by
  have hquoted : Writes ['a'] ['a'] := .cons (.plain (by decide) (by decide)) .nil
  let segs : List Segment :=
    [.quoted ['a'] ['a'] hquoted, .plain ['b'] (by decide) (List.all_eq_true.mp rfl)]
  have hlength : segs.length ≤ Limits.standard.maxSymbolSegments := show 2 ≤ 32 by decide
  have hgives : (Lexer.ofSource .standard "@\"a\"::@b").Gives "@\"a\"".toList .symbolRefId
      (.text "@a") "::@b".toList :=
    @gives_symbol _ segs [] (List.cons_ne_nil _ _) hlength (.inl rfl) rfl
  refine ⟨segs, hlength, rfl, rfl, hgives, fun hone => ?_⟩
  exact absurd (hone.eq_of_gives hgives).2 (by decide)

end Reading

end GenericIR
