/-
# Words and angle bracket forms are exact

A word is all the word characters from its first letter on.  Without an opening angle bracket
behind them they are the whole token.  With one, the token is told by the count of angle brackets
from there on: how many more are opened than closed.  The form ends with the first character that
leaves none open, unless some character before that one leaves more of them open than the limit
allows, and is unterminated where the text ends before both.

* `angleCount`, `StaysOpen` : the count, and texts in which it neither returns nor goes too far;
* `angles_of_staysOpenFrom` : a scan goes through such a text and keeps the count;
* `Lexer.ReadsWord`, `Lexer.ReadsAngles` : the outcomes;
* `words_read_exactly` : a lexer in front of a word has them.
-/
import GenericIR.Proofs.Bytes.Source
import GenericIR.Proofs.Spaced.Alone
import GenericIR.Proofs.Tokens.Reading
import Mathlib.Data.List.Induction
import Mathlib.Data.List.Infix

namespace GenericIR

/-! ## The count of angle brackets -/

/-- How many more angle brackets are opened than closed in a text. -/
def angleCount (text : List Char) : Int := (text.count '<' : Int) - text.count '>'

/-- Whether, behind every character of a text, angle brackets are open, and no more of them than a
bound, where a number of them is open in front of it. -/
def StaysOpenFrom (bound : Nat) (depth : Int) (text : List Char) : Prop :=
  ∀ front, front <+: text → front ≠ [] →
    0 < depth + angleCount front ∧ depth + angleCount front ≤ bound

/-- Whether, behind every character of a text, angle brackets are open, and no more of them than a
bound. -/
def StaysOpen (bound : Nat) (text : List Char) : Prop :=
  ∀ front, front <+: text → front ≠ [] → 0 < angleCount front ∧ angleCount front ≤ bound

instance (bound : Nat) (text : List Char) : Decidable (StaysOpen bound text) :=
  decidable_of_iff
    (∀ front ∈ text.inits, front ≠ [] → 0 < angleCount front ∧ angleCount front ≤ bound)
    (by simp only [List.mem_inits, StaysOpen])

section Count

variable {bound : Nat} {depth : Int} {c : Char} {text u v : List Char}

@[simp] theorem angleCount_nil : angleCount [] = 0 := rfl

/-- The counts of two texts add up. -/
theorem angleCount_append (u v : List Char) :
    angleCount (u ++ v) = angleCount u + angleCount v := by
  simp only [angleCount, List.count_append]
  omega

theorem angleCount_cons (c : Char) (u : List Char) :
    angleCount (c :: u) = angleCount [c] + angleCount u :=
  angleCount_append [c] u

/-- What one character adds to the count. -/
theorem angleCount_singleton (c : Char) :
    angleCount [c] = if c = '<' then 1 else if c = '>' then -1 else 0 := by
  by_cases hopen : c = '<'
  · rw [hopen]
    rfl
  · by_cases hclose : c = '>'
    · rw [hclose]
      rfl
    · simp [angleCount, hopen, hclose]

/-- Nothing is open in front of a text to begin with. -/
theorem staysOpen_iff_from_zero : StaysOpen bound text ↔ StaysOpenFrom bound 0 text := by
  simp only [StaysOpen, StaysOpenFrom, Int.zero_add]

theorem staysOpenFrom_nil : StaysOpenFrom bound depth [] := fun _ hfront hne =>
  absurd (List.prefix_nil.mp hfront) hne

/-- A text with one more character in front. -/
theorem staysOpenFrom_cons_iff :
    StaysOpenFrom bound depth (c :: u) ↔
      (0 < depth + angleCount [c] ∧ depth + angleCount [c] ≤ bound) ∧
        StaysOpenFrom bound (depth + angleCount [c]) u := by
  constructor
  · intro h
    refine ⟨h [c] (by simp) (by simp), fun front hfront hne => ?_⟩
    have hcons := h (c :: front) (List.cons_prefix_cons.mpr ⟨rfl, hfront⟩) (by simp)
    rwa [angleCount_cons, ← Int.add_assoc] at hcons
  · rintro ⟨hfirst, hlater⟩ front hfront hne
    cases front with
    | nil => exact absurd rfl hne
    | cons d front =>
        obtain ⟨rfl, htail⟩ := List.cons_prefix_cons.mp hfront
        by_cases hnil : front = []
        · rwa [hnil]
        · have hcount := hlater front htail hnil
          rwa [angleCount_cons, ← Int.add_assoc]

/-- A text with one more character at its end. -/
theorem StaysOpen.concat (h : StaysOpen bound u) (hpos : 0 < angleCount (u ++ [c]))
    (hle : angleCount (u ++ [c]) ≤ bound) : StaysOpen bound (u ++ [c]) := by
  intro front hfront hne
  rcases List.prefix_concat_iff.mp hfront with rfl | hfront
  · exact ⟨hpos, hle⟩
  · exact h front hfront hne

/-- A text that starts with an opening angle bracket stays open up to its end, or up to the first
character that opens too many or closes the last one. -/
theorem staysOpen_or (bound : Nat) (u : List Char) :
    StaysOpen bound ('<' :: u) ∨
      ∃ front c back, '<' :: u = front ++ c :: back ∧ StaysOpen bound front ∧
        (bound < angleCount (front ++ [c]) ∨ angleCount (front ++ [c]) = 0) := by
  induction u using List.reverseRecOn with
  | nil =>
      by_cases hbound : 1 ≤ bound
      · exact Or.inl (staysOpen_iff_from_zero.mpr (staysOpenFrom_cons_iff.mpr
          ⟨⟨by decide, Int.ofNat_le.mpr hbound⟩, staysOpenFrom_nil⟩))
      · refine Or.inr ⟨[], '<', [], rfl, staysOpen_iff_from_zero.mpr staysOpenFrom_nil, Or.inl ?_⟩
        show (bound : Int) < 1
        omega
  | append_singleton u c ih =>
      rcases ih with hopen | ⟨front, d, back, hsplit, hopen, hend⟩
      · -- the whole text before the last character is open, so the last one decides
        have hlast := (hopen ('<' :: u) List.prefix_rfl (List.cons_ne_nil _ _)).1
        have hstep := angleCount_append ('<' :: u) [c]
        have hcount : -1 ≤ angleCount [c] := by
          rw [angleCount_singleton]
          split <;> [decide; split <;> decide]
        by_cases hpos : 0 < angleCount ('<' :: u ++ [c])
        · by_cases hle : angleCount ('<' :: u ++ [c]) ≤ bound
          · exact Or.inl (hopen.concat hpos hle)
          · exact Or.inr ⟨'<' :: u, c, [], rfl, hopen, Or.inl (Int.not_le.mp hle)⟩
        · exact Or.inr ⟨'<' :: u, c, [], rfl, hopen, Or.inr (by omega)⟩
      · refine Or.inr ⟨front, d, back ++ [c], ?_, hopen, hend⟩
        rw [← List.cons_append, hsplit, List.append_assoc, List.cons_append]

end Count

/-! ## Scans of angle brackets -/

section Angles

variable {bound depth : Nat} {c : Char} {u v : List Char}

/-- A scan goes through a text that stays open with the count of its angle brackets. -/
theorem angles_of_staysOpenFrom (hfirst : depth = 0 → ∀ c ∈ u.head?, c = '<')
    (h : StaysOpenFrom bound depth u) :
    angles bound depth (u ++ v) =
      (u ++ (angles bound (depth + angleCount u).toNat v).1,
        (angles bound (depth + angleCount u).toNat v).2) := by
  induction u generalizing depth with
  | nil => simp
  | cons c u ih =>
      obtain ⟨⟨hpos, hle⟩, hlater⟩ := staysOpenFrom_cons_iff.mp h
      rw [angleCount_cons, ← Int.add_assoc, List.cons_append, angles]
      rw [angleCount_singleton] at hpos hle hlater ⊢
      by_cases hopen : c = '<'
      · rw [if_pos hopen] at hpos hle hlater ⊢
        rw [if_pos hopen, if_neg (by omega), ih (by omega) (by exact_mod_cast hlater)]
        rfl
      · rw [if_neg hopen] at hpos hle hlater ⊢
        rw [if_neg hopen]
        have hzero : depth ≠ 0 := fun hzero => hopen (hfirst hzero c rfl)
        by_cases hclose : c = '>'
        · rw [if_pos hclose] at hpos hle hlater ⊢
          have hdown : ((depth - 1 : Nat) : Int) = (depth : Int) + -1 := by omega
          rw [if_neg (by omega), if_pos hclose, ih (by omega) (hdown ▸ hlater), hdown]
          rfl
        · simp only [if_neg hclose, Int.add_zero] at hlater ⊢
          rw [if_neg fun hand => hclose hand.1, ih (fun heq => absurd heq hzero) hlater]
          rfl

/-- A scan goes through a text that starts with an opening angle bracket and stays open. -/
theorem angles_of_staysOpen (hu : StaysOpen bound u) (hfirst : (u ++ [c]).head? = some '<') :
    angles bound 0 (u ++ c :: v) =
      (u ++ (angles bound (angleCount u).toNat (c :: v)).1,
        (angles bound (angleCount u).toNat (c :: v)).2) := by
  have hhead : ∀ d ∈ u.head?, d = '<' := by
    intro d hd
    cases u with
    | nil => cases hd
    | cons e u =>
        obtain rfl : e = d := Option.some.inj hd
        exact Option.some.inj hfirst
  have hscan := @angles_of_staysOpenFrom bound 0 u (c :: v) (fun _ => hhead)
    (staysOpen_iff_from_zero.mp hu)
  rwa [Int.natCast_zero, Int.zero_add] at hscan

/-- A scan ends with a character that opens more angle brackets than the bound allows. -/
theorem angles_tooDeep (hu : StaysOpen bound u) (hc : bound < angleCount (u ++ [c]))
    (hfirst : (u ++ [c]).head? = some '<') :
    angles bound 0 (u ++ c :: v) = (u ++ [c], .tooDeep) := by
  have hle : angleCount u ≤ bound := by
    by_cases hnil : u = []
    · rw [hnil]
      exact Int.natCast_nonneg bound
    · exact (hu u List.prefix_rfl hnil).2
  have hopen : c = '<' := by
    by_contra hopen
    rw [angleCount_append, angleCount_singleton, if_neg hopen] at hc
    split at hc <;> omega
  subst hopen
  rw [angleCount_append, angleCount_singleton, if_pos rfl] at hc
  rw [angles_of_staysOpen hu hfirst, angles, if_pos rfl, if_pos (by omega)]

/-- A scan ends with the character that closes the last angle bracket. -/
theorem angles_closed (hu : StaysOpen bound u) (hc : angleCount (u ++ [c]) = 0)
    (hfirst : (u ++ [c]).head? = some '<') :
    angles bound 0 (u ++ c :: v) = (u ++ [c], .closed) := by
  have hne : u ≠ [] := by
    rintro rfl
    obtain rfl : c = '<' := Option.some.inj hfirst
    exact absurd hc (by decide)
  have hpos := (hu u List.prefix_rfl hne).1
  rw [angleCount_append, angleCount_singleton] at hc
  have hopen : c ≠ '<' := by
    rintro rfl
    rw [if_pos rfl] at hc
    omega
  have hclose : c = '>' := by
    by_contra hclose
    rw [if_neg hopen, if_neg hclose] at hc
    omega
  rw [if_neg hopen, if_pos hclose] at hc
  rw [angles_of_staysOpen hu hfirst, angles, if_neg hopen, if_pos ⟨hclose, by omega⟩]

/-- A scan of a text that stays open takes all of it. -/
theorem angles_unclosed (hu : StaysOpen bound u) (hfirst : u.head? = some '<') :
    angles bound 0 u = (u, .unclosed) := by
  have hscan := angles_of_staysOpenFrom (v := []) (fun _ c hc => by
    rw [hfirst] at hc
    exact (Option.some.inj hc).symm) (staysOpen_iff_from_zero.mp hu)
  simpa [angles] using hscan

end Angles

/-! ## A lexer in front of a word -/

/-- A text that starts with a letter or an underscore and all the word characters from it on. -/
structure WordRun (text front rest : List Char) : Prop where
  text_eq : text = front ++ rest
  start : front.head?.any isWordStart
  isWordChar : ∀ c ∈ front, isWordChar c
  ends : rest.head?.any GenericIR.isWordChar = false

/-- What a word without an angle bracket behind it is read as. -/
structure Lexer.ReadsWord (l : Lexer) (front rest : List Char) : Prop where
  keyword : front = "module".toList ∨ front = "loc".toList ∨ "func".toList <:+ front →
    l.Gives front .keyword (.text (String.ofList front)) rest
  boolean : ∀ b : Bool, front = (if b then "true" else "false").toList →
    l.Gives front .booleanLiteral (.bool b) rest
  identifier : front ≠ "module".toList → front ≠ "loc".toList → ¬ "func".toList <:+ front →
    front ≠ "true".toList → front ≠ "false".toList →
    l.Gives front .identifier (.text (String.ofList front)) rest

/-- What a word with an angle bracket behind it is read as: a form that ends with the character
that closes its last angle bracket, with a fault that ends with the first character that opens too
many, or with one that takes the rest of the text; and one of these it is. -/
structure Lexer.ReadsAngles (l : Lexer) (front angled : List Char) : Prop where
  closed : ∀ u c v, angled = u ++ c :: v → StaysOpen l.limits.maxNestingDepth u →
    angleCount (u ++ [c]) = 0 →
    l.Gives (front ++ (u ++ [c]))
      (if "dense".toList <+: front ++ (u ++ [c]) then .dense else .type)
      (.text (String.ofList (front ++ (u ++ [c])))) v
  tooDeep : ∀ u c v, angled = u ++ c :: v → StaysOpen l.limits.maxNestingDepth u →
    l.limits.maxNestingDepth < angleCount (u ++ [c]) →
    l.Faults (front ++ (u ++ [c]))
      (.limitExceeded "type nesting depth" l.limits.maxNestingDepth) v
  unclosed : StaysOpen l.limits.maxNestingDepth angled →
    l.Faults (front ++ angled) (.unterminatedType (String.ofList (front ++ angled))) []
  total : StaysOpen l.limits.maxNestingDepth angled ∨
    ∃ u c v, angled = u ++ c :: v ∧ StaysOpen l.limits.maxNestingDepth u ∧
      (l.limits.maxNestingDepth < angleCount (u ++ [c]) ∨ angleCount (u ++ [c]) = 0)

section Reading

variable {l : Lexer} {limits : Limits} {text front rest : List Char}

/-- What a word without angle brackets means, one form after the other. -/
theorem wordMeaning_cases (front : List Char) :
    (front = "module".toList ∨ front = "loc".toList ∨ "func".toList <:+ front →
      wordMeaning front = (.keyword, .text (String.ofList front))) ∧
    (∀ b : Bool, front = (if b then "true" else "false").toList →
      wordMeaning front = (.booleanLiteral, .bool b)) ∧
    (front ≠ "module".toList → front ≠ "loc".toList → ¬ "func".toList <:+ front →
      front ≠ "true".toList → front ≠ "false".toList →
      wordMeaning front = (.identifier, .text (String.ofList front))) := by
  have htext : ∀ s : String, String.ofList front = s ↔ front = s.toList := fun s =>
    ⟨fun h => by rw [← h, String.toList_ofList], fun h => by rw [h, String.ofList_toList]⟩
  simp only [wordMeaning, htext]
  refine ⟨fun h => if_pos h, ?_, fun hmodule hloc hfunc htrue hfalse => ?_⟩
  · rintro (_ | _) rfl <;> decide
  · rw [if_neg (by simp only [hmodule, hloc, hfunc, or_self, not_false_eq_true]), if_neg htrue,
      if_neg hfalse]

/-- A text that starts with a letter or an underscore is scanned as a word. -/
theorem WordRun.exists_scanToken (h : WordRun text front rest) :
    ∃ c u, text = c :: u ∧ ∀ limits : Limits, scanToken limits c u = word limits text := by
  obtain ⟨c, front, rfl⟩ : ∃ c u, front = c :: u := by
    cases front with
    | nil => exact absurd h.start (by decide)
    | cons c u => exact ⟨c, u, rfl⟩
  have hstart : isWordStart c := h.start
  have hplain : ¬ c.isDigit ∧ c ≠ '.' ∧ c ≠ '-' ∧ c ≠ '+' ∧ c ≠ '"' :=
    forall_ascii (p := fun c => isWordStart c →
      ¬ c.isDigit ∧ c ≠ '.' ∧ c ≠ '-' ∧ c ≠ '+' ∧ c ≠ '"') (by decide)
      (ascii_of_isWordStart c hstart) hstart
  obtain ⟨hdigit, hpoint, hminus, hplus, hquote⟩ := hplain
  refine ⟨c, front ++ rest, h.text_eq, fun limits => ?_⟩
  have hnumeral : ¬ startsWithNumeral (c :: (front ++ rest)) := by
    simp [startsWithNumeral, hdigit, hpoint, hminus, hplus]
  rw [scanToken, if_neg hnumeral, if_neg hquote, if_pos hstart, h.text_eq, List.cons_append]

/-- The scan of a word, told by the angle bracket behind it. -/
theorem WordRun.word_eq (h : WordRun text front rest) (limits : Limits) :
    word limits text =
      if rest.head? = some '<' then
        angleForm limits (front ++ (angles limits.maxNestingDepth 0 rest).1)
          (angles limits.maxNestingDepth 0 rest).2
      else ⟨front, .ok (wordMeaning front)⟩ := by
  obtain ⟨htake, hdrop⟩ := takeWhile_run h.isWordChar h.ends
  rw [word_of_dropWhile, h.text_eq, htake, hdrop]

/-- A lexer in front of a word without an angle bracket behind it reads the word. -/
theorem readsWord_of_comesTo (hl : l.ComesTo text) (h : WordRun text front rest)
    (hangle : rest.head? ≠ some '<') : l.ReadsWord front rest := by
  obtain ⟨c, u, htext, hscan⟩ := h.exists_scanToken
  have hgives : ∀ {kind value}, wordMeaning front = (kind, value) →
      l.Gives front kind value rest := by
    intro kind value hmeaning
    have hform := (hscan l.limits).trans (h.word_eq l.limits)
    rw [if_neg hangle, hmeaning] at hform
    exact Lexer.gives_of_scanToken (h.text_eq ▸ hl) (h.text_eq.symm.trans htext) hform
  obtain ⟨hkeyword, hboolean, hidentifier⟩ := wordMeaning_cases front
  exact ⟨fun hk => hgives (hkeyword hk), fun b hb => hgives (hboolean b hb),
    fun h1 h2 h3 h4 h5 => hgives (hidentifier h1 h2 h3 h4 h5)⟩

/-- A lexer in front of a word with an angle bracket behind it reads an angle bracket form. -/
theorem readsAngles_of_comesTo (hl : l.ComesTo text) (h : WordRun text front ('<' :: rest)) :
    l.ReadsAngles front ('<' :: rest) := by
  obtain ⟨c, u, htext, hscan⟩ := h.exists_scanToken
  have hform : ∀ {tail ending}, angles l.limits.maxNestingDepth 0 ('<' :: rest) = (tail, ending) →
      scanToken l.limits c u = angleForm l.limits (front ++ tail) ending := by
    intro tail ending hangles
    have hword := (hscan l.limits).trans (h.word_eq l.limits)
    rwa [List.head?_cons, if_pos rfl, hangles] at hword
  have hfirst : ∀ {u c v}, '<' :: rest = u ++ c :: v → (u ++ [c]).head? = some '<' := by
    rintro (_ | ⟨e, u⟩) c v hsplit
    · exact congrArg some (List.cons.inj hsplit).1.symm
    · exact congrArg some (List.cons.inj hsplit).1.symm
  have htake : ∀ {u c v}, '<' :: rest = u ++ c :: v → (front ++ (u ++ [c])) ++ v = text := by
    intro u c v hsplit
    rw [h.text_eq, hsplit, List.append_assoc, List.append_assoc]
    rfl
  refine ⟨fun u c v hsplit hu hc => ?_, fun u c v hsplit hu hc => ?_, fun hu => ?_,
    staysOpen_or _ _⟩
  · have hscan := hform (hsplit ▸ angles_closed hu hc (hfirst hsplit))
    exact Lexer.gives_of_scanToken (htake hsplit ▸ hl) ((htake hsplit).trans htext) hscan
  · have hscan := hform (hsplit ▸ angles_tooDeep hu hc (hfirst hsplit))
    exact Lexer.faults_of_scanToken (htake hsplit ▸ hl) ((htake hsplit).trans htext) hscan
  · have hscan := hform (angles_unclosed hu rfl)
    have hall : (front ++ '<' :: rest) ++ [] = text := by rw [List.append_nil, h.text_eq]
    exact Lexer.faults_of_scanToken (hall ▸ hl) (hall.trans htext) hscan

/-- Words and angle bracket forms are exact: a lexer in front of a word reads the word where no
angle bracket follows it, and otherwise the form that the count of angle brackets tells. -/
theorem words_read_exactly (l : Lexer) (text front rest : List Char) (hl : l.ComesTo text)
    (h : WordRun text front rest) :
    (rest.head? ≠ some '<' → l.ReadsWord front rest) ∧
      (rest.head? = some '<' → l.ReadsAngles front rest) := by
  refine ⟨readsWord_of_comesTo hl h, fun hangle => ?_⟩
  cases rest with
  | nil => cases hangle
  | cons c rest =>
      obtain rfl : c = '<' := Option.some.inj hangle
      exact readsAngles_of_comesTo hl h

/-- A dense form goes up to the bracket that closes it, a bracket of no form before the first one
that is opened is part of the word, and a second level is too deep where one is allowed. -/
theorem words_read_exactly_one_level :
    (Lexer.ofSource ⟨1, 32⟩ "func-> ").Gives "func->".toList .identifier (.text "func->") [' '] ∧
    (Lexer.ofSource ⟨1, 32⟩ "dense<\"a\">>").Gives "dense<\"a\">".toList .dense
      (.text "dense<\"a\">") ['>'] ∧
    (Lexer.ofSource ⟨1, 32⟩ "a<b<c").Faults "a<b<".toList (.limitExceeded "type nesting depth" 1)
      ['c'] := by
  refine ⟨?_, ?_, ?_⟩
  · have h := words_read_exactly (.ofSource ⟨1, 32⟩ "func-> ") "func-> ".toList "func->".toList
      [' '] rfl ⟨rfl, by decide, List.all_eq_true.mp rfl, by decide⟩
    exact (h.1 (by decide)).identifier (by decide) (by decide) (by decide) (by decide) (by decide)
  · have h := words_read_exactly (.ofSource ⟨1, 32⟩ "dense<\"a\">>") "dense<\"a\">>".toList
      "dense".toList "<\"a\">>".toList rfl ⟨rfl, by decide, List.all_eq_true.mp rfl, by decide⟩
    exact (h.2 rfl).closed "<\"a\"".toList '>' ['>'] rfl (by decide) (by decide)
  · have h := words_read_exactly (.ofSource ⟨1, 32⟩ "a<b<c") "a<b<c".toList "a".toList
      "<b<c".toList rfl ⟨rfl, by decide, List.all_eq_true.mp rfl, by decide⟩
    exact (h.2 rfl).tooDeep "<b".toList '<' ['c'] rfl (by decide) (by decide)

end Reading

end GenericIR
