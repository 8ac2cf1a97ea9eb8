/-
# White space at the ends of a value

Every token either is a single character of white space, and then a keyword, or starts and ends
with characters that are none.  So trimming the joined text of a run of lexemes leaves out whole
lexemes at its ends, and the texts of the others with one space between them.

* `Lexer.white_or_solid_of_next` : lexemes and white space;
* `joinedText_eq` : the joined text of a run is that of its trimmed run;
* `Lexer.exists_reads_joinedText` : the joined text is read as the trimmed run.
-/
import Mathlib.Data.List.DropRight
import GenericIR.Proofs.Bytes.Source
import GenericIR.Proofs.Spaced.Text
import GenericIR.Proofs.WellFormed.Token
import GenericIR.Proofs.Values.Classification

namespace GenericIR

/-! ## Characters -/

/-- White space goes on with no token. -/
theorem isStop_of_isWhiteSpace {c : Char} (h : isWhiteSpace c) : isStop c := by
  by_cases hascii : c.toNat < 128
  · exact forall_ascii (p := fun c => isWhiteSpace c → isStop c) (by decide) hascii h
  · -- every character that goes on with a token is an ASCII character
    have hid : isIdChar c = false := Bool.eq_false_iff.mpr fun hc => hascii (ascii_of_isIdChar c hc)
    have halpha : c.isAlpha = false :=
      Bool.eq_false_iff.mpr fun hc => hascii (ascii_of_isAlpha c hc)
    have hdigit : c.isDigit = false :=
      Bool.eq_false_iff.mpr fun hc => hascii (ascii_of_isDigit c hc)
    have hne : ∀ d : Char, d.toNat < 128 → (c == d) = false := fun d hd =>
      beq_eq_false_iff_ne.mpr fun heq => hascii (heq ▸ hd)
    simp [isStop, isWordChar, isWordStart, hid, halpha, hdigit, hne]

/-- White space is a mark, and a keyword. -/
theorem scanToken_of_isWhiteSpace {limits : Limits} {c : Char} (h : isWhiteSpace c)
    (rest : List Char) : scanToken limits c rest = .plain .keyword [c] := by
  have hstop := isStop_of_isWhiteSpace h
  fun_cases scanToken limits c rest with
  | case1 hnumeral =>
      have hdigit := isDigit_of_isStop c hstop
      simp only [startsWithNumeral, hdigit, Bool.false_or, Bool.and_eq_true, Bool.or_eq_true,
        beq_iff_eq] at hnumeral
      rcases hnumeral with ⟨(rfl | rfl) | rfl, _⟩ <;> exact absurd hstop (by decide)
  | case2 _ hc => exact absurd (hc ▸ hstop) (by decide)
  | case3 _ _ hstart =>
      have hword := isWordChar_of_isStop c hstop
      rw [isWordChar, hstart] at hword
      cases hword
  | case4 _ _ _ hc => exact absurd (hc ▸ hstop) (by decide)
  | case5 _ _ _ _ hc => rcases hc with rfl | rfl <;> exact absurd h (by decide)
  | case6 _ _ _ _ _ hc => exact absurd (hc ▸ hstop) (by decide)
  | case7 _ _ _ _ _ _ =>
      fun_cases mark c rest with
      | case1 r => exact absurd hstop (by decide)
      | case2 r => exact absurd hstop (by decide)
      | case3 r => exact absurd hstop (by decide)
      | case4 c r =>
          have hkind : markKind c = .keyword := by
            unfold markKind
            split <;> first | rfl | exact absurd h (by decide)
          rw [hkind]

/-! ## Words with spaces between them -/

section Words

variable {α : Type} {p : α → Bool} {s : α}

/-- Joined words with one more behind them. -/
theorem intercalate_concat {ws : List (List α)} (hws : ws ≠ []) (w : List α) :
    [s].intercalate (ws ++ [w]) = [s].intercalate ws ++ s :: w := by
  induction ws with
  | nil => exact absurd rfl hws
  | cons v ws ih =>
      cases ws with
      | nil => simp
      | cons u ws =>
          have hne : u :: ws ++ [w] ≠ [] := List.cons_ne_nil _ _
          rw [List.cons_append, List.intercalate_cons_of_ne_nil hne, ih (List.cons_ne_nil u ws),
            List.intercalate_cons_cons, List.append_assoc _ _ (s :: w)]

/-- Joined words backwards. -/
theorem reverse_intercalate (ws : List (List α)) :
    ([s].intercalate ws).reverse = [s].intercalate (ws.reverse.map List.reverse) := by
  induction ws with
  | nil => rfl
  | cons v ws ih =>
      cases ws with
      | nil => simp
      | cons u ws =>
          have hne : (u :: ws).reverse.map List.reverse ≠ [] := by simp
          rw [List.intercalate_cons_cons, List.reverse_append, ih, List.reverse_cons (a := v),
            List.map_append, List.map_singleton, intercalate_concat hne, List.reverse_append]
          rfl

/-- Where every word is dropped whole or starts with what is not dropped, dropping from the front
of the joined words leaves out words. -/
theorem dropWhile_intercalate (hs : p s) {ws : List (List α)}
    (h : ∀ w ∈ ws, w.all p ∨ ∃ c ∈ w.head?, ¬ p c) :
    ([s].intercalate ws).dropWhile p = [s].intercalate (ws.dropWhile (·.all p)) := by
  induction ws with
  | nil => rfl
  | cons w ws ih =>
      obtain ⟨hw, hws⟩ := List.forall_mem_cons.mp h
      rcases hw with hall | ⟨c, hc, hnot⟩
      · have hdrop : w.dropWhile p = [] :=
          List.dropWhile_eq_nil_iff.mpr fun c hc => List.all_eq_true.mp hall c hc
        have hskip : (w :: ws).dropWhile (·.all p) = ws.dropWhile (·.all p) :=
          List.dropWhile_cons_of_pos hall
        rw [hskip, ← ih hws]
        cases ws with
        | nil => rw [List.intercalate_singleton, hdrop, List.intercalate_nil, List.dropWhile_nil]
        | cons v ws =>
            rw [List.intercalate_cons_cons, List.append_assoc, List.dropWhile_append, hdrop,
              List.isEmpty_nil, if_pos rfl, List.singleton_append, List.dropWhile_cons_of_pos hs]
      · obtain ⟨u, rfl⟩ := List.head?_eq_some_iff.mp hc
        have hall : ¬ (c :: u).all p := fun hall =>
          hnot (List.all_eq_true.mp hall c List.mem_cons_self)
        have hkeep : ((c :: u) :: ws).dropWhile (·.all p) = (c :: u) :: ws :=
          List.dropWhile_cons_of_neg hall
        rw [hkeep, List.intercalate_cons_cons_left, List.dropWhile_cons_of_neg hnot]

/-- Where every word is dropped whole or ends with what is not dropped, dropping from the end of
the joined words leaves out words. -/
theorem rdropWhile_intercalate (hs : p s) {ws : List (List α)}
    (h : ∀ w ∈ ws, w.all p ∨ ∃ c ∈ w.getLast?, ¬ p c) :
    ([s].intercalate ws).rdropWhile p = [s].intercalate (ws.rdropWhile (·.all p)) := by
  have hreverse : ∀ w ∈ ws.reverse.map List.reverse, w.all p ∨ ∃ c ∈ w.head?, ¬ p c := by
    rw [List.forall_mem_map]
    intro w hw
    rw [List.all_reverse, List.head?_reverse]
    exact h w (List.mem_reverse.mp hw)
  have hall : ((·.all p) ∘ List.reverse : List α → Bool) = (·.all p) :=
    funext fun w => List.all_reverse
  rw [List.rdropWhile, reverse_intercalate, dropWhile_intercalate hs hreverse, List.dropWhile_map,
    hall, reverse_intercalate, ← List.map_reverse, List.map_map, List.rdropWhile]
  simp

end Words

/-! ## Lexemes -/

/-- Whether the text of a lexeme is white space. -/
def Lexeme.isWhite (x : Lexeme) : Bool := x.text.toList.all isWhiteSpace

/-- A run of lexemes without those of white space at its ends. -/
def trimLexemes (v : List Lexeme) : List Lexeme :=
  (v.dropWhile Lexeme.isWhite).rdropWhile Lexeme.isWhite

/-- Trimming leaves lexemes of the run. -/
theorem trimLexemes_sublist (v : List Lexeme) : (trimLexemes v).Sublist v :=
  (List.rdropWhile_prefix _ _).sublist.trans (List.dropWhile_sublist _)

/-- Trimming twice is trimming once. -/
theorem trimLexemes_trimLexemes (v : List Lexeme) :
    trimLexemes (trimLexemes v) = trimLexemes v := by
  have hfirst : (trimLexemes v).dropWhile Lexeme.isWhite = trimLexemes v := by
    cases htrim : trimLexemes v with
    | nil => rfl
    | cons x u =>
        obtain ⟨back, hback⟩ := List.rdropWhile_prefix Lexeme.isWhite (v.dropWhile Lexeme.isWhite)
        have hhead := List.head?_dropWhile_not Lexeme.isWhite v
        rw [← hback, ← trimLexemes, htrim] at hhead
        exact List.dropWhile_cons_of_neg (by simpa using hhead)
  rw [trimLexemes, hfirst, trimLexemes, List.rdropWhile_idempotent]

/-- What a lexeme has to do with white space: it is one character of it that is no blank, and a
keyword, or it neither starts nor ends with it. -/
inductive Lexeme.WhiteOrSolid (x : Lexeme) : Prop where
  | white {c : Char} (hkind : x.kind = .keyword) (htext : x.text.toList = [c])
      (hc : isWhiteSpace c) (hblank : ¬ isBlank c)
  | solid (hfirst : ∃ c ∈ x.text.toList.head?, ¬ isWhiteSpace c)
      (hlast : ∃ c ∈ x.text.toList.getLast?, ¬ isWhiteSpace c)

/-- A lexeme of white space is a keyword of one character, which is no blank. -/
theorem Lexeme.WhiteOrSolid.of_isWhite {x : Lexeme} (h : x.WhiteOrSolid) (hx : x.isWhite) :
    x.kind = .keyword ∧ ∃ c, x.text.toList = [c] ∧ isWhiteSpace c ∧ ¬ isBlank c := by
  cases h with
  | white hkind htext hc hblank => exact ⟨hkind, _, htext, hc, hblank⟩
  | solid hfirst _ =>
      obtain ⟨c, hc, hnot⟩ := hfirst
      exact absurd (List.all_eq_true.mp hx c (List.mem_of_mem_head? hc)) hnot

namespace Lexer

variable {limits : Limits} {l m : Lexer} {x : Lexeme} {xs : List Lexeme}

/-- A lexeme that is read is one character of white space, or neither starts nor ends with it. -/
theorem whiteOrSolid_of_next (hnext : next l = .ok x m) (hx : x.kind ≠ .eof) : x.WhiteOrSolid := by
  rcases next_ok_cases hnext with ⟨_, _, rfl⟩ | ⟨c, rest, kind, value, _, hout, _, rfl⟩
  · exact absurd rfl hx
  by_cases hc : isWhiteSpace c
  · have hscan := @scanToken_of_isWhiteSpace l.limits c hc rest
    rw [hscan] at hout
    cases hout
    have htext : (String.ofList (scanToken l.limits c rest).lexeme).toList = [c] := by
      rw [hscan]
      exact String.toList_ofList
    exact .white rfl htext hc (endsSolid_of_next hnext c (by rw [htext]; rfl))
  · obtain ⟨u, hlexeme, _⟩ := scanToken_alone hout
    obtain ⟨d, hd⟩ : ∃ d, (c :: u).getLast? = some d := ⟨_, List.getLast?_cons⟩
    refine .solid ⟨c, by rw [String.toList_ofList, hlexeme]; rfl, hc⟩
      ⟨d, by rw [String.toList_ofList, hlexeme]; exact hd, fun hwhite => ?_⟩
    -- the last character is the first one, or goes on with a token
    have hends := single_or_endsInToken hout
    rw [hlexeme] at hends
    rcases hends with hone | hlast
    · rw [hone] at hd
      cases hd
      exact hc hwhite
    · exact hlast d hd (isStop_of_isWhiteSpace hwhite)

/-- So are all lexemes of a text but its end. -/
theorem Reads.whiteOrSolid (h : Reads l xs) : ∀ x ∈ xs, x.kind ≠ .eof → x.WhiteOrSolid := by
  induction h with
  | last _ hx => exact List.forall_mem_singleton.mpr fun hne => absurd hx hne
  | more hnext _ _ ih => exact List.forall_mem_cons.mpr ⟨whiteOrSolid_of_next hnext, ih⟩

end Lexer

/-! ## Joined texts -/

section Joined

variable {v : List Lexeme} (h : ∀ x ∈ v, x.WhiteOrSolid)
include h

/-- What trimming leaves of a run stands between keywords of white space. -/
theorem exists_split_trimLexemes : ∃ front back, v = front ++ (trimLexemes v ++ back) ∧
    ∀ x ∈ front ++ back,
      x.kind = .keyword ∧ ∃ c, x.text.toList = [c] ∧ isWhiteSpace c ∧ ¬ isBlank c := by
  have hsplit : v = v.takeWhile Lexeme.isWhite ++ (trimLexemes v ++
      (v.dropWhile Lexeme.isWhite).rtakeWhile Lexeme.isWhite) := by
    rw [trimLexemes, List.rdropWhile_append_rtakeWhile, List.takeWhile_append_dropWhile]
  refine ⟨_, _, hsplit, fun x hx => ?_⟩
  rw [List.mem_append] at hx
  have hmem : x ∈ v := by
    rw [hsplit, List.mem_append, List.mem_append]
    exact hx.imp_right Or.inr
  exact (h x hmem).of_isWhite (hx.elim List.mem_takeWhile_imp List.mem_rtakeWhile_imp)

/-- The joined text of a run is that of its lexemes but those of white space at its ends. -/
theorem joinedText_eq : joinedText v = " ".intercalate ((trimLexemes v).map Lexeme.text) := by
  have hfirst : ∀ w ∈ v.map fun x => x.text.toList,
      w.all isWhiteSpace ∨ ∃ c ∈ w.head?, ¬ isWhiteSpace c := by
    rw [List.forall_mem_map]
    intro x hx
    cases h x hx with
    | white _ htext hc _ => exact Or.inl (by rw [htext]; simpa using hc)
    | solid hfirst _ => exact Or.inr hfirst
  have hlast : ∀ w ∈ (v.dropWhile Lexeme.isWhite).map fun x => x.text.toList,
      w.all isWhiteSpace ∨ ∃ c ∈ w.getLast?, ¬ isWhiteSpace c := by
    rw [List.forall_mem_map]
    intro x hx
    cases h x ((List.dropWhile_sublist _).subset hx) with
    | white _ htext hc _ => exact Or.inl (by rw [htext]; simpa using hc)
    | solid _ hlast => exact Or.inr hlast
  have hspace : isWhiteSpace ' ' := by decide
  have htrim : ∀ text, trim text = (text.dropWhile isWhiteSpace).rdropWhile isWhiteSpace :=
    fun _ => rfl
  have hwhite : (fun w : List Char => w.all isWhiteSpace) ∘ (fun x : Lexeme => x.text.toList) =
      Lexeme.isWhite := rfl
  rw [joinedText, htrim, dropWhile_intercalate hspace hfirst, List.dropWhile_map, hwhite,
    rdropWhile_intercalate hspace hlast, List.rdropWhile, ← List.map_reverse, List.dropWhile_map,
    hwhite, ← List.map_reverse, ← String.toList_inj, String.toList_ofList,
    String.toList_intercalate, List.map_map]
  rfl

end Joined

end GenericIR
