/-
# Texts with other gaps

A text is laid out anew where other blanks and comments stand between its tokens.  Tokens that
touch go on to touch, and tokens that stand apart go on to stand apart.  Such a text has the
lexemes of the first one, their gaps and places aside.

* `gap_drop_gap` : behind a gap there is no further gap;
* `Lexer.exists_reads_of_relaid` : a text that is laid out anew is read back as lexemes alike.
-/
import Mathlib.Data.List.Forall2
import GenericIR.Proofs.Spelling

namespace GenericIR

/-! ## What a gap is -/

/-- A text has no gap where its first character is neither a blank nor the slash of a
comment. -/
theorem gap_cons_eq_nil_iff (c : Char) (t : List Char) :
    gap (c :: t) = [] ↔ ¬ isBlank c ∧ (c = '/' → ∀ d ∈ t.head?, d ≠ '/' ∧ d ≠ '*') := by
  by_cases hslash : c = '/'
  · subst hslash
    cases t with
    | nil => exact iff_of_true rfl ⟨by decide, fun _ d hd => by cases hd⟩
    | cons d t =>
        by_cases hline : d = '/'
        · subst hline
          exact iff_of_false (List.cons_ne_nil _ _) fun h => (h.2 rfl '/' rfl).1 rfl
        by_cases hblock : d = '*'
        · subst hblock
          exact iff_of_false (List.cons_ne_nil _ _) fun h => (h.2 rfl '*' rfl).2 rfl
        refine iff_of_true ?_ ⟨by decide, fun _ e he => ?_⟩
        · rw [gap, gapFrom, if_neg (by decide)]
          · rintro rest _ heq
            exact hline (List.cons.inj heq).1
          · rintro rest _ heq
            exact hblock (List.cons.inj heq).1
        · cases he
          exact ⟨hline, hblock⟩
  · by_cases hblank : isBlank c
    · exact iff_of_false (by rw [gap, gapFrom_blank hblank]; exact List.cons_ne_nil _ _) fun h =>
        h.1 hblank
    · exact iff_of_true (gap_cons hblank hslash t) ⟨hblank, fun h => absurd h hslash⟩

/-- Behind the rest of a gap there is no further gap. -/
theorem gap_drop_gapFrom (s : GapState) (t : List Char) :
    gap (t.drop (gapFrom s t).length) = [] := by
  fun_induction gapFrom s t with
  | case1 rest ih => exact ih
  | case2 rest ih => exact ih
  | case3 c rest hline hblock hc ih => exact ih
  | case4 c rest hline hblock hc =>
      show gap (c :: rest) = []
      rw [gap, gapFrom, if_neg hc]
      · exact hline
      · exact hblock
  | case5 c rest ih => exact ih
  | case6 rest ih => exact ih
  | case7 c rest hclosed ih => exact ih
  | case8 s => rfl

/-- Behind a gap there is no further gap. -/
theorem gap_drop_gap (t : List Char) : gap (t.drop (gap t).length) = [] :=
  gap_drop_gapFrom .between t

/-! ## Gaps that keep tokens apart -/

/-- Blanks and closed comments, a blank first. -/
structure Separates (g : List Char) : Prop where
  layout : Layout g
  blank : ∃ c u, g = c :: u ∧ isBlank c

/-- A gap at an end of a text, which may be empty. -/
def IsMargin (g : List Char) : Prop := g = [] ∨ Separates g

/-- Texts that start with a blank, or are empty. -/
def Breaks (t : List Char) : Prop := ∀ c ∈ t.head?, isBlank c

/-- A blank goes on with no token. -/
theorem isStop_of_isBlank {c : Char} (h : isBlank c) : isStop c := by
  simp only [isBlank, Bool.or_eq_true, beq_iff_eq] at h
  rcases h with (((rfl | rfl) | rfl) | rfl) | rfl <;> decide

/-- A text that starts with a blank goes on with no token. -/
theorem Breaks.stops {t : List Char} (h : Breaks t) : Stops t :=
  fun c hc => isStop_of_isBlank (h c hc)

/-- A text behind a gap that separates starts with a blank. -/
theorem Separates.breaks {g : List Char} (h : Separates g) (t : List Char) : Breaks (g ++ t) := by
  obtain ⟨c, u, rfl, hc⟩ := h.blank
  intro d hd
  cases hd
  exact hc

/-- A gap at an end of a text is blanks and closed comments. -/
theorem IsMargin.layout {g : List Char} (h : IsMargin g) : Layout g := by
  rcases h with rfl | h
  · exact .nil
  · exact h.layout

/-- A gap at the end of a text starts with a blank, or is empty. -/
theorem IsMargin.breaks {g : List Char} (h : IsMargin g) : Breaks g := by
  rcases h with rfl | h
  · exact fun _ hc => by cases hc
  · have hbreaks := h.breaks []
    rwa [List.append_nil] at hbreaks

/-- A text with a gap goes on with no token. -/
theorem stops_of_gap_ne_nil {t : List Char} (h : gap t ≠ []) : Stops t := by
  intro c hc
  cases t with
  | nil => cases hc
  | cons d t =>
      cases hc
      rw [Ne, gap_cons_eq_nil_iff, not_and_or, Classical.not_not] at h
      rcases h with hblank | hslash
      · exact isStop_of_isBlank hblank
      · rw [Classical.not_imp] at hslash
        rw [hslash.1]
        decide

/-! ## Texts laid out anew -/

/-- Texts with the lexemes of a run in them, where another token stands before the run: a
lexeme goes on to touch the one before it, or goes on to stand apart from it. -/
inductive Follows : List Lexeme → List Char → Prop where
  | ending {e : Lexeme} {g : List Char} (he : e.kind = .eof) (hg : IsMargin g) : Follows [e] g
  | token {x : Lexeme} {xs : List Lexeme} {g t : List Char} (hx : x.kind ≠ .eof)
      (hg : if x.gap = "" then g = [] else Separates g) (h : Follows xs t) :
      Follows (x :: xs) (g ++ (x.text.toList ++ t))

/-- Texts with the lexemes of a run in them, the first of them behind any gap. -/
inductive Relays : List Lexeme → List Char → Prop where
  | empty {e : Lexeme} {g : List Char} (he : e.kind = .eof) (hg : IsMargin g) : Relays [e] g
  | token {x : Lexeme} {xs : List Lexeme} {g t : List Char} (hx : x.kind ≠ .eof)
      (hg : IsMargin g) (h : Follows xs t) : Relays (x :: xs) (g ++ (x.text.toList ++ t))

/-- Sources with the tokens of a source and other gaps between them. -/
def Relaid (limits : Limits) (source source' : String) : Prop :=
  Relays (Lexer.readAll (.ofSource limits source)).lexemes source'.toList

/-- Texts that are the same up to where no token goes on in either of them, the second one
with a blank. -/
def Fork (t t' : List Char) : Prop :=
  ∃ v e e', t = v ++ e ∧ t' = v ++ e' ∧ Stops e ∧ Breaks e'

/-- A text without a gap has none either where it forks behind its first character. -/
theorem gap_eq_nil_of_fork {c : Char} {u t t' : List Char} (h : gap (c :: (u ++ t)) = [])
    (ht : Fork t t') : gap (c :: (u ++ t')) = [] := by
  obtain ⟨v, e, e', rfl, rfl, _, hbreaks⟩ := ht
  rw [gap_cons_eq_nil_iff] at h ⊢
  refine ⟨h.1, fun hslash d hd => ?_⟩
  rw [← List.append_assoc] at h hd
  cases hw : u ++ v with
  | nil =>
      rw [hw] at hd
      have hblank := hbreaks d hd
      exact ⟨by rintro rfl; exact absurd hblank (by decide),
        by rintro rfl; exact absurd hblank (by decide)⟩
  | cons a w =>
      rw [hw] at h hd
      exact h.2 hslash d hd

namespace Lexeme

/-- Lexemes that are the same but for their gaps and places. -/
structure Same (x x' : Lexeme) : Prop where
  kind : x.kind = x'.kind
  value : x.token.value = x'.token.value
  text : x.text = x'.text

/-- Lexemes that are the same and touch what stands before them alike. -/
structure Alike (x x' : Lexeme) : Prop where
  same : x.Same x'
  touches : x.kind ≠ .eof → (x.gap = "" ↔ x'.gap = "")

end Lexeme

namespace Lexer

/-- The gap of a lexeme is that of the text it is read from. -/
theorem gap_of_next {l m : Lexer} {x : Lexeme} (h : next l = .ok x m) :
    x.gap = String.ofList (gap l.rest) := by
  rcases next_ok_cases h with ⟨_, _, rfl⟩ | ⟨c, rest, kind, value, _, _, _, rfl⟩ <;> rfl

/-- A text that a run of lexemes is read from and one with other gaps fork. -/
theorem fork_of_follows {l : Lexer} {xs : List Lexeme} (h : l.Reads xs) {t : List Char}
    (ht : Follows xs t) : Fork l.rest t := by
  induction h generalizing t with
  | @last l m x hnext hx =>
      cases ht with
      | token hne _ _ => exact absurd hx hne
      | ending _ hg =>
          refine ⟨[], l.rest, t, rfl, rfl, ?_, hg.breaks⟩
          by_cases hgap : gap l.rest = []
          · have hrest := (took_of_next hnext).1.rest
            rw [(rest_of_next_eof hnext hx).1, (rest_of_next_eof hnext hx).2.1, gap_of_next hnext,
              hgap] at hrest
            rw [hrest]
            exact .nil
          · exact stops_of_gap_ne_nil hgap
  | @more l m x xs hnext hx hrest ih =>
      cases ht with
      | ending he _ => exact absurd he hx
      | @token _ _ g t _ hg ht =>
          by_cases hgap : x.gap = ""
          · rw [if_pos hgap] at hg
            obtain ⟨v, e, e', hv, hv', hstops, hbreaks⟩ := ih ht
            refine ⟨x.text.toList ++ v, e, e', ?_, ?_, hstops, hbreaks⟩
            · rw [(took_of_next hnext).1.rest, hgap, hv, List.append_assoc]
              rfl
            · rw [hg, hv', List.append_assoc]
              rfl
          · rw [if_neg hgap] at hg
            refine ⟨[], l.rest, _, rfl, rfl, stops_of_gap_ne_nil ?_, hg.breaks _⟩
            intro hnil
            rw [gap_of_next hnext, hnil] at hgap
            exact hgap rfl

/-- A token is read again behind another gap, where the texts behind it fork. -/
theorem exists_next_of_fork {l m : Lexer} {x : Lexeme} (hnext : next l = .ok x m)
    (hx : x.kind ≠ .eof) {g t : List Char} (hg : Layout g) (ht : Fork m.rest t) (p : Place) :
    ∃ x' q, next ⟨l.limits, p, g ++ (x.text.toList ++ t)⟩ = .ok x' ⟨m.limits, q, t⟩ ∧
      x.Same x' ∧ x'.gap = String.ofList g := by
  rcases next_ok_cases hnext with ⟨_, _, rfl⟩ | ⟨c, rest, kind, value, hrest, hout, rfl, rfl⟩
  · exact absurd rfl hx
  have hgap : gap (c :: rest) = [] := by
    rw [← hrest]
    exact gap_drop_gap l.rest
  -- the token is the first character and some of those behind it
  obtain ⟨u, w, hlexeme, hw⟩ : ∃ u w, (scanToken l.limits c rest).lexeme = c :: u ∧
      rest = u ++ w := by
    obtain ⟨w, hw⟩ := scanToken_isPrefix l.limits c rest
    obtain ⟨d, u, hdu⟩ := List.exists_cons_of_ne_nil (lexeme_scanToken_ne_nil l.limits c rest)
    rw [hdu] at hw
    obtain ⟨rfl, rfl⟩ := List.cons.inj hw
    exact ⟨u, w, hdu, rfl⟩
  subst hw
  have hfork : Fork w t := by
    have hskip : ((l.skip (gap l.rest)).skip (scanToken l.limits c (u ++ w)).lexeme).rest = w := by
      rw [skip, hrest, hlexeme]
      exact List.drop_left
    rwa [hskip] at ht
  -- a scan that ends in the common part of both texts is the same for both
  have hscan : scanToken l.limits c (u ++ t) = ⟨c :: u, .ok (kind, value)⟩ := by
    obtain ⟨v, e, e', rfl, rfl, hstops, hbreaks⟩ := hfork
    rw [← List.append_assoc] at hlexeme hout ⊢
    have hwithin : (scanToken l.limits c (u ++ v ++ e)).Within (c :: (u ++ v)).length := by
      refine ⟨?_, _, hout⟩
      rw [hlexeme, List.length_cons, List.length_cons, List.length_append]
      omega
    rw [scanToken_append hstops hbreaks.stops c (u ++ v) hwithin, ← hlexeme, ← hout]
  have hgap' : gap (g ++ (c :: u ++ t)) = g := gap_append hg (gap_eq_nil_of_fork hgap hfork)
  refine ⟨Chunk.lexeme ⟨g, c :: u, (kind, value)⟩ p, Chunk.after ⟨g, c :: u, (kind, value)⟩ p, ?_,
    ⟨rfl, rfl, ?_⟩, rfl⟩
  · rw [hlexeme, String.toList_ofList]
    exact @next_chunk l.limits p ⟨g, c :: u, (kind, value)⟩ t hgap' ⟨c, u, rfl, hscan⟩
  · rw [hlexeme]
    rfl

/-- The end of a text is read again behind another gap. -/
theorem exists_reads_of_eof {l m : Lexer} {e : Lexeme} (hnext : next l = .ok e m)
    (he : e.kind = .eof) {g : List Char} (hg : IsMargin g) (p : Place) :
    ∃ e', Reads ⟨l.limits, p, g⟩ [e'] ∧ e.Same e' := by
  have hgap : gap g = g := by
    have happend := @gap_append g [] hg.layout rfl
    rwa [List.append_nil] at happend
  rcases next_ok_cases hnext with ⟨_, _, rfl⟩ | ⟨c, rest, kind, value, _, hout, _, rfl⟩
  · exact ⟨_, @reads_lexemesFrom l.limits g hgap p [] trivial, rfl, rfl, rfl⟩
  · exact absurd he (kind_ne_eof_of_scanToken l.limits c rest kind value hout)

/-- Lexemes that are read from a text behind another token are read alike from one with other
gaps. -/
theorem exists_reads_of_follows {l : Lexer} {xs : List Lexeme} (h : l.Reads xs) {t : List Char}
    (ht : Follows xs t) (p : Place) :
    ∃ xs', Reads ⟨l.limits, p, t⟩ xs' ∧ List.Forall₂ Lexeme.Alike xs xs' := by
  induction h generalizing t p with
  | @last l m e hnext he =>
      cases ht with
      | token hne _ _ => exact absurd he hne
      | ending _ hg =>
          obtain ⟨e', he', hsame⟩ := exists_reads_of_eof hnext he hg p
          exact ⟨[e'], he', .cons ⟨hsame, fun hne => absurd he hne⟩ .nil⟩
  | @more l m x xs hnext hx hrest ih =>
      cases ht with
      | ending he _ => exact absurd he hx
      | @token _ _ g t _ hg ht =>
          have hgap : Layout g ∧ (x.gap = "" ↔ String.ofList g = "") := by
            by_cases hgap : x.gap = ""
            · rw [if_pos hgap] at hg
              rw [hg]
              exact ⟨.nil, iff_of_true hgap rfl⟩
            · rw [if_neg hgap] at hg
              obtain ⟨c, u, rfl, _⟩ := hg.blank
              exact ⟨hg.layout, iff_of_false hgap (by simp)⟩
          obtain ⟨x', q, hx', hsame, hgap'⟩ :=
            exists_next_of_fork hnext hx hgap.1 (fork_of_follows hrest ht) p
          obtain ⟨xs', hxs', halike⟩ := ih ht q
          refine ⟨x' :: xs', .more hx' (hsame.kind ▸ hx) hxs', .cons ⟨hsame, fun _ => ?_⟩ halike⟩
          rw [hgap']
          exact hgap.2

/-- A text with other gaps is read as lexemes alike, the gap before the first of them aside. -/
theorem exists_reads_of_relays {l : Lexer} {xs : List Lexeme} (h : l.Reads xs) {t : List Char}
    (ht : Relays xs t) (p : Place) :
    ∃ x x' ys ys', xs = x :: ys ∧ Reads ⟨l.limits, p, t⟩ (x' :: ys') ∧ x.Same x' ∧
      List.Forall₂ Lexeme.Alike ys ys' := by
  cases h with
  | @last _ m e hnext he =>
      cases ht with
      | token hne _ _ => exact absurd he hne
      | empty _ hg =>
          obtain ⟨e', he', hsame⟩ := exists_reads_of_eof hnext he hg p
          exact ⟨e, e', [], [], rfl, he', hsame, .nil⟩
  | @more _ m x xs hnext hx hrest =>
      cases ht with
      | empty he _ => exact absurd he hx
      | token _ hg ht =>
          obtain ⟨x', q, hx', hsame, _⟩ :=
            exists_next_of_fork hnext hx hg.layout (fork_of_follows hrest ht) p
          obtain ⟨xs', hxs', halike⟩ := exists_reads_of_follows hrest ht q
          exact ⟨x, x', xs, xs', rfl, .more hx' (hsame.kind ▸ hx) hxs', hsame, halike⟩

end Lexer

end GenericIR
