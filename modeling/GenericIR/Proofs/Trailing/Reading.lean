/-
# Texts that are cut open behind a token

A source may be cut behind any of its tokens, and other text put in there behind a blank.  The
tokens in front of the cut stay the same, and so do those behind it where the text put in ends
before anything.

* `Lexer.ReadsTo.cut` : what is read up to a cut is read again in front of a blank;
* `Lexer.Reads.twins` : what is read from one place is read from any other one;
* `Lexer.Reads.resumed` : what is read is read again behind more of a gap.
-/
import GenericIR.Proofs.Joined.Reading
import GenericIR.Proofs.Spaced.Front

namespace GenericIR

/-! ## Lexemes that stand again -/

section Resumed

variable {xs ys xs' : List Lexeme}

/-- Lexemes that stand again behind another gap: the first of them is the same, and the others are
twins. -/
inductive Resumed : List Lexeme → List Lexeme → Prop where
  | intro {x x' : Lexeme} {xs xs' : List Lexeme} (hx : x.Same x')
      (h : List.Forall₂ Lexeme.Twin xs xs') : Resumed (x :: xs) (x' :: xs')

/-- Lexemes that are twins stand again. -/
theorem Resumed.of_twins (h : List.Forall₂ Lexeme.Twin xs xs') (hne : xs ≠ []) :
    Resumed xs xs' := by
  cases h with
  | nil => exact absurd rfl hne
  | cons hx h => exact .intro hx.same h

/-- Twins one by one are copied up to any of them. -/
theorem exists_copied_of_twins (h : List.Forall₂ Lexeme.Twin xs xs') (hys : ys <:+ xs)
    (hne : ys ≠ []) : ∃ ys', Copied Lexeme.Same xs ys xs' ys' ∧ Resumed ys ys' := by
  induction h with
  | nil => exact absurd (List.suffix_nil.mp hys) hne
  | @cons x x' xs xs' hx h ih =>
      rcases List.suffix_cons_iff.mp hys with rfl | hys
      · exact ⟨_, .here hx.same, .intro hx.same h⟩
      · obtain ⟨ys', hcopied, hresumed⟩ := ih hys
        exact ⟨ys', .cons hx hcopied, hresumed⟩

/-- Lexemes that stand again are moved up to any of them, which stands again. -/
theorem Resumed.exists_moved (h : Resumed xs xs') (hys : ys <:+ xs) (hne : ys ≠ []) :
    ∃ ys', Moved Lexeme.Same xs ys xs' ys' ∧ Resumed ys ys' := by
  cases h with
  | intro hx h =>
      rcases List.suffix_cons_iff.mp hys with rfl | hys
      · exact ⟨_, .here hx, .intro hx h⟩
      · obtain ⟨ys', hcopied, hresumed⟩ := exists_copied_of_twins h hys hne
        exact ⟨ys', .cons hx hcopied, hresumed⟩

end Resumed

namespace Lexer

variable {l m : Lexer} {x : Lexeme} {xs : List Lexeme}

/-! ## Readings around a cut -/

/-- A lexeme is read behind a gap where it stands before a text. -/
theorem exists_next_of_readBefore {limits : Limits} {t : List Char} (h : x.ReadBefore limits t)
    (p : Place) {g : List Char} (hg : Layout g) :
    ∃ x' q, next ⟨limits, p, g ++ (x.text.toList ++ t)⟩ = .ok x' ⟨limits, q, t⟩ ∧ x.Same x' ∧
      x'.gap = String.ofList g := by
  obtain ⟨c, u, htext, hgap, hscan⟩ := h
  have hread : gap (g ++ (x.text.toList ++ t)) = g := by
    rw [htext]
    exact gap_append hg hgap
  refine ⟨_, _, @next_chunk limits p (chunk g x) t hread ⟨c, u, htext, ?_⟩, ⟨rfl, rfl, ?_⟩, rfl⟩
  · rw [hscan]
    exact congrArg (Scan.mk · _) htext.symm
  · exact String.ofList_toList.symm

/-- Lexemes that are read up to a cut are read again where a blank stands behind it. -/
theorem ReadsTo.cut (h : ReadsTo l xs m) {t : List Char} (ht : Breaks t) (p : Place) :
    ∃ xs' q, ReadsTo ⟨l.limits, p, spelled xs ++ t⟩ xs' ⟨l.limits, q, t⟩ ∧
      List.Forall₂ Lexeme.Twin xs xs' := by
  induction h generalizing p with
  | nil => exact ⟨[], p, .nil, .nil⟩
  | @cons l m k x xs hnext hx h ih =>
      have hbefore : x.ReadBefore l.limits (spelled xs ++ t) := by
        have hbehind := readBefore_of_next hnext hx
        rw [h.took.1] at hbehind
        cases h with
        | nil => exact hbehind.at_end ht.ends
        | cons hnext' hx' _ =>
            obtain ⟨c, u, htext, _⟩ := readBefore_of_next hnext' hx'
            refine hbehind.front ?_ ht.stops
            rw [spelled_cons, htext]
            simp
      obtain ⟨x', q, hx', hsame, hgap⟩ :=
        exists_next_of_readBefore hbefore p (layout_of_next hnext hx)
      have hlimits := (took_of_next hnext).1.limits
      obtain ⟨xs', r, hxs', htwins⟩ := ih q
      rw [String.ofList_toList] at hgap
      rw [hlimits] at hxs'
      rw [spelled_cons, List.append_assoc, List.append_assoc]
      exact ⟨x' :: xs', r, .cons hx' (hsame.kind ▸ hx) hxs', .cons ⟨hsame, hgap.symm⟩ htwins⟩

/-- The end of a text is read from any place. -/
theorem exists_next_of_eof (hnext : next l = .ok x m) (hx : x.kind = .eof) (p : Place) :
    ∃ x' k, next ⟨l.limits, p, l.rest⟩ = .ok x' k ∧ x.Twin x' := by
  rcases next_ok_cases hnext with ⟨rfl, hrest, rfl⟩ | ⟨c, rest, kind, value, _, hout, _, rfl⟩
  · rcases next_cases ⟨l.limits, p, l.rest⟩ with ⟨_, hend⟩ | ⟨c, rest, hmore, _⟩
    · exact ⟨_, _, hend, ⟨rfl, rfl, rfl⟩, rfl⟩
    · exact absurd (hrest.symm.trans hmore) (List.cons_ne_nil c rest).symm
  · exact absurd hx (kind_ne_eof_of_scanToken l.limits c rest kind value hout)

/-- What is read from one place is read from any other one. -/
theorem Reads.twins (h : Reads l xs) (p : Place) :
    ∃ xs', Reads ⟨l.limits, p, l.rest⟩ xs' ∧ List.Forall₂ Lexeme.Twin xs xs' := by
  induction h generalizing p with
  | last hnext hx =>
      obtain ⟨x', _, hnext', htwin⟩ := exists_next_of_eof hnext hx p
      exact ⟨[x'], .last hnext' (htwin.same.kind ▸ hx), .cons htwin .nil⟩
  | @more l m x xs hnext hx _ ih =>
      obtain ⟨x', q, hnext', hsame, hgap⟩ :=
        exists_next_of_fork hnext hx (layout_of_next hnext hx) (.refl _) p
      obtain ⟨xs', hxs', htwins⟩ := ih q
      rw [← (took_of_next hnext).1.rest] at hnext'
      rw [String.ofList_toList] at hgap
      exact ⟨x' :: xs', .more hnext' (hsame.kind ▸ hx) hxs', .cons ⟨hsame, hgap.symm⟩ htwins⟩

/-- What is read is read again behind more of a gap. -/
theorem Reads.resumed (h : Reads l (x :: xs)) (hx : x.kind ≠ .eof) {g : List Char} (hg : Layout g)
    (p : Place) : ∃ ys, Reads ⟨l.limits, p, g ++ l.rest⟩ ys ∧ Resumed (x :: xs) ys := by
  cases h with
  | last _ hend => exact absurd hend hx
  | more hnext _ hrest =>
      obtain ⟨x', q, hnext', hsame, _⟩ :=
        exists_next_of_fork hnext hx (hg.append (layout_of_next hnext hx)) (.refl _) p
      obtain ⟨xs', hxs', htwins⟩ := hrest.twins q
      rw [List.append_assoc, ← (took_of_next hnext).1.rest] at hnext'
      exact ⟨x' :: xs', .more hnext' (hsame.kind ▸ hx) hxs', .intro hsame htwins⟩

end Lexer

end GenericIR
