/-
# Texts that stand in another text

A reader that goes over a text up to some character takes the same lexemes from it wherever the
text stands, as long as that character and the one that is there instead both end a token.  Only
the gap before the first lexeme may be longer.

* `Lexer.ReadsTo` : the lexemes that are read from one lexer to another one;
* `Lexer.ReadsTo.copied`, `Lexer.ReadsTo.moved` : the same lexemes are read in another text;
* `Lexer.Reads.exists_readsTo` : all lexemes of a text are read up to any one of them.
-/
import GenericIR.Proofs.Joined.Copy
import GenericIR.Proofs.WellFormed.Source

namespace GenericIR

/-! ## Copies -/

/-- Twins one by one, with lookaheads in a relation behind them. -/
theorem Copied.of_twins {H : Lexeme → Lexeme → Prop} {xs xs' ys ys' : List Lexeme}
    {y y' : Lexeme} (h : List.Forall₂ Lexeme.Twin xs xs') (hy : H y y') :
    Copied H (xs ++ y :: ys) (y :: ys) (xs' ++ y' :: ys') (y' :: ys') := by
  induction h with
  | nil => exact .here hy
  | cons hx _ ih => exact .cons hx ih

/-- A fork behind more text is a fork. -/
theorem Fork.append {t t' : List Char} (h : Fork t t') (u : List Char) :
    Fork (u ++ t) (u ++ t') := by
  obtain ⟨v, e, e', rfl, rfl, hstops, hbreaks⟩ := h
  exact ⟨u ++ v, e, e', (List.append_assoc _ _ _).symm, (List.append_assoc _ _ _).symm, hstops,
    hbreaks⟩

/-- A text forks from itself at its end. -/
theorem Fork.refl (t : List Char) : Fork t t :=
  ⟨t, [], [], (List.append_nil t).symm, (List.append_nil t).symm, .nil, nofun⟩

namespace Lexer

variable {l m k : Lexer} {x : Lexeme} {xs ys : List Lexeme}

/-! ## Readings from one lexer to another one -/

/-- The lexemes that are read from one lexer to another one, none of them the end. -/
inductive ReadsTo : Lexer → List Lexeme → Lexer → Prop where
  | nil {l : Lexer} : ReadsTo l [] l
  | cons {l m k : Lexer} {x : Lexeme} {xs : List Lexeme} (hnext : next l = .ok x m)
      (hx : x.kind ≠ .eof) (h : ReadsTo m xs k) : ReadsTo l (x :: xs) k

namespace ReadsTo

/-- Readings one after the other. -/
theorem trans (h : ReadsTo l xs m) (h' : ReadsTo m ys k) : ReadsTo l (xs ++ ys) k := by
  induction h with
  | nil => exact h'
  | cons hnext hx _ ih => exact .cons hnext hx (ih h')

/-- The text of the lexemes is taken from the front of the rest, at the same limits. -/
theorem took (h : ReadsTo l xs m) : l.rest = spelled xs ++ m.rest ∧ m.limits = l.limits ∧
    m.place = l.place.after (spelled xs) := by
  induction h with
  | nil => exact ⟨rfl, rfl, rfl⟩
  | cons hnext _ _ ih =>
      obtain ⟨hrest, hlimits, hplace⟩ := ih
      have htook := (took_of_next hnext).1
      refine ⟨?_, hlimits.trans htook.limits, ?_⟩
      · rw [htook.rest, hrest, spelled_cons, List.append_assoc, List.append_assoc]
      · rw [hplace, htook.place, spelled_cons, Place.after_append, Place.after_append]

/-- Readings up to the end behind others. -/
theorem reads (h : ReadsTo l xs m) (hm : Reads m ys) : Reads l (xs ++ ys) := by
  induction h with
  | nil => exact hm
  | cons hnext hx _ ih => exact .more hnext hx (ih hm)

/-- What is read to the end starts with what is read to some lexer. -/
theorem exists_append_of_reads (h : ReadsTo l xs m) (hl : Reads l ys) :
    ∃ zs, ys = xs ++ zs ∧ Reads m zs := by
  induction h generalizing ys with
  | nil => exact ⟨ys, rfl, hl⟩
  | cons hnext hx _ ih =>
      cases hl with
      | last hnext' hx' =>
          rw [hnext] at hnext'
          cases hnext'
          exact absurd hx' hx
      | more hnext' _ hrest =>
          rw [hnext] at hnext'
          cases hnext'
          obtain ⟨zs, rfl, hzs⟩ := ih hrest
          exact ⟨zs, rfl, hzs⟩

end ReadsTo

/-- All lexemes up to the end are read up to any one of them. -/
theorem Reads.exists_readsTo (h : Reads l (xs ++ ys)) (hys : ys ≠ []) :
    ∃ m, ReadsTo l xs m ∧ Reads m ys := by
  induction xs generalizing l with
  | nil => exact ⟨l, .nil, h⟩
  | cons x xs ih =>
      rw [List.cons_append] at h
      generalize hzs : xs ++ ys = zs at h
      cases h with
      | last _ _ => exact absurd (List.append_eq_nil_iff.mp hzs).2 hys
      | more hnext hx hrest =>
          obtain ⟨m, hm, hreads⟩ := ih (hzs ▸ hrest)
          exact ⟨m, .cons hnext hx hm, hreads⟩

/-- A lexer that stands in a source goes on to stand in it. -/
theorem ReadsTo.stands {source : List Char} (h : ReadsTo l xs m)
    (hl : l.place.Stands source l.rest) : m.place.Stands source m.rest := by
  induction h with
  | nil => exact hl
  | cons hnext _ _ ih => exact ih (tokenAt_of_next hl hnext).2.1

/-- Behind a lexeme that stops where a front of a source stops, the rest of the source is left. -/
theorem rest_of_stop {front back : List Char} (hl : l.place.Stands (front ++ back) l.rest)
    (hnext : next l = .ok x m) (hstop : x.token.span.stop = byteLength front) : m.rest = back := by
  obtain ⟨_, hm, hoffset⟩ := tokenAt_of_next hl hnext
  have htext := hm.textFrom?
  rw [hoffset, hstop, textFrom?_append] at htext
  exact (Option.some.inj htext).symm

/-- A closing brace that stops where a front of a source stops has its gap before it and the rest
of the source behind it. -/
theorem rest_of_rbrace {front back : List Char} (hl : l.place.Stands (front ++ back) l.rest)
    (hnext : next l = .ok x m) (hx : x.kind = .rbrace)
    (hstop : x.token.span.stop = byteLength front) : l.rest = x.gap.toList ++ '\x7d' :: back := by
  have hne : x.kind ≠ .eof := by rw [hx]; decide
  rw [(took_of_next hnext).1.rest, rest_of_stop hl hnext hstop,
    (tokenForm_of_next hnext hne).bracket '\x7d' (by simp) hx]
  rfl

/-- The text of a lexeme is not empty and does not end in a blank. -/
theorem ReadsTo.solid (h : ReadsTo l xs m) :
    ∀ x ∈ xs, x.text.toList ≠ [] ∧ EndsSolid x.text.toList := by
  induction h with
  | nil => exact nofun
  | cons hnext hx _ ih =>
      refine List.forall_mem_cons.mpr ⟨⟨?_, endsSolid_of_next hnext⟩, ih⟩
      rcases next_ok_cases hnext with ⟨_, _, rfl⟩ | ⟨c, rest, kind, value, _, _, _, rfl⟩
      · exact absurd rfl hx
      · rw [String.toList_ofList]
        exact lexeme_scanToken_ne_nil _ c rest

/-- A blank at the end of a text of lexemes and a gap belongs to the gap. -/
theorem ReadsTo.exists_gap_of_blank (h : ReadsTo l xs m) {t g : List Char} {c : Char}
    (hc : isBlank c) (ht : t ++ [c] = spelled xs ++ g) :
    ∃ r, g = r ++ [c] ∧ t = spelled xs ++ r := by
  rcases List.eq_nil_or_concat g with rfl | ⟨r, d, rfl⟩
  · rcases List.eq_nil_or_concat xs with rfl | ⟨front, x, rfl⟩
    · cases t <;> cases ht
    · -- the last lexeme would end in the blank
      obtain ⟨hne, hsolid⟩ := h.solid x (by simp)
      have hlast : x.text.toList.getLast? = some c := by
        have htext : t ++ [c] = spelled front ++ x.gap.toList ++ x.text.toList := by
          simpa [spelled_append, spelled_cons] using ht
        rw [← List.getLast?_append_of_ne_nil _ hne, ← htext, List.getLast?_concat]
      exact absurd hc (hsolid c hlast)
  · rw [List.concat_eq_append] at ht ⊢
    rw [← List.append_assoc] at ht
    obtain ⟨rfl, hd⟩ := List.append_inj' ht rfl
    obtain rfl := List.singleton_inj.mp hd
    exact ⟨r, rfl, rfl⟩

/-! ## Readings in another text -/

/-- The gap before a token is a layout. -/
theorem layout_of_next (hnext : next l = .ok x m) (hx : x.kind ≠ .eof) : Layout x.gap.toList := by
  rcases next_ok_cases hnext with ⟨_, _, rfl⟩ | ⟨c, rest, kind, value, hrest, _, _, rfl⟩
  · exact absurd rfl hx
  · rw [String.toList_ofList]
    exact layout_gap_of_rest hrest

namespace ReadsTo

/-- A text is read as the same lexemes with the same gaps, where it forks behind them. -/
theorem copied (h : ReadsTo l xs m) {t : List Char} (ht : Fork m.rest t) (p : Place) :
    ∃ xs' q, ReadsTo ⟨l.limits, p, spelled xs ++ t⟩ xs' ⟨m.limits, q, t⟩ ∧
      List.Forall₂ Lexeme.Twin xs xs' := by
  induction h generalizing p with
  | nil => exact ⟨[], p, .nil, .nil⟩
  | @cons l m k x xs hnext hx h ih =>
      have hfork : Fork m.rest (spelled xs ++ t) := h.took.1 ▸ ht.append (spelled xs)
      obtain ⟨x', q, hx', hsame, hgap⟩ :=
        exists_next_of_fork hnext hx (layout_of_next hnext hx) hfork p
      obtain ⟨xs', r, hxs', htwins⟩ := ih ht q
      rw [String.ofList_toList] at hgap
      rw [spelled_cons, List.append_assoc, List.append_assoc]
      exact ⟨x' :: xs', r, .cons hx' (hsame.kind ▸ hx) hxs', .cons ⟨hsame, hgap.symm⟩ htwins⟩

/-- A text behind more of a gap is read as the same lexemes, the gap before the first of them
aside. -/
theorem moved (h : ReadsTo l (x :: xs) m) {g t : List Char} (hg : Layout g) (ht : Fork m.rest t)
    (p : Place) : ∃ x' xs' q,
      ReadsTo ⟨l.limits, p, g ++ (spelled (x :: xs) ++ t)⟩ (x' :: xs') ⟨m.limits, q, t⟩ ∧
      x.Same x' ∧ List.Forall₂ Lexeme.Twin xs xs' := by
  cases h with
  | @cons _ n _ _ _ hnext hx h =>
      have hfork : Fork n.rest (spelled xs ++ t) := h.took.1 ▸ ht.append (spelled xs)
      obtain ⟨x', q, hx', hsame, _⟩ :=
        exists_next_of_fork hnext hx (hg.append (layout_of_next hnext hx)) hfork p
      obtain ⟨xs', r, hxs', htwins⟩ := h.copied ht q
      refine ⟨x', xs', r, .cons ?_ (hsame.kind ▸ hx) hxs', hsame, htwins⟩
      rw [spelled_cons]
      simpa only [List.append_assoc] using hx'

end ReadsTo

end Lexer

end GenericIR
