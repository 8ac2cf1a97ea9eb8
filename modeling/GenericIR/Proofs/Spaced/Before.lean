/-
# Lexemes written before other text

A lexeme that is read is read again where other text stands behind it: wherever the two texts go
on alike up to a character that goes on with no token, and at the end of any text.  So lexemes can
be written down anew with other gaps between them, and are read back.

* `Lexeme.ReadBefore.at_end`, `Lexeme.ReadBefore.cut` : a lexeme before other texts;
* `Lexer.Written.exists_reads` : lexemes that are written down are read back.
-/
import GenericIR.Proofs.Layout.Relaid
import GenericIR.Proofs.Spaced.Alone

namespace GenericIR

/-! ## Texts that go on with nothing -/

/-- Texts that go on with no token and with no comment. -/
def Ends (t : List Char) : Prop := ∀ c ∈ t.head?, isStop c ∧ c ≠ '/'

namespace Ends

/-- Such a text goes on with no token. -/
theorem stops {t : List Char} (h : Ends t) : Stops t := fun c hc => (h c hc).1

/-- The end of a text goes on with nothing. -/
theorem nil : Ends [] := nofun

/-- A text goes on with nothing where its first character does not. -/
theorem cons {c : Char} (hc : isStop c) (hslash : c ≠ '/') (t : List Char) : Ends (c :: t) := by
  intro d hd
  cases hd
  exact ⟨hc, hslash⟩

end Ends

/-- A blank goes on with nothing. -/
theorem Breaks.ends {t : List Char} (h : Breaks t) : Ends t := by
  intro c hc
  refine ⟨h.stops c hc, ?_⟩
  rintro rfl
  exact absurd (h '/' hc) (by decide)

/-- A text without a gap has none either where nothing goes on behind its first characters. -/
theorem gap_eq_nil_of_ends {c : Char} {w t t' : List Char} (h : gap (c :: (w ++ t)) = [])
    (ht' : Ends t') : gap (c :: (w ++ t')) = [] := by
  rw [gap_cons_eq_nil_iff] at h ⊢
  refine ⟨h.1, fun hslash d hd => ?_⟩
  cases w with
  | nil =>
      obtain ⟨hstop, hd'⟩ := ht' d hd
      refine ⟨hd', ?_⟩
      rintro rfl
      exact absurd hstop (by decide)
  | cons a w => exact h.2 hslash d hd

/-! ## Lexemes before a text -/

/-- Whether the text of a lexeme is read as its token before some other text. -/
def Lexeme.ReadBefore (limits : Limits) (x : Lexeme) (t : List Char) : Prop :=
  ∃ c u, x.text.toList = c :: u ∧ GenericIR.gap (c :: (u ++ t)) = [] ∧
    scanToken limits c (u ++ t) = ⟨c :: u, .ok (x.kind, x.token.value)⟩

namespace Lexeme.ReadBefore

variable {limits : Limits} {x : Lexeme}

/-- A lexeme is read again before any text that goes on with nothing. -/
theorem at_end {t t' : List Char} (h : x.ReadBefore limits t) (ht' : Ends t') :
    x.ReadBefore limits t' := by
  obtain ⟨c, u, htext, hgap, hscan⟩ := h
  refine ⟨c, u, htext, gap_eq_nil_of_ends hgap ht', ?_⟩
  have hok : (scanToken limits c (u ++ t)).outcome = .ok (x.kind, x.token.value) := by rw [hscan]
  obtain ⟨v, hlexeme, hbefore⟩ := scanToken_before hok ht'.stops
  rw [hscan] at hlexeme hbefore
  obtain rfl : u = v := (List.cons.inj hlexeme).2
  exact hbefore

/-- A lexeme is read again where both texts go on alike, and then with nothing. -/
theorem cut {v e e' : List Char} (h : x.ReadBefore limits (v ++ e)) (he : Stops e)
    (he' : Ends e') : x.ReadBefore limits (v ++ e') := by
  obtain ⟨c, u, htext, hgap, hscan⟩ := h
  rw [← List.append_assoc] at hgap hscan
  refine ⟨c, u, htext, ?_, ?_⟩
  · rw [← List.append_assoc]
    exact gap_eq_nil_of_ends hgap he'
  · have hwithin : (scanToken limits c (u ++ v ++ e)).Within (c :: (u ++ v)).length := by
      rw [hscan]
      refine ⟨?_, _, rfl⟩
      rw [List.length_cons, List.length_cons, List.length_append]
      omega
    rw [← List.append_assoc, scanToken_append he he'.stops c (u ++ v) hwithin, hscan]

end Lexeme.ReadBefore

namespace Lexer

/-- A lexeme that is read stands before what is left behind it. -/
theorem readBefore_of_next {l m : Lexer} {x : Lexeme} (hnext : next l = .ok x m)
    (hx : x.kind ≠ .eof) : x.ReadBefore l.limits m.rest := by
  rcases next_ok_cases hnext with ⟨_, _, rfl⟩ | ⟨c, rest, kind, value, hrest, hout, rfl, rfl⟩
  · exact absurd rfl hx
  obtain ⟨u, hlexeme, _⟩ := scanToken_alone hout
  have hprefix := scanToken_isPrefix l.limits c rest
  rw [hlexeme] at hprefix
  obtain ⟨v, rfl⟩ := (List.cons_prefix_cons.mp hprefix).2
  have hleft : ((l.skip (gap l.rest)).skip (scanToken l.limits c (u ++ v)).lexeme).rest = v := by
    rw [skip, hrest, hlexeme]
    exact List.drop_left
  rw [hleft]
  refine ⟨c, u, by rw [hlexeme, String.toList_ofList], ?_, ?_⟩
  · rw [← hrest]
    exact gap_drop_gap l.rest
  · rw [← hlexeme, ← hout]

/-! ## Lexemes written down -/

/-- A lexeme as a chunk behind some gap. -/
def chunk (g : List Char) (x : Lexeme) : Chunk := ⟨g, x.text.toList, (x.kind, x.token.value)⟩

/-- A lexeme behind a layout is read back in front of chunks that leave it as it is. -/
theorem readsBack_chunk_cons {limits : Limits} {x : Lexeme} {g rest : List Char} {cs : List Chunk}
    (hg : Layout g) (hx : x.ReadBefore limits (spell cs rest)) (h : ReadsBack limits cs rest) :
    ReadsBack limits (chunk g x :: cs) rest := by
  obtain ⟨c, u, htext, hgap, hscan⟩ := hx
  refine ⟨?_, ⟨c, u, htext, ?_⟩, h⟩
  · apply gap_append hg
    show gap (x.text.toList ++ _) = []
    rw [htext]
    exact hgap
  · show _ = (⟨x.text.toList, _⟩ : Scan Meaning)
    rw [htext]
    exact hscan

/-- Lexemes that are written down one after the other, each behind a layout and before a text that
leaves it as it is. -/
inductive Written (limits : Limits) : List Lexeme → List Chunk → Prop where
  | nil : Written limits [] []
  | cons {x : Lexeme} {xs : List Lexeme} {g : List Char} {cs : List Chunk} (hg : Layout g)
      (hx : x.ReadBefore limits (spell cs [])) (h : Written limits xs cs) :
      Written limits (x :: xs) (chunk g x :: cs)

namespace Written

variable {limits : Limits} {xs : List Lexeme} {cs : List Chunk}

/-- Chunks of lexemes are read back. -/
theorem readsBack (h : Written limits xs cs) : ReadsBack limits cs [] := by
  induction h with
  | nil => trivial
  | cons hg hx _ ih => exact readsBack_chunk_cons hg hx ih

/-- The lexemes of chunks are those that were written down. -/
theorem exists_lexemesFrom (h : Written limits xs cs) (p : Place) :
    ∃ ys e, lexemesFrom [] p cs = ys ++ [e] ∧ e.kind = .eof ∧ List.Forall₂ Lexeme.Same xs ys := by
  induction h generalizing p with
  | nil => exact ⟨[], _, rfl, rfl, .nil⟩
  | @cons x xs g cs _ _ _ ih =>
      obtain ⟨ys, e, hys, he, hsame⟩ := ih ((chunk g x).after p)
      refine ⟨_ :: ys, e, congrArg (_ :: ·) hys, he, .cons ⟨rfl, rfl, ?_⟩ hsame⟩
      exact String.ofList_toList.symm

/-- Lexemes that are written down are read back up to the end. -/
theorem exists_reads (h : Written limits xs cs) {text : String} (htext : text.toList = spell cs []) :
    ∃ ys e, Reads (ofSource limits text) (ys ++ [e]) ∧ e.kind = .eof ∧
      List.Forall₂ Lexeme.Same xs ys := by
  obtain ⟨ys, e, hys, he, hsame⟩ := h.exists_lexemesFrom .start
  have hreads : Reads ⟨limits, .start, spell cs []⟩ _ := reads_lexemesFrom rfl .start h.readsBack
  rw [hys, ← htext] at hreads
  exact ⟨ys, e, hreads, he, hsame⟩

end Written

/-! ## Tokens of lexemes that are the same -/

/-- Where a text is read to the end, its tokens are those of the lexemes. -/
theorem Reads.exists_tokenize {l : Lexer} {xs : List Lexeme} (h : Reads l xs) :
    ∃ m, tokenize l = .ok (xs.map Lexeme.token) m := by
  obtain ⟨hfault, rfl⟩ := (reads_iff l xs).mp h
  exact ⟨_, (tokenize_eq_ok_iff _ _ _).mpr ⟨hfault, rfl, rfl⟩⟩

end Lexer

/-- Tokens that are the same but for where they stand. -/
structure Token.Same (t t' : Token) : Prop where
  kind : t.kind = t'.kind
  value : t.value = t'.value

/-- Lexemes that are the same have tokens that are the same. -/
theorem forall₂_token_same {xs ys : List Lexeme} (h : List.Forall₂ Lexeme.Same xs ys) :
    List.Forall₂ Token.Same (xs.map Lexeme.token) (ys.map Lexeme.token) := by
  rw [List.forall₂_map_left_iff, List.forall₂_map_right_iff]
  exact h.imp fun x y hxy => ⟨hxy.kind, hxy.value⟩

end GenericIR
