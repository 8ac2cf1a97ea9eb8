/-
# Sources laid out with single spaces

The texts of the tokens of a source, with one space between them, are read as the same tokens,
however the source laid them out and even where it had no gap between them.  Laying such a text
out again changes nothing, so this is a normal form of sources.

* `Lexer.Reads.readBefore` : the lexemes of a source are read again at the end of any text;
* `Lexer.exists_reads_spaced` : texts with spaces between them are read back;
* `Lexer.tokens_spaced` : the normal form of a source has its tokens, and is its own normal form.
-/
import GenericIR.Proofs.Spaced.Before
import GenericIR.Proofs.WellFormed.Source

namespace GenericIR

/-! ## Texts of tokens -/

/-- The text that the span of a token covers in a source. -/
def Token.sourceText (source : String) (t : Token) : String :=
  String.ofList ((slice? source.toList t.span.offset t.span.stop).getD [])

/-- The texts of some tokens of a source, with one space between them. -/
def spacedText (source : String) (tokens : List Token) : String :=
  " ".intercalate (tokens.map (Token.sourceText source))

/-- The texts of all tokens of a source with one space between them, if it has no fault. -/
def normalized (limits : Limits) (source : String) : Option String :=
  match Lexer.tokenize (.ofSource limits source) with
  | .ok tokens _ => some (spacedText source tokens.dropLast)
  | .error _ _ => none

/-! ## Lexemes with spaces between them -/

namespace Lexer

variable {limits : Limits}

/-- The end of a text is the last of its lexemes, and no other. -/
theorem Reads.exists_concat {l : Lexer} {xs : List Lexeme} (h : Reads l xs) :
    ∃ ys e, xs = ys ++ [e] ∧ e.kind = .eof ∧ ∀ x ∈ ys, x.kind ≠ .eof := by
  induction h with
  | @last _ _ x _ hx => exact ⟨[], x, rfl, hx, nofun⟩
  | more _ hx _ ih =>
      obtain ⟨ys, e, rfl, he, hys⟩ := ih
      exact ⟨_ :: ys, e, rfl, he, List.forall_mem_cons.mpr ⟨hx, hys⟩⟩

/-- All lexemes of a text but its end are read again at the end of any text. -/
theorem Reads.readBefore {l : Lexer} {xs : List Lexeme} (h : Reads l xs) :
    ∀ x ∈ xs, x.kind ≠ .eof → ∀ t, Ends t → x.ReadBefore l.limits t := by
  induction h with
  | last _ hx => exact List.forall_mem_singleton.mpr fun hne => absurd hx hne
  | more hnext _ _ ih =>
      rw [(took_of_next hnext).1.limits] at ih
      exact List.forall_mem_cons.mpr ⟨fun hx t ht => (readBefore_of_next hnext hx).at_end ht, ih⟩

/-- The texts of lexemes, each behind a space but for the first one, which has another gap. -/
def spaced (g : List Char) : List Lexeme → List Chunk
  | [] => []
  | x :: xs => chunk g x :: spaced [' '] xs

/-- The texts of lexemes with one space between them. -/
theorem spell_spaced (xs : List Lexeme) :
    spell (spaced [] xs) [] = (" ".intercalate (xs.map Lexeme.text)).toList := by
  cases xs with
  | nil => rfl
  | cons x xs =>
      induction xs generalizing x with
      | nil =>
          rw [List.map_singleton, String.intercalate_singleton]
          exact List.append_nil x.text.toList
      | cons y xs ih =>
          have hlater : spell (spaced [' '] (y :: xs)) [] = ' ' :: spell (spaced [] (y :: xs)) [] :=
            rfl
          rw [List.map_cons, List.map_cons, String.intercalate_cons_cons, String.toList_append,
            String.toList_append, ← List.map_cons, ← ih y, List.append_assoc]
          show x.text.toList ++ spell (spaced [' '] (y :: xs)) [] = _
          rw [hlater]
          rfl

/-- Behind a lexeme a spaced text goes on with a blank. -/
theorem breaks_spell_spaced (xs : List Lexeme) : Breaks (spell (spaced [' '] xs) []) := by
  intro c hc
  cases xs with
  | nil => cases hc
  | cons x xs =>
      cases hc
      decide

/-- Lexemes are written down with spaces between them. -/
theorem written_spaced {xs : List Lexeme} (h : ∀ x ∈ xs, ∀ t, Ends t → x.ReadBefore limits t)
    {g : List Char} (hg : Layout g) : Written limits xs (spaced g xs) := by
  induction xs generalizing g with
  | nil => exact .nil
  | cons x xs ih =>
      obtain ⟨hx, hxs⟩ := List.forall_mem_cons.mp h
      exact .cons hg (hx _ (breaks_spell_spaced xs).ends) (ih hxs (.blank rfl .nil))

/-- The texts of lexemes with spaces between them are read as these lexemes. -/
theorem exists_reads_spaced {xs : List Lexeme}
    (h : ∀ x ∈ xs, ∀ t, Ends t → x.ReadBefore limits t) :
    ∃ ys e, Reads (ofSource limits (" ".intercalate (xs.map Lexeme.text))) (ys ++ [e]) ∧
      e.kind = .eof ∧ List.Forall₂ Lexeme.Same xs ys :=
  (written_spaced h .nil).exists_reads (spell_spaced xs).symm

/-- The text of a lexeme that is read from a source is that of its token. -/
theorem Reads.sourceText_eq {source : String} {xs : List Lexeme}
    (h : Reads (ofSource limits source) xs) :
    ∀ x ∈ xs, slice? source.toList x.token.span.offset x.token.span.stop = some x.text.toList ∧
      x.token.sourceText source = x.text := by
  intro x hx
  have hslice := h.slice?_eq (.start source.toList) x hx
  refine ⟨hslice, ?_⟩
  rw [Token.sourceText, hslice, Option.getD_some, String.ofList_toList]

/-- The spaced text of tokens is put together from the texts of their lexemes. -/
theorem Reads.spacedText_eq {source : String} {xs : List Lexeme} {e : Lexeme}
    (h : Reads (ofSource limits source) (xs ++ [e])) :
    spacedText source (xs.map Lexeme.token) = " ".intercalate (xs.map Lexeme.text) := by
  rw [spacedText, List.map_map]
  congr 1
  refine List.map_congr_left fun x hx => ?_
  exact (h.sourceText_eq x (List.mem_append_left _ hx)).2

/-- The tokens of a source but its end make up its normal form. -/
theorem Reads.normalized_eq {source : String} {xs : List Lexeme} {e : Lexeme}
    (h : Reads (ofSource limits source) (xs ++ [e])) :
    normalized limits source = some (" ".intercalate (xs.map Lexeme.text)) := by
  obtain ⟨m, htokenize⟩ := h.exists_tokenize
  rw [normalized, htokenize, List.map_append]
  show some (spacedText source (xs.map Lexeme.token ++ [e.token]).dropLast) = _
  rw [List.dropLast_concat, h.spacedText_eq]

/-- Lexemes that are the same have the same texts. -/
theorem text_of_forall₂ {xs ys : List Lexeme} (h : List.Forall₂ Lexeme.Same xs ys) :
    xs.map Lexeme.text = ys.map Lexeme.text := by
  apply List.forall₂_eq_eq_eq.le _ _
  rw [List.forall₂_map_left_iff, List.forall₂_map_right_iff]
  exact h.imp fun x y hxy => hxy.text

/-- The normal form of a source that has tokens: it has the same tokens, and is its own normal
form.  And the text of each token alone is read as that token. -/
theorem tokens_spaced (limits : Limits) (source : String) (tokens : List Token) (l : Lexer)
    (h : tokenize (.ofSource limits source) = .ok tokens l) :
    ∃ ts e, tokens = ts ++ [e] ∧ e.kind = .eof ∧
      normalized limits source = some (spacedText source ts) ∧
      normalized limits (spacedText source ts) = some (spacedText source ts) ∧
      (∃ us f m, tokenize (.ofSource limits (spacedText source ts)) = .ok (us ++ [f]) m ∧
        f.kind = .eof ∧ List.Forall₂ Token.Same ts us) ∧
      ∀ t ∈ ts, slice? source.toList t.span.offset t.span.stop =
          some (t.sourceText source).toList ∧
        ∃ u f m, tokenize (.ofSource limits (t.sourceText source)) = .ok [u, f] m ∧
          f.kind = .eof ∧ t.Same u ∧
          u.sourceText (t.sourceText source) = t.sourceText source := by
  obtain ⟨hfault, rfl, _⟩ := (tokenize_eq_ok_iff _ _ _).mp h
  have hreads := (reads_iff _ _).mpr ⟨hfault, rfl⟩
  generalize (readAll (ofSource limits source)).lexemes = all at hreads ⊢
  obtain ⟨xs, e, rfl, he, hxs⟩ := hreads.exists_concat
  have halone : ∀ x ∈ xs, ∀ t, Ends t → x.ReadBefore limits t := fun x hx =>
    hreads.readBefore x (List.mem_append_left _ hx) (hxs x hx)
  -- the spaced text is read as lexemes alike, so it has the same normal form
  obtain ⟨ys, f, hspaced, hf, hsame⟩ := exists_reads_spaced halone
  obtain ⟨m, htokenize⟩ := hspaced.exists_tokenize
  rw [List.map_append] at htokenize ⊢
  refine ⟨xs.map Lexeme.token, e.token, rfl, he, ?_, ?_, ⟨ys.map Lexeme.token, f.token, m, ?_, hf,
    forall₂_token_same hsame⟩, ?_⟩
  · rw [hreads.normalized_eq, hreads.spacedText_eq]
  · rw [hreads.spacedText_eq, hspaced.normalized_eq, text_of_forall₂ hsame]
  · rw [hreads.spacedText_eq]
    exact htokenize
  · rw [List.forall_mem_map]
    intro x hx
    obtain ⟨hslice, htext⟩ := hreads.sourceText_eq x (List.mem_append_left _ hx)
    rw [htext]
    refine ⟨hslice, ?_⟩
    -- one lexeme with spaces between is its own text
    obtain ⟨zs, g, hone, hg, hsame⟩ :=
      exists_reads_spaced (List.forall_mem_singleton.mpr (halone x hx))
    cases hsame with
    | cons hxy hnil =>
        cases hnil
        rw [List.map_singleton, String.intercalate_singleton] at hone
        obtain ⟨k, hk⟩ := hone.exists_tokenize
        refine ⟨_, g.token, k, hk, hg, ⟨hxy.kind, hxy.value⟩, ?_⟩
        exact (hone.sourceText_eq _ List.mem_cons_self).2.trans hxy.text.symm

/-- A source with tokens that touch, and its normal form. -/
theorem tokens_spaced_glued :
    (∃ tokens l, tokenize (.ofSource .standard "5xf32/**/a<b>c:::->-") = .ok tokens l) ∧
    normalized .standard "5xf32/**/a<b>c:::->-" = some "5 xf32 a<b> c :: : -> -" ∧
    normalized .standard "5 xf32 a<b> c :: : -> -" = some "5 xf32 a<b> c :: : -> -" := by
  have hreads : Reads (ofSource .standard "5xf32/**/a<b>c:::->-")
      ([_, _, _, _, _, _, _, _] ++ [_]) :=
    .more rfl (by decide) <| .more rfl (by decide) <| .more rfl (by decide) <|
    .more rfl (by decide) <| .more rfl (by decide) <| .more rfl (by decide) <|
    .more rfl (by decide) <| .more rfl (by decide) <| .last rfl rfl
  have hform : normalized .standard "5xf32/**/a<b>c:::->-" =
      some "5 xf32 a<b> c :: : -> -" := hreads.normalized_eq.trans rfl
  have hok : ∃ tokens l, tokenize (.ofSource .standard "5xf32/**/a<b>c:::->-") =
      .ok tokens l := by
    obtain ⟨m, hm⟩ := hreads.exists_tokenize
    exact ⟨_, m, hm⟩
  obtain ⟨tokens, l, h⟩ := hok
  obtain ⟨ts, _, _, _, hfirst, hagain, _⟩ := tokens_spaced _ _ _ _ h
  rw [hform] at hfirst
  rw [← Option.some.inj hfirst] at hagain
  exact ⟨⟨tokens, l, h⟩, hform, hagain⟩

end Lexer

end GenericIR
