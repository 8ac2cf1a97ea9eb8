/-
# Values that are kept as text

The text that a value is kept as is read as the tokens of the value, and stands for the same
value again.  Left out are tokens of white space at its ends: these are keywords of one character,
which trimming the text takes away.

* `Grammar.ValueRun.thinned` : leaving out keywords leaves an attribute value;
* `Graph.parse_valueModule` : a module with the text of a value as its attribute;
* `Graph.text_values_normal` : the values that are kept as text in what a source parses to.
-/
import GenericIR.Proofs.Layout.Grammar
import GenericIR.Proofs.Merged.Module
import GenericIR.Proofs.Quoted.Paths
import GenericIR.Proofs.Values.Trimmed

namespace GenericIR

/-! ## Leaving out keywords -/

/-- Lexemes of the kinds of other ones, in their order, with keywords left out. -/
inductive Thinned : List Lexeme → List Lexeme → Prop where
  | nil : Thinned [] []
  | keep {x y : Lexeme} {us v : List Lexeme} (hx : x.kind = y.kind) (h : Thinned us v) :
      Thinned (x :: us) (y :: v)
  | drop {y : Lexeme} {us v : List Lexeme} (hy : y.kind = .keyword) (h : Thinned us v) :
      Thinned us (y :: v)

namespace Thinned

variable {us v : List Lexeme}

/-- Nothing is left of keywords. -/
theorem of_keywords (h : ∀ x ∈ v, x.kind = .keyword) : Thinned [] v := by
  induction v with
  | nil => exact .nil
  | cons x v ih =>
      obtain ⟨hx, hv⟩ := List.forall_mem_cons.mp h
      exact .drop hx (ih hv)

/-- Lexemes that are the same. -/
theorem of_same (h : List.Forall₂ Lexeme.Same v us) : Thinned us v := by
  induction h with
  | nil => exact .nil
  | cons hx _ ih => exact .keep hx.kind.symm ih

/-- One run behind the other. -/
theorem append {us' v' : List Lexeme} (h : Thinned us v) (h' : Thinned us' v') :
    Thinned (us ++ us') (v ++ v') := by
  induction h with
  | nil => exact h'
  | keep hx _ ih => exact .keep hx ih
  | drop hy _ ih => exact .drop hy ih

end Thinned

/-- What trimming leaves out are keywords. -/
theorem thinned_of_same_trimLexemes {v ys : List Lexeme} (h : ∀ x ∈ v, x.WhiteOrSolid)
    (hys : List.Forall₂ Lexeme.Same (trimLexemes v) ys) : Thinned ys v := by
  obtain ⟨front, back, hsplit, hends⟩ := exists_split_trimLexemes h
  obtain ⟨hfront, hback⟩ := List.forall_mem_append.mp fun x hx => (hends x hx).1
  rw [hsplit, ← List.nil_append ys, ← List.append_nil ys]
  exact (Thinned.of_keywords hfront).append ((Thinned.of_same hys).append (.of_keywords hback))

/-- An attribute value is one as well with keywords left out, before a closing brace. -/
theorem Grammar.ValueRun.thinned {fits : Nat → Prop} {depth : Nat} {xs v ys us zs : List Lexeme}
    {z : Lexeme} (h : ValueRun fits depth xs v ys) (hus : Thinned us v) (hz : z.kind = .rbrace) :
    ValueRun fits depth (us ++ z :: zs) us (z :: zs) := by
  induction h generalizing us with
  | stop _ =>
      cases hus
      exact .stop (Or.inr hz)
  | opening hx hfits _ ih =>
      cases hus with
      | keep heq hus => exact .opening (heq ▸ hx) hfits (ih hus)
      | drop hy _ => exact absurd hx (by rw [hy]; decide)
  | closing hx _ ih =>
      cases hus with
      | keep heq hus => exact .closing (heq ▸ hx) (ih hus)
      | drop hy _ => exact absurd hx (by rw [hy]; decide)
  | inner hopen hclose hcomma heof _ ih =>
      cases hus with
      | keep heq hus =>
          exact .inner (heq ▸ hopen) (heq ▸ hclose) (heq ▸ hcomma) (heq ▸ heof) (ih hus)
      | drop _ hus => exact ih hus

/-! ## Spaced lexemes before a text -/

section Spaced

variable {limits : Limits} {u : List Lexeme}

/-- Chunks are put together before a text. -/
theorem spell_eq_append (cs : List Chunk) (rest : List Char) :
    spell cs rest = spell cs [] ++ rest := by
  induction cs with
  | nil => rfl
  | cons c cs ih =>
      show c.gap ++ (c.text ++ spell cs rest) = c.gap ++ (c.text ++ spell cs []) ++ rest
      rw [ih, List.append_assoc, List.append_assoc]

/-- Lexemes with spaces between them are read back before any text that goes on with nothing. -/
theorem readsBack_spaced (h : ∀ x ∈ u, ∀ t, Ends t → x.ReadBefore limits t) {g rest : List Char}
    (hg : Layout g) (hrest : Ends rest) : ReadsBack limits (Lexer.spaced g u) rest := by
  induction u generalizing g with
  | nil => trivial
  | cons x u ih =>
      obtain ⟨hx, hu⟩ := List.forall_mem_cons.mp h
      have hends : Ends (spell (Lexer.spaced [' '] u) rest) := by
        cases u with
        | nil => exact hrest
        | cons y u => exact .cons (by decide) (by decide) _
      exact Lexer.readsBack_chunk_cons hg (hx _ hends) (ih hu (.blank rfl .nil))

/-- The lexemes of spaced lexemes, wherever they stand, are the same ones. -/
theorem exists_lexemesFrom_spaced (u : List Lexeme) (g : List Char) (p : Place) (cs : List Chunk) :
    ∃ ys q, lexemesFrom [] p (Lexer.spaced g u ++ cs) = ys ++ lexemesFrom [] q cs ∧
      List.Forall₂ Lexeme.Same u ys := by
  induction u generalizing g p with
  | nil => exact ⟨[], p, rfl, .nil⟩
  | cons x u ih =>
      obtain ⟨ys, q, hys, hsame⟩ := ih [' '] ((Lexer.chunk g x).after p)
      exact ⟨_ :: ys, q, congrArg (_ :: ·) hys, .cons ⟨rfl, rfl, String.ofList_toList.symm⟩ hsame⟩

end Spaced

/-! ## A module with one value -/

/-- A source with a text as the value of an attribute. -/
def valueModule (text : String) : String :=
  "module attributes \x7bk = " ++ text ++ "\x7d \x7b\x7d"

/-- The module with one attribute. -/
def moduleWith (a : AttributeValue) : Graph := ⟨none, [], [], Attributes.empty.insert "k" a⟩

section Module

variable {limits : Limits} {u : List Lexeme}

/-- The tokens before the value. -/
def valueFront : List Chunk :=
  [.ofText "" "module" .keyword, .ofText " " "attributes" .identifier, .ofText " " "\x7b" .lbrace,
    .ofText "" "k" .identifier, .ofText " " "=" .equal]

/-- The tokens behind the value. -/
def valueBack (g : String) : List Chunk :=
  [.ofText g "\x7d" .rbrace, .ofText " " "\x7b" .lbrace, .ofText "" "\x7d" .rbrace]

/-- The tokens of the source: the space before the value stands before the brace if the value has
no tokens. -/
def valueChunks (u : List Lexeme) : List Chunk :=
  valueFront ++ (Lexer.spaced [' '] u ++ valueBack (if u = [] then " " else ""))

/-- The tokens spell out the source. -/
theorem spell_valueChunks (u : List Lexeme) :
    spell (valueChunks u) [] = (valueModule (" ".intercalate (u.map Lexeme.text))).toList := by
  unfold valueModule
  rw [String.toList_append, String.toList_append, ← Lexer.spell_spaced, valueChunks, spell_append,
    spell_append]
  cases u with
  | nil => rfl
  | cons x u =>
      rw [spell_eq_append (Lexer.spaced [' '] (x :: u))]
      rfl

/-- The tokens are read back. -/
theorem readsBack_valueChunks (h : ∀ x ∈ u, ∀ t, Ends t → x.ReadBefore limits t) :
    ReadsBack limits (valueChunks u) [] := by
  -- a space stands before the value, and before the brace if the value has no tokens
  have hfront : ∀ rest, ReadsBack limits valueFront (' ' :: rest) := fun _ =>
    ⟨rfl, ⟨_, _, rfl, rfl⟩, rfl, ⟨_, _, rfl, rfl⟩, rfl, ⟨_, _, rfl, rfl⟩, rfl, ⟨_, _, rfl, rfl⟩,
      rfl, ⟨_, _, rfl, rfl⟩, trivial⟩
  have hback : ∀ g ∈ [" ", ""], ReadsBack limits (valueBack g) [] := by
    simp only [List.forall_mem_cons]
    exact ⟨⟨rfl, ⟨_, _, rfl, rfl⟩, rfl, ⟨_, _, rfl, rfl⟩, rfl, ⟨_, _, rfl, rfl⟩, trivial⟩,
      ⟨rfl, ⟨_, _, rfl, rfl⟩, rfl, ⟨_, _, rfl, rfl⟩, rfl, ⟨_, _, rfl, rfl⟩, trivial⟩, nofun⟩
  cases u with
  | nil => exact readsBack_append (hfront _) (hback " " (by simp))
  | cons x u =>
      have hends : Ends (spell (valueBack "") []) := .cons (by decide) (by decide) _
      have hspace : Layout [' '] := .blank rfl .nil
      have hvalue := readsBack_spaced h hspace hends
      exact readsBack_append (hfront _) (readsBack_append hvalue (hback "" (by simp)))

/-- The tokens are those of a module with the value. -/
theorem isModule_valueChunks {fits : Nat → Prop} (u : List Lexeme)
    (h : ∀ ys z zs, List.Forall₂ Lexeme.Same u ys → z.kind = .rbrace →
      Grammar.ValueRun fits 0 (ys ++ z :: zs) ys (z :: zs)) :
    Grammar.IsModule fits (lexemesFrom [] .start (valueChunks u)) (moduleWith (.ofLexemes u)) := by
  obtain ⟨ys, q, hys, hsame⟩ := exists_lexemesFrom_spaced u [' ']
    (valueFront.foldl (fun p c => c.after p) .start) (valueBack (if u = [] then " " else ""))
  obtain ⟨c, o, c', e, hback, hc, ho, hc', he⟩ : ∃ c o c' e, lexemesFrom [] q
      (valueBack (if u = [] then " " else "")) = [c, o, c', e] ∧ c.kind = .rbrace ∧
      o.kind = .lbrace ∧ c'.kind = .rbrace ∧ e.kind = .eof :=
    ⟨_, _, _, _, rfl, rfl, rfl, rfl, rfl⟩
  rw [hback] at hys
  have hall : lexemesFrom [] .start (valueChunks u) =
      _ :: _ :: _ :: _ :: _ :: (ys ++ [c, o, c', e]) :=
    congrArg (fun zs => _ :: _ :: _ :: _ :: _ :: zs) hys
  rw [hall, Parse.ofLexemes_of_same hsame]
  exact .intro (.intro rfl (by decide) (.missing (by nofun))
    (mayHaveClause_of_value ⟨rfl, by decide⟩ rfl rfl rfl (h ys c _ hsame hc) hc) ho
    (.done (by rw [hc']; decide)) hc') he

/-- The source is read as these tokens. -/
theorem Lexer.reads_valueModule (h : ∀ x ∈ u, ∀ t, Ends t → x.ReadBefore limits t) :
    (ofSource limits (valueModule (" ".intercalate (u.map Lexeme.text)))).Reads
      (lexemesFrom [] .start (valueChunks u)) := by
  have hreads := @reads_lexemesFrom limits [] rfl .start _ (readsBack_valueChunks h)
  rwa [spell_valueChunks] at hreads

/-- A module with the spaced text of lexemes as its value stands for these lexemes, if they are an
attribute value from which keywords may be left out. -/
theorem Graph.parse_valueModule {v ws zs : List Lexeme}
    (h : ∀ x ∈ u, ∀ t, Ends t → x.ReadBefore limits t)
    (hrun : Grammar.ValueRun (· ≤ limits.maxNestingDepth) 0 ws v zs)
    (hthinned : ∀ ys, List.Forall₂ Lexeme.Same u ys → Thinned ys v) :
    Graph.parse limits (valueModule (" ".intercalate (u.map Lexeme.text))) =
      .ok (moduleWith (.ofLexemes u)) :=
  (Graph.parse_iff_isModule (Lexer.reads_valueModule h) (fun _ _ => Iff.rfl) _).mpr
    (isModule_valueChunks u fun ys _ _ hsame hz => hrun.thinned (hthinned ys hsame) hz)

/-- Whether a lexeme is no bracket, no comma and not the end of the text. -/
def Lexeme.IsPlain (x : Lexeme) : Prop :=
  ¬ x.kind.isOpenBracket ∧ ¬ x.kind.isCloseBracket ∧ x.kind ≠ .comma ∧ x.kind ≠ .eof

instance (x : Lexeme) : Decidable x.IsPlain :=
  inferInstanceAs (Decidable (_ ∧ _ ∧ _ ∧ _))

/-- Plain lexemes are an attribute value. -/
theorem Grammar.ValueRun.of_plain {fits : Nat → Prop} {z : Lexeme} {zs : List Lexeme}
    (h : ∀ x ∈ u, x.IsPlain) (hz : z.kind = .rbrace) :
    ValueRun fits 0 (u ++ z :: zs) u (z :: zs) := by
  induction u with
  | nil => exact .stop (Or.inr hz)
  | cons x u ih =>
      obtain ⟨⟨hopen, hclose, hcomma, heof⟩, hu⟩ := List.forall_mem_cons.mp h
      exact .inner hopen hclose (fun _ => hcomma) heof (ih hu)

/-- A text of plain tokens, with single spaces between them, as the value of a module. -/
theorem Graph.parse_valueModule_of_plain {text : String} {e : Lexeme}
    (hreads : (Lexer.ofSource limits text).Reads (u ++ [e])) (hplain : ∀ x ∈ u, x.IsPlain)
    (htext : " ".intercalate (u.map Lexeme.text) = text) :
    (Lexer.ofSource limits (valueModule text)).Reads (lexemesFrom [] .start (valueChunks u)) ∧
      Graph.parse limits (valueModule text) = .ok (moduleWith (.ofLexemes u)) := by
  have hbefore : ∀ x ∈ u, ∀ t, Ends t → x.ReadBefore limits t := fun x hx =>
    hreads.readBefore x (List.mem_append_left _ hx) (hplain x hx).2.2.2
  have hrun : Grammar.ValueRun (· ≤ limits.maxNestingDepth) 0
      (u ++ [(Chunk.ofText "" "\x7d" .rbrace).lexeme .start]) u _ := .of_plain hplain rfl
  rw [← htext]
  exact ⟨Lexer.reads_valueModule hbefore, Graph.parse_valueModule hbefore hrun fun _ => .of_same⟩

end Module

/-! ## Values that are kept as text -/

/-- The text that the value of some lexemes is kept as.  It is read as the tokens of the value but
those of white space at its ends, which are keywords of one character that is no blank.  As a value
it is kept as the same text again, unless a single literal is left of more tokens: that is
decoded. -/
structure NormalForm (limits : Limits) (v : List Lexeme) (text : String) : Prop where
  split : ∃ front back, v = front ++ (trimLexemes v ++ back) ∧ ∀ x ∈ front ++ back,
    x.kind = .keyword ∧ ∃ c, x.text.toList = [c] ∧ isWhiteSpace c ∧ ¬ isBlank c
  tokens : ∃ ts e l, Lexer.tokenize (.ofSource limits text) = .ok (ts ++ [e]) l ∧ e.kind = .eof ∧
    List.Forall₂ Token.Same ((trimLexemes v).map Lexeme.token) ts
  value : ∃ a, Graph.parse limits (valueModule text) = .ok (moduleWith a) ∧
    (a = .opaqueText text ∨
      trimLexemes v ≠ v ∧ ∃ x, trimLexemes v = [x] ∧ DecodedTo x.kind x.token.value a)

/-- An attribute value goes up to the end of the text at most. -/
theorem Grammar.ValueRun.kind_ne_eof {fits : Nat → Prop} {depth : Nat} {xs v ys : List Lexeme}
    (h : ValueRun fits depth xs v ys) : ∀ x ∈ v, x.kind ≠ .eof := by
  induction h with
  | stop _ => exact nofun
  | opening hx _ _ ih =>
      exact List.forall_mem_cons.mpr ⟨fun heof => absurd hx (by rw [heof]; decide), ih⟩
  | closing hx _ ih =>
      exact List.forall_mem_cons.mpr ⟨fun heof => absurd hx (by rw [heof]; decide), ih⟩
  | inner _ _ _ heof _ ih => exact List.forall_mem_cons.mpr ⟨heof, ih⟩

/-- All lexemes of a text carry their decoded value where they are literals. -/
theorem Lexer.Reads.isDecoded {l : Lexer} {xs : List Lexeme} (h : l.Reads xs) :
    ∀ x ∈ xs, IsDecoded x.kind x.token.value := by
  induction h with
  | last hnext _ => exact List.forall_mem_singleton.mpr (isDecoded_of_next hnext)
  | more hnext _ _ ih => exact List.forall_mem_cons.mpr ⟨isDecoded_of_next hnext, ih⟩

/-- A value of a source that is kept as text has that text as its normal form. -/
theorem normalForm_of_valueRun {limits : Limits} {source text : String} {xs ys v zs : List Lexeme}
    (hreads : (Lexer.ofSource limits source).Reads xs) (hys : ys <:+ xs)
    (hrun : Grammar.ValueRun (· ≤ limits.maxNestingDepth) 0 ys v zs)
    (htext : AttributeValue.ofLexemes v = .opaqueText text) : NormalForm limits v text := by
  have hmem : ∀ x ∈ v, x ∈ xs := fun x hx =>
    hys.subset (hrun.append_eq ▸ List.mem_append_left _ hx)
  have hwhite : ∀ x ∈ v, x.WhiteOrSolid := fun x hx =>
    hreads.whiteOrSolid x (hmem x hx) (hrun.kind_ne_eof x hx)
  have hbefore : ∀ x ∈ trimLexemes v, ∀ t, Ends t → x.ReadBefore limits t := fun x hx =>
    have hx := (trimLexemes_sublist v).subset hx
    hreads.readBefore x (hmem x hx) (hrun.kind_ne_eof x hx)
  -- a single literal would have been decoded
  have hdecoded : ∀ kind value, ¬ DecodedTo kind value (.opaqueText text) := nofun
  have hnone : ∀ x, v = [x] → ¬ x.kind.IsLiteral := by
    rintro x rfl hx
    obtain ⟨a, ha⟩ := hreads.isDecoded x (hmem x List.mem_cons_self) hx
    rw [ofLexemes_of_decodedTo ha] at htext
    exact hdecoded _ _ (htext ▸ ha)
  rw [ofLexemes_eq_opaqueText hnone, AttributeValue.opaqueText.injEq] at htext
  have hspaced : text = " ".intercalate ((trimLexemes v).map Lexeme.text) :=
    htext.symm.trans (joinedText_eq hwhite)
  refine ⟨exists_split_trimLexemes hwhite, ?_, .ofLexemes (trimLexemes v), ?_, ?_⟩
  · obtain ⟨us, e, hus, he, hsame⟩ := Lexer.exists_reads_spaced hbefore
    obtain ⟨l, hl⟩ := hus.exists_tokenize
    rw [List.map_append] at hl
    exact ⟨us.map Lexeme.token, e.token, l, hspaced ▸ hl, he, forall₂_token_same hsame⟩
  · rw [hspaced]
    exact Graph.parse_valueModule hbefore hrun fun us => thinned_of_same_trimLexemes hwhite
  · by_cases hliteral : ∃ x, trimLexemes v = [x] ∧ x.kind.IsLiteral
    · obtain ⟨x, hone, hx⟩ := hliteral
      have hxs := hmem x ((trimLexemes_sublist v).subset (hone ▸ List.mem_cons_self))
      obtain ⟨a, ha⟩ := hreads.isDecoded x hxs hx
      refine Or.inr ⟨fun heq => hnone x (heq ▸ hone) hx, x, hone, ?_⟩
      rwa [hone, ofLexemes_of_decodedTo ha]
    · refine Or.inl ?_
      have hkept : ∀ x ∈ trimLexemes v, x.WhiteOrSolid := fun x hx =>
        hwhite x ((trimLexemes_sublist v).subset hx)
      rw [ofLexemes_eq_opaqueText fun x hone hx => hliteral ⟨x, hone, hx⟩, joinedText_eq hkept,
        trimLexemes_trimLexemes, ← hspaced]

/-! ## All dictionaries of a graph -/

/-- The dictionaries of a function: its own, and those of its parameters, results and
operations. -/
def Function.dictionaries (f : Function) : List Attributes :=
  f.attributes :: (f.parameters.map Parameter.attributes ++
    (f.results.map FunctionResult.attributes ++ f.operations.map Operation.attributes))

/-- The dictionaries of a graph: its own, and those of its functions and operations. -/
def Graph.dictionaries (g : Graph) : List Attributes :=
  g.attributes :: (g.functions.flatMap Function.dictionaries ++
    g.operations.map Operation.attributes)

namespace Outline

/-- The entries of a function for each of its dictionaries. -/
def FunctionEntries.dictionaries (w : FunctionEntries) : List (List Entry) :=
  (w.early ++ w.late) :: (w.parameters ++ (w.results ++ w.operations))

/-- The entries of a module for each of its dictionaries. -/
def ModuleEntries.dictionaries (w : ModuleEntries) : List (List Entry) :=
  w.own :: ((w.items.filterMap ItemEntries.function?).flatMap FunctionEntries.dictionaries ++
    w.items.filterMap ItemEntries.operation?)

/-- The dictionaries of a function come from its entries, one by one. -/
theorem FunctionEntries.Merges.dictionaries {w : FunctionEntries} {f : Function}
    (h : w.Merges f) : List.Forall₂ Outline.Merges w.dictionaries f.dictionaries :=
  .cons h.own (List.rel_append (List.forall₂_map_right_iff.mpr h.parameters)
    (List.rel_append (List.forall₂_map_right_iff.mpr h.results)
      (List.forall₂_map_right_iff.mpr h.operations)))

/-- The dictionaries of a graph come from the entries of its module, one by one. -/
theorem ModuleEntries.Merges.dictionaries {w : ModuleEntries} {g : Graph} (h : w.Merges g) :
    List.Forall₂ Outline.Merges w.dictionaries g.dictionaries :=
  .cons h.own (List.rel_append
    (List.rel_flatMap h.functions fun _ _ hf => FunctionEntries.Merges.dictionaries hf)
    (List.forall₂_map_right_iff.mpr h.operations))

/-- The entries for a dictionary are entries of the module. -/
theorem ModuleEntries.subset_all (w : ModuleEntries) : ∀ es ∈ w.dictionaries, es ⊆ w.all := by
  intro es hes e he
  rw [all, List.mem_append, List.mem_flatMap]
  rw [dictionaries, List.mem_cons, List.mem_append, List.mem_flatMap] at hes
  rcases hes with rfl | ⟨f, hf, hes⟩ | hes
  · exact Or.inl he
  · obtain ⟨item, hitem, hfunction⟩ := List.mem_filterMap.mp hf
    refine Or.inr ⟨item, hitem, ?_⟩
    cases item with
    | operation _ => cases hfunction
    | function f' =>
        cases hfunction
        show e ∈ f.all
        simp only [FunctionEntries.all, List.mem_append, List.mem_flatten]
        simp only [FunctionEntries.dictionaries, List.mem_cons, List.mem_append] at hes
        rcases hes with rfl | hes | hes | hes
        · rcases List.mem_append.mp he with he | he
          · exact Or.inr (Or.inl he)
          · exact Or.inr (Or.inr (Or.inr (Or.inl he)))
        · exact Or.inl ⟨es, hes, he⟩
        · exact Or.inr (Or.inr (Or.inl ⟨es, hes, he⟩))
        · exact Or.inr (Or.inr (Or.inr (Or.inr ⟨es, hes, he⟩)))
  · obtain ⟨item, hitem, hoperation⟩ := List.mem_filterMap.mp hes
    refine Or.inr ⟨item, hitem, ?_⟩
    cases item with
    | function _ => cases hoperation
    | operation _ =>
        cases hoperation
        exact he

/-- The value of an entry is read behind its equals sign. -/
theorem IsEntry.exists_valueRun {fits : Nat → Prop} {xs v zs : List Lexeme} {e : Entry}
    (h : IsEntry fits xs e zs) (hv : e.value = some v) :
    ∃ ys, ys <:+ xs ∧ Grammar.ValueRun fits 0 ys v zs := by
  cases h with
  | alone _ _ => cases hv
  | valued _ _ hrun =>
      cases hv
      exact ⟨_, (List.suffix_cons _ _).trans (List.suffix_cons _ _), hrun⟩

/-- The lexemes of the value that is written last for a name. -/
def LastValue (es : List Entry) (name : String) (v : List Lexeme) : Prop :=
  ∃ front e back, es = front ++ e :: back ∧ e.key.valueText = name ∧ e.value = some v ∧
    name ∉ back.map fun e => e.key.valueText

/-- An attribute that is kept as text is written with a value. -/
theorem Merges.exists_lastValue {es : List Entry} {as : Attributes} (h : Merges es as)
    {name text : String} (hmem : (name, .opaqueText text) ∈ as.entries) :
    ∃ e ∈ es, ∃ v, e.value = some v ∧ LastValue es name v ∧
      AttributeValue.ofLexemes v = .opaqueText text := by
  obtain ⟨front, back, hsplit, hback⟩ := (h.values name _).mp hmem
  obtain ⟨front, behind, rfl, rfl, hbehind⟩ := List.map_eq_append_iff.mp hsplit
  obtain ⟨e, back, rfl, he, rfl⟩ := List.map_eq_cons_iff.mp hbehind
  obtain ⟨hname, hvalue⟩ := Prod.ext_iff.mp he
  cases hv : e.value with
  | none =>
      rw [Entry.attribute, hv] at hvalue
      cases hvalue
  | some v =>
      rw [Entry.attribute, hv] at hvalue
      refine ⟨e, by simp, v, hv, ⟨front, e, back, rfl, hname, hv, ?_⟩, hvalue⟩
      rwa [List.map_map] at hback

end Outline

/-- **The text that an attribute is kept as is a normal form of its value.**  In what a source
parses to, every attribute that is kept as text comes from the value that is written last for its
name among the entries of its item, and its text is the normal form of the tokens of that
value. -/
theorem Graph.text_values_normal {limits : Limits} {source : String} {g : Graph}
    (h : Graph.parse limits source = .ok g) :
    ∃ xs, (Lexer.ofSource limits source).Reads xs ∧
      (∃ w, Outline.IsModule (· ≤ limits.maxNestingDepth) xs w) ∧
      ∀ w, Outline.IsModule (· ≤ limits.maxNestingDepth) xs w →
        List.Forall₂ (fun es as => ∀ name text, (name, .opaqueText text) ∈ as.entries →
            ∃ v, Outline.LastValue es name v ∧ v <:+: xs ∧ NormalForm limits v text)
          w.dictionaries g.dictionaries := by
  obtain ⟨xs, hreads, hexists, hall⟩ := Graph.exists_outline h
  refine ⟨xs, hreads, hexists, fun w hw => ?_⟩
  obtain ⟨hlength, hmerges⟩ := List.forall₂_iff_zip.mp (hall w hw).dictionaries
  refine List.forall₂_iff_zip.mpr ⟨hlength, fun {es as} hpair name text hmem => ?_⟩
  obtain ⟨e, he, v, hv, hlast, htext⟩ := (hmerges hpair).exists_lastValue hmem
  -- the value is read somewhere in the source
  have hes := w.subset_all es (List.of_mem_zip hpair).1
  obtain ⟨ws, zs, hws, hentry⟩ := hw.holds.readWithin e (hes he)
  obtain ⟨ys, hys, hrun⟩ := hentry.exists_valueRun hv
  have hinfix : v <:+: ys := hrun.append_eq ▸ (List.prefix_append v zs).isInfix
  exact ⟨v, hlast, hinfix.trans (hys.trans hws).isInfix,
    normalForm_of_valueRun hreads (hys.trans hws) hrun htext⟩

/-- A value with a type: its text is normal. -/
theorem Graph.text_values_normal_typed :
    Graph.parse .standard (valueModule "1 : i32") = .ok (moduleWith (.opaqueText "1 : i32")) ∧
    ∃ xs, (Lexer.ofSource .standard (valueModule "1 : i32")).Reads xs ∧
      (∃ w, Outline.IsModule (· ≤ Limits.standard.maxNestingDepth) xs w) ∧
      ∀ w, Outline.IsModule (· ≤ Limits.standard.maxNestingDepth) xs w →
        List.Forall₂ (fun es as => ∀ name text, (name, .opaqueText text) ∈ as.entries →
            ∃ v, Outline.LastValue es name v ∧ v <:+: xs ∧ NormalForm .standard v text)
          w.dictionaries (moduleWith (.opaqueText "1 : i32")).dictionaries := by
  have hreads : (Lexer.ofSource .standard "1 : i32").Reads
      ([⟨"", "1", ⟨.integerLiteral, .int 1, ⟨⟨0, 1, 1⟩, 1⟩⟩⟩,
        ⟨" ", ":", ⟨.colon, .text ":", ⟨⟨2, 1, 3⟩, 1⟩⟩⟩,
        ⟨" ", "i32", ⟨.identifier, .text "i32", ⟨⟨4, 1, 5⟩, 3⟩⟩⟩] ++
        [⟨"", "", ⟨.eof, .none, ⟨⟨7, 1, 8⟩, 0⟩⟩⟩]) :=
    .more rfl (by decide) <| .more rfl (by decide) <| .more rfl (by decide) <| .last rfl rfl
  obtain ⟨_, hparse⟩ := Graph.parse_valueModule_of_plain hreads (by decide) rfl
  exact ⟨hparse, Graph.text_values_normal hparse⟩

/-- A value that starts with a no-break space, which is a keyword: its text has lost that token,
and stands for the number that is left. -/
theorem Graph.text_values_trimmed :
    (∃ xs, (Lexer.ofSource .standard (valueModule "\u00a0 5")).Reads xs ∧
      xs.map Lexeme.kind = [.keyword, .identifier, .lbrace, .identifier, .equal, .keyword,
        .integerLiteral, .rbrace, .lbrace, .rbrace, .eof]) ∧
    Graph.parse .standard (valueModule "\u00a0 5") = .ok (moduleWith (.opaqueText "5")) ∧
    (∃ xs, (Lexer.ofSource .standard "5").Reads xs ∧
      xs.map Lexeme.kind = [.integerLiteral, .eof]) ∧
    Graph.parse .standard (valueModule "5") = .ok (moduleWith (.integer 5)) := by
  have hspace : (Lexer.ofSource .standard "\u00a0 5").Reads
      ([⟨"", "\u00a0", ⟨.keyword, .text "\u00a0", ⟨⟨0, 1, 1⟩, 2⟩⟩⟩,
        ⟨" ", "5", ⟨.integerLiteral, .int 5, ⟨⟨3, 1, 4⟩, 1⟩⟩⟩] ++
        [⟨"", "", ⟨.eof, .none, ⟨⟨4, 1, 5⟩, 0⟩⟩⟩]) :=
    .more rfl (by decide) <| .more rfl (by decide) <| .last rfl rfl
  have hnumber : (Lexer.ofSource .standard "5").Reads
      ([⟨"", "5", ⟨.integerLiteral, .int 5, ⟨⟨0, 1, 1⟩, 1⟩⟩⟩] ++
        [⟨"", "", ⟨.eof, .none, ⟨⟨1, 1, 2⟩, 0⟩⟩⟩]) :=
    .more rfl (by decide) <| .last rfl rfl
  obtain ⟨hall, hfirst⟩ := Graph.parse_valueModule_of_plain hspace (by decide) rfl
  obtain ⟨_, hagain⟩ := Graph.parse_valueModule_of_plain hnumber (by decide) rfl
  exact ⟨⟨_, hall, rfl⟩, hfirst, ⟨_, hnumber, rfl⟩, hagain⟩

end GenericIR
