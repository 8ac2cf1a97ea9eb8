/-
# Merged entries

Every dictionary of a graph comes from the entries that are written for its item, set one after
the other: each name once, where it is written first, with the value it is written with last.

A phrase and its outline read the same lexemes, one as a value and the other as its entries; there
is one lemma for each production.  What a source parses to then follows from what parsing
recognizes.

* `Outline.ModuleEntries.Merges` : a graph whose dictionaries come from the entries of a module;
* `Graph.attributes_merged` : what every source parses to.
-/
import GenericIR.Proofs.Brackets.Balance
import GenericIR.Proofs.Merged.Dictionary
import GenericIR.Proofs.Merged.Outline
import GenericIR.Proofs.Partition.Tokens
import GenericIR.Proofs.Recognition.Module

namespace GenericIR

namespace Outline

/-! ## Dictionaries and entries -/

/-- Attributes that the written entries are merged into. -/
abbrev Merges (es : List Entry) (as : Attributes) : Prop := MergedFrom (es.map Entry.attribute) as

/-- A function whose dictionaries come from its entries. -/
structure FunctionEntries.Merges (w : FunctionEntries) (f : Function) : Prop where
  own : Outline.Merges (w.early ++ w.late) f.attributes
  parameters : List.Forall₂ (fun es param => Outline.Merges es param.attributes)
    w.parameters f.parameters
  results : List.Forall₂ (fun es result => Outline.Merges es result.attributes)
    w.results f.results
  operations : List.Forall₂ (fun es op => Outline.Merges es op.attributes)
    w.operations f.operations

/-- An item whose dictionaries come from its entries. -/
inductive ItemEntries.Merges : ItemEntries → ModuleItem → Prop where
  | function {w : FunctionEntries} {f : Function} (h : w.Merges f) :
      Merges (.function w) (.function f)
  | operation {es : List Entry} {op : Operation} (h : Outline.Merges es op.attributes) :
      Merges (.operation es) (.operation op)

/-- A graph whose dictionaries come from the entries of a module, item by item. -/
structure ModuleEntries.Merges (w : ModuleEntries) (g : Graph) : Prop where
  own : Outline.Merges w.own g.attributes
  functions : List.Forall₂ FunctionEntries.Merges
    (w.items.filterMap ItemEntries.function?) g.functions
  operations : List.Forall₂ (fun es op => Outline.Merges es op.attributes)
    (w.items.filterMap ItemEntries.operation?) g.operations

/-! ## Phrases that read the same lexemes -/

section Lists

variable {α β : Type}

/-- Where one phrase reads lexemes, another reads the same ones as a related value. -/
def Follows (V : α → β → Prop) (part : Phrase α) (other : Phrase β) : Prop :=
  ∀ xs a ys, part xs a ys → ∃ b, other xs b ys ∧ V a b

namespace Follows

variable {V : α → β → Prop} {part : Phrase α} {other : Phrase β}

/-- A part that may be missing. -/
theorem optionally (h : Follows V part other) (starts : Lexeme → Prop) :
    Follows (Option.Rel V) (Grammar.Optionally starts part) (Grammar.Optionally starts other) := by
  rintro _ _ _ (⟨hx, hpart⟩ | hx)
  · obtain ⟨b, hb, hV⟩ := h _ _ _ hpart
    exact ⟨some b, .present hx hb, .some hV⟩
  · exact ⟨none, .missing hx, .none⟩

/-- A part behind a lexeme. -/
theorem after (h : Follows V part other) (kind : TokenKind) :
    Follows V (Grammar.After kind part) (Grammar.After kind other) := by
  rintro _ _ _ ⟨hx, hpart⟩
  obtain ⟨b, hb, hV⟩ := h _ _ _ hpart
  exact ⟨b, .intro hx hb, hV⟩

/-- Items up to some kinds of lookahead. -/
theorem items (h : Follows V part other) (stops : List TokenKind) :
    Follows (List.Forall₂ V) (Grammar.Until stops part) (Grammar.Until stops other) := by
  intro xs as ys hread
  induction hread with
  | done hx => exact ⟨[], .done hx, .nil⟩
  | more hx hpart _ ih =>
      obtain ⟨b, hb, hV⟩ := h _ _ _ hpart
      obtain ⟨bs, hbs, hVs⟩ := ih
      exact ⟨b :: bs, .more hx hb hbs, .cons hV hVs⟩

/-- Items in parentheses. -/
theorem enclosed (h : Follows V part other) :
    Follows (List.Forall₂ V) (Grammar.Enclosed part) (Grammar.Enclosed other) := by
  rintro _ as _ ⟨hx, hread, hy⟩
  suffices hclosed : Follows (List.Forall₂ V) (Grammar.Closed .rparen part)
      (Grammar.Closed .rparen other) by
    obtain ⟨bs, hbs, hVs⟩ := hclosed _ _ _ hread
    exact ⟨bs, .intro hx hbs hy, hVs⟩
  intro xs as ys hread
  induction hread with
  | empty hx => exact ⟨[], .empty hx, .nil⟩
  | last hx hpart hy =>
      obtain ⟨b, hb, hV⟩ := h _ _ _ hpart
      exact ⟨[b], .last hx hb hy, .cons hV .nil⟩
  | more hx hpart hy _ ih =>
      obtain ⟨b, hb, hV⟩ := h _ _ _ hpart
      obtain ⟨bs, hbs, hVs⟩ := ih
      exact ⟨b :: bs, .more hx hb hy hbs, .cons hV hVs⟩

end Follows

/-- A phrase and its outline read the same lexemes as related values. -/
structure Outlines (V : β → α → Prop) (outline : Phrase β) (part : Phrase α) : Prop where
  read : Follows V outline part
  outlined : Follows (fun a b => V b a) part outline

namespace Outlines

variable {V : β → α → Prop} {outline : Phrase β} {part : Phrase α}

/-- A part that may be missing. -/
theorem optionally (h : Outlines V outline part) (starts : Lexeme → Prop) :
    Outlines (Option.Rel V) (Grammar.Optionally starts outline)
      (Grammar.Optionally starts part) where
  read := h.read.optionally starts
  outlined xs a ys hread := by
    obtain ⟨b, hb, hV⟩ := h.outlined.optionally starts xs a ys hread
    refine ⟨b, hb, ?_⟩
    cases hV with
    | some hV => exact .some hV
    | none => exact .none

/-- A part behind a lexeme. -/
theorem after (h : Outlines V outline part) (kind : TokenKind) :
    Outlines V (Grammar.After kind outline) (Grammar.After kind part) :=
  ⟨h.read.after kind, h.outlined.after kind⟩

/-- Items up to some kinds of lookahead. -/
theorem items (h : Outlines V outline part) (stops : List TokenKind) :
    Outlines (List.Forall₂ V) (Grammar.Until stops outline) (Grammar.Until stops part) where
  read := h.read.items stops
  outlined xs a ys hread := by
    obtain ⟨b, hb, hV⟩ := h.outlined.items stops xs a ys hread
    exact ⟨b, hb, hV.flip⟩

/-- Items in parentheses. -/
theorem enclosed (h : Outlines V outline part) :
    Outlines (List.Forall₂ V) (Grammar.Enclosed outline) (Grammar.Enclosed part) where
  read := h.read.enclosed
  outlined xs a ys hread := by
    obtain ⟨b, hb, hV⟩ := h.outlined.enclosed xs a ys hread
    exact ⟨b, hb, hV.flip⟩

end Outlines

end Lists

/-! ## Productions -/

section Productions

variable {fits : Nat → Prop}

/-- Entries with the attributes that they are read as. -/
abbrev AreAttributes (es : List Entry) (entries : List (String × AttributeValue)) : Prop :=
  es.map Entry.attribute = entries

/-- An entry of a dictionary. -/
theorem outlines_entry :
    Outlines (fun e entry => e.attribute = entry) (IsEntry fits) (Grammar.IsEntry fits) where
  read := by
    rintro _ _ _ (⟨hx, hy⟩ | ⟨hx, hy, h⟩)
    · exact ⟨_, .unit hx hy, rfl⟩
    · exact ⟨_, .valued hx hy h, rfl⟩
  outlined := by
    rintro _ _ _ (⟨hx, hy⟩ | ⟨hx, hy, h⟩)
    · exact ⟨_, .alone hx hy, rfl⟩
    · exact ⟨_, .valued hx hy h, rfl⟩

/-- An entry with the commas behind it. -/
theorem outlines_separatedEntry : Outlines (fun e entry => e.attribute = entry)
    (IsSeparatedEntry fits) (Grammar.IsSeparatedEntry fits) where
  read := by
    rintro _ _ _ ⟨h, hcommas⟩
    obtain ⟨entry, hentry, heq⟩ := Outlines.read outlines_entry _ _ _ h
    exact ⟨entry, .intro hentry hcommas, heq⟩
  outlined := by
    rintro _ _ _ ⟨h, hcommas⟩
    obtain ⟨e, he, heq⟩ := Outlines.outlined outlines_entry _ _ _ h
    exact ⟨e, .intro he hcommas, heq⟩

/-- A dictionary. -/
theorem outlines_dictionary :
    Outlines AreAttributes (IsDictionary fits) (Grammar.IsDictionary fits) where
  read := by
    rintro _ es _ ⟨hx, h, hy⟩
    obtain ⟨entries, hentries, heq⟩ := (Outlines.items outlines_separatedEntry _).read _ _ _ h
    refine ⟨entries, .intro hx hentries hy, ?_⟩
    rwa [← List.forall₂_map_left_iff, List.forall₂_eq_eq_eq] at heq
  outlined := by
    rintro _ entries _ ⟨hx, h, hy⟩
    obtain ⟨es, hes, heq⟩ := (Outlines.items outlines_separatedEntry _).outlined _ _ _ h
    refine ⟨es, .intro hx hes hy, ?_⟩
    rwa [← List.forall₂_map_left_iff, List.forall₂_eq_eq_eq] at heq

/-- A dictionary that may be missing. -/
theorem outlines_mayHaveDictionary :
    Outlines AreAttributes (MayHaveDictionary fits) (Grammar.MayHaveDictionary fits) where
  read := by
    rintro _ _ _ ⟨h⟩
    obtain ⟨entries, hentries, heq⟩ := (Outlines.optionally outlines_dictionary _).read _ _ _ h
    refine ⟨_, .intro hentries, ?_⟩
    cases heq with
    | some heq => exact heq
    | none => rfl
  outlined := by
    rintro _ _ _ ⟨h⟩
    obtain ⟨es, hes, heq⟩ := (Outlines.optionally outlines_dictionary _).outlined _ _ _ h
    refine ⟨_, .intro hes, ?_⟩
    cases heq with
    | some heq => exact heq
    | none => rfl

/-- A dictionary behind its word. -/
theorem outlines_mayHaveClause :
    Outlines AreAttributes (MayHaveClause fits) (Grammar.MayHaveClause fits) where
  read := by
    rintro _ _ _ (⟨hx, h⟩ | hx)
    · obtain ⟨entries, hentries, heq⟩ := Outlines.read outlines_dictionary _ _ _ h
      exact ⟨entries, .present hx hentries, heq⟩
    · exact ⟨[], .missing hx, rfl⟩
  outlined := by
    rintro _ _ _ (⟨hx, h⟩ | hx)
    · obtain ⟨es, hes, heq⟩ := Outlines.outlined outlines_dictionary _ _ _ h
      exact ⟨es, .present hx hes, heq⟩
    · exact ⟨[], .missing hx, rfl⟩

/-- A block after the signature. -/
theorem outlines_block : Outlines (fun es block => AreAttributes es block.1) (IsBlock fits)
    (Grammar.IsBlock fits) where
  read := by
    rintro _ _ _ (⟨hx, hopens, h⟩ | ⟨hx, hopens, h⟩ | hx)
    · obtain ⟨entries, hentries, heq⟩ := Outlines.read outlines_dictionary _ _ _ h
      exact ⟨_, .dictionary hx hopens hentries, heq⟩
    · exact ⟨_, .body hx hopens h, rfl⟩
    · exact ⟨_, .missing hx, rfl⟩
  outlined := by
    rintro _ _ _ (⟨hx, hopens, h⟩ | ⟨hx, hopens, h⟩ | hx)
    · obtain ⟨es, hes, heq⟩ := Outlines.outlined outlines_dictionary _ _ _ h
      exact ⟨es, .dictionary hx hopens hes, heq⟩
    · exact ⟨[], .body hx hopens h, rfl⟩
    · exact ⟨[], .missing hx, rfl⟩

/-- An operation up to the types of its operands. -/
theorem outlines_head : Outlines
    (fun head op => op.name = head.1 ∧ Merges head.2 op.attributes) (IsHead fits)
    (Grammar.IsHead fits) where
  read := by
    rintro _ _ _ ⟨houtputs, hname, hcallee, hinputs, hregions, h, htypes⟩
    obtain ⟨_, hentries, rfl⟩ := Outlines.read outlines_mayHaveDictionary _ _ _ h
    exact ⟨_, .intro houtputs hname hcallee hinputs hregions hentries htypes, rfl,
      MergedFrom.empty.insertAll _⟩
  outlined := by
    rintro _ _ _ ⟨houtputs, hname, hcallee, hinputs, hregions, h, htypes⟩
    obtain ⟨es, hes, rfl⟩ := Outlines.outlined outlines_mayHaveDictionary _ _ _ h
    exact ⟨_, .intro houtputs hname hcallee hinputs hregions hes htypes, rfl,
      MergedFrom.empty.insertAll _⟩

/-- An operation. -/
theorem outlines_operation : Outlines (fun es op => Merges es op.attributes) (IsOperation fits)
    (Grammar.IsOperation fits) where
  read := by
    rintro _ _ _ (⟨hhead, hname, hx, hlocation⟩ |
      ⟨hhead, hname, htypes, hblock, hlate, hlocation⟩)
    · obtain ⟨op, hop, rfl, hmerges⟩ := Outlines.read outlines_head _ _ _ hhead
      exact ⟨_, .constant hop hname hx hlocation, hmerges⟩
    · obtain ⟨op, hop, rfl, hmerges⟩ := Outlines.read outlines_head _ _ _ hhead
      obtain ⟨⟨_, body⟩, hblock, rfl⟩ := Outlines.read outlines_block _ _ _ hblock
      obtain ⟨_, hlate, rfl⟩ := Outlines.read outlines_mayHaveDictionary _ _ _ hlate
      refine ⟨_, .general hop hname htypes hblock hlate hlocation, ?_⟩
      show MergedFrom _ _
      rw [List.map_append, List.map_append]
      exact hmerges.insertAll _
  outlined := by
    rintro _ _ _ (⟨hhead, hname, hx, hlocation⟩ |
      ⟨hhead, hname, htypes, hblock, hlate, hlocation⟩)
    · obtain ⟨⟨_, es⟩, hes, rfl, hmerges⟩ := Outlines.outlined outlines_head _ _ _ hhead
      exact ⟨es, .constant hes hname hx hlocation, hmerges⟩
    · obtain ⟨⟨_, es⟩, hes, rfl, hmerges⟩ := Outlines.outlined outlines_head _ _ _ hhead
      obtain ⟨block, hmiddle, rfl⟩ := Outlines.outlined outlines_block _ _ _ hblock
      obtain ⟨late, hbehind, rfl⟩ := Outlines.outlined outlines_mayHaveDictionary _ _ _ hlate
      refine ⟨_, .general hes hname htypes hmiddle hbehind hlocation, ?_⟩
      show MergedFrom _ _
      rw [List.map_append, List.map_append]
      exact hmerges.insertAll _

/-- A parameter. -/
theorem outlines_parameter : Outlines (fun es param => Merges es param.attributes)
    (IsParameter fits) (Grammar.IsParameter fits) where
  read := by
    rintro _ _ _ ⟨hx, hy, htype, h, hlocation⟩
    obtain ⟨_, hentries, rfl⟩ := Outlines.read outlines_mayHaveDictionary _ _ _ h
    exact ⟨_, .intro hx hy htype hentries hlocation, MergedFrom.empty.insertAll _⟩
  outlined := by
    rintro _ _ _ ⟨hx, hy, htype, h, hlocation⟩
    obtain ⟨es, hes, rfl⟩ := Outlines.outlined outlines_mayHaveDictionary _ _ _ h
    exact ⟨es, .intro hx hy htype hes hlocation, MergedFrom.empty.insertAll _⟩

/-- A result. -/
theorem outlines_result : Outlines (fun es result => Merges es result.attributes)
    (IsResult fits) (Grammar.IsResult fits) where
  read := by
    rintro _ _ _ ⟨htype, h⟩
    obtain ⟨_, hentries, rfl⟩ := Outlines.read outlines_mayHaveDictionary _ _ _ h
    exact ⟨_, .intro htype hentries, MergedFrom.empty.insertAll _⟩
  outlined := by
    rintro _ _ _ ⟨htype, h⟩
    obtain ⟨es, hes, rfl⟩ := Outlines.outlined outlines_mayHaveDictionary _ _ _ h
    exact ⟨es, .intro htype hes, MergedFrom.empty.insertAll _⟩

/-- Results. -/
theorem outlines_results :
    Outlines (List.Forall₂ fun es result => Merges es result.attributes) (AreResults fits)
      (Grammar.AreResults fits) where
  read := by
    rintro _ _ _ (h | ⟨hx, h⟩)
    · obtain ⟨results, hresults, hmerges⟩ := (Outlines.enclosed outlines_result).read _ _ _ h
      exact ⟨results, .enclosed hresults, hmerges⟩
    · exact ⟨_, .bare hx h, .cons .empty .nil⟩
  outlined := by
    rintro _ _ _ (h | ⟨hx, h⟩)
    · obtain ⟨ess, hess, hmerges⟩ := (Outlines.enclosed outlines_result).outlined _ _ _ h
      exact ⟨ess, .enclosed hess, hmerges⟩
    · exact ⟨[[]], .bare hx h, .cons .empty .nil⟩

/-- The body of a function. -/
theorem outlines_body :
    Outlines (List.Forall₂ fun es op => Merges es op.attributes) (IsBody fits)
      (Grammar.IsBody fits) where
  read := by
    rintro _ _ _ ⟨hx, h, hy⟩
    obtain ⟨ops, hops, hmerges⟩ := (Outlines.items outlines_operation _).read _ _ _ h
    exact ⟨ops, .intro hx hops hy, hmerges⟩
  outlined := by
    rintro _ _ _ ⟨hx, h, hy⟩
    obtain ⟨ess, hess, hmerges⟩ := (Outlines.items outlines_operation _).outlined _ _ _ h
    exact ⟨ess, .intro hx hess hy, hmerges⟩

/-- Lists that are related, none of them where a list is missing. -/
theorem forall₂_getD {α β : Type} {V : β → α → Prop} {bs : Option (List β)} {as : Option (List α)}
    (h : Option.Rel (List.Forall₂ V) bs as) : List.Forall₂ V (bs.getD []) (as.getD []) := by
  cases h with
  | some h => exact h
  | none => exact .nil

/-- A function. -/
theorem outlines_function : Outlines FunctionEntries.Merges (IsFunction fits)
    (Grammar.IsFunction fits) where
  read := by
    rintro _ _ _ ⟨hx, hvisibility, hy, hparameters, hearly, hresults, hlate, hbody⟩
    obtain ⟨parameters, hparameters, hmerges₁⟩ :=
      (Outlines.enclosed outlines_parameter).read _ _ _ hparameters
    obtain ⟨_, hearly, rfl⟩ := Outlines.read outlines_mayHaveClause _ _ _ hearly
    obtain ⟨results, hresults, hmerges₂⟩ :=
      ((Outlines.after outlines_results _).optionally _).read _ _ _ hresults
    obtain ⟨_, hlate, rfl⟩ := Outlines.read outlines_mayHaveClause _ _ _ hlate
    obtain ⟨body, hbody, hmerges₃⟩ := (Outlines.optionally outlines_body _).read _ _ _ hbody
    refine ⟨_, .intro hx hvisibility hy hparameters hearly hresults hlate hbody, ?_, hmerges₁,
      forall₂_getD hmerges₂, forall₂_getD hmerges₃⟩
    show MergedFrom _ _
    rw [List.map_append]
    exact MergedFrom.empty.insertAll _
  outlined := by
    rintro _ _ _ ⟨hx, hvisibility, hy, hparameters, hearly, hresults, hlate, hbody⟩
    obtain ⟨parameters, hparameters, hmerges₁⟩ :=
      (Outlines.enclosed outlines_parameter).outlined _ _ _ hparameters
    obtain ⟨early, hfront, rfl⟩ := Outlines.outlined outlines_mayHaveClause _ _ _ hearly
    obtain ⟨results, hresults, hmerges₂⟩ :=
      ((Outlines.after outlines_results _).optionally _).outlined _ _ _ hresults
    obtain ⟨late, hbehind, rfl⟩ := Outlines.outlined outlines_mayHaveClause _ _ _ hlate
    obtain ⟨body, hbody, hmerges₃⟩ := (Outlines.optionally outlines_body _).outlined _ _ _ hbody
    refine ⟨_, .intro hx hvisibility hy hparameters hfront hresults hbehind hbody, ?_, hmerges₁,
      forall₂_getD hmerges₂, forall₂_getD hmerges₃⟩
    show MergedFrom _ _
    rw [List.map_append]
    exact MergedFrom.empty.insertAll _

/-- An item of a module. -/
theorem outlines_item : Outlines ItemEntries.Merges (IsItem fits) (Grammar.IsItem fits) where
  read := by
    rintro _ _ _ (⟨hx, h⟩ | ⟨hx, h⟩)
    · obtain ⟨f, hf, hmerges⟩ := Outlines.read outlines_function _ _ _ h
      exact ⟨_, .function hx hf, .function hmerges⟩
    · obtain ⟨op, hop, hmerges⟩ := Outlines.read outlines_operation _ _ _ h
      exact ⟨_, .operation hx hop, .operation hmerges⟩
  outlined := by
    rintro _ _ _ (⟨hx, h⟩ | ⟨hx, h⟩)
    · obtain ⟨w, hw, hmerges⟩ := Outlines.outlined outlines_function _ _ _ h
      exact ⟨_, .function hx hw, .function hmerges⟩
    · obtain ⟨es, hes, hmerges⟩ := Outlines.outlined outlines_operation _ _ _ h
      exact ⟨_, .operation hx hes, .operation hmerges⟩

end Productions

/-! ## Modules -/

section Modules

variable {fits : Nat → Prop} {xs : List Lexeme}

/-- Items sorted by what they are, functions and operations each in their order. -/
theorem merges_of_items {items : List ItemEntries} {items' : List ModuleItem} {own : List Entry}
    {as : Attributes} {name : Option String} (hown : Merges own as)
    (h : List.Forall₂ ItemEntries.Merges items items') :
    ModuleEntries.Merges ⟨own, items⟩ ⟨name, items'.filterMap ModuleItem.function?,
      items'.filterMap ModuleItem.operation?, as⟩ where
  own := hown
  functions := by
    refine List.rel_filterMap (fun item item' hitem => ?_) h
    cases hitem with
    | function h => exact .some h
    | operation _ => exact .none
  operations := by
    refine List.rel_filterMap (fun item item' hitem => ?_) h
    cases hitem with
    | function _ => exact .none
    | operation h => exact .some h

/-- What has an outline is a module, whose dictionaries come from the entries of the outline. -/
theorem IsModule.exists_graph {w : ModuleEntries} (h : IsModule fits xs w) :
    ∃ g, Grammar.IsModule fits xs g ∧ w.Merges g := by
  obtain ⟨hx, htext, hname, hown, ho, hitems, hc, he⟩ := h
  obtain ⟨_, hentries, rfl⟩ := Outlines.read outlines_mayHaveClause _ _ _ hown
  obtain ⟨items, hitems, hmerges⟩ := (Outlines.items outlines_item _).read _ _ _ hitems
  exact ⟨_, .intro (.intro hx htext hname hentries ho hitems hc) he,
    merges_of_items (MergedFrom.empty.insertAll _) hmerges⟩

/-- A module has an outline. -/
theorem exists_isModule {g : Graph} (h : Grammar.IsModule fits xs g) : ∃ w, IsModule fits xs w := by
  obtain ⟨⟨hx, htext, hname, hentries, ho, hitems, hc⟩, he⟩ := h
  obtain ⟨own, hown, _⟩ := Outlines.outlined outlines_mayHaveClause _ _ _ hentries
  obtain ⟨items, hitems, _⟩ := (Outlines.items outlines_item _).outlined _ _ _ hitems
  exact ⟨⟨own, items⟩, .intro hx htext hname hown ho hitems hc he⟩

end Modules

end Outline

/-- The lexemes of a source, in order and apart from each other. -/
theorem Lexer.Reads.ordered {limits : Limits} {source : String} {xs : List Lexeme}
    (h : (Lexer.ofSource limits source).Reads xs) :
    xs.Pairwise fun x y => x.token.span.offset < y.token.span.offset ∧
      x.token.span.stop ≤ y.token.span.offset := by
  obtain ⟨_, hlexemes⟩ := (Lexer.reads_iff _ _).mp h
  obtain ⟨hpartition, _, _⟩ :=
    @Lexer.partition_readAll source.toList (.ofSource limits source) (.start _)
  rw [hlexemes] at hpartition
  exact List.pairwise_map.mp hpartition.ordered

/-- The tokens of a source that parses have an outline, and every one of their outlines gives the
entries of what the source parses to. -/
theorem Graph.exists_outline {limits : Limits} {source : String} {g : Graph}
    (h : Graph.parse limits source = .ok g) :
    ∃ xs, (Lexer.ofSource limits source).Reads xs ∧
      (∃ w, Outline.IsModule (· ≤ limits.maxNestingDepth) xs w) ∧
      ∀ w, Outline.IsModule (· ≤ limits.maxNestingDepth) xs w → w.Merges g := by
  obtain ⟨_, _, _, _, _, hreads⟩ := Graph.reads_of_parse h
  have hiff := Graph.parse_iff_isModule hreads (fun _ _ => Iff.rfl)
  refine ⟨_, hreads, Outline.exists_isModule ((hiff g).mp h), fun w hw => ?_⟩
  -- the outline fits some graph, which is what the source parses to
  obtain ⟨g', hg', hmerges⟩ := hw.exists_graph
  have hparse := (hiff g').mpr hg'
  rw [h] at hparse
  exact Except.ok.inj hparse ▸ hmerges

/-- **Dictionaries merge, and what is written last wins.**  The tokens of a source that parses
have an outline: the entries that are written for the module, for each function, parameter and
result, and for each operation.  Every dictionary of the graph has the names of the entries of its
item, each once, in the order in which they come first, and each with the value it is written with
last.  The entries of all items stand apart, in the order of the source. -/
theorem Graph.attributes_merged {limits : Limits} {source : String} {g : Graph}
    (h : Graph.parse limits source = .ok g) :
    ∃ xs, (Lexer.ofSource limits source).Reads xs ∧
      (∃ w, Outline.IsModule (· ≤ limits.maxNestingDepth) xs w) ∧
      ∀ w, Outline.IsModule (· ≤ limits.maxNestingDepth) xs w →
        w.Merges g ∧ (w.all.flatMap Outline.Entry.lexemes).Sublist xs ∧
          (w.all.flatMap Outline.Entry.lexemes).Pairwise fun x y =>
            x.token.span.offset < y.token.span.offset ∧
              x.token.span.stop ≤ y.token.span.offset := by
  obtain ⟨xs, hreads, hexists, hall⟩ := Graph.exists_outline h
  refine ⟨xs, hreads, hexists, fun w hw => ?_⟩
  exact ⟨hall w hw, hw.sublist, hreads.ordered.sublist hw.sublist⟩

/-- An operation with two blocks that both give a name: the second one decides its value. -/
theorem Graph.attributes_merged_twice :
    Graph.parse .standard "module \x7bop \x7bk\x7d \x7bk = 1\x7d\x7d" =
      .ok ⟨none, [], [{ Operation.named "op" with
        attributes := Attributes.empty.insertAll [("k", .integer 1)] }], .empty⟩ ∧
    ∃ xs, (Lexer.ofSource .standard "module \x7bop \x7bk\x7d \x7bk = 1\x7d\x7d").Reads xs ∧
      (∃ w, Outline.IsModule (· ≤ Limits.standard.maxNestingDepth) xs w) ∧
      ∀ w, Outline.IsModule (· ≤ Limits.standard.maxNestingDepth) xs w →
        w.Merges ⟨none, [], [{ Operation.named "op" with
        attributes := Attributes.empty.insertAll [("k", .integer 1)] }], .empty⟩ ∧
        (w.all.flatMap Outline.Entry.lexemes).Sublist xs ∧
          (w.all.flatMap Outline.Entry.lexemes).Pairwise fun x y =>
            x.token.span.offset < y.token.span.offset ∧
              x.token.span.stop ≤ y.token.span.offset := by
  have hreads : (Lexer.ofSource .standard "module \x7bop \x7bk\x7d \x7bk = 1\x7d\x7d").Reads
      [⟨"", "module", ⟨.keyword, .text "module", ⟨⟨0, 1, 1⟩, 6⟩⟩⟩,
        ⟨" ", "\x7b", ⟨.lbrace, .text "\x7b", ⟨⟨7, 1, 8⟩, 1⟩⟩⟩,
        ⟨"", "op", ⟨.identifier, .text "op", ⟨⟨8, 1, 9⟩, 2⟩⟩⟩,
        ⟨" ", "\x7b", ⟨.lbrace, .text "\x7b", ⟨⟨11, 1, 12⟩, 1⟩⟩⟩,
        ⟨"", "k", ⟨.identifier, .text "k", ⟨⟨12, 1, 13⟩, 1⟩⟩⟩,
        ⟨"", "\x7d", ⟨.rbrace, .text "\x7d", ⟨⟨13, 1, 14⟩, 1⟩⟩⟩,
        ⟨" ", "\x7b", ⟨.lbrace, .text "\x7b", ⟨⟨15, 1, 16⟩, 1⟩⟩⟩,
        ⟨"", "k", ⟨.identifier, .text "k", ⟨⟨16, 1, 17⟩, 1⟩⟩⟩,
        ⟨" ", "=", ⟨.equal, .text "=", ⟨⟨18, 1, 19⟩, 1⟩⟩⟩,
        ⟨" ", "1", ⟨.integerLiteral, .int 1, ⟨⟨20, 1, 21⟩, 1⟩⟩⟩,
        ⟨"", "\x7d", ⟨.rbrace, .text "\x7d", ⟨⟨21, 1, 22⟩, 1⟩⟩⟩,
        ⟨"", "\x7d", ⟨.rbrace, .text "\x7d", ⟨⟨22, 1, 23⟩, 1⟩⟩⟩,
        ⟨"", "", ⟨.eof, .none, ⟨⟨23, 1, 24⟩, 0⟩⟩⟩] :=
    .more rfl (by decide) <| .more rfl (by decide) <| .more rfl (by decide) <|
    .more rfl (by decide) <| .more rfl (by decide) <| .more rfl (by decide) <|
    .more rfl (by decide) <| .more rfl (by decide) <| .more rfl (by decide) <|
    .more rfl (by decide) <| .more rfl (by decide) <| .more rfl (by decide) <| .last rfl rfl
  suffices hparse : Graph.parse .standard "module \x7bop \x7bk\x7d \x7bk = 1\x7d\x7d" = .ok _ from
    ⟨hparse, Graph.attributes_merged hparse⟩
  refine (Graph.parse_iff_isModule hreads (fun _ _ => Iff.rfl) _).mpr (.intro
    (.intro rfl (by decide) (.missing (by decide)) (.missing fun h => absurd h.1 (by decide)) rfl
      (.more (by decide) (.operation (by decide) (.general (.intro
        (.none (.none (by decide) (by decide))) (.one rfl (by decide)) (.missing (by decide))
        (.bare (by decide) (.done (by decide))) (.missing (by decide))
        (.intro (.present rfl (.intro rfl (.more (by decide)
          (.intro (.unit rfl (by decide)) (.done (by decide))) (.done (by decide))) rfl)))
        (.intro (.missing (by decide)))) (by decide) (.intro (.missing (by decide)))
        (.dictionary rfl (by exact ⟨rfl, by decide⟩) (.intro rfl (.more (by decide)
          (.intro (.valued rfl rfl (.inner (by decide) (by decide) (by decide) (by decide)
            (.stop (by decide)))) (.done (by decide))) (.done (by decide))) rfl))
        (.intro (.missing (by decide))) (.missing fun h => absurd h.1 (by decide))))
        (.done (by decide))) rfl) rfl)

end GenericIR
