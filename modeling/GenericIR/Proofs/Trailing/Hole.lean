/-
# The place of an operation in its source

A graph with one of its operations taken out has a hole, and the derivation of a graph with the
operation in the hole derives the operation from some run of the lexemes.  Another operation that
is derived from a run in the place of that one gives the graph with the other operation in the
hole.

* `Graph.Hole.exists_fill_iff` : the operations of a graph are those in its holes;
* `IsFront`, `IsBehind` : a module up to one of its operations, and what stands behind it;
* `OperationIn` : derivations of a module with the run of one operation marked in it;
* `IsModule.exists_operationIn`, `OperationIn.isModule` : the operation in a hole has its run;
* `OperationIn.replaced` : another operation in its place.
-/
import GenericIR.Proofs.Trailing.Operation
import GenericIR.Proofs.Trailing.Reading

namespace GenericIR

/-! ## Graphs with an operation taken out -/

/-- A graph with one of its operations taken out: one of the module, or one of a function. -/
inductive Graph.Hole where
  | ofModule (g : Graph) (before after : List Operation)
  | ofFunction (g : Graph) (before : List Function) (f : Function) (first last : List Operation)
    (after : List Function)

namespace Graph.Hole

/-- The graph with an operation in its hole. -/
def fill : Hole → Operation → Graph
  | ofModule g before after, op => { g with operations := before ++ op :: after }
  | ofFunction g before f first last after, op =>
    { g with functions := before ++ { f with operations := first ++ op :: last } :: after }

/-- The operations of a graph are those that fill one of its holes. -/
theorem exists_fill_iff {g : Graph} {op : Operation} :
    (∃ hole : Hole, hole.fill op = g) ↔ op ∈ g.allOperations := by
  constructor
  · rintro ⟨hole, rfl⟩
    cases hole with
    | ofModule g before after => simp [fill, allOperations]
    | ofFunction g before f first last after => simp [fill, allOperations]
  · intro hop
    rcases List.mem_append.mp hop with hop | hop
    · obtain ⟨before, after, hsplit⟩ := List.append_of_mem hop
      exact ⟨.ofModule g before after, by rw [fill, ← hsplit]⟩
    · obtain ⟨f, hf, hop⟩ := List.mem_flatMap.mp hop
      obtain ⟨before, after, hfunctions⟩ := List.append_of_mem hf
      obtain ⟨first, last, hoperations⟩ := List.append_of_mem hop
      exact ⟨.ofFunction g before f first last after, by rw [fill, ← hoperations, ← hfunctions]⟩

end Graph.Hole

namespace Grammar

variable {α : Type} {fits : Nat → Prop} {xs ys zs xs' ys' : List Lexeme}

/-! ## Items up to one of them -/

/-- Items that are read as long as the lookahead is of none of some kinds, up to any of them. -/
inductive Reaches (stops : List TokenKind) (item : Phrase α) : Phrase (List α) where
  | nil {xs : List Lexeme} : Reaches stops item xs [] xs
  | cons {x : Lexeme} {xs ys zs : List Lexeme} {a : α} {as : List α} (hx : x.kind ∉ stops)
      (h : item (x :: xs) a ys) (hrest : Reaches stops item ys as zs) :
      Reaches stops item (x :: xs) (a :: as) zs

section Items

variable {stops : List TokenKind} {item : Phrase α} {as bs : List α}

/-- Items up to a lookahead that ends them are read in two steps. -/
theorem until_append_iff : Until stops item xs (as ++ bs) zs ↔
    ∃ ys, Reaches stops item xs as ys ∧ Until stops item ys bs zs := by
  induction as generalizing xs with
  | nil =>
      constructor
      · exact fun h => ⟨xs, .nil, h⟩
      · rintro ⟨ys, hreach, h⟩
        cases hreach
        exact h
  | cons a as ih =>
      constructor
      · intro h
        cases h with
        | more hx hitem hrest =>
            obtain ⟨ys, hreach, hlater⟩ := ih.mp hrest
            exact ⟨ys, .cons hx hitem hreach, hlater⟩
      · rintro ⟨ys, hreach, h⟩
        cases hreach with
        | cons hx hitem hrest => exact .more hx hitem (ih.mpr ⟨ys, hrest, h⟩)

/-- What is left behind items is the end of the run. -/
theorem Reaches.suffix (hsuffix : LeavesSuffix item) (h : Reaches stops item xs as ys) :
    ys <:+ xs := by
  induction h with
  | nil => exact List.suffix_rfl
  | cons _ h _ ih => exact ih.trans (hsuffix h)

/-- Items in front of the same lookahead. -/
theorem Reaches.moved (hsuffix : LeavesSuffix item) (hitem : Moves Lexeme.Same item)
    (h : Reaches stops item xs as ys) (hm : Moved Lexeme.Same xs ys xs' ys') :
    Reaches stops item xs' as ys' := by
  induction h generalizing xs' with
  | nil =>
      cases hm with
      | here _ => exact .nil
      | cons _ h => exact absurd h.suffix (not_cons_suffix _ _)
  | cons hx h hrest ih =>
      obtain ⟨x', zs', rfl, hxx'⟩ := hm.head id
      obtain ⟨ws', hfront, hback⟩ := hm.split id (hsuffix h) (hrest.suffix hsuffix)
      exact .cons (hxx'.kind ▸ hx) (hitem h hfront) (ih hback)

end Items

/-! ## Modules up to their items -/

/-- A module up to its opening brace and with it, as its name and its attributes. -/
inductive IsOpening (fits : Nat → Prop) : Phrase (Option String × Attributes) where
  | intro {x o : Lexeme} {xs xs₁ ys : List Lexeme} {name : Option String}
      {entries : List (String × AttributeValue)} (hx : x.kind = .keyword)
      (htext : x.token.hasText "module")
      (hname : Optionally (·.kind = .symbolRefId) (IsText .symbolRefId) xs name xs₁)
      (hentries : MayHaveClause fits xs₁ entries (o :: ys)) (ho : o.kind = .lbrace) :
      IsOpening fits (x :: xs) (name.map dropSigil, Attributes.empty.insertAll entries) ys

/-- A module is its opening, its items and a closing brace before the end. -/
theorem isModule_iff {g : Graph} : IsModule fits xs g ↔ ∃ ys items c e,
    IsOpening fits xs (g.name, g.attributes) ys ∧
    Until [.rbrace, .eof] (IsItem fits) ys items [c, e] ∧ c.kind = .rbrace ∧ e.kind = .eof ∧
    g.functions = items.filterMap ModuleItem.function? ∧
    g.operations = items.filterMap ModuleItem.operation? := by
  constructor
  · rintro ⟨h, he⟩
    cases h with
    | intro hx htext hname hentries ho hitems hc =>
        exact ⟨_, _, _, _, .intro hx htext hname hentries ho, hitems, hc, he, rfl, rfl⟩
  · rintro ⟨ys, items, c, e, hopening, hitems, hc, he, hfunctions, hoperations⟩
    obtain ⟨name, functions, operations, attributes⟩ := g
    subst hfunctions hoperations
    cases hopening with
    | intro hx htext hname hentries ho =>
        exact .intro (.intro hx htext hname hentries ho hitems hc) he

/-- The opening of a module goes past its keyword. -/
theorem IsOpening.suffix_tail {x : Lexeme} {opening : Option String × Attributes}
    (h : IsOpening fits (x :: xs) opening ys) : ys <:+ xs := by
  cases h with
  | intro _ _ hname hentries _ =>
      exact ((List.suffix_cons _ _).trans hentries.suffix).trans (hname.suffix IsText.suffix)

/-- The opening of a module. -/
theorem IsOpening.suffix {opening : Option String × Attributes} (h : IsOpening fits xs opening ys) :
    ys <:+ xs := by
  cases xs with
  | nil => cases h
  | cons x xs => exact suffix_cons_of_suffix h.suffix_tail

/-- The opening of a module, whatever is behind it. -/
theorem IsOpening.moved {H : Lexeme → Lexeme → Prop} {opening : Option String × Attributes}
    (h : IsOpening fits xs opening ys) (hm : Moved H xs ys xs' ys') :
    IsOpening fits xs' opening ys' := by
  cases h with
  | intro hx htext hname hentries ho =>
      have hclause := hentries.suffix
      have hsymbol := hname.suffix IsText.suffix
      have hbrace := (List.suffix_cons _ _).trans (hclause.trans hsymbol)
      obtain ⟨x', zs', rfl, hxx', hrest⟩ := hm.past hbrace
      obtain ⟨o', hinside, hoo'⟩ := hrest.upTo (hclause.trans hsymbol)
      obtain ⟨xs₁', hm₁, hm₂⟩ := hinside.moved.split id hsymbol hclause
      refine .intro (hxx'.kind ▸ hx) ?_
        (hname.moved id (fun h => by rw [h.kind]) IsText.moved hm₁) (hentries.moved hm₂)
        (hoo'.same.kind ▸ ho)
      rw [Token.hasText, ← hxx'.value]
      exact htext

/-! ## What stands in front of an operation -/

/-- What a module has in front of one of its operations: its opening and items, and in the body of
a function that function and its operations. -/
inductive Front where
  | ofModule (opening : Option String × Attributes) (items : List ModuleItem)
  | ofFunction (opening : Option String × Attributes) (items : List ModuleItem) (f : Function)
    (first : List Operation)

/-- A module up to a lexeme where only an operation can be read. -/
inductive IsFront (fits : Nat → Prop) : Phrase Front where
  | ofModule {x : Lexeme} {xs xs₁ ws : List Lexeme} {opening : Option String × Attributes}
      {items : List ModuleItem} (hopening : IsOpening fits xs opening xs₁)
      (hitems : Reaches [.rbrace, .eof] (IsItem fits) xs₁ items (x :: ws))
      (hx : x.kind ∉ [.rbrace, .eof]) (hword : ¬ x.token.startsFunction) :
      IsFront fits xs (.ofModule opening items) (x :: ws)
  | ofFunction {w o x : Lexeme} {xs xs₁ vs us ws : List Lexeme}
      {opening : Option String × Attributes} {items : List ModuleItem} {f : Function}
      {first : List Operation} (hopening : IsOpening fits xs opening xs₁)
      (hitems : Reaches [.rbrace, .eof] (IsItem fits) xs₁ items (w :: vs))
      (hw : w.kind ∉ [.rbrace, .eof]) (hword : w.token.startsFunction)
      (hsignature : IsSignature fits (w :: vs) f (o :: us)) (ho : o.kind = .lbrace)
      (hfirst : Reaches [.rbrace, .eof] (IsOperation fits) us first (x :: ws))
      (hx : x.kind ∉ [.rbrace, .eof]) :
      IsFront fits xs (.ofFunction opening items f first) (x :: ws)

namespace IsFront

variable {front : Front} {ws ws' : List Lexeme}

/-- What is in front of an operation leaves the end of the run. -/
theorem suffix (h : IsFront fits xs front ws) : ws <:+ xs := by
  cases h with
  | ofModule hopening hitems _ _ => exact (hitems.suffix IsItem.suffix).trans hopening.suffix
  | ofFunction hopening hitems _ _ hsignature _ hfirst _ =>
      have hbody := (List.suffix_cons _ _).trans hsignature.suffix
      have hitem := hbody.trans ((hitems.suffix IsItem.suffix).trans hopening.suffix)
      exact (hfirst.suffix IsOperation.suffix).trans hitem

/-- What is in front of an operation stands before the same lookahead too. -/
theorem moved (h : IsFront fits xs front ws) (hm : Moved Lexeme.Same xs ws xs' ws') :
    IsFront fits xs' front ws' := by
  cases h with
  | ofModule hopening hitems hx hword =>
      obtain ⟨xs₁', hm₁, hm₂⟩ := hm.split id hopening.suffix (hitems.suffix IsItem.suffix)
      obtain ⟨x', _, rfl, hxx'⟩ := hm₂.ending id
      exact .ofModule (hopening.moved hm₁) (hitems.moved IsItem.suffix IsItem.moved hm₂)
        (hxx'.kind ▸ hx) fun hx' => hword ((startsFunction_iff hxx').mpr hx')
  | ofFunction hopening hitems hw hword hsignature ho hfirst hx =>
      -- what is left behind the parts in front of the operation
      have hus := hfirst.suffix IsOperation.suffix
      have hvs := (suffix_cons_of_suffix hus).trans hsignature.suffix
      obtain ⟨xs₁', hm₁, hm⟩ :=
        hm.split id hopening.suffix (hvs.trans (hitems.suffix IsItem.suffix))
      obtain ⟨_, hm₂, hm⟩ := hm.split id (hitems.suffix IsItem.suffix) hvs
      obtain ⟨w', _, rfl, hww'⟩ := hm₂.ending id
      obtain ⟨o', us', hm₃, hoo', hm₄⟩ := hm.before hsignature.suffix hus
      obtain ⟨x', _, rfl, hxx'⟩ := hm₄.moved.ending id
      exact .ofFunction (hopening.moved hm₁) (hitems.moved IsItem.suffix IsItem.moved hm₂)
        (hww'.kind ▸ hw) ((startsFunction_iff hww').mp hword) (hsignature.moved hm₃)
        (hoo'.kind ▸ ho) (hfirst.moved IsOperation.suffix IsOperation.moved hm₄.moved)
        (hxx'.kind ▸ hx)

end IsFront

/-! ## What stands behind an operation -/

/-- The closing brace before the end is found again among lexemes that stand again. -/
theorem exists_end_of_resumed {c e : Lexeme} {items : List ModuleItem} (hc : c.kind = .rbrace)
    (he : e.kind = .eof) (h : Until [.rbrace, .eof] (IsItem fits) xs items [c, e])
    (hresumed : Resumed xs xs') : ∃ c' e',
      Until [.rbrace, .eof] (IsItem fits) xs' items [c', e'] ∧ c'.kind = .rbrace ∧
      e'.kind = .eof := by
  obtain ⟨_, hmoved, hend⟩ :=
    hresumed.exists_moved (h.suffix IsItem.suffix) (List.cons_ne_nil c [e])
  cases hend with
  | intro hcc' hrest =>
      cases hrest with
      | cons hee' hnil =>
          cases hnil
          exact ⟨_, _, h.moved IsItem.suffix IsItem.moved hmoved, hcc'.kind ▸ hc,
            hee'.same.kind ▸ he⟩

/-- What stands behind an operation: the rest of a module whose graph has the operation in a
hole, with what is in front of it. -/
inductive IsBehind (fits : Nat → Prop) : Front → List Lexeme → Graph.Hole → Prop where
  | ofModule {g : Graph} {c e : Lexeme} {ys : List Lexeme} {items more : List ModuleItem}
      (hmore : Until [.rbrace, .eof] (IsItem fits) ys more [c, e]) (hc : c.kind = .rbrace)
      (he : e.kind = .eof)
      (hfunctions : g.functions = (items ++ more).filterMap ModuleItem.function?) :
      IsBehind fits (.ofModule (g.name, g.attributes) items) ys
        (.ofModule g (items.filterMap ModuleItem.operation?)
          (more.filterMap ModuleItem.operation?))
  | ofFunction {g : Graph} {f : Function} {b c e : Lexeme} {ys zs : List Lexeme}
      {items more : List ModuleItem} {first last : List Operation} (hbody : f.hasBody = true)
      (hlast : Until [.rbrace, .eof] (IsOperation fits) ys last (b :: zs)) (hb : b.kind = .rbrace)
      (hmore : Until [.rbrace, .eof] (IsItem fits) zs more [c, e]) (hc : c.kind = .rbrace)
      (he : e.kind = .eof)
      (hoperations : g.operations = (items ++ more).filterMap ModuleItem.operation?) :
      IsBehind fits (.ofFunction (g.name, g.attributes) items f first) ys
        (.ofFunction g (items.filterMap ModuleItem.function?) f first last
          (more.filterMap ModuleItem.function?))

/-- What stands behind an operation stands again behind another gap. -/
theorem IsBehind.resumed {front : Front} {hole : Graph.Hole} (h : IsBehind fits front ys hole)
    (hresumed : Resumed ys ys') : IsBehind fits front ys' hole := by
  cases h with
  | ofModule hmore hc he hfunctions =>
      obtain ⟨c', e', hmore', hc', he'⟩ := exists_end_of_resumed hc he hmore hresumed
      exact .ofModule hmore' hc' he' hfunctions
  | ofFunction hbody hlast hb hmore hc he hoperations =>
      obtain ⟨_, hmoved, hend⟩ :=
        hresumed.exists_moved (hlast.suffix IsOperation.suffix) (List.cons_ne_nil _ _)
      cases hend with
      | intro hbb' hrest =>
          have hne := (hmore.suffix IsItem.suffix).ne_nil (List.cons_ne_nil _ _)
          obtain ⟨c', e', hmore', hc', he'⟩ :=
            exists_end_of_resumed hc he hmore (.of_twins hrest hne)
          exact .ofFunction hbody (hlast.moved IsOperation.suffix IsOperation.moved hmoved)
            (hbb'.kind ▸ hb) hmore' hc' he' hoperations

/-- A token behind an operation starts a further item or closes a body. -/
theorem IsBehind.kind_mem {front : Front} {hole : Graph.Hole} (h : IsBehind fits front ys hole) :
    ∃ y zs, ys = y :: zs ∧ y.kind ∈ itemStarts := by
  have hoperation : ∀ {y : Lexeme} {zs vs : List Lexeme} {op : Operation},
      IsOperation fits (y :: zs) op vs → y.kind ∈ itemStarts := fun h =>
    List.mem_cons_of_mem _ h.kind_mem
  cases h with
  | ofModule hmore hc _ _ =>
      cases hmore with
      | done _ => exact ⟨_, _, rfl, by simp [hc, itemStarts, operationStarts]⟩
      | more _ hitem _ =>
          refine ⟨_, _, rfl, ?_⟩
          cases hitem with
          | function _ h =>
              cases h with
              | intro hx _ _ _ _ _ _ _ => exact hx ▸ List.mem_cons_self
          | operation _ h => exact hoperation h
  | ofFunction _ hlast hb _ _ _ _ =>
      cases hlast with
      | done _ => exact ⟨_, _, rfl, by simp [hb, itemStarts, operationStarts]⟩
      | more _ h _ => exact ⟨_, _, rfl, hoperation h⟩

/-! ## Derivations with a marked operation -/

/-- Derivations of a module with an operation in a hole of its graph that read the operation from
some run of the lexemes, which it leaves to another one. -/
inductive OperationIn (fits : Nat → Prop) (xs : List Lexeme) (hole : Graph.Hole) (ws : List Lexeme)
    (op : Operation) (ys : List Lexeme) : Prop where
  | intro {front : Front} (hfront : IsFront fits xs front ws) (hop : IsOperation fits ws op ys)
      (hbehind : IsBehind fits front ys hole) : OperationIn fits xs hole ws op ys

namespace OperationIn

variable {hole : Graph.Hole} {op : Operation} {ws : List Lexeme}

/-- A marked operation is an operation. -/
theorem isOperation (h : OperationIn fits xs hole ws op ys) : IsOperation fits ws op ys := by
  obtain ⟨_, hop, _⟩ := h
  exact hop

/-- The lexemes behind a marked operation are the end of all lexemes. -/
theorem suffix (h : OperationIn fits xs hole ws op ys) : ys <:+ xs := by
  obtain ⟨hfront, hop, _⟩ := h
  exact hop.suffix.trans hfront.suffix

/-- Lexemes that stand in front of another lookahead up to the end of an operation do so up to
its start and from there on. -/
theorem exists_moved {H : Lexeme → Lexeme → Prop} (h : OperationIn fits xs hole ws op ys)
    (hm : Moved H xs ys xs' ys') :
    ∃ ws', Moved Lexeme.Same xs ws xs' ws' ∧ Moved H ws ys ws' ys' := by
  obtain ⟨hfront, hop, _⟩ := h
  obtain ⟨x, vs, rfl⟩ : ∃ x vs, ws = x :: vs := by
    cases hfront <;> exact ⟨_, _, rfl⟩
  exact hm.split_before hfront.suffix hop.suffix_tail

/-- A token behind a marked operation starts a further item or closes a body. -/
theorem kind_mem (h : OperationIn fits xs hole ws op ys) :
    ∃ y zs, ys = y :: zs ∧ y.kind ∈ itemStarts := by
  obtain ⟨_, _, hbehind⟩ := h
  exact hbehind.kind_mem

end OperationIn

/-- A value among those that items have comes from an item among them. -/
theorem exists_split_of_filterMap {β : Type} {f : α → Option β} {items : List α} {bs cs : List β}
    {b : β} (h : bs ++ b :: cs = items.filterMap f) : ∃ before item after,
      items = before ++ item :: after ∧ before.filterMap f = bs ∧ f item = some b ∧
      after.filterMap f = cs := by
  obtain ⟨front, back, rfl, hfront, hback⟩ := List.filterMap_eq_append_iff.mp h.symm
  obtain ⟨others, item, after, rfl, hnone, hitem, hafter⟩ := List.filterMap_eq_cons_iff.mp hback
  refine ⟨front ++ others, item, after, (List.append_assoc _ _ _).symm, ?_, hitem, hafter⟩
  rw [List.filterMap_append, hfront, List.filterMap_eq_nil_iff.mpr hnone, List.append_nil]

/-- **The operation in a hole has its run.** -/
theorem IsModule.exists_operationIn {hole : Graph.Hole} {op : Operation}
    (h : IsModule fits xs (hole.fill op)) : ∃ ws ys, OperationIn fits xs hole ws op ys := by
  obtain ⟨xs₁, items, c, e, hopening, hitems, hc, he, hfunctions, hoperations⟩ := isModule_iff.mp h
  cases hole with
  | ofModule g before after =>
      replace hopening : IsOpening fits xs (g.name, g.attributes) xs₁ := hopening
      replace hfunctions : g.functions = _ := hfunctions
      obtain ⟨items, item, more, rfl, rfl, hitem, rfl⟩ := exists_split_of_filterMap hoperations
      obtain ⟨ws, hreach, hrest⟩ := until_append_iff.mp hitems
      obtain rfl : item = .operation op := by
        cases item with
        | function f => cases hitem
        | operation op' => exact congrArg _ (Option.some.inj hitem)
      cases hrest with
      | more hx hop hmore =>
          cases hop with
          | operation hword hop =>
              refine ⟨_, _, .intro (.ofModule hopening hreach hx hword) hop
                (.ofModule hmore hc he (hfunctions.trans ?_))⟩
              rw [List.filterMap_append, List.filterMap_append]
              rfl
  | ofFunction g before f first last after =>
      replace hopening : IsOpening fits xs (g.name, g.attributes) xs₁ := hopening
      replace hoperations : g.operations = _ := hoperations
      obtain ⟨items, item, more, rfl, rfl, hitem, rfl⟩ := exists_split_of_filterMap hfunctions
      obtain ⟨ws, hreach, hrest⟩ := until_append_iff.mp hitems
      obtain rfl : item = .function { f with operations := first ++ op :: last } := by
        cases item with
        | function f' => exact congrArg _ (Option.some.inj hitem)
        | operation op' => cases hitem
      cases hrest with
      | more hw hfunction hmore =>
          cases hfunction with
          | function hword hfunction =>
              obtain ⟨vs, body, hsignature, hbody, hall, hhas⟩ := isFunction_iff.mp hfunction
              cases hbody with
              | missing _ => exact absurd hall (by simp)
              | present ho hbody =>
                  cases hbody with
                  | intro ho' hall' hb =>
                      obtain rfl : first ++ op :: last = _ := hall
                      obtain ⟨us, hfirst, hlast⟩ := until_append_iff.mp hall'
                      cases hlast with
                      | more hx hop hlast =>
                          have hsignature := hsignature.withBody f.operations f.hasBody
                          refine ⟨_, _, .intro (.ofFunction hopening hreach hw hword hsignature ho
                            hfirst hx) hop (.ofFunction hhas hlast hb hmore hc he
                              (hoperations.trans ?_))⟩
                          rw [List.filterMap_append, List.filterMap_append]
                          rfl

/-- A derivation with a marked operation is one of the module with the operation in the hole. -/
theorem OperationIn.isModule {hole : Graph.Hole} {op : Operation} {ws : List Lexeme}
    (h : OperationIn fits xs hole ws op ys) : IsModule fits xs (hole.fill op) := by
  obtain ⟨hfront, hop, hbehind⟩ := h
  cases hbehind with
  | ofModule hmore hc he hfunctions =>
      cases hfront with
      | ofModule hopening hitems hx hword =>
          have hall := until_append_iff.mpr ⟨_, hitems, .more hx (.operation hword hop) hmore⟩
          refine isModule_iff.mpr ⟨_, _, _, _, hopening, hall, hc, he, hfunctions.trans ?_, ?_⟩
          · rw [List.filterMap_append, List.filterMap_append]
            rfl
          · rw [List.filterMap_append]
            rfl
  | ofFunction hbody hlast hb hmore hc he hoperations =>
      cases hfront with
      | ofFunction hopening hitems hw hword hsignature ho hfirst hx =>
          have hinside := until_append_iff.mpr ⟨_, hfirst, .more hx hop hlast⟩
          have hfunction := isFunction_iff.mpr ⟨_, _, hsignature.withBody _ _,
            .present ho (.intro ho hinside hb), rfl, hbody⟩
          have hall := until_append_iff.mpr ⟨_, hitems, .more hw (.function hword hfunction) hmore⟩
          refine isModule_iff.mpr ⟨_, _, _, _, hopening, hall, hc, he, ?_, hoperations.trans ?_⟩
          · rw [List.filterMap_append]
            rfl
          · rw [List.filterMap_append, List.filterMap_append]
            rfl

/-- **Another operation in the place of one.**  Where the lexemes around an operation stand in
another run, an operation that is read between them is marked in its place. -/
theorem OperationIn.replaced {hole : Graph.Hole} {op op' : Operation} {ws ws' : List Lexeme}
    (h : OperationIn fits xs hole ws op ys) (hm : Moved Lexeme.Same xs ws xs' ws')
    (hop' : IsOperation fits ws' op' ys') (hresumed : Resumed ys ys') :
    OperationIn fits xs' hole ws' op' ys' := by
  obtain ⟨hfront, _, hbehind⟩ := h
  exact .intro (hfront.moved hm) hop' (hbehind.resumed hresumed)

end Grammar

end GenericIR
