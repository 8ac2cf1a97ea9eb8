/-
# Sources and layout

Blanks and comments between tokens say nothing: a source whose tokens stand apart and touch
as those of another one parses where the other does, to the same graph, or fails with the same
fault.  Only the bodies, regions and locations, which are kept as they are written, show the
gaps in them.

* `Graph.parse_of_relaid` : sources with the same tokens and other gaps between them.
-/
import Mathlib
import GenericIR.Proofs.Layout.Grammar

namespace GenericIR

/-! ## What does not depend on the layout -/

/-- A parameter with nothing in the text of its location. -/
def Parameter.withoutTexts (p : Parameter) : Parameter := { p with location := blankText p.location }

/-- A function with nothing in the texts that are kept as they are written. -/
def Function.withoutTexts (f : Function) : Function :=
  { f with parameters := f.parameters.map Parameter.withoutTexts,
           operations := f.operations.map Operation.withoutTexts }

/-- A graph with nothing in the texts that are kept as they are written. -/
def Graph.withoutTexts (g : Graph) : Graph :=
  { g with functions := g.functions.map Function.withoutTexts,
           operations := g.operations.map Operation.withoutTexts }

/-- Items that are the same but for the texts that are kept as they are written. -/
inductive SameItem : ModuleItem → ModuleItem → Prop where
  | function {f f' : Function} (h : f.withoutTexts = f'.withoutTexts) :
      SameItem (.function f) (.function f')
  | operation {op op' : Operation} (h : SameOperation op op') :
      SameItem (.operation op) (.operation op')

/-- Items of lists in turn that a function takes to the same are taken to the same lists. -/
theorem map_eq_of_forall₂ {α β : Type} {f : α → β} {as as' : List α}
    (h : List.Forall₂ (fun a a' => f a = f a') as as') : as.map f = as'.map f := by
  induction h with
  | nil => rfl
  | cons h _ ih => rw [List.map_cons, List.map_cons, h, ih]

/-- The functions and the operations of items that are the same are the same. -/
theorem map_items_of_forall₂ {items items' : List ModuleItem}
    (h : List.Forall₂ SameItem items items') :
    (items.filterMap ModuleItem.function?).map Function.withoutTexts =
        (items'.filterMap ModuleItem.function?).map Function.withoutTexts ∧
      (items.filterMap ModuleItem.operation?).map Operation.withoutTexts =
        (items'.filterMap ModuleItem.operation?).map Operation.withoutTexts := by
  induction h with
  | nil => exact ⟨rfl, rfl⟩
  | cons h _ ih =>
      cases h with
      | function h => exact ⟨congrArg₂ List.cons h ih.1, ih.2⟩
      | operation h => exact ⟨ih.1, congrArg₂ List.cons h ih.2⟩

namespace Parse

/-! ## Functions -/

/-- A visibility is the same. -/
theorem indifferent_visibility : Indifferent visibility :=
  .look fun _ _ _ _ => .ite Iff.rfl
    (fun _ => .past fun _ _ h => .pure (by rw [h.valueText])) fun _ => .pure rfl

/-- A parameter agrees but for the text of its location. -/
theorem agrees_parameter :
    Agrees (fun p p' => p.withoutTexts = p'.withoutTexts) parameter parameter := by
  refine .bind (.consume _) fun x x' h => .bind (.consume _) fun _ _ _ =>
    .bind_eq indifferent_type fun _ => .bind_eq (indifferent_optionalAttributes _) fun _ =>
    .bind agrees_location fun location location' hlocation => .pure ?_
  rw [Parameter.withoutTexts, Parameter.withoutTexts, h.valueText, hlocation]

/-- The parameters agree but for the texts of their locations. -/
theorem agrees_parameters :
    Agrees (List.Forall₂ fun p p' => p.withoutTexts = p'.withoutTexts) parameters parameters :=
  .bind (.consume _) fun _ _ _ => agrees_enclosed composed_parameter agrees_parameter

/-- A result with its attributes is the same. -/
theorem indifferent_result : Indifferent result :=
  .bind_eq indifferent_type fun _ => .bind_eq (indifferent_optionalAttributes _) fun _ => .pure rfl

/-- The results behind an arrow are the same. -/
theorem indifferent_resultsClause : Indifferent resultsClause := by
  refine .bind_eq (.accept _) fun _ => .ite Iff.rfl (fun _ => ?_) fun _ => .pure rfl
  refine .bind_eq (.accept _) fun _ => .ite Iff.rfl (fun _ => ?_) fun _ => ?_
  · exact agrees_list (agrees_enclosed composed_result indifferent_result)
  · exact .bind_eq indifferent_type fun _ => .pure rfl

/-- The body of a function agrees but for the texts in its operations. -/
theorem agrees_functionBody :
    Agrees (fun body body' => body.isSome = body'.isSome ∧
      (body.getD []).map Operation.withoutTexts = (body'.getD []).map Operation.withoutTexts)
      functionBody functionBody :=
  .bind_eq (.accept _) fun _ => .ite Iff.rfl
    (fun _ => .bind (agrees_itemsUntil _ advances_operation agrees_operation) fun _ _ h =>
      .bind (.consume _) fun _ _ _ => .pure ⟨rfl, map_eq_of_forall₂ h⟩) fun _ => .pure ⟨rfl, rfl⟩

/-- A function agrees but for its texts. -/
theorem agrees_function :
    Agrees (fun f f' => f.withoutTexts = f'.withoutTexts) function function := by
  refine .bind (.consume _) fun _ _ _ => .bind_eq indifferent_visibility fun _ =>
    .bind (.consume _) fun x x' h => .bind agrees_parameters fun params params' hparams =>
    .bind_eq (indifferent_attributesClause _) fun _ => .bind_eq indifferent_resultsClause fun _ =>
    .bind_eq (indifferent_attributesClause _) fun _ =>
    .bind agrees_functionBody fun body body' hbody => .pure ?_
  simp only [Function.withoutTexts, h.valueText, map_eq_of_forall₂ hparams, hbody]

/-! ## Modules -/

/-- An item of a module agrees but for its texts. -/
theorem agrees_moduleItem : Agrees SameItem moduleItem moduleItem :=
  .look fun _ _ _ _ => .ite Iff.rfl
    (fun _ => .bind agrees_function fun _ _ h => .pure (.function h)) fun _ =>
    .bind agrees_operation fun _ _ h => .pure (.operation h)

/-- A module agrees but for its texts. -/
theorem agrees_graph : Agrees (fun g g' => g.withoutTexts = g'.withoutTexts) graph graph := by
  have hname : Indifferent moduleName :=
    .bind_eq (.sees _) fun _ => .ite Iff.rfl
      (fun _ => .past fun _ _ h => .pure (by rw [h.valueText])) fun _ => .pure rfl
  have htext : Agrees (fun g g' => g.withoutTexts = g'.withoutTexts) moduleText moduleText := by
    refine .bind (.consumeText _ _) fun _ _ _ => .bind_eq hname fun _ =>
      .bind_eq (indifferent_attributesClause _) fun _ => .bind (.consume _) fun _ _ _ =>
      .bind (agrees_itemsUntil _ advances_moduleItem agrees_moduleItem) fun items items' h =>
      .bind (.consume _) fun _ _ _ => .pure ?_
    obtain ⟨hfunctions, hoperations⟩ := map_items_of_forall₂ h
    rw [Graph.withoutTexts, Graph.withoutTexts, hfunctions, hoperations]
  exact .bind htext fun _ _ h => .bind (.consume _) fun _ _ _ => .pure h

end Parse

/-! ## Whole sources -/

/-- Where a source has tokens without a fault, a source with the same tokens and other gaps
between them parses to a graph that is the same but for the texts that are kept as they are
written, or both sources fail with one fault. -/
theorem Graph.parse_of_relaid {limits : Limits} {source source' : String} {tokens : List Token}
    {l : Lexer} (htokens : Lexer.tokenize (.ofSource limits source) = .ok tokens l)
    (hrelaid : Relaid limits source source') :
    (∃ g g', Graph.parse limits source = .ok g ∧ Graph.parse limits source' = .ok g' ∧
      g.withoutTexts = g'.withoutTexts) ∨
    ∃ d d', Graph.parse limits source = .error d ∧ Graph.parse limits source' = .error d' ∧
      d.fault = d'.fault := by
  obtain ⟨hfault, _, _⟩ := (Lexer.tokenize_eq_ok_iff _ _ _).mp htokens
  have hreads := (Lexer.reads_iff _ _).mpr ⟨hfault, rfl⟩
  obtain ⟨x, x', ys, ys', heq, hreads', hsame, halike⟩ :=
    Lexer.exists_reads_of_relays hreads hrelaid .start
  rw [heq] at hreads
  obtain ⟨p, hp, hfaces, hlimits, _⟩ := Parser.faces_ofSource limits source _ hreads
  obtain ⟨p', hp', hfaces', hlimits', _⟩ := Parser.faces_ofSource limits source' _ hreads'
  have hlike : p.Like p' ys ys' := by
    have hx := hfaces.lookahead
    have hx' := hfaces'.lookahead
    rw [← hx] at hfaces hsame
    rw [← hx'] at hfaces' hsame
    exact ⟨hlimits.trans hlimits'.symm, hfaces, hfaces', hsame, halike⟩
  have hagree := Parse.agrees_graph p p' ys ys' hlike
  rw [Graph.parse, Graph.parse, hp, hp']
  dsimp only
  generalize Parse.graph p = r at hagree
  generalize Parse.graph p' = r' at hagree
  cases hagree with
  | ok h _ => exact Or.inl ⟨_, _, rfl, rfl, h⟩
  | error h =>
      refine Or.inr ⟨_, _, rfl, rfl, ?_⟩
      rw [Diagnostic.fault_inSource, Diagnostic.fault_inSource, h]

/-- A parameter with a location, and the same with other gaps: the two graphs differ in the text of
the location alone. -/
theorem Graph.parse_of_relaid_location :
    ∃ g g', Graph.parse .standard "module \x7bfunc @f(%a: i32 loc(a b))\x7d" = .ok g ∧
      Graph.parse .standard "\tmodule\n\x7bfunc @f(%a: i32 /*c*/ loc(a\n\nb))\x7d //d\n" = .ok g' ∧
      g.withoutTexts = g'.withoutTexts ∧
      g.functions.map (·.parameters.map Parameter.location) = [[some "loc(a b)"]] ∧
      g'.functions.map (·.parameters.map Parameter.location) = [[some "loc(a\n\nb)"]] := by
  have hfirst : Graph.parse .standard "module \x7bfunc @f(%a: i32 loc(a b))\x7d" =
      .ok ⟨none, [⟨"f", none, [⟨"%a", "i32", .empty, some "loc(a b)"⟩], [], .empty, [], false⟩], [],
        .empty⟩ := by cbv
  have hsecond : Graph.parse .standard
      "\tmodule\n\x7bfunc @f(%a: i32 /*c*/ loc(a\n\nb))\x7d //d\n" =
        .ok ⟨none, [⟨"f", none, [⟨"%a", "i32", .empty, some "loc(a\n\nb)"⟩], [], .empty, [],
          false⟩], [], .empty⟩ := by cbv
  -- names are read by a recursion that does not unfold by itself
  have hsymbol : Lexer.next ⟨.standard, ⟨12, 1, 13⟩, " @f(%a: i32 loc(a b))\x7d".toList⟩ =
      .ok ⟨" ", "@f", ⟨.symbolRefId, .text "@f", ⟨⟨13, 1, 14⟩, 2⟩⟩⟩
        ⟨.standard, ⟨15, 1, 16⟩, "(%a: i32 loc(a b))\x7d".toList⟩ := by cbv
  have hvalue : Lexer.next ⟨.standard, ⟨16, 1, 17⟩, "%a: i32 loc(a b))\x7d".toList⟩ =
      .ok ⟨"", "%a", ⟨.valueId, .text "%a", ⟨⟨16, 1, 17⟩, 2⟩⟩⟩
        ⟨.standard, ⟨18, 1, 19⟩, ": i32 loc(a b))\x7d".toList⟩ := by cbv
  have hreads : (Lexer.ofSource .standard "module \x7bfunc @f(%a: i32 loc(a b))\x7d").Reads _ :=
    .more rfl (by decide) <| .more rfl (by decide) <| .more rfl (by decide) <|
    .more hsymbol (by decide) <| .more rfl (by decide) <| .more hvalue (by decide) <|
    .more rfl (by decide) <| .more rfl (by decide) <| .more rfl (by decide) <|
    .more rfl (by decide) <| .more rfl (by decide) <| .more rfl (by decide) <|
    .more rfl (by decide) <| .more rfl (by decide) <| .more rfl (by decide) <| .last rfl rfl
  obtain ⟨hfault, hlexemes⟩ := (Lexer.reads_iff _ _).mp hreads
  have htokens := (Lexer.tokenize_eq_ok_iff _ _ _).mpr ⟨hfault, congrArg _ hlexemes, rfl⟩
  -- the gaps of the second source
  have hblanks : ∀ g ∈ [[' '], ['\t'], ['\n'], ['\n', '\n']], Separates g := by
    simp only [List.mem_cons, List.not_mem_nil, or_false]
    rintro _ (rfl | rfl | rfl | rfl)
    · exact ⟨.blank (by decide) .nil, _, _, rfl, by decide⟩
    · exact ⟨.blank (by decide) .nil, _, _, rfl, by decide⟩
    · exact ⟨.blank (by decide) .nil, _, _, rfl, by decide⟩
    · exact ⟨.blank (by decide) (.blank (by decide) .nil), _, _, rfl, by decide⟩
  have hblock : Separates [' ', '/', '*', 'c', '*', '/', ' '] :=
    ⟨.blank (by decide) (@Layout.block ['c'] [' '] (by decide) (.blank (by decide) .nil)),
      _, _, rfl, by decide⟩
  have hline : Separates [' ', '/', '/', 'd', '\n'] :=
    ⟨.blank (by decide) (@Layout.line ['d'] [] (by decide) .nil), _, _, rfl, by decide⟩
  have hrelaid : Relaid .standard "module \x7bfunc @f(%a: i32 loc(a b))\x7d"
      "\tmodule\n\x7bfunc @f(%a: i32 /*c*/ loc(a\n\nb))\x7d //d\n" := by
    rw [Relaid, hlexemes]
    refine @Relays.token _ _ ['\t'] _ (by decide) (Or.inr (hblanks _ (by decide))) ?_
    refine @Follows.token _ _ ['\n'] _ (by decide) (hblanks _ (by decide)) ?_
    refine @Follows.token _ _ [] _ (by decide) rfl ?_
    refine @Follows.token _ _ [' '] _ (by decide) (hblanks _ (by decide)) ?_
    refine @Follows.token _ _ [] _ (by decide) rfl ?_
    refine @Follows.token _ _ [] _ (by decide) rfl ?_
    refine @Follows.token _ _ [] _ (by decide) rfl ?_
    refine @Follows.token _ _ [' '] _ (by decide) (hblanks _ (by decide)) ?_
    refine @Follows.token _ _ [' ', '/', '*', 'c', '*', '/', ' '] _ (by decide) hblock ?_
    refine @Follows.token _ _ [] _ (by decide) rfl ?_
    refine @Follows.token _ _ [] _ (by decide) rfl ?_
    refine @Follows.token _ _ ['\n', '\n'] _ (by decide) (hblanks _ (by decide)) ?_
    refine @Follows.token _ _ [] _ (by decide) rfl ?_
    refine @Follows.token _ _ [] _ (by decide) rfl ?_
    refine @Follows.token _ _ [] _ (by decide) rfl ?_
    exact .ending rfl (Or.inr hline)
  rcases Graph.parse_of_relaid htokens hrelaid with ⟨g, g', hg, hg', hsame⟩ | ⟨d, _, hd, _⟩
  · obtain rfl := Except.ok.inj (hfirst.symm.trans hg)
    obtain rfl := Except.ok.inj (hsecond.symm.trans hg')
    exact ⟨_, _, hg, hg', hsame, rfl, rfl⟩
  · rw [hfirst] at hd
    cases hd

end GenericIR
