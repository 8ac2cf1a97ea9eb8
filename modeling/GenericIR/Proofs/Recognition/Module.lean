/-
# Functions and modules

Functions and modules agree with their phrases, and so the parser recognizes its grammar: a
source whose lexemes are found parses to a graph exactly where the grammar derives the graph
from them.

* `Parse.recognizes_function`, `Parse.recognizes_moduleText` : functions and modules;
* `Graph.parse_iff_isModule`, `Graph.parse_iff_derived` : whole sources.
-/
import GenericIR.Proofs.Recognition.Operation

namespace GenericIR

namespace Parse

section Productions

variable {fits : Nat → Prop}

/-! ## Functions -/

/-- A parameter of a function. -/
theorem recognizes_parameter : Recognizes fits parameter (Grammar.IsParameter fits) := by
  intro n p xs hp
  obtain ⟨x, xs, rfl⟩ := hp.exists_cons
  refine .consume hp (by decide) (fun hx r ys => ?_) fun hx q _ hat => ?_
  · rintro ⟨hkind, _, _, _, _⟩
    exact hx hkind
  · obtain ⟨y, ys, rfl⟩ := hat.exists_cons
    refine .consume hat (by decide) (fun hy r ys => ?_) fun hy q _ h₀ => ?_
    · rintro ⟨_, hkind, _, _, _⟩
      exact hy hkind
    · refine .congr (.bind (recognizes_type h₀) fun type _ _ _ _ h₁ =>
        .bind (recognizes_optionalAttributes .empty h₁) fun attributes _ _ _ _ h₂ =>
        .bind (recognizes_location h₂) fun location _ _ _ _ h₃ =>
        .pure h₃ fun _ _ => Iff.rfl) fun r zs => ⟨?_, ?_⟩
      · rintro ⟨_, _, htype, hentries, hlocation⟩
        exact ⟨_, _, htype, _, _, ⟨_, hentries, rfl⟩, _, _, hlocation, rfl, rfl⟩
      · rintro ⟨_, _, htype, _, _, ⟨_, hentries, rfl⟩, _, _, hlocation, rfl, rfl⟩
        exact .intro hx hy htype hentries hlocation

/-- The parameters of a function. -/
theorem recognizes_parameters :
    Recognizes fits parameters (Grammar.Enclosed (Grammar.IsParameter fits)) := by
  intro n p xs hp
  obtain ⟨x, xs, rfl⟩ := hp.exists_cons
  refine .consume hp (by decide) (fun hx r ys => ?_) fun hx q _ hat =>
    recognizes_enclosed recognizes_parameter composed_parameter hx hat
  rintro ⟨hkind, _, _⟩
  exact hx hkind

/-- A result of a function. -/
theorem recognizes_result : Recognizes fits result (Grammar.IsResult fits) := by
  intro n p xs hp
  refine .congr (.bind (recognizes_type hp) fun type _ _ _ _ h₁ =>
    .bind (recognizes_optionalAttributes .empty h₁) fun attributes _ _ _ _ h₂ =>
    .pure h₂ fun _ _ => Iff.rfl) fun r zs => ⟨?_, ?_⟩
  · rintro ⟨htype, hentries⟩
    exact ⟨_, _, htype, _, _, ⟨_, hentries, rfl⟩, rfl, rfl⟩
  · rintro ⟨_, _, htype, _, _, ⟨_, hentries, rfl⟩, rfl, rfl⟩
    exact .intro htype hentries

/-- The results of a function. -/
theorem recognizes_results : Recognizes fits results (Grammar.AreResults fits) := by
  intro n p xs hp
  obtain ⟨x, xs, rfl⟩ := hp.exists_cons
  refine .accept hp (by decide) (fun hx q _ hat => ?_) fun hx => ?_
  · refine .congr (recognizes_enclosed recognizes_result composed_result hx hat) fun r ys =>
      ⟨fun h => ?_, .enclosed⟩
    cases h with
    | enclosed h => exact h
    | bare hne _ => exact absurd hx hne
  · refine .congr (.map _ (recognizes_type hp)) fun r ys => ⟨fun h => ?_, ?_⟩
    · cases h with
      | enclosed h =>
          obtain ⟨hparen, _, _⟩ := h
          exact absurd hparen hx
      | bare _ h => exact ⟨_, h, rfl⟩
    · rintro ⟨_, h, rfl⟩
      exact .bare hx h

/-- The results behind their arrow; both may be missing. -/
theorem recognizes_resultsClause : Recognizes fits resultsClause fun xs r ys =>
    ∃ rs, Grammar.Optionally (·.kind = .arrow) (Grammar.After .arrow (Grammar.AreResults fits))
      xs rs ys ∧ r = rs.getD [] := by
  intro n p xs hp
  obtain ⟨x, xs, rfl⟩ := hp.exists_cons
  refine .optionallyMap (·.getD []) hp (fun hx => .accept hp (by decide) (fun _ q _ hat => ?_)
    fun hne => absurd hx hne) fun hx => ?_
  · refine .congr (recognizes_results hat) fun r ys => ⟨?_, fun h => ⟨_, .intro hx h, rfl⟩⟩
    rintro ⟨_, ⟨_, h⟩, rfl⟩
    exact h
  · rw [resultsClause, accept_bind, sees_bind_apply, hp.kind_eq, decide_eq_false hx]
    rfl

/-- The visibility of a function, if it is given. -/
theorem recognizes_visibility : Recognizes fits visibility
    (Grammar.Optionally Grammar.IsVisibility (Grammar.IsText .identifier)) := by
  intro n p xs hp
  obtain ⟨x, xs, rfl⟩ := hp.exists_cons
  have hiff : (x.kind = .identifier ∧ visibilities.any x.token.hasText) ↔
      Grammar.IsVisibility x := by
    rw [Grammar.IsVisibility, List.any_eq_true]
    rfl
  refine .optionally hp (fun hx => .look hp ?_) fun hx => ?_
  · rw [if_pos (hiff.mpr hx)]
    exact .text some hp (by decide) hx.1
  · rw [visibility, current_bind_apply, hp.faces.lookahead, if_neg (mt hiff.mp hx)]
    rfl

/-- The body of a function, if there is one. -/
theorem recognizes_functionBody : Recognizes fits functionBody
    (Grammar.Optionally (·.kind = .lbrace) (Grammar.IsBody fits)) := by
  intro n p xs hp
  obtain ⟨x, xs, rfl⟩ := hp.exists_cons
  refine .optionally hp (fun hx => .accept hp (by decide) (fun _ q _ hat => ?_)
    fun hne => absurd hx hne) fun hx => ?_
  · refine .congr (.bind (recognizes_itemsUntil _ recognizes_operation advances_operation hat)
      fun operations _ _ _ _ hat' => .closing hat' (by decide)) fun r ys => ⟨?_, ?_⟩
    · rintro ⟨_, ⟨_, h, hy⟩, rfl⟩
      exact ⟨_, _, h, _, rfl, hy, rfl⟩
    · rintro ⟨_, _, h, _, rfl, hy, rfl⟩
      exact ⟨_, .intro hx h hy, rfl⟩
  · rw [functionBody, accept_bind, sees_bind_apply, hp.kind_eq, decide_eq_false hx]
    rfl

/-- A function. -/
theorem recognizes_function : Recognizes fits function (Grammar.IsFunction fits) := by
  intro n p xs hp
  obtain ⟨x, xs, rfl⟩ := hp.exists_cons
  refine .consume hp (by decide) (fun hx f ys h => ?_) fun hx q _ h₀ => ?_
  · cases h with
    | intro hkind _ _ _ _ _ _ _ => exact hx hkind
  · let T (visibility : Option String) (ys : List Lexeme) (f : Function) (zs : List Lexeme) :
        Prop := ∃ y rest parameters xs₁ early xs₂ results xs₃ late xs₄ body,
      ys = y :: rest ∧ y.kind = .symbolRefId ∧
      Grammar.Enclosed (Grammar.IsParameter fits) rest parameters xs₁ ∧
      Grammar.MayHaveClause fits xs₁ early xs₂ ∧
      Grammar.Optionally (·.kind = .arrow) (Grammar.After .arrow (Grammar.AreResults fits))
        xs₂ results xs₃ ∧
      Grammar.MayHaveClause fits xs₃ late xs₄ ∧
      Grammar.Optionally (·.kind = .lbrace) (Grammar.IsBody fits) xs₄ body zs ∧
      f = ⟨dropSigil y.valueText, visibility, parameters, results.getD [],
        Attributes.empty.insertAll (early ++ late), body.getD [], body.isSome⟩
    refine .congr (.bind (T := T) (recognizes_visibility h₀) fun visibility q ys _ _ hat => ?_)
      fun f zs => ⟨fun h => ?_, ?_⟩
    · obtain ⟨y, rest, rfl⟩ := hat.exists_cons
      refine .consume hat (by decide) (fun hy f zs => ?_) fun hy q _ h₁ => ?_
      · rintro ⟨_, _, _, _, _, _, _, _, _, _, _, hys, hkind, _⟩
        cases hys
        exact hy hkind
      · refine .congr (.bind (recognizes_parameters h₁) fun parameters _ _ _ _ h₂ =>
          .bind (recognizes_attributesClause .empty h₂) fun early _ _ _ _ h₃ =>
          .bind (recognizes_resultsClause h₃) fun results _ _ _ _ h₄ =>
          .bind (recognizes_attributesClause early h₄) fun late _ _ _ _ h₅ =>
          .bind (recognizes_functionBody h₅) fun body _ _ _ _ h₆ =>
          .pure h₆ fun _ _ => Iff.rfl) fun f zs => ⟨?_, ?_⟩
        · rintro ⟨_, _, parameters, xs₁, early, xs₂, results, xs₃, late, xs₄, body, hys, _,
            hparameters, hearly, hresults, hlate, hbody, rfl⟩
          cases hys
          refine ⟨_, _, hparameters, _, _, ⟨early, hearly, rfl⟩, _, _, ⟨results, hresults, rfl⟩,
            _, _, ⟨late, hlate, rfl⟩, _, _, hbody, ?_, rfl⟩
          rw [insertAll_append]
        · rintro ⟨parameters, xs₁, hparameters, _, xs₂, ⟨early, hearly, rfl⟩, _, xs₃,
            ⟨results, hresults, rfl⟩, _, xs₄, ⟨late, hlate, rfl⟩, body, _, hbody, rfl, rfl⟩
          refine ⟨y, rest, parameters, xs₁, early, xs₂, results, xs₃, late, xs₄, body, rfl, hy,
            hparameters, hearly, hresults, hlate, hbody, ?_⟩
          rw [insertAll_append]
    · cases h with
      | intro _ hvisibility hy hparameters hearly hresults hlate hbody =>
          exact ⟨_, _, hvisibility, _, _, _, _, _, _, _, _, _, _, _, rfl, hy, hparameters, hearly,
            hresults, hlate, hbody, rfl⟩
    · rintro ⟨_, _, hvisibility, _, _, _, _, _, _, _, _, _, _, _, rfl, hy, hparameters, hearly,
        hresults, hlate, hbody, rfl⟩
      exact .intro hx hvisibility hy hparameters hearly hresults hlate hbody

/-- An item of a module. -/
theorem recognizes_moduleItem : Recognizes fits moduleItem (Grammar.IsItem fits) := by
  intro n p xs hp
  obtain ⟨x, xs, rfl⟩ := hp.exists_cons
  refine .look hp ?_
  by_cases hx : x.token.startsFunction = true
  · rw [if_pos hx]
    refine .congr (.map _ (recognizes_function hp)) fun item ys => ⟨fun h => ?_, ?_⟩
    · cases h with
      | function _ h => exact ⟨_, h, rfl⟩
      | operation hne _ => exact absurd hx hne
    · rintro ⟨f, h, rfl⟩
      exact .function hx h
  · rw [if_neg hx]
    refine .congr (.map _ (recognizes_operation hp)) fun item ys => ⟨fun h => ?_, ?_⟩
    · cases h with
      | function hstart _ => exact absurd hstart hx
      | operation _ h => exact ⟨_, h, rfl⟩
    · rintro ⟨op, h, rfl⟩
      exact .operation hx h

/-- The name of a module, if it has one. -/
theorem recognizes_moduleName : Recognizes fits moduleName fun xs r ys => ∃ name,
    Grammar.Optionally (·.kind = .symbolRefId) (Grammar.IsText .symbolRefId) xs name ys ∧
      r = name.map dropSigil := by
  intro n p xs hp
  obtain ⟨x, xs, rfl⟩ := hp.exists_cons
  refine .optionallyMap (·.map dropSigil) hp (fun hx => .sees hp (fun _ => ?_)
    fun hne => absurd hx hne) fun hx => ?_
  · exact .text (fun name => some (dropSigil name)) hp (by decide) hx
  · rw [moduleName, sees_bind_apply, hp.kind_eq, decide_eq_false hx]
    rfl

/-- A module up to its closing brace. -/
theorem recognizes_moduleText : Recognizes fits moduleText (Grammar.IsModuleText fits) := by
  intro n p xs hp
  obtain ⟨x, xs, rfl⟩ := hp.exists_cons
  refine .consumeText hp (by decide) (fun hx g ys => ?_) fun hx htext q _ h₀ => ?_
  · rintro ⟨hkind, htext, _, _, _, _, _⟩
    exact hx ⟨hkind, htext⟩
  · let T (name : Option String) (attributes : Attributes) (ys : List Lexeme) (g : Graph)
        (zs : List Lexeme) : Prop := ∃ o rest items c, ys = o :: rest ∧ o.kind = .lbrace ∧
      Grammar.Until [.rbrace, .eof] (Grammar.IsItem fits) rest items (c :: zs) ∧
      c.kind = .rbrace ∧ g = ⟨name, items.filterMap ModuleItem.function?,
        items.filterMap ModuleItem.operation?, attributes⟩
    refine .congr (.bind (recognizes_moduleName h₀) fun name _ _ _ _ h₁ =>
      .bind (T := T name) (recognizes_attributesClause .empty h₁) fun attributes q ys _ _ hat =>
        ?_) fun g zs => ⟨?_, ?_⟩
    · obtain ⟨o, rest, rfl⟩ := hat.exists_cons
      refine .consume hat (by decide) (fun ho g zs => ?_) fun ho q _ h₂ => ?_
      · rintro ⟨_, _, _, _, hys, hkind, _⟩
        cases hys
        exact ho hkind
      · refine .congr (.bind (recognizes_itemsUntil _ recognizes_moduleItem advances_moduleItem h₂)
          fun items _ _ _ _ h₃ => .closing h₃ (by decide)) fun g zs => ⟨?_, ?_⟩
        · rintro ⟨_, _, items, c, hys, _, hitems, hc, rfl⟩
          cases hys
          exact ⟨items, _, hitems, c, rfl, hc, rfl⟩
        · rintro ⟨items, _, hitems, c, rfl, hc, rfl⟩
          exact ⟨o, rest, items, c, rfl, ho, hitems, hc, rfl⟩
    · rintro ⟨_, _, hname, hentries, ho, hitems, hc⟩
      exact ⟨_, _, ⟨_, hname, rfl⟩, _, _, ⟨_, hentries, rfl⟩, _, _, _, _, rfl, ho, hitems, hc, rfl⟩
    · rintro ⟨_, _, ⟨_, hname, rfl⟩, _, _, ⟨_, hentries, rfl⟩, _, _, _, _, rfl, ho, hitems, hc,
        rfl⟩
      exact .intro hx htext hname hentries ho hitems hc

/-- A whole module: the parser gives a graph exactly where the grammar derives it. -/
theorem graph_iff {n : Nat} {p : Parser} {xs : List Lexeme} (hp : p.At fits n xs) (g : Graph) :
    (∃ q, graph p = .ok g q) ↔ Grammar.IsModule fits xs g := by
  have hmodule := recognizes_moduleText hp
  constructor
  · rintro ⟨r, hr⟩
    rw [graph, bind_apply] at hr
    split at hr
    · next g' q hq =>
        obtain ⟨ys, hys, hat⟩ := hmodule.sound g' q hq
        obtain ⟨e, rest, rfl⟩ := hat.exists_cons
        rw [bind_apply, consume, current_bind_apply, hat.faces.lookahead] at hr
        by_cases he : e.kind = .eof
        · obtain rfl := hat.faces.eq_nil_of_eof he
          obtain ⟨s, hs, _, _⟩ := hat.faces.advance_eof he
          rw [if_pos he, hs] at hr
          cases hr
          exact .intro hys he
        · rw [if_neg he, fail] at hr
          cases hr
    · cases hr
  · rintro ⟨h, he⟩
    obtain ⟨q, hq, hat⟩ := hmodule.complete g _ h
    obtain ⟨r, hr, _, _⟩ := hat.faces.advance_eof he
    refine ⟨r, ?_⟩
    rw [graph, bind_apply, hq]
    show (consume .eof >>= fun _ => (Pure.pure g : Parse Graph)) q = _
    rw [bind_apply, consume, current_bind_apply, hat.faces.lookahead, if_pos he, hr]
    rfl

end Productions

end Parse

/-! ## Whole sources -/

/-- Where the lexer finds the lexemes of a source, the source parses to a graph exactly where
the grammar, with the depths up to the bound on nesting, derives it. -/
theorem Graph.parse_iff_isModule {limits : Limits} {source : String} {xs : List Lexeme}
    (h : (Lexer.ofSource limits source).Reads xs) {fits : Nat → Prop}
    (hfits : ∀ d ≤ xs.length, d ≤ limits.maxNestingDepth ↔ fits d) (g : Graph) :
    Graph.parse limits source = .ok g ↔ Grammar.IsModule fits xs g := by
  obtain ⟨p, hp, hfaces, hlimits, _⟩ := Parser.faces_ofSource limits source xs h
  have hat : p.At fits xs.length xs := ⟨hfaces, Nat.le_refl _, by rwa [hlimits]⟩
  rw [← Parse.graph_iff hat g, Graph.parse, hp]
  dsimp only
  constructor
  · intro hok
    split at hok
    · next g' q hq =>
        cases hok
        exact ⟨q, hq⟩
    · cases hok
  · rintro ⟨q, hq⟩
    rw [hq]

/-- Where a source has tokens without a fault, no more of them than the bound on nesting, it
parses to a graph exactly where the grammar, with no bound in it, derives the graph from its
lexemes. -/
theorem Graph.parse_iff_derived {limits : Limits} {source : String} {tokens : List Token}
    {l : Lexer} (htokens : Lexer.tokenize (.ofSource limits source) = .ok tokens l)
    (hdepth : tokens.length ≤ limits.maxNestingDepth) :
    (Lexer.readAll (.ofSource limits source)).lexemes.map Lexeme.token = tokens ∧
      ∀ g, Graph.parse limits source = .ok g ↔
        Grammar.IsModule (fun _ => True) (Lexer.readAll (.ofSource limits source)).lexemes g := by
  obtain ⟨hfault, hmap, _⟩ := (Lexer.tokenize_eq_ok_iff _ _ _).mp htokens
  refine ⟨hmap, Graph.parse_iff_isModule ((Lexer.reads_iff _ _).mpr ⟨hfault, rfl⟩) fun d hd => ?_⟩
  rw [← hmap, List.length_map] at hdepth
  exact ⟨fun _ => trivial, fun _ => Nat.le_trans hd hdepth⟩

/-- A module with one operation: its six lexemes decide whether it parses to a graph. -/
theorem Graph.parse_add_iff :
    Graph.parse .standard "module \x7badd %x\x7d" =
        .ok ⟨none, [], [{ Operation.named "add" with inputs := ["%x"] }], .empty⟩ ↔
      Grammar.IsModule (fun _ => True)
        [⟨"", "module", ⟨.keyword, .text "module", ⟨⟨0, 1, 1⟩, 6⟩⟩⟩,
          ⟨" ", "\x7b", ⟨.lbrace, .text "\x7b", ⟨⟨7, 1, 8⟩, 1⟩⟩⟩,
          ⟨"", "add", ⟨.identifier, .text "add", ⟨⟨8, 1, 9⟩, 3⟩⟩⟩,
          ⟨" ", "%x", ⟨.valueId, .text "%x", ⟨⟨12, 1, 13⟩, 2⟩⟩⟩,
          ⟨"", "\x7d", ⟨.rbrace, .text "\x7d", ⟨⟨14, 1, 15⟩, 1⟩⟩⟩,
          ⟨"", "", ⟨.eof, .none, ⟨⟨15, 1, 16⟩, 0⟩⟩⟩]
        ⟨none, [], [{ Operation.named "add" with inputs := ["%x"] }], .empty⟩ := by
  have hreads : (Lexer.ofSource .standard "module \x7badd %x\x7d").Reads _ :=
    .more rfl (by decide) <| .more rfl (by decide) <| .more rfl (by decide) <|
    .more rfl (by decide) <| .more rfl (by decide) <| .last rfl rfl
  obtain ⟨hfault, hlexemes⟩ := (Lexer.reads_iff _ _).mp hreads
  have htokens := (Lexer.tokenize_eq_ok_iff _ _ _).mpr ⟨hfault, congrArg _ hlexemes, rfl⟩
  have hiff := (Graph.parse_iff_derived htokens (by decide)).2
    ⟨none, [], [{ Operation.named "add" with inputs := ["%x"] }], .empty⟩
  rwa [hlexemes] at hiff

end GenericIR
