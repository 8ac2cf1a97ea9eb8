/-
# Modules joined by their functions

A function with a body ends with its closing brace, and what is behind it does not matter.  So
modules of functions, each ending with a body, can be joined: the functions of the module whose
braces hold all their texts, on lines of their own, are those of the single modules in order.

* `Until.append_items` : items that end with a body, in front of further items;
* `Graph.parse_functions_joined` : modules of functions are joined.
-/
import GenericIR.Proofs.Brackets.Balance
import GenericIR.Proofs.Joined.Operation
import GenericIR.Proofs.Joined.Reading
import GenericIR.Proofs.Recognition.Module

namespace GenericIR

/-! ## Items in front of further items -/

namespace Grammar

variable {fits : Nat → Prop} {xs ys zs xs' ys' : List Lexeme} {items more : List ModuleItem}

/-- Whether the last of some items, if there is one, is a function with a body. -/
def EndsWithBody (items : List ModuleItem) : Prop :=
  ∀ item ∈ items.getLast?, ∃ f, item = .function f ∧ f.hasBody

/-- The items of a module that end with a body are the same items in front of further ones. -/
theorem Until.append_items {stops : List TokenKind} (h : Until stops (IsItem fits) xs items ys)
    (hbody : EndsWithBody items) (hm : Moved (fun _ _ => True) xs ys xs' ys')
    (hmore : Until stops (IsItem fits) ys' more zs) :
    Until stops (IsItem fits) xs' (items ++ more) zs := by
  refine h.append_moved IsItem.suffix_tail IsItem.suffix IsItem.moved ?_ hm hmore
  rintro front item ws ws' rfl _ hitem hmoved
  -- the last item is a function with a body, which no lookahead goes on with
  obtain ⟨f, rfl, hf⟩ := hbody item (by simp)
  cases hitem with
  | function hword h =>
      obtain ⟨x', zs', rfl, hxx', _⟩ := hmoved.past h.suffix_tail
      refine .function ((startsFunction_iff hxx').mp hword) (h.moved (fun hnone => ?_) hmoved)
      rw [hf] at hnone
      cases hnone

/-- A module whose brace follows its keyword has neither a name nor attributes. -/
theorem isModule_iff_of_brace {x o : Lexeme} {g : Graph} (hx : x.kind = .keyword)
    (htext : x.token.hasText "module") (ho : o.kind = .lbrace) :
    IsModule fits (x :: o :: xs) g ↔ ∃ items c e,
      Until [.rbrace, .eof] (IsItem fits) xs items [c, e] ∧ c.kind = .rbrace ∧ e.kind = .eof ∧
      g = ⟨none, items.filterMap ModuleItem.function?, items.filterMap ModuleItem.operation?,
        .empty⟩ := by
  have hname : o.kind ≠ .symbolRefId := by rw [ho]; decide
  have hword : ¬ IsAttributesWord o := fun h => by rw [IsAttributesWord, ho] at h; cases h.1
  constructor
  · rintro ⟨h, he⟩
    cases h with
    | intro _ _ hsymbol hentries _ hitems hc =>
        obtain ⟨rfl, rfl⟩ := hsymbol.of_not hname
        obtain ⟨rfl, hbrace⟩ := hentries.of_not hword
        cases hbrace
        exact ⟨_, _, _, hitems, hc, he, rfl⟩
  · rintro ⟨items, c, e, hitems, hc, he, rfl⟩
    exact .intro (.intro hx htext (.missing hname) (.missing hword) ho hitems hc) he

end Grammar

/-! ## Texts between the braces of a module -/

namespace Lexer

/-- The keyword of a module and its opening brace are read in front of any text. -/
theorem readsTo_module_brace (limits : Limits) (rest : List Char) :
    ReadsTo ⟨limits, .start, "module \x7b".toList ++ rest⟩
      [⟨"", "module", ⟨.keyword, .text "module", ⟨⟨0, 1, 1⟩, 6⟩⟩⟩,
        ⟨" ", "\x7b", ⟨.lbrace, .text "\x7b", ⟨⟨7, 1, 8⟩, 1⟩⟩⟩]
      ⟨limits, ⟨8, 1, 9⟩, rest⟩ :=
  .cons rfl (by decide) (.cons rfl (by decide) .nil)

/-- A closing brace behind a layout is read in front of any text. -/
theorem exists_next_rbrace (limits : Limits) (p : Place) {g : List Char} (hg : Layout g)
    (rest : List Char) : ∃ c q, next ⟨limits, p, g ++ '\x7d' :: rest⟩ = .ok c ⟨limits, q, rest⟩ ∧
      c.kind = .rbrace := by
  have hgap : gap (g ++ ['\x7d'] ++ rest) = g := by
    rw [List.append_assoc]
    exact gap_append hg (gap_cons (by decide) (by decide) rest)
  rw [List.append_assoc] at hgap
  exact ⟨_, _, @next_chunk limits p ⟨g, ['\x7d'], (.rbrace, .text "\x7d")⟩ rest hgap
    ⟨'\x7d', [], rfl, rfl⟩, rfl⟩

/-- A closing brace behind a layout at the end of a text is read, and then the end. -/
theorem exists_reads_rbrace (limits : Limits) (p : Place) {g : List Char} (hg : Layout g) :
    ∃ c e, Reads ⟨limits, p, g ++ ['\x7d']⟩ [c, e] ∧ c.kind = .rbrace ∧ e.kind = .eof := by
  obtain ⟨c, q, hc, hkind⟩ := exists_next_rbrace limits p hg []
  refine ⟨c, _, .more hc ?_ (.last (next_of_rest_nil ⟨limits, q, []⟩ rfl) rfl), hkind, rfl⟩
  rw [hkind]
  decide

end Lexer

/-- A text that holds functions, the last of them with a body: the lexemes in it, and the gap
between them and the brace behind the text. -/
inductive HoldsItems (limits : Limits) : String → List Function → Prop where
  | intro {text : String} {functions : List Function} {x c e : Lexeme} {xs : List Lexeme}
      {gap : List Char} {p q : Place} (htext : text.toList = spelled (x :: xs) ++ gap)
      (hgap : Layout gap)
      (hreads : Lexer.ReadsTo ⟨limits, p, text.toList ++ ['\x7d']⟩ (x :: xs)
        ⟨limits, q, gap ++ ['\x7d']⟩)
      (hitems : Grammar.Until [.rbrace, .eof] (Grammar.IsItem (· ≤ limits.maxNestingDepth))
        (x :: xs ++ [c, e]) (functions.map ModuleItem.function) [c, e])
      (hbody : Grammar.EndsWithBody (functions.map ModuleItem.function)) :
      HoldsItems limits text functions

/-- Functions are the functions of items, and there are no operations among them. -/
theorem filterMap_map_function (functions : List Function) :
    (functions.map ModuleItem.function).filterMap ModuleItem.function? = functions ∧
      (functions.map ModuleItem.function).filterMap ModuleItem.operation? = [] := by
  induction functions with
  | nil => exact ⟨rfl, rfl⟩
  | cons f functions ih => exact ⟨congrArg (f :: ·) ih.1, ih.2⟩

/-- Items with no operation among them are functions. -/
theorem eq_map_function_of_filterMap_operation? {items : List ModuleItem}
    (h : items.filterMap ModuleItem.operation? = []) :
    items = (items.filterMap ModuleItem.function?).map ModuleItem.function := by
  induction items with
  | nil => rfl
  | cons item items ih =>
      cases item with
      | function f => exact congrArg (ModuleItem.function f :: ·) (ih h)
      | operation op => cases h

/-! ## Joined texts -/

/-- A text that holds the functions of a graph: between the braces of a module it parses to the
graph, which has functions and no operations of its own, the last of its functions with a body.
The closing brace of the module is the one behind the text. -/
structure HoldsFunctions (limits : Limits) (text : String) (g : Graph) : Prop where
  parses : Graph.parse limits ("module \x7b" ++ text ++ "\x7d") = .ok g
  functions : g.functions ≠ []
  operations : g.operations = []
  body : ∀ f ∈ g.functions.getLast?, f.hasBody
  brace : ∃ front c e l,
    Lexer.tokenize (.ofSource limits ("module \x7b" ++ text ++ "\x7d")) = .ok (front ++ [c, e]) l ∧
      c.kind = .rbrace ∧ c.span.stop = byteLength ("module \x7b" ++ text ++ "\x7d").toList

/-- A text that holds the functions of a graph is made of the lexemes of these functions. -/
theorem HoldsFunctions.holdsItems {limits : Limits} {text : String} {g : Graph}
    (h : HoldsFunctions limits text g) : HoldsItems limits text g.functions := by
  have hsource : ("module \x7b" ++ text ++ "\x7d").toList =
      "module \x7b".toList ++ (text.toList ++ ['\x7d']) := by
    rw [String.toList_append, String.toList_append, List.append_assoc]
    rfl
  obtain ⟨_, _, p, _, _, hall⟩ := Graph.reads_of_parse h.parses
  have hmodule := (Graph.parse_iff_isModule hall (fun _ _ => Iff.rfl) g).mp h.parses
  obtain ⟨hfault, hlexemes⟩ := (Lexer.reads_iff _ _).mp hall
  generalize p.passed.reverse = all at hall hmodule hlexemes
  rw [Lexer.ofSource, hsource] at hall
  have hopening := Lexer.readsTo_module_brace limits (text.toList ++ ['\x7d'])
  obtain ⟨ws, rfl, hreads⟩ := hopening.exists_append_of_reads hall
  -- the items of the module are functions alone
  obtain ⟨items, c, e, hitems, hc, he, rfl⟩ :=
    (Grammar.isModule_iff_of_brace rfl rfl rfl).mp hmodule
  have hfunctions := eq_map_function_of_filterMap_operation? h.operations
  obtain ⟨fs, rfl⟩ := hitems.suffix Grammar.IsItem.suffix
  obtain ⟨⟨l, q, rest⟩, hto, hend⟩ := hreads.exists_readsTo (List.cons_ne_nil c [e])
  cases hend with
  | @more _ n _ _ hnext hne _ =>
      -- nothing is left behind the brace, which is the last token before the end
      obtain ⟨front, c₀, e₀, k, htokens, _, hstop⟩ := h.brace
      obtain ⟨_, hmap, _⟩ := (Lexer.tokenize_eq_ok_iff _ _ _).mp htokens
      rw [hlexemes, ← List.append_assoc, List.map_append] at hmap
      obtain ⟨rfl, _⟩ := List.cons.inj (List.append_inj' hmap rfl).2
      rw [hsource] at hstop
      have hstands := hto.stands (hopening.stands (.start _))
      rw [← hsource, ← List.append_nil ("module \x7b" ++ text ++ "\x7d").toList] at hstands
      rw [← hsource] at hstop
      have hrest : rest = c.gap.toList ++ ['\x7d'] :=
        Lexer.rest_of_rbrace hstands hnext hc hstop
      obtain ⟨htook, rfl, _⟩ := hto.took
      have htext : text.toList = spelled fs ++ c.gap.toList := by
        refine (List.append_left_inj ['\x7d']).mp ?_
        rw [List.append_assoc, ← hrest]
        exact htook
      cases fs with
      | nil =>
          cases hitems with
          | done _ => exact absurd rfl h.functions
          | more hx _ _ => exact absurd (by rw [hc]; simp) hx
      | cons x xs =>
          rw [hfunctions] at hitems
          refine .intro htext (Lexer.layout_of_next hnext hne) (hrest ▸ hto) hitems ?_
          intro item hitem
          rw [List.getLast?_map] at hitem
          obtain ⟨f, hf, rfl⟩ := Option.map_eq_some_iff.mp hitem
          exact ⟨f, rfl, h.body f hf⟩

/-- The lexemes that are read up to a closing brace and the end, as functions of a module. -/
def ReadsFunctions (l : Lexer) (functions : List Function) : Prop :=
  ∃ ws c e, l.Reads ws ∧
    Grammar.Until [.rbrace, .eof] (Grammar.IsItem (· ≤ l.limits.maxNestingDepth)) ws
      (functions.map ModuleItem.function) [c, e] ∧ c.kind = .rbrace ∧ e.kind = .eof

/-- A text that holds functions is read as these in front of further functions. -/
theorem HoldsItems.readsFunctions {limits : Limits} {text : String} {functions more : List Function}
    (h : HoldsItems limits text functions) {g t : List Char} (hg : Layout g) (p : Place)
    (ht : Fork ['\x7d'] t)
    (hmore : ∀ gap q, Layout gap → ReadsFunctions ⟨limits, q, gap ++ t⟩ more) :
    ReadsFunctions ⟨limits, p, g ++ (text.toList ++ t)⟩ (functions ++ more) := by
  obtain ⟨htext, hgap, hreads, hitems, hbody⟩ := h
  obtain ⟨x', xs', q, hto, hsame, htwins⟩ := hreads.moved hg (ht.append _) p
  obtain ⟨ws, c, e, hws, hlater, hc, he⟩ := hmore _ q hgap
  obtain ⟨w, ws, rfl⟩ : ∃ w zs, ws = w :: zs := by
    cases hws with
    | last _ _ => exact ⟨_, _, rfl⟩
    | more _ _ _ => exact ⟨_, _, rfl⟩
  have hmoved := Grammar.Until.append_items hitems hbody
    (.cons hsame (.of_twins htwins trivial)) hlater
  refine ⟨(x' :: xs') ++ w :: ws, c, e, ?_, ?_, hc, he⟩
  · rw [htext, List.append_assoc]
    exact hto.reads hws
  · rw [List.map_append]
    exact hmoved

/-- Texts that hold functions are read on lines of their own behind a gap, up to a closing brace
at the end, as all their functions in order. -/
theorem readsFunctions_joined {limits : Limits} {texts : List String}
    {functions : List (List Function)} (h : List.Forall₂ (HoldsItems limits) texts functions)
    (hne : texts ≠ []) {g : List Char} (hg : Layout g) (p : Place) :
    ReadsFunctions ⟨limits, p, g ++ (("\n".intercalate texts).toList ++ ['\x7d'])⟩
      functions.flatten := by
  induction h generalizing g p with
  | nil => exact absurd rfl hne
  | @cons text fs texts functions hfirst hrest ih =>
      cases hrest with
      | nil =>
          rw [String.intercalate_singleton, List.flatten_cons]
          refine hfirst.readsFunctions hg p (.refl _) fun gap q hgap => ?_
          obtain ⟨c, e, hreads, hc, he⟩ := Lexer.exists_reads_rbrace limits q hgap
          exact ⟨[c, e], c, e, hreads, .done (by simp [hc]), hc, he⟩
      | @cons text' fs' texts' functions' _ _ =>
          have hlines : ("\n".intercalate (text :: text' :: texts')).toList ++ ['\x7d'] =
              text.toList ++ '\n' :: (("\n".intercalate (text' :: texts')).toList ++ ['\x7d']) := by
            rw [String.intercalate_cons_cons, String.toList_append, String.toList_append,
              List.append_assoc, List.append_assoc]
            rfl
          -- behind the line feed the next text is read with all the gap before it
          have hfork : Fork ['\x7d'] ('\n' :: (("\n".intercalate (text' :: texts')).toList ++
              ['\x7d'])) :=
            ⟨[], _, _, rfl, rfl, .cons (by decide) [], fun c hc => by cases hc; decide⟩
          rw [hlines, List.flatten_cons]
          refine hfirst.readsFunctions hg p hfork fun gap q hgap => ?_
          have hbreak : Layout ['\n'] := .blank (by decide) .nil
          have hlater := ih (List.cons_ne_nil _ _) (hgap.append hbreak) q
          rwa [List.append_assoc] at hlater

/-- **Modules of functions are joined.**  Where each of some texts holds the functions of a graph,
the texts on lines of their own, between the braces of one module, parse to a graph with all these
functions in order, and with nothing else. -/
theorem Graph.parse_functions_joined {limits : Limits} {texts : List String} {graphs : List Graph}
    (hne : texts ≠ []) (h : List.Forall₂ (HoldsFunctions limits) texts graphs) :
    Graph.parse limits ("module \x7b" ++ "\n".intercalate texts ++ "\x7d") =
      .ok ⟨none, graphs.flatMap Graph.functions, [], .empty⟩ := by
  have hitems : List.Forall₂ (HoldsItems limits) texts (graphs.map Graph.functions) := by
    rw [List.forall₂_map_right_iff]
    exact h.imp fun _ _ h => h.holdsItems
  obtain ⟨ws, c, e, hreads, huntil, hc, he⟩ :=
    readsFunctions_joined hitems hne .nil (⟨8, 1, 9⟩ : Place)
  have hall := (Lexer.readsTo_module_brace limits _).reads hreads
  have hsource : ("module \x7b" ++ "\n".intercalate texts ++ "\x7d").toList =
      "module \x7b".toList ++ (("\n".intercalate texts).toList ++ ['\x7d']) := by
    rw [String.toList_append, String.toList_append, List.append_assoc]
    rfl
  rw [List.nil_append, ← hsource] at hall
  refine (Graph.parse_iff_isModule hall (fun _ _ => Iff.rfl) _).mpr ?_
  obtain ⟨hfunctions, hoperations⟩ := filterMap_map_function (graphs.map Graph.functions).flatten
  refine (Grammar.isModule_iff_of_brace rfl rfl rfl).mpr ⟨_, c, e, huntil, hc, he, ?_⟩
  rw [hfunctions, hoperations, List.flatMap_def]

/-- A text holds the functions of a graph where the lexemes of its module end with the brace. -/
theorem HoldsFunctions.of_reads {limits : Limits} {text : String} {g : Graph}
    {front : List Lexeme} {c e : Lexeme}
    (hparses : Graph.parse limits ("module \x7b" ++ text ++ "\x7d") = .ok g)
    (hreads : (Lexer.ofSource limits ("module \x7b" ++ text ++ "\x7d")).Reads (front ++ [c, e]))
    (hc : c.kind = .rbrace)
    (hstop : c.token.span.stop = byteLength ("module \x7b" ++ text ++ "\x7d").toList)
    (hfunctions : g.functions ≠ []) (hoperations : g.operations = [])
    (hbody : ∀ f ∈ g.functions.getLast?, f.hasBody) : HoldsFunctions limits text g := by
  obtain ⟨hfault, hlexemes⟩ := (Lexer.reads_iff _ _).mp hreads
  have htokens := (Lexer.tokenize_eq_ok_iff _ _ _).mpr ⟨hfault, congrArg _ hlexemes, rfl⟩
  rw [List.map_append] at htokens
  exact ⟨hparses, hfunctions, hoperations, hbody, _, c.token, e.token, _, htokens, hc, hstop⟩

/-- The text of a function with an empty body holds it. -/
theorem holdsFunctions_empty : HoldsFunctions .standard "func @f() \x7b\x7d"
    ⟨none, [.named "f"], [], .empty⟩ := by
  have hsymbol : Lexer.next ⟨.standard, ⟨12, 1, 13⟩, " @f() \x7b\x7d\x7d".toList⟩ =
      .ok ⟨" ", "@f", ⟨.symbolRefId, .text "@f", ⟨⟨13, 1, 14⟩, 2⟩⟩⟩
        ⟨.standard, ⟨15, 1, 16⟩, "() \x7b\x7d\x7d".toList⟩ := by cbv
  have hreads : (Lexer.ofSource .standard
      ("module \x7b" ++ "func @f() \x7b\x7d" ++ "\x7d")).Reads
        ([_, _, _, _, _, _, _, _] ++ [_, _]) :=
    .more rfl (by decide) <| .more rfl (by decide) <| .more rfl (by decide) <|
    .more hsymbol (by decide) <| .more rfl (by decide) <| .more rfl (by decide) <|
    .more rfl (by decide) <| .more rfl (by decide) <| .more rfl (by decide) <| .last rfl rfl
  exact .of_reads (by cbv) hreads rfl (by decide) (by simp) rfl (by simp [Function.named])

/-- The text of a declaration and a function with an empty body holds them. -/
theorem holdsFunctions_declared : HoldsFunctions .standard "func @g() func @h() \x7b\x7d"
    ⟨none, [{ Function.named "g" with hasBody := false }, .named "h"], [], .empty⟩ := by
  have hfirst : Lexer.next ⟨.standard, ⟨12, 1, 13⟩, " @g() func @h() \x7b\x7d\x7d".toList⟩ =
      .ok ⟨" ", "@g", ⟨.symbolRefId, .text "@g", ⟨⟨13, 1, 14⟩, 2⟩⟩⟩
        ⟨.standard, ⟨15, 1, 16⟩, "() func @h() \x7b\x7d\x7d".toList⟩ := by cbv
  have hsecond : Lexer.next ⟨.standard, ⟨22, 1, 23⟩, " @h() \x7b\x7d\x7d".toList⟩ =
      .ok ⟨" ", "@h", ⟨.symbolRefId, .text "@h", ⟨⟨23, 1, 24⟩, 2⟩⟩⟩
        ⟨.standard, ⟨25, 1, 26⟩, "() \x7b\x7d\x7d".toList⟩ := by cbv
  have hreads : (Lexer.ofSource .standard
      ("module \x7b" ++ "func @g() func @h() \x7b\x7d" ++ "\x7d")).Reads
        ([_, _, _, _, _, _, _, _, _, _, _, _] ++ [_, _]) :=
    .more rfl (by decide) <| .more rfl (by decide) <| .more rfl (by decide) <|
    .more hfirst (by decide) <| .more rfl (by decide) <| .more rfl (by decide) <|
    .more rfl (by decide) <| .more hsecond (by decide) <| .more rfl (by decide) <|
    .more rfl (by decide) <| .more rfl (by decide) <| .more rfl (by decide) <|
    .more rfl (by decide) <| .last rfl rfl
  exact .of_reads (by cbv) hreads rfl (by decide) (by simp) rfl (by simp [Function.named])

/-- A module of a function joined to one of a declaration and a function. -/
theorem Graph.parse_three_functions :
    List.Forall₂ (HoldsFunctions .standard)
      ["func @f() \x7b\x7d", "func @g() func @h() \x7b\x7d"]
      [⟨none, [.named "f"], [], .empty⟩,
        ⟨none, [{ Function.named "g" with hasBody := false }, .named "h"], [], .empty⟩] ∧
    Graph.parse .standard "module \x7bfunc @f() \x7b\x7d\nfunc @g() func @h() \x7b\x7d\x7d" =
      .ok ⟨none, [.named "f", { Function.named "g" with hasBody := false }, .named "h"], [],
        .empty⟩ := by
  have hboth := List.Forall₂.cons holdsFunctions_empty (.cons holdsFunctions_declared .nil)
  have hsource : "module \x7b" ++
      "\n".intercalate ["func @f() \x7b\x7d", "func @g() func @h() \x7b\x7d"] ++ "\x7d" =
        "module \x7bfunc @f() \x7b\x7d\nfunc @g() func @h() \x7b\x7d\x7d" := by decide
  have hjoined := Graph.parse_functions_joined (by simp) hboth
  rw [hsource] at hjoined
  exact ⟨hboth, hjoined⟩

end GenericIR
