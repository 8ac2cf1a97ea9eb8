/-
# Bodies joined by their operations

Nothing marks the end of an operation, so the operations of two bodies can be written one after the
other only where the last one of the first body would not go on with the first token of the second
one.  Then the body that holds both texts, on lines of their own, has the operations of the first
one and those of the second one behind them.

* `Graph.parse_operations_joined` : bodies that stay apart are joined;
* `Graph.parse_operations_merged` : two names run together where they do not.
-/
import GenericIR.Proofs.Joined.Functions

namespace GenericIR

/-! ## The body of one function -/

/-- The source of a module of one function whose body holds a text on its first lines. -/
def inFunction (text : String) : String := "module \x7b func @f() \x7b" ++ text ++ "\n\x7d \x7d"

/-- The lexemes up to the opening brace of the function. -/
def functionFront : List Lexeme :=
  [⟨"", "module", ⟨.keyword, .text "module", ⟨⟨0, 1, 1⟩, 6⟩⟩⟩,
    ⟨" ", "\x7b", ⟨.lbrace, .text "\x7b", ⟨⟨7, 1, 8⟩, 1⟩⟩⟩,
    ⟨" ", "func", ⟨.keyword, .text "func", ⟨⟨9, 1, 10⟩, 4⟩⟩⟩,
    ⟨" ", "@f", ⟨.symbolRefId, .text "@f", ⟨⟨14, 1, 15⟩, 2⟩⟩⟩,
    ⟨"", "(", ⟨.lparen, .text "(", ⟨⟨16, 1, 17⟩, 1⟩⟩⟩,
    ⟨"", ")", ⟨.rparen, .text ")", ⟨⟨17, 1, 18⟩, 1⟩⟩⟩,
    ⟨" ", "\x7b", ⟨.lbrace, .text "\x7b", ⟨⟨19, 1, 20⟩, 1⟩⟩⟩]

/-- The function with the name `f` that has operations. -/
def functionOf (operations : List Operation) : Function :=
  { Function.named "f" with operations := operations }

/-- The lexemes of a body, with the closing braces and the end behind them. -/
def bodyLexemes (limits : Limits) (text : String) : List Lexeme :=
  (Lexer.ofSource limits (inFunction text)).readAll.lexemes.drop functionFront.length

namespace Lexer

/-- The lexemes up to the opening brace of the function are read in front of any text. -/
theorem readsTo_functionFront (limits : Limits) (rest : List Char) :
    ReadsTo ⟨limits, .start, "module \x7b func @f() \x7b".toList ++ rest⟩ functionFront
      ⟨limits, ⟨20, 1, 21⟩, rest⟩ := by
  have hsymbol : next ⟨limits, ⟨13, 1, 14⟩, " @f() \x7b".toList ++ rest⟩ =
      .ok ⟨" ", "@f", ⟨.symbolRefId, .text "@f", ⟨⟨14, 1, 15⟩, 2⟩⟩⟩
        ⟨limits, ⟨16, 1, 17⟩, "() \x7b".toList ++ rest⟩ := by cbv
  exact .cons rfl (by decide) <| .cons rfl (by decide) <| .cons rfl (by decide) <|
    .cons hsymbol (by decide) <| .cons rfl (by decide) <| .cons rfl (by decide) <|
    .cons rfl (by decide) .nil

/-- Two closing braces behind a layout at the end of a text are read, and then the end. -/
theorem exists_reads_rbraces (limits : Limits) (p : Place) {g : List Char} (hg : Layout g) :
    ∃ y c e, Reads ⟨limits, p, g ++ "\x7d \x7d".toList⟩ [y, c, e] ∧ y.kind = .rbrace ∧
      c.kind = .rbrace ∧ e.kind = .eof := by
  obtain ⟨y, q, hy, hbrace⟩ := exists_next_rbrace limits p hg [' ', '\x7d']
  obtain ⟨c, e, hreads, hc, he⟩ :=
    exists_reads_rbrace limits q (.blank (c := ' ') (by decide) .nil)
  exact ⟨y, c, e, .more hy (by rw [hbrace]; decide) hreads, hbrace, hc, he⟩

end Lexer

namespace Grammar

variable {fits : Nat → Prop} {xs : List Lexeme}

/-- The lexemes behind the opening brace of a function that is alone in its module. -/
theorem exists_until_of_isModule {g : Graph} {f : Function}
    (h : IsModule fits (functionFront ++ xs) g) (hfunctions : g.functions = [f])
    (hoperations : g.operations = []) : ∃ y c e,
      Until [.rbrace, .eof] (IsOperation fits) xs f.operations [y, c, e] ∧ y.kind = .rbrace := by
  obtain ⟨items, c, e, hitems, _, _, rfl⟩ := (isModule_iff_of_brace rfl rfl rfl).mp h
  have hitem : items = [.function f] := by
    rw [eq_map_function_of_filterMap_operation? hoperations]
    exact congrArg (List.map ModuleItem.function) hfunctions
  subst hitem
  cases hitems with
  | more _ hitem hdone =>
      cases hdone
      cases hitem with
      | function _ hfunction =>
          cases hfunction with
          | intro _ hvisibility _ hparameters hearly hresults hlate hbody =>
              -- the signature has no part but the empty parentheses
              obtain ⟨rfl, hsymbol⟩ := hvisibility.of_not fun hx => absurd hx.1 (by decide)
              cases hsymbol
              obtain ⟨_, hclosed, _⟩ := hparameters
              obtain ⟨rfl, hparen⟩ := hclosed.of_close rfl
              cases hparen
              obtain ⟨rfl, rfl⟩ := hearly.of_not fun hx => absurd hx.1 (by decide)
              obtain ⟨rfl, rfl⟩ := hresults.of_not (by decide)
              obtain ⟨rfl, rfl⟩ := hlate.of_not fun hx => absurd hx.1 (by decide)
              obtain ⟨operations, rfl, _, hoperations, hy⟩ := hbody.of_starts rfl
              exact ⟨_, _, _, hoperations, hy⟩

/-- Operations behind the opening brace of the function make up a module. -/
theorem isModule_of_until {y c e : Lexeme} {operations : List Operation}
    (h : Until [.rbrace, .eof] (IsOperation fits) xs operations [y, c, e]) (hy : y.kind = .rbrace)
    (hc : c.kind = .rbrace) (he : e.kind = .eof) :
    IsModule fits (functionFront ++ xs) ⟨none, [functionOf operations], [], .empty⟩ := by
  have hnone : ¬ IsAttributesWord ⟨" ", "\x7b", ⟨.lbrace, .text "\x7b", ⟨⟨19, 1, 20⟩, 1⟩⟩⟩ :=
    fun hx => absurd hx.1 (by decide)
  refine (isModule_iff_of_brace rfl rfl rfl).mpr
    ⟨[.function (functionOf operations)], c, e, .more (by decide) ?_ (.done (by simp [hc])), hc, he,
      rfl⟩
  exact .function (by decide) (.intro rfl (.missing fun hx => absurd hx.1 (by decide)) rfl
    (.intro rfl (.empty rfl) rfl) (.missing hnone) (.missing (by decide)) (.missing hnone)
    (.present rfl (.intro rfl h hy)))

/-- A name before a closing brace is an operation. -/
theorem IsName.isOperation {name : String} {y : Lexeme} {ys : List Lexeme}
    (h : IsName xs name (y :: ys)) (hy : y.kind = .rbrace) (hname : ¬ Parse.isConstantName name) :
    IsOperation fits xs (.named name) (y :: ys) := by
  have houtputs : AreDefinitions xs [] xs := by
    cases h with
    | quoted hx => exact .none (.none (by simp [hx]) (by simp [hx]))
    | one hx _ => exact .none (.none (by simp [hx]) (by simp [hx]))
    | two hx _ => exact .none (.none (by simp [hx]) (by simp [hx]))
  have hword : ¬ IsLocWord y := fun h => by
    rw [IsLocWord, hy] at h
    cases h.1
  have hhead : IsHead fits xs (.named name) (y :: ys) := .intro houtputs h (.missing (by simp [hy]))
    (.bare (by simp [hy]) (.done (by simp [hy]))) (.missing (by simp [hy]))
    (.intro (.missing (by simp [hy]))) (.intro (.missing (by simp [hy])))
  exact .general hhead (fun h => absurd h hname) (.intro (.missing (by simp [hy])))
    (.missing (by simp [hy])) (.intro (.missing (by simp [hy]))) (.missing hword)

end Grammar

/-! ## Texts of operations -/

/-- A text that holds operations: as the body of a function alone in its module it parses to a
function with these operations.  The brace written behind the text is a closing brace, so that it
is the one that closes the function. -/
structure HoldsOperations (limits : Limits) (text : String) (operations : List Operation) :
    Prop where
  parses : ∃ g f, Graph.parse limits (inFunction text) = .ok g ∧ g.functions = [f] ∧
    g.operations = [] ∧ f.operations = operations
  brace : ∃ tokens l, Lexer.tokenize (.ofSource limits (inFunction text)) = .ok tokens l ∧
    ∃ c ∈ tokens, c.kind = .rbrace ∧
      c.span.stop = byteLength ("module \x7b func @f() \x7b" ++ text ++ "\n\x7d").toList

/-- Whether the operations of a text, in front of another text, would not go on with its first
token. -/
def StaysApart (limits : Limits) (text next : String) : Prop :=
  ∀ x ∈ (bodyLexemes limits next).head?,
    ¬ Grammar.WouldGoOn (· ≤ limits.maxNestingDepth) x.kind (bodyLexemes limits text)

/-- A text that is made of the lexemes of operations and a gap behind them. -/
inductive SpellsOperations (limits : Limits) (text : String) (operations : List Operation) :
    Prop where
  | intro {us : List Lexeme} {y c e : Lexeme} {gap : List Char} {q : Place}
      (htext : text.toList = spelled us ++ gap) (hgap : Layout (gap ++ ['\n']))
      (hreads : Lexer.ReadsTo ⟨limits, ⟨20, 1, 21⟩, text.toList ++ "\n\x7d \x7d".toList⟩ us
        ⟨limits, q, gap ++ "\n\x7d \x7d".toList⟩)
      (hall : bodyLexemes limits text = us ++ [y, c, e])
      (hitems : Grammar.Until [.rbrace, .eof]
        (Grammar.IsOperation (· ≤ limits.maxNestingDepth)) (us ++ [y, c, e]) operations [y, c, e])
      (hy : y.kind = .rbrace) : SpellsOperations limits text operations

/-- The characters of the source of a function around those of a text. -/
theorem toList_inFunction (text : String) : (inFunction text).toList =
    "module \x7b func @f() \x7b".toList ++ (text.toList ++ "\n\x7d \x7d".toList) := by
  unfold inFunction
  rw [String.toList_append, String.toList_append]
  exact List.append_assoc _ _ _

/-- The source of a function up to the brace written behind a text, and behind that brace. -/
theorem toList_inFunction_brace (text : String) : (inFunction text).toList =
    ("module \x7b func @f() \x7b" ++ text ++ "\n\x7d").toList ++ [' ', '\x7d'] := by
  have hbraces : "\n\x7d \x7d" = "\n\x7d" ++ " \x7d" := by decide
  unfold inFunction
  rw [hbraces, ← String.append_assoc]
  exact String.toList_append

/-- The closing brace that stops where the written one does is the third lexeme from the end. -/
theorem HoldsOperations.stop {limits : Limits} {text : String} {operations : List Operation}
    (h : HoldsOperations limits text operations) {xs : List Lexeme} {y c e : Lexeme}
    (hall : (Lexer.ofSource limits (inFunction text)).Reads (xs ++ [y, c, e])) :
    y.token.span.stop = byteLength ("module \x7b func @f() \x7b" ++ text ++ "\n\x7d").toList := by
  obtain ⟨tokens, l, htokens, t, ht, hkind, hstop⟩ := h.brace
  obtain ⟨_, rfl, _⟩ := (Lexer.tokenize_eq_ok_iff _ _ _).mp htokens
  obtain ⟨x, hx, rfl⟩ := List.mem_map.mp ht
  rw [((Lexer.reads_iff _ _).mp hall).2] at hx
  obtain ⟨front, back, hfront⟩ := List.append_of_mem hx
  rw [hfront] at hall
  obtain ⟨m, hto, hreads⟩ := hall.exists_readsTo (List.cons_ne_nil x back)
  cases hreads with
  | last _ heof => exact absurd (hkind.symm.trans heof) (by decide)
  | @more _ n _ _ hnext _ hback =>
      -- behind the brace stands the other one, so two lexemes are left
      have hstands := hto.stands (.start _)
      rw [Lexer.ofSource, toList_inFunction_brace] at hstands
      have hrest := Lexer.rest_of_stop hstands hnext hstop
      obtain ⟨limits', p, rest⟩ := n
      obtain rfl : rest = [' ', '\x7d'] := hrest
      obtain ⟨c', e', hend, _⟩ :=
        Lexer.exists_reads_rbrace limits' p (.blank (c := ' ') (by decide) .nil)
      have hboth := ((Lexer.reads_iff _ _).mp hback).2.symm.trans ((Lexer.reads_iff _ _).mp hend).2
      rw [hboth] at hfront
      obtain ⟨rfl, _⟩ := List.cons.inj (List.append_inj' hfront rfl).2
      exact hstop

/-- A text that holds operations is made of the lexemes of these operations. -/
theorem HoldsOperations.spells {limits : Limits} {text : String} {operations : List Operation}
    (h : HoldsOperations limits text operations) : SpellsOperations limits text operations := by
  obtain ⟨g, f, hparse, hfunctions, hnone, rfl⟩ := h.parses
  obtain ⟨_, _, p, _, _, hall⟩ := Graph.reads_of_parse hparse
  have hmodule := (Graph.parse_iff_isModule hall (fun _ _ => Iff.rfl) g).mp hparse
  generalize p.passed.reverse = all at hall hmodule
  have hlexemes := ((Lexer.reads_iff _ _).mp hall).2
  have hopening := Lexer.readsTo_functionFront limits (text.toList ++ "\n\x7d \x7d".toList)
  have hsource : (Lexer.ofSource limits (inFunction text)) = ⟨limits, .start,
      "module \x7b func @f() \x7b".toList ++ (text.toList ++ "\n\x7d \x7d".toList)⟩ := by
    rw [Lexer.ofSource, toList_inFunction]
  obtain ⟨ws, rfl, hreads⟩ := hopening.exists_append_of_reads (hsource ▸ hall)
  obtain ⟨y, c, e, hitems, hy⟩ := Grammar.exists_until_of_isModule hmodule hfunctions hnone
  obtain ⟨us, rfl⟩ := hitems.suffix Grammar.IsOperation.suffix
  rw [← List.append_assoc] at hall
  have hstop := h.stop hall
  obtain ⟨⟨l, q, rest⟩, hto, hend⟩ := hreads.exists_readsTo (List.cons_ne_nil y [c, e])
  cases hend with
  | @more _ n _ _ hnext hne _ =>
      have hstands := (hopening.trans hto).stands (.start _)
      rw [← toList_inFunction, toList_inFunction_brace] at hstands
      obtain rfl : rest = y.gap.toList ++ "\x7d \x7d".toList :=
        Lexer.rest_of_rbrace hstands hnext hy hstop
      obtain ⟨hrest, rfl, _⟩ := hto.took
      -- the line feed in front of the brace belongs to its gap
      have htext : text.toList ++ ['\n'] = spelled us ++ y.gap.toList := by
        refine (List.append_left_inj "\x7d \x7d".toList).mp ?_
        rw [List.append_assoc, List.append_assoc]
        exact hrest
      obtain ⟨gap, hgap, htext⟩ := hto.exists_gap_of_blank (by decide) htext
      have hlayout := Lexer.layout_of_next hnext hne
      rw [hgap] at hlayout hto
      rw [List.append_assoc] at hto
      refine .intro htext hlayout hto ?_ hitems hy
      rw [bodyLexemes, hlexemes, List.drop_left]

/-! ## Joined texts -/

/-- The lexemes of operations with the closing braces behind them, as they are read from a lexer. -/
structure ReadsOperations (l : Lexer) (xs : List Lexeme) (operations : List Operation) :
    Prop where
  reads : l.Reads xs
  items : ∃ y c e,
    Grammar.Until [.rbrace, .eof] (Grammar.IsOperation (· ≤ l.limits.maxNestingDepth)) xs operations
      [y, c, e] ∧ y.kind = .rbrace ∧ c.kind = .rbrace ∧ e.kind = .eof

/-- A text of operations behind a gap is read as these operations, the first token of the kind
that it has without the gap. -/
theorem SpellsOperations.readsOperations {limits : Limits} {text : String}
    {operations : List Operation} (h : SpellsOperations limits text operations) {g : List Char}
    (hg : Layout g) (p : Place) : ∃ w ws,
      ReadsOperations ⟨limits, p, g ++ (text.toList ++ "\n\x7d \x7d".toList)⟩ (w :: ws) operations ∧
      w.kind ∈ Grammar.operationStarts ∧
      (bodyLexemes limits text).head?.map Lexeme.kind = some w.kind := by
  obtain @⟨us, y, c, e, gap, q, htext, hgap, hreads, hall, hitems, hy⟩ := h
  rw [hall]
  have hbraces : gap ++ "\n\x7d \x7d".toList = gap ++ ['\n'] ++ "\x7d \x7d".toList := by
    rw [List.append_assoc]
    rfl
  cases us with
  | nil =>
      obtain ⟨y', c', e', hend, hy', hc', he'⟩ :=
        Lexer.exists_reads_rbraces limits p (hg.append hgap)
      cases hitems with
      | more hx _ _ => exact absurd (by simp [hy]) hx
      | done _ =>
          refine ⟨y', [c', e'], ⟨?_, y', c', e', .done (by simp [hy']), hy', hc', he'⟩,
            by simp [Grammar.operationStarts, hy'], congrArg some (hy.trans hy'.symm)⟩
          rw [htext, spelled_nil, List.nil_append, hbraces, ← List.append_assoc]
          exact hend
  | cons x xs =>
      obtain ⟨x', xs', r, hto, hsame, htwins⟩ := hreads.moved hg (.refl _) p
      obtain ⟨y', c', e', hend, hy', hc', he'⟩ := Lexer.exists_reads_rbraces limits r hgap
      rw [← hbraces] at hend
      have hmoved : Moved (Grammar.Turned .rbrace) (x :: xs ++ [y, c, e]) [y, c, e]
          (x' :: xs' ++ [y', c', e']) [y', c', e'] :=
        .cons hsame (.of_twins htwins (Or.inr ⟨hy, hy'⟩))
      have hagain := hitems.append_operations (by simp [Grammar.operationStarts])
        (Grammar.not_wouldGoOn_rbrace _) hmoved (.done (by simp [hy']))
      rw [List.append_nil] at hagain
      have hkind := hitems.kind_mem fun heq => by simpa using congrArg List.length heq
      refine ⟨x', xs' ++ [y', c', e'], ⟨?_, y', c', e', hagain, hy', hc', he'⟩,
        hsame.kind ▸ hkind, congrArg some hsame.kind⟩
      rw [htext, List.append_assoc]
      exact hto.reads hend

/-- **Bodies that stay apart are joined.**  Where two texts hold operations, and the operations of
the first one would not go on with the first token of the second one, the body with both texts, on
lines of their own, has the operations of the first one and behind them those of the second one. -/
theorem Graph.parse_operations_joined {limits : Limits} {text next : String}
    {operations more : List Operation} (h : HoldsOperations limits text operations)
    (hnext : HoldsOperations limits next more) (hapart : StaysApart limits text next) :
    Graph.parse limits (inFunction (text ++ "\n" ++ next)) =
      .ok ⟨none, [functionOf (operations ++ more)], [], .empty⟩ := by
  obtain @⟨us, y, c, e, gap, q, htext, hgap, hreads, hall, hitems, hy⟩ := h.spells
  -- the first text is read up to its gap, which goes on to the second one
  have hfork : Fork (gap ++ "\n\x7d \x7d".toList)
      (gap ++ ['\n'] ++ (next.toList ++ "\n\x7d \x7d".toList)) := by
    rw [List.append_assoc]
    exact ⟨gap, _, _, rfl, rfl, .cons (by decide) _, fun c hc => by cases hc; decide⟩
  obtain ⟨us', r, hto, htwins⟩ := hreads.copied hfork ⟨20, 1, 21⟩
  obtain ⟨w, ws, ⟨hrest, y', c', e', hlater, hy', hc', he'⟩, hstart, hkind⟩ :=
    hnext.spells.readsOperations hgap r
  obtain ⟨x, hx, hkind⟩ := Option.map_eq_some_iff.mp hkind
  have hfree := hapart x hx
  rw [hkind, hall] at hfree
  have hmoved : Moved (Grammar.Turned w.kind) (us ++ [y, c, e]) [y, c, e] (us' ++ w :: ws)
      (w :: ws) := (Copied.of_twins htwins (Or.inr ⟨hy, rfl⟩)).moved
  have hboth := hitems.append_operations hstart hfree hmoved hlater
  have hsource : (inFunction (text ++ "\n" ++ next)).toList = "module \x7b func @f() \x7b".toList ++
      (spelled us ++ (gap ++ ['\n'] ++ (next.toList ++ "\n\x7d \x7d".toList))) := by
    rw [toList_inFunction, String.toList_append, String.toList_append, htext]
    simp only [List.append_assoc]
    rfl
  have hfull := (Lexer.readsTo_functionFront limits _).reads (hto.reads hrest)
  rw [← hsource] at hfull
  exact (Graph.parse_iff_isModule hfull (fun _ _ => Iff.rfl) _).mpr
    (Grammar.isModule_of_until hboth hy' hc' he')

/-! ## Names in a body -/

section Reads

variable {limits : Limits} {text : String} {operations : List Operation} {us : List Lexeme}
  {y c e : Lexeme}
  (hreads : Lexer.Reads ⟨limits, ⟨20, 1, 21⟩, text.toList ++ "\n\x7d \x7d".toList⟩
    (us ++ [y, c, e]))
include hreads

/-- All lexemes of the source of a function, from those of its body. -/
theorem reads_inFunction :
    (Lexer.ofSource limits (inFunction text)).Reads (functionFront ++ (us ++ [y, c, e])) := by
  rw [Lexer.ofSource, toList_inFunction]
  exact (Lexer.readsTo_functionFront limits _).reads hreads

/-- The lexemes of a body are those read from the opening brace on. -/
theorem bodyLexemes_eq : bodyLexemes limits text = us ++ [y, c, e] :=
  congrArg (List.drop _) ((Lexer.reads_iff _ _).mp (reads_inFunction hreads)).2

variable (hitems : Grammar.Until [.rbrace, .eof]
    (Grammar.IsOperation (· ≤ limits.maxNestingDepth)) (us ++ [y, c, e]) operations [y, c, e])
  (hy : y.kind = .rbrace) (hc : c.kind = .rbrace) (he : e.kind = .eof)
include hitems hy hc he

/-- A body that is read as operations parses to them. -/
theorem Graph.parse_inFunction_of_reads : Graph.parse limits (inFunction text) =
    .ok ⟨none, [functionOf operations], [], .empty⟩ :=
  (Graph.parse_iff_isModule (reads_inFunction hreads) (fun _ _ => Iff.rfl) _).mpr
    (Grammar.isModule_of_until hitems hy hc he)

/-- A text that is read as operations up to the brace written behind it holds them. -/
theorem HoldsOperations.of_reads (hstop : y.token.span.stop =
      byteLength ("module \x7b func @f() \x7b" ++ text ++ "\n\x7d").toList) :
    HoldsOperations limits text operations := by
  obtain ⟨hfault, hlexemes⟩ := (Lexer.reads_iff _ _).mp (reads_inFunction hreads)
  have htokens := (Lexer.tokenize_eq_ok_iff _ _ _).mpr ⟨hfault, rfl, rfl⟩
  have hmem : y ∈ functionFront ++ (us ++ [y, c, e]) := by simp
  exact ⟨⟨_, _, Graph.parse_inFunction_of_reads hreads hitems hy hc he, rfl, rfl, rfl⟩, _, _,
    htokens, y.token, List.mem_map_of_mem (hlexemes ▸ hmem), hy, hstop⟩

end Reads

/-- The text `foo` holds the operation of this name. -/
theorem holdsOperations_foo : HoldsOperations .standard "foo" [.named "foo"] := by
  have hreads : Lexer.Reads ⟨.standard, ⟨20, 1, 21⟩, "foo".toList ++ "\n\x7d \x7d".toList⟩
      ([_] ++ [_, _, _]) :=
    .more rfl (by decide) <| .more rfl (by decide) <| .more rfl (by decide) <| .last rfl rfl
  exact .of_reads hreads (.more (by decide)
    (Grammar.IsName.isOperation (.one rfl (by decide)) rfl (by decide)) (.done (by decide)))
    rfl rfl rfl (by decide)

/-- A quoted name is not taken for the second part of the name in front of it. -/
theorem Graph.parse_operations_quoted :
    HoldsOperations .standard "foo" [.named "foo"] ∧
    HoldsOperations .standard "\"bar\"" [.named "bar"] ∧ StaysApart .standard "foo" "\"bar\"" ∧
    Graph.parse .standard (inFunction ("foo" ++ "\n" ++ "\"bar\"")) =
      .ok ⟨none, [functionOf [.named "foo", .named "bar"]], [], .empty⟩ := by
  have hreads : Lexer.Reads ⟨.standard, ⟨20, 1, 21⟩, "\"bar\"".toList ++ "\n\x7d \x7d".toList⟩
      ([_] ++ [_, _, _]) :=
    .more rfl (by decide) <| .more rfl (by decide) <| .more rfl (by decide) <| .last rfl rfl
  have hquoted : HoldsOperations .standard "\"bar\"" [.named "bar"] :=
    .of_reads hreads (.more (by decide)
      (Grammar.IsName.isOperation (.quoted rfl) rfl (by decide)) (.done (by decide)))
      rfl rfl rfl (by decide)
  have hapart : StaysApart .standard "foo" "\"bar\"" := by
    intro x hx
    rw [bodyLexemes_eq hreads] at hx
    cases hx
    -- no operation would go on with a string
    rintro ⟨_, _, _, htake⟩
    cases htake with
    | name _ _ _ hkind => cases hkind
    | operand _ _ _ _ hkind => cases hkind
    | parenthesis _ _ _ _ _ hkind => cases hkind
  exact ⟨holdsOperations_foo, hquoted, hapart,
    Graph.parse_operations_joined holdsOperations_foo hquoted hapart⟩

/-- Two names on lines of their own are run together to one: what single bodies hold is not what
they hold when they are joined. -/
theorem Graph.parse_operations_merged :
    HoldsOperations .standard "foo" [.named "foo"] ∧
    HoldsOperations .standard "bar" [.named "bar"] ∧
    Graph.parse .standard (inFunction ("foo" ++ "\n" ++ "bar")) =
      .ok ⟨none, [functionOf [.named "foobar"]], [], .empty⟩ ∧
    Graph.parse .standard (inFunction ("foo" ++ "\n" ++ "bar")) ≠
      .ok ⟨none, [functionOf ([.named "foo"] ++ [.named "bar"])], [], .empty⟩ := by
  have hreads : Lexer.Reads ⟨.standard, ⟨20, 1, 21⟩, "bar".toList ++ "\n\x7d \x7d".toList⟩
      ([_] ++ [_, _, _]) :=
    .more rfl (by decide) <| .more rfl (by decide) <| .more rfl (by decide) <| .last rfl rfl
  have hbar : HoldsOperations .standard "bar" [.named "bar"] :=
    .of_reads hreads (.more (by decide)
      (Grammar.IsName.isOperation (.one rfl (by decide)) rfl (by decide)) (.done (by decide)))
      rfl rfl rfl (by decide)
  have hboth : Lexer.Reads ⟨.standard, ⟨20, 1, 21⟩,
      ("foo" ++ "\n" ++ "bar").toList ++ "\n\x7d \x7d".toList⟩ ([_, _] ++ [_, _, _]) :=
    .more rfl (by decide) <| .more rfl (by decide) <| .more rfl (by decide) <|
    .more rfl (by decide) <| .last rfl rfl
  have hparse := Graph.parse_inFunction_of_reads hboth (.more (by decide)
    (Grammar.IsName.isOperation (.two rfl rfl) rfl (by decide)) (.done (by decide))) rfl rfl rfl
  refine ⟨holdsOperations_foo, hbar, hparse, ?_⟩
  rw [hparse]
  simp [functionOf, Function.named]

end GenericIR
