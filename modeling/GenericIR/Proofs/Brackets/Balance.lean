/-
# Balanced brackets of a source

A source that parses to a graph has been gone past token by token up to its end, and the
brackets of its structure are properly nested among them.  The brackets of its attribute values
and captures are counted and not compared by kind, so all the brackets of the source together
need not be properly nested.

* `Graph.parse_nested` : the brackets of a source that parses are nested by their roles;
* `Graph.parse_crossed` : sources that parse with brackets that cross or are left open.
-/
import Mathlib
import GenericIR.Proofs.Brackets.Grammar
import GenericIR.Proofs.Bytes.Parsing
import GenericIR.Proofs.FirstFault

namespace GenericIR

/-! ## All lexemes of a source -/

namespace Parser

/-- Moves go past lexemes that a parser faces, in order. -/
theorem faces_of_moves {p q : Parser} {xs : List Lexeme} (h : p.Moves q) (hp : p.Faces xs) :
    ∃ ys, q.Faces ys ∧ q.passed.reverse ++ ys = p.passed.reverse ++ xs := by
  induction h with
  | refl => exact ⟨xs, hp, rfl⟩
  | @tail q r _ hmove ih =>
      obtain ⟨ys, hfaces, hall⟩ := ih
      obtain ⟨zs, rfl⟩ := hfaces.exists_cons
      cases hmove with
      | past hnext hkind =>
          obtain ⟨s, hadvance, hs, _⟩ := hfaces.advance hkind
          rw [Parse.advance, hnext] at hadvance
          cases hadvance
          refine ⟨zs, hs, ?_⟩
          rw [← hall, List.reverse_cons, List.append_assoc]
          rfl
      | fault hnext hkind =>
          -- what a parser faces is read without a fault
          obtain ⟨s, hadvance, _⟩ := hfaces.advance hkind
          rw [Parse.advance, hnext] at hadvance
          cases hadvance

end Parser

/-- A whole module goes past all the lexemes of its source. -/
theorem Parse.passed_of_graph {p q : Parser} {g : Graph} {xs : List Lexeme} (hp : p.Faces xs)
    (hpassed : p.passed = []) (h : graph p = .ok g q) : q.passed.reverse = xs := by
  have hmoves := composed_moduleText.moves (P := Any) p trivial
  rw [graph] at h
  obtain ⟨g', r, hm, h⟩ := exists_of_bind_ok h
  rw [after_of_ok hm] at hmoves
  obtain ⟨ys, hfaces, hall⟩ := Parser.faces_of_moves hmoves hp
  obtain ⟨zs, rfl⟩ := hfaces.exists_cons
  obtain ⟨_, t, ht, h⟩ := exists_of_bind_ok h
  cases h
  rcases consume_cases .eof r with ⟨s, hs, heof, hpast⟩ | ⟨d, s, hs, _⟩
  · rw [hs] at ht
    cases ht
    obtain rfl := hfaces.eq_nil_of_eof heof
    rw [hpast, List.reverse_cons, hall, hpassed]
    rfl
  · rw [hs] at ht
    cases ht

/-- A source that parses is read to its end, and the parser goes past all that is read. -/
theorem Graph.reads_of_parse {limits : Limits} {source : String} {g : Graph}
    (h : Graph.parse limits source = .ok g) :
    ∃ x l q, Lexer.next (.ofSource limits source) = .ok x l ∧
      Parse.graph ⟨l, x, [], []⟩ = .ok g q ∧
      (Lexer.ofSource limits source).Reads q.passed.reverse := by
  unfold Graph.parse Parser.ofSource at h
  cases hnext : Lexer.next (.ofSource limits source) with
  | error d l =>
      rw [hnext] at h
      cases h
  | ok x l =>
      rw [hnext] at h
      dsimp only at h
      split at h
      · next g' q hgraph =>
          cases h
          have hahead : (Lexer.ofSource limits source).ahead = none := by
            rw [← Lexer.ahead_of_next_ok hnext]
            exact Parse.ahead_of_graph ⟨_, hnext⟩ hgraph
          have hreads := (Lexer.reads_iff _ _).mpr ⟨hahead, rfl⟩
          have hpassed := Parse.passed_of_graph ⟨rfl, _, hnext, hreads⟩ rfl hgraph
          exact ⟨x, l, q, rfl, hgraph, hpassed ▸ hreads⟩
      · cases h

/-! ## Sources that parse -/

/-- **The brackets of a source that parses are nested.**  The tokens that the parser over bytes
goes past are those of the source up to its end.  The brackets of its structure are properly
nested; the brackets of an attribute value close in number; and between the brackets of a
capture those of its own sort do. -/
theorem Graph.parse_nested (limits : Limits) (source : String) (g : Graph)
    (h : Graph.parse limits source = .ok g) :
    ∃ marks l, ByteParser.parse limits source = some (.ok g, marks) ∧
      Lexer.tokenize (.ofSource limits source) = .ok (marks.map Mark.token) l ∧
      Nested [] marks [] ∧ ProperlyNested ((marks.filter Mark.isStructural).map Mark.kind) := by
  obtain ⟨x, l, p, hnext, hgraph, hreads⟩ := Graph.reads_of_parse h
  have hmirror := ByteParse.mirrors_graph _ _ (ByteParser.follows_ofSource hnext)
  rw [hgraph] at hmirror
  generalize hbytes : ByteParse.graph source.toList limits ⟨l.place, x.token, []⟩ = r at hmirror
  cases hmirror with
  | @ok _ g _ q hg hfollows _ =>
      obtain rfl := hg
      -- the marks that the triple of the whole module speaks of are all the marks
      have hkeeps : ByteParse.Keeps Parse.Any [] (ByteParse.graph source.toList limits) :=
        ByteParse.keeps_graph
      obtain ⟨marks, hmarks, hnested⟩ := hkeeps ⟨l.place, x.token, []⟩ _ q trivial hbytes
      obtain rfl : q.passed.reverse = marks := by simp [hmarks]
      have htokens : q.passed.reverse.map Mark.token = p.passed.reverse.map Lexeme.token := by
        rw [List.map_reverse, hfollows.passed, List.map_reverse]
      obtain ⟨hfault, hlexemes⟩ := (Lexer.reads_iff _ _).mp hreads
      refine ⟨q.passed.reverse, _, ByteParser.parse_of_ok hnext hbytes,
        (Lexer.tokenize_eq_ok_iff _ _ _).mpr ⟨hfault, ?_, rfl⟩, hnested, hnested.properlyNested⟩
      rw [hlexemes, htokens]

/-- An attribute value with brackets in brackets parses, with its brackets nested. -/
theorem Graph.parse_nested_value :
    Graph.parse .standard "module attributes {k = [(1)]} {}" =
      .ok ⟨none, [], [], Attributes.empty.insert "k" (.opaqueText "[ ( 1 ) ]")⟩ ∧
    ∃ marks l, ByteParser.parse .standard "module attributes {k = [(1)]} {}" =
        some (.ok ⟨none, [], [], Attributes.empty.insert "k" (.opaqueText "[ ( 1 ) ]")⟩, marks) ∧
      Lexer.tokenize (.ofSource .standard "module attributes {k = [(1)]} {}") =
        .ok (marks.map Mark.token) l ∧
      Nested [] marks [] ∧
      ProperlyNested ((marks.filter Mark.isStructural).map Mark.kind) := by
  have hparse : Graph.parse .standard "module attributes {k = [(1)]} {}" =
      .ok ⟨none, [], [], Attributes.empty.insert "k" (.opaqueText "[ ( 1 ) ]")⟩ := by cbv
  exact ⟨hparse, Graph.parse_nested .standard _ _ hparse⟩

/-- The tokens of the lexemes that are read up to the end of a source have their kinds. -/
theorem Lexer.exists_tokenize_of_reads {l : Lexer} {xs : List Lexeme} (h : l.Reads xs)
    {R : List TokenKind → Prop} (hR : R (xs.map Lexeme.kind)) :
    ∃ tokens m, Lexer.tokenize l = .ok tokens m ∧ R (tokens.map Token.kind) := by
  obtain ⟨hfault, hlexemes⟩ := (Lexer.reads_iff _ _).mp h
  refine ⟨_, _, (Lexer.tokenize_eq_ok_iff _ _ _).mpr ⟨hfault, rfl, rfl⟩, ?_⟩
  rw [hlexemes, List.map_map]
  exact hR

/-- An attribute value in which a parenthesis is closed by a square bracket. -/
theorem Graph.parse_crossed_value :
    Graph.parse .standard "module attributes \x7bk = (]\x7d \x7b\x7d" =
      .ok ⟨none, [], [], Attributes.empty.insert "k" (.opaqueText "( ]")⟩ := by cbv

/-- A location in which a square bracket is left open. -/
theorem Graph.parse_unclosed_location :
    Graph.parse .standard "module \x7bfunc @f(%a: i32 loc([))\x7d" =
      .ok ⟨none, [⟨"f", none, [⟨"%a", "i32", .empty, some "loc([)"⟩], [], .empty, [], false⟩], [],
        .empty⟩ := by cbv

/-- Sources parse whose brackets are not properly nested: in an attribute value a parenthesis is
closed by a square bracket, and in a location a square bracket is left open. -/
theorem Graph.parse_crossed :
    (∃ g tokens l, Graph.parse .standard "module attributes \x7bk = (]\x7d \x7b\x7d" = .ok g ∧
      Lexer.tokenize (.ofSource .standard "module attributes \x7bk = (]\x7d \x7b\x7d") =
        .ok tokens l ∧
      ¬ ProperlyNested (tokens.map Token.kind)) ∧
    ∃ g tokens l, Graph.parse .standard "module \x7bfunc @f(%a: i32 loc([))\x7d" = .ok g ∧
      Lexer.tokenize (.ofSource .standard "module \x7bfunc @f(%a: i32 loc([))\x7d") = .ok tokens l ∧
      ¬ ProperlyNested (tokens.map Token.kind) := by
  constructor
  · have hreads :
        (Lexer.ofSource .standard "module attributes \x7bk = (]\x7d \x7b\x7d").Reads _ :=
      .more rfl (by decide) <| .more rfl (by decide) <| .more rfl (by decide) <|
      .more rfl (by decide) <| .more rfl (by decide) <| .more rfl (by decide) <|
      .more rfl (by decide) <| .more rfl (by decide) <| .more rfl (by decide) <|
      .more rfl (by decide) <| .last rfl rfl
    obtain ⟨tokens, l, htokens, hkinds⟩ :=
      Lexer.exists_tokenize_of_reads hreads (R := fun kinds => ¬ ProperlyNested kinds) (by decide)
    exact ⟨_, tokens, l, Graph.parse_crossed_value, htokens, hkinds⟩
  · -- names are read by a recursion that does not unfold by itself
    have hsymbol : Lexer.next ⟨.standard, ⟨12, 1, 13⟩, " @f(%a: i32 loc([))\x7d".toList⟩ =
        .ok ⟨" ", "@f", ⟨.symbolRefId, .text "@f", ⟨⟨13, 1, 14⟩, 2⟩⟩⟩
          ⟨.standard, ⟨15, 1, 16⟩, "(%a: i32 loc([))\x7d".toList⟩ := by cbv
    have hvalue : Lexer.next ⟨.standard, ⟨16, 1, 17⟩, "%a: i32 loc([))\x7d".toList⟩ =
        .ok ⟨"", "%a", ⟨.valueId, .text "%a", ⟨⟨16, 1, 17⟩, 2⟩⟩⟩
          ⟨.standard, ⟨18, 1, 19⟩, ": i32 loc([))\x7d".toList⟩ := by cbv
    have hreads : (Lexer.ofSource .standard "module \x7bfunc @f(%a: i32 loc([))\x7d").Reads _ :=
      .more rfl (by decide) <| .more rfl (by decide) <| .more rfl (by decide) <|
      .more hsymbol (by decide) <| .more rfl (by decide) <| .more hvalue (by decide) <|
      .more rfl (by decide) <| .more rfl (by decide) <| .more rfl (by decide) <|
      .more rfl (by decide) <| .more rfl (by decide) <| .more rfl (by decide) <|
      .more rfl (by decide) <| .more rfl (by decide) <| .last rfl rfl
    obtain ⟨tokens, l, htokens, hkinds⟩ :=
      Lexer.exists_tokenize_of_reads hreads (R := fun kinds => ¬ ProperlyNested kinds) (by decide)
    exact ⟨_, tokens, l, Graph.parse_unclosed_location, htokens, hkinds⟩

end GenericIR
