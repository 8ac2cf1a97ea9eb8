/-
# Locations put behind operations

A source that parses may be cut directly behind the last token of any of its operations, and a
location put in there.  Where the operation has none and does not end open, the graph is the same
but for the location of that operation.  Where it ends open, the keyword of the location is taken
for a further operand and refused, so that the source does not parse any more.

* `CutBehind` : sources that are cut behind an operation;
* `Graph.parse_with_location` : a location put behind an operation.
-/
import GenericIR.Proofs.Brackets.Balance
import GenericIR.Proofs.Joined.Operations
import GenericIR.Proofs.Trailing.Refusal

namespace GenericIR

/-! ## The lexemes of a location -/

/-- A location behind a blank, as it is written. -/
def locationChunks : List Chunk :=
  [⟨[' '], ['l', 'o', 'c'], (.keyword, .text "loc")⟩, ⟨[], ['('], (.lparen, .text "(")⟩,
    ⟨[], ['#'], (.keyword, .text "#")⟩, ⟨[], ['x'], (.identifier, .text "x")⟩,
    ⟨[], [')'], (.rparen, .text ")")⟩]

/-- A location is read back before any text. -/
theorem readsBack_locationChunks (limits : Limits) (t : List Char) :
    ReadsBack limits locationChunks t :=
  ⟨rfl, ⟨_, _, rfl, rfl⟩, rfl, ⟨_, _, rfl, rfl⟩, rfl, ⟨_, _, rfl, rfl⟩, rfl, ⟨_, _, rfl, rfl⟩,
    rfl, ⟨_, _, rfl, rfl⟩, trivial⟩

/-- The lexemes of chunks, wherever they stand. -/
abbrev AreLexemes (cs : List Chunk) (xs : List Lexeme) : Prop :=
  List.Forall₂ (fun (c : Chunk) x => ∃ p, c.lexeme p = x) cs xs

/-- Chunks that are read back are read before a text. -/
theorem ReadsBack.exists_readsTo {limits : Limits} {cs : List Chunk} {t : List Char}
    (h : ReadsBack limits cs t) (p : Place) : ∃ xs q,
      Lexer.ReadsTo ⟨limits, p, spell cs t⟩ xs ⟨limits, q, t⟩ ∧ AreLexemes cs xs := by
  induction cs generalizing p with
  | nil => exact ⟨[], p, .nil, .nil⟩
  | cons c cs ih =>
      obtain ⟨hgap, hscan, hrest⟩ := h
      obtain ⟨xs, q, hxs, hcs⟩ := ih hrest (c.after p)
      refine ⟨_, q, .cons (Lexer.next_chunk p hgap hscan) ?_ hxs, .cons ⟨p, rfl⟩ hcs⟩
      obtain ⟨d, u, _, hscan⟩ := hscan
      exact kind_ne_eof_of_scanToken limits d _ c.meaning.1 c.meaning.2 (by rw [hscan])

/-- The lexemes of a location are one, whatever is behind them. -/
theorem AreLexemes.exists_location {xs : List Lexeme} (h : AreLexemes locationChunks xs) :
    ∃ w vs, xs = w :: vs ∧ Grammar.IsLocWord w ∧
      ∀ fits ys, Grammar.IsLocation fits (xs ++ ys) "loc(#x)" ys := by
  obtain _ | ⟨⟨p₁, rfl⟩, h⟩ := h
  obtain _ | ⟨⟨p₂, rfl⟩, _ | ⟨⟨p₃, rfl⟩, _ | ⟨⟨p₄, rfl⟩, _ | ⟨⟨p₅, rfl⟩, _ | _⟩⟩⟩⟩ := h
  refine ⟨_, _, rfl, ⟨rfl, rfl⟩, fun fits ys => ?_⟩
  exact .intro ⟨rfl, rfl⟩ (.intro rfl (.inner (by rintro ⟨⟩) (by rintro ⟨⟩) (by rintro ⟨⟩)
    (.inner (by rintro ⟨⟩) (by rintro ⟨⟩) (by rintro ⟨⟩) (.last rfl))))

/-! ## Sources with a location put in -/

/-- A source that is cut in front of a lexeme, with a location put in there: its lexemes up to the
cut, those of the location, and the others. -/
theorem Lexer.ReadsTo.exists_reads_located {limits : Limits} {source front back : String}
    {l : Lexer} {us ys : List Lexeme} {y : Lexeme}
    (h : (ofSource limits source).ReadsTo us l) (hsource : source = front ++ back)
    (hrest : l.rest = back.toList) (hback : l.Reads (y :: ys)) (hy : y.kind ≠ .eof) :
    ∃ us' w vs ys',
      (ofSource limits (front ++ " loc(#x) " ++ back)).Reads (us' ++ w :: (vs ++ ys')) ∧
      List.Forall₂ Lexeme.Twin us us' ∧ Grammar.IsLocWord w ∧
      (∀ fits, Grammar.IsLocation fits (w :: (vs ++ ys')) "loc(#x)" ys') ∧
      Resumed (y :: ys) ys' := by
  obtain ⟨htook, hlimits, _⟩ := h.took
  have htext : front.toList ++ back.toList = spelled us ++ back.toList := by
    rw [← String.toList_append, ← hsource, ← hrest]
    exact htook
  have hfront := List.append_cancel_right htext
  have hbreaks : Breaks (" loc(#x) ".toList ++ back.toList) := fun c hc => by
    cases hc
    rfl
  obtain ⟨us', q, hus', htwins⟩ := h.cut hbreaks .start
  obtain ⟨_, r, hlexemes, hlocation⟩ :=
    (readsBack_locationChunks limits (' ' :: back.toList)).exists_readsTo q
  obtain ⟨w, vs, rfl, hw, hlocation⟩ := hlocation.exists_location
  obtain ⟨ys', hys', hresumed⟩ := hback.resumed hy (.blank (c := ' ') rfl .nil) r
  rw [hlimits, hrest] at hys'
  refine ⟨us', w, vs, ys', ?_, htwins, hw, fun fits => hlocation fits ys', hresumed⟩
  rw [ofSource, String.toList_append, String.toList_append, hfront, List.append_assoc]
  exact hus'.reads (hlexemes.reads hys')

/-! ## Sources that are cut behind an operation -/

namespace Grammar

section Cut

variable {limits : Limits} {source front back : String} {hole : Graph.Hole} {op : Operation}
  {fits : Nat → Prop} {xs ys xs' ys' zs run : List Lexeme}

/-- Whether a source is cut into a front and a back directly behind the operation in a hole of its
graph: the lexemes that are read up to there are those up to the end of the operation, which
is read from the run. -/
inductive CutBehind (limits : Limits) (source : String) (hole : Graph.Hole) (op : Operation)
    (run : List Lexeme) (front back : String) : Prop where
  | intro {us ys : List Lexeme} {l : Lexer} (hsource : source = front ++ back)
      (hfront : (Lexer.ofSource limits source).ReadsTo us l) (hrest : l.rest = back.toList)
      (hback : l.Reads ys)
      (hop : OperationIn (· ≤ limits.maxNestingDepth) (us ++ ys) hole run op ys) :
      CutBehind limits source hole op run front back

/-- A source that parses is cut behind any of its operations. -/
theorem exists_cutBehind (h : Graph.parse limits source = .ok (hole.fill op)) :
    ∃ run front back, CutBehind limits source hole op run front back := by
  obtain ⟨_, _, _, _, _, hreads⟩ := Graph.reads_of_parse h
  have hmodule := (Graph.parse_iff_isModule hreads (fun _ _ => Iff.rfl) _).mp h
  obtain ⟨run, ys, hop⟩ := hmodule.exists_operationIn
  obtain ⟨us, hus⟩ := hop.suffix
  rw [← hus] at hreads hop
  obtain ⟨y, zs, rfl, _⟩ := hop.kind_mem
  obtain ⟨l, hfront, hback⟩ := hreads.exists_readsTo (List.cons_ne_nil y zs)
  refine ⟨run, .ofList (spelled us), .ofList l.rest, .intro ?_ hfront ?_ hback hop⟩
  · rw [← String.ofList_append, ← hfront.took.1]
    exact String.ofList_toList.symm
  · exact String.toList_ofList.symm

/-- A source that is cut behind an operation parses to the graph with the operation. -/
theorem CutBehind.parse (h : CutBehind limits source hole op run front back) :
    Graph.parse limits source = .ok (hole.fill op) := by
  obtain ⟨_, hfront, _, hback, hop⟩ := h
  exact (Graph.parse_iff_isModule (hfront.reads hback) (fun _ _ => Iff.rfl) _).mpr hop.isModule

/-- **A location behind an operation that does not end open.**  The module is the same, but that
the operation has the location. -/
theorem OperationIn.located {text : String} (h : OperationIn fits xs hole run op ys)
    (hnone : op.location = none) (hfree : ¬ EndsOpen run) (hm : Moved Located xs ys xs' ys')
    (hlocation : IsLocation fits ys' text zs) (hresumed : Resumed ys zs) :
    IsModule fits xs' (hole.fill { op with location := some text }) := by
  obtain ⟨run', hfront, hback⟩ := h.exists_moved hm
  exact (h.replaced hfront (h.isOperation.located hnone hfree hback hlocation) hresumed).isModule

/-- **A location behind an operation that ends open.**  There is no module any more. -/
theorem OperationIn.not_isModule {w : Lexeme} (h : OperationIn fits xs hole run op ys)
    (hopen : EndsOpen run) (hxs : Readable fits xs) (hm : Moved Located xs ys xs' (w :: ys'))
    (hw : w.kind = .keyword) (hxs' : Readable fits xs') (g : Graph) : ¬ IsModule fits xs' g := by
  intro hmodule
  obtain ⟨run', hfront, hback⟩ := h.exists_moved hm
  obtain ⟨hbefore, hop, _⟩ := h
  have hbefore' := hbefore.moved hfront
  obtain ⟨op', zs, hop'⟩ := hbefore'.exists_isOperation hxs' hmodule
  exact hopen.refuses (hbefore.readable hxs) hop hback hw (hbefore'.readable hxs') hop'

end Cut

end Grammar

/-- **A location put behind an operation.**  A source that parses is cut directly behind any
operation of its graph that has no location.  With `loc(#x)` put in there it parses to the same
graph, but that the operation has this location, unless the operation ends with its name, its
callee or open operands; then it does not parse. -/
theorem Graph.parse_with_location {limits : Limits} {source : String} {hole : Hole} {op : Operation}
    (h : Graph.parse limits source = .ok (hole.fill op)) (hnone : op.location = none) :
    (∃ run front back, Grammar.CutBehind limits source hole op run front back) ∧
      ∀ run front back, Grammar.CutBehind limits source hole op run front back →
        (¬ Grammar.EndsOpen run → Graph.parse limits (front ++ " loc(#x) " ++ back) =
          .ok (hole.fill { op with location := some "loc(#x)" })) ∧
        (Grammar.EndsOpen run →
          ∃ d, Graph.parse limits (front ++ " loc(#x) " ++ back) = .error d) := by
  refine ⟨Grammar.exists_cutBehind h, ?_⟩
  rintro run front back ⟨hsource, hfront, hrest, hback, hop⟩
  obtain ⟨y, ys, rfl, hy⟩ := hop.kind_mem
  have heof : y.kind ≠ .eof := by
    rintro hend
    rw [hend] at hy
    exact absurd hy (by decide)
  obtain ⟨us', w, vs, ys', hreads, htwins, hw, hlocation, hresumed⟩ :=
    hfront.exists_reads_located hsource hrest hback heof
  have hparse := Graph.parse_iff_isModule hreads (fun _ _ => Iff.rfl)
  have hm : Moved Grammar.Located _ (y :: ys) _ (w :: (vs ++ ys')) :=
    (Copied.of_twins htwins (Or.inr ⟨hy, hw.1⟩)).moved
  constructor
  · intro hfree
    exact (hparse _).mpr (hop.located hnone hfree hm (hlocation _) hresumed)
  · intro hopen
    cases hresult : Graph.parse limits (front ++ " loc(#x) " ++ back) with
    | error d => exact ⟨d, rfl⟩
    | ok g =>
        exact absurd ((hparse g).mp hresult) (hop.not_isModule hopen
          (hfront.reads hback).readable hm hw.1 hreads.readable g)

/-- Behind operands in parentheses a location is the location of the operation. -/
theorem Graph.parse_with_location_parentheses :
    Graph.parse .standard "module \x7bfoo()\x7d" = .ok ⟨none, [], [.named "foo"], .empty⟩ ∧
    (Operation.named "foo").location = none ∧
    Graph.parse .standard ("module \x7bfoo()" ++ " loc(#x) " ++ "\x7d") =
      .ok ⟨none, [], [{ Operation.named "foo" with location := some "loc(#x)" }], .empty⟩ := by
  have hback : Lexer.Reads ⟨.standard, ⟨13, 1, 14⟩, "\x7d".toList⟩ [_, _] :=
    .more rfl (by decide) <| .last rfl rfl
  have hfront : (Lexer.ofSource .standard "module \x7bfoo()\x7d").ReadsTo [_, _, _, _, _]
      ⟨.standard, ⟨13, 1, 14⟩, "\x7d".toList⟩ :=
    .cons rfl (by decide) <| .cons rfl (by decide) <| .cons rfl (by decide) <|
    .cons rfl (by decide) <| .cons rfl (by decide) .nil
  have hcut : Grammar.CutBehind .standard "module \x7bfoo()\x7d"
      (.ofModule ⟨none, [], [], .empty⟩ [] []) (.named "foo") _ "module \x7bfoo()" "\x7d" :=
    .intro rfl hfront rfl hback (.intro (.ofModule (.intro rfl (by decide) (.missing (by decide))
      (.missing fun h => absurd h.1 (by decide)) rfl) .nil (by decide) (by decide))
      (.general (.intro (.none (.none (by decide) (by decide))) (.one rfl (by decide))
        (.missing (by decide)) (.enclosed rfl (.done (by decide)) rfl) (.missing (by decide))
        (.intro (.missing (by decide))) (.intro (.missing (by decide))))
        (fun h => absurd h (by decide)) (.intro (.missing (by decide))) (.missing (by decide))
        (.intro (.missing (by decide))) (.missing fun h => absurd h.1 (by decide)))
      (.ofModule (g := ⟨none, [], [], .empty⟩) (.done (by decide)) rfl rfl rfl))
  refine ⟨hcut.parse, rfl, ((Graph.parse_with_location hcut.parse rfl).2 _ _ _ hcut).1 ?_⟩
  exact Grammar.not_endsOpen_of_lparen rfl rfl

/-- Behind a name alone a location is refused: its keyword is read as an operand. -/
theorem Graph.parse_location_refused :
    Graph.parse .standard "module \x7b foo\x7d" = .ok ⟨none, [], [.named "foo"], .empty⟩ ∧
    (Operation.named "foo").location = none ∧
    Graph.parse .standard ("module \x7b foo" ++ " loc(#x) " ++ "\x7d") =
      .error ⟨.unexpectedConstruct "operation operands" "KEYWORD `loc`",
        some ⟨⟨13, 1, 14⟩, 3⟩, some "module \x7b foo loc(#x) \x7d"⟩ := by
  have hreads : (Lexer.ofSource .standard "module \x7b foo\x7d").Reads [_, _, _, _, _] :=
    .more rfl (by decide) <| .more rfl (by decide) <| .more rfl (by decide) <|
    .more rfl (by decide) <| .last rfl rfl
  refine ⟨(Graph.parse_iff_isModule hreads (fun _ _ => Iff.rfl) _).mpr (.intro (.intro rfl
    (by decide) (.missing (by decide)) (.missing fun h => absurd h.1 (by decide)) rfl
    (.more (by decide) (.operation (by decide)
      (Grammar.IsName.isOperation (.one rfl (by decide)) rfl (by decide))) (.done (by decide)))
    rfl) rfl), rfl, ?_⟩
  cbv

end GenericIR
