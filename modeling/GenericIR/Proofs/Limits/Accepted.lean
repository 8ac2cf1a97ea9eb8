/-
# The limits in what is accepted

A source that parses is within its limits, as far as these are counted.  No type and no dense
literal has more angle brackets open at a time than the bound on the depth, and no attribute value
more brackets of any kind.  In a body, a region group or a location only the brackets of the sort of
its own are counted, and its own bracket is there before they are; so is the first part of a name.

* `AcceptedWithin` : what the limits allow a source that parses to be;
* `Graph.within_of_parse` : every source that parses is within its limits;
* `Graph.parse_beyond_limits` : what is not counted may go beyond them.
-/
import GenericIR.Proofs.Brackets.Balance
import GenericIR.Proofs.Limits.Token
import GenericIR.Proofs.Recognition.Module

namespace GenericIR

/-! ## Depths and counts -/

section Depth

variable {bound depth next : Nat} {opens closes : TokenKind → Bool} {k : TokenKind}
  {kinds : List TokenKind}

/-- A token that opens a bracket makes the depth larger, and only one that closes a bracket makes it
smaller. -/
theorem count_of_depthWithin? (h : depthWithin? bound opens closes depth k = some next) :
    depth + (if opens k then 1 else 0) ≤ next + if closes k then 1 else 0 := by
  unfold depthWithin? depthAfter? at h
  split at h
  · next hopen =>
      split at h <;> cases h
      rw [if_pos hopen]
      omega
  · next hopen =>
      rw [if_neg hopen]
      split at h
      · next hclose =>
          rw [if_pos hclose]
          split at h <;> cases h
          omega
      · cases h
        exact Nat.le_add_right _ _

/-- A token does not lead beyond the bound, nor beyond a larger one. -/
theorem le_of_depthWithin? {larger : Nat} (h : depthWithin? bound opens closes depth k = some next)
    (hbound : bound ≤ larger) (hdepth : depth ≤ larger) : next ≤ larger := by
  unfold depthWithin? depthAfter? at h
  split at h
  · split at h <;> cases h
    omega
  · split at h
    · split at h <;> cases h
      omega
    · cases h
      exact hdepth

/-- Behind some tokens no more brackets have been opened than have been closed or are still open,
and no more of them than the bound are open. -/
theorem countP_of_foldlM_depthWithin?
    (h : kinds.foldlM (depthWithin? bound opens closes) depth = some next)
    (hdepth : depth ≤ bound) :
    depth + kinds.countP opens ≤ next + kinds.countP closes ∧ next ≤ bound := by
  induction kinds generalizing depth with
  | nil =>
      cases h
      exact ⟨Nat.le_refl _, hdepth⟩
  | cons k kinds ih =>
      rw [List.foldlM_cons, Option.bind_eq_bind, Option.bind_eq_some_iff] at h
      obtain ⟨between, hk, hlater⟩ := h
      have hcount := count_of_depthWithin? hk
      obtain ⟨hcounts, hle⟩ := ih hlater (le_of_depthWithin? hk (Nat.le_refl _) hdepth)
      rw [List.countP_cons, List.countP_cons]
      exact ⟨by omega, hle⟩

end Depth

/-! ## Levels -/

section Level

variable {limit : Nat} {opened : List TokenKind} {depth : Nat} {level : List TokenKind × Nat}

/-- Behind a mark of the structure no other bracket is open. -/
theorem levelAfter?_structural {m : Mark} (hrole : m.role = .structural)
    (h : levelAfter? limit (opened, depth) m = some level) :
    openAfter? opened m.kind = some level.1 ∧ level.2 = 0 := by
  obtain ⟨role, t⟩ := m
  obtain rfl : role = .structural := hrole
  rw [levelAfter?] at h
  split at h
  · obtain ⟨after, hafter, rfl⟩ := Option.map_eq_some_iff.mp h
    exact ⟨hafter, rfl⟩
  · cases h

/-- A mark does not lead beyond the bound. -/
theorem le_of_levelAfter? {m : Mark} (h : levelAfter? limit (opened, depth) m = some level)
    (hdepth : depth ≤ limit) : level.2 ≤ limit := by
  cases hrole : m.role with
  | structural => exact (levelAfter?_structural hrole h).2 ▸ Nat.zero_le limit
  | value =>
      rw [levelAfter?_value hrole] at h
      obtain ⟨next, hnext, rfl⟩ := Option.map_eq_some_iff.mp h
      exact le_of_depthWithin? hnext (Nat.le_refl _) hdepth
  | captured =>
      obtain ⟨role, t⟩ := m
      obtain rfl : role = .captured := hrole
      cases opened with
      | nil => cases h
      | cons closing opened =>
          rw [levelAfter?] at h
          obtain ⟨next, hnext, rfl⟩ := Option.map_eq_some_iff.mp h
          exact le_of_depthWithin? hnext (Nat.sub_le _ _) hdepth

/-- Marks do not lead beyond the bound. -/
theorem le_of_foldlM_levelAfter? {marks : List Mark} (hdepth : depth ≤ limit)
    (h : marks.foldlM (levelAfter? limit) (opened, depth) = some level) : level.2 ≤ limit := by
  induction marks generalizing opened depth with
  | nil =>
      cases h
      exact hdepth
  | cons m marks ih =>
      rw [List.foldlM_cons, Option.bind_eq_bind, Option.bind_eq_some_iff] at h
      obtain ⟨between, hm, hlater⟩ := h
      exact ih (le_of_levelAfter? hm hdepth) hlater

/-- Marks of one role open no more brackets than are closed, up to the bound. -/
theorem countP_of_foldlM_levelAfter? {bound : Nat} {opens closes : TokenKind → Bool}
    {run : List Mark}
    (hstep : ∀ m ∈ run, ∀ depth, levelAfter? limit (opened, depth) m =
      (depthWithin? bound opens closes depth m.kind).map fun next => (opened, next))
    (hdepth : depth ≤ bound) (h : run.foldlM (levelAfter? limit) (opened, depth) = some level) :
    run.countP (opens ·.kind) ≤ run.countP (closes ·.kind) + bound := by
  rw [foldlM_levelAfter? hstep] at h
  obtain ⟨next, hnext, _⟩ := Option.map_eq_some_iff.mp h
  obtain ⟨hcount, hle⟩ := countP_of_foldlM_depthWithin? hnext hdepth
  rw [List.countP_map, List.countP_map] at hcount
  change depth + run.countP (opens ·.kind) ≤ next + run.countP (closes ·.kind) at hcount
  omega

end Level

namespace NestedWithin

variable {limit : Nat} {opened after : List TokenKind} {front marks back run : List Mark}

/-- Some of the marks lead from one level to another, the one before them within the bound. -/
theorem exists_level (h : NestedWithin limit opened (front ++ marks ++ back) after) :
    ∃ before behind, front.foldlM (levelAfter? limit) (opened, 0) = some before ∧
      before.2 ≤ limit ∧ marks.foldlM (levelAfter? limit) before = some behind := by
  have hlevel := h.level
  rw [List.foldlM_append, Option.bind_eq_bind, Option.bind_eq_some_iff] at hlevel
  obtain ⟨behind, hlevel, _⟩ := hlevel
  rw [List.foldlM_append, Option.bind_eq_bind, Option.bind_eq_some_iff] at hlevel
  obtain ⟨before, hbefore, hbehind⟩ := hlevel
  exact ⟨before, behind, hbefore, le_of_foldlM_levelAfter? (Nat.zero_le _) hbefore, hbehind⟩

/-- In an attribute value no more brackets than the bound are open, whatever their sorts. -/
theorem countP_value (h : NestedWithin limit opened (front ++ run ++ back) after)
    (hrole : ∀ m ∈ run, m.role = .value) :
    run.countP (·.kind.isOpenBracket) ≤ run.countP (·.kind.isCloseBracket) + limit := by
  obtain ⟨⟨opened, depth⟩, behind, _, hdepth, hrun⟩ := h.exists_level
  exact countP_of_foldlM_levelAfter?
    (fun m hm depth => levelAfter?_value (hrole m hm) limit opened depth) hdepth hrun

/-- From the bracket of a capture on, no more brackets of its sort than the bound are open, and
that bracket is open in any case. -/
theorem countP_captured {m : Mark} {closing : TokenKind}
    (h : NestedWithin limit opened (front ++ m :: run ++ back) after)
    (hstructural : m.role = .structural) (hclosing : m.kind.closing? = some closing)
    (hrole : ∀ x ∈ run, x.role = .captured) :
    (m :: run).countP (·.kind == m.kind) ≤ run.countP (·.kind == closing) + max 1 limit := by
  obtain ⟨⟨opened, depth⟩, behind, _, _, hlevel⟩ := h.exists_level
  rw [List.foldlM_cons, Option.bind_eq_bind, Option.bind_eq_some_iff] at hlevel
  obtain ⟨⟨inside, inner⟩, hm, hrun⟩ := hlevel
  obtain ⟨hinside, rfl⟩ := levelAfter?_structural hstructural hm
  rw [openAfter?_opening hclosing] at hinside
  cases hinside
  have hcount := countP_of_foldlM_levelAfter?
    (fun x hx depth => levelAfter?_captured (hrole x hx) hclosing limit opened depth)
    (Nat.zero_le _) hrun
  rw [List.countP_cons, if_pos (beq_self_eq_true _)]
  omega

end NestedWithin

/-! ## Sources that parse -/

/-- What the limits allow the marks that are gone past in a source to be. -/
structure AcceptedWithin (limits : Limits) (source : String) (marks : List Mark) : Prop where
  /-- The text of every token is within them. -/
  tokens : ∀ m ∈ marks, ∃ text,
    slice? source.toList m.token.span.offset m.token.span.stop = some text ∧
      TextWithin limits m.kind text
  /-- In an attribute value no more brackets than the bound are open, whatever their sorts. -/
  values : ∀ front run back, marks = front ++ run ++ back → (∀ m ∈ run, m.role = .value) →
    run.countP (·.kind.isOpenBracket) ≤
      run.countP (·.kind.isCloseBracket) + limits.maxNestingDepth
  /-- From the bracket of a capture on, no more brackets of its sort than the bound are open, but
  that one is open in any case. -/
  captures : ∀ front m run back closing, marks = front ++ m :: run ++ back →
    m.role = .structural → m.kind.closing? = some closing → (∀ x ∈ run, x.role = .captured) →
    (m :: run).countP (·.kind == m.kind) ≤
      run.countP (·.kind == closing) + max 1 limits.maxNestingDepth

/-- The parser over bytes goes past the tokens of a source that parses, up to its end, and the
brackets of the marks are nested within the bound on the depth. -/
theorem Graph.nestedWithin_of_parse {limits : Limits} {source : String} {g : Graph}
    (h : Graph.parse limits source = .ok g) :
    ∃ marks xs, ByteParser.parse limits source = some (.ok g, marks) ∧
      (Lexer.ofSource limits source).Reads xs ∧ marks.map Mark.token = xs.map Lexeme.token ∧
      NestedWithin limits.maxNestingDepth [] marks [] := by
  obtain ⟨x, l, p, hnext, hgraph, hreads⟩ := Graph.reads_of_parse h
  have hmirror := ByteParse.mirrors_graph _ _ (ByteParser.follows_ofSource hnext)
  rw [hgraph] at hmirror
  generalize hbytes : ByteParse.graph source.toList limits ⟨l.place, x.token, []⟩ = r at hmirror
  cases hmirror with
  | @ok _ g _ q hg hfollows _ =>
      obtain rfl := hg
      have hkeeps : ByteParse.KeepsWithin limits Parse.Any []
          (ByteParse.graph source.toList limits) := ByteParse.keepsWithin_graph
      obtain ⟨marks, hmarks, hwithin⟩ := hkeeps ⟨l.place, x.token, []⟩ _ q trivial hbytes
      obtain rfl : q.passed.reverse = marks := by simp [hmarks]
      refine ⟨q.passed.reverse, _, ByteParser.parse_of_ok hnext hbytes, hreads, ?_, hwithin⟩
      rw [List.map_reverse, hfollows.passed, List.map_reverse]

/-- **A source that parses is within its limits, as far as these are counted.**  The tokens that
the parser over bytes goes past are those of the source up to its end, and they, the attribute
values and the captures are within the limits. -/
theorem Graph.within_of_parse {limits : Limits} {source : String} {g : Graph}
    (h : Graph.parse limits source = .ok g) :
    ∃ marks l, ByteParser.parse limits source = some (.ok g, marks) ∧
      Lexer.tokenize (.ofSource limits source) = .ok (marks.map Mark.token) l ∧
      AcceptedWithin limits source marks := by
  obtain ⟨marks, xs, hparse, hreads, htokens, hwithin⟩ := Graph.nestedWithin_of_parse h
  obtain ⟨hfault, hlexemes⟩ := (Lexer.reads_iff _ _).mp hreads
  refine ⟨marks, _, hparse, (Lexer.tokenize_eq_ok_iff _ _ _).mpr ⟨hfault, ?_, rfl⟩,
    ⟨?_, ?_, ?_⟩⟩
  · rw [hlexemes, htokens]
  · -- a mark has the token of a lexeme that is read
    intro m hm
    have hmem := List.mem_map_of_mem (f := Mark.token) hm
    rw [htokens] at hmem
    obtain ⟨x, hx, hxm⟩ := List.mem_map.mp hmem
    refine ⟨x.text.toList, ?_, ?_⟩
    · rw [← hxm]
      exact hreads.slice?_eq (.start source.toList) x hx
    · rw [Mark.kind, ← hxm]
      exact hreads.textWithin x hx
  · intro front run back hall hrole
    rw [hall] at hwithin
    exact hwithin.countP_value hrole
  · intro front m run back closing hall hstructural hclosing hrole
    rw [hall] at hwithin
    exact hwithin.countP_captured hstructural hclosing hrole

/-- An attribute value with two brackets open is within a bound of two. -/
theorem Graph.within_nested_value :
    Graph.parse ⟨2, 1⟩ "module attributes {k = [(1)]} {}" =
      .ok ⟨none, [], [], Attributes.empty.insert "k" (.opaqueText "[ ( 1 ) ]")⟩ ∧
    ∃ marks l, ByteParser.parse ⟨2, 1⟩ "module attributes {k = [(1)]} {}" =
        some (.ok ⟨none, [], [], Attributes.empty.insert "k" (.opaqueText "[ ( 1 ) ]")⟩, marks) ∧
      Lexer.tokenize (.ofSource ⟨2, 1⟩ "module attributes {k = [(1)]} {}") =
        .ok (marks.map Mark.token) l ∧
      AcceptedWithin ⟨2, 1⟩ "module attributes {k = [(1)]} {}" marks := by
  have hparse : Graph.parse ⟨2, 1⟩ "module attributes {k = [(1)]} {}" =
      .ok ⟨none, [], [], Attributes.empty.insert "k" (.opaqueText "[ ( 1 ) ]")⟩ := by cbv
  exact ⟨hparse, Graph.within_of_parse hparse⟩

/-- With bounds of zero a source parses that has a name of one part, and a region group with two
brackets open at a time. -/
theorem Graph.parse_beyond_limits :
    Graph.parse ⟨0, 0⟩ "module @m \x7ba()([])\x7d" =
      .ok ⟨some "m", [], [{ Operation.named "a" with regions := some "([])" }], .empty⟩ := by
  have hsymbol : Lexer.next ⟨⟨0, 0⟩, ⟨6, 1, 7⟩, " @m \x7ba()([])\x7d".toList⟩ =
      .ok ⟨" ", "@m", ⟨.symbolRefId, .text "@m", ⟨⟨7, 1, 8⟩, 2⟩⟩⟩
        ⟨⟨0, 0⟩, ⟨9, 1, 10⟩, " \x7ba()([])\x7d".toList⟩ := by cbv
  have hreads : (Lexer.ofSource ⟨0, 0⟩ "module @m \x7ba()([])\x7d").Reads _ :=
    .more rfl (by decide) <| .more hsymbol (by decide) <| .more rfl (by decide) <|
    .more rfl (by decide) <| .more rfl (by decide) <| .more rfl (by decide) <|
    .more rfl (by decide) <| .more rfl (by decide) <| .more rfl (by decide) <|
    .more rfl (by decide) <| .more rfl (by decide) <| .last rfl rfl
  refine (Graph.parse_iff_isModule hreads (fun _ _ => Iff.rfl) _).mpr (.intro
    (.intro rfl (by decide) (.present rfl (.intro rfl)) (.missing fun h => absurd h.1 (by decide))
      rfl (.more (by decide) (.operation (by decide) (.general (.intro
        (.none (.none (by decide) (by decide))) (.one rfl (by decide)) (.missing (by decide))
        (.enclosed rfl (.done (by decide)) rfl)
        (.present rfl (.intro (.intro rfl (.inner (by decide) (by decide) (by decide)
          (.inner (by decide) (by decide) (by decide) (.last rfl))))))
        (.intro (.missing (by decide))) (.intro (.missing (by decide))))
        (fun h => absurd h (by decide)) (.intro (.missing (by decide))) (.missing (by decide))
        (.intro (.missing (by decide))) (.missing fun h => absurd h.1 (by decide))))
        (.done (by decide))) rfl) rfl)

end GenericIR
