/-
# Limits as cut-offs

A limit is looked at in four places: at an opening angle bracket, at the mark between two parts
of a reference, and at an opening bracket of an attribute value or of a capture.  None of them
tells anything but whether to go on.  Two readings of one text under a narrow and a wide limit
are the same step by step, up to the step at which the narrow one ends with its limit.

* `scanToken_cutOff` : one token under two limits;
* `Parse.Composed.cutOff` : one production under two limits;
* `Graph.parse_cutOff` : a whole source under two limits.
-/
import Mathlib
import GenericIR.Proofs.Composition

namespace GenericIR

/-- Limits that are nowhere above other limits. -/
structure Limits.Within (narrow wide : Limits) : Prop where
  depth : narrow.maxNestingDepth ≤ wide.maxNestingDepth
  segments : narrow.maxSymbolSegments ≤ wide.maxSymbolSegments

/-- A fault that says a limit was passed. -/
def Fault.IsLimit (fault : Fault) : Prop := ∃ limit value, fault = .limitExceeded limit value

/-! ## Tokens -/

/-- Scans of one text under two limits: the same scan, or the first one passed its limit. -/
def Scan.CutOff {α : Type} (s s' : Scan α) : Prop :=
  s = s' ∨ ∃ fault, s.outcome = .error fault ∧ fault.IsLimit

namespace Scan.CutOff

variable {α β : Type} {s s' : Scan α}

/-- More characters in front of both scans. -/
theorem prepend (h : s.CutOff s') (front : List Char) :
    (s.prepend front).CutOff (s'.prepend front) := by
  rcases h with rfl | ⟨fault, hs, hlimit⟩
  · exact Or.inl rfl
  · exact Or.inr ⟨fault, hs, hlimit⟩

/-- Another meaning of both scans. -/
theorem map (h : s.CutOff s') (f : α → β) : (s.map f).CutOff (s'.map f) := by
  rcases h with rfl | ⟨fault, hs, hlimit⟩
  · exact Or.inl rfl
  · exact Or.inr ⟨fault, by rw [outcome_map, hs]; rfl, hlimit⟩

end Scan.CutOff

/-- Angle brackets that stay within a bound are read in one way under any bound above it. -/
theorem angles_eq_or_tooDeep {narrow wide : Nat} (h : narrow ≤ wide) (depth : Nat)
    (text : List Char) :
    angles narrow depth text = angles wide depth text ∨
      (angles narrow depth text).2 = .tooDeep := by
  fun_induction angles narrow depth text with
  | case1 => exact Or.inl rfl
  | case2 => exact Or.inr rfl
  | case3 depth rest hdepth tail ending heq ih =>
      rw [heq] at ih
      rcases ih with ih | ih
      · by_cases hwide : wide ≤ depth
        · exact absurd (Nat.le_trans h hwide) hdepth
        · exact Or.inl (by rw [angles, if_pos rfl, if_neg hwide, ← ih])
      · exact Or.inr ih
  | case4 depth c rest hopen hclose =>
      exact Or.inl (by rw [angles, if_neg hopen, if_pos hclose])
  | case5 depth c rest hopen hclose tail ending heq ih =>
      simp only [heq] at ih
      rcases ih with ih | ih
      · exact Or.inl (by rw [angles, if_neg hopen, if_neg hclose, ← ih])
      · exact Or.inr ih

/-- The parts of a name under two bounds on their number. -/
theorem parts_cutOff {narrow wide : Nat} (h : narrow ≤ wide) (sigil : Char) (count : Nat)
    (text : List Char) : (parts sigil narrow count text).CutOff (parts sigil wide count text) := by
  fun_induction parts sigil narrow count text with
  | case1 count text hquote =>
      rw [parts, if_pos hquote]
      exact Or.inl rfl
  | case2 count text hquote front rest hrest hmax => exact Or.inr ⟨_, rfl, _, _, rfl⟩
  | case3 count text hquote front rest hrest hmax again mark ih =>
      have hwide : ¬ wide ≤ count := fun hle => hmax (Nat.le_trans h hle)
      conv => rhs; rw [parts, if_neg hquote]
      split
      · next rest' hrest' =>
          obtain rfl : rest' = rest := by simpa [hrest] using hrest'.symm
          rw [if_neg hwide]
          exact (ih.map _).prepend _
      · next hnone => exact absurd hrest (hnone rest)
  | case4 count text hquote front hnone =>
      conv => rhs; rw [parts, if_neg hquote]
      split
      · next rest hrest => exact absurd hrest (hnone rest)
      · exact Or.inl rfl

section Limits

variable {narrow wide : Limits} (h : narrow.Within wide)
include h

/-- A word or an angle bracket form under two limits. -/
theorem word_cutOff (text : List Char) : (word narrow text).CutOff (word wide text) := by
  unfold word
  dsimp only
  split
  · next rest _ =>
      rcases angles_eq_or_tooDeep h.depth 0 ('<' :: rest) with heq | hdeep
      · rw [heq]
        cases hending : (angles wide.maxNestingDepth 0 ('<' :: rest)).2 with
        | closed => exact Or.inl rfl
        | tooDeep => exact Or.inr ⟨_, rfl, _, _, rfl⟩
        | unclosed => exact Or.inl rfl
      · rw [hdeep]
        exact Or.inr ⟨_, rfl, _, _, rfl⟩
  · exact Or.inl rfl

/-- A symbol or a block label with parts under two limits. -/
theorem reference_cutOff (sigil : Char) (kind : TokenKind) (rest : List Char) :
    (reference narrow sigil kind rest).CutOff (reference wide sigil kind rest) :=
  ((parts_cutOff h.segments sigil 1 rest).map _).prepend _

/-- A block label under two limits. -/
theorem label_cutOff (rest : List Char) : (label narrow rest).CutOff (label wide rest) := by
  unfold label
  split
  · exact reference_cutOff h _ _ _
  · exact Or.inl rfl
  · exact reference_cutOff h _ _ _

/-- A token under two limits. -/
theorem scanToken_cutOff (c : Char) (rest : List Char) :
    (scanToken narrow c rest).CutOff (scanToken wide c rest) := by
  unfold scanToken
  split
  · exact Or.inl rfl
  split
  · exact Or.inl rfl
  split
  · exact word_cutOff h _
  split
  · exact reference_cutOff h _ _ _
  split
  · exact Or.inl rfl
  split
  · exact label_cutOff h _
  · exact Or.inl rfl

end Limits

/-! ## Results under two limits -/

/-- Results under two limits, with states in a relation behind them: one value, one diagnostic,
or the first one passed its limit. -/
inductive CutOff {σ α : Type} (R : σ → σ → Prop) :
    EStateM.Result Diagnostic σ α → EStateM.Result Diagnostic σ α → Prop where
  | ok {a : α} {s s' : σ} (h : R s s') : CutOff R (.ok a s) (.ok a s')
  | error {d : Diagnostic} {s s' : σ} : CutOff R (.error d s) (.error d s')
  | cut {d : Diagnostic} {s : σ} {r : EStateM.Result Diagnostic σ α} (h : d.fault.IsLimit) :
      CutOff R (.error d s) r

/-- Lexers at one place of one text, the second one with wider limits. -/
structure Lexer.Widened (l l' : Lexer) : Prop where
  limits : l.limits.Within l'.limits
  place : l.place = l'.place
  rest : l.rest = l'.rest

/-- Parsers with one lookahead and one past, the second one with wider limits. -/
structure Parser.Widened (p p' : Parser) : Prop where
  lexer : p.lexer.Widened p'.lexer
  lookahead : p.lookahead = p'.lookahead
  passed : p.passed = p'.passed
  skipped : p.skipped = p'.skipped

namespace Lexer

/-- Lexers that go over one text stay at one place. -/
theorem Widened.skip {l l' : Lexer} (h : l.Widened l') (text : List Char) :
    (l.skip text).Widened (l'.skip text) :=
  ⟨h.limits, congrArg (Place.after · text) h.place, congrArg (List.drop text.length) h.rest⟩

/-- A scan taken under two limits. -/
theorem Widened.take {l l' : Lexer} (h : l.Widened l') (blank : List Char)
    {s s' : Scan Meaning} (hs : s.CutOff s') :
    CutOff Widened (Lexer.take blank s l) (Lexer.take blank s' l') := by
  rcases hs with rfl | ⟨fault, hfault, hlimit⟩
  · unfold Lexer.take
    dsimp only
    rw [h.place]
    cases s.outcome with
    | ok meaning => exact .ok (h.skip _)
    | error fault => exact .error
  · unfold Lexer.take
    rw [hfault]
    exact .cut hlimit

/-- One reading under two limits. -/
theorem Widened.next {l l' : Lexer} (h : l.Widened l') :
    CutOff Widened (Lexer.next l) (Lexer.next l') := by
  have hskip := h.skip (gap l.rest)
  unfold Lexer.next
  dsimp only
  rw [← h.rest, ← hskip.rest]
  split
  · rw [hskip.place]
    exact .ok hskip
  · exact hskip.take _ (scanToken_cutOff hskip.limits _ _)

end Lexer

/-! ## Steps under two limits -/

namespace Parser.Widened

variable {p p' : Parser}

/-- Parsers that differ in their limits have one lookahead. -/
theorem kind (h : p.Widened p') : p.kind = p'.kind := by
  rw [Parser.kind, Parser.kind, h.lookahead]

/-- Parsers that differ in their limits have as much left. -/
theorem left (h : p.Widened p') : p.left = p'.left := by
  rw [Parser.left, Parser.left, h.kind, h.lexer.rest]

end Parser.Widened

namespace CutOff

open Parse (current checkDepth braceOpensAttributes bind_apply current_bind_apply)

variable {α β : Type} {p p' : Parser}

/-- A fault at the lookahead is one diagnostic under two limits. -/
theorem fail (hp : p.Widened p') (fault : Fault) :
    CutOff Parser.Widened ((Parse.fail fault : Parse α) p) (Parse.fail fault p') := by
  rw [Parse.fail, Parse.fail, hp.lookahead]
  exact .error

/-- Going past the lookahead under two limits. -/
theorem advance (hp : p.Widened p') :
    CutOff Parser.Widened (Parse.advance p) (Parse.advance p') := by
  have hnext := hp.lexer.next
  unfold Parse.advance
  generalize Lexer.next p.lexer = r at hnext
  generalize Lexer.next p'.lexer = r' at hnext
  rw [hp.lookahead, hp.passed]
  cases hnext with
  | ok hl => exact .ok ⟨hl, rfl, rfl, rfl⟩
  | error => exact .error
  | cut hlimit => exact .cut hlimit

/-- One step after another under two limits. -/
theorem bind {m : Parse α} {f : α → Parse β} (hm : CutOff Parser.Widened (m p) (m p'))
    (hf : ∀ a q q', q.Widened q' → CutOff Parser.Widened (f a q) (f a q')) :
    CutOff Parser.Widened ((m >>= f) p) ((m >>= f) p') := by
  rw [bind_apply, bind_apply]
  generalize m p = r at hm
  generalize m p' = r' at hm
  cases hm with
  | ok hq => exact hf _ _ _ hq
  | error => exact .error
  | cut hlimit => exact .cut hlimit

/-- Checking a depth before a step: what stays within the narrow limit stays within the wide
one. -/
theorem check (hp : p.Widened p') (depth : Nat) {m : Parse α}
    (hm : CutOff Parser.Widened (m p) (m p')) :
    CutOff Parser.Widened ((checkDepth depth >>= fun _ => m) p)
      ((checkDepth depth >>= fun _ => m) p') := by
  rw [bind_apply, bind_apply, checkDepth, checkDepth]
  by_cases hdeep : p.lexer.limits.maxNestingDepth < depth
  · rw [if_pos hdeep]
    exact .cut ⟨_, _, rfl⟩
  · have hwide : ¬ p'.lexer.limits.maxNestingDepth < depth := fun hlt =>
      hdeep (Nat.lt_of_le_of_lt hp.lexer.limits.depth hlt)
    rw [if_neg hdeep, if_neg hwide]
    exact hm

/-- The peek behind a brace before a step, which reads on from clones of both lexers. -/
theorem peek (hp : p.Widened p') {f : Bool → Parse α}
    (hf : ∀ b, CutOff Parser.Widened (f b p) (f b p')) :
    CutOff Parser.Widened ((braceOpensAttributes >>= f) p) ((braceOpensAttributes >>= f) p') := by
  rw [bind_apply, bind_apply, braceOpensAttributes, braceOpensAttributes]
  have hnext := hp.lexer.next
  generalize Lexer.next p.lexer = r at hnext
  generalize Lexer.next p'.lexer = r' at hnext
  cases hnext with
  | error => exact .error
  | cut hlimit => exact .cut hlimit
  | @ok x l l' hl =>
      dsimp only
      by_cases hx : x.token.kind = .identifier
      · rw [if_pos hx, if_pos hx]
        have hsecond := hl.next
        generalize Lexer.next l = r at hsecond
        generalize Lexer.next l' = r' at hsecond
        cases hsecond with
        | ok _ => exact hf _
        | error => exact .error
        | cut hlimit => exact .cut hlimit
      · rw [if_neg hx, if_neg hx]
        exact hf false

/-- A list of turns under two limits, by induction on the turns. -/
theorem collect {σ : Type} {turn : σ → Parse (Turn σ α)}
    (h : ∀ s p p', p.Widened p' → CutOff Parser.Widened (turn s p) (turn s p')) (s : σ)
    (hp : p.Widened p') :
    CutOff Parser.Widened (Parse.collect turn s p) (Parse.collect turn s p') := by
  induction hn : p.left using Nat.strongRecOn generalizing s p p' with
  | ind n ih =>
      have hfirst := h s p p' hp
      rw [Parse.collect, Parse.collect]
      generalize turn s p = r at hfirst
      generalize turn s p' = r' at hfirst
      cases hfirst with
      | error => exact .error
      | cut hlimit => exact .cut hlimit
      | @ok t q q' hq =>
          cases t with
          | stop => exact .ok hq
          | last item => exact .ok hq
          | more item next =>
              dsimp only
              rw [← hq.left, ← hp.left]
              split
              · next hleft =>
                  have hlater := ih q.left (hn ▸ hleft) next hq rfl
                  generalize Parse.collect turn next q = r at hlater
                  generalize Parse.collect turn next q' = r' at hlater
                  cases hlater with
                  | ok hr => exact .ok hr
                  | error => exact .error
                  | cut hlimit => exact .cut hlimit
              · exact .ok hq

end CutOff

namespace Parse

/-- A production does the same under two limits, or the narrow one cuts it off. -/
theorem Composed.cutOff {α : Type} {P : TokenKind → Prop} {m : Parse α} (h : Composed P m)
    {p p' : Parser} (hkind : P p.kind) (hp : p.Widened p') :
    CutOff Parser.Widened (m p) (m p') := by
  induction h generalizing p p' with
  | pure a => exact .ok hp
  | fail fault _ => exact .fail hp fault
  | advance _ => exact .advance hp
  | bind _ _ ihm ihf => exact .bind (ihm hkind hp) fun a q q' hq => ihf a trivial hq
  | @look _ _ f _ ih =>
      rw [current_bind_apply, current_bind_apply, ← hp.lookahead]
      exact ih p.lookahead.token hkind rfl hp
  | check _ ih => exact .check hp _ (ih hkind hp)
  | @skipped _ _ f _ ih =>
      rw [skipped_bind_apply, skipped_bind_apply, ← hp.skipped]
      exact ih p.skipped hkind hp
  | peek _ ih => exact .peek hp fun b => ih b hkind hp
  | collect _ ih => exact .collect (fun s p p' hp => ih s trivial hp) _ hp

/-- A whole module under two limits. -/
theorem cutOff_graph {p p' : Parser} (hp : p.Widened p') :
    CutOff Parser.Widened (graph p) (graph p') := by
  refine .bind (composed_moduleText.cutOff (P := Any) trivial hp) fun g q q' hq =>
    .bind ?_ fun _ r r' hr => .ok hr
  rw [consume, current_bind_apply, current_bind_apply, hq.lookahead]
  by_cases hkind : q'.lookahead.token.kind = .eof
  · rw [if_pos hkind]
    exact .advance hq
  · rw [if_neg hkind]
    exact .fail hq _

end Parse

/-! ## Whole sources -/

/-- A source under two limits: one outcome, or the narrow limits are passed. -/
theorem Graph.parse_eq_or_isLimit {narrow wide : Limits} (h : narrow.Within wide)
    (source : String) :
    Graph.parse narrow source = Graph.parse wide source ∨
      ∃ d, Graph.parse narrow source = .error d ∧ d.fault.IsLimit := by
  have hstart : (Lexer.ofSource narrow source).Widened (.ofSource wide source) := ⟨h, rfl, rfl⟩
  have hnext := hstart.next
  have hlimit : ∀ d : Diagnostic, d.fault.IsLimit → (d.inSource source).fault.IsLimit :=
    fun d hd => by rwa [Diagnostic.fault_inSource]
  unfold Graph.parse Parser.ofSource
  generalize Lexer.next (.ofSource narrow source) = r at hnext
  generalize Lexer.next (.ofSource wide source) = r' at hnext
  cases hnext with
  | error => exact Or.inl rfl
  | cut hd => exact Or.inr ⟨_, rfl, hlimit _ hd⟩
  | @ok x l l' hl =>
      have hwidened : Parser.Widened ⟨l, x, [], []⟩ ⟨l', x, [], []⟩ := ⟨hl, rfl, rfl, rfl⟩
      have hgraph := Parse.cutOff_graph hwidened
      dsimp only
      generalize Parse.graph ⟨l, x, [], []⟩ = r at hgraph
      generalize Parse.graph ⟨l', x, [], []⟩ = r' at hgraph
      cases hgraph with
      | ok _ => exact Or.inl rfl
      | error => exact Or.inl rfl
      | cut hd => exact Or.inr ⟨_, rfl, hlimit _ hd⟩

/-- Limits only cut off.  Under limits nowhere above others a source has the same outcome, the
source line of its diagnostic included, or passes a limit.  So wider limits keep every graph and
every diagnostic that is not of a limit. -/
theorem Graph.parse_cutOff {narrow wide : Limits} (h : narrow.Within wide) (source : String) :
    (Graph.parse narrow source = Graph.parse wide source ∨
      ∃ d limit value, Graph.parse narrow source = .error d ∧
        d.fault = .limitExceeded limit value) ∧
    (∀ g, Graph.parse narrow source = .ok g → Graph.parse wide source = .ok g) ∧
    (∀ d, Graph.parse narrow source = .error d →
      (∀ limit value, d.fault ≠ .limitExceeded limit value) →
      Graph.parse wide source = .error d) := by
  rcases Graph.parse_eq_or_isLimit h source with heq | ⟨d, hd, limit, value, hfault⟩
  · exact ⟨Or.inl heq, fun g hg => heq ▸ hg, fun d hd _ => heq ▸ hd⟩
  · refine ⟨Or.inr ⟨d, limit, value, hd, hfault⟩, fun g hg => ?_, fun e he hne => ?_⟩
    · rw [hd] at hg
      cases hg
    · rw [hd] at he
      cases he
      exact absurd hfault (hne limit value)

/-- A bracket in an attribute value passes the limit where no nesting is allowed, and no limit
above it. -/
theorem Graph.parse_cutOff_bracket :
    (⟨0, 32⟩ : Limits).Within ⟨1, 32⟩ ∧
    Graph.parse ⟨0, 32⟩ "module attributes \x7bk = [1]\x7d \x7b\x7d" ≠
      Graph.parse ⟨1, 32⟩ "module attributes \x7bk = [1]\x7d \x7b\x7d" ∧
    ∃ d limit value, Graph.parse ⟨0, 32⟩ "module attributes \x7bk = [1]\x7d \x7b\x7d" = .error d ∧
      d.fault = .limitExceeded limit value := by
  have hne : Graph.parse ⟨0, 32⟩ "module attributes \x7bk = [1]\x7d \x7b\x7d" ≠
      Graph.parse ⟨1, 32⟩ "module attributes \x7bk = [1]\x7d \x7b\x7d" := by
    have hnarrow : (Graph.parse ⟨0, 32⟩ "module attributes \x7bk = [1]\x7d \x7b\x7d").isOk = false :=
      by cbv
    have hwide : (Graph.parse ⟨1, 32⟩ "module attributes \x7bk = [1]\x7d \x7b\x7d").isOk = true :=
      by cbv
    intro h
    rw [h, hwide] at hnarrow
    cases hnarrow
  have hwithin : (⟨0, 32⟩ : Limits).Within ⟨1, 32⟩ := ⟨by decide, by decide⟩
  exact ⟨hwithin, hne, (Graph.parse_cutOff hwithin _).1.resolve_left hne⟩

end GenericIR
