/-
# What the productions are made of

Every production of the grammar is put together from a handful of steps.  `Parse.Composed`
says so for one production at a time: `Composed P m` means that `m`, started at a lookahead
whose kind is in `P`, only ever goes past a lookahead that is not the end of the text.  What
all productions have in common is then proved once, by induction on how they are made.

* `Parse.composed_operation`, `Parse.composed_function` : the productions are so composed;
* `Parse.Composed.moves` : such a step moves the parser by readings before the end.
-/
import Mathlib.Logic.Relation
import GenericIR.Grammar.Module
import GenericIR.Proofs.Reading

namespace GenericIR

/-! ## Who raises a fault -/

/-- Whether a fault is one that the lexer raises: a token that has no end or no value, or a
limit on the nesting of a type or on the parts of a reference. -/
def Fault.isFromLexer : Fault → Bool
  | .unterminatedString | .unterminatedType _ | .invalidNumber _ => true
  | .limitExceeded limit _ =>
    limit == "type nesting depth" || limit == "qualified reference segments"
  | .unexpectedKind _ _ | .unexpectedValue _ _ | .unexpectedConstruct _ _ | .unbalanced _ => false

/-! ## Moves of a parser -/

/-- One reading of a parser whose lookahead is not the end of the text.  A fault of the lexer
leaves the lookahead. -/
inductive Parser.Move : Parser → Parser → Prop where
  | past {p : Parser} {x : Lexeme} {l : Lexer} (hnext : Lexer.next p.lexer = .ok x l)
      (hp : p.kind ≠ .eof) : Move p ⟨l, x, p.lookahead :: p.passed, []⟩
  | fault {p : Parser} {d : Diagnostic} {l : Lexer} (hnext : Lexer.next p.lexer = .error d l)
      (hp : p.kind ≠ .eof) : Move p ⟨l, p.lookahead, p.passed, p.skipped ++ p.lexer.textUpTo l⟩

/-- Any number of moves. -/
abbrev Parser.Moves : Parser → Parser → Prop := Relation.ReflTransGen Parser.Move

namespace Parse

/-- The parser after a step, whether the step gave a value or a diagnostic. -/
def after {α : Type} (m : Parse α) (p : Parser) : Parser :=
  match m p with
  | .ok _ q => q
  | .error _ q => q

section

variable {α β : Type} {m : Parse α} {f : α → Parse β} {p q : Parser}

/-- The parser after a step that gives a value. -/
theorem after_of_ok {a : α} (h : m p = .ok a q) : after m p = q := by
  rw [after, h]

/-- The parser after a step that fails. -/
theorem after_of_error {d : Diagnostic} (h : m p = .error d q) : after m p = q := by
  rw [after, h]

/-- The parser after two steps is the one after the second, unless the first fails. -/
theorem after_bind (m : Parse α) (f : α → Parse β) (p : Parser) :
    after (m >>= f) p = match m p with
      | .ok a q => after (f a) q
      | .error _ q => q := by
  unfold after
  rw [bind_apply]
  cases m p <;> rfl

/-- Two steps give a value where both of them do. -/
theorem exists_of_bind_ok {b : β} (h : (m >>= f) p = .ok b q) :
    ∃ a r, m p = .ok a r ∧ f a r = .ok b q := by
  rw [bind_apply] at h
  cases hm : m p with
  | ok a r =>
      rw [hm] at h
      exact ⟨a, r, rfl, h⟩
  | error d r =>
      rw [hm] at h
      cases h

/-- Two steps end with an error where the first or the second of them does. -/
theorem cases_of_bind_error {d : Diagnostic} (h : (m >>= f) p = .error d q) :
    m p = .error d q ∨ ∃ a r, m p = .ok a r ∧ f a r = .error d q := by
  rw [bind_apply] at h
  cases hm : m p with
  | ok a r =>
      rw [hm] at h
      exact Or.inr ⟨a, r, rfl, h⟩
  | error e r =>
      rw [hm] at h
      cases h
      exact Or.inl rfl

end

/-- Going on goes past the lookahead. -/
theorem passed_of_advance {p q : Parser} {x : Lexeme} (h : advance p = .ok x q) :
    x = p.lookahead ∧ q.passed = p.lookahead :: p.passed := by
  unfold advance at h
  split at h
  · cases h
    exact ⟨rfl, rfl⟩
  · cases h

/-- The peek behind a brace does not move the parser. -/
theorem braceOpensAttributes_apply (p : Parser) :
    (∃ b, braceOpensAttributes p = .ok b p) ∨ ∃ d, braceOpensAttributes p = .error d p := by
  unfold braceOpensAttributes
  split
  · exact Or.inr ⟨_, rfl⟩
  · split
    · split
      · exact Or.inr ⟨_, rfl⟩
      · exact Or.inl ⟨_, rfl⟩
    · exact Or.inl ⟨_, rfl⟩

/-! ## Composed steps -/

/-- Any lookahead. -/
def Any (_ : TokenKind) : Prop := True

/-- A step that is made of the primitive ones and, from a lookahead whose kind is in `P`, goes
past no lookahead that may be the end of the text.  The faults it ends with by itself are none
of the lexer's. -/
inductive Composed : {α : Type} → (TokenKind → Prop) → Parse α → Prop where
  | pure {α : Type} {P : TokenKind → Prop} (a : α) : Composed P (pure a)
  | fail {α : Type} {P : TokenKind → Prop} (fault : Fault)
      (hfault : fault.isFromLexer = false := by rfl) : Composed P (fail fault : Parse α)
  | advance {P : TokenKind → Prop} (h : ¬ P .eof) : Composed P advance
  | bind {α β : Type} {P : TokenKind → Prop} {m : Parse α} {f : α → Parse β}
      (hm : Composed P m) (hf : ∀ a, Composed Any (f a)) : Composed P (m >>= f)
  | look {α : Type} {P : TokenKind → Prop} {f : Token → Parse α}
      (h : ∀ t, P t.kind → Composed (· = t.kind) (f t)) : Composed P (current >>= f)
  | check {α : Type} {P : TokenKind → Prop} {depth : Nat} {m : Parse α} (hm : Composed P m) :
      Composed P (checkDepth depth >>= fun _ => m)
  | skipped {α : Type} {P : TokenKind → Prop} {f : List Char → Parse α}
      (h : ∀ text, Composed P (f text)) : Composed P (skipped >>= f)
  | peek {α : Type} {P : TokenKind → Prop} {f : Bool → Parse α}
      (h : ∀ b, Composed P (f b)) : Composed P (braceOpensAttributes >>= f)
  | collect {σ α : Type} {P : TokenKind → Prop} {turn : σ → Parse (Turn σ α)} {s : σ}
      (h : ∀ s, Composed Any (turn s)) : Composed P (collect turn s)

namespace Composed

/-- Fewer lookaheads to start from ask for less. -/
theorem mono {α : Type} {P Q : TokenKind → Prop} {m : Parse α} (h : Composed P m)
    (hQ : ∀ k, Q k → P k) : Composed Q m := by
  induction h with
  | pure a => exact .pure a
  | fail fault hfault => exact .fail fault hfault
  | advance h => exact .advance fun hq => h (hQ _ hq)
  | bind _ hf ihm _ => exact .bind (ihm hQ) hf
  | look h _ => exact .look fun t ht => h t (hQ _ ht)
  | check _ ih => exact .check (ih hQ)
  | skipped _ ih => exact .skipped fun text => ih text hQ
  | peek _ ih => exact .peek fun b => ih b hQ
  | collect h _ => exact .collect h

variable {α : Type} {P : TokenKind → Prop}

/-- Asking whether the lookahead is of a kind settles it for what follows. -/
theorem sees {k : TokenKind} {f : Bool → Parse α} (htrue : P k → Composed (· = k) (f true))
    (hfalse : Composed (· ≠ k) (f false)) : Composed P (Parse.sees k >>= f) := by
  show Composed P (current >>= fun t => f (decide (t.kind = k)))
  refine .look fun t ht => ?_
  by_cases hk : t.kind = k
  · rw [decide_eq_true hk, hk]
    exact htrue (hk ▸ ht)
  · rw [decide_eq_false hk]
    exact hfalse.mono fun j hj => hj ▸ hk

/-- Accepting a kind goes past it, or settles that the lookahead is of another kind. -/
theorem accept {k : TokenKind} (hk : k ≠ .eof) {f : Bool → Parse α}
    (htrue : Composed Any (f true)) (hfalse : Composed (· ≠ k) (f false)) :
    Composed P (Parse.accept k >>= f) := by
  rw [accept_bind]
  refine sees (fun _ => ?_) ?_
  · exact .bind (.advance fun h => hk h.symm) fun _ => htrue
  · exact hfalse

/-- Asking for a kind other than the end goes past it or fails. -/
theorem consume {k : TokenKind} (hk : k ≠ .eof) : Composed P (Parse.consume k) := by
  unfold Parse.consume
  refine .look fun t _ => ?_
  split
  · next ht => exact .advance fun h => hk (by rw [← ht, ← h])
  · exact .fail _

/-- Asking for a kind with a text goes past it or fails. -/
theorem consumeText {k : TokenKind} (hk : k ≠ .eof) (text : String) :
    Composed P (Parse.consumeText k text) := by
  unfold Parse.consumeText
  refine .look fun t _ => ?_
  split
  · exact .fail _
  · exact consume hk

/-- A token that a production cannot start with is a failure. -/
theorem unexpected (context : String) : Composed P (Parse.unexpected context : Parse α) :=
  .look fun _ _ => .fail _

/-- Going past a lookahead before the end is one reading. -/
theorem moves_advance {p : Parser} (hp : p.kind ≠ .eof) : p.Moves (Parse.advance.after p) := by
  unfold Parse.after Parse.advance
  split
  · next q hq =>
      split at hq
      · next x l hnext => cases hq; exact .single (.past hnext hp)
      · cases hq
  · next q hq =>
      split at hq
      · cases hq
      · next d l hnext => cases hq; exact .single (.fault hnext hp)

/-- A list of turns moves the parser by the readings of its turns. -/
theorem moves_collect {σ : Type} {turn : σ → Parse (Turn σ α)}
    (h : ∀ (s : σ) (p : Parser), p.Moves ((turn s).after p)) (s : σ) (p : Parser) :
    p.Moves ((Parse.collect turn s).after p) := by
  unfold Parse.after
  fun_induction Parse.collect turn s p with
  | case1 s p d q hturn | case2 s p q hturn | case3 s p item q hturn
  | case6 s p item next q hturn hleft =>
      have hmove := h s p
      rwa [Parse.after, hturn] at hmove
  | case4 s p item next q hturn hleft items r hrest ih
  | case5 s p item next q hturn hleft d r hrest ih =>
      have hmove := h s p
      rw [Parse.after, hturn] at hmove
      rw [hrest] at ih
      exact hmove.trans ih

/-- A composed step moves the parser by readings from lookaheads before the end. -/
theorem moves {m : Parse α} (h : Composed P m) (p : Parser) (hp : P p.kind) :
    p.Moves (m.after p) := by
  induction h generalizing p with
  | pure a => exact .refl
  | fail fault _ => exact .refl
  | advance h => exact moves_advance fun heof => h (heof ▸ hp)
  | @bind _ _ _ m f _ _ ihm ihf =>
      have hm := ihm p hp
      unfold Parse.after at hm ⊢
      rw [bind_apply]
      cases hres : m p with
      | ok a q =>
          rw [hres] at hm
          exact hm.trans (ihf a q trivial)
      | error d q =>
          rw [hres] at hm
          exact hm
  | @look _ _ f _ ih => exact ih p.lookahead.token hp p rfl
  | @check _ _ depth m _ ih =>
      have hm := ih p hp
      unfold Parse.after at hm ⊢
      rw [bind_apply, checkDepth]
      by_cases hdepth : p.lexer.limits.maxNestingDepth < depth
      · simp only [hdepth, if_true, Parse.fail]
        exact .refl
      · simp only [hdepth, if_false]
        exact hm
  | @skipped _ _ f _ ih => exact ih p.skipped p hp
  | @peek _ _ f _ ih =>
      unfold Parse.after
      rw [bind_apply]
      rcases braceOpensAttributes_apply p with ⟨b, hb⟩ | ⟨d, hd⟩
      · rw [hb]
        exact ih b p hp
      · rw [hd]
  | @collect σ β _ turn s _ ih => exact moves_collect (fun s p => ih s p trivial) s p

end Composed

/-! ## The productions -/

section Lists

variable {α : Type} {P : TokenKind → Prop} {item : Parse α}

/-- A list up to a lookahead of some kinds. -/
theorem composed_itemsUntil (stops : List TokenKind) (hitem : ∀ {P}, Composed P item) :
    Composed P (itemsUntil stops item) := by
  refine .collect fun _ => .look fun t _ => ?_
  split
  · exact .pure _
  · exact .bind hitem fun _ => .pure _

/-- A list up to a closing bracket. -/
theorem composed_closedItems (close : TokenKind) (hitem : ∀ {P}, Composed P item) :
    Composed P (closedItems close item) := by
  refine .collect fun _ => .sees (fun _ => .pure _) (.bind hitem fun a => ?_)
  exact .accept (by decide) (.pure _) (.pure _)

/-- The further items of a list with commas. -/
theorem composed_collect_commaTurn (hitem : ∀ {P}, Composed P item) :
    Composed P (collect (commaTurn item) ()) :=
  .collect fun _ => .accept (by decide) (.bind hitem fun _ => .pure _) (.pure _)

/-- A list of at least one item. -/
theorem composed_openItems (hitem : ∀ {P}, Composed P item) : Composed P (openItems item) :=
  .bind hitem fun _ => .bind (composed_collect_commaTurn hitem) fun _ => .pure _

/-- Any number of commas. -/
theorem composed_skipCommas : Composed P skipCommas :=
  .bind (composed_collect_commaTurn (.pure ())) fun _ => .pure _

end Lists

section Productions

variable {P : TokenKind → Prop}

/-- A capture between brackets. -/
theorem composed_balanced {opening : TokenKind} (closing : TokenKind) (context : String)
    (h : opening ≠ .eof) : Composed P (balanced opening closing context) := by
  refine .bind (.consume h) fun _ => .bind (.collect fun depth => ?_) fun _ => .pure _
  refine .sees (fun _ => .fail _) (.bind (.advance fun hne => hne rfl) fun x => ?_)
  split
  · exact .check (.pure _)
  · split
    · split <;> exact .pure _
    · exact .pure _

/-- The text of a capture. -/
theorem composed_capture {opening : TokenKind} (closing : TokenKind) (context : String)
    (h : opening ≠ .eof) : Composed P (capture opening closing context) :=
  .skipped fun _ => .bind (composed_balanced closing context h) fun _ => .pure _

/-- A location. -/
theorem composed_location : Composed P location := by
  refine .look fun t _ => ?_
  split
  · next ht =>
      refine .skipped fun _ => .bind (.advance fun h => by rw [ht.1] at h; cases h) fun x => ?_
      refine .sees (fun _ => ?_) (.unexpected _)
      exact .bind (composed_balanced _ _ (by decide)) fun _ => .pure _
  · exact .pure _

/-- A type. -/
theorem composed_type : Composed P type := by
  refine .look fun t _ => ?_
  split
  · next ht =>
      refine .bind (.advance fun h => ?_) fun _ => .pure _
      rcases ht with ht | ht <;> rw [ht] at h <;> cases h
  · split
    · next ht =>
        refine .bind (.advance fun h => by rw [ht.1] at h; cases h) fun bang => ?_
        refine .look fun u _ => ?_
        split
        · next hu =>
            refine .bind (.advance fun h => ?_) fun _ => .pure _
            rcases hu.2 with hu | hu <;> rw [hu] at h <;> cases h
        · exact .unexpected _
    · exact .unexpected _

/-- A list of types. -/
theorem composed_typeList : Composed P typeList := by
  refine .accept (by decide) ?_ (composed_openItems composed_type)
  exact .bind (composed_closedItems _ composed_type) fun _ => .bind (.consume (by decide))
    fun _ => .pure _

/-- An attribute value. -/
theorem composed_attributeValue : Composed P attributeValue := by
  refine .bind (.collect fun depth => .look fun t _ => ?_) fun _ => .pure _
  dsimp only
  split
  · exact .pure _
  · split
    · exact .fail _
    · next heof =>
        have hadv : ∀ {α : Type} (f : Lexeme → α),
            Composed (· = t.kind) (advance >>= fun x => (Pure.pure (f x) : Parse α)) :=
          fun f => .bind (.advance fun h => heof h.symm) fun _ => .pure _
        split
        · exact .check (hadv _)
        · split
          · split
            · exact .fail _
            · exact hadv _
          · exact hadv _

/-- An entry of a dictionary. -/
theorem composed_attributeEntry : Composed P attributeEntry := by
  refine .sees (fun _ => ?_) (.unexpected _)
  refine .bind (.advance (by decide)) fun x => .accept (by decide) ?_ (.pure _)
  exact .bind composed_attributeValue fun _ => .pure _

/-- A dictionary. -/
theorem composed_attributes (into : Attributes) : Composed P (attributes into) := by
  refine .bind (.consume (by decide)) fun _ => .bind (composed_itemsUntil _ ?_) fun _ =>
    .bind (.consume (by decide)) fun _ => .pure _
  exact .bind composed_attributeEntry fun _ => .bind composed_skipCommas fun _ => .pure _

/-- A dictionary that may be missing. -/
theorem composed_optionalAttributes (into : Attributes) :
    Composed P (optionalAttributes into) :=
  .sees (fun _ => composed_attributes into) (.pure _)

/-- A dictionary after its keyword. -/
theorem composed_attributesClause (into : Attributes) :
    Composed P (attributesClause into) := by
  refine .look fun t _ => ?_
  split
  · next ht =>
      exact .bind (.advance fun h => by rw [ht.1] at h; cases h) fun _ =>
        composed_attributes into
  · exact .pure _

/-- A value that an operation defines. -/
theorem composed_returnValue : Composed P returnValue := by
  refine .bind (.consume (by decide)) fun _ => .accept (by decide) ?_ (.pure _)
  exact .bind (.consume (by decide)) fun _ => .pure _

/-- The values that an operation defines, with the equals sign behind them. -/
theorem composed_definitions : Composed P definitions := by
  refine .bind ?_ fun outputs => ?_
  · refine .accept (by decide) ?_ ?_
    · exact .bind (composed_closedItems _ composed_returnValue) fun _ =>
        .bind (.consume (by decide)) fun _ => .pure _
    · exact .sees (fun _ => composed_openItems composed_returnValue) (.pure _)
  · split
    · exact .pure _
    · exact .bind (.consume (by decide)) fun _ => .pure _

/-- The name of an operation. -/
theorem composed_operationName : Composed P operationName := by
  refine .look fun t _ => ?_
  split
  · next ht => exact .bind (.advance fun h => by rw [ht] at h; cases h) fun _ => .pure _
  · split
    · next ht =>
        refine .bind (.advance fun h => by rw [ht] at h; cases h) fun x => ?_
        exact .sees (fun _ => .bind (.advance (by decide)) fun _ => .pure _) (.pure _)
    · exact .unexpected _

/-- A callee that may be missing. -/
theorem composed_callee : Composed P callee :=
  .sees (fun _ => .bind (.advance (by decide)) fun _ => .pure _) (.pure _)

/-- The operands. -/
theorem composed_operands : Composed P operands := by
  have hlist : ∀ {P}, Composed P (collect (fun (_ : Unit) => operandTurn) ()) := by
    refine .collect fun _ => .bind composed_skipCommas fun _ => .look fun t _ => ?_
    dsimp only
    split
    · exact .pure _
    · next hstop =>
        have heof : t.kind ≠ .eof := fun h => hstop (by rw [h]; decide)
        have hadv : ∀ {α : Type} (f : Lexeme → α),
            Composed (· = t.kind) (advance >>= fun x => (Pure.pure (f x) : Parse α)) :=
          fun f => .bind (.advance fun h => heof h.symm) fun _ => .pure _
        split
        · exact hadv _
        · split
          · exact hadv _
          · split
            · exact hadv _
            · exact .unexpected _
  refine .accept (by decide) ?_ ?_
  · exact .bind hlist fun _ => .bind (.consume (by decide)) fun _ => .pure _
  · exact .bind hlist fun _ => .pure _

/-- Types after a mark. -/
theorem composed_typesAfter {k : TokenKind} (hk : k ≠ .eof) : Composed P (typesAfter k) :=
  .accept hk composed_typeList (.pure _)

/-- A region group that may be missing. -/
theorem composed_regionGroup : Composed P regionGroup :=
  .sees (fun _ => .bind (composed_capture _ _ (by decide)) fun _ => .pure _) (.pure _)

/-- A block after the signature. -/
theorem composed_block (into : Attributes) : Composed P (block into) := by
  refine .sees (fun _ => .peek fun b => ?_) (.pure _)
  split
  · exact .bind (composed_attributes into) fun _ => .pure _
  · exact .bind (composed_capture _ _ (by decide)) fun _ => .pure _

/-- An operation up to the types of its operands. -/
theorem composed_operationHead : Composed P operationHead :=
  .bind composed_definitions fun _ => .bind composed_operationName fun _ =>
    .bind composed_callee fun _ => .bind composed_operands fun _ =>
    .bind composed_regionGroup fun _ => .bind (composed_optionalAttributes _) fun _ =>
    .bind (composed_typesAfter (by decide)) fun _ => .pure _

/-- What follows the head of an operation. -/
theorem composed_afterHead (op : Operation) :
    Composed P (sees .arrow >>= fun arrow =>
      if (isConstantName op.name && !arrow) = true then constantTail op else operationTail op) := by
  have hconst : ∀ {P}, Composed P (constantTail op) :=
    .bind composed_location fun _ => .pure _
  have htail : ∀ {P}, Composed P (operationTail op) := by
    refine .bind (composed_typesAfter (by decide)) fun _ => .bind (composed_block _) fun _ => ?_
    exact .bind (composed_optionalAttributes _) fun _ => .bind composed_location fun _ => .pure _
  refine .sees (fun _ => ?_) ?_
  · split
    · exact hconst
    · exact htail
  · split
    · exact hconst
    · exact htail

/-- An operation. -/
theorem composed_operation : Composed P operation :=
  .bind composed_operationHead composed_afterHead

/-- A visibility that may be missing. -/
theorem composed_visibility : Composed P visibility := by
  refine .look fun t _ => ?_
  split
  · next ht => exact .bind (.advance fun h => by rw [ht.1] at h; cases h) fun _ => .pure _
  · exact .pure _

/-- A parameter. -/
theorem composed_parameter : Composed P parameter :=
  .bind (.consume (by decide)) fun _ => .bind (.consume (by decide)) fun _ =>
    .bind composed_type fun _ => .bind (composed_optionalAttributes _) fun _ =>
    .bind composed_location fun _ => .pure _

/-- The parameters. -/
theorem composed_parameters : Composed P parameters :=
  .bind (.consume (by decide)) fun _ => .bind (composed_closedItems _ composed_parameter)
    fun _ => .bind (.consume (by decide)) fun _ => .pure _

/-- A result. -/
theorem composed_result : Composed P result :=
  .bind composed_type fun _ => .bind (composed_optionalAttributes _) fun _ => .pure _

/-- The results. -/
theorem composed_results : Composed P results := by
  refine .accept (by decide) ?_ (.bind composed_type fun _ => .pure _)
  exact .bind (composed_closedItems _ composed_result) fun _ =>
    .bind (.consume (by decide)) fun _ => .pure _

/-- A body that may be missing. -/
theorem composed_functionBody : Composed P functionBody := by
  refine .accept (by decide) ?_ (.pure _)
  exact .bind (composed_itemsUntil _ composed_operation) fun _ =>
    .bind (.consume (by decide)) fun _ => .pure _

/-- What follows the keyword of a function. -/
theorem composed_functionTail : Composed P functionTail :=
  .bind composed_visibility fun _ => .bind (.consume (by decide)) fun _ =>
    .bind composed_parameters fun _ => .bind (composed_attributesClause _) fun _ =>
    .bind (.accept (by decide) composed_results (.pure _)) fun _ =>
    .bind (composed_attributesClause _) fun _ => .bind composed_functionBody fun _ => .pure _

/-- A function. -/
theorem composed_function : Composed P function :=
  .bind (.consume (by decide)) fun _ => composed_functionTail

/-- An item of a module. -/
theorem composed_moduleItem : Composed P moduleItem := by
  refine .look fun t _ => ?_
  split
  · exact .bind composed_function fun _ => .pure _
  · exact .bind composed_operation fun _ => .pure _

/-- The name of a module, which may be missing. -/
theorem composed_moduleName : Composed P moduleName :=
  .sees (fun _ => .bind (.advance (by decide)) fun _ => .pure _) (.pure _)

/-- A module up to its closing brace. -/
theorem composed_moduleText : Composed P moduleText :=
  .bind (.consumeText (by decide) _) fun _ => .bind composed_moduleName fun _ =>
    .bind (composed_attributesClause _) fun _ => .bind (.consume (by decide)) fun _ =>
    .bind (composed_itemsUntil _ composed_moduleItem) fun _ =>
    .bind (.consume (by decide)) fun _ => .pure _

end Productions

end Parse

end GenericIR
