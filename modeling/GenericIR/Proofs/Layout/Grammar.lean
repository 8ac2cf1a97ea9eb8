/-
# Productions and layout

Every production up to operations does the same at parsers that are alike.  What it gives is
the same, but for the texts that are kept as they are written: of these it is only the same
whether they are there.

* `Parse.indifferent_type` : a `!` touches the same tokens;
* `Parse.agrees_operation` : an operation agrees but for its texts.
-/
import GenericIR.Proofs.Layout.Agreement

namespace GenericIR

/-! ## What does not depend on the layout -/

/-- Whether a text is there, with nothing in it. -/
def blankText (text : Option String) : Option String := text.map fun _ => ""

/-- An operation with nothing in the texts that are kept as they are written. -/
def Operation.withoutTexts (op : Operation) : Operation :=
  { op with body := blankText op.body, regions := blankText op.regions,
            location := blankText op.location }

/-- Texts of which both are there, or neither is. -/
abbrev SamePresence (text text' : Option String) : Prop := blankText text = blankText text'

/-- Operations that are the same but for the texts that are kept as they are written. -/
abbrev SameOperation (op op' : Operation) : Prop := op.withoutTexts = op'.withoutTexts

namespace Parse

/-- A step that does the same at parsers that are alike. -/
abbrev Indifferent {α : Type} (m : Parse α) : Prop := Agrees Eq m m

variable {α β : Type}

/-! ## Lists -/

/-- Items up to some kinds of lookahead agree where the items do. -/
theorem agrees_itemsUntil {V : α → α → Prop} (stops : List TokenKind) {item : Parse α}
    (hadv : Advances Any item) (hitem : Agrees V item item) :
    Agrees (List.Forall₂ V) (itemsUntil stops item) (itemsUntil stops item) := by
  refine .collect (progressive_untilTurn stops hadv) (progressive_untilTurn stops hadv)
    (fun s => ?_) ()
  exact .look fun _ _ _ _ => .ite Iff.rfl (fun _ => .pure .stop) fun _ =>
    .bind hitem fun _ _ h => .pure (.more h)

/-- Items up to a closing bracket agree where the items do. -/
theorem agrees_closedItems {V : α → α → Prop} (close : TokenKind) {item : Parse α}
    (hcomposed : Composed Any item) (hitem : Agrees V item item) :
    Agrees (List.Forall₂ V) (closedItems close item) (closedItems close item) := by
  refine .collect (progressive_closedTurn close hcomposed) (progressive_closedTurn close hcomposed)
    (fun s => ?_) ()
  refine .bind_eq (.sees close) fun _ => .ite Iff.rfl (fun _ => .pure .stop) fun _ => ?_
  exact .bind hitem fun _ _ h => .bind_eq (.accept .comma) fun _ =>
    .ite Iff.rfl (fun _ => .pure (.more h)) fun _ => .pure (.last h)

/-- Items in brackets agree where the items do. -/
theorem agrees_enclosed {V : α → α → Prop} {close : TokenKind} {item : Parse α}
    (hcomposed : Composed Any item) (hitem : Agrees V item item) :
    Agrees (List.Forall₂ V)
      (closedItems close item >>= fun items => consume close >>= fun _ => pure items)
      (closedItems close item >>= fun items => consume close >>= fun _ => pure items) :=
  .bind (agrees_closedItems close hcomposed hitem) fun _ _ h => .bind (.consume close) fun _ _ _ =>
    .pure h

/-- Items that are the same in lists of related items. -/
theorem agrees_list {m : Parse (List α)} (h : Agrees (List.Forall₂ Eq) m m) : Indifferent m := by
  refine h.mono fun as bs hab => ?_
  rwa [List.forall₂_eq_eq_eq] at hab

/-- One item and more after commas are the same where the items are. -/
theorem indifferent_commas {item : Parse α} (hcomposed : Composed Any item)
    (hitem : Indifferent item) : Indifferent (collect (commaTurn item) ()) := by
  refine .collect_same (progressive_commaTurn hcomposed) (fun s => ?_) ()
  exact .bind_eq (.accept .comma) fun _ => .ite Iff.rfl
    (fun _ => .bind_eq hitem fun _ => .pure rfl) fun _ => .pure rfl

/-- Bare items are the same where the items are. -/
theorem indifferent_openItems {item : Parse α} (hcomposed : Composed Any item)
    (hitem : Indifferent item) : Indifferent (openItems item) :=
  .bind_eq hitem fun _ => .bind_eq (indifferent_commas hcomposed hitem) fun _ => .pure rfl

/-- Commas are skipped alike. -/
theorem indifferent_skipCommas : Indifferent skipCommas :=
  .bind_eq (indifferent_commas (.pure ()) (.pure rfl)) fun _ => .pure rfl

/-! ## Types -/

/-- A `!` touches what follows alike. -/
theorem indifferent_dialectType : Indifferent dialectType := by
  intro p p' xs xs' hp
  obtain ⟨q, q', ys, ys', hq, hq', hlike, htouch⟩ := hp.advance
  have hkind : q.lookahead.token.kind = q'.lookahead.token.kind := hlike.same.kind
  have hiff : (q.lookahead.token.span.offset = p.lookahead.token.span.stop ∧
      (q.lookahead.token.kind = .type ∨ q.lookahead.token.kind = .identifier)) ↔
      (q'.lookahead.token.span.offset = p'.lookahead.token.span.stop ∧
        (q'.lookahead.token.kind = .type ∨ q'.lookahead.token.kind = .identifier)) := by
    rw [← hkind]
    refine and_congr_left fun hword => htouch ?_
    rcases hword with hword | hword <;> rw [Parser.kind, hword] <;> decide
  rw [dialectType, bind_apply, bind_apply, hq, hq']
  exact Agrees.ite hiff (fun _ => .past fun x x' h => .pure (by rw [h.valueText]))
    (fun _ => .unexpected _) q q' ys ys' hlike

/-- A type is the same. -/
theorem indifferent_type : Indifferent type :=
  .look fun _ _ _ _ => .ite Iff.rfl (fun _ => .past fun _ _ h => .pure h.valueText) fun _ =>
    .ite Iff.rfl (fun _ => indifferent_dialectType) fun _ => .unexpected _

/-- Types are the same. -/
theorem indifferent_typeList : Indifferent typeList :=
  .bind_eq (.accept .lparen) fun _ => .ite Iff.rfl
    (fun _ => agrees_list (agrees_enclosed composed_type indifferent_type)) fun _ =>
    indifferent_openItems composed_type indifferent_type

/-- Types behind a kind of token are the same. -/
theorem indifferent_typesAfter (kind : TokenKind) : Indifferent (typesAfter kind) :=
  .bind_eq (.accept kind) fun _ => .ite Iff.rfl (fun _ => indifferent_typeList) fun _ => .pure rfl

/-! ## Attributes -/

/-- Lexemes that are the same stand for the same value. -/
theorem ofLexemes_of_same {xs xs' : List Lexeme} (h : List.Forall₂ Lexeme.Same xs xs') :
    AttributeValue.ofLexemes xs = AttributeValue.ofLexemes xs' := by
  have hjoined : joinedText xs = joinedText xs' := by
    have htexts : (xs.map fun x => x.text.toList) = xs'.map fun x => x.text.toList := by
      induction h with
      | nil => rfl
      | cons hx _ ih => rw [List.map_cons, List.map_cons, hx.text, ih]
    rw [joinedText, joinedText, htexts]
  cases h with
  | nil => rfl
  | @cons x x' xs xs' hx hrest =>
      cases hrest with
      | nil =>
          have hkind : x.token.kind = x'.token.kind := hx.kind
          rw [AttributeValue.ofLexemes, AttributeValue.ofLexemes, hkind, hx.value, hjoined]
      | cons _ _ => exact congrArg AttributeValue.opaqueText hjoined

/-- A turn of an attribute value takes the same lexeme. -/
theorem agrees_attributeValueTurn (depth : Nat) :
    Agrees (Agrees.TurnLike Lexeme.Same) (attributeValueTurn depth)
      (attributeValueTurn depth) := by
  have hmore : ∀ depth : Nat, Agrees (Agrees.TurnLike Lexeme.Same)
      (advance >>= fun x => pure (Turn.more x depth))
      (advance >>= fun x => pure (Turn.more x depth)) :=
    fun _ => .past fun _ _ h => .pure (.more h)
  refine .look fun _ _ _ _ => .ite Iff.rfl (fun _ => .pure .stop) fun _ => ?_
  refine .ite Iff.rfl (fun _ => .fail _) fun _ => .ite Iff.rfl (fun _ => ?_) fun _ => ?_
  · exact .bind_eq (.check _) fun _ => hmore _
  · exact .ite Iff.rfl (fun _ => .ite Iff.rfl (fun _ => .fail _) fun _ => hmore _) fun _ => hmore _

/-- An attribute value is the same. -/
theorem indifferent_attributeValue : Indifferent attributeValue :=
  .bind (.collect progressive_attributeValueTurn progressive_attributeValueTurn
    agrees_attributeValueTurn 0) fun _ _ h => .pure (ofLexemes_of_same h)

/-- A name with its value is the same. -/
theorem indifferent_attributeEntry : Indifferent attributeEntry := by
  refine .bind_eq (.sees _) fun _ => .ite Iff.rfl (fun _ => .past fun x x' h => ?_) fun _ =>
    .unexpected _
  rw [h.valueText]
  exact .bind_eq (.accept _) fun _ => .ite Iff.rfl
    (fun _ => .bind_eq indifferent_attributeValue fun _ => .pure rfl) fun _ => .pure rfl

/-- A dictionary is the same. -/
theorem indifferent_attributes (into : Attributes) : Indifferent (attributes into) := by
  have hitem : Indifferent (attributeEntry >>= fun entry => skipCommas >>= fun _ => pure entry) :=
    .bind_eq indifferent_attributeEntry fun _ => .bind_eq indifferent_skipCommas fun _ => .pure rfl
  refine .bind (.consume _) fun _ _ _ => .bind_eq ?_ fun _ => .bind (.consume _) fun _ _ _ =>
    .pure rfl
  exact agrees_list (agrees_itemsUntil _ advances_separatedEntry hitem)

/-- A dictionary that may be missing is the same. -/
theorem indifferent_optionalAttributes (into : Attributes) :
    Indifferent (optionalAttributes into) :=
  .bind_eq (.sees _) fun _ => .ite Iff.rfl (fun _ => indifferent_attributes into) fun _ =>
    .pure rfl

/-- A dictionary behind its word is the same. -/
theorem indifferent_attributesClause (into : Attributes) : Indifferent (attributesClause into) :=
  .look fun _ _ _ _ => .ite Iff.rfl (fun _ => .past fun _ _ _ => indifferent_attributes into)
    fun _ => .pure rfl

/-! ## Captures -/

/-- A turn of a capture takes the same lexeme. -/
theorem agrees_captureTurn (opening closing : TokenKind) (context : String) (depth : Nat) :
    Agrees (Agrees.TurnLike Lexeme.Same) (captureTurn opening closing context depth)
      (captureTurn opening closing context depth) := by
  refine .bind_eq (.sees _) fun _ => .ite Iff.rfl (fun _ => .fail _) fun _ =>
    .past fun x x' h => ?_
  have hkind : x.token.kind = x'.token.kind := h.kind
  rw [hkind]
  refine .ite Iff.rfl (fun _ => ?_) fun _ => .ite Iff.rfl (fun _ => ?_) fun _ => .pure (.more h)
  · exact .bind_eq (.check _) fun _ => .pure (.more h)
  · exact .ite Iff.rfl (fun _ => .pure (.last h)) fun _ => .pure (.more h)

/-- A capture takes the same lexemes. -/
theorem agrees_balanced (opening closing : TokenKind) (context : String) :
    Agrees (List.Forall₂ Lexeme.Same) (balanced opening closing context)
      (balanced opening closing context) := by
  have hturns := progressive_captureTurn opening closing context
  exact .bind (.consume _) fun _ _ h =>
    .bind (.collect hturns hturns (agrees_captureTurn opening closing context) 1) fun _ _ hs =>
    .pure (.cons h hs)

/-- A capture gives some text. -/
theorem agrees_capture (opening closing : TokenKind) (context : String) :
    Agrees (fun _ _ => True) (capture opening closing context)
      (capture opening closing context) :=
  .nothingSkipped (.bind (agrees_balanced opening closing context) fun _ _ _ => .pure trivial)

/-- A location is there, or it is not. -/
theorem agrees_location : Agrees SamePresence location location :=
  .look fun _ _ _ _ => .ite Iff.rfl (fun _ => .nothingSkipped (.past fun _ _ _ =>
    .bind_eq (.sees _) fun _ => .ite Iff.rfl
      (fun _ => .bind (agrees_balanced _ _ _) fun _ _ _ => .pure rfl) fun _ =>
    .unexpected _)) fun _ => .pure rfl

/-! ## Operations -/

/-- A value that an operation defines is the same. -/
theorem indifferent_returnValue : Indifferent returnValue := by
  refine .bind (.consume _) fun x x' h => ?_
  rw [h.valueText]
  refine .bind_eq (.accept _) fun _ => .ite Iff.rfl (fun _ => ?_) fun _ => .pure rfl
  exact .bind (.consume _) fun y y' hy => .pure (by rw [hy.valueText])

/-- The values that an operation defines are the same. -/
theorem indifferent_returnValues : Indifferent returnValues :=
  .bind_eq (.accept _) fun _ => .ite Iff.rfl
    (fun _ => agrees_list (agrees_enclosed composed_returnValue indifferent_returnValue)) fun _ =>
    .bind_eq (.sees _) fun _ => .ite Iff.rfl
      (fun _ => indifferent_openItems composed_returnValue indifferent_returnValue) fun _ =>
      .pure rfl

/-- The values that an operation defines are the same, with the equals sign behind them. -/
theorem indifferent_definitions : Indifferent definitions :=
  .bind_eq indifferent_returnValues fun _ => .ite Iff.rfl (fun _ => .pure rfl) fun _ =>
    .bind (.consume _) fun _ _ _ => .pure rfl

/-- The name of an operation is the same. -/
theorem indifferent_operationName : Indifferent operationName := by
  refine .look fun _ _ _ _ => .ite Iff.rfl (fun _ => .past fun _ _ h => .pure h.valueText)
    fun _ => .ite Iff.rfl (fun _ => .past fun x x' h => ?_) fun _ => .unexpected _
  rw [h.valueText]
  exact .bind_eq (.sees _) fun _ => .ite Iff.rfl
    (fun _ => .past fun y y' hy => .pure (by rw [hy.valueText])) fun _ => .pure rfl

/-- The symbol before the operands is the same. -/
theorem indifferent_callee : Indifferent callee :=
  .bind_eq (.sees _) fun _ => .ite Iff.rfl
    (fun _ => .past fun _ _ h => .pure (by rw [h.valueText])) fun _ => .pure rfl

/-- The operands are the same. -/
theorem indifferent_operands : Indifferent operands := by
  have hturn : Indifferent operandTurn := by
    refine .bind_eq indifferent_skipCommas fun _ => .look fun _ _ _ _ => ?_
    refine .ite Iff.rfl (fun _ => .pure rfl) fun _ => ?_
    refine .ite Iff.rfl (fun _ => .past fun _ _ h => .pure (by rw [h.valueText])) fun _ => ?_
    refine .ite Iff.rfl (fun _ => .past fun _ _ h => .pure (by rw [h.valueText])) fun _ => ?_
    exact .ite Iff.rfl (fun _ => .past fun _ _ h => .pure (by rw [h.text])) fun _ => .unexpected _
  refine .bind_eq (.accept _) fun _ => .bind_eq
    (.collect_same progressive_operandTurn (fun _ => hturn) ()) fun _ => ?_
  exact .ite Iff.rfl (fun _ => .bind (.consume _) fun _ _ _ => .pure rfl) fun _ => .pure rfl

/-- A region group is there, or it is not. -/
theorem agrees_regionGroup : Agrees SamePresence regionGroup regionGroup :=
  .bind_eq (.sees _) fun _ => .ite Iff.rfl
    (fun _ => .bind (agrees_capture _ _ _) fun _ _ _ => .pure rfl) fun _ => .pure rfl

/-- A block is the same dictionary, or a body where the other is one. -/
theorem agrees_block (into : Attributes) :
    Agrees (fun r r' => r.1 = r'.1 ∧ SamePresence r.2 r'.2) (block into) (block into) := by
  refine .bind_eq (.sees _) fun _ => .ite Iff.rfl (fun _ => .bind_eq .peek fun _ => ?_) fun _ =>
    .pure ⟨rfl, rfl⟩
  exact .ite Iff.rfl (fun _ => .bind_eq (indifferent_attributes into) fun _ => .pure ⟨rfl, rfl⟩)
    fun _ => .bind (agrees_capture _ _ _) fun _ _ _ => .pure ⟨rfl, rfl⟩

/-- The head of an operation agrees. -/
theorem agrees_operationHead : Agrees SameOperation operationHead operationHead := by
  refine .bind_eq indifferent_definitions fun _ => .bind_eq indifferent_operationName fun _ =>
    .bind_eq indifferent_callee fun _ => .bind_eq indifferent_operands fun _ =>
    .bind agrees_regionGroup fun regions regions' hregions =>
    .bind_eq (indifferent_optionalAttributes _) fun _ =>
    .bind_eq (indifferent_typesAfter _) fun _ => .pure ?_
  simp only [SameOperation, Operation.withoutTexts, hregions]

/-- What follows the head of a constant agrees. -/
theorem agrees_constantTail {op op' : Operation} (h : SameOperation op op') :
    Agrees SameOperation (constantTail op) (constantTail op') := by
  refine .bind agrees_location fun location location' hlocation => .pure ?_
  simp only [SameOperation, Operation.withoutTexts, Operation.mk.injEq] at h ⊢
  simp only [h, hlocation, and_self]

/-- What follows the head of any other operation agrees. -/
theorem agrees_operationTail {op op' : Operation} (h : SameOperation op op') :
    Agrees SameOperation (operationTail op) (operationTail op') := by
  have hattributes : op.withoutTexts.attributes = op'.withoutTexts.attributes := by rw [h]
  refine .bind_eq (indifferent_typesAfter _) fun _ => ?_
  rw [show op.attributes = op'.attributes from hattributes]
  refine .bind (agrees_block _) ?_
  rintro ⟨middle, body⟩ ⟨_, body'⟩ ⟨rfl, hbody⟩
  replace hbody : blankText body = blankText body' := hbody
  refine .bind_eq (indifferent_optionalAttributes _) fun _ =>
    .bind agrees_location fun location location' hlocation => .pure ?_
  simp only [SameOperation, Operation.withoutTexts, Operation.mk.injEq] at h ⊢
  simp only [h, hbody, hlocation, and_self]

/-- An operation agrees but for its texts. -/
theorem agrees_operation : Agrees SameOperation operation operation := by
  refine .bind agrees_operationHead fun op op' h => .bind_eq (.sees _) fun _ => ?_
  have hname : op.withoutTexts.name = op'.withoutTexts.name := by rw [h]
  rw [show op.name = op'.name from hname]
  exact .ite Iff.rfl (fun _ => agrees_constantTail h) fun _ => agrees_operationTail h

end Parse

end GenericIR
