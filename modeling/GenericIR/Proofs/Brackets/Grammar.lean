/-
# The brackets of the productions

Every production closes the brackets of the structure that it opens, in order.  An attribute
value goes past brackets that close in number, and a capture past brackets of which those of its
own sort do, with no more of them open at a time than the bound on the depth allows.

* `keeps_attributeValue`, `keeps_balanced` : the two productions that count brackets;
* `keeps_graph` : a whole module closes the brackets that it opens;
* `keepsWithin_graph` : no more of them are open at a time than the bound allows.
-/
import GenericIR.Proofs.Brackets.Steps

namespace GenericIR

namespace ByteParse

variable {P : TokenKind → Prop} {opened : List TokenKind} {source : List Char} {limits : Limits}

/-! ## Captures -/

/-- The marks of a capture up to the bracket that closes it, behind some brackets of its sort
that are open, no more than a bound of them at a time. -/
def CaptureMarks (max : Nat) (opening closing : TokenKind) (depth : Nat) (marks : List Mark) :
    Prop :=
  0 < depth → ∃ run m, marks = run ++ [m] ∧ m.role = .structural ∧ m.kind = closing ∧
    (∀ n ∈ run, n.role = .captured) ∧
    ClosesWithin (max - 1) (· == opening) (· == closing) (depth - 1) (run.map Mark.kind)

section CaptureMarks

variable {max : Nat} {opening closing : TokenKind} {depth : Nat} {t : Token} {later : List Mark}

/-- The last closing bracket ends the capture. -/
theorem captureMarks_last (hkind : t.kind = closing) (hdepth : depth ≤ 1) :
    CaptureMarks max opening closing depth [⟨.structural, t⟩] := by
  intro hpos
  obtain rfl : depth = 1 := by omega
  exact ⟨[], ⟨.structural, t⟩, rfl, rfl, hkind, by simp, closesWithin_nil⟩

/-- A token inside a capture, for which the brackets behind it still close in number. -/
theorem CaptureMarks.cons {next : Nat} (h : CaptureMarks max opening closing next later)
    (hnext : 0 < depth → 0 < next) (hcount : ∀ kinds, 0 < depth →
      ClosesWithin (max - 1) (· == opening) (· == closing) (next - 1) kinds →
      ClosesWithin (max - 1) (· == opening) (· == closing) (depth - 1) (t.kind :: kinds)) :
    CaptureMarks max opening closing depth (⟨.captured, t⟩ :: later) := by
  intro hpos
  obtain ⟨run, m, rfl, hrole, hkind, hcaptured, hcloses⟩ := h (hnext hpos)
  refine ⟨⟨.captured, t⟩ :: run, m, rfl, hrole, hkind, ?_, hcount _ hpos hcloses⟩
  exact List.forall_mem_cons.mpr ⟨rfl, hcaptured⟩

end CaptureMarks

/-- A turn of a capture. -/
theorem goes_captureTurn {opening closing : TokenKind} (hclosing : opening.closing? = some closing)
    (context : String) (depth : Nat) :
    Goes P (captureTurn source limits opening closing context depth)
      (Turn.Carries (CaptureMarks limits.maxNestingDepth opening closing) depth) := by
  have hne : opening ≠ closing := by
    rintro rfl
    cases opening <;> cases hclosing
  refine .sees (fun _ => .fail _) (.look fun u _ => ?_)
  -- the role of the token is settled at the lookahead, before it is gone past
  refine .bind (S := fun t marks => t.kind = u.kind ∧
    marks = [⟨if u.kind = closing ∧ depth ≤ 1 then .structural else .captured, t⟩]) ?_ fun t => ?_
  · refine .advance fun t ht => ⟨ht, ?_⟩
    simp
  · split
    · next hopen =>
        refine .check fun hdepth => .pure ?_
        rintro _ ⟨hkind, rfl⟩ later hlater
        rw [if_neg fun h => hne (hopen.symm.trans (hkind.trans h.1))]
        refine hlater.cons (fun _ => Nat.succ_pos _) fun kinds hpos hkinds => .opening ?_ ?_ ?_
        · simpa using hopen
        · omega
        · rwa [Nat.sub_add_cancel hpos]
    · next hopen =>
        split
        · next hclose =>
            refine .subtract fun _ => ?_
            split
            · next hdepth =>
                refine .pure ?_
                rintro _ ⟨hkind, rfl⟩
                rw [if_pos ⟨hkind.symm.trans hclose, by omega⟩]
                exact captureMarks_last hclose (by omega)
            · next hdepth =>
                refine .pure ?_
                rintro _ ⟨hkind, rfl⟩ later hlater
                rw [if_neg fun h => hdepth (by omega)]
                refine hlater.cons (by omega) fun kinds _ hkinds => .closing ?_ ?_ hdepth hkinds
                · simpa using hopen
                · simpa using hclose
        · next hclose =>
            refine .pure ?_
            rintro _ ⟨hkind, rfl⟩ later hlater
            rw [if_neg fun h => hclose (hkind.trans h.1)]
            refine hlater.cons id fun kinds _ hkinds => .other ?_ ?_ hkinds
            · simpa using hopen
            · simpa using hclose

/-- A capture closes the bracket that it opens. -/
theorem keeps_balanced {opening closing : TokenKind} (hclosing : opening.closing? = some closing)
    (context : String) :
    KeepsWithin limits P opened (balanced source limits opening closing context) := by
  refine .bind (.consume (openAfter?_opening hclosing opened)) fun first => ?_
  refine .bind (T := fun _ => opened) ?_ fun _ => .pure
  intro q more q' hq h
  -- one bracket of its sort is open now, and the last mark is the bracket that closes it
  obtain ⟨_, hpassed, hmarks⟩ :=
    Goes.collect (P := Parse.Any) (goes_captureTurn hclosing context) 1 q more q' hq h
  obtain ⟨run, m, rfl, hrole, hkind, hcaptured, hcloses⟩ := hmarks Nat.one_pos
  refine ⟨run ++ [m], hpassed, .append (.captured hclosing hcaptured hcloses) ?_⟩
  exact .structural hrole (hkind ▸ openAfter?_closing hclosing opened)

/-- The text of a capture. -/
theorem keeps_capture {opening closing : TokenKind} (hclosing : opening.closing? = some closing)
    (context : String) :
    KeepsWithin limits P opened (capture source limits opening closing context) :=
  .bind (keeps_balanced hclosing context) fun _ => .of_still (.textBetween _ _)

/-- A location. -/
theorem keeps_location : KeepsWithin limits P opened (location source limits) := by
  refine .look fun t _ => ?_
  split
  · next ht =>
      refine .bind (.past (fun j hj => hj.trans ht.1) rfl) fun first => ?_
      refine .sees (fun _ => ?_) (.unexpected _)
      exact .bind (keeps_balanced rfl "location") fun _ => .still (.textBetween _ _) fun _ => .pure
  · exact .pure

/-! ## Types -/

/-- A type. -/
theorem keeps_type : KeepsWithin limits P opened (type source limits) := by
  have hpast : ∀ {t : Token}, t.kind = .type ∨ t.kind = .identifier →
      KeepsWithin limits (· = t.kind) opened (advance source limits .structural) := by
    intro t ht
    rcases ht with ht | ht
    · exact .past (fun j hj => hj.trans ht) rfl
    · exact .past (fun j hj => hj.trans ht) rfl
  refine .look fun t _ => ?_
  split
  · next ht => exact .bind (hpast ht) fun _ => .pure
  · split
    · next ht =>
        refine .bind (.past (fun j hj => hj.trans ht.1) rfl) fun bang => .look fun u _ => ?_
        split
        · next hu => exact .bind (hpast hu.2) fun _ => .pure
        · exact .unexpected _
    · exact .unexpected _

/-- A list of types. -/
theorem keeps_typeList : KeepsWithin limits P opened (typeList source limits) := by
  refine .accept rfl ?_ (.openItems keeps_type)
  exact .bind (.closedItems .rparen keeps_type) fun _ => .bind (.consume rfl) fun _ => .pure

/-! ## Attribute dictionaries -/

/-- The marks of an attribute value to its end, behind some brackets that are open, no more than a
bound of them at a time. -/
def ValueMarks (max depth : Nat) (marks : List Mark) : Prop :=
  (∀ m ∈ marks, m.role = .value) ∧
    ClosesWithin max TokenKind.isOpenBracket TokenKind.isCloseBracket depth (marks.map Mark.kind)

/-- A token of an attribute value. -/
theorem ValueMarks.cons {max depth next : Nat} {t : Token} {later : List Mark}
    (h : ValueMarks max next later) (hcount : ∀ kinds,
      ClosesWithin max TokenKind.isOpenBracket TokenKind.isCloseBracket next kinds →
      ClosesWithin max TokenKind.isOpenBracket TokenKind.isCloseBracket depth (t.kind :: kinds)) :
    ValueMarks max depth (⟨.value, t⟩ :: later) :=
  ⟨List.forall_mem_cons.mpr ⟨rfl, h.1⟩, hcount _ h.2⟩

/-- A turn of an attribute value. -/
theorem goes_attributeValueTurn (depth : Nat) :
    Goes P (attributeValueTurn source limits depth)
      (Turn.Carries (ValueMarks limits.maxNestingDepth) depth) := by
  -- a turn that goes on takes the lookahead with it, to a depth that counts it
  have hmore : ∀ (k : TokenKind) (next : Nat), (∀ kinds,
      ClosesWithin limits.maxNestingDepth TokenKind.isOpenBracket TokenKind.isCloseBracket next
        kinds →
      ClosesWithin limits.maxNestingDepth TokenKind.isOpenBracket TokenKind.isCloseBracket depth
        (k :: kinds)) →
      Goes (· = k) (advance source limits .value >>= fun t => pure (.more t next))
        (Turn.Carries (ValueMarks limits.maxNestingDepth) depth) := by
    intro k next hcount
    refine .bind (S := fun t marks => t.kind = k ∧ marks = [⟨.value, t⟩])
      (.advance fun t ht => ⟨ht, rfl⟩) fun t => .pure ?_
    rintro _ ⟨rfl, rfl⟩ later hlater
    exact hlater.cons hcount
  refine .look fun t _ => ?_
  dsimp only
  split
  · next hstop =>
      obtain ⟨rfl, _⟩ := hstop
      exact .pure ⟨by simp, closesWithin_nil⟩
  · split
    · exact .fail _
    · split
      · next hopen =>
          exact .check fun hdepth => hmore t.kind _ fun _ h => h.opening hopen hdepth
      · next hopen =>
          split
          · next hclose =>
              split
              · exact .fail _
              · next hdepth =>
                  exact .subtract fun _ => hmore t.kind _ fun _ h => h.closing hopen hclose hdepth
          · next hclose => exact hmore t.kind _ fun _ h => h.other hopen hclose

/-- An attribute value. -/
theorem keeps_attributeValue : KeepsWithin limits P opened (attributeValue source limits) := by
  refine .bind (T := fun _ => opened) ?_ fun tokens => ?_
  · intro q ts q' hq h
    obtain ⟨marks, hpassed, hrole, hcloses⟩ :=
      Goes.collect (P := P) goes_attributeValueTurn 0 q ts q' hq h
    exact ⟨marks, hpassed, .value hrole hcloses⟩
  · split
    · exact .pure
    · exact .still (.texts _) fun _ => .pure

/-- An entry of a dictionary. -/
theorem keeps_attributeEntry : KeepsWithin limits P opened (attributeEntry source limits) := by
  refine .sees (fun _ => ?_) (.unexpected _)
  refine .bind (.past (fun _ hj => hj) rfl) fun name => .accept rfl ?_ .pure
  exact .bind keeps_attributeValue fun _ => .pure

/-- A dictionary. -/
theorem keeps_attributes (into : Attributes) :
    KeepsWithin limits P opened (attributes source limits into) :=
  .bind (.consume rfl) fun _ => .bind (.itemsUntil [.rbrace]
    (.bind keeps_attributeEntry fun _ => .bind .skipCommas fun _ => .pure)) fun _ =>
    .bind (.consume rfl) fun _ => .pure

/-- A dictionary that may be missing. -/
theorem keeps_optionalAttributes (into : Attributes) :
    KeepsWithin limits P opened (optionalAttributes source limits into) :=
  .sees (fun _ => keeps_attributes into) .pure

/-- A dictionary after its word. -/
theorem keeps_attributesClause (into : Attributes) :
    KeepsWithin limits P opened (attributesClause source limits into) := by
  refine .look fun t _ => ?_
  split
  · next ht => exact .bind (.past (fun j hj => hj.trans ht.1) rfl) fun _ => keeps_attributes into
  · exact .pure

/-! ## Operations -/

/-- A value that an operation defines. -/
theorem keeps_returnValue : KeepsWithin limits P opened (returnValue source limits) := by
  refine .bind (.consume rfl) fun _ => .accept rfl ?_ .pure
  exact .bind (.consume rfl) fun _ => .pure

/-- The values that an operation defines. -/
theorem keeps_returnValues : KeepsWithin limits P opened (returnValues source limits) := by
  refine .accept rfl ?_ (.sees (fun _ => .openItems keeps_returnValue) .pure)
  exact .bind (.closedItems .rparen keeps_returnValue) fun _ => .bind (.consume rfl) fun _ => .pure

/-- The name of an operation. -/
theorem keeps_operationName : KeepsWithin limits P opened (operationName source limits) := by
  refine .look fun t _ => ?_
  split
  · next ht => exact .bind (.past (fun j hj => hj.trans ht) rfl) fun _ => .pure
  · split
    · next ht =>
        refine .bind (.past (fun j hj => hj.trans ht) rfl) fun _ => .sees (fun _ => ?_) .pure
        exact .bind (.past (fun _ hj => hj) rfl) fun _ => .pure
    · exact .unexpected _

/-- A callee that may be missing. -/
theorem keeps_callee : KeepsWithin limits P opened (callee source limits) :=
  .sees (fun _ => .bind (.past (fun _ hj => hj) rfl) fun _ => .pure) .pure

/-- One operand. -/
theorem keeps_operandTurn : KeepsWithin limits P opened (operandTurn source limits) := by
  refine .bind .skipCommas fun _ => .look fun t _ => ?_
  dsimp only
  split
  · exact .pure
  · split
    · next ht => exact .bind (.past (fun j hj => hj.trans ht) rfl) fun _ => .pure
    · split
      · next ht => exact .bind (.past (fun j hj => hj.trans ht) rfl) fun _ => .pure
      · split
        · next ht =>
            have hother : openAfter? opened t.kind = some opened := by
              cases hk : t.kind <;> rw [hk] at ht <;> first | rfl | cases ht
            refine .bind (.advance fun j hj => hj ▸ hother) fun u => ?_
            exact .still (.textBetween _ _) fun _ => .pure
        · exact .unexpected _

/-- The operands. -/
theorem keeps_operands : KeepsWithin limits P opened (operands source limits) := by
  refine .accept rfl ?_ ?_
  · exact .bind (.collect (fun _ => keeps_operandTurn) ()) fun _ => .bind (.consume rfl) fun _ =>
      .pure
  · exact .bind (.collect (fun _ => keeps_operandTurn) ()) fun _ => .pure

/-- A region group that may be missing. -/
theorem keeps_regionGroup : KeepsWithin limits P opened (regionGroup source limits) :=
  .sees (fun _ => .bind (keeps_capture rfl "region group") fun _ => .pure) .pure

/-- Types after a mark, which is no bracket. -/
theorem keeps_typesAfter {k : TokenKind} (hk : openAfter? opened k = some opened) :
    KeepsWithin limits P opened (typesAfter source limits k) :=
  .accept hk keeps_typeList .pure

/-- A block after the signature. -/
theorem keeps_block (into : Attributes) :
    KeepsWithin limits P opened (block source limits into) := by
  refine .sees (fun _ => .still .peek fun b => ?_) .pure
  split
  · exact .bind (keeps_attributes into) fun _ => .pure
  · exact .bind (keeps_capture rfl "operation body") fun _ => .pure

/-- The values that an operation defines with the equals sign behind them. -/
theorem keeps_definitions : KeepsWithin limits P opened (definitions source limits) := by
  refine .bind keeps_returnValues fun outputs => ?_
  split
  · exact .pure
  · exact .bind (.consume rfl) fun _ => .pure

/-- An operation up to the types of its operands. -/
theorem keeps_operationHead : KeepsWithin limits P opened (operationHead source limits) :=
  .bind keeps_definitions fun _ => .bind keeps_operationName fun _ => .bind keeps_callee fun _ =>
    .bind keeps_operands fun _ => .bind keeps_regionGroup fun _ =>
    .bind (keeps_optionalAttributes _) fun _ => .bind (keeps_typesAfter rfl) fun _ => .pure

/-- What follows the head of a constant. -/
theorem keeps_constantTail (op : Operation) :
    KeepsWithin limits P opened (constantTail source limits op) :=
  .bind keeps_location fun _ => .pure

/-- What follows the head of any other operation. -/
theorem keeps_operationTail (op : Operation) :
    KeepsWithin limits P opened (operationTail source limits op) :=
  .bind (keeps_typesAfter rfl) fun _ => .bind (keeps_block _) fun _ =>
    .bind (keeps_optionalAttributes _) fun _ => .bind keeps_location fun _ => .pure

/-- An operation. -/
theorem keeps_operation : KeepsWithin limits P opened (operation source limits) := by
  refine .bind keeps_operationHead fun op => .sees (fun _ => ?_) ?_
  · split
    · exact keeps_constantTail op
    · exact keeps_operationTail op
  · split
    · exact keeps_constantTail op
    · exact keeps_operationTail op

/-! ## Functions -/

/-- A visibility that may be missing. -/
theorem keeps_visibility : KeepsWithin limits P opened (visibility source limits) := by
  refine .look fun t _ => ?_
  split
  · next ht => exact .bind (.past (fun j hj => hj.trans ht.1) rfl) fun _ => .pure
  · exact .pure

/-- A parameter. -/
theorem keeps_parameter : KeepsWithin limits P opened (parameter source limits) :=
  .bind (.consume rfl) fun _ => .bind (.consume rfl) fun _ => .bind keeps_type fun _ =>
    .bind (keeps_optionalAttributes _) fun _ => .bind keeps_location fun _ => .pure

/-- The parameters. -/
theorem keeps_parameters : KeepsWithin limits P opened (parameters source limits) :=
  .bind (.consume rfl) fun _ => .bind (.closedItems .rparen keeps_parameter) fun _ =>
    .bind (.consume rfl) fun _ => .pure

/-- A result. -/
theorem keeps_result : KeepsWithin limits P opened (result source limits) :=
  .bind keeps_type fun _ => .bind (keeps_optionalAttributes _) fun _ => .pure

/-- The results. -/
theorem keeps_results : KeepsWithin limits P opened (results source limits) := by
  refine .accept rfl ?_ (.bind keeps_type fun _ => .pure)
  exact .bind (.closedItems .rparen keeps_result) fun _ => .bind (.consume rfl) fun _ => .pure

/-- The results after an arrow. -/
theorem keeps_resultsClause : KeepsWithin limits P opened (resultsClause source limits) :=
  .accept rfl keeps_results .pure

/-- A body that may be missing. -/
theorem keeps_functionBody : KeepsWithin limits P opened (functionBody source limits) := by
  refine .accept rfl ?_ .pure
  exact .bind (.itemsUntil _ keeps_operation) fun _ => .bind (.consume rfl) fun _ => .pure

/-- What follows the keyword of a function. -/
theorem keeps_functionTail : KeepsWithin limits P opened (functionTail source limits) :=
  .bind keeps_visibility fun _ => .bind (.consume rfl) fun _ => .bind keeps_parameters fun _ =>
    .bind (keeps_attributesClause _) fun _ => .bind keeps_resultsClause fun _ =>
    .bind (keeps_attributesClause _) fun _ => .bind keeps_functionBody fun _ => .pure

/-- A function. -/
theorem keeps_function : KeepsWithin limits P opened (function source limits) :=
  .bind (.consume rfl) fun _ => keeps_functionTail

/-! ## Modules -/

/-- The name of a module, which may be missing. -/
theorem keeps_moduleName : KeepsWithin limits P opened (moduleName source limits) :=
  .sees (fun _ => .bind (.past (fun _ hj => hj) rfl) fun _ => .pure) .pure

/-- An item of a module. -/
theorem keeps_moduleItem : KeepsWithin limits P opened (moduleItem source limits) := by
  refine .look fun t _ => ?_
  split
  · exact .bind keeps_function fun _ => .pure
  · exact .bind keeps_operation fun _ => .pure

/-- A module up to its closing brace. -/
theorem keeps_moduleText : KeepsWithin limits P opened (moduleText source limits) :=
  .bind (.consumeText "module" rfl) fun _ => .bind keeps_moduleName fun _ =>
    .bind (keeps_attributesClause _) fun _ => .bind (.consume rfl) fun _ =>
    .bind (.itemsUntil _ keeps_moduleItem) fun _ => .bind (.consume rfl) fun _ => .pure

/-- A module with nothing behind it, with a bound on its brackets. -/
theorem keepsWithin_graph : KeepsWithin limits P opened (graph source limits) :=
  .bind keeps_moduleText fun _ => .bind (.consume rfl) fun _ => .pure

/-- A module with nothing behind it. -/
theorem keeps_graph : Keeps P opened (graph source limits) := keepsWithin_graph.leaves

end ByteParse

end GenericIR
