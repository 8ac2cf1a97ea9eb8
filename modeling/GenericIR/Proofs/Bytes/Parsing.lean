/-
# Parsing over bytes

Every production over bytes mirrors its production, so parsing over bytes has a result for every
source: no slice is out of place, no difference is below zero, and no loop takes a turn without
going past a token.

* `mirrors_capture`, `mirrors_attributeValue` : the productions that cut text out of the source;
* `ByteParser.parse_total` : parsing over bytes is parsing, and how often it reads a token.
-/
import GenericIR.Proofs.Bytes.Mirror

namespace GenericIR

/-! ## Lexemes that are gone past -/

namespace Parser

/-- A move goes past no more lexemes than it takes from what is left. -/
theorem length_passed_of_move {p q : Parser} (h : p.Move q) :
    q.passed.length + q.left ≤ p.passed.length + p.left := by
  have hle := left_le_of_move h
  cases h with
  | @past x l hnext hp =>
      have hadvance : Parse.advance p = .ok p.lookahead ⟨l, x, p.lookahead :: p.passed, []⟩ := by
        rw [Parse.advance, hnext]
      have hlt := left_of_advance p _ p.lookahead hadvance hp
      rw [List.length_cons]
      omega
  | fault hnext hp => exact Nat.add_le_add_left hle _

/-- Moves go past no more lexemes than they take from what is left. -/
theorem length_passed_of_moves {p q : Parser} (h : p.Moves q) :
    q.passed.length + q.left ≤ p.passed.length + p.left := by
  induction h with
  | refl => exact Nat.le_refl _
  | tail _ hmove ih => exact Nat.le_trans (length_passed_of_move hmove) ih

/-- Moves go past no end of the text. -/
theorem kind_of_moves {p q : Parser} (h : p.Moves q)
    (hp : ∀ x ∈ p.passed, x.token.kind ≠ .eof) : ∀ x ∈ q.passed, x.token.kind ≠ .eof := by
  induction h with
  | refl => exact hp
  | tail _ hmove ih =>
      cases hmove with
      | past hnext hkind => exact List.forall_mem_cons.mpr ⟨hkind, ih⟩
      | fault hnext hkind => exact ih

/-- At the start of a source no more is left than it has characters. -/
theorem left_ofSource {limits : Limits} {source : String} {x : Lexeme} {l : Lexer}
    (hnext : Lexer.next (.ofSource limits source) = .ok x l) :
    left ⟨l, x, [], []⟩ ≤ source.toList.length := by
  have hle : l.rest.length ≤ source.toList.length :=
    Lexer.length_rest_le_of_next _ l x hnext
  rw [left, kind]
  split
  · exact hle
  · next hx =>
      have hlt : l.rest.length < source.toList.length := Lexer.length_rest_of_next _ l x hnext hx
      exact hlt

end Parser

namespace Parse

/-- Asking for a kind goes past a lookahead of that kind, or past none. -/
theorem consume_cases (k : TokenKind) (p : Parser) :
    (∃ q, consume k p = .ok p.lookahead q ∧ p.kind = k ∧ q.passed = p.lookahead :: p.passed) ∨
      ∃ d q, consume k p = .error d q ∧ q.passed = p.passed := by
  rw [consume, current_bind_apply]
  split
  · next hk =>
      unfold advance
      split
      · exact Or.inl ⟨_, rfl, hk, rfl⟩
      · exact Or.inr ⟨_, _, rfl, rfl⟩
  · exact Or.inr ⟨_, _, rfl, rfl⟩

/-- A whole module ends with a diagnostic before the end of the text is gone past, or with a
graph right behind it. -/
theorem graph_cases {p : Parser} (hp : p.passed = []) :
    (∃ d q, graph p = .error d q ∧ q.passed.length ≤ p.left ∧
      ∀ x ∈ q.passed, x.token.kind ≠ .eof) ∨
    ∃ g q x before, graph p = .ok g q ∧ q.passed = x :: before ∧ x.token.kind = .eof ∧
      before.length ≤ p.left ∧ ∀ y ∈ before, y.token.kind ≠ .eof := by
  -- up to its closing brace the module goes past no end of the text
  have hmoves := composed_moduleText.moves (P := Any) p trivial
  have hlength := Parser.length_passed_of_moves hmoves
  have hkind := Parser.kind_of_moves hmoves (by simp [hp])
  rw [hp, List.length_nil, Nat.zero_add] at hlength
  unfold after at hlength hkind
  rw [graph, bind_apply]
  cases hm : moduleText p with
  | error d q =>
      rw [hm] at hlength hkind
      exact Or.inl ⟨d, q, rfl, Nat.le_trans (Nat.le_add_right _ _) hlength, hkind⟩
  | ok g q =>
      rw [hm] at hlength hkind
      have hle : q.passed.length ≤ p.left := Nat.le_trans (Nat.le_add_right _ _) hlength
      dsimp only
      rw [bind_apply]
      rcases consume_cases .eof q with ⟨r, hr, heof, hpassed⟩ | ⟨d, r, hr, hpassed⟩
      · rw [hr]
        exact Or.inr ⟨g, r, q.lookahead, q.passed, rfl, hpassed, heof, hle, hkind⟩
      · rw [hr]
        exact Or.inl ⟨d, r, rfl, hpassed ▸ hle, hpassed ▸ hkind⟩

/-- A turn of a capture goes past the lexeme it takes. -/
theorem passed_of_captureTurn {opening closing : TokenKind} {context : String} {depth : Nat}
    {p q : Parser} {turn : Turn Nat Lexeme}
    (h : captureTurn opening closing context depth p = .ok turn q) :
    ∃ x, q.passed = x :: p.passed ∧ (turn = .last x ∨ ∃ next, turn = .more x next) := by
  rw [captureTurn, sees_bind_apply] at h
  split at h
  · cases h
  · rw [bind_apply] at h
    split at h
    · next x r hr =>
        obtain ⟨rfl, hpassed⟩ := passed_of_advance hr
        split at h
        · rw [bind_apply] at h
          split at h
          · next u t ht =>
              cases h
              unfold checkDepth at ht
              dsimp only at ht
              split at ht
              · cases ht
              · cases ht
                exact ⟨_, hpassed, Or.inr ⟨_, rfl⟩⟩
          · cases h
        · split at h
          · split at h
            · cases h
              exact ⟨_, hpassed, Or.inl rfl⟩
            · cases h
              exact ⟨_, hpassed, Or.inr ⟨_, rfl⟩⟩
          · cases h
            exact ⟨_, hpassed, Or.inr ⟨_, rfl⟩⟩
    · cases h

/-- The turns of a capture go past the lexemes they take, by induction on the turns. -/
theorem passed_of_collect_captureTurn {opening closing : TokenKind} {context : String}
    {depth : Nat} {p q : Parser} {xs : List Lexeme}
    (h : collect (captureTurn opening closing context) depth p = .ok xs q) :
    q.passed = xs.reverse ++ p.passed := by
  fun_induction collect (captureTurn opening closing context) depth p generalizing xs q with
  | case1 depth p d r hturn => cases h
  | case2 depth p r hturn =>
      obtain ⟨x, _, hx | ⟨next, hx⟩⟩ := passed_of_captureTurn hturn <;> cases hx
  | case3 depth p item r hturn =>
      cases h
      obtain ⟨x, hpassed, hx | ⟨next, hx⟩⟩ := passed_of_captureTurn hturn <;> cases hx
      exact hpassed
  | case4 depth p item next r hturn hleft items t hrest ih =>
      cases h
      obtain ⟨x, hpassed, hx | ⟨next, hx⟩⟩ := passed_of_captureTurn hturn <;> cases hx
      rw [ih hrest, hpassed, List.reverse_cons, List.append_assoc]
      rfl
  | case5 depth p item next r hturn hleft d t hrest ih => cases h
  | case6 depth p item next r hturn hleft =>
      exact absurd (progressive_captureTurn _ _ _ depth p item next r hturn) hleft

/-- A capture goes past the lexemes it takes, its opening bracket the first of them. -/
theorem passed_of_balanced {opening closing : TokenKind} {context : String} {p q : Parser}
    {xs : List Lexeme} (h : balanced opening closing context p = .ok xs q) :
    q.passed = xs.reverse ++ p.passed := by
  rw [balanced, bind_apply] at h
  split at h
  · next first r hr =>
      rw [consume, current_bind_apply] at hr
      split at hr
      · obtain ⟨rfl, hpassed⟩ := passed_of_advance hr
        rw [bind_apply] at h
        split at h
        · next more t ht =>
            cases h
            rw [passed_of_collect_captureTurn ht, hpassed, List.reverse_cons, List.append_assoc]
            rfl
        · cases h
      · cases hr
  · cases h

end Parse

namespace ByteParse

open Mirrors

variable {source : List Char} {limits : Limits}

/-! ## Captures -/

/-- The states of a capture: one depth, which is not zero. -/
def SameDepth (depth depth' : Nat) : Prop := depth = depth' ∧ 0 < depth

/-- A turn of a capture mirrors its turn, and its difference is not below zero. -/
theorem mirrors_captureTurn (opening closing : TokenKind) (context : String) {depth depth' : Nat}
    (h : SameDepth depth depth') :
    Mirrors source limits (TurnMirror (Lexeme.Cut source) SameDepth)
      (Parse.captureTurn opening closing context depth)
      (captureTurn source limits opening closing context depth') := by
  obtain ⟨rfl, hpos⟩ := h
  refine .bind_eq (.sees .eof) fun b => .ite Iff.rfl (fun _ => .fail _) fun _ =>
    .look_checked fun _ => .past fun x t hx => ?_
  obtain rfl := hx.token
  refine .ite Iff.rfl (fun _ => .bind_eq (.check _) fun _ => .pure ?_) fun _ =>
    .ite Iff.rfl (fun _ => ?_) fun _ => .pure (.more hx ⟨rfl, hpos⟩)
  · exact .more hx ⟨rfl, Nat.succ_pos _⟩
  · rw [Checked.subtract_bind hpos]
    refine .ite ?_ (fun _ => .pure (.last hx)) fun hdepth => .pure (.more hx ⟨rfl, ?_⟩)
    · omega
    · omega

/-- The first and the last token of a run of lexemes. -/
def Ends (xs : List Lexeme) (ends : Token × Token) : Prop :=
  ∃ x run, xs = x :: run ∧
    ends = (x.token, ((x :: run).getLast (List.cons_ne_nil x run)).token)

/-- The last of some tokens is that of the last lexeme. -/
theorem getLastD_of_cut {run : List Lexeme} {ts : List Token}
    (h : List.Forall₂ (Lexeme.Cut source) run ts) (x : Lexeme) :
    ts.getLastD x.token = ((x :: run).getLast (List.cons_ne_nil x run)).token := by
  induction h generalizing x with
  | nil => rfl
  | @cons y t run ts hy _ ih =>
      rw [List.getLastD_cons, List.getLast_cons (List.cons_ne_nil y run), ← ih y, hy.token]

/-- A capture comes to the ends of the lexemes it takes. -/
theorem mirrors_balanced (opening closing : TokenKind) (context : String) :
    Mirrors source limits Ends (Parse.balanced opening closing context)
      (balanced source limits opening closing context) := by
  refine .bind (.consume opening) fun x t hx => .bind (.collect
    (Parse.progressive_captureTurn _ _ _)
    (fun _ _ h => mirrors_captureTurn opening closing context h) ⟨rfl, Nat.one_pos⟩)
    fun run ts hrun => .pure ⟨x, run, rfl, ?_⟩
  rw [hx.token, getLastD_of_cut hrun]

/-- The text of lexemes gone past last is a slice of the source. -/
theorem mirror_textBetween {p : Parser} {q : ByteParser} (hp : q.Follows source limits p)
    {x : Lexeme} {run earlier : List Lexeme} (h : p.passed = (x :: run).reverse ++ earlier) :
    Mirror source limits Eq q ((pure (verbatim (x :: run)) : Parse String) p)
      (textBetween source x.token ((x :: run).getLast (List.cons_ne_nil x run)).token q) :=
  Mirrors.textBetween (hp.text.slice?_eq h) p q hp

/-- The text of a capture. -/
theorem mirrors_capture (opening closing : TokenKind) (context : String) :
    Mirrors source limits Eq (Parse.capture opening closing context)
      (capture source limits opening closing context) := by
  refine .nothingSkipped fun p q hp => ?_
  simp only [verbatimPast_nil]
  refine bind_at (mirrors_balanced opening closing context p q hp) ?_
  rintro _ _ p' q' hrun ⟨x, run, rfl, rfl⟩ hp'
  exact mirror_textBetween hp' (Parse.passed_of_balanced hrun)

/-- A location, whose text starts with its keyword. -/
theorem mirrors_location :
    Mirrors source limits Eq Parse.location (location source limits) := by
  refine .look fun t => .ite Iff.rfl (fun _ => .nothingSkipped fun p q hp => ?_) fun _ => .pure rfl
  simp only [verbatimPast_nil]
  refine bind_at (Mirrors.advance .structural p q hp) ?_
  intro x t p' q' hadvance hx hp'
  obtain ⟨rfl, hpassed⟩ := Parse.passed_of_advance hadvance
  refine bind_at (Mirrors.sees .lparen p' q' hp') ?_
  rintro _ b _ q'' ⟨⟩ rfl hp''
  by_cases hopen : p'.kind = .lparen
  · rw [if_pos (decide_eq_true hopen), if_pos (decide_eq_true hopen)]
    refine bind_at (mirrors_balanced .lparen .rparen "location" p' q'' hp'') ?_
    rintro _ _ r s hrun ⟨y, run, rfl, rfl⟩ hr
    -- the keyword was gone past right before the capture
    have hpast : r.passed = (p.lookahead :: y :: run).reverse ++ p.passed := by
      rw [Parse.passed_of_balanced hrun, hpassed]
      simp
    have htext := mirror_textBetween hr hpast
    rw [List.getLast_cons (List.cons_ne_nil y run), ← hx.token] at htext
    exact bind_at htext fun _ _ _ _ _ heq hr' => .ok (congrArg some heq) hr' (Or.inl rfl)
  · rw [if_neg (by simpa using hopen), if_neg (by simpa using hopen)]
    exact Mirrors.unexpected _ p' q'' hp''

/-! ## Attribute values -/

/-- A turn of an attribute value mirrors its turn.  The difference is behind the test for
zero. -/
theorem mirrors_attributeValueTurn (depth : Nat) :
    Mirrors source limits (TurnMirror (Lexeme.Cut source) Eq) (Parse.attributeValueTurn depth)
      (attributeValueTurn source limits depth) := by
  refine .look fun t => .ite Iff.rfl (fun _ => .pure .stop) fun _ =>
    .ite Iff.rfl (fun _ => .fail _) fun _ => .ite Iff.rfl (fun _ => ?_) fun _ =>
    .ite Iff.rfl (fun _ => ?_) fun _ => ?_
  · exact .bind_eq (.check _) fun _ => .past fun x t hx => .pure (.more hx rfl)
  · refine .ite Iff.rfl (fun _ => .fail _) fun hdepth => ?_
    rw [Checked.subtract_bind (Nat.pos_of_ne_zero hdepth)]
    exact .past fun x t hx => .pure (.more hx rfl)
  · exact .past fun x t hx => .pure (.more hx rfl)

/-- The texts of tokens that are cut out of the source. -/
theorem mirrors_texts {xs : List Lexeme} {ts : List Token}
    (h : List.Forall₂ (Lexeme.Cut source) xs ts) :
    Mirrors source limits Eq (pure (xs.map Lexeme.text))
      (ts.mapM fun t => textBetween source t t) := by
  induction h with
  | nil => exact .pure rfl
  | @cons x t xs ts hx _ ih =>
      rw [List.mapM_cons]
      exact .given (.textBetween hx.slice) (.given ih (.pure rfl))

/-- The value of lexemes is that of their tokens, or else their texts. -/
theorem ofLexemes_of_cut {xs : List Lexeme} {ts : List Token}
    (h : List.Forall₂ (Lexeme.Cut source) xs ts) :
    AttributeValue.ofLexemes xs =
      (literalValue? ts).getD (.opaqueText (joinedText (xs.map Lexeme.text))) := by
  have hjoined : ∀ ys : List Lexeme, GenericIR.joinedText ys = joinedText (ys.map Lexeme.text) := by
    intro ys
    rw [GenericIR.joinedText, joinedText, List.map_map]
    rfl
  cases h with
  | nil => exact congrArg _ (hjoined [])
  | @cons x t xs ts hx hxs =>
      cases hxs with
      | cons _ _ => exact congrArg _ (hjoined _)
      | nil =>
          rw [← hjoined, hx.token]
          unfold AttributeValue.ofLexemes literalValue?
          dsimp only
          -- either match of the kind and the value decides the other one
          split <;> simp_all

/-- An attribute value. -/
theorem mirrors_attributeValue : Mirrors source limits Eq Parse.attributeValue
    (attributeValue source limits) := by
  have hturn : ∀ depth depth', depth = depth' →
      Mirrors source limits (TurnMirror (Lexeme.Cut source) Eq) (Parse.attributeValueTurn depth)
        (attributeValueTurn source limits depth') := by
    rintro depth _ rfl
    exact mirrors_attributeValueTurn depth
  refine .bind (.collect Parse.progressive_attributeValueTurn hturn rfl) fun xs ts hxs => ?_
  rw [ofLexemes_of_cut hxs]
  cases literalValue? ts with
  | some value => exact .pure rfl
  | none => exact .given (mirrors_texts hxs) (.pure rfl)

/-! ## Types -/

/-- A type. -/
theorem mirrors_type : Mirrors source limits Eq Parse.type (type source limits) := by
  refine .look fun t => .ite Iff.rfl (fun _ => ?_) fun _ => .ite Iff.rfl (fun _ => ?_) fun _ =>
    .unexpected _
  · exact .past fun x t hx => .pure hx.valueText
  · refine .past fun bang t hbang => .look fun u => .ite ?_ (fun _ => ?_) fun _ => .unexpected _
    · rw [hbang.token]
    · exact .past fun x t hx => .pure (by rw [hx.valueText])

/-- A list of types. -/
theorem mirrors_typeList : Mirrors source limits Eq Parse.typeList (typeList source limits) :=
  .bind_eq (.accept .lparen) fun _ => .ite Iff.rfl
    (fun _ => .bind_eq (.closedItems .rparen Parse.composed_type mirrors_type) fun _ =>
      .bind (.consume .rparen) fun _ _ _ => .pure rfl)
    fun _ => .openItems Parse.composed_type mirrors_type

/-! ## Attribute dictionaries -/

/-- An entry of a dictionary. -/
theorem mirrors_attributeEntry :
    Mirrors source limits Eq Parse.attributeEntry (attributeEntry source limits) := by
  refine .bind_eq (.sees .identifier) fun _ => .ite Iff.rfl (fun _ => ?_) fun _ => .unexpected _
  refine .past fun x t hx => ?_
  rw [hx.valueText]
  exact .bind_eq (.accept .equal) fun _ => .ite Iff.rfl
    (fun _ => .bind_eq mirrors_attributeValue fun _ => .pure rfl) fun _ => .pure rfl

/-- A dictionary. -/
theorem mirrors_attributes (into : Attributes) :
    Mirrors source limits Eq (Parse.attributes into) (attributes source limits into) :=
  .bind (.consume .lbrace) fun _ _ _ =>
    .bind_eq (.itemsUntil [.rbrace] Parse.advances_separatedEntry
      (.bind_eq mirrors_attributeEntry fun _ => .bind_eq .skipCommas fun _ => .pure rfl)) fun _ =>
    .bind (.consume .rbrace) fun _ _ _ => .pure rfl

/-- A dictionary that may be missing. -/
theorem mirrors_optionalAttributes (into : Attributes) :
    Mirrors source limits Eq (Parse.optionalAttributes into)
      (optionalAttributes source limits into) :=
  .bind_eq (.sees .lbrace) fun _ => .ite Iff.rfl (fun _ => mirrors_attributes into) fun _ =>
    .pure rfl

/-- A dictionary after its word. -/
theorem mirrors_attributesClause (into : Attributes) :
    Mirrors source limits Eq (Parse.attributesClause into) (attributesClause source limits into) :=
  .look fun _ => .ite Iff.rfl (fun _ => .past fun _ _ _ => mirrors_attributes into) fun _ =>
    .pure rfl

/-! ## Operations -/

/-- A value that an operation defines. -/
theorem mirrors_returnValue :
    Mirrors source limits Eq Parse.returnValue (returnValue source limits) := by
  refine .bind (.consume .valueId) fun x t hx => .bind_eq (.accept .colon) fun _ =>
    .ite Iff.rfl (fun _ => ?_) fun _ => .pure hx.valueText
  exact .bind (.consume .integerLiteral) fun y u hy =>
    .pure (by rw [hx.valueText, hy.valueText])

/-- The values that an operation defines. -/
theorem mirrors_returnValues :
    Mirrors source limits Eq Parse.returnValues (returnValues source limits) :=
  .bind_eq (.accept .lparen) fun _ => .ite Iff.rfl
    (fun _ => .bind_eq (.closedItems .rparen Parse.composed_returnValue mirrors_returnValue)
      fun _ => .bind (.consume .rparen) fun _ _ _ => .pure rfl)
    fun _ => .bind_eq (.sees .valueId) fun _ => .ite Iff.rfl
      (fun _ => .openItems Parse.composed_returnValue mirrors_returnValue) fun _ => .pure rfl

/-- The name of an operation. -/
theorem mirrors_operationName :
    Mirrors source limits Eq Parse.operationName (operationName source limits) := by
  refine .look fun t => .ite Iff.rfl (fun _ => .past fun x t hx => .pure hx.valueText) fun _ =>
    .ite Iff.rfl (fun _ => .past fun x t hx => ?_) fun _ => .unexpected _
  rw [hx.valueText]
  refine .bind_eq (.sees .identifier) fun _ => .ite Iff.rfl (fun _ => ?_) fun _ => .pure rfl
  exact .past fun y u hy => .pure (by rw [hy.valueText])

/-- A callee that may be missing. -/
theorem mirrors_callee : Mirrors source limits Eq Parse.callee (callee source limits) :=
  .bind_eq (.sees .symbolRefId) fun _ => .ite Iff.rfl
    (fun _ => .past fun _ _ hx => .pure (congrArg some hx.valueText)) fun _ => .pure rfl

/-- One operand. -/
theorem mirrors_operandTurn :
    Mirrors source limits (TurnMirror Eq Eq) Parse.operandTurn (operandTurn source limits) := by
  refine .bind_eq .skipCommas fun _ => .look fun t => .ite Iff.rfl (fun _ => .pure .stop) fun _ =>
    .ite Iff.rfl (fun _ => .past fun x t hx => .pure (.more hx.valueText rfl)) fun _ =>
    .ite Iff.rfl (fun _ => .past fun x t hx => .pure (.last hx.valueText)) fun _ =>
    .ite Iff.rfl (fun _ => .past fun x t hx => ?_) fun _ => .unexpected _
  exact .given (.textBetween hx.slice) (.pure (.last rfl))

/-- The operands. -/
theorem mirrors_operands : Mirrors source limits Eq Parse.operands (operands source limits) :=
  .bind_eq (.accept .lparen) fun _ =>
    .bind_eq (.collect_eq Parse.progressive_operandTurn fun _ => mirrors_operandTurn) fun _ =>
    .ite Iff.rfl (fun _ => .bind (.consume .rparen) fun _ _ _ => .pure rfl) fun _ => .pure rfl

/-- A region group that may be missing. -/
theorem mirrors_regionGroup :
    Mirrors source limits Eq Parse.regionGroup (regionGroup source limits) :=
  .bind_eq (.sees .lparen) fun _ => .ite Iff.rfl
    (fun _ => .bind_eq (mirrors_capture .lparen .rparen "region group") fun _ => .pure rfl)
    fun _ => .pure rfl

/-- Types after a mark. -/
theorem mirrors_typesAfter (k : TokenKind) :
    Mirrors source limits Eq (Parse.typesAfter k) (typesAfter source limits k) :=
  .bind_eq (.accept k) fun _ => .ite Iff.rfl (fun _ => mirrors_typeList) fun _ => .pure rfl

/-- A block after the signature. -/
theorem mirrors_block (into : Attributes) :
    Mirrors source limits Eq (Parse.block into) (block source limits into) :=
  .bind_eq (.sees .lbrace) fun _ => .ite Iff.rfl
    (fun _ => .bind_eq .peek fun _ => .ite Iff.rfl
      (fun _ => .bind_eq (mirrors_attributes into) fun _ => .pure rfl)
      fun _ => .bind_eq (mirrors_capture .lbrace .rbrace "operation body") fun _ => .pure rfl)
    fun _ => .pure rfl

/-- The values that an operation defines with the equals sign behind them. -/
theorem mirrors_definitions :
    Mirrors source limits Eq Parse.definitions (definitions source limits) :=
  .bind_eq mirrors_returnValues fun _ => .ite Iff.rfl (fun _ => .pure rfl) fun _ =>
    .bind (.consume .equal) fun _ _ _ => .pure rfl

/-- An operation up to the types of its operands. -/
theorem mirrors_operationHead :
    Mirrors source limits Eq Parse.operationHead (operationHead source limits) :=
  .bind_eq mirrors_definitions fun _ => .bind_eq mirrors_operationName fun _ =>
    .bind_eq mirrors_callee fun _ => .bind_eq mirrors_operands fun _ =>
    .bind_eq mirrors_regionGroup fun _ => .bind_eq (mirrors_optionalAttributes _) fun _ =>
    .bind_eq (mirrors_typesAfter .colon) fun _ => .pure rfl

/-- What follows the head of a constant. -/
theorem mirrors_constantTail (op : Operation) :
    Mirrors source limits Eq (Parse.constantTail op) (constantTail source limits op) :=
  .bind_eq mirrors_location fun _ => .pure rfl

/-- What follows the head of any other operation. -/
theorem mirrors_operationTail (op : Operation) :
    Mirrors source limits Eq (Parse.operationTail op) (operationTail source limits op) :=
  .bind_eq (mirrors_typesAfter .arrow) fun _ => .bind_eq (mirrors_block _) fun _ =>
    .bind_eq (mirrors_optionalAttributes _) fun _ => .bind_eq mirrors_location fun _ => .pure rfl

/-- An operation. -/
theorem mirrors_operation : Mirrors source limits Eq Parse.operation (operation source limits) :=
  .bind_eq mirrors_operationHead fun op => .bind_eq (.sees .arrow) fun _ => .ite Iff.rfl
    (fun _ => mirrors_constantTail op) fun _ => mirrors_operationTail op

/-! ## Functions -/

/-- A visibility that may be missing. -/
theorem mirrors_visibility :
    Mirrors source limits Eq Parse.visibility (visibility source limits) :=
  .look fun _ => .ite Iff.rfl
    (fun _ => .past fun _ _ hx => .pure (congrArg some hx.valueText)) fun _ => .pure rfl

/-- A parameter. -/
theorem mirrors_parameter : Mirrors source limits Eq Parse.parameter (parameter source limits) := by
  refine .bind (.consume .valueId) fun x t hx => ?_
  rw [hx.valueText]
  exact .bind (.consume .colon) fun _ _ _ => .bind_eq mirrors_type fun _ =>
    .bind_eq (mirrors_optionalAttributes _) fun _ => .bind_eq mirrors_location fun _ => .pure rfl

/-- The parameters. -/
theorem mirrors_parameters :
    Mirrors source limits Eq Parse.parameters (parameters source limits) :=
  .bind (.consume .lparen) fun _ _ _ =>
    .bind_eq (.closedItems .rparen Parse.composed_parameter mirrors_parameter) fun _ =>
    .bind (.consume .rparen) fun _ _ _ => .pure rfl

/-- A result. -/
theorem mirrors_result : Mirrors source limits Eq Parse.result (result source limits) :=
  .bind_eq mirrors_type fun _ => .bind_eq (mirrors_optionalAttributes _) fun _ => .pure rfl

/-- The results. -/
theorem mirrors_results : Mirrors source limits Eq Parse.results (results source limits) :=
  .bind_eq (.accept .lparen) fun _ => .ite Iff.rfl
    (fun _ => .bind_eq (.closedItems .rparen Parse.composed_result mirrors_result) fun _ =>
      .bind (.consume .rparen) fun _ _ _ => .pure rfl)
    fun _ => .bind_eq mirrors_type fun _ => .pure rfl

/-- The results after an arrow. -/
theorem mirrors_resultsClause :
    Mirrors source limits Eq Parse.resultsClause (resultsClause source limits) :=
  .bind_eq (.accept .arrow) fun _ => .ite Iff.rfl (fun _ => mirrors_results) fun _ => .pure rfl

/-- A body that may be missing. -/
theorem mirrors_functionBody :
    Mirrors source limits Eq Parse.functionBody (functionBody source limits) :=
  .bind_eq (.accept .lbrace) fun _ => .ite Iff.rfl
    (fun _ => .bind_eq (.itemsUntil _ Parse.advances_operation mirrors_operation) fun _ =>
      .bind (.consume .rbrace) fun _ _ _ => .pure rfl)
    fun _ => .pure rfl

/-- What follows the keyword of a function. -/
theorem mirrors_functionTail :
    Mirrors source limits Eq Parse.functionTail (functionTail source limits) := by
  refine .bind_eq mirrors_visibility fun _ => .bind (.consume .symbolRefId) fun x t hx => ?_
  rw [hx.valueText]
  exact .bind_eq mirrors_parameters fun _ => .bind_eq (mirrors_attributesClause _) fun _ =>
    .bind_eq mirrors_resultsClause fun _ => .bind_eq (mirrors_attributesClause _) fun _ =>
    .bind_eq mirrors_functionBody fun _ => .pure rfl

/-- A function. -/
theorem mirrors_function : Mirrors source limits Eq Parse.function (function source limits) :=
  .bind (.consume .keyword) fun _ _ _ => mirrors_functionTail

/-! ## Modules -/

/-- The name of a module, which may be missing. -/
theorem mirrors_moduleName :
    Mirrors source limits Eq Parse.moduleName (moduleName source limits) :=
  .bind_eq (.sees .symbolRefId) fun _ => .ite Iff.rfl
    (fun _ => .past fun _ _ hx => .pure (by rw [hx.valueText])) fun _ => .pure rfl

/-- An item of a module. -/
theorem mirrors_moduleItem :
    Mirrors source limits Eq Parse.moduleItem (moduleItem source limits) :=
  .look fun _ => .ite Iff.rfl (fun _ => .bind_eq mirrors_function fun _ => .pure rfl) fun _ =>
    .bind_eq mirrors_operation fun _ => .pure rfl

/-- A module up to its closing brace. -/
theorem mirrors_moduleText :
    Mirrors source limits Eq Parse.moduleText (moduleText source limits) :=
  .bind (.consumeText .keyword "module") fun _ _ _ => .bind_eq mirrors_moduleName fun _ =>
    .bind_eq (mirrors_attributesClause _) fun _ => .bind (.consume .lbrace) fun _ _ _ =>
    .bind_eq (.itemsUntil _ Parse.advances_moduleItem mirrors_moduleItem) fun _ =>
    .bind (.consume .rbrace) fun _ _ _ => .pure rfl

/-- A module with nothing behind it. -/
theorem mirrors_graph : Mirrors source limits Eq Parse.graph (graph source limits) :=
  .bind_eq mirrors_moduleText fun _ => .bind (.consume .eof) fun _ _ _ => .pure rfl

end ByteParse

/-! ## Whole sources -/

namespace ByteParser

/-- A reading at the start of a source puts a parser over bytes where it puts a parser. -/
theorem follows_ofSource {limits : Limits} {source : String} {x : Lexeme} {l : Lexer}
    (hnext : Lexer.next (.ofSource limits source) = .ok x l) :
    Follows source.toList limits ⟨l.place, x.token, []⟩ ⟨l, x, [], []⟩ where
  text := .ofSource hnext
  limits := (Lexer.took_of_next hnext).1.limits
  place := rfl
  lookahead := rfl
  passed := rfl

/-- The first reading over bytes is that of the lexer. -/
theorem next_start (limits : Limits) (source : String) :
    ByteLexer.next source.toList limits .start =
      some (ByteLexer.ofReading (Lexer.next (.ofSource limits source))) :=
  ByteLexer.next_eq (.ofSource limits source) (.start source.toList)

section OfNext

variable {limits : Limits} {source : String} {x : Lexeme} {l : Lexer}

/-- Parsing over bytes gives the graph that the parser of a whole module gives. -/
theorem parse_of_ok (hnext : Lexer.next (.ofSource limits source) = .ok x l) {g : Graph}
    {q : ByteParser}
    (h : ByteParse.graph source.toList limits ⟨l.place, x.token, []⟩ = some (.ok g, q)) :
    ByteParser.parse limits source = some (.ok g, q.passed.reverse) := by
  simp only [ByteParser.parse, next_start, hnext, ByteLexer.ofReading, h]

/-- Parsing over bytes ends with the diagnostic that the parser of a whole module ends with. -/
theorem parse_of_error (hnext : Lexer.next (.ofSource limits source) = .ok x l) {d : Diagnostic}
    {q : ByteParser}
    (h : ByteParse.graph source.toList limits ⟨l.place, x.token, []⟩ = some (.error d, q)) :
    ByteParser.parse limits source = some (.error (d.inSource source), q.passed.reverse) := by
  simp only [ByteParser.parse, next_start, hnext, ByteLexer.ofReading, h]

end OfNext

/-- Marks are as many as the lexemes with their tokens, and have their kinds. -/
theorem marks_of_map {marks : List Mark} {xs : List Lexeme} {n : Nat}
    (h : marks.map Mark.token = xs.map Lexeme.token) (hlength : xs.length ≤ n)
    (hkind : ∀ x ∈ xs, x.token.kind ≠ .eof) :
    marks.length ≤ n ∧ ∀ m ∈ marks, m.token.kind ≠ .eof := by
  constructor
  · have hsame : marks.length = xs.length := by simpa using congrArg List.length h
    rwa [hsame]
  · intro m hm
    have hmem : m.token ∈ xs.map Lexeme.token := h ▸ List.mem_map_of_mem hm
    obtain ⟨x, hx, hxm⟩ := List.mem_map.mp hmem
    exact hxm ▸ hkind x hx

/-- **Parsing a source over bytes never goes wrong.**  It has a result for every source, which is
the graph or the diagnostic of the source: no slice is out of place, no difference is below zero,
and each turn of a loop that goes on has gone past a token.  It takes the place of the lookahead
at most once for every byte of the source and once more, and goes past the end of the text only
where the source has a graph, and then last. -/
theorem parse_total (limits : Limits) (source : String) :
    ∃ passed, ByteParser.parse limits source = some (Graph.parse limits source, passed) ∧
      passed.length ≤ source.utf8ByteSize + 1 ∧
      (∀ m ∈ passed.dropLast, m.token.kind ≠ .eof) ∧
      ((∃ m ∈ passed, m.token.kind = .eof) ↔ ∃ g, Graph.parse limits source = .ok g) := by
  unfold Graph.parse Parser.ofSource
  cases hl : Lexer.next (.ofSource limits source) with
  | error d l =>
      have hparse : ByteParser.parse limits source = some (.error (d.inSource source), []) := by
        simp only [ByteParser.parse, next_start, hl, ByteLexer.ofReading]
      exact ⟨[], hparse, Nat.zero_le _, by simp, by simp⟩
  | ok x l =>
      have hleft : Parser.left ⟨l, x, [], []⟩ ≤ source.utf8ByteSize :=
        byteLength_toList source ▸ (Parser.left_ofSource hl).trans (length_le_byteLength _)
      have hmirror := ByteParse.mirrors_graph _ _ (follows_ofSource hl)
      dsimp only
      generalize hr : ByteParse.graph source.toList limits ⟨l.place, x.token, []⟩ = r at hmirror
      rcases Parse.graph_cases (p := ⟨l, x, [], []⟩) rfl with
        ⟨d, p', hgraph, hlength, hkind⟩ | ⟨g, p', y, before, hgraph, hpassed, hy, hlength, hkind⟩
      · -- a diagnostic, behind no end of the text
        rw [hgraph] at hmirror ⊢
        cases hmirror with
        | @error _ _ q htokens =>
            obtain ⟨hmarks, hkinds⟩ := marks_of_map htokens (hlength.trans hleft) hkind
            refine ⟨_, parse_of_error hl hr, ?_, fun m hm => ?_, ?_⟩
            · rw [List.length_reverse]
              exact hmarks.trans (Nat.le_succ _)
            · exact hkinds m (List.mem_reverse.mp ((List.dropLast_sublist _).subset hm))
            · simpa using hkinds
      · -- a graph, right behind the end of the text
        rw [hgraph] at hmirror ⊢
        cases hmirror with
        | @ok _ _ _ q hg hfollows _ =>
            obtain rfl := hg
            have htokens := hfollows.passed
            rw [hpassed, List.map_cons, List.map_eq_cons_iff] at htokens
            obtain ⟨m, marks, hq, hm, hrest⟩ := htokens
            obtain ⟨hmarks, hkinds⟩ := marks_of_map hrest (hlength.trans hleft) hkind
            refine ⟨_, parse_of_ok hl hr, ?_, ?_, ?_⟩
            · rw [hq, List.length_reverse, List.length_cons]
              exact Nat.succ_le_succ hmarks
            · rw [hq, List.reverse_cons, List.dropLast_concat]
              exact fun n hn => hkinds n (List.mem_reverse.mp hn)
            · have hlast : m.token.kind = .eof := hm ▸ hy
              exact ⟨fun _ => ⟨g, rfl⟩, fun _ => ⟨m, by simp [hq], hlast⟩⟩

end ByteParser

end GenericIR
