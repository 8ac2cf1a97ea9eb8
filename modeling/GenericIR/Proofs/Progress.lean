/-
# Progress of the parser

No step of the grammar brings a parser further from the end of its text, and every production
that can be repeated brings it nearer.  So every turn of a list that goes on has gone past a
lexeme, which is why no list can stall.

* `Parser.left_le_of_moves` : moves never add to what is left;
* `Parse.advances_operation`, `Parse.advances_moduleItem` : an item takes a lexeme;
* `Parse.collect_eq` : a list of turns that go forward is one turn and the turns after it.
-/
import GenericIR.Proofs.Composition

namespace GenericIR

/-! ## What is left after moves -/

namespace Lexer

/-- Taking a text leaves no more than before. -/
theorem Took.length_le {l m : Lexer} {blank text : List Char} (h : Took l blank text m) :
    m.rest.length ≤ l.rest.length := by
  rw [h.rest]
  simp only [List.length_append]
  omega

end Lexer

namespace Parser

/-- A move never adds to what is left, and takes from it where it goes past a lexeme. -/
theorem left_le_of_move {p q : Parser} (h : p.Move q) : q.left ≤ p.left := by
  cases h with
  | @past x l hnext hp =>
      have hadv : Parse.advance p = .ok p.lookahead ⟨l, x, p.lookahead :: p.passed, []⟩ := by
        rw [Parse.advance, hnext]
      exact Nat.le_of_lt (left_of_advance p _ p.lookahead hadv hp)
  | fault hnext hp =>
      obtain ⟨_, _, _, htook, _⟩ := Lexer.took_of_next_error hnext
      exact Nat.add_le_add_right htook.length_le _

/-- Moves never add to what is left. -/
theorem left_le_of_moves {p q : Parser} (h : p.Moves q) : q.left ≤ p.left := by
  induction h with
  | refl => exact Nat.le_refl _
  | tail _ hmove ih => exact Nat.le_trans (left_le_of_move hmove) ih

end Parser

namespace Parse

/-- A composed step that gives a value has added nothing to what is left. -/
theorem Composed.left_le {α : Type} {m : Parse α} (h : Composed Any m) {p q : Parser} {a : α}
    (hm : m p = .ok a q) : q.left ≤ p.left := by
  have hmoves := h.moves p trivial
  rw [after, hm] at hmoves
  exact Parser.left_le_of_moves hmoves

/-! ## Steps that go forward -/

/-- A step that, from a lookahead whose kind is in `P`, gives a value only after it has gone
past a lexeme. -/
def Advances {α : Type} (P : TokenKind → Prop) (m : Parse α) : Prop :=
  ∀ p a q, P p.kind → m p = .ok a q → q.left < p.left

namespace Advances

variable {α β : Type} {P : TokenKind → Prop}

/-- Going on from a lookahead that is not the end goes past a lexeme. -/
theorem advance (h : ¬ P .eof) : Advances P Parse.advance := fun p x q hp hadv =>
  Parser.left_of_advance p q x hadv fun heof => h (heof ▸ hp)

/-- A failure gives no value. -/
theorem fail (fault : Fault) : Advances P (Parse.fail fault : Parse α) := fun _ _ _ _ h => by
  cases h

/-- The first of two steps goes forward. -/
theorem left {m : Parse α} {f : α → Parse β} (hm : Advances P m)
    (hf : ∀ a, Composed Any (f a)) : Advances P (m >>= f) := by
  intro p b r hp h
  obtain ⟨a, q, hq, h⟩ := exists_of_bind_ok h
  exact Nat.lt_of_le_of_lt ((hf a).left_le h) (hm p a q hp hq)

/-- The second of two steps goes forward. -/
theorem right {m : Parse α} {f : α → Parse β} (hm : Composed Any m)
    (hf : ∀ a, Advances Any (f a)) : Advances P (m >>= f) := by
  intro p b r _ h
  obtain ⟨a, q, hq, h⟩ := exists_of_bind_ok h
  exact Nat.lt_of_lt_of_le (hf a q b r trivial h) (hm.left_le hq)

/-- Looking at the lookahead settles its kind for what follows. -/
theorem look {f : Token → Parse α} (h : ∀ t, P t.kind → Advances (· = t.kind) (f t)) :
    Advances P (current >>= f) := fun p a q hp hf => h p.lookahead.token hp p a q rfl hf

/-- Asking for a kind other than the end goes forward. -/
theorem consume {k : TokenKind} (hk : k ≠ .eof) : Advances P (Parse.consume k) := by
  refine look fun t _ => ?_
  split
  · next ht => exact advance fun h => hk (by rw [← ht, ← h])
  · exact fail _

/-- A token that a production cannot start with is a failure. -/
theorem unexpected (context : String) : Advances P (Parse.unexpected context : Parse α) :=
  look fun _ _ => fail _

end Advances

/-! ## Productions that take a lexeme -/

section Productions

variable {P : TokenKind → Prop}

/-- An entry of a dictionary takes a lexeme. -/
theorem advances_attributeEntry : Advances P attributeEntry := by
  intro p a q _ h
  rw [attributeEntry, sees_bind_apply] at h
  by_cases hp : p.kind = .identifier
  · rw [decide_eq_true hp, if_pos rfl] at h
    refine Advances.left (P := (· = .identifier)) (.advance (by decide)) (fun x => ?_) p a q hp h
    exact .accept (by decide) (.bind composed_attributeValue fun _ => .pure _) (.pure _)
  · rw [decide_eq_false hp] at h
    cases h

/-- A name in a dictionary takes a lexeme, with the commas behind it. -/
theorem advances_separatedEntry :
    Advances P (attributeEntry >>= fun entry => skipCommas >>= fun _ => pure entry) :=
  .left advances_attributeEntry fun _ => .bind composed_skipCommas fun _ => .pure _

/-- The name of an operation takes a lexeme. -/
theorem advances_operationName : Advances P operationName := by
  refine .look fun t _ => ?_
  split
  · next ht => exact .left (.advance fun h => by rw [ht] at h; cases h) fun _ => .pure _
  · split
    · next ht =>
        refine .left (.advance fun h => by rw [ht] at h; cases h) fun x => ?_
        exact .sees (fun _ => .bind (.advance (by decide)) fun _ => .pure _) (.pure _)
    · exact .unexpected _

/-- An operation takes a lexeme, for it has a name. -/
theorem advances_operation : Advances P operation := by
  have hhead : ∀ {P}, Advances P operationHead := by
    refine .right composed_definitions fun _ => .left advances_operationName fun _ => ?_
    exact .bind composed_callee fun _ => .bind composed_operands fun _ =>
      .bind composed_regionGroup fun _ => .bind (composed_optionalAttributes _) fun _ =>
      .bind (composed_typesAfter (by decide)) fun _ => .pure _
  exact .left hhead composed_afterHead

/-- A function takes a lexeme. -/
theorem advances_function : Advances P function :=
  .left (.consume (by decide)) fun _ => composed_functionTail

/-- An item of a module takes a lexeme. -/
theorem advances_moduleItem : Advances P moduleItem := by
  refine .look fun t _ => ?_
  split
  · exact .left advances_function fun _ => .pure _
  · exact .left advances_operation fun _ => .pure _

end Productions

/-! ## Turns that go forward -/

/-- A repetition in which every turn that goes on has gone past a lexeme. -/
def Progressive {σ α : Type} (turn : σ → Parse (Turn σ α)) : Prop :=
  ∀ s p item next q, turn s p = .ok (.more item next) q → q.left < p.left

/-- A turn of a list up to some kinds goes forward with its item. -/
theorem progressive_untilTurn {α : Type} (stops : List TokenKind) {item : Parse α}
    (hitem : Advances Any item) : Progressive (untilTurn stops item) := by
  intro s p a next q h
  rw [untilTurn, current_bind_apply] at h
  split at h
  · cases h
  · obtain ⟨b, r, hr, h⟩ := exists_of_bind_ok h
    cases h
    exact hitem p a q trivial hr

/-- A turn of a list up to a closing bracket goes on behind a comma. -/
theorem progressive_closedTurn {α : Type} (close : TokenKind) {item : Parse α}
    (hitem : Composed Any item) : Progressive (closedTurn close item) := by
  intro s p a next q h
  rw [closedTurn, sees_bind_apply] at h
  split at h
  · cases h
  · obtain ⟨b, r, hr, h⟩ := exists_of_bind_ok h
    rw [accept_bind, sees_bind_apply] at h
    by_cases hcomma : r.kind = .comma
    · rw [decide_eq_true hcomma, if_pos rfl, if_pos rfl] at h
      obtain ⟨x, t, ht, h⟩ := exists_of_bind_ok h
      cases h
      have hlt := Parser.left_of_advance r q x ht (by rw [hcomma]; decide)
      exact Nat.lt_of_lt_of_le hlt (hitem.left_le hr)
    · rw [decide_eq_false hcomma] at h
      cases h

/-- A turn of a list with commas goes on behind a comma. -/
theorem progressive_commaTurn {α : Type} {item : Parse α} (hitem : Composed Any item) :
    Progressive (commaTurn item) := by
  intro s p a next q h
  rw [commaTurn, accept_bind, sees_bind_apply] at h
  by_cases hcomma : p.kind = .comma
  · rw [decide_eq_true hcomma, if_pos rfl, if_pos rfl] at h
    refine Advances.left (P := (· = .comma)) (.advance (by decide)) (fun x => ?_) p _ q hcomma h
    exact .bind hitem fun _ => .pure _
  · rw [decide_eq_false hcomma] at h
    cases h

/-- A turn of a capture goes past the lexeme it takes. -/
theorem progressive_captureTurn (opening closing : TokenKind) (context : String) :
    Progressive (captureTurn opening closing context) := by
  intro depth p a next q h
  rw [captureTurn, sees_bind_apply] at h
  by_cases heof : p.kind = .eof
  · rw [decide_eq_true heof] at h
    cases h
  · rw [decide_eq_false heof] at h
    refine Advances.left (P := (· ≠ .eof)) (.advance fun hne => hne rfl) (fun x => ?_) p _ q heof h
    split
    · exact .check (.pure _)
    · split
      · split <;> exact .pure _
      · exact .pure _

/-- A turn of an attribute value goes past the lexeme it takes. -/
theorem progressive_attributeValueTurn : Progressive attributeValueTurn := by
  intro depth p a next q h
  rw [attributeValueTurn, current_bind_apply] at h
  split at h
  · cases h
  · split at h
    · cases h
    · next heof =>
        have hadv : ∀ f : Lexeme → Turn Nat Lexeme,
            Advances (· ≠ .eof) (advance >>= fun x => (Pure.pure (f x) : Parse _)) :=
          fun f => .left (.advance fun hne => hne rfl) fun _ => .pure _
        split at h
        · rw [bind_apply, checkDepth] at h
          by_cases hdeep : p.lexer.limits.maxNestingDepth < depth + 1
          · simp only [hdeep, if_true, Parse.fail] at h
            cases h
          · simp only [hdeep, if_false] at h
            exact hadv _ p _ q heof h
        · split at h
          · split at h
            · cases h
            · exact hadv _ p _ q heof h
          · exact hadv _ p _ q heof h

/-- A turn of the operands goes past the value it takes. -/
theorem progressive_operandTurn : Progressive fun (_ : Unit) => operandTurn := by
  intro s p a next q h
  replace h : operandTurn p = .ok (.more a next) q := h
  rw [operandTurn] at h
  obtain ⟨u, r, hr, h⟩ := exists_of_bind_ok h
  have hle := composed_skipCommas.left_le hr
  rw [current_bind_apply] at h
  split at h
  · cases h
  split at h
  · next hvalue =>
      refine Nat.lt_of_lt_of_le ?_ hle
      have hadv : Advances (· = .valueId)
          (advance >>= fun x => (Pure.pure (.more x.valueText ()) : Parse (Turn Unit String))) :=
        .left (.advance (by decide)) fun _ => .pure _
      exact hadv r _ q hvalue h
  split at h
  · obtain ⟨_, _, _, h⟩ := exists_of_bind_ok h
    cases h
  split at h
  · obtain ⟨_, _, _, h⟩ := exists_of_bind_ok h
    cases h
  · cases h

/-! ## Lists, turn by turn -/

/-- A list of turns that go forward is one turn and, where it goes on, the turns from its
state on. -/
theorem collect_eq {σ α : Type} {turn : σ → Parse (Turn σ α)} (h : Progressive turn) (s : σ) :
    (collect turn s : Parse (List α)) = turn s >>= fun r => match r with
      | .stop => pure []
      | .last a => pure [a]
      | .more a next => collect turn next >>= fun as => pure (a :: as) := by
  funext p
  rw [bind_apply]
  cases hr : turn s p with
  | error d q => rw [collect_of_error _ _ _ _ _ hr]
  | ok r q =>
      cases r with
      | stop => rw [collect_of_stop _ _ _ _ hr]; rfl
      | last a => rw [collect_of_last _ _ _ _ _ hr]; rfl
      | more a next =>
          rw [collect, hr]
          simp only [h s p a next q hr, dif_pos]
          show _ = (collect turn next >>= fun as => (pure (a :: as) : Parse (List α))) q
          rw [bind_apply]
          cases collect turn next q <;> rfl

/-- A list up to some kinds of lookahead, one item at a time. -/
theorem itemsUntil_eq {α : Type} (stops : List TokenKind) {item : Parse α}
    (hitem : Advances Any item) :
    itemsUntil stops item = current >>= fun t => if t.kind ∈ stops then pure []
      else item >>= fun a => itemsUntil stops item >>= fun as => pure (a :: as) := by
  conv => lhs; rw [itemsUntil, collect_eq (progressive_untilTurn stops hitem), untilTurn,
    bind_assoc]
  congr 1
  funext t
  split
  · rw [pure_bind]
  · simp only [bind_assoc, pure_bind, itemsUntil]

/-- A list up to a closing bracket, one item at a time. -/
theorem closedItems_eq {α : Type} (close : TokenKind) {item : Parse α}
    (hitem : Composed Any item) :
    closedItems close item = sees close >>= fun b => if b then pure []
      else item >>= fun a => accept .comma >>= fun c =>
        if c then closedItems close item >>= fun as => pure (a :: as) else pure [a] := by
  conv => lhs; rw [closedItems, collect_eq (progressive_closedTurn close hitem), closedTurn,
    bind_assoc]
  congr 1
  funext b
  split
  · rw [pure_bind]
  · rw [bind_assoc]
    congr 1
    funext a
    rw [bind_assoc]
    congr 1
    funext c
    split <;> rw [pure_bind]
    rfl

/-- The further items of a list with commas, one at a time. -/
theorem collect_commaTurn_eq {α : Type} {item : Parse α} (hitem : Composed Any item) :
    collect (commaTurn item) () = accept .comma >>= fun c =>
      if c then item >>= fun a => collect (commaTurn item) () >>= fun as =>
        pure (a :: as)
      else pure [] := by
  conv => lhs; rw [collect_eq (progressive_commaTurn hitem), commaTurn, bind_assoc]
  congr 1
  funext c
  split
  · simp only [bind_assoc, pure_bind]
  · rw [pure_bind]

/-- No comma is skipped where there is none. -/
theorem skipCommas_of_ne {p : Parser} (hp : p.kind ≠ .comma) : skipCommas p = .ok () p := by
  rw [skipCommas, collect_commaTurn_eq (.pure ()), accept_bind, bind_apply, sees_bind_apply,
    decide_eq_false hp]
  rfl

/-- The lexemes of a capture, one at a time. -/
theorem collect_captureTurn_eq (opening closing : TokenKind) (context : String)
    (depth : Nat) :
    collect (captureTurn opening closing context) depth =
      sees .eof >>= fun b => if b then fail (.unbalanced context)
        else advance >>= fun x =>
          if x.kind = opening then checkDepth (depth + 1) >>= fun _ =>
            collect (captureTurn opening closing context) (depth + 1) >>=
              fun run => pure (x :: run)
          else if x.kind = closing then
            if depth ≤ 1 then pure [x]
            else collect (captureTurn opening closing context) (depth - 1) >>=
              fun run => pure (x :: run)
          else collect (captureTurn opening closing context) depth >>=
            fun run => pure (x :: run) := by
  conv => lhs; rw [collect_eq (progressive_captureTurn opening closing context), captureTurn,
    bind_assoc]
  congr 1
  funext b
  split
  · rfl
  · rw [bind_assoc]
    congr 1
    funext x
    split
    · simp only [bind_assoc, pure_bind]
    · split
      · split <;> rw [pure_bind]
      · rw [pure_bind]

/-- The lexemes of an attribute value, one at a time. -/
theorem collect_attributeValueTurn_eq (depth : Nat) :
    collect attributeValueTurn depth = current >>= fun t =>
      if depth = 0 ∧ (t.kind = .comma ∨ t.kind = .rbrace) then pure []
      else if t.kind = .eof then fail (.unbalanced "attribute value")
      else if t.kind.isOpenBracket then checkDepth (depth + 1) >>= fun _ => advance >>= fun x =>
        collect attributeValueTurn (depth + 1) >>=
          fun run => pure (x :: run)
      else if t.kind.isCloseBracket then
        if depth = 0 then fail (.unbalanced "attribute value")
        else advance >>= fun x =>
          collect attributeValueTurn (depth - 1) >>=
            fun run => pure (x :: run)
      else advance >>= fun x => collect attributeValueTurn depth >>=
        fun run => pure (x :: run) := by
  conv => lhs; rw [collect_eq progressive_attributeValueTurn, attributeValueTurn, bind_assoc]
  congr 1
  funext t
  dsimp only
  by_cases hstop : depth = 0 ∧ (t.kind = .comma ∨ t.kind = .rbrace)
  · simp only [hstop, and_self, if_true, pure_bind]
  · by_cases heof : t.kind = .eof
    · simp only [if_neg hstop, if_pos heof]
      rfl
    · by_cases hopen : t.kind.isOpenBracket = true
      · simp only [if_neg hstop, if_neg heof, if_pos hopen, bind_assoc, pure_bind]
      · by_cases hclose : t.kind.isCloseBracket = true
        · by_cases hdepth : depth = 0
          · simp only [if_neg hstop, if_neg heof, if_neg hopen, if_pos hclose, if_pos hdepth]
            rfl
          · simp only [if_neg hstop, if_neg heof, if_neg hopen, if_pos hclose, if_neg hdepth,
              bind_assoc, pure_bind]
        · simp only [if_neg hstop, if_neg heof, if_neg hopen, if_neg hclose, bind_assoc,
            pure_bind]

/-- The operands, one at a time. -/
theorem collect_operandTurn_eq :
    collect (fun (_ : Unit) => operandTurn) () =
      skipCommas >>= fun _ => current >>= fun t =>
        if t.kind ∈ operandTerminators then pure []
        else if t.kind = .valueId then advance >>= fun x =>
          collect (fun (_ : Unit) => operandTurn) () >>= fun inputs =>
            pure (x.valueText :: inputs)
        else if t.kind = .dense then advance >>= fun x => pure [x.valueText]
        else if t.kind.isScalarLiteral then advance >>= fun x => pure [x.text]
        else unexpected "operation operands" := by
  conv => lhs; rw [collect_eq progressive_operandTurn]
  conv => lhs; arg 1; rw [operandTurn]
  rw [bind_assoc]
  congr 1
  funext u
  rw [bind_assoc]
  congr 1
  funext t
  dsimp only
  by_cases hend : t.kind ∈ operandTerminators
  · simp only [if_pos hend, pure_bind]
  · by_cases hvalue : t.kind = .valueId
    · simp only [if_neg hend, if_pos hvalue, bind_assoc, pure_bind]
    · by_cases hdense : t.kind = .dense
      · simp only [if_neg hend, if_neg hvalue, if_pos hdense, bind_assoc, pure_bind]
      · by_cases hscalar : t.kind.isScalarLiteral = true
        · simp only [if_neg hend, if_neg hvalue, if_neg hdense, if_pos hscalar, bind_assoc,
            pure_bind]
        · simp only [if_neg hend, if_neg hvalue, if_neg hdense, if_neg hscalar]
          rfl

end Parse

end GenericIR
