/-
# Operations

Every part of an operation agrees with its phrase, and so does the operation that is made of
them.

* `Parse.recognizes_operandRun` : operands with any commas between them;
* `Parse.recognizes_operation` : operations.
-/
import GenericIR.Proofs.Recognition.Attribute

namespace GenericIR.Parse

section Productions

variable {fits : Nat → Prop}

/-! ## Parts of operations -/

/-- A value that an operation defines. -/
theorem recognizes_returnValue : Recognizes fits returnValue Grammar.IsOutput := by
  intro n p xs hp
  obtain ⟨x, xs, rfl⟩ := hp.exists_cons
  refine .consume hp (by decide) (fun hx a ys h => ?_) fun hx q _ hat => ?_
  · cases h with
    | single hkind _ => exact hx hkind
    | group hkind _ _ => exact hx hkind
  · obtain ⟨y, ys, rfl⟩ := hat.exists_cons
    refine .accept hat (by decide) (fun hy r _ hat' => ?_) fun hy => ?_
    · obtain ⟨z, zs, rfl⟩ := hat'.exists_cons
      refine .consume hat' (by decide) (fun hz a ws h => ?_) fun hz _ _ h =>
        .pure h fun a ws => ⟨fun h => ?_, ?_⟩
      · cases h with
        | single _ hne => exact hne hy
        | group _ _ hkind => exact hz hkind
      · cases h with
        | single _ hne => exact absurd hy hne
        | group _ _ _ => exact ⟨rfl, rfl⟩
      · rintro ⟨rfl, rfl⟩
        exact .group hx hy hz
    · refine .pure hat fun a zs => ⟨fun h => ?_, ?_⟩
      · cases h with
        | single _ _ => exact ⟨rfl, rfl⟩
        | group _ heq _ => exact absurd heq hy
      · rintro ⟨rfl, rfl⟩
        exact .single hx hy

/-- The values that an operation defines. -/
theorem recognizes_returnValues : Recognizes fits returnValues Grammar.AreOutputs := by
  intro n p xs hp
  obtain ⟨x, xs, rfl⟩ := hp.exists_cons
  refine .accept hp (by decide) (fun hx q _ hat => ?_) fun hx => .sees hp (fun hvalue => ?_)
    fun hvalue => ?_
  · refine .congr (recognizes_enclosed recognizes_returnValue composed_returnValue hx hat)
      fun outputs ys => ⟨fun h => ?_, .enclosed⟩
    cases h with
    | enclosed h => exact h
    | bare hkind _ => rw [hx] at hkind; cases hkind
    | none hne _ => exact absurd hx hne
  · refine .congr (recognizes_openItems recognizes_returnValue composed_returnValue hp)
      fun outputs ys => ⟨fun h => ?_, .bare hvalue⟩
    cases h with
    | enclosed h =>
        cases h with
        | intro hparen _ _ => exact absurd hparen hx
    | bare _ h => exact h
    | none _ hne => exact absurd hvalue hne
  · refine .pure hp fun outputs ys => ⟨fun h => ?_, ?_⟩
    · cases h with
      | enclosed h =>
          cases h with
          | intro hparen _ _ => exact absurd hparen hx
      | bare hkind _ => exact absurd hkind hvalue
      | none _ _ => exact ⟨rfl, rfl⟩
    · rintro ⟨rfl, rfl⟩
      exact .none hx hvalue

/-- The values that an operation defines, with their equals sign. -/
theorem recognizes_definitions : Recognizes fits definitions Grammar.AreDefinitions := by
  intro n p xs hp
  let T (outputs : List String) (ys : List Lexeme) (r : List String) (zs : List Lexeme) : Prop :=
    r = outputs ∧ (outputs = [] ∧ zs = ys ∨
      outputs ≠ [] ∧ ∃ x, ys = x :: zs ∧ x.kind = .equal)
  refine .congr (.bind (T := T) (recognizes_returnValues hp) fun outputs q ys _ _ hat => ?_)
    fun r zs => ⟨fun h => ?_, ?_⟩
  · by_cases hnil : outputs = []
    · rw [if_pos hnil]
      refine .pure hat fun r zs => ⟨?_, ?_⟩
      · rintro ⟨rfl, ⟨_, rfl⟩ | ⟨hne, _⟩⟩
        · exact ⟨hnil, rfl⟩
        · exact absurd hnil hne
      · rintro ⟨rfl, rfl⟩
        exact ⟨hnil.symm, Or.inl ⟨hnil, rfl⟩⟩
    · rw [if_neg hnil]
      obtain ⟨y, ys, rfl⟩ := hat.exists_cons
      refine .consume hat (by decide) (fun hy r zs => ?_) fun hy _ _ h =>
        .pure h fun r zs => ⟨?_, ?_⟩
      · rintro ⟨_, ⟨heq, _⟩ | ⟨_, _, hys, hkind⟩⟩
        · exact hnil heq
        · cases hys
          exact hy hkind
      · rintro ⟨rfl, ⟨heq, _⟩ | ⟨_, _, hys, _⟩⟩
        · exact absurd heq hnil
        · cases hys
          exact ⟨rfl, rfl⟩
      · rintro ⟨rfl, rfl⟩
        exact ⟨rfl, Or.inr ⟨hnil, y, rfl, hy⟩⟩
  · cases h with
    | none h => exact ⟨_, _, h, rfl, Or.inl ⟨rfl, rfl⟩⟩
    | some hne h hx => exact ⟨_, _, h, rfl, Or.inr ⟨hne, _, rfl, hx⟩⟩
  · rintro ⟨outputs, ys, h, rfl, ⟨rfl, rfl⟩ | ⟨hne, x, rfl, hx⟩⟩
    · exact .none h
    · exact .some hne h hx

/-- The name of an operation. -/
theorem recognizes_operationName : Recognizes fits operationName Grammar.IsName := by
  intro n p xs hp
  obtain ⟨x, xs, rfl⟩ := hp.exists_cons
  refine .look hp ?_
  by_cases hquoted : x.kind = .stringLiteral
  · rw [if_pos hquoted]
    refine .past hp (by rw [hquoted]; decide) fun q _ hat => .pure hat fun a ys =>
      ⟨fun h => ?_, ?_⟩
    · cases h with
      | quoted _ => exact ⟨rfl, rfl⟩
      | one hx _ => rw [hquoted] at hx; cases hx
      | two hx _ => rw [hquoted] at hx; cases hx
    · rintro ⟨rfl, rfl⟩
      exact .quoted hquoted
  · rw [if_neg hquoted]
    by_cases hx : x.kind = .identifier
    · rw [if_pos hx]
      refine .past hp (by rw [hx]; decide) fun q _ hat => ?_
      obtain ⟨y, ys, rfl⟩ := hat.exists_cons
      refine .sees hat (fun hy => ?_) fun hy => ?_
      · refine .past hat (by rw [hy]; decide) fun _ _ h => .pure h fun a zs =>
          ⟨fun h => ?_, ?_⟩
        · cases h with
          | quoted hkind => exact absurd hkind hquoted
          | one _ hne => exact absurd hy hne
          | two _ _ => exact ⟨rfl, rfl⟩
        · rintro ⟨rfl, rfl⟩
          exact .two hx hy
      · refine .pure hat fun a zs => ⟨fun h => ?_, ?_⟩
        · cases h with
          | quoted hkind => exact absurd hkind hquoted
          | one _ _ => exact ⟨rfl, rfl⟩
          | two _ hkind => exact absurd hkind hy
        · rintro ⟨rfl, rfl⟩
          exact .one hx hy
    · rw [if_neg hx]
      refine .unexpected fun a ys h => ?_
      cases h with
      | quoted hkind => exact hquoted hkind
      | one hkind _ => exact hx hkind
      | two hkind _ => exact hx hkind

/-- The text of one lexeme, where the lookahead is of its kind. -/
theorem Outcome.text {α : Type} {n : Nat} {p : Parser} {x : Lexeme} {xs : List Lexeme}
    {k : TokenKind} (f : String → α) (hp : p.At fits n (x :: xs)) (hk : k ≠ .eof)
    (hx : x.kind = k) : Outcome fits n (advance >>= fun x => Pure.pure (f x.valueText)) p
      fun r ys => ∃ a, Grammar.IsText k (x :: xs) a ys ∧ r = f a := by
  refine .past hp (hx ▸ hk) fun _ _ h => .pure h fun r ys => ⟨?_, ?_⟩
  · rintro ⟨_, ⟨_⟩, rfl⟩
    exact ⟨rfl, rfl⟩
  · rintro ⟨rfl, rfl⟩
    exact ⟨_, .intro hx, rfl⟩

/-- The symbol before the operands, if there is one. -/
theorem recognizes_callee : Recognizes fits callee
    (Grammar.Optionally (·.kind = .symbolRefId) (Grammar.IsText .symbolRefId)) := by
  intro n p xs hp
  obtain ⟨x, xs, rfl⟩ := hp.exists_cons
  refine .optionally hp (fun hx => .sees hp (fun _ => ?_) fun hne => absurd hx hne) fun hx => ?_
  · exact .text some hp (by decide) hx
  · rw [callee, sees_bind_apply, hp.kind_eq, decide_eq_false hx]
    rfl

/-- No comma is left in front after any number of commas. -/
theorem kind_ne_of_commas {xs ys : List Lexeme} {y : Lexeme}
    (h : Grammar.Commas xs (y :: ys)) : y.kind ≠ .comma := by
  generalize hzs : y :: ys = zs at h
  induction h with
  | done hx =>
      cases hzs
      exact hx
  | more _ _ ih => exact ih hzs

/-- The operands are those behind all commas. -/
theorem operandRun_iff {xs zs : List Lexeme} {inputs : List String} :
    Grammar.OperandRun xs inputs zs ↔
      ∃ ys, Grammar.Commas xs ys ∧ Grammar.OperandRun ys inputs zs := by
  constructor
  · intro h
    induction h with
    | done hx => exact ⟨_, .done fun hcomma => by simp [hcomma] at hx, .done hx⟩
    | comma hx _ ih =>
        obtain ⟨ys, hcommas, h⟩ := ih
        exact ⟨ys, .more hx hcommas, h⟩
    | value hx h _ => exact ⟨_, .done fun hcomma => by simp [hx] at hcomma, .value hx h⟩
    | dense hx => exact ⟨_, .done fun hcomma => by simp [hx] at hcomma, .dense hx⟩
    | scalar hx =>
        exact ⟨_, .done fun hcomma => by simp [hcomma, TokenKind.isScalarLiteral] at hx,
          .scalar hx⟩
  · rintro ⟨ys, hcommas, h⟩
    induction hcommas with
    | done _ => exact h
    | more hx _ ih => exact .comma hx (ih h)

/-- The operands, from behind their opening bracket if there is one. -/
theorem recognizes_operandRun :
    Recognizes fits (collect (fun (_ : Unit) => operandTurn) ()) Grammar.OperandRun := by
  intro n p xs hp
  induction hk : p.left using Nat.strongRecOn generalizing p xs with
  | ind k ih =>
    subst hk
    rw [collect_operandTurn_eq]
    refine .congr (.bind (T := fun _ ys => Grammar.OperandRun ys) (recognizes_skipCommas hp)
      fun _ q ys hq hcommas hat => ?_) fun inputs zs => ⟨fun h => ?_, ?_⟩
    · obtain ⟨y, ys, rfl⟩ := hat.exists_cons
      have hcomma := kind_ne_of_commas hcommas
      have hle := composed_skipCommas.left_le hq
      refine .look hat ?_
      by_cases hend : y.kind ∈ operandTerminators
      · rw [if_pos hend]
        exact .pure hat fun _ _ => Grammar.operandRun_iff_of_done hend
      rw [if_neg hend]
      by_cases hvalue : y.kind = .valueId
      · rw [if_pos hvalue]
        refine .past hat (by rw [hvalue]; decide) fun r hlt hat' => ?_
        exact .congr (.map (y.valueText :: ·) (ih r.left (Nat.lt_of_lt_of_le hlt hle) hat' rfl))
          fun _ _ => Grammar.operandRun_iff_of_value hvalue
      rw [if_neg hvalue]
      by_cases hdense : y.kind = .dense
      · rw [if_pos hdense]
        exact .past hat (by rw [hdense]; decide) fun _ _ h =>
          .pure h fun _ _ => Grammar.operandRun_iff_of_dense hdense
      rw [if_neg hdense]
      by_cases hscalar : y.kind.isScalarLiteral = true
      · rw [if_pos hscalar]
        exact .past hat (fun heof => by rw [heof] at hscalar; cases hscalar) fun _ _ h =>
          .pure h fun _ _ => Grammar.operandRun_iff_of_scalar hscalar
      · rw [if_neg hscalar]
        exact .unexpected fun _ _ =>
          Grammar.not_operandRun_of_other hend hcomma hvalue hdense hscalar
    · obtain ⟨ys, hcommas, h⟩ := operandRun_iff.mp h
      exact ⟨(), ys, hcommas, h⟩
    · rintro ⟨_, ys, hcommas, h⟩
      exact operandRun_iff.mpr ⟨ys, hcommas, h⟩

/-- The operands. -/
theorem recognizes_operands : Recognizes fits operands Grammar.AreOperands := by
  intro n p xs hp
  obtain ⟨x, xs, rfl⟩ := hp.exists_cons
  refine .accept hp (by decide) (fun hx q _ hat => ?_) fun hx => ?_
  · refine .congr (.bind (recognizes_operandRun hat) fun inputs _ _ _ _ hat' =>
      .closing hat' (by decide)) fun inputs zs => ⟨fun h => ?_, ?_⟩
    · cases h with
      | enclosed _ h hy => exact ⟨_, _, h, _, rfl, hy, rfl⟩
      | bare hne _ => exact absurd hx hne
    · rintro ⟨_, _, h, y, rfl, hy, rfl⟩
      exact .enclosed hx h hy
  · refine .congr (.map _ (recognizes_operandRun hp)) fun inputs zs => ⟨fun h => ?_, ?_⟩
    · cases h with
      | enclosed hparen _ _ => exact absurd hparen hx
      | bare _ h => exact ⟨_, h, rfl⟩
    · rintro ⟨_, h, rfl⟩
      exact .bare hx h

/-! ## Operations -/

/-- The text of a region group, if there is one. -/
theorem recognizes_regionGroup : Recognizes fits regionGroup
    (Grammar.Optionally (·.kind = .lparen) (Grammar.IsCaptured fits .lparen .rparen)) := by
  intro n p xs hp
  obtain ⟨x, xs, rfl⟩ := hp.exists_cons
  refine .optionally hp (fun hx => .sees hp (fun _ => ?_) fun hne => absurd hx hne) fun hx => ?_
  · exact .map some (recognizes_capture "region group" (by decide) (by decide) (by decide) hp)
  · rw [regionGroup, sees_bind_apply, hp.kind_eq, decide_eq_false hx]
    rfl

/-- The types behind a mark, which may be missing with them. -/
theorem recognizes_typesAfter {k : TokenKind} (hk : k ≠ .eof) :
    Recognizes fits (typesAfter k) (Grammar.MayHaveTypes k) := by
  intro n p xs hp
  obtain ⟨x, xs, rfl⟩ := hp.exists_cons
  have htypes : Outcome fits n (typesAfter k) p fun types ys => ∃ r,
      Grammar.Optionally (·.kind = k) (Grammar.After k Grammar.IsTypeList) (x :: xs) r ys ∧
        types = r.getD [] := by
    refine .optionallyMap (·.getD []) hp (fun hx => .accept hp hk (fun _ q _ hat => ?_)
      fun hne => absurd hx hne) fun hx => ?_
    · refine .congr (recognizes_typeList hat) fun types ys => ⟨?_, fun h => ⟨_, .intro hx h, rfl⟩⟩
      rintro ⟨_, ⟨_, h⟩, rfl⟩
      exact h
    · rw [typesAfter, accept_bind, sees_bind_apply, hp.kind_eq, decide_eq_false hx]
      rfl
  refine .congr htypes fun types ys => ⟨?_, ?_⟩
  · rintro ⟨h⟩
    exact ⟨_, h, rfl⟩
  · rintro ⟨_, h, rfl⟩
    exact .intro h

/-- A block in braces after the signature. -/
theorem recognizes_block (into : Attributes) : Recognizes fits (block into) fun xs r ys =>
    ∃ entries body, Grammar.IsBlock fits xs (entries, body) ys ∧
      r = (into.insertAll entries, body) := by
  intro n p xs hp
  obtain ⟨x, xs, rfl⟩ := hp.exists_cons
  refine .sees hp (fun hx => .peek hp hx (fun hopens => ?_) fun hopens => ?_) fun hx => ?_
  · refine .congr (.map _ (recognizes_attributes into hp)) fun r ys => ⟨?_, ?_⟩
    · rintro ⟨entries, body, h, rfl⟩
      cases h with
      | dictionary _ _ h => exact ⟨_, ⟨entries, h, rfl⟩, rfl⟩
      | body _ hne _ => exact absurd hopens hne
      | missing hne => exact absurd hx hne
    · rintro ⟨_, ⟨entries, h, rfl⟩, rfl⟩
      exact ⟨entries, none, .dictionary hx hopens h, rfl⟩
  · refine .congr (.map _ (recognizes_capture "operation body" (by decide) (by decide) (by decide)
      hp)) fun r ys => ⟨?_, ?_⟩
    · rintro ⟨entries, body, h, rfl⟩
      cases h with
      | dictionary _ hopen _ => exact absurd hopen hopens
      | body _ _ h => exact ⟨_, h, rfl⟩
      | missing hne => exact absurd hx hne
    · rintro ⟨text, h, rfl⟩
      exact ⟨[], some text, .body hx hopens h, rfl⟩
  · refine .pure hp fun r ys => ⟨?_, ?_⟩
    · rintro ⟨entries, body, h, rfl⟩
      cases h with
      | dictionary hkind _ _ => exact absurd hkind hx
      | body hkind _ _ => exact absurd hkind hx
      | missing _ => exact ⟨rfl, rfl⟩
    · rintro ⟨rfl, rfl⟩
      exact ⟨[], none, .missing hx, rfl⟩

/-- An operation up to the types of its operands. -/
theorem recognizes_operationHead : Recognizes fits operationHead (Grammar.IsHead fits) := by
  intro n p xs hp
  refine .congr (.bind (recognizes_definitions hp) fun outputs _ _ _ _ h₁ =>
    .bind (recognizes_operationName h₁) fun name _ _ _ _ h₂ =>
    .bind (recognizes_callee h₂) fun callee _ _ _ _ h₃ =>
    .bind (recognizes_operands h₃) fun inputs _ _ _ _ h₄ =>
    .bind (recognizes_regionGroup h₄) fun regions _ _ _ _ h₅ =>
    .bind (recognizes_optionalAttributes .empty h₅) fun attributes _ _ _ _ h₆ =>
    .bind (recognizes_typesAfter (by decide) h₆) fun types _ _ _ _ h₇ =>
    .pure h₇ fun _ _ => Iff.rfl) fun op ys => ⟨?_, ?_⟩
  · rintro ⟨houtputs, hname, hcallee, hinputs, hregions, hentries, htypes⟩
    exact ⟨_, _, houtputs, _, _, hname, _, _, hcallee, _, _, hinputs, _, _, hregions, _, _,
      ⟨_, hentries, rfl⟩, _, _, htypes, rfl, rfl⟩
  · rintro ⟨_, _, houtputs, _, _, hname, _, _, hcallee, _, _, hinputs, _, _, hregions, _, _,
      ⟨_, hentries, rfl⟩, _, _, htypes, rfl, rfl⟩
    exact .intro houtputs hname hcallee hinputs hregions hentries htypes

/-- Setting two runs of entries is setting all of them in order. -/
theorem insertAll_append (as : Attributes) (front back : List (String × AttributeValue)) :
    as.insertAll (front ++ back) = (as.insertAll front).insertAll back := by
  rw [Attributes.insertAll, List.foldl_append]
  rfl

/-- What follows the head of a constant. -/
theorem recognizes_constantTail (op : Operation) :
    Recognizes fits (constantTail op) fun xs r ys => ∃ location,
      Grammar.Optionally Grammar.IsLocWord (Grammar.IsLocation fits) xs location ys ∧
      r = { op with inputTypes := [], location := location, isConstant := true } := by
  intro n p xs hp
  exact .map _ (recognizes_location hp)

/-- What follows the head of any other operation. -/
theorem recognizes_operationTail (op : Operation) :
    Recognizes fits (operationTail op) fun xs r ys =>
      ∃ types xs₁ entries body xs₂ late xs₃ location,
        Grammar.MayHaveTypes .arrow xs types xs₁ ∧
        Grammar.IsBlock fits xs₁ (entries, body) xs₂ ∧
        Grammar.MayHaveDictionary fits xs₂ late xs₃ ∧
        Grammar.Optionally Grammar.IsLocWord (Grammar.IsLocation fits) xs₃ location ys ∧
        r = { op with
          outputTypes := types, attributes := op.attributes.insertAll (entries ++ late),
          body := body, location := location } := by
  intro n p xs hp
  refine .congr (.bind (recognizes_typesAfter (by decide) hp) fun types _ _ _ _ h₁ =>
    .bind (recognizes_block op.attributes h₁) fun block _ _ _ _ h₂ =>
    .bind (recognizes_optionalAttributes block.1 h₂) fun late _ _ _ _ h₃ =>
    .bind (recognizes_location h₃) fun location _ _ _ _ h₄ =>
    .pure h₄ fun _ _ => Iff.rfl) fun r ys => ⟨?_, ?_⟩
  · rintro ⟨types, xs₁, entries, body, xs₂, late, xs₃, location, htypes, hblock, hlate, hloc, rfl⟩
    refine ⟨types, xs₁, htypes, _, xs₂, ⟨entries, body, hblock, rfl⟩, _, xs₃, ⟨late, hlate, rfl⟩,
      location, ys, hloc, ?_, rfl⟩
    rw [insertAll_append]
  · rintro ⟨types, xs₁, htypes, _, xs₂, ⟨entries, body, hblock, rfl⟩, _, xs₃, ⟨late, hlate, rfl⟩,
      location, _, hloc, rfl, rfl⟩
    refine ⟨types, xs₁, entries, body, xs₂, late, xs₃, location, htypes, hblock, hlate, hloc, ?_⟩
    rw [insertAll_append]

/-- An operation. -/
theorem recognizes_operation : Recognizes fits operation (Grammar.IsOperation fits) := by
  intro n p xs hp
  let T (op : Operation) (ys : List Lexeme) (r : Operation) (zs : List Lexeme) : Prop :=
    ∃ x rest, ys = x :: rest ∧
      ((isConstantName op.name ∧ x.kind ≠ .arrow ∧ ∃ location,
          Grammar.Optionally Grammar.IsLocWord (Grammar.IsLocation fits) ys location zs ∧
          r = { op with inputTypes := [], location := location, isConstant := true }) ∨
        (isConstantName op.name → x.kind = .arrow) ∧
          ∃ types xs₁ entries body xs₂ late xs₃ location,
            Grammar.MayHaveTypes .arrow ys types xs₁ ∧
            Grammar.IsBlock fits xs₁ (entries, body) xs₂ ∧
            Grammar.MayHaveDictionary fits xs₂ late xs₃ ∧
            Grammar.Optionally Grammar.IsLocWord (Grammar.IsLocation fits) xs₃ location zs ∧
            r = { op with
              outputTypes := types, attributes := op.attributes.insertAll (entries ++ late),
              body := body, location := location })
  refine .congr (.bind (T := T) (recognizes_operationHead hp) fun op q ys _ _ hat => ?_)
    fun r zs => ⟨fun h => ?_, ?_⟩
  · obtain ⟨x, ys, rfl⟩ := hat.exists_cons
    have hgeneral : (isConstantName op.name → x.kind = .arrow) →
        Outcome fits n (operationTail op) q (T op (x :: ys)) := by
      intro hname
      refine .congr (recognizes_operationTail op hat) fun r zs => ⟨?_, fun h => ?_⟩
      · rintro ⟨_, _, hys, ⟨hconstant, hne, _⟩ | ⟨_, h⟩⟩
        · cases hys
          exact absurd (hname hconstant) hne
        · exact h
      · exact ⟨x, ys, rfl, Or.inr ⟨hname, h⟩⟩
    refine .sees hat (fun harrow => ?_) fun harrow => ?_
    · rw [Bool.not_true, Bool.and_false, if_neg Bool.false_ne_true]
      exact hgeneral fun _ => harrow
    · rw [Bool.not_false, Bool.and_true]
      by_cases hname : isConstantName op.name = true
      · rw [if_pos hname]
        refine .congr (recognizes_constantTail op hat) fun r zs => ⟨?_, fun h => ?_⟩
        · rintro ⟨_, _, hys, ⟨_, _, h⟩ | ⟨hconstant, _⟩⟩
          · exact h
          · cases hys
            exact absurd (hconstant hname) harrow
        · exact ⟨x, ys, rfl, Or.inl ⟨hname, harrow, h⟩⟩
      · rw [if_neg hname]
        exact hgeneral fun h => absurd h hname
  · cases h with
    | constant hhead hname hx hlocation =>
        exact ⟨_, _, hhead, _, _, rfl, Or.inl ⟨hname, hx, _, hlocation, rfl⟩⟩
    | general hhead hname htypes hblock hlate hlocation =>
        exact ⟨_, _, hhead, _, _, rfl, Or.inr ⟨hname, _, _, _, _, _, _, _, _, htypes, hblock,
          hlate, hlocation, rfl⟩⟩
  · rintro ⟨op, _, hhead, x, rest, rfl, ⟨hname, hx, _, hlocation, rfl⟩ |
      ⟨hname, _, _, _, _, _, _, _, _, htypes, hblock, hlate, hlocation, rfl⟩⟩
    · exact .constant hhead hname hx hlocation
    · exact .general hhead hname htypes hblock hlate hlocation

end Productions

end GenericIR.Parse
