/-
# Operations with a location put behind them

Nothing but the kind of the lookahead ends an operation, and `loc` is the lookahead of a location.
An operation that has none is the same operation with the location that is put behind it, unless
it ends with its name, its callee or open operands: behind these the keyword is neither an operand
nor the end of the operands.

* `OpenHead`, `EndsOpen` : operations that end in this way;
* `IsOperation.located` : any other operation takes a location behind it.
-/
import GenericIR.Proofs.Joined.Operation
import GenericIR.Proofs.Lookahead

namespace GenericIR

namespace Grammar

variable {fits : Nat → Prop} {xs ys zs xs' ys' : List Lexeme}

/-! ## Operations that end open -/

/-- An operation up to what is behind its open operands: no parenthesis encloses these, and no
constant ends them.  There may be none of them, and then its name or its callee comes last. -/
inductive OpenHead : List Lexeme → List Lexeme → Prop where
  | intro {xs₀ xs₁ xs₂ xs₃ ys : List Lexeme} {outputs : List String} {name : String}
      {callee : Option String} (houtputs : AreDefinitions xs₀ outputs xs₁)
      (hname : IsName xs₁ name xs₂)
      (hcallee : Optionally (·.kind = .symbolRefId) (IsText .symbolRefId) xs₂ callee xs₃)
      (hinputs : OpenRun xs₃ ys) : OpenHead xs₀ ys

/-- Operations that end with their name, their callee or open operands: a token that starts a
further operation or closes a body is the lookahead. -/
def EndsOpen (xs : List Lexeme) : Prop :=
  ∃ y ys, OpenHead xs (y :: ys) ∧ y.kind ∈ [.identifier, .stringLiteral, .rbrace]

/-- With a parenthesis behind its name an operation does not end open. -/
theorem not_endsOpen_of_lparen {x y : Lexeme} (hx : x.kind = .identifier) (hy : y.kind = .lparen) :
    ¬ EndsOpen (x :: y :: xs) := by
  rintro ⟨z, zs, ⟨houtputs, hname, hcallee, hinputs⟩, hz⟩
  have hnothing : ∀ {outputs : List String} {ys : List Lexeme},
      AreOutputs (x :: y :: xs) outputs ys → outputs = [] ∧ ys = x :: y :: xs := by
    intro outputs ys h
    cases h with
    | enclosed h =>
        cases h with
        | intro hparen _ _ => rw [hx] at hparen; cases hparen
    | bare hvalue _ => rw [hx] at hvalue; cases hvalue
    | none _ _ => exact ⟨rfl, rfl⟩
  cases houtputs with
  | some hne h _ => exact hne (hnothing h).1
  | none h =>
      obtain rfl := (hnothing h).2
      cases hname with
      | quoted hquoted => rw [hx] at hquoted; cases hquoted
      | two _ hsecond => rw [hy] at hsecond; cases hsecond
      | one _ _ =>
          obtain ⟨_, rfl⟩ := hcallee.of_not (by rw [hy]; decide)
          cases hinputs with
          | here => rw [hy] at hz; exact absurd hz (by decide)
          | comma hcomma _ => rw [hy] at hcomma; cases hcomma
          | value hvalue _ => rw [hy] at hvalue; cases hvalue

/-- Kinds of the tokens behind an operation: those that start a further item, and the closing
brace. -/
def itemStarts : List TokenKind := .keyword :: operationStarts

/-- Lookaheads that are the same, or a keyword in place of a token behind an operation. -/
def Located (x x' : Lexeme) : Prop := x.Same x' ∨ x.kind ∈ itemStarts ∧ x'.kind = .keyword

/-- A keyword in place of a token behind an operation starts no part of the operation but a
location. -/
theorem opensAlike_located : OpensAlike Located where
  same h := Or.inl h
  kind := by
    rintro x x' (h | ⟨hx, hx'⟩) k hk
    · rw [h.kind]
    · -- neither the token nor the keyword is of a kind that starts a part
      have hne : k ∉ itemStarts := by
        simp only [List.mem_cons, List.not_mem_nil, or_false] at hk
        rcases hk with rfl | rfl | rfl | rfl | rfl <;> decide
      refine iff_of_false (fun heq => hne (heq ▸ hx)) fun heq => hne ?_
      rw [← heq, hx']
      exact List.mem_cons_self

/-- An operation that does not end open ends alike before a keyword. -/
theorem endsAlike_located (hfree : ¬ EndsOpen xs) : EndsAlike Located xs := by
  rintro y y' (hsame | ⟨hy, hy'⟩)
  · exact Or.inl hsame.kind
  refine Or.inr fun hgoes => hfree ?_
  rw [hy'] at hgoes
  cases hgoes with
  | name _ _ hkind => cases hkind
  | operand houtputs hname hcallee hopen hends _ =>
      refine ⟨_, _, .intro houtputs hname hcallee hopen, ?_⟩
      simp only [Parse.operandTerminators, itemStarts, operationStarts, List.mem_cons,
        List.not_mem_nil, or_false] at hends hy ⊢
      rcases hy with h | h | h | h | h | h <;> rw [h] at hends ⊢ <;> simp at hends ⊢
  | parenthesis _ _ _ _ hkind => cases hkind

/-- **An operation takes the location behind it.**  Where it has none and does not end open, a
location in front of its lookahead is its location. -/
theorem IsOperation.located {op : Operation} (h : IsOperation fits xs op ys)
    (hnone : op.location = none) (hfree : ¬ EndsOpen xs) (hm : Moved Located xs ys xs' ys')
    {text : String} (hlocation : IsLocation fits ys' text zs) :
    IsOperation fits xs' { op with location := some text } zs := by
  obtain ⟨ws, _, hmissing, hmoved⟩ := h.relocated opensAlike_located (endsAlike_located hfree)
  rw [hnone] at hmissing
  cases hmissing with
  | missing _ =>
      cases hlocation with
      | intro hx hcapture => exact hmoved hm (.present hx (.intro hx hcapture))

end Grammar

end GenericIR
