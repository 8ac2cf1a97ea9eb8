/-
# Operations that stand in another run

Nothing marks the end of an operation: it goes on for as long as the lookahead starts one of its
parts.  An operation before a closing brace is an operation before another token too, unless it
ends with its name, its callee or its operands and these would take that token.

* `IsOperation.turned` : an operation before another lookahead than a closing brace;
* `IsFunction.moved` : a function, whatever is behind it where it has a body.
-/
import GenericIR.Proofs.Joined.Phrase

namespace GenericIR

namespace Grammar

variable {H : Lexeme → Lexeme → Prop} {fits : Nat → Prop} {xs ys xs' ys' : List Lexeme}

/-! ## What an operation would go on to take -/

/-- Operands up to a closing brace that no parenthesis encloses and no constant ends. -/
inductive OpenOperands : List Lexeme → Prop where
  | done {x : Lexeme} {xs : List Lexeme} (hx : x.kind = .rbrace) : OpenOperands (x :: xs)
  | comma {x : Lexeme} {xs : List Lexeme} (hx : x.kind = .comma) (h : OpenOperands xs) :
      OpenOperands (x :: xs)
  | value {x : Lexeme} {xs : List Lexeme} (hx : x.kind = .valueId) (h : OpenOperands xs) :
      OpenOperands (x :: xs)

/-- An operation before a closing brace that would go on with a token of a kind in place of the
brace: with an identifier behind a name of one identifier, with a value behind a name, a callee or
open operands, and with an opening parenthesis behind a name, a callee or any operands. -/
inductive WouldTake (kind : TokenKind) : List Lexeme → Prop where
  | name {x y : Lexeme} {xs ys : List Lexeme} {outputs : List String}
      (houtputs : AreDefinitions xs outputs (x :: y :: ys)) (hx : x.kind = .identifier)
      (hy : y.kind = .rbrace) (hkind : kind = .identifier) : WouldTake kind xs
  | operand {xs₀ xs₁ xs₂ xs₃ : List Lexeme} {outputs : List String} {name : String}
      {callee : Option String} (houtputs : AreDefinitions xs₀ outputs xs₁)
      (hname : IsName xs₁ name xs₂)
      (hcallee : Optionally (·.kind = .symbolRefId) (IsText .symbolRefId) xs₂ callee xs₃)
      (hinputs : OpenOperands xs₃) (hkind : kind = .valueId) : WouldTake kind xs₀
  | parenthesis {y : Lexeme} {xs₀ xs₁ xs₂ xs₃ ys : List Lexeme} {outputs inputs : List String}
      {name : String} {callee : Option String} (houtputs : AreDefinitions xs₀ outputs xs₁)
      (hname : IsName xs₁ name xs₂)
      (hcallee : Optionally (·.kind = .symbolRefId) (IsText .symbolRefId) xs₂ callee xs₃)
      (hinputs : AreOperands xs₃ inputs (y :: ys)) (hy : y.kind = .rbrace)
      (hkind : kind = .lparen) : WouldTake kind xs₀

/-- Kinds of the tokens that an operation starts with, and of the brace behind the last one. -/
def operationStarts : List TokenKind := [.identifier, .stringLiteral, .valueId, .lparen, .rbrace]

/-- Lookaheads that are the same, or a closing brace and a token of a kind in its place. -/
def Turned (kind : TokenKind) (x x' : Lexeme) : Prop :=
  x.Same x' ∨ x.kind = .rbrace ∧ x'.kind = kind

/-- A token that starts an operation starts no part behind the operands of another one. -/
theorem startsAlike_turned {kind : TokenKind} (hkind : kind ∈ operationStarts) :
    StartsAlike (Turned kind) where
  same h := Or.inl h
  kind := by
    rintro x x' (h | ⟨hx, hx'⟩) k hk
    · rw [h.kind]
    · rw [hx, hx']
      -- neither a closing brace nor such a token is of a kind that starts a part
      simp only [operationStarts, List.mem_cons, List.not_mem_nil, or_false] at hkind hk
      rcases hkind with rfl | rfl | rfl | rfl | rfl <;>
        rcases hk with rfl | rfl | rfl | rfl | rfl | rfl <;> decide
  text := by
    rintro x x' (h | ⟨hx, _⟩) hkeyword
    · exact h
    · rw [hx] at hkeyword
      cases hkeyword

/-! ## Outputs and names -/

/-- A value that an operation defines. -/
theorem IsOutput.moved {output : String} (h : IsOutput xs output ys)
    (hm : Moved Lexeme.Same xs ys xs' ys') : IsOutput xs' output ys' := by
  cases h with
  | single hx hy =>
      obtain ⟨x', rfl, hxx'⟩ := hm.past_one
      obtain ⟨y', zs', rfl, hyy'⟩ := hm.ending id
      rw [hxx'.valueText]
      exact .single (hxx'.kind ▸ hx) (hyy'.kind ▸ hy)
  | group hx hy hn =>
      obtain ⟨x', zs', rfl, hxx', hrest⟩ :=
        hm.past (suffix_cons_of_suffix (List.suffix_cons _ _))
      obtain ⟨y', ws', rfl, hyy', hback⟩ := hrest.past (List.suffix_cons _ _)
      obtain ⟨n', rfl, hnn'⟩ := hback.moved.past_one
      rw [hxx'.valueText, hnn'.valueText]
      exact .group (hxx'.kind ▸ hx) (hyy'.same.kind ▸ hy) (hnn'.kind ▸ hn)

/-- The values that an operation defines. -/
theorem AreOutputs.moved {outputs : List String} (h : AreOutputs xs outputs ys)
    (hm : Moved Lexeme.Same xs ys xs' ys') : AreOutputs xs' outputs ys' := by
  cases h with
  | enclosed h => exact .enclosed (h.moved IsOutput.suffix IsOutput.moved hm)
  | bare hx h =>
      obtain ⟨x', zs', rfl, hxx'⟩ := hm.head id
      exact .bare (hxx'.kind ▸ hx)
        (h.moved opensAlike_same IsOutput.suffix IsOutput.moved hm)
  | none hparen hx =>
      obtain ⟨x', zs', rfl, rfl, hxx'⟩ := hm.nothing
      exact .none (hxx'.kind ▸ hparen) (hxx'.kind ▸ hx)

/-- The values that an operation defines with the equals sign. -/
theorem AreDefinitions.moved {outputs : List String} (h : AreDefinitions xs outputs ys)
    (hm : Moved Lexeme.Same xs ys xs' ys') : AreDefinitions xs' outputs ys' := by
  cases h with
  | none h => exact .none (h.moved hm)
  | some hne h hx =>
      obtain ⟨x', ws', hfront, hxx', hback⟩ := hm.before h.suffix List.suffix_rfl
      obtain rfl := hback.nothing
      exact .some hne (h.moved hfront) (hxx'.kind ▸ hx)

/-- The name of an operation, where the lookahead goes on with no name that it ended. -/
theorem IsName.moved (hH : KeepsSame H) {name : String} (h : IsName xs name ys)
    (hends : ∀ {x y y' : Lexeme} {zs : List Lexeme}, xs = x :: y :: zs → x.kind = .identifier →
      H y y' → y.kind ≠ .identifier → y'.kind ≠ .identifier)
    (hm : Moved H xs ys xs' ys') : IsName xs' name ys' := by
  cases h with
  | quoted hx =>
      obtain ⟨x', rfl, hxx'⟩ := hm.past_one
      rw [hxx'.valueText]
      exact .quoted (hxx'.kind ▸ hx)
  | one hx hy =>
      obtain ⟨x', rfl, hxx'⟩ := hm.past_one
      obtain ⟨y', zs', rfl, hyy'⟩ := hm.ending hH
      rw [hxx'.valueText]
      exact .one (hxx'.kind ▸ hx) (hends rfl hx hyy' hy)
  | two hx hy =>
      obtain ⟨x', zs', rfl, hxx', hrest⟩ := hm.past (List.suffix_cons _ _)
      obtain ⟨y', rfl, hyy'⟩ := hrest.moved.past_one
      rw [hxx'.valueText, hyy'.valueText]
      exact .two (hxx'.kind ▸ hx) (hyy'.kind ▸ hy)

/-! ## Operands -/

/-- Commas and value ids, behind which operands go on. -/
inductive OpenRun : List Lexeme → List Lexeme → Prop where
  | here {xs : List Lexeme} : OpenRun xs xs
  | comma {x : Lexeme} {xs ys : List Lexeme} (hx : x.kind = .comma) (h : OpenRun xs ys) :
      OpenRun (x :: xs) ys
  | value {x : Lexeme} {xs ys : List Lexeme} (hx : x.kind = .valueId) (h : OpenRun xs ys) :
      OpenRun (x :: xs) ys

/-- Operands that are open up to a closing brace. -/
theorem OpenRun.openOperands {y : Lexeme} (h : OpenRun xs (y :: ys)) (hy : y.kind = .rbrace) :
    OpenOperands xs := by
  generalize hzs : y :: ys = zs at h
  induction h with
  | here => exact hzs ▸ .done hy
  | comma hx _ ih => exact .comma hx (ih hzs)
  | value hx _ ih => exact .value hx (ih hzs)

/-- A run of operands, where the lookahead ends open operands that it ended. -/
theorem OperandRun.moved {inputs : List String} (h : OperandRun xs inputs ys)
    (hends : ∀ {y y' : Lexeme} {zs : List Lexeme}, OpenRun xs (y :: zs) → H y y' →
      y.kind ∈ Parse.operandTerminators → y'.kind ∈ Parse.operandTerminators)
    (hm : Moved H xs ys xs' ys') : OperandRun xs' inputs ys' := by
  induction h generalizing xs' with
  | done hx =>
      obtain ⟨x', zs', rfl, rfl, hxx'⟩ := hm.nothing
      exact .done (hends .here hxx' hx)
  | comma hx h ih =>
      obtain ⟨x', zs', rfl, hxx', hrest⟩ := hm.past h.suffix
      exact .comma (hxx'.kind ▸ hx) (ih (fun hopen => hends (.comma hx hopen)) hrest.moved)
  | value hx h ih =>
      obtain ⟨x', zs', rfl, hxx', hrest⟩ := hm.past h.suffix
      rw [hxx'.valueText]
      exact .value (hxx'.kind ▸ hx) (ih (fun hopen => hends (.value hx hopen)) hrest.moved)
  | dense hx =>
      obtain ⟨x', rfl, hxx'⟩ := hm.past_one
      rw [hxx'.valueText]
      exact .dense (hxx'.kind ▸ hx)
  | scalar hx =>
      obtain ⟨x', rfl, hxx'⟩ := hm.past_one
      rw [hxx'.text]
      exact .scalar (hxx'.kind ▸ hx)

/-- No run of operands starts with a parenthesis. -/
theorem OperandRun.kind_ne_lparen {x : Lexeme} {inputs : List String}
    (h : OperandRun (x :: xs) inputs ys) : x.kind ≠ .lparen := by
  intro hparen
  cases h with
  | done hx => simp [hparen] at hx
  | comma hx _ => simp [hparen] at hx
  | value hx _ => simp [hparen] at hx
  | dense hx => simp [hparen] at hx
  | scalar hx => simp [hparen, TokenKind.isScalarLiteral] at hx

/-- A run of operands is not without lexemes. -/
theorem OperandRun.exists_cons {inputs : List String} (h : OperandRun xs inputs ys) :
    ∃ x zs, xs = x :: zs := by
  cases h <;> exact ⟨_, _, rfl⟩

/-- Open operands are operands before a lookahead that ends them. -/
theorem OpenRun.areOperands {y : Lexeme} (h : OpenRun xs (y :: ys))
    (hy : y.kind ∈ Parse.operandTerminators) : ∃ inputs, AreOperands xs inputs (y :: ys) := by
  have hrun : ∃ inputs, OperandRun xs inputs (y :: ys) := by
    generalize hzs : y :: ys = zs at h
    induction h with
    | here => exact ⟨[], hzs ▸ .done hy⟩
    | comma hx _ ih =>
        obtain ⟨inputs, hrun⟩ := ih hzs
        exact ⟨inputs, .comma hx hrun⟩
    | value hx _ ih =>
        obtain ⟨inputs, hrun⟩ := ih hzs
        exact ⟨_, .value hx hrun⟩
  obtain ⟨inputs, hrun⟩ := hrun
  obtain ⟨x, zs, rfl⟩ := hrun.exists_cons
  exact ⟨inputs, .bare hrun.kind_ne_lparen hrun⟩

/-- The operands, in parentheses or bare, where the lookahead ends open operands that it ended. -/
theorem AreOperands.moved {inputs : List String} (h : AreOperands xs inputs ys)
    (hends : ∀ {y y' : Lexeme} {zs : List Lexeme}, OpenRun xs (y :: zs) → H y y' →
      y.kind ∈ Parse.operandTerminators → y'.kind ∈ Parse.operandTerminators)
    (hm : Moved H xs ys xs' ys') : AreOperands xs' inputs ys' := by
  cases h with
  | enclosed hx h hy =>
      obtain ⟨x', zs', rfl, hxx', hrest⟩ := hm.past ((List.suffix_cons _ _).trans h.suffix)
      obtain ⟨y', hinside, hyy'⟩ := hrest.upTo h.suffix
      -- inside the parentheses the lookahead behind the operands is the same
      have hrun := h.moved (H := Lexeme.Same) (fun _ h hy => h.kind ▸ hy) hinside.moved
      exact .enclosed (hxx'.kind ▸ hx) hrun (hyy'.same.kind ▸ hy)
  | bare _ h =>
      have hrun := h.moved hends hm
      obtain ⟨x', zs', rfl⟩ := hrun.exists_cons
      exact .bare hrun.kind_ne_lparen hrun

/-! ## Operations -/

/-- Whether a brace opens a dictionary is settled by the kinds of the two lexemes behind it, and
only by that of the first of them where it is no identifier. -/
theorem opensDictionary_iff {o o' x x' : Lexeme} (hx : x.Same x')
    (hrest : x.kind = .identifier → ∃ y y' zs zs', xs = y :: zs ∧ xs' = y' :: zs' ∧ y.Same y') :
    OpensDictionary (o :: x :: xs) ↔ OpensDictionary (o' :: x' :: xs') := by
  by_cases hkind : x.kind = .identifier
  · obtain ⟨y, y', zs, zs', rfl, rfl, hy⟩ := hrest hkind
    rw [OpensDictionary, OpensDictionary, hx.kind, hy.kind]
  · have hkind' : x'.kind ≠ .identifier := hx.kind ▸ hkind
    refine iff_of_false (fun h => ?_) fun h => ?_
    · cases xs with
      | nil => exact h
      | cons y zs => exact hkind h.1
    · cases xs' with
      | nil => exact h
      | cons y zs => exact hkind' h.1

/-- A block in braces goes past the lexeme behind its brace, and past the next one where that
lexeme is an identifier. -/
theorem IsBlock.looks {o : Lexeme} {block : List (String × AttributeValue) × Option String}
    (h : IsBlock fits (o :: xs) block ys) (ho : o.kind = .lbrace) : ∃ x zs, xs = x :: zs ∧
      ys <:+ zs ∧ (x.kind = .identifier → ∃ y ws, zs = y :: ws ∧ ys <:+ ws) := by
  -- a bracket behind the brace is no identifier
  have hother : ∀ {x : Lexeme} {k : TokenKind} {R : Prop}, x.kind = k → k ≠ .identifier →
      x.kind = .identifier → R := fun hx hk hword => absurd (hx ▸ hword) hk
  cases h with
  | missing hx => exact absurd ho hx
  | dictionary _ _ h =>
      cases h with
      | intro _ h _ =>
          cases h with
          | done hx =>
              exact ⟨_, _, rfl, List.suffix_rfl, hother (List.mem_singleton.mp hx) (by decide)⟩
          | more _ h hrest =>
              have hentries := hrest.suffix IsSeparatedEntry.suffix
              cases h with
              | intro h hcommas =>
                  have hleft := hentries.trans hcommas.suffix
                  have hbehind := (List.suffix_cons _ _).trans hleft
                  cases h with
                  | unit _ _ =>
                      refine ⟨_, _, rfl, hbehind, fun _ => ⟨_, _, rfl, ?_⟩⟩
                      -- the closing brace is left too, so what is behind it is no more than this
                      rcases List.suffix_cons_iff.mp hleft with heq | hleft
                      · exact (List.cons.inj heq).2 ▸ List.suffix_rfl
                      · exact (List.suffix_cons _ _).trans hleft
                  | valued _ _ h =>
                      have hvalue := hbehind.trans (h.append_eq ▸ List.suffix_append _ _)
                      exact ⟨_, _, rfl, suffix_cons_of_suffix hvalue, fun _ => ⟨_, _, rfl, hvalue⟩⟩
  | body _ _ h =>
      obtain ⟨h⟩ := h
      cases h with
      | intro _ h =>
          cases h with
          | last hx => exact ⟨_, _, rfl, List.suffix_rfl, hother hx (by decide)⟩
          | opened hx _ h =>
              exact ⟨_, _, rfl, h.append_eq ▸ List.suffix_append _ _, hother hx (by decide)⟩
          | inner _ _ _ h =>
              refine ⟨_, _, rfl, h.append_eq ▸ List.suffix_append _ _, fun _ => ?_⟩
              cases h with
              | last _ => exact ⟨_, _, rfl, List.suffix_rfl⟩
              | opened _ _ h => exact ⟨_, _, rfl, h.append_eq ▸ List.suffix_append _ _⟩
              | inner _ _ _ h => exact ⟨_, _, rfl, h.append_eq ▸ List.suffix_append _ _⟩

/-- A block after the signature. -/
theorem IsBlock.moved (hH : OpensAlike H)
    {block : List (String × AttributeValue) × Option String} (h : IsBlock fits xs block ys)
    (hm : Moved H xs ys xs' ys') : IsBlock fits xs' block ys' := by
  have hopens : ∀ {o : Lexeme} {ws : List Lexeme}, xs = o :: ws → o.kind = .lbrace →
      ∃ o' ws', xs' = o' :: ws' ∧ o.Same o' ∧ (OpensDictionary xs ↔ OpensDictionary xs') := by
    rintro o ws rfl ho
    obtain ⟨x, zs, rfl, hzs, hword⟩ := h.looks ho
    obtain ⟨o', _, rfl, hoo', hrest⟩ := hm.past (suffix_cons_of_suffix hzs)
    obtain ⟨x', zs', rfl, hxx', hback⟩ := hrest.past hzs
    refine ⟨o', _, rfl, hoo', opensDictionary_iff hxx'.same fun hx => ?_⟩
    obtain ⟨y, ws, rfl, hws⟩ := hword hx
    obtain ⟨y', ws', rfl, hyy', _⟩ := hback.past hws
    exact ⟨y, y', ws, ws', rfl, rfl, hyy'.same⟩
  cases h with
  | dictionary hx hd h =>
      obtain ⟨o', ws', rfl, hoo', hiff⟩ := hopens rfl hx
      exact .dictionary (hoo'.kind ▸ hx) (hiff.mp hd) (h.moved hm)
  | body hx hd h =>
      obtain ⟨o', ws', rfl, hoo', hiff⟩ := hopens rfl hx
      exact .body (hoo'.kind ▸ hx) (fun hd' => hd (hiff.mpr hd')) (h.moved hm)
  | missing hx =>
      obtain ⟨x', zs', rfl, rfl, hxx'⟩ := hm.nothing
      exact .missing fun hx' => hx ((hH.kind hxx' _ (by simp)).mpr hx')

/-- An operation up to a lookahead of its name or its operands that goes on with a token of a kind
in place of the lookahead, or has no place for it. -/
inductive GoesOn (kind : TokenKind) : List Lexeme → Lexeme → Prop where
  | name {x y : Lexeme} {xs ys : List Lexeme} {outputs : List String}
      (houtputs : AreDefinitions xs outputs (x :: y :: ys)) (hx : x.kind = .identifier)
      (hkind : kind = .identifier) : GoesOn kind xs y
  | operand {y : Lexeme} {xs₀ xs₁ xs₂ xs₃ ys : List Lexeme} {outputs : List String}
      {name : String} {callee : Option String} (houtputs : AreDefinitions xs₀ outputs xs₁)
      (hname : IsName xs₁ name xs₂)
      (hcallee : Optionally (·.kind = .symbolRefId) (IsText .symbolRefId) xs₂ callee xs₃)
      (hinputs : OpenRun xs₃ (y :: ys)) (hy : y.kind ∈ Parse.operandTerminators)
      (hkind : kind ∉ Parse.operandTerminators) : GoesOn kind xs₀ y
  | parenthesis {y : Lexeme} {xs₀ xs₁ xs₂ xs₃ ys : List Lexeme} {outputs inputs : List String}
      {name : String} {callee : Option String} (houtputs : AreDefinitions xs₀ outputs xs₁)
      (hname : IsName xs₁ name xs₂)
      (hcallee : Optionally (·.kind = .symbolRefId) (IsText .symbolRefId) xs₂ callee xs₃)
      (hinputs : AreOperands xs₃ inputs (y :: ys)) (hkind : kind = .lparen) : GoesOn kind xs₀ y

/-- Lookaheads that are the same, or the second one of which an operation does not go on with. -/
def EndsAlike (H : Lexeme → Lexeme → Prop) (xs : List Lexeme) : Prop :=
  ∀ {y y' : Lexeme}, H y y' → y.kind = y'.kind ∨ ¬ GoesOn y'.kind xs y

/-- A region group that may be missing, where the lookahead opens none that it did not open. -/
theorem moved_regions {regions : Option String}
    (h : Optionally (·.kind = .lparen) (IsCaptured fits .lparen .rparen) xs regions ys)
    (hends : ∀ {y y' : Lexeme} {zs : List Lexeme}, xs = y :: zs → H y y' → y.kind ≠ .lparen →
      y'.kind ≠ .lparen)
    (hm : Moved H xs ys xs' ys') :
    Optionally (·.kind = .lparen) (IsCaptured fits .lparen .rparen) xs' regions ys' := by
  cases h with
  | present hx h =>
      obtain ⟨x', zs', rfl, hxx', _⟩ := hm.past h.suffix_tail
      exact .present (hxx'.kind ▸ hx) (h.moved hm)
  | missing hx =>
      obtain ⟨x', zs', rfl, rfl, hxx'⟩ := hm.nothing
      exact .missing (hends rfl hxx' hx)

/-- The head of an operation, where it ends alike before both lookaheads. -/
theorem IsHead.moved (hH : OpensAlike H) {op : Operation} (h : IsHead fits xs op ys)
    (hends : EndsAlike H xs) (hm : Moved H xs ys xs' ys') : IsHead fits xs' op ys' := by
  cases h with
  | intro houtputs hname hcallee hinputs hregions hentries htypes =>
      -- what is left behind the parts from the name on
      have hfive := htypes.suffix.trans hentries.suffix
      have hfour := hfive.trans (hregions.suffix IsCaptured.suffix)
      have hthree := hfour.trans hinputs.suffix
      have htwo := hthree.trans (hcallee.suffix IsText.suffix)
      obtain ⟨w, ws, rfl, hws⟩ := hname.exists_cons
      obtain ⟨xs₁', hm₁, hm⟩ := hm.split_before houtputs.suffix (htwo.trans hws)
      obtain ⟨xs₂', hm₂, hm⟩ := hm.split hH.same hname.suffix htwo
      obtain ⟨xs₃', hm₃, hm⟩ := hm.split hH.same (hcallee.suffix IsText.suffix) hthree
      obtain ⟨xs₄', hm₄, hm⟩ := hm.split hH.same hinputs.suffix hfour
      obtain ⟨xs₅', hm₅, hm⟩ := hm.split hH.same (hregions.suffix IsCaptured.suffix) hfive
      obtain ⟨xs₆', hm₆, hm₇⟩ := hm.split hH.same hentries.suffix htypes.suffix
      refine .intro (houtputs.moved hm₁) (hname.moved hH.same ?_ hm₂)
        (hcallee.moved hH.same (fun hxx' => hH.kind hxx' _ (by simp)) IsText.moved hm₃)
        (hinputs.moved ?_ hm₄) (moved_regions hregions ?_ hm₅) (hentries.moved hH hm₆)
        (htypes.moved hH (Or.inl rfl) hm₇)
      · intro x y y' zs heq hx hyy' hy hy'
        rcases hends hyy' with hkind | hfree
        · exact hy (hkind.trans hy')
        · exact hfree (.name (heq ▸ houtputs) hx hy')
      · intro y y' zs hopen hyy' hy
        rcases hends hyy' with hkind | hfree
        · exact hkind ▸ hy
        · by_contra hy'
          exact hfree (.operand houtputs hname hcallee hopen hy hy')
      · rintro y y' zs rfl hyy' hy hy'
        rcases hends hyy' with hkind | hfree
        · exact hy (hkind.trans hy')
        · exact hfree (.parenthesis houtputs hname hcallee hinputs hy')

/-- **An operation before another lookahead.**  Where it ends alike before both lookaheads, its
location aside, it is the same operation with whatever location stands there. -/
theorem IsOperation.relocated (hH : OpensAlike H) {op : Operation} (h : IsOperation fits xs op ys)
    (hends : EndsAlike H xs) : ∃ ws, ws <:+ xs ∧
      Optionally IsLocWord (IsLocation fits) ws op.location ys ∧
      ∀ {xs' ws' ys' : List Lexeme} {location : Option String}, Moved H xs ws xs' ws' →
        Optionally IsLocWord (IsLocation fits) ws' location ys' →
        IsOperation fits xs' { op with location := location } ys' := by
  cases h with
  | constant hhead hname hx hlocation =>
      refine ⟨_, hhead.suffix, hlocation, fun hm hlocation' => ?_⟩
      obtain ⟨x', zs', rfl, hxx'⟩ := hm.ending hH.same
      have hmoved := IsOperation.constant (hhead.moved hH hends hm) hname
        (fun hx' => hx ((hH.kind hxx' _ (by simp)).mpr hx')) hlocation'
      exact hmoved
  | general hhead hname htypes hblock hlate hlocation =>
      -- what is left behind the parts from the types on
      have hthree := hlate.suffix.trans hblock.suffix
      refine ⟨_, (hthree.trans htypes.suffix).trans hhead.suffix, hlocation,
        fun hm hlocation' => ?_⟩
      obtain ⟨ws', hm₁, hm⟩ := hm.split hH.same hhead.suffix (hthree.trans htypes.suffix)
      obtain ⟨xs₂', hm₂, hm⟩ := hm.split hH.same htypes.suffix hthree
      obtain ⟨xs₃', hm₃, hm₄⟩ := hm.split hH.same hblock.suffix hlate.suffix
      obtain ⟨x', zs', rfl, hxx'⟩ := hm₁.ending hH.same
      have hmoved := IsOperation.general (hhead.moved hH hends hm₁)
        (fun hconstant => (hH.kind hxx' _ (by simp)).mp (hname hconstant))
        (htypes.moved hH (Or.inr rfl) hm₂) (hblock.moved hH hm₃) (hlate.moved hH hm₄) hlocation'
      exact hmoved

variable {kind : TokenKind}

/-- An operation that would not take a token of a kind ends alike before it and a closing brace. -/
theorem endsAlike_turned (hkind : kind ∈ operationStarts) (hfree : ¬ WouldTake kind xs) :
    EndsAlike (Turned kind) xs := by
  rintro y y' (hsame | ⟨hbrace, hkind'⟩)
  · exact Or.inl hsame.kind
  refine Or.inr fun hgoes => hfree ?_
  subst hkind'
  cases hgoes with
  | name houtputs hx hidentifier => exact .name houtputs hx hbrace hidentifier
  | operand houtputs hname hcallee hopen hends hother =>
      have hcases : y'.kind = .valueId ∨ y'.kind = .lparen := by
        simp only [operationStarts, List.mem_cons, List.not_mem_nil, or_false] at hkind
        rcases hkind with h | h | h | h | h <;> rw [h] at hother ⊢ <;>
          simp [Parse.operandTerminators] at hother ⊢
      rcases hcases with hvalue | hparen
      · exact .operand houtputs hname hcallee (hopen.openOperands hbrace) hvalue
      · obtain ⟨inputs, hoperands⟩ := hopen.areOperands hends
        exact .parenthesis houtputs hname hcallee hoperands hbrace hparen
  | parenthesis houtputs hname hcallee hinputs hparen =>
      exact .parenthesis houtputs hname hcallee hinputs hbrace hparen

/-- **An operation before another lookahead than a closing brace.**  It is the same operation,
unless it ends with its name, its callee or its operands and these would take that lookahead. -/
theorem IsOperation.turned {op : Operation} (hkind : kind ∈ operationStarts)
    (h : IsOperation fits xs op ys) (hfree : ¬ WouldTake kind xs)
    (hm : Moved (Turned kind) xs ys xs' ys') : IsOperation fits xs' op ys' := by
  have hH := startsAlike_turned hkind
  obtain ⟨ws, hws, hlocation, hmoved⟩ :=
    h.relocated hH.opensAlike (endsAlike_turned hkind hfree)
  obtain ⟨ws', hfront, hback⟩ := hm.split hH.same hws (hlocation.suffix IsLocation.suffix)
  exact hmoved hfront (moved_location hH hlocation hback)

/-- No operation would take a closing brace. -/
theorem not_wouldTake_rbrace (xs : List Lexeme) : ¬ WouldTake .rbrace xs := by
  intro h
  cases h with
  | name _ _ _ hkind => cases hkind
  | operand _ _ _ _ hkind => cases hkind
  | parenthesis _ _ _ _ _ hkind => cases hkind

/-- An operation before the same lookahead. -/
theorem IsOperation.moved {op : Operation} (h : IsOperation fits xs op ys)
    (hm : Moved Lexeme.Same xs ys xs' ys') : IsOperation fits xs' op ys' :=
  h.turned (by simp [operationStarts]) (not_wouldTake_rbrace xs) (hm.mono Or.inl)

/-! ## Operations in front of further ones -/

/-- Operations before a closing brace the last of which would go on with a token of a kind in place
of the brace. -/
def WouldGoOn (fits : Nat → Prop) (kind : TokenKind) (xs : List Lexeme) : Prop :=
  ∃ operations ws, Successive (IsOperation fits) xs operations ws ∧ WouldTake kind ws

/-- No operations would go on with a closing brace. -/
theorem not_wouldGoOn_rbrace (xs : List Lexeme) : ¬ WouldGoOn fits .rbrace xs :=
  fun ⟨_, ws, _, h⟩ => not_wouldTake_rbrace ws h

/-- The outputs of an operation start with the first of them, if there are any. -/
theorem AreOutputs.kind_mem {x : Lexeme} {outputs : List String}
    (h : AreOutputs (x :: xs) outputs ys) :
    outputs = [] ∧ ys = x :: xs ∨ x.kind ∈ operationStarts := by
  cases h with
  | enclosed h => cases h with | intro hx _ _ => exact Or.inr (by simp [operationStarts, hx])
  | bare hx _ => exact Or.inr (by simp [operationStarts, hx])
  | none _ _ => exact Or.inl ⟨rfl, rfl⟩

/-- An operation starts with its outputs or its name. -/
theorem IsOperation.kind_mem {x : Lexeme} {op : Operation} (h : IsOperation fits (x :: xs) op ys) :
    x.kind ∈ operationStarts := by
  have hhead : ∀ {op : Operation} {ys : List Lexeme}, IsHead fits (x :: xs) op ys →
      x.kind ∈ operationStarts := by
    rintro op ys ⟨hdefinitions, hname, _, _, _, _, _⟩
    cases hdefinitions with
    | none h =>
        rcases h.kind_mem with ⟨_, rfl⟩ | hx
        · cases hname <;> simp [operationStarts, *]
        · exact hx
    | some hne h _ => exact h.kind_mem.resolve_left fun hnone => hne hnone.1
  cases h with
  | constant h _ _ _ => exact hhead h
  | general h _ _ _ _ _ => exact hhead h

/-- Operations start with the first of them, if there are any. -/
theorem Until.kind_mem {stops : List TokenKind} {x : Lexeme} {operations : List Operation}
    (h : Until stops (IsOperation fits) (x :: xs) operations ys) (hys : ys ≠ x :: xs) :
    x.kind ∈ operationStarts := by
  cases h with
  | done _ => exact absurd rfl hys
  | more _ h _ => exact h.kind_mem

/-- Operations before a closing brace are the same operations in front of further ones, unless
the last of them would go on with the first token of these. -/
theorem Until.append_operations {stops : List TokenKind} {operations more : List Operation}
    {zs : List Lexeme} (h : Until stops (IsOperation fits) xs operations ys)
    (hkind : kind ∈ operationStarts) (hfree : ¬ WouldGoOn fits kind xs)
    (hm : Moved (Turned kind) xs ys xs' ys') (hmore : Until stops (IsOperation fits) ys' more zs) :
    Until stops (IsOperation fits) xs' (operations ++ more) zs := by
  refine h.append_moved IsOperation.suffix_tail IsOperation.suffix IsOperation.moved ?_ hm hmore
  intro front op ws ws' _ hreach hop hmoved
  exact hop.turned hkind (fun htake => hfree ⟨front, ws, hreach, htake⟩) hmoved

/-! ## Functions -/

/-- A parameter. -/
theorem IsParameter.moved {param : Parameter} (h : IsParameter fits xs param ys)
    (hm : Moved Lexeme.Same xs ys xs' ys') : IsParameter fits xs' param ys' := by
  cases h with
  | intro hx hy htype hentries hlocation =>
      have hdictionary := (hlocation.suffix IsLocation.suffix).trans hentries.suffix
      have hbehind := hdictionary.trans htype.suffix
      obtain ⟨x', zs', rfl, hxx', hrest⟩ := hm.past (suffix_cons_of_suffix hbehind)
      obtain ⟨y', ws', rfl, hyy', hback⟩ := hrest.past hbehind
      obtain ⟨xs₁', hm₁, hm⟩ := hback.moved.split id htype.suffix hdictionary
      obtain ⟨xs₂', hm₂, hm₃⟩ := hm.split id hentries.suffix (hlocation.suffix IsLocation.suffix)
      rw [hxx'.valueText]
      exact .intro (hxx'.kind ▸ hx) (hyy'.same.kind ▸ hy) (htype.moved hm₁)
        (hentries.moved opensAlike_same hm₂) (moved_location startsAlike_same hlocation hm₃)

/-- A result. -/
theorem IsResult.moved {result : FunctionResult} (h : IsResult fits xs result ys)
    (hm : Moved Lexeme.Same xs ys xs' ys') : IsResult fits xs' result ys' := by
  cases h with
  | intro htype hentries =>
      obtain ⟨ws', hfront, hback⟩ := hm.split id htype.suffix hentries.suffix
      exact .intro (htype.moved hfront) (hentries.moved opensAlike_same hback)

/-- The results. -/
theorem AreResults.moved {results : List FunctionResult} (h : AreResults fits xs results ys)
    (hm : Moved Lexeme.Same xs ys xs' ys') : AreResults fits xs' results ys' := by
  cases h with
  | enclosed h => exact .enclosed (h.moved IsResult.suffix IsResult.moved hm)
  | bare hx h =>
      obtain ⟨x', zs', rfl, hxx'⟩ := hm.head id
      exact .bare (hxx'.kind ▸ hx) (h.moved hm)

/-- Lexemes that are the same are both a visibility, or neither is. -/
theorem isVisibility_iff {x x' : Lexeme} (h : x.Same x') : IsVisibility x ↔ IsVisibility x' := by
  have htext : ∀ text, x.token.hasText text = x'.token.hasText text := fun text => by
    rw [Token.hasText, Token.hasText, h.value]
  rw [IsVisibility, IsVisibility, h.kind]
  simp only [htext]

/-- A body, whatever is behind it. -/
theorem IsBody.moved {operations : List Operation} (h : IsBody fits xs operations ys)
    (hm : Moved H xs ys xs' ys') : IsBody fits xs' operations ys' := by
  cases h with
  | intro hx h hy =>
      have hoperations := h.suffix IsOperation.suffix
      obtain ⟨x', zs', rfl, hxx', hrest⟩ := hm.past ((List.suffix_cons _ _).trans hoperations)
      obtain ⟨y', hinside, hyy'⟩ := hrest.upTo hoperations
      exact .intro (hxx'.kind ▸ hx)
        (h.moved IsOperation.suffix IsOperation.moved hinside.moved) (hyy'.same.kind ▸ hy)

/-- A function up to its body, whatever its body. -/
inductive IsSignature (fits : Nat → Prop) : Phrase Function where
  | intro {x y : Lexeme} {xs xs₁ xs₂ xs₃ xs₄ ys : List Lexeme} {visibility : Option String}
      {parameters : List Parameter} {early late : List (String × AttributeValue)}
      {results : Option (List FunctionResult)} {operations : List Operation} {hasBody : Bool}
      (hx : x.kind = .keyword)
      (hvisibility : Optionally IsVisibility (IsText .identifier) xs visibility (y :: xs₁))
      (hy : y.kind = .symbolRefId)
      (hparameters : Enclosed (IsParameter fits) xs₁ parameters xs₂)
      (hearly : MayHaveClause fits xs₂ early xs₃)
      (hresults : Optionally (·.kind = .arrow) (After .arrow (AreResults fits)) xs₃ results xs₄)
      (hlate : MayHaveClause fits xs₄ late ys) :
      IsSignature fits (x :: xs)
        ⟨dropSigil y.valueText, visibility, parameters, results.getD [],
          Attributes.empty.insertAll (early ++ late), operations, hasBody⟩ ys

/-- A function is its signature and its body, if it has one. -/
theorem isFunction_iff {f : Function} : IsFunction fits xs f ys ↔
    ∃ ws body, IsSignature fits xs f ws ∧ Optionally (·.kind = .lbrace) (IsBody fits) ws body ys ∧
      f.operations = body.getD [] ∧ f.hasBody = body.isSome := by
  constructor
  · rintro ⟨hx, hvisibility, hy, hparameters, hearly, hresults, hlate, hbody⟩
    exact ⟨_, _, .intro hx hvisibility hy hparameters hearly hresults hlate, hbody, rfl, rfl⟩
  · rintro ⟨ws, body, hsignature, hbody, hoperations, hhas⟩
    obtain ⟨hx, hvisibility, hy, hparameters, hearly, hresults, hlate⟩ := hsignature
    dsimp only at hoperations hhas
    rw [hoperations, hhas]
    exact .intro hx hvisibility hy hparameters hearly hresults hlate hbody

namespace IsSignature

variable {f : Function}

/-- A signature is that of functions with other bodies too. -/
theorem withBody (h : IsSignature fits xs f ys) (operations : List Operation) (hasBody : Bool) :
    IsSignature fits xs { f with operations := operations, hasBody := hasBody } ys := by
  obtain ⟨hx, hvisibility, hy, hparameters, hearly, hresults, hlate⟩ := h
  exact .intro hx hvisibility hy hparameters hearly hresults hlate

/-- A signature goes past its keyword. -/
theorem suffix_tail {x : Lexeme} (h : IsSignature fits (x :: xs) f ys) : ys <:+ xs := by
  obtain ⟨_, hvisibility, _, hparameters, hearly, hresults, hlate⟩ := h
  have hname := (List.suffix_cons _ _).trans (hvisibility.suffix IsText.suffix)
  have hsignature := (hparameters.suffix IsParameter.suffix).trans hname
  have hresult := (hresults.suffix fun h => h.suffix AreResults.suffix).trans
    (hearly.suffix.trans hsignature)
  exact hlate.suffix.trans hresult

/-- A signature. -/
theorem suffix (h : IsSignature fits xs f ys) : ys <:+ xs := by
  cases xs with
  | nil => cases h
  | cons x xs => exact suffix_cons_of_suffix h.suffix_tail

/-- A signature before the same lookahead. -/
theorem moved (h : IsSignature fits xs f ys) (hm : Moved Lexeme.Same xs ys xs' ys') :
    IsSignature fits xs' f ys' := by
  obtain ⟨x, zs, rfl⟩ : ∃ x zs, xs = x :: zs := by
    cases h
    exact ⟨_, _, rfl⟩
  have hword := h.suffix_tail
  obtain ⟨hx, hvisibility, hy, hparameters, hearly, hresults, hlate⟩ := h
  -- what is left of the signature behind its parts
  have hresult := hlate.suffix.trans (hresults.suffix fun h => h.suffix AreResults.suffix)
  have hearlier := hresult.trans hearly.suffix
  have hsignature := hearlier.trans (hparameters.suffix IsParameter.suffix)
  obtain ⟨x', zs', rfl, hxx', hrest⟩ := hm.past hword
  obtain ⟨y', ws', hm₁, hyy', hback⟩ :=
    hrest.before (hvisibility.suffix IsText.suffix) hsignature
  obtain ⟨xs₂', hm₂, hm⟩ := hback.moved.split id (hparameters.suffix IsParameter.suffix) hearlier
  obtain ⟨xs₃', hm₃, hm⟩ := hm.split id hearly.suffix hresult
  obtain ⟨xs₄', hm₄, hm₅⟩ :=
    hm.split id (hresults.suffix fun h => h.suffix AreResults.suffix) hlate.suffix
  rw [hyy'.same.valueText]
  refine .intro (hxx'.kind ▸ hx) (hvisibility.moved id isVisibility_iff IsText.moved hm₁.moved)
    (hyy'.same.kind ▸ hy) (hparameters.moved IsParameter.suffix IsParameter.moved hm₂)
    (hearly.moved hm₃) (hresults.moved id (fun h => by rw [h.kind]) (fun h hm => ?_) hm₄)
    (hlate.moved hm₅)
  exact h.moved AreResults.suffix AreResults.moved hm

end IsSignature

/-- **A function that stands in another run.**  Where it has a body, it is the same function
whatever is behind it. -/
theorem IsFunction.moved {f : Function} (h : IsFunction fits xs f ys)
    (hH : f.hasBody = false → ∀ {x x' : Lexeme}, H x x' → x.Same x')
    (hm : Moved H xs ys xs' ys') : IsFunction fits xs' f ys' := by
  obtain ⟨ws, body, hsignature, hbody, hoperations, hhas⟩ := isFunction_iff.mp h
  -- the lookahead behind the signature is the same, be it a body or what follows
  cases hbody with
  | present ho hbody =>
      obtain ⟨ws', hfront, hback⟩ := hm.split_before hsignature.suffix hbody.suffix_tail
      obtain ⟨o', zs', rfl, hoo', _⟩ := hback.past hbody.suffix_tail
      exact isFunction_iff.mpr ⟨_, _, hsignature.moved hfront,
        .present (hoo'.kind ▸ ho) (hbody.moved hback), hoperations, hhas⟩
  | missing ho =>
      have hsame := hm.mono (hH hhas)
      obtain ⟨o', zs', rfl, hoo'⟩ := hsame.ending id
      exact isFunction_iff.mpr
        ⟨_, _, hsignature.moved hsame, .missing (hoo'.kind ▸ ho), hoperations, hhas⟩

/-- Lexemes that are the same both start a function, or neither does. -/
theorem startsFunction_iff {x x' : Lexeme} (h : x.Same x') :
    x.token.startsFunction ↔ x'.token.startsFunction := by
  have hkind : x.token.kind = x'.token.kind := h.kind
  rw [Token.startsFunction, Token.startsFunction, hkind, h.value]

/-- An item of a module. -/
theorem IsItem.moved {item : ModuleItem} (h : IsItem fits xs item ys)
    (hm : Moved Lexeme.Same xs ys xs' ys') : IsItem fits xs' item ys' := by
  cases h with
  | function hx h =>
      obtain ⟨x', zs', rfl, hxx'⟩ := hm.head id
      exact .function ((startsFunction_iff hxx').mp hx) (h.moved (fun _ => id) hm)
  | operation hx h =>
      obtain ⟨x', zs', rfl, hxx'⟩ := hm.head id
      exact .operation (fun hx' => hx ((startsFunction_iff hxx').mpr hx')) (h.moved hm)

end Grammar

end GenericIR
