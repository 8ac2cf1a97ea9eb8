/-
# Operations that refuse a location

Behind its name, its callee and open operands an operation takes a value, a comma, a constant or a
token that ends the operands.  A keyword is none of these, so no operation is read where the
keyword of a location stands there, and the module around it is none either.

* `EndsOpen.refuses` : no operation is read where a keyword stands behind open operands;
* `IsFront.exists_isOperation` : behind the front of an operation a module has an operation.
-/
import GenericIR.Proofs.Trailing.Unique

namespace GenericIR

namespace Grammar

open Parse

variable {H : Lexeme → Lexeme → Prop} {fits : Nat → Prop} {xs ys zs ws xs' ys' ws' : List Lexeme}
  {op : Operation}

/-! ## Open operands before a keyword -/

/-- Open operands. -/
theorem OpenRun.suffix (h : OpenRun xs ys) : ys <:+ xs := by
  induction h with
  | here => exact List.suffix_rfl
  | comma _ _ ih => exact suffix_cons_of_suffix ih
  | value _ _ ih => exact suffix_cons_of_suffix ih

/-- Open operands, whatever is behind them. -/
theorem OpenRun.moved (h : OpenRun xs ys) (hm : Moved H xs ys xs' ys') : OpenRun xs' ys' := by
  induction h generalizing xs' with
  | @here xs =>
      cases xs with
      | nil => cases hm
      | cons x xs =>
          obtain ⟨x', zs', rfl, rfl, _⟩ := hm.nothing
          exact .here
  | comma hx h ih =>
      obtain ⟨x', zs', rfl, hxx', hrest⟩ := hm.past h.suffix
      exact .comma (hxx'.kind ▸ hx) (ih hrest.moved)
  | value hx h ih =>
      obtain ⟨x', zs', rfl, hxx', hrest⟩ := hm.past h.suffix
      exact .value (hxx'.kind ▸ hx) (ih hrest.moved)

/-- No operands are read where a keyword stands behind open ones. -/
theorem OpenRun.not_operandRun {y : Lexeme} {inputs : List String} (h : OpenRun xs (y :: ys))
    (hy : y.kind = .keyword) : ¬ OperandRun xs inputs zs := by
  generalize hws : y :: ys = ws at h
  intro hrun
  induction h generalizing inputs with
  | here =>
      subst hws
      cases hrun <;> simp_all [TokenKind.isScalarLiteral]
  | comma hx _ ih => exact ih hws ((operandRun_iff_of_comma hx).mp hrun)
  | value hx _ ih =>
      obtain ⟨_, hrun, _⟩ := (operandRun_iff_of_value hx).mp hrun
      exact ih hws hrun

/-- Nor are operands in parentheses. -/
theorem OpenRun.not_areOperands {y : Lexeme} {inputs : List String} (h : OpenRun xs (y :: ys))
    (hy : y.kind = .keyword) : ¬ AreOperands xs inputs zs := by
  intro hoperands
  cases hoperands with
  | bare _ hrun => exact h.not_operandRun hy hrun
  | enclosed hx _ _ =>
      cases h with
      | here => simp [hx] at hy
      | comma hx' _ => simp [hx] at hx'
      | value hx' _ => simp [hx] at hx'

/-! ## Operations that end open -/

namespace OpenHead

/-- An operation up to open operands, whatever of the tokens behind an operation follows. -/
theorem moved (h : OpenHead xs ys) (hm : Moved Located xs ys xs' ys') : OpenHead xs' ys' := by
  obtain ⟨houtputs, hname, hcallee, hinputs⟩ := h
  have hthree := hinputs.suffix
  have htwo := hthree.trans (hcallee.suffix IsText.suffix)
  obtain ⟨x, zs, rfl, hzs⟩ := hname.exists_cons
  obtain ⟨xs₁', hm₁, hm⟩ := hm.split_before houtputs.suffix (htwo.trans hzs)
  obtain ⟨xs₂', hm₂, hm⟩ := hm.split opensAlike_located.same hname.suffix htwo
  obtain ⟨xs₃', hm₃, hm₄⟩ :=
    hm.split opensAlike_located.same (hcallee.suffix IsText.suffix) hthree
  refine .intro (houtputs.moved hm₁) (hname.moved opensAlike_located.same ?_ hm₂)
    (hcallee.moved opensAlike_located.same (fun h => opensAlike_located.kind h _ (by simp))
      IsText.moved hm₃) (hinputs.moved hm₄)
  rintro _ y y' _ _ _ (hsame | ⟨_, hkeyword⟩) hne
  · exact hsame.kind ▸ hne
  · rw [hkeyword]
    decide

/-- An operation up to open operands is an operation before a token that starts another one. -/
theorem exists_isOperation {y : Lexeme} (h : OpenHead xs (y :: ys))
    (hy : y.kind ∈ [.identifier, .stringLiteral, .rbrace]) :
    ∃ op, IsOperation fits xs op (y :: ys) := by
  obtain ⟨houtputs, hname, hcallee, hinputs⟩ := h
  have hends : y.kind ∈ operandTerminators ∧
      y.kind ∉ [.lparen, .lbrace, .colon, .arrow, .keyword] := by
    simp only [List.mem_cons, List.not_mem_nil, or_false] at hy
    rcases hy with hy | hy | hy <;> rw [hy] <;> decide
  simp only [List.mem_cons, List.not_mem_nil, or_false, not_or] at hends
  obtain ⟨hends, hparen, hbrace, hcolon, harrow, hkeyword⟩ := hends
  obtain ⟨inputs, hoperands⟩ := hinputs.areOperands hends
  obtain ⟨op, hhead⟩ : ∃ op, IsHead fits xs op (y :: ys) := ⟨_, .intro houtputs hname hcallee
    hoperands (.missing hparen) (.intro (.missing hbrace)) (.intro (.missing hcolon))⟩
  have hlocation : Optionally IsLocWord (IsLocation fits) (y :: ys) none (y :: ys) :=
    .missing fun hloc => hkeyword hloc.1
  by_cases hconstant : isConstantName op.name
  · exact ⟨_, .constant hhead hconstant harrow hlocation⟩
  · exact ⟨_, .general hhead (fun h => absurd h hconstant) (.intro (.missing harrow))
      (.missing hbrace) (.intro (.missing hbrace)) hlocation⟩

/-- No operation is read where a keyword stands behind open operands. -/
theorem not_isOperation {y : Lexeme} (h : OpenHead xs (y :: ys)) (hy : y.kind = .keyword)
    (hxs : Readable fits xs) : ¬ IsOperation fits xs op zs := by
  intro hop
  have hhead : ∃ op zs, IsHead fits xs op zs := by
    cases hop with
    | constant hhead _ _ _ => exact ⟨_, _, hhead⟩
    | general hhead _ _ _ _ _ => exact ⟨_, _, hhead⟩
  obtain ⟨_, _, houtputs', hname', hcallee', hoperands, _, _, _⟩ := hhead
  obtain ⟨houtputs, hname, hcallee, hinputs⟩ := h
  -- a parser reads the parts up to the operands in one way
  obtain ⟨hxs₁, hsettled⟩ := settled_of_recognizes recognizes_definitions hxs houtputs
  obtain rfl := hsettled houtputs'
  obtain ⟨hxs₂, hsettled⟩ := settled_of_recognizes recognizes_operationName hxs₁ hname
  obtain rfl := hsettled hname'
  obtain ⟨_, hsettled⟩ := settled_of_recognizes recognizes_callee hxs₂ hcallee
  obtain rfl := hsettled hcallee'
  exact hinputs.not_areOperands hy hoperands

end OpenHead

/-- **An operation that ends open refuses a location.**  No operation is read where a keyword
stands behind it. -/
theorem EndsOpen.refuses {w : Lexeme} (hopen : EndsOpen xs) (hxs : Readable fits xs)
    (h : IsOperation fits xs op ys) (hm : Moved Located xs ys xs' (w :: ys'))
    (hw : w.kind = .keyword) (hxs' : Readable fits xs') {op' : Operation} :
    ¬ IsOperation fits xs' op' zs := by
  obtain ⟨y, ys₁, hhead, hy⟩ := hopen
  -- the operation ends where its open operands end
  obtain ⟨_, h₁⟩ : ∃ op, IsOperation fits xs op (y :: ys₁) := hhead.exists_isOperation hy
  obtain rfl := (settled_of_recognizes recognizes_operation hxs h₁).2 h
  exact (hhead.moved hm).not_isOperation hw hxs'

/-! ## Modules around an operation -/

/-- **Behind the front of an operation a module has an operation.** -/
theorem IsFront.exists_isOperation {front : Front} {g : Graph} (h : IsFront fits xs front ws)
    (hxs : Readable fits xs) (hmodule : IsModule fits xs g) :
    ∃ op zs, IsOperation fits ws op zs := by
  obtain ⟨_, _, _, _, hopening', hall, _, _, _, _⟩ := isModule_iff.mp hmodule
  cases h with
  | ofModule hopening hitems hx hword =>
      obtain ⟨hxs₁, hsettled⟩ := IsOpening.settled hxs hopening
      obtain rfl := hsettled hopening'
      obtain ⟨_, _, hlater⟩ := hitems.rest (settled_of_recognizes recognizes_moduleItem) hxs₁ hall
      cases hlater with
      | done hstop => exact absurd hstop hx
      | more _ hitem _ =>
          cases hitem with
          | function hfunction _ => exact absurd hfunction hword
          | operation _ hop => exact ⟨_, _, hop⟩
  | ofFunction hopening hitems hw hword hsignature ho hfirst hx =>
      obtain ⟨hxs₁, hsettled⟩ := IsOpening.settled hxs hopening
      obtain rfl := hsettled hopening'
      obtain ⟨hvs, _, hlater⟩ :=
        hitems.rest (settled_of_recognizes recognizes_moduleItem) hxs₁ hall
      cases hlater with
      | done hstop => exact absurd hstop hw
      | more _ hitem _ =>
          cases hitem with
          | operation hother _ => exact absurd hword hother
          | function _ hfunction =>
              -- the function is the one in front, and the operation stands in its body
              obtain ⟨_, _, hsignature', hbody, _, _⟩ := isFunction_iff.mp hfunction
              obtain ⟨hus, hsettled⟩ := IsSignature.settled hvs hsignature
              obtain rfl := hsettled hsignature'
              obtain ⟨_, _, _, hinside, _⟩ := hbody.of_starts ho
              obtain ⟨_, _, hlater⟩ := hfirst.rest (settled_of_recognizes recognizes_operation)
                (hus.tail (by rw [ho]; decide)) hinside
              cases hlater with
              | done hstop => exact absurd hstop hx
              | more _ hop _ => exact ⟨_, _, hop⟩

end Grammar

end GenericIR
