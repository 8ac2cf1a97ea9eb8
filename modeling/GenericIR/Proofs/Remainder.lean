/-
# What a phrase leaves

A phrase takes lexemes from the front of a run, so what it leaves is the end of that run.  One
lemma for each way of putting phrases together, and one for each production.

* `Grammar.IsOperation.suffix`, `Grammar.IsFunction.suffix` : the two large productions;
* `Grammar.CaptureRun.append_eq` : a capture takes the very lexemes that it gives.
-/
import GenericIR.Proofs.Derivation

namespace GenericIR

namespace Grammar

variable {α : Type} {xs ys : List Lexeme}

/-- A phrase that leaves the end of the run it takes lexemes from. -/
abbrev LeavesSuffix (part : Phrase α) : Prop := ∀ {xs : List Lexeme} {a : α} {ys : List Lexeme},
  part xs a ys → ys <:+ xs

/-- The end of a run is the end of a longer one. -/
theorem suffix_cons_of_suffix {x : Lexeme} (h : ys <:+ xs) : ys <:+ x :: xs :=
  h.trans (List.suffix_cons x xs)

/-! ## Parts and lists -/

/-- A part that may be missing. -/
theorem Optionally.suffix {starts : Lexeme → Prop} {part : Phrase α} {a : Option α}
    (hpart : LeavesSuffix part) (h : Optionally starts part xs a ys) : ys <:+ xs := by
  cases h with
  | present _ h => exact hpart h
  | missing _ => exact List.suffix_rfl

/-- A part behind a lexeme. -/
theorem After.suffix {kind : TokenKind} {part : Phrase α} {a : α} (hpart : LeavesSuffix part)
    (h : After kind part xs a ys) : ys <:+ xs := by
  cases h with
  | intro _ h => exact suffix_cons_of_suffix (hpart h)

/-- Items up to some kinds of lookahead. -/
theorem Until.suffix {stops : List TokenKind} {item : Phrase α} {as : List α}
    (hitem : LeavesSuffix item) (h : Until stops item xs as ys) : ys <:+ xs := by
  induction h with
  | done _ => exact List.suffix_rfl
  | more _ h _ ih => exact ih.trans (hitem h)

/-- Items up to a closing bracket. -/
theorem Closed.suffix {close : TokenKind} {item : Phrase α} {as : List α}
    (hitem : LeavesSuffix item) (h : Closed close item xs as ys) : ys <:+ xs := by
  induction h with
  | empty _ => exact List.suffix_rfl
  | last _ h _ => exact hitem h
  | more _ h _ _ ih => exact (suffix_cons_of_suffix ih).trans (hitem h)

/-- There are no items before the closing bracket. -/
theorem Closed.of_close {close : TokenKind} {item : Phrase α} {as : List α} {x : Lexeme}
    (h : Closed close item (x :: xs) as ys) (hx : x.kind = close) : as = [] ∧ ys = x :: xs := by
  cases h with
  | empty _ => exact ⟨rfl, rfl⟩
  | last hne _ _ => exact absurd hx hne
  | more hne _ _ _ => exact absurd hx hne

/-- Items in parentheses. -/
theorem Enclosed.suffix {item : Phrase α} {as : List α} (hitem : LeavesSuffix item)
    (h : Enclosed item xs as ys) : ys <:+ xs := by
  cases h with
  | intro _ h _ =>
      exact suffix_cons_of_suffix ((List.suffix_cons _ _).trans (h.suffix hitem))

/-- Items behind commas. -/
theorem Further.suffix {item : Phrase α} {as : List α} (hitem : LeavesSuffix item)
    (h : Further item xs as ys) : ys <:+ xs := by
  induction h with
  | done _ => exact List.suffix_rfl
  | more _ h _ ih => exact suffix_cons_of_suffix (ih.trans (hitem h))

/-- At least one item. -/
theorem Bare.suffix {item : Phrase α} {as : List α} (hitem : LeavesSuffix item)
    (h : Bare item xs as ys) : ys <:+ xs := by
  cases h with
  | intro h hrest => exact (hrest.suffix hitem).trans (hitem h)

/-- Commas. -/
theorem Commas.suffix (h : Commas xs ys) : ys <:+ xs := by
  induction h with
  | done _ => exact List.suffix_rfl
  | more _ _ ih => exact suffix_cons_of_suffix ih

/-! ## Items of a list -/

/-- A phrase with a value that starts somewhere in a run. -/
def ReadWithin (part : Phrase α) (xs : List Lexeme) (a : α) : Prop :=
  ∃ ws zs, ws <:+ xs ∧ part ws a zs

namespace ReadWithin

variable {part : Phrase α} {a : α}

/-- A phrase at the start of a run. -/
theorem of_part (h : part xs a ys) : ReadWithin part xs a := ⟨xs, ys, List.suffix_rfl, h⟩

/-- A phrase in the end of a run. -/
theorem of_suffix (h : ReadWithin part ys a) (hys : ys <:+ xs) : ReadWithin part xs a := by
  obtain ⟨ws, zs, hws, hread⟩ := h
  exact ⟨ws, zs, hws.trans hys, hread⟩

end ReadWithin

section Items

variable {item : Phrase α} {as : List α} (hitem : LeavesSuffix item)
include hitem

/-- Items up to some kinds of lookahead. -/
theorem Until.readWithin {stops : List TokenKind} (h : Until stops item xs as ys) :
    ∀ a ∈ as, ReadWithin item xs a := by
  induction h with
  | done _ => exact nofun
  | more _ h _ ih =>
      exact List.forall_mem_cons.mpr ⟨.of_part h, fun a ha => (ih a ha).of_suffix (hitem h)⟩

/-- Items up to a closing bracket. -/
theorem Closed.readWithin {close : TokenKind} (h : Closed close item xs as ys) :
    ∀ a ∈ as, ReadWithin item xs a := by
  induction h with
  | empty _ => exact nofun
  | last _ h _ => exact List.forall_mem_singleton.mpr (.of_part h)
  | more _ h _ _ ih =>
      have hbehind := (List.suffix_cons _ _).trans (hitem h)
      exact List.forall_mem_cons.mpr ⟨.of_part h, fun a ha => (ih a ha).of_suffix hbehind⟩

/-- Items in parentheses. -/
theorem Enclosed.readWithin (h : Enclosed item xs as ys) : ∀ a ∈ as, ReadWithin item xs a := by
  cases h with
  | intro _ h _ => exact fun a ha => (h.readWithin hitem a ha).of_suffix (List.suffix_cons _ _)

/-- Items behind commas. -/
theorem Further.readWithin (h : Further item xs as ys) : ∀ a ∈ as, ReadWithin item xs a := by
  induction h with
  | done _ => exact nofun
  | more _ h _ ih =>
      refine List.forall_mem_cons.mpr
        ⟨(ReadWithin.of_part h).of_suffix (List.suffix_cons _ _), fun a ha => ?_⟩
      exact (ih a ha).of_suffix (suffix_cons_of_suffix (hitem h))

/-- At least one item. -/
theorem Bare.readWithin (h : Bare item xs as ys) : ∀ a ∈ as, ReadWithin item xs a := by
  cases h with
  | intro h hrest =>
      exact List.forall_mem_cons.mpr
        ⟨.of_part h, fun a ha => (hrest.readWithin hitem a ha).of_suffix (hitem h)⟩

end Items

/-! ## Types -/

/-- A type. -/
theorem IsType.suffix {type : String} (h : IsType xs type ys) : ys <:+ xs := by
  cases h with
  | plain _ => exact List.suffix_cons _ _
  | dialect _ _ _ _ => exact suffix_cons_of_suffix (List.suffix_cons _ _)

/-- A type goes past the lookahead. -/
theorem IsType.suffix_tail {x : Lexeme} {type : String} (h : IsType (x :: xs) type ys) :
    ys <:+ xs := by
  cases h with
  | plain _ => exact List.suffix_rfl
  | dialect _ _ _ _ => exact List.suffix_cons _ _

/-- A list of types. -/
theorem IsTypeList.suffix {types : List String} (h : IsTypeList xs types ys) : ys <:+ xs := by
  cases h with
  | enclosed h => exact h.suffix IsType.suffix
  | bare _ h => exact h.suffix IsType.suffix

/-- Types behind a mark. -/
theorem MayHaveTypes.suffix {kind : TokenKind} {types : List String}
    (h : MayHaveTypes kind xs types ys) : ys <:+ xs := by
  cases h with
  | intro h => exact h.suffix fun h => h.suffix IsTypeList.suffix

/-- The text of one lexeme. -/
theorem IsText.suffix {kind : TokenKind} {text : String} (h : IsText kind xs text ys) :
    ys <:+ xs := by
  cases h with
  | intro _ => exact List.suffix_cons _ _

/-! ## Attributes -/

section Brackets

variable {fits : Nat → Prop} {opening closing : TokenKind} {depth : Nat} {run : List Lexeme}

/-- An attribute value takes the very lexemes that it gives. -/
theorem ValueRun.append_eq (h : ValueRun fits depth xs run ys) : run ++ ys = xs := by
  induction h with
  | stop _ => rfl
  | opening _ _ _ ih => rw [List.cons_append, ih]
  | closing _ _ ih => rw [List.cons_append, ih]
  | inner _ _ _ _ _ ih => rw [List.cons_append, ih]

/-- An entry of a dictionary. -/
theorem IsEntry.suffix {entry : String × AttributeValue} (h : IsEntry fits xs entry ys) :
    ys <:+ xs := by
  cases h with
  | unit _ _ => exact List.suffix_cons _ _
  | valued _ _ h =>
      rw [← h.append_eq]
      exact suffix_cons_of_suffix (suffix_cons_of_suffix (List.suffix_append _ _))

/-- An entry with the commas behind it. -/
theorem IsSeparatedEntry.suffix {entry : String × AttributeValue}
    (h : IsSeparatedEntry fits xs entry ys) : ys <:+ xs := by
  cases h with
  | intro h hcommas => exact hcommas.suffix.trans h.suffix

/-- A dictionary. -/
theorem IsDictionary.suffix {entries : List (String × AttributeValue)}
    (h : IsDictionary fits xs entries ys) : ys <:+ xs := by
  cases h with
  | intro _ h _ =>
      exact suffix_cons_of_suffix ((List.suffix_cons _ _).trans
        (h.suffix IsSeparatedEntry.suffix))

/-- A dictionary that may be missing. -/
theorem MayHaveDictionary.suffix {entries : List (String × AttributeValue)}
    (h : MayHaveDictionary fits xs entries ys) : ys <:+ xs := by
  cases h with
  | intro h => exact h.suffix IsDictionary.suffix

/-- A dictionary behind its word. -/
theorem MayHaveClause.suffix {entries : List (String × AttributeValue)}
    (h : MayHaveClause fits xs entries ys) : ys <:+ xs := by
  cases h with
  | present _ h => exact suffix_cons_of_suffix h.suffix
  | missing _ => exact List.suffix_rfl

/-! ## Captures -/

/-- A capture takes the very lexemes that it gives. -/
theorem CaptureRun.append_eq (h : CaptureRun fits opening closing depth xs run ys) :
    run ++ ys = xs := by
  induction h with
  | last _ => rfl
  | opened _ _ _ ih => rw [List.cons_append, ih]
  | closed _ _ ih => rw [List.cons_append, ih]
  | inner _ _ _ _ ih => rw [List.cons_append, ih]

/-- A capture with its first bracket takes the very lexemes that it gives. -/
theorem IsCapture.append_eq (h : IsCapture fits opening closing xs run ys) : run ++ ys = xs := by
  cases h with
  | intro _ h => rw [List.cons_append, h.append_eq]

/-- The text of a capture. -/
theorem IsCaptured.suffix {text : String} (h : IsCaptured fits opening closing xs text ys) :
    ys <:+ xs := by
  cases h with
  | intro h =>
      rw [← h.append_eq]
      exact List.suffix_append _ _

/-- A capture takes its first bracket. -/
theorem IsCaptured.suffix_tail {x : Lexeme} {text : String}
    (h : IsCaptured fits opening closing (x :: xs) text ys) : ys <:+ xs := by
  obtain ⟨⟨_, h⟩⟩ := h
  rw [← h.append_eq]
  exact List.suffix_append _ _

/-- A location. -/
theorem IsLocation.suffix {text : String} (h : IsLocation fits xs text ys) : ys <:+ xs := by
  cases h with
  | intro _ h =>
      rw [← h.append_eq]
      exact suffix_cons_of_suffix (List.suffix_append _ _)

end Brackets

/-! ## Parts of operations -/

/-- A value that an operation defines. -/
theorem IsOutput.suffix {output : String} (h : IsOutput xs output ys) : ys <:+ xs := by
  cases h with
  | single _ _ => exact List.suffix_cons _ _
  | group _ _ _ => exact suffix_cons_of_suffix (suffix_cons_of_suffix (List.suffix_cons _ _))

/-- The values that an operation defines. -/
theorem AreOutputs.suffix {outputs : List String} (h : AreOutputs xs outputs ys) :
    ys <:+ xs := by
  cases h with
  | enclosed h => exact h.suffix IsOutput.suffix
  | bare _ h => exact h.suffix IsOutput.suffix
  | none _ _ => exact List.suffix_rfl

/-- The values that an operation defines with the equals sign. -/
theorem AreDefinitions.suffix {outputs : List String} (h : AreDefinitions xs outputs ys) :
    ys <:+ xs := by
  cases h with
  | none h => exact h.suffix
  | some _ h _ => exact (List.suffix_cons _ _).trans h.suffix

/-- The name of an operation. -/
theorem IsName.suffix {name : String} (h : IsName xs name ys) : ys <:+ xs := by
  cases h with
  | quoted _ => exact List.suffix_cons _ _
  | one _ _ => exact List.suffix_cons _ _
  | two _ _ => exact suffix_cons_of_suffix (List.suffix_cons _ _)

/-- The name of an operation goes past a lexeme. -/
theorem IsName.exists_cons {name : String} (h : IsName xs name ys) :
    ∃ x zs, xs = x :: zs ∧ ys <:+ zs := by
  cases h with
  | quoted _ => exact ⟨_, _, rfl, List.suffix_rfl⟩
  | one _ _ => exact ⟨_, _, rfl, List.suffix_rfl⟩
  | two _ _ => exact ⟨_, _, rfl, List.suffix_cons _ _⟩

/-- A run of operands. -/
theorem OperandRun.suffix {inputs : List String} (h : OperandRun xs inputs ys) : ys <:+ xs := by
  induction h with
  | done _ => exact List.suffix_rfl
  | comma _ _ ih => exact suffix_cons_of_suffix ih
  | value _ _ ih => exact suffix_cons_of_suffix ih
  | dense _ => exact List.suffix_cons _ _
  | scalar _ => exact List.suffix_cons _ _

/-- The operands. -/
theorem AreOperands.suffix {inputs : List String} (h : AreOperands xs inputs ys) :
    ys <:+ xs := by
  cases h with
  | enclosed _ h _ => exact suffix_cons_of_suffix ((List.suffix_cons _ _).trans h.suffix)
  | bare _ h => exact h.suffix

section Operations

variable {fits : Nat → Prop}

/-- A block after the signature. -/
theorem IsBlock.suffix {block : List (String × AttributeValue) × Option String}
    (h : IsBlock fits xs block ys) : ys <:+ xs := by
  cases h with
  | dictionary _ _ h => exact h.suffix
  | body _ _ h => exact h.suffix
  | missing _ => exact List.suffix_rfl

/-- An operation up to the types of its operands. -/
theorem IsHead.suffix {op : Operation} (h : IsHead fits xs op ys) : ys <:+ xs := by
  cases h with
  | intro houtputs hname hcallee hinputs hregions hentries htypes =>
      have hfront := hname.suffix.trans houtputs.suffix
      have hoperands := (hinputs.suffix.trans (hcallee.suffix IsText.suffix)).trans hfront
      have hgroup := (hregions.suffix IsCaptured.suffix).trans hoperands
      exact (htypes.suffix.trans hentries.suffix).trans hgroup

/-- The head of an operation goes past the lookahead, at its name at the latest. -/
theorem IsHead.suffix_tail {x : Lexeme} {op : Operation} (h : IsHead fits (x :: xs) op ys) :
    ys <:+ xs := by
  cases h with
  | intro houtputs hname hcallee hinputs hregions hentries htypes =>
      obtain ⟨w, ws, rfl, hws⟩ := hname.exists_cons
      have hbehind : ws <:+ xs := by
        rcases List.suffix_cons_iff.mp houtputs.suffix with heq | hlater
        · exact (List.cons.inj heq).2 ▸ List.suffix_rfl
        · exact (List.suffix_cons _ _).trans hlater
      have hoperands := hinputs.suffix.trans (hcallee.suffix IsText.suffix)
      have hgroup := (hregions.suffix IsCaptured.suffix).trans (hoperands.trans hws)
      exact ((htypes.suffix.trans hentries.suffix).trans hgroup).trans hbehind

/-- An operation. -/
theorem IsOperation.suffix {op : Operation} (h : IsOperation fits xs op ys) : ys <:+ xs := by
  cases h with
  | constant hhead _ _ hlocation => exact (hlocation.suffix IsLocation.suffix).trans hhead.suffix
  | general hhead _ htypes hblock hlate hlocation =>
      have hsignature := htypes.suffix.trans hhead.suffix
      have hattributes := (hlate.suffix.trans hblock.suffix).trans hsignature
      exact (hlocation.suffix IsLocation.suffix).trans hattributes

/-- An operation goes past the lookahead. -/
theorem IsOperation.suffix_tail {x : Lexeme} {op : Operation}
    (h : IsOperation fits (x :: xs) op ys) : ys <:+ xs := by
  cases h with
  | constant hhead _ _ hlocation =>
      exact (hlocation.suffix IsLocation.suffix).trans hhead.suffix_tail
  | general hhead _ htypes hblock hlate hlocation =>
      have hsignature := htypes.suffix.trans hhead.suffix_tail
      have hattributes := (hlate.suffix.trans hblock.suffix).trans hsignature
      exact (hlocation.suffix IsLocation.suffix).trans hattributes

/-! ## Functions and modules -/

/-- A parameter. -/
theorem IsParameter.suffix {param : Parameter} (h : IsParameter fits xs param ys) :
    ys <:+ xs := by
  cases h with
  | intro _ _ htype hentries hlocation =>
      have htyped := hentries.suffix.trans htype.suffix
      have hlocated := (hlocation.suffix IsLocation.suffix).trans htyped
      exact suffix_cons_of_suffix (suffix_cons_of_suffix hlocated)

/-- A result. -/
theorem IsResult.suffix {result : FunctionResult} (h : IsResult fits xs result ys) :
    ys <:+ xs := by
  cases h with
  | intro htype hentries => exact hentries.suffix.trans htype.suffix

/-- The results. -/
theorem AreResults.suffix {results : List FunctionResult} (h : AreResults fits xs results ys) :
    ys <:+ xs := by
  cases h with
  | enclosed h => exact h.suffix IsResult.suffix
  | bare _ h => exact h.suffix

/-- A body. -/
theorem IsBody.suffix {operations : List Operation} (h : IsBody fits xs operations ys) :
    ys <:+ xs := by
  cases h with
  | intro _ h _ =>
      exact suffix_cons_of_suffix ((List.suffix_cons _ _).trans (h.suffix IsOperation.suffix))

/-- A body goes past the brace that opens it. -/
theorem IsBody.suffix_tail {x : Lexeme} {operations : List Operation}
    (h : IsBody fits (x :: xs) operations ys) : ys <:+ xs := by
  cases h with
  | intro _ h _ => exact (List.suffix_cons _ _).trans (h.suffix IsOperation.suffix)

/-- A function goes past its keyword. -/
theorem IsFunction.suffix_tail {x : Lexeme} {f : Function} (h : IsFunction fits (x :: xs) f ys) :
    ys <:+ xs := by
  cases h with
  | intro _ hvisibility _ hparameters hearly hresults hlate hbody =>
      have hname := (List.suffix_cons _ _).trans (hvisibility.suffix IsText.suffix)
      have hsignature := (hparameters.suffix IsParameter.suffix).trans hname
      have hresult := (hresults.suffix fun h => h.suffix AreResults.suffix).trans
        (hearly.suffix.trans hsignature)
      exact (hbody.suffix IsBody.suffix).trans (hlate.suffix.trans hresult)

/-- A function. -/
theorem IsFunction.suffix {f : Function} (h : IsFunction fits xs f ys) : ys <:+ xs := by
  cases xs with
  | nil => cases h
  | cons x xs => exact suffix_cons_of_suffix h.suffix_tail

/-- An item of a module goes past the lookahead. -/
theorem IsItem.suffix_tail {x : Lexeme} {item : ModuleItem} (h : IsItem fits (x :: xs) item ys) :
    ys <:+ xs := by
  cases h with
  | function _ h => exact h.suffix_tail
  | operation _ h => exact h.suffix_tail

/-- An item of a module. -/
theorem IsItem.suffix {item : ModuleItem} (h : IsItem fits xs item ys) : ys <:+ xs := by
  cases h with
  | function _ h => exact h.suffix
  | operation _ h => exact h.suffix

end Operations

end Grammar

end GenericIR
