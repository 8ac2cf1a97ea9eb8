/-
# What the lookahead decides

Of the ways in which a phrase can go on, the first lexeme of the run allows one.  A part that may
be missing is there or not, and the runs of attribute values, captures and operands go on behind
that lexeme in the one way of its kind, or not at all.

* `Grammar.Optionally.of_starts`, `Grammar.Optionally.of_not` : parts that may be missing;
* `Grammar.valueRun_iff_of_opening`, `Grammar.captureRun_iff_of_opening` and the lemmas next to
  them : one lexeme of an attribute value or of a capture;
* `Grammar.operandRun_iff_of_value` and the lemmas next to it : one lexeme of operands.
-/
import GenericIR.Proofs.Derivation

namespace GenericIR

namespace Grammar

variable {α : Type} {x : Lexeme} {xs ys : List Lexeme}

/-! ## Parts that may be missing -/

/-- A part that the lookahead cannot start is missing. -/
theorem Optionally.of_not {starts : Lexeme → Prop} {part : Phrase α} {a : Option α}
    (h : Optionally starts part (x :: xs) a ys) (hx : ¬ starts x) : a = none ∧ ys = x :: xs := by
  cases h with
  | present hstarts _ => exact absurd hstarts hx
  | missing _ => exact ⟨rfl, rfl⟩

/-- A part that the lookahead starts is there. -/
theorem Optionally.of_starts {starts : Lexeme → Prop} {part : Phrase α} {a : Option α}
    (h : Optionally starts part (x :: xs) a ys) (hx : starts x) :
    ∃ b, a = some b ∧ part (x :: xs) b ys := by
  cases h with
  | present _ h => exact ⟨_, rfl, h⟩
  | missing hnot => exact absurd hx hnot

/-! ## Brackets -/

section Brackets

variable {fits : Nat → Prop} {depth : Nat}

/-- A dictionary behind its word is missing where the lookahead is not that word. -/
theorem MayHaveClause.of_not {entries : List (String × AttributeValue)}
    (h : MayHaveClause fits (x :: xs) entries ys) (hx : ¬ IsAttributesWord x) :
    entries = [] ∧ ys = x :: xs := by
  cases h with
  | present hword _ => exact absurd hword hx
  | missing _ => exact ⟨rfl, rfl⟩

/-- A dictionary behind its word is there where the lookahead is that word. -/
theorem MayHaveClause.of_starts {entries : List (String × AttributeValue)}
    (h : MayHaveClause fits (x :: xs) entries ys) (hx : IsAttributesWord x) :
    IsDictionary fits xs entries ys := by
  cases h with
  | present _ h => exact h
  | missing hnot => exact absurd hx hnot

section Value

variable {v : List Lexeme}

/-- A comma or a closing brace outside of all brackets ends an attribute value. -/
theorem valueRun_iff_of_stop (hx : x.kind = .comma ∨ x.kind = .rbrace) :
    ValueRun fits 0 (x :: xs) v ys ↔ v = [] ∧ ys = x :: xs := by
  constructor
  · intro h
    cases h with
    | stop _ => exact ⟨rfl, rfl⟩
    | opening hopen _ _ => rcases hx with hx | hx <;> rw [hx] at hopen <;> cases hopen
    | inner _ hclose hcomma _ _ =>
        rcases hx with hx | hx
        · exact absurd hx (hcomma rfl)
        · rw [hx] at hclose
          exact absurd rfl hclose
  · rintro ⟨rfl, rfl⟩
    exact .stop hx

/-- The end of the text is no part of an attribute value. -/
theorem not_valueRun_of_eof (hx : x.kind = .eof) : ¬ ValueRun fits depth (x :: xs) v ys := by
  intro h
  cases h with
  | stop hstop => rcases hstop with h | h <;> rw [h] at hx <;> cases hx
  | opening hopen _ _ => rw [hx] at hopen; cases hopen
  | closing hclose _ => rw [hx] at hclose; cases hclose
  | inner _ _ _ heof _ => exact heof hx

/-- Behind an opening bracket an attribute value goes on one bracket deeper. -/
theorem valueRun_iff_of_opening (hx : x.kind.isOpenBracket) :
    ValueRun fits depth (x :: xs) v ys ↔
      fits (depth + 1) ∧ ∃ w, ValueRun fits (depth + 1) xs w ys ∧ v = x :: w := by
  constructor
  · intro h
    cases h with
    | stop hstop => rcases hstop with h | h <;> rw [h] at hx <;> cases hx
    | opening _ hfits h => exact ⟨hfits, _, h, rfl⟩
    | closing hclose _ => exact absurd hclose (TokenKind.not_isCloseBracket_of_isOpenBracket hx)
    | inner hopen _ _ _ _ => exact absurd hx hopen
  · rintro ⟨hfits, w, h, rfl⟩
    exact .opening hx hfits h

/-- Behind a closing bracket it goes on one bracket less deep. -/
theorem valueRun_iff_of_closing (hx : x.kind.isCloseBracket) :
    ValueRun fits (depth + 1) (x :: xs) v ys ↔ ∃ w, ValueRun fits depth xs w ys ∧ v = x :: w := by
  constructor
  · intro h
    cases h with
    | opening hopen _ _ => exact absurd hx (TokenKind.not_isCloseBracket_of_isOpenBracket hopen)
    | closing _ h => exact ⟨_, h, rfl⟩
    | inner _ hclose _ _ _ => exact absurd hx hclose
  · rintro ⟨w, h, rfl⟩
    exact .closing hx h

/-- Outside of all brackets a closing bracket other than the brace is no part of it. -/
theorem not_valueRun_of_closing (hx : x.kind.isCloseBracket) (hbrace : x.kind ≠ .rbrace) :
    ¬ ValueRun fits 0 (x :: xs) v ys := by
  intro h
  cases h with
  | stop hstop =>
      rcases hstop with h | h
      · rw [h] at hx
        cases hx
      · exact hbrace h
  | opening hopen _ _ => exact TokenKind.not_isCloseBracket_of_isOpenBracket hopen hx
  | inner _ hclose _ _ _ => exact hclose hx

/-- Any other lexeme is part of it. -/
theorem valueRun_iff_of_inner (hopen : ¬ x.kind.isOpenBracket) (hclose : ¬ x.kind.isCloseBracket)
    (hcomma : depth = 0 → x.kind ≠ .comma) (heof : x.kind ≠ .eof) :
    ValueRun fits depth (x :: xs) v ys ↔ ∃ w, ValueRun fits depth xs w ys ∧ v = x :: w := by
  constructor
  · intro h
    cases h with
    | stop hstop =>
        rcases hstop with h | h
        · exact absurd h (hcomma rfl)
        · exact absurd (by rw [h]; rfl) hclose
    | opening hx _ _ => exact absurd hx hopen
    | closing hx _ => exact absurd hx hclose
    | inner _ _ _ _ h => exact ⟨_, h, rfl⟩
  · rintro ⟨w, h, rfl⟩
    exact .inner hopen hclose hcomma heof h

end Value

section Capture

variable {opening closing : TokenKind} {run : List Lexeme}

/-- The end of the text is no part of a capture. -/
theorem not_captureRun_of_eof (hopening : opening ≠ .eof) (hclosing : closing ≠ .eof)
    (hx : x.kind = .eof) : ¬ CaptureRun fits opening closing depth (x :: xs) run ys := by
  intro h
  cases h with
  | last hclose => exact hclosing (hclose.symm.trans hx)
  | opened hopen _ _ => exact hopening (hopen.symm.trans hx)
  | closed hclose _ => exact hclosing (hclose.symm.trans hx)
  | inner _ _ heof _ => exact heof hx

/-- Behind an opening bracket a capture goes on one bracket deeper. -/
theorem captureRun_iff_of_opening (hne : opening ≠ closing) (hx : x.kind = opening) :
    CaptureRun fits opening closing depth (x :: xs) run ys ↔
      fits (depth + 1) ∧
        ∃ v, CaptureRun fits opening closing (depth + 1) xs v ys ∧ run = x :: v := by
  have hclose : x.kind ≠ closing := hx ▸ hne
  constructor
  · intro h
    cases h with
    | last hlast => exact absurd hlast hclose
    | opened _ hfits h => exact ⟨hfits, _, h, rfl⟩
    | closed hclosed _ => exact absurd hclosed hclose
    | inner hopen _ _ _ => exact absurd hx hopen
  · rintro ⟨hfits, v, h, rfl⟩
    exact .opened hx hfits h

/-- The bracket that closes the first one ends a capture. -/
theorem captureRun_iff_of_last (hne : opening ≠ closing) (hx : x.kind = closing) :
    CaptureRun fits opening closing 1 (x :: xs) run ys ↔ run = [x] ∧ ys = xs := by
  constructor
  · intro h
    cases h with
    | last _ => exact ⟨rfl, rfl⟩
    | opened hopen _ _ => exact absurd (hopen.symm.trans hx) hne
    | inner _ hclose _ _ => exact absurd hx hclose
  · rintro ⟨rfl, rfl⟩
    exact .last hx

/-- Behind any other closing bracket it goes on one bracket less deep. -/
theorem captureRun_iff_of_closing (hne : opening ≠ closing) (hx : x.kind = closing) :
    CaptureRun fits opening closing (depth + 2) (x :: xs) run ys ↔
      ∃ v, CaptureRun fits opening closing (depth + 1) xs v ys ∧ run = x :: v := by
  constructor
  · intro h
    cases h with
    | opened hopen _ _ => exact absurd (hopen.symm.trans hx) hne
    | closed _ h => exact ⟨_, h, rfl⟩
    | inner _ hclose _ _ => exact absurd hx hclose
  · rintro ⟨v, h, rfl⟩
    exact .closed hx h

/-- Any other lexeme is part of it. -/
theorem captureRun_iff_of_inner (hopen : x.kind ≠ opening) (hclose : x.kind ≠ closing)
    (heof : x.kind ≠ .eof) :
    CaptureRun fits opening closing depth (x :: xs) run ys ↔
      ∃ v, CaptureRun fits opening closing depth xs v ys ∧ run = x :: v := by
  constructor
  · intro h
    cases h with
    | last hx => exact absurd hx hclose
    | opened hx _ _ => exact absurd hx hopen
    | closed hx _ => exact absurd hx hclose
    | inner _ _ _ h => exact ⟨_, h, rfl⟩
  · rintro ⟨v, h, rfl⟩
    exact .inner hopen hclose heof h

end Capture

end Brackets

/-! ## Operands -/

section Operands

variable {inputs : List String}

/-- What ends the operands is no constant. -/
theorem not_isScalarLiteral_of_mem :
    ∀ k ∈ Parse.operandTerminators, ¬ k.isScalarLiteral := by
  decide

/-- A comma between operands is gone past. -/
theorem operandRun_iff_of_comma (hx : x.kind = .comma) :
    OperandRun (x :: xs) inputs ys ↔ OperandRun xs inputs ys := by
  constructor
  · intro h
    cases h with
    | done hends => simp [hx] at hends
    | comma _ h => exact h
    | value hvalue _ => simp [hx] at hvalue
    | dense hdense => simp [hx] at hdense
    | scalar hscalar => simp [hx, TokenKind.isScalarLiteral] at hscalar
  · exact .comma hx

/-- A lookahead that ends the operands leaves none. -/
theorem operandRun_iff_of_done (hx : x.kind ∈ Parse.operandTerminators) :
    OperandRun (x :: xs) inputs ys ↔ inputs = [] ∧ ys = x :: xs := by
  constructor
  · intro h
    cases h with
    | done _ => exact ⟨rfl, rfl⟩
    | comma hcomma _ => rw [hcomma] at hx; exact absurd hx (by decide)
    | value hvalue _ => rw [hvalue] at hx; exact absurd hx (by decide)
    | dense hdense => rw [hdense] at hx; exact absurd hx (by decide)
    | scalar hscalar => exact absurd hscalar (not_isScalarLiteral_of_mem _ hx)
  · rintro ⟨rfl, rfl⟩
    exact .done hx

/-- A value id is an operand, and others may follow. -/
theorem operandRun_iff_of_value (hx : x.kind = .valueId) :
    OperandRun (x :: xs) inputs ys ↔
      ∃ more, OperandRun xs more ys ∧ inputs = x.valueText :: more := by
  constructor
  · intro h
    cases h with
    | done hends => simp [hx] at hends
    | comma hcomma _ => simp [hx] at hcomma
    | value _ h => exact ⟨_, h, rfl⟩
    | dense hdense => simp [hx] at hdense
    | scalar hscalar => simp [hx, TokenKind.isScalarLiteral] at hscalar
  · rintro ⟨more, h, rfl⟩
    exact .value hx h

/-- A dense constant is the last operand. -/
theorem operandRun_iff_of_dense (hx : x.kind = .dense) :
    OperandRun (x :: xs) inputs ys ↔ inputs = [x.valueText] ∧ ys = xs := by
  constructor
  · intro h
    cases h with
    | done hends => simp [hx] at hends
    | comma hcomma _ => simp [hx] at hcomma
    | value hvalue _ => simp [hx] at hvalue
    | dense _ => exact ⟨rfl, rfl⟩
    | scalar hscalar => simp [hx, TokenKind.isScalarLiteral] at hscalar
  · rintro ⟨rfl, rfl⟩
    exact .dense hx

/-- So is a scalar constant. -/
theorem operandRun_iff_of_scalar (hx : x.kind.isScalarLiteral) :
    OperandRun (x :: xs) inputs ys ↔ inputs = [x.text] ∧ ys = xs := by
  constructor
  · intro h
    cases h with
    | done hends => exact absurd hx (not_isScalarLiteral_of_mem _ hends)
    | comma hcomma _ => rw [hcomma] at hx; cases hx
    | value hvalue _ => rw [hvalue] at hx; cases hx
    | dense hdense => rw [hdense] at hx; cases hx
    | scalar _ => exact ⟨rfl, rfl⟩
  · rintro ⟨rfl, rfl⟩
    exact .scalar hx

/-- Any other lexeme is neither an operand nor behind operands. -/
theorem not_operandRun_of_other (hends : x.kind ∉ Parse.operandTerminators)
    (hcomma : x.kind ≠ .comma) (hvalue : x.kind ≠ .valueId) (hdense : x.kind ≠ .dense)
    (hscalar : ¬ x.kind.isScalarLiteral) : ¬ OperandRun (x :: xs) inputs ys := by
  intro h
  cases h with
  | done hx => exact hends hx
  | comma hx _ => exact hcomma hx
  | value hx _ => exact hvalue hx
  | dense hx => exact hdense hx
  | scalar hx => exact hscalar hx

end Operands

end Grammar

end GenericIR
