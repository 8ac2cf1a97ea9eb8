/-
# Errors of a reading

A reading ends with an error only where a token has no end or no value, or passes a limit of the
lexer.  No such error is one that a parser raises by itself, so the fault alone tells whose error
it is.

* `Lexer.isFromLexer_of_next_error` : every error of a reading is one of the lexer's.
-/
import GenericIR.Proofs.Composition

namespace GenericIR

/-! ## Scans -/

/-- A scan that, where it holds a fault, holds one of the lexer's. -/
def Scan.FaultsAreLexical {α : Type} (s : Scan α) : Prop :=
  ∀ fault, s.outcome = .error fault → fault.isFromLexer

namespace Scan.FaultsAreLexical

variable {α β : Type}

/-- A scan that finds a token holds no fault. -/
theorem ok (lexeme : List Char) (a : α) : FaultsAreLexical ⟨lexeme, .ok a⟩ := nofun

/-- A change of meaning holds the same fault. -/
theorem map {s : Scan α} (h : s.FaultsAreLexical) (f : α → β) : (s.map f).FaultsAreLexical := by
  intro fault hfault
  rw [Scan.outcome_map] at hfault
  cases hs : s.outcome with
  | ok a => rw [hs] at hfault; cases hfault
  | error e =>
      rw [hs] at hfault
      cases hfault
      exact h fault hs

/-- More characters before hold the same fault. -/
theorem prepend {s : Scan α} (h : s.FaultsAreLexical) (front : List Char) :
    (s.prepend front).FaultsAreLexical := h

end Scan.FaultsAreLexical

open Scan (FaultsAreLexical)

/-- A numeral that cannot be read is a fault of the lexer. -/
theorem faultsAreLexical_readNumeral (lexeme : List Char) (kind : TokenKind)
    (value : Option TokenValue) : (readNumeral lexeme kind value).FaultsAreLexical := by
  intro fault hfault
  rw [fault_of_readNumeral hfault]
  rfl

/-- A numeral holds no other faults than the lexer's. -/
theorem faultsAreLexical_numeral (text : List Char) : (numeral text).FaultsAreLexical := by
  fun_cases numeral text <;> exact faultsAreLexical_readNumeral _ _ _

/-- A text in quotes holds no other faults than the lexer's. -/
theorem faultsAreLexical_quotedBody (text : List Char) : (quotedBody text).FaultsAreLexical := by
  fun_induction quotedBody text with
  | case1 =>
      intro fault hfault
      cases hfault
      rfl
  | case2 rest => exact .ok _ _
  | case3 c rest ih => exact (ih.map _).prepend _
  | case4 c rest hquote hescape ih => exact (ih.map _).prepend _

/-- A word or an angle bracket form holds no other faults than the lexer's. -/
theorem faultsAreLexical_word (limits : Limits) (text : List Char) :
    (word limits text).FaultsAreLexical := by
  fun_cases word limits text with
  | case1 front rest hrest tail ending heq =>
      cases ending with
      | closed => exact .ok _ _
      | tooDeep =>
          intro fault hfault
          cases hfault
          rfl
      | unclosed =>
          intro fault hfault
          cases hfault
          rfl
  | case2 front _ => exact .ok _ _

/-- The parts of a name hold no other faults than the lexer's. -/
theorem faultsAreLexical_parts (sigil : Char) (max count : Nat) (text : List Char) :
    (parts sigil max count text).FaultsAreLexical := by
  fun_induction parts sigil max count text with
  | case1 count text hquoted => exact (faultsAreLexical_quotedBody _).prepend _
  | case2 count text hquoted front rest hrest hmax =>
      intro fault hfault
      cases hfault
      rfl
  | case3 count text hquoted front rest hrest hmax again mark ih => exact (ih.map _).prepend _
  | case4 count text hquoted front hrest => exact .ok _ _

/-- A symbol or a label with parts holds no other faults than the lexer's. -/
theorem faultsAreLexical_reference (limits : Limits) (sigil : Char) (kind : TokenKind)
    (rest : List Char) : (reference limits sigil kind rest).FaultsAreLexical :=
  ((faultsAreLexical_parts _ _ _ _).map _).prepend _

/-- A token holds no other faults than the lexer's. -/
theorem faultsAreLexical_scanToken (limits : Limits) (c : Char) (rest : List Char) :
    (scanToken limits c rest).FaultsAreLexical := by
  fun_cases scanToken limits c rest with
  | case1 _ => exact faultsAreLexical_numeral _
  | case2 _ _ => exact ((faultsAreLexical_quotedBody rest).map _).prepend _
  | case3 _ _ _ => exact faultsAreLexical_word _ _
  | case4 _ _ _ _ => exact faultsAreLexical_reference _ _ _ _
  | case5 _ _ _ _ _ => exact .ok _ _
  | case6 _ _ _ _ _ _ =>
      fun_cases label limits rest with
      | case1 r => exact faultsAreLexical_reference _ _ _ _
      | case2 r _ => exact .ok _ _
      | case3 => exact faultsAreLexical_reference _ _ _ _
  | case7 _ _ _ _ _ _ => fun_cases mark c rest <;> exact .ok _ _

/-! ## Readings -/

/-- Every error of a reading is one of the lexer's. -/
theorem Lexer.isFromLexer_of_next_error {l m : Lexer} {d : Diagnostic} (h : next l = .error d m) :
    d.fault.isFromLexer := by
  rcases next_cases l with ⟨_, hend⟩ | ⟨c, rest, _, htake⟩
  · rw [hend] at h
    cases h
  · rw [htake, take] at h
    split at h
    · cases h
    · next fault hfault =>
        cases h
        exact faultsAreLexical_scanToken l.limits c rest fault hfault

/-- Every error of going on is one of the lexer's. -/
theorem Parser.isFromLexer_of_advance {p q : Parser} {d : Diagnostic}
    (h : Parse.advance p = .error d q) : d.fault.isFromLexer := by
  unfold Parse.advance at h
  split at h
  · cases h
  · next hnext =>
      cases h
      exact Lexer.isFromLexer_of_next_error hnext

end GenericIR
