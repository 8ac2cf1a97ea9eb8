/-
# Value ids, symbols and block labels

A sigil and the name it marks: `%` and `$` for values, `@` for symbols, `^` for block
labels.  Symbols and labels may have several parts joined by `::`, each part repeating the
sigil or not.  A part of a symbol may be quoted, and is then the last one.

* `reference_isPrefix` : the scan is the front of the text.
-/
import GenericIR.Limits
import GenericIR.Scan.Quoted

namespace GenericIR

/-! ## Parts -/

/-- The parts of a name after its sigil, as they are decoded, where `count` is the number
of the part that comes first. -/
def parts (sigil : Char) (max count : Nat) (text : List Char) : Scan (List Char) :=
  if sigil = '@' ∧ text.head? = some '"' then (quotedBody (text.drop 1)).prepend ['"']
  else
    let front := text.takeWhile isIdChar
    match _hrest : text.dropWhile isIdChar with
    | ':' :: ':' :: rest =>
      if max ≤ count then
        ⟨front, .error (.limitExceeded "qualified reference segments" max)⟩
      else
        let again := if rest.head? = some sigil then [sigil] else []
        let mark := front ++ ':' :: ':' :: again
        ((parts sigil max (count + 1) (rest.drop again.length)).map (mark ++ ·)).prepend mark
    | _ => ⟨front, .ok front⟩
termination_by text.length
decreasing_by
  have hlen := (List.dropWhile_suffix (l := text) isIdChar).length_le
  simp only [_hrest, List.length_cons] at hlen
  simp only [List.length_drop]
  omega

/-- A sigil that is repeated is the front of the text. -/
theorem sigil_append_drop (sigil : Char) (text : List Char) :
    (if text.head? = some sigil then [sigil] else []) ++
      text.drop (if text.head? = some sigil then [sigil] else []).length = text := by
  cases text with
  | nil => rfl
  | cons c rest =>
      by_cases hc : c = sigil
      · simp [hc]
      · simp [hc]

/-- A part with the mark behind it and the sigil repeated there is the front of the text. -/
theorem mark_append_drop (sigil : Char) {text rest : List Char}
    (hrest : text.dropWhile isIdChar = ':' :: ':' :: rest) :
    (text.takeWhile isIdChar ++
        ':' :: ':' :: if rest.head? = some sigil then [sigil] else []) ++
      rest.drop (if rest.head? = some sigil then [sigil] else []).length = text := by
  rw [List.append_assoc, List.cons_append, List.cons_append, sigil_append_drop, ← hrest,
    List.takeWhile_append_dropWhile]

/-- The parts taken are the front of the text. -/
theorem parts_isPrefix (sigil : Char) (max count : Nat) (text : List Char) :
    (parts sigil max count text).lexeme <+: text := by
  fun_induction parts sigil max count text with
  | case1 count text h =>
      obtain ⟨_, hquote⟩ := h
      cases text with
      | nil => simp at hquote
      | cons c rest =>
          obtain rfl : c = '"' := by simpa using hquote
          simpa using quotedBody_isPrefix rest
  | case2 count text h front rest hrest hmax => exact List.takeWhile_prefix _
  | case3 count text h front rest hrest hmax again mark ih =>
      have htext : mark ++ rest.drop again.length = text := mark_append_drop sigil hrest
      have hp := (List.prefix_append_right_inj mark).mpr ih
      rwa [htext] at hp
  | case4 count text h front _ => exact List.takeWhile_prefix _

/-! ## Names with their sigil -/

/-- A symbol or a block label after its sigil, which stays in its value. -/
def reference (limits : Limits) (sigil : Char) (kind : TokenKind) (rest : List Char) :
    Scan Meaning :=
  ((parts sigil limits.maxSymbolSegments 1 rest).map fun name =>
    (kind, .text (String.ofList (sigil :: name)))).prepend [sigil]

/-- A block label after its sigil; a single colon right after the sigil is a label with no
name. -/
def label (limits : Limits) (rest : List Char) : Scan Meaning :=
  match rest with
  | ':' :: ':' :: _ => reference limits '^' .caretId rest
  | ':' :: _ => .plain .caretId ['^', ':']
  | _ => reference limits '^' .caretId rest

/-- A value id with its sigil. -/
def valueId (sigil : Char) (rest : List Char) : Scan Meaning :=
  .plain .valueId (sigil :: rest.takeWhile isIdChar)

/-- The scan of a symbol is the front of the text. -/
theorem reference_isPrefix (limits : Limits) (sigil : Char) (kind : TokenKind)
    (rest : List Char) : (reference limits sigil kind rest).lexeme <+: sigil :: rest := by
  simpa [reference] using parts_isPrefix sigil limits.maxSymbolSegments 1 rest

/-- The scan of a label is the front of the text. -/
theorem label_isPrefix (limits : Limits) (rest : List Char) :
    (label limits rest).lexeme <+: '^' :: rest := by
  fun_cases label limits rest with
  | case1 r => exact reference_isPrefix limits '^' .caretId (':' :: ':' :: r)
  | case2 r _ => simp
  | case3 => exact reference_isPrefix limits '^' .caretId rest

/-- The scan of a value id is the front of the text. -/
theorem valueId_isPrefix (sigil : Char) (rest : List Char) :
    (valueId sigil rest).lexeme <+: sigil :: rest := by
  simpa [valueId] using List.takeWhile_prefix isIdChar

end GenericIR
