/-
# Repetition

Every list in the grammar is read in turns.  `Parse.collect` takes turns until one of them
ends the list, carrying a state such as a depth of brackets from turn to turn.  A turn that
goes on has gone on from a lexeme, so the lexemes left bound the number of turns.
-/
import GenericIR.Grammar.Parser

namespace GenericIR

/-! ## Turns -/

/-- The outcome of one turn of a repetition. -/
inductive Turn (σ α : Type) where
  /-- The list ends here. -/
  | stop
  /-- An item, and the list ends behind it. -/
  | last (item : α)
  /-- An item, and the state for the next turn. -/
  | more (item : α) (next : σ)
deriving Repr

namespace Parse

/-- The items of all turns from a state on.  A turn that claims to go on without having
gone on ends the list, which no turn of this grammar does. -/
def collect {σ α : Type} (turn : σ → Parse (Turn σ α)) (s : σ) : Parse (List α) := fun p =>
  match turn s p with
  | .error d q => .error d q
  | .ok .stop q => .ok [] q
  | .ok (.last item) q => .ok [item] q
  | .ok (.more item next) q =>
    if _h : q.left < p.left then
      match collect turn next q with
      | .ok items r => .ok (item :: items) r
      | .error d r => .error d r
    else .ok [item] q
termination_by p => p.left

/-- A turn that ends the list ends it with no further item. -/
theorem collect_of_stop {σ α : Type} (turn : σ → Parse (Turn σ α)) (s : σ) (p q : Parser)
    (h : turn s p = .ok .stop q) : collect turn s p = .ok [] q := by
  rw [collect, h]

/-- A turn with the last item ends the list with it. -/
theorem collect_of_last {σ α : Type} (turn : σ → Parse (Turn σ α)) (s : σ) (p q : Parser)
    (item : α) (h : turn s p = .ok (.last item) q) : collect turn s p = .ok [item] q := by
  rw [collect, h]

/-- A turn that fails fails the list. -/
theorem collect_of_error {σ α : Type} (turn : σ → Parse (Turn σ α)) (s : σ) (p q : Parser)
    (d : Diagnostic) (h : turn s p = .error d q) : collect turn s p = .error d q := by
  rw [collect, h]

/-! ## Kinds of lists -/

/-- One item, unless the lookahead is of a kind that ends the list. -/
def untilTurn {α : Type} (stops : List TokenKind) (item : Parse α) (_ : Unit) :
    Parse (Turn Unit α) := do
  if (← current).kind ∈ stops then return .stop
  else return .more (← item) ()

/-- Items up to a lookahead of one of some kinds. -/
def itemsUntil {α : Type} (stops : List TokenKind) (item : Parse α) : Parse (List α) :=
  collect (untilTurn stops item) ()

/-- One item with the comma behind it, unless the lookahead closes the list. -/
def closedTurn {α : Type} (close : TokenKind) (item : Parse α) (_ : Unit) :
    Parse (Turn Unit α) := do
  if ← sees close then return .stop
  else
    let a ← item
    if ← accept .comma then return .more a () else return .last a

/-- Items with commas between them up to a closing bracket, which may follow a comma. -/
def closedItems {α : Type} (close : TokenKind) (item : Parse α) : Parse (List α) :=
  collect (closedTurn close item) ()

/-- A comma with the item behind it. -/
def commaTurn {α : Type} (item : Parse α) (_ : Unit) : Parse (Turn Unit α) := do
  if ← accept .comma then return .more (← item) () else return .stop

/-- One item, and more for as long as a comma follows. -/
def openItems {α : Type} (item : Parse α) : Parse (List α) := do
  let first ← item
  let more ← collect (commaTurn item) ()
  return first :: more

/-- Goes on from any number of commas. -/
def skipCommas : Parse Unit := do
  let _ ← collect (commaTurn (pure ())) ()

end Parse

end GenericIR
