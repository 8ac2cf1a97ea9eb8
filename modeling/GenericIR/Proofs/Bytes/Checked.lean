/-
# Checked programs

A checked program keeps a state and ends with a value or a diagnostic, unless one of its steps
goes wrong: then it has no result.  Taking what is not there, subtracting below zero and not
meeting a requirement go wrong, and so does a loop whose turn goes on without having brought the
state nearer to its end.  A checked program that has a result has done none of these.

* `Checked.loop` : turns of a loop, each of them checked to bring the state nearer to its end.
-/
import GenericIR.Diagnostic

namespace GenericIR

/-- A checked program over a state: a value or a diagnostic with the state after it, or no
result. -/
abbrev Checked (σ : Type) : Type → Type := ExceptT Diagnostic (StateT σ Option)

/-- How a turn of a loop ends: the loop goes on with a value, or ends with a result. -/
inductive Flow (τ α : Type) where
  | again (next : τ)
  | done (result : α)
deriving Repr

namespace Checked

variable {σ τ α β : Type}

/-! ## Steps -/

/-- A value that may be missing; without it there is no result. -/
def ofOption (a : Option α) : Checked σ α := fun s => a.map fun a => (.ok a, s)

/-- The state. -/
def here : Checked σ σ := fun s => some (.ok s, s)

/-- Goes to a state. -/
def goTo (s : σ) : Checked σ Unit := fun _ => some (.ok (), s)

/-- A difference of numbers, without a result below zero. -/
def subtract (a b : Nat) : Checked σ Nat := ofOption (if b ≤ a then some (a - b) else none)

/-- A requirement, without which there is no result. -/
def require (c : Prop) [Decidable c] : Checked σ Unit := ofOption (if c then some () else none)

/-- Takes turns from a value on until one ends the loop.  A turn that goes on has left less to
go than there was; where it has not, there is no result. -/
def loop (left : σ → Nat) (turn : τ → Checked σ (Flow τ α)) (t : τ) : Checked σ α := fun s =>
  match turn t s with
  | none => none
  | some (.error d, s') => some (.error d, s')
  | some (.ok (.done a), s') => some (.ok a, s')
  | some (.ok (.again next), s') =>
    if _h : left s' < left s then loop left turn next s' else none
termination_by s => left s

/-! ## Steps at a state -/

/-- A step behind one that gives a value. -/
theorem bind_ok {m : Checked σ α} {f : α → Checked σ β} {s s' : σ} {a : α}
    (h : m s = some (.ok a, s')) : (m >>= f) s = f a s' := by
  show (m s).bind _ = _
  rw [h]
  rfl

/-- A step behind one that ends with a diagnostic. -/
theorem bind_error {m : Checked σ α} {f : α → Checked σ β} {s s' : σ} {d : Diagnostic}
    (h : m s = some (.error d, s')) : (m >>= f) s = some (.error d, s') := by
  show (m s).bind _ = _
  rw [h]
  rfl

/-- A step that gives a value behind another one, which gave a value then. -/
theorem exists_of_bind_ok {m : Checked σ α} {f : α → Checked σ β} {s s' : σ} {b : β}
    (h : (m >>= f) s = some (.ok b, s')) :
    ∃ a r, m s = some (.ok a, r) ∧ f a r = some (.ok b, s') := by
  match hm : m s with
  | none =>
      have hnone : (m >>= f) s = none := by
        show (m s).bind _ = none
        rw [hm]
        rfl
      rw [hnone] at h
      cases h
  | some (.error d, r) =>
      rw [bind_error hm] at h
      cases h
  | some (.ok a, r) =>
      rw [bind_ok hm] at h
      exact ⟨a, r, rfl, h⟩

/-- Steps that come to the same at two states go on alike. -/
theorem bind_congr {m n : Checked σ α} {s t : σ} (f : α → Checked σ β) (h : m s = n t) :
    (m >>= f) s = (n >>= f) t := by
  show (m s).bind _ = (n t).bind _
  rw [h]

/-- A step that asks for the state. -/
theorem here_bind (f : σ → Checked σ β) (s : σ) : (here >>= f) s = f s s := rfl

/-- A difference that is not below zero. -/
theorem subtract_eq {a b : Nat} (h : b ≤ a) (s : σ) :
    subtract a b s = some (.ok (a - b), s) := by
  rw [subtract, if_pos h]
  rfl

/-- A step behind a difference that is not below zero. -/
theorem subtract_bind {a b : Nat} (h : b ≤ a) (f : Nat → Checked σ β) :
    (subtract a b >>= f) = f (a - b) := funext fun s => bind_ok (subtract_eq h s)

/-- A step behind a requirement that is met. -/
theorem require_bind {c : Prop} [Decidable c] (h : c) (f : Unit → Checked σ β) :
    (require c >>= f) = f () := by
  refine funext fun s => bind_ok ?_
  rw [require, if_pos h]
  rfl

section Loop

variable {left : σ → Nat} {turn : τ → Checked σ (Flow τ α)} {t : τ} {s s' : σ}

/-- A turn that goes on nearer to the end leaves the loop to the turns after it. -/
theorem loop_of_again {next : τ} (h : turn t s = some (.ok (.again next), s'))
    (hleft : left s' < left s) : loop left turn t s = loop left turn next s' := by
  rw [loop, h]
  exact dif_pos hleft

/-- A turn that ends the loop ends it with its result. -/
theorem loop_of_done {a : α} (h : turn t s = some (.ok (.done a), s')) :
    loop left turn t s = some (.ok a, s') := by
  rw [loop, h]

/-- A turn that ends with a diagnostic ends the loop with it. -/
theorem loop_of_error {d : Diagnostic} (h : turn t s = some (.error d, s')) :
    loop left turn t s = some (.error d, s') := by
  rw [loop, h]

/-- What holds of a loop that ends with a result, by induction on its turns: it holds where a
turn ends the loop, and at a turn that goes on it follows from the turns behind it. -/
theorem loop_ok_induct {P : τ → σ → α → σ → Prop}
    (hdone : ∀ t s a s', turn t s = some (.ok (.done a), s') → P t s a s')
    (hagain : ∀ t s next r a s', turn t s = some (.ok (.again next), r) → P next r a s' →
      P t s a s') {a : α} (h : loop left turn t s = some (.ok a, s')) : P t s a s' := by
  fun_induction loop left turn t s with
  | case1 t s hturn => cases h
  | case2 t s d r hturn => cases h
  | case3 t s r b hturn =>
      cases h
      exact hdone t s a s' hturn
  | case4 t s next r hturn hleft ih => exact hagain t s next r a s' hturn (ih h)
  | case5 t s next r hturn hleft => cases h

end Loop

end Checked

end GenericIR
