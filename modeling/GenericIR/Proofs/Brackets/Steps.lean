/-
# What steps over bytes go past

A step over bytes that gives a value has gone past some marks.  `ByteParse.Goes` relates the
value to them, and `ByteParse.Leaves` says which brackets of the structure are open before and
behind them, in the manner of a triple: the kind of the lookahead and the open brackets before,
the step, and the open brackets behind it.

* `Goes.bind`, `Goes.collect` : steps one after another, and turns of a list;
* `LeavesWithin.consume`, `LeavesWithin.accept` : the tokens of the structure open and close
  brackets.
-/
import GenericIR.Proofs.Brackets.Nesting
import GenericIR.Proofs.Composition

namespace GenericIR

/-- What has to hold of the marks of a turn, for a relation between a state and all marks from
there to the end of the list. -/
def Turn.Carries {σ α : Type} (R : σ → List Mark → Prop) (s : σ) : Turn σ α → List Mark → Prop
  | .stop, marks => R s marks
  | .last _, marks => R s marks
  | .more _ next, marks => ∀ later, R next later → R s (marks ++ later)

namespace ByteParse

open Checked (here_bind exists_of_bind_ok)
open Parse (Any)

variable {α β σ : Type} {P : TokenKind → Prop} {source : List Char} {limits : Limits}

/-! ## Marks that are gone past -/

/-- A step that, from a lookahead whose kind is in `P`, gives a value only behind marks in a
relation to it. -/
def Goes (P : TokenKind → Prop) (n : ByteParse α) (R : α → List Mark → Prop) : Prop :=
  ∀ q a q', P q.lookahead.kind → n q = some (.ok a, q') →
    ∃ marks, q'.passed = marks.reverse ++ q.passed ∧ R a marks

/-- A step that, where it gives a value, leaves the parser where it is. -/
def Still (n : ByteParse α) : Prop := ∀ q a q', n q = some (.ok a, q') → q' = q

namespace Goes

/-- A value and no step. -/
theorem pure {a : α} {R : α → List Mark → Prop} (h : R a []) : Goes P (Pure.pure a) R := by
  rintro q _ _ _ ⟨⟩
  exact ⟨[], rfl, h⟩

/-- A fault gives no value. -/
theorem fail {R : α → List Mark → Prop} (fault : Fault) : Goes P (ByteParse.fail fault) R := by
  rintro q _ _ _ ⟨⟩

/-- A token that a production cannot start with gives no value. -/
theorem unexpected {R : α → List Mark → Prop} (context : String) :
    Goes P (ByteParse.unexpected context) R := by
  rintro q _ _ _ ⟨⟩

/-- One step after another. -/
theorem bind {m : ByteParse α} {f : α → ByteParse β} {S : α → List Mark → Prop}
    {R : β → List Mark → Prop} (hm : Goes P m S)
    (hf : ∀ a, Goes Any (f a) fun b back => ∀ front, S a front → R b (front ++ back)) :
    Goes P (m >>= f) R := by
  intro q b q' hq h
  obtain ⟨a, r, hr, hlater⟩ := exists_of_bind_ok h
  -- the latest marks come first, so those of the later step stand in front
  obtain ⟨front, hfront, ha⟩ := hm q a r hq hr
  obtain ⟨back, hback, hb⟩ := hf a r b q' trivial hlater
  refine ⟨front ++ back, ?_, hb front ha⟩
  rw [hback, hfront, List.reverse_append, List.append_assoc]

/-- A step behind one that leaves the parser where it is. -/
theorem still {n : ByteParse α} {f : α → ByteParse β} {R : β → List Mark → Prop} (hn : Still n)
    (hf : ∀ a, Goes P (f a) R) : Goes P (n >>= f) R := by
  intro q b q' hq h
  obtain ⟨a, r, hr, hlater⟩ := exists_of_bind_ok h
  obtain rfl := hn q a r hr
  exact hf a r b q' hq hlater

/-- A step behind a difference, which is not below zero. -/
theorem subtract {a b : Nat} {f : Nat → ByteParse β} {R : β → List Mark → Prop}
    (hf : b ≤ a → Goes P (f (a - b)) R) : Goes P (Checked.subtract a b >>= f) R := by
  intro q c q' hq h
  by_cases hle : b ≤ a
  · rw [Checked.subtract_bind hle] at h
    exact hf hle q c q' hq h
  · obtain ⟨_, _, hsubtract, _⟩ := exists_of_bind_ok h
    rw [Checked.subtract, if_neg hle] at hsubtract
    cases hsubtract

/-- A step behind the check of a depth, which is within the bound. -/
theorem check {depth : Nat} {f : Unit → ByteParse β} {R : β → List Mark → Prop}
    (hf : depth ≤ limits.maxNestingDepth → Goes P (f ()) R) :
    Goes P (checkDepth limits depth >>= f) R := by
  intro q b q' hq h
  obtain ⟨_, r, hr, hlater⟩ := exists_of_bind_ok h
  unfold checkDepth at hr
  split at hr
  · cases hr
  · next hle =>
      cases hr
      exact hf (Nat.le_of_not_lt hle) q b q' hq hlater

/-- Looking at the lookahead settles its kind for what follows. -/
theorem look {f : Token → ByteParse α} {R : α → List Mark → Prop}
    (h : ∀ t, P t.kind → Goes (· = t.kind) (f t) R) : Goes P (current >>= f) R :=
  fun q a q' hq hf => h q.lookahead hq q a q' rfl hf

/-- Asking whether the lookahead is of a kind settles it for what follows. -/
theorem sees {k : TokenKind} {f : Bool → ByteParse α} {R : α → List Mark → Prop}
    (htrue : P k → Goes (· = k) (f true) R) (hfalse : Goes (· ≠ k) (f false) R) :
    Goes P (ByteParse.sees k >>= f) R := by
  intro q a q' hq h
  replace h : f (decide (q.lookahead.kind = k)) q = some (.ok a, q') := h
  by_cases hk : q.lookahead.kind = k
  · rw [decide_eq_true hk] at h
    exact htrue (hk ▸ hq) q a q' hk h
  · rw [decide_eq_false hk] at h
    exact hfalse q a q' hk h

/-- Going on goes past the lookahead in its role. -/
theorem advance {role : Role} {R : Token → List Mark → Prop}
    (h : ∀ t, P t.kind → R t [⟨role, t⟩]) : Goes P (ByteParse.advance source limits role) R := by
  intro q a q' hq hadvance
  unfold ByteParse.advance at hadvance
  split at hadvance
  · cases hadvance
  · cases hadvance
    exact ⟨[⟨role, q.lookahead⟩], rfl, h _ hq⟩
  · cases hadvance

/-- The turns of a list, by induction on them. -/
theorem collect {turn : σ → ByteParse (Turn σ α)} {R : σ → List Mark → Prop}
    (hturn : ∀ s, Goes Any (turn s) (Turn.Carries R s)) (s : σ) :
    Goes P (ByteParse.collect source turn s) fun _ marks => R s marks := by
  intro q items q' _ h
  replace h : Checked.loop (left source) (collectTurn turn) (s, []) q = some (.ok items, q') := h
  -- the marks behind a state of the loop, whatever the items before it
  refine Checked.loop_ok_induct
    (P := fun t q _ q' => ∃ marks, q'.passed = marks.reverse ++ q.passed ∧ R t.1 marks) ?_ ?_ h
  · rintro ⟨s, before⟩ q bs q' hdone
    rcases collectTurn_cases hdone with ⟨ht, _⟩ | ⟨item, ht, _⟩ | ⟨_, _, _, hflow⟩
    · exact hturn s q _ q' trivial ht
    · exact hturn s q _ q' trivial ht
    · cases hflow
  · rintro ⟨s, before⟩ q next r bs q' hagain ⟨later, hlater, hR⟩
    rcases collectTurn_cases hagain with ⟨_, hflow⟩ | ⟨_, _, hflow⟩ | ⟨item, next', ht, hflow⟩
    · cases hflow
    · cases hflow
    · cases hflow
      obtain ⟨marks, hmarks, hcarries⟩ := hturn s q _ r trivial ht
      refine ⟨marks ++ later, ?_, hcarries later hR⟩
      rw [hlater, hmarks, List.reverse_append, List.append_assoc]

end Goes

/-! ## Steps that leave the parser where it is -/

namespace Still

/-- Cutting a text out of the source. -/
theorem textBetween (first last : Token) : Still (ByteParse.textBetween source first last) := by
  intro q text q' h
  unfold ByteParse.textBetween at h
  obtain ⟨chars, r, hchars, hrest⟩ := exists_of_bind_ok h
  cases hrest
  unfold Checked.ofOption at hchars
  cases hslice : slice? source first.span.offset last.span.stop with
  | none =>
      rw [hslice] at hchars
      cases hchars
  | some _ =>
      rw [hslice] at hchars
      cases hchars
      rfl

/-- Cutting texts out of the source. -/
theorem texts (ts : List Token) :
    Still (ts.mapM fun t => ByteParse.textBetween source t t) := by
  induction ts with
  | nil =>
      rintro q _ _ ⟨⟩
      rfl
  | cons t ts ih =>
      intro q texts q' h
      rw [List.mapM_cons] at h
      obtain ⟨_, r, hfirst, hrest⟩ := exists_of_bind_ok h
      obtain ⟨_, u, hmore, hend⟩ := exists_of_bind_ok hrest
      cases hend
      rw [ih _ _ _ hmore, textBetween t t _ _ _ hfirst]

/-- Looking at the two tokens behind the lookahead. -/
theorem peek : Still (braceOpensAttributes source limits) := by
  intro q b q' h
  unfold braceOpensAttributes at h
  split at h
  · cases h
  · cases h
  · split at h
    · split at h <;> cases h
      rfl
    · cases h
      rfl

end Still

/-! ## Brackets of the structure that are open -/

/-- From a lookahead whose kind is in `P` and with some brackets open, a step leaves brackets
open as its value tells, where it gives one. -/
def Leaves (P : TokenKind → Prop) (opened : List TokenKind) (n : ByteParse α)
    (after : α → List TokenKind) : Prop :=
  Goes P n fun a marks => Nested opened marks (after a)

/-- A step that closes all the brackets it opens. -/
abbrev Keeps (P : TokenKind → Prop) (opened : List TokenKind) (n : ByteParse α) : Prop :=
  Leaves P opened n fun _ => opened

/-- The same with a bound on how many brackets are open at a time. -/
def LeavesWithin (limits : Limits) (P : TokenKind → Prop) (opened : List TokenKind)
    (n : ByteParse α) (after : α → List TokenKind) : Prop :=
  Goes P n fun a marks => NestedWithin limits.maxNestingDepth opened marks (after a)

/-- A step that closes all the brackets it opens, with a bound on them. -/
abbrev KeepsWithin (limits : Limits) (P : TokenKind → Prop) (opened : List TokenKind)
    (n : ByteParse α) : Prop :=
  LeavesWithin limits P opened n fun _ => opened

/-- A step that leaves brackets open within a bound leaves them open. -/
theorem LeavesWithin.leaves {opened : List TokenKind} {n : ByteParse α}
    {after : α → List TokenKind} (h : LeavesWithin limits P opened n after) :
    Leaves P opened n after := by
  intro q a q' hq hn
  obtain ⟨marks, hmarks, hnested⟩ := h q a q' hq hn
  exact ⟨marks, hmarks, hnested.nested⟩

namespace LeavesWithin

variable {opened between : List TokenKind} {m : ByteParse α} {f : α → ByteParse β}
variable {after : β → List TokenKind}

/-- A value and no step. -/
theorem pure {a : α} : KeepsWithin limits P opened (Pure.pure a) := Goes.pure .nil

/-- One step after another. -/
theorem bind {T : α → List TokenKind} (hm : LeavesWithin limits P opened m T)
    (hf : ∀ a, LeavesWithin limits Any (T a) (f a) after) :
    LeavesWithin limits P opened (m >>= f) after :=
  Goes.bind hm fun a q b q' hq h =>
    have ⟨marks, hmarks, hnested⟩ := hf a q b q' hq h
    ⟨marks, hmarks, fun _ hfront => hfront.append hnested⟩

/-- A fault leaves nothing open. -/
theorem fail (fault : Fault) : LeavesWithin limits P opened (ByteParse.fail fault) after :=
  Goes.fail fault

/-- A token that a production cannot start with leaves nothing open. -/
theorem unexpected (context : String) :
    LeavesWithin limits P opened (ByteParse.unexpected context) after :=
  Goes.unexpected context

/-- A step behind one that leaves the parser where it is. -/
theorem still (hm : Still m) (hf : ∀ a, LeavesWithin limits P opened (f a) after) :
    LeavesWithin limits P opened (m >>= f) after :=
  Goes.still hm hf

/-- Looking at the lookahead. -/
theorem look {f : Token → ByteParse β}
    (h : ∀ t, P t.kind → LeavesWithin limits (· = t.kind) opened (f t) after) :
    LeavesWithin limits P opened (current >>= f) after :=
  Goes.look h

/-- Asking whether the lookahead is of a kind. -/
theorem sees {k : TokenKind} {f : Bool → ByteParse β}
    (htrue : P k → LeavesWithin limits (· = k) opened (f true) after)
    (hfalse : LeavesWithin limits (· ≠ k) opened (f false) after) :
    LeavesWithin limits P opened (ByteParse.sees k >>= f) after :=
  Goes.sees htrue hfalse

/-- Going on goes past a token of the structure. -/
theorem advance (h : ∀ k, P k → openAfter? opened k = some between) :
    LeavesWithin limits P opened (ByteParse.advance source limits .structural) fun _ => between :=
  Goes.advance fun t ht => .structural rfl (h t.kind ht)

/-- Going on from a lookahead of a kind. -/
theorem past {k : TokenKind} (hP : ∀ j, P j → j = k)
    (h : openAfter? opened k = some between) :
    LeavesWithin limits P opened (ByteParse.advance source limits .structural) fun _ => between :=
  advance fun j hj => hP j hj ▸ h

/-- Asking for a kind. -/
theorem consume {k : TokenKind} (h : openAfter? opened k = some between) :
    LeavesWithin limits P opened (ByteParse.consume source limits k) fun _ => between := by
  refine look fun t _ => ?_
  split
  · next ht => exact past (fun j hj => hj.trans ht) h
  · exact fail _

/-- Asking for a kind with a text. -/
theorem consumeText {k : TokenKind} (text : String)
    (h : openAfter? opened k = some between) :
    LeavesWithin limits P opened (ByteParse.consumeText source limits k text) fun _ => between := by
  refine look fun t _ => ?_
  split
  · exact fail _
  · exact consume h

/-- Accepting a kind. -/
theorem accept {k : TokenKind} {f : Bool → ByteParse β} (h : openAfter? opened k = some between)
    (htrue : LeavesWithin limits Any between (f true) after)
    (hfalse : LeavesWithin limits Any opened (f false) after) :
    LeavesWithin limits P opened (ByteParse.accept source limits k >>= f) after := by
  refine bind (T := fun b => if b then between else opened) ?_ fun b => ?_
  · refine sees (fun _ => ?_) (Goes.pure .nil)
    exact bind (past (fun _ hj => hj) h) fun _ => Goes.pure .nil
  · cases b with
    | true => exact htrue
    | false => exact hfalse

/-- A step that leaves the parser where it is. -/
theorem of_still (h : Still m) : KeepsWithin limits P opened m := by
  intro q a q' _ hm
  obtain rfl := h q a q' hm
  exact ⟨[], rfl, .nil⟩

/-! ### Lists -/

/-- A list whose turns close all the brackets they open. -/
theorem collect {turn : σ → ByteParse (Turn σ α)}
    (hturn : ∀ s, KeepsWithin limits Any opened (turn s)) (s : σ) :
    KeepsWithin limits P opened (ByteParse.collect source turn s) := by
  refine Goes.collect (R := fun _ marks => NestedWithin limits.maxNestingDepth opened marks opened)
    (fun s q t q' hq h => ?_) s
  obtain ⟨marks, hmarks, hnested⟩ := hturn s q t q' hq h
  refine ⟨marks, hmarks, ?_⟩
  cases t with
  | stop => exact hnested
  | last item => exact hnested
  | more item next => exact fun _ hlater => hnested.append hlater

variable {item : ByteParse α}

/-- Items up to a lookahead of one of some kinds. -/
theorem itemsUntil (stops : List TokenKind) (h : ∀ {P}, KeepsWithin limits P opened item) :
    KeepsWithin limits P opened (ByteParse.itemsUntil source stops item) := by
  refine collect (fun _ => look fun t _ => ?_) ()
  split
  · exact pure
  · exact bind h fun _ => pure

/-- Items with commas between them up to a closing bracket. -/
theorem closedItems (close : TokenKind) (h : ∀ {P}, KeepsWithin limits P opened item) :
    KeepsWithin limits P opened (ByteParse.closedItems source limits close item) := by
  refine collect (fun _ => sees (fun _ => pure) (bind h fun _ => ?_)) ()
  exact accept rfl pure pure

/-- The further items of a list with commas. -/
theorem collect_commaTurn (h : ∀ {P}, KeepsWithin limits P opened item) :
    KeepsWithin limits P opened (ByteParse.collect source (commaTurn source limits item) ()) :=
  collect (fun _ => accept rfl (bind h fun _ => pure) pure) ()

/-- A list of at least one item. -/
theorem openItems (h : ∀ {P}, KeepsWithin limits P opened item) :
    KeepsWithin limits P opened (ByteParse.openItems source limits item) :=
  bind h fun _ => bind (collect_commaTurn h) fun _ => pure

/-- Any number of commas. -/
theorem skipCommas : KeepsWithin limits P opened (ByteParse.skipCommas source limits) :=
  bind (collect_commaTurn pure) fun _ => pure

end LeavesWithin

end ByteParse

end GenericIR
