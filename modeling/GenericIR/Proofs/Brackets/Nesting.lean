/-
# The nesting of brackets

A bracket of a token kind closes another one where it is of the same sort.  The tokens that a
parser has gone past are nested by the roles they have.  A bracket of the structure closes the
bracket of the structure that was opened last, which has to be of its own sort.  The brackets of
an attribute value only close in number, and between the brackets of a capture only those of the
sort of its own are counted.

* `ProperlyNested` : every bracket closes the one opened last, and none is left open;
* `Nested` : the same for the brackets of the structure, with what is asked of the others;
* `Nested.properlyNested` : the tokens of the structure alone are properly nested;
* `NestedWithin` : nested marks, with a bound on how many brackets are open at a time.
-/
import GenericIR.Proofs.Bytes.Parser

namespace GenericIR

/-! ## Brackets in order -/

/-- The kind that closes an opening bracket. -/
def TokenKind.closing? : TokenKind → Option TokenKind
  | .lparen => some .rparen
  | .lbracket => some .rbracket
  | .lbrace => some .rbrace
  | _ => none

/-- The brackets that are open behind a token, each given by the kind that closes it and the
latest first.  A closing bracket has to close the one opened last. -/
def openAfter? (opened : List TokenKind) (k : TokenKind) : Option (List TokenKind) :=
  match k.closing? with
  | some closing => some (closing :: opened)
  | none =>
    if k.isCloseBracket then
      match opened with
      | [] => none
      | closing :: opened => if closing = k then some opened else none
    else some opened

/-- Whether every closing bracket closes the bracket that was opened last, of its own sort, and
no bracket is left open. -/
def ProperlyNested (kinds : List TokenKind) : Prop := kinds.foldlM openAfter? [] = some []

instance (kinds : List TokenKind) : Decidable (ProperlyNested kinds) :=
  inferInstanceAs (Decidable (_ = _))

/-- An opening bracket is opened. -/
theorem openAfter?_opening {k closing : TokenKind} (h : k.closing? = some closing)
    (opened : List TokenKind) : openAfter? opened k = some (closing :: opened) := by
  unfold openAfter?
  rw [h]

/-- The kind that closes a bracket closes it where it was opened last. -/
theorem openAfter?_closing {k closing : TokenKind} (h : k.closing? = some closing)
    (opened : List TokenKind) : openAfter? (closing :: opened) closing = some opened := by
  cases k <;> cases h <;> rfl

/-! ## Brackets in number -/

/-- How many brackets are open behind a token, where only the brackets of some kinds count.  A
closing bracket has to close one that is open. -/
def depthAfter? (opens closes : TokenKind → Bool) (depth : Nat) (k : TokenKind) : Option Nat :=
  if opens k then some (depth + 1)
  else if closes k then if depth = 0 then none else some (depth - 1)
  else some depth

/-- Whether the brackets of some kinds close in number, behind some that are open already: at no
token have more been closed than opened, and in the end as many. -/
def ClosesInNumber (opens closes : TokenKind → Bool) (depth : Nat) (kinds : List TokenKind) :
    Prop :=
  kinds.foldlM (depthAfter? opens closes) depth = some 0

/-- How many brackets are open behind a token, where no more than a bound may be. -/
def depthWithin? (max : Nat) (opens closes : TokenKind → Bool) (depth : Nat) (k : TokenKind) :
    Option Nat :=
  if opens k then if depth < max then some (depth + 1) else none
  else depthAfter? opens closes depth k

/-- Whether the brackets of some kinds close in number, and no more than a bound are open at any
token. -/
def ClosesWithin (max : Nat) (opens closes : TokenKind → Bool) (depth : Nat)
    (kinds : List TokenKind) : Prop :=
  kinds.foldlM (depthWithin? max opens closes) depth = some 0

section ClosesWithin

variable {max : Nat} {opens closes : TokenKind → Bool} {depth next : Nat} {k : TokenKind}
  {kinds : List TokenKind}

/-- No brackets close in number. -/
theorem closesWithin_nil : ClosesWithin max opens closes 0 [] := rfl

/-- A bracket that is opened has to be closed. -/
theorem ClosesWithin.opening (hk : opens k) (hdepth : depth < max)
    (h : ClosesWithin max opens closes (depth + 1) kinds) :
    ClosesWithin max opens closes depth (k :: kinds) := by
  rw [ClosesWithin, List.foldlM_cons, depthWithin?, if_pos hk, if_pos hdepth]
  exact h

/-- A bracket closes one of those that are open. -/
theorem ClosesWithin.closing (hopen : ¬ opens k) (hk : closes k) (hdepth : depth ≠ 0)
    (h : ClosesWithin max opens closes (depth - 1) kinds) :
    ClosesWithin max opens closes depth (k :: kinds) := by
  rw [ClosesWithin, List.foldlM_cons, depthWithin?, depthAfter?, if_neg hopen, if_neg hopen,
    if_pos hk, if_neg hdepth]
  exact h

/-- Any other token does not count. -/
theorem ClosesWithin.other (hopen : ¬ opens k) (hclose : ¬ closes k)
    (h : ClosesWithin max opens closes depth kinds) :
    ClosesWithin max opens closes depth (k :: kinds) := by
  rw [ClosesWithin, List.foldlM_cons, depthWithin?, depthAfter?, if_neg hopen, if_neg hopen,
    if_neg hclose]
  exact h

/-- A depth within a bound is the depth without it. -/
theorem depthAfter?_of_depthWithin? (h : depthWithin? max opens closes depth k = some next) :
    depthAfter? opens closes depth k = some next := by
  unfold depthWithin? at h
  split at h
  · next hk =>
      split at h
      · rw [depthAfter?, if_pos hk]
        exact h
      · cases h
  · exact h

/-- Brackets that close in number within a bound close in number. -/
theorem ClosesWithin.closesInNumber (h : ClosesWithin max opens closes depth kinds) :
    ClosesInNumber opens closes depth kinds := by
  induction kinds generalizing depth with
  | nil => exact h
  | cons k kinds ih =>
      rw [ClosesWithin, List.foldlM_cons, Option.bind_eq_bind, Option.bind_eq_some_iff] at h
      obtain ⟨next, hnext, hlater⟩ := h
      rw [ClosesInNumber, List.foldlM_cons, depthAfter?_of_depthWithin? hnext]
      exact ih hlater

end ClosesWithin

/-! ## Brackets by role -/

/-- The kind of the token of a mark. -/
def Mark.kind (m : Mark) : TokenKind := m.token.kind

/-- Marks whose brackets are nested, behind brackets of the structure that are open and before
those that are open then.  A bracket of the structure closes the one opened last.  The brackets of
an attribute value close in number, whatever their kinds.  Right inside a bracket of the
structure, of a capture only the brackets of the sort of that bracket have to close. -/
inductive Nested : List TokenKind → List Mark → List TokenKind → Prop where
  | nil {opened : List TokenKind} : Nested opened [] opened
  | append {opened between after : List TokenKind} {front back : List Mark}
      (hfront : Nested opened front between) (hback : Nested between back after) :
      Nested opened (front ++ back) after
  | structural {opened after : List TokenKind} {m : Mark} (hrole : m.role = .structural)
      (h : openAfter? opened m.kind = some after) : Nested opened [m] after
  | value {opened : List TokenKind} {run : List Mark} (hrole : ∀ m ∈ run, m.role = .value)
      (h : ClosesInNumber TokenKind.isOpenBracket TokenKind.isCloseBracket 0
        (run.map Mark.kind)) : Nested opened run opened
  | captured {opening closing : TokenKind} {opened : List TokenKind} {run : List Mark}
      (hclosing : opening.closing? = some closing) (hrole : ∀ m ∈ run, m.role = .captured)
      (h : ClosesInNumber (· == opening) (· == closing) 0 (run.map Mark.kind)) :
      Nested (closing :: opened) run (closing :: opened)

/-- Whether a mark is of the structure. -/
def Mark.isStructural (m : Mark) : Bool := decide (m.role = .structural)

/-- Marks of another role leave no tokens of the structure. -/
theorem filter_isStructural_eq_nil {role : Role} {run : List Mark}
    (hrole : ∀ m ∈ run, m.role = role) (h : role ≠ .structural) :
    run.filter Mark.isStructural = [] := by
  rw [List.filter_eq_nil_iff]
  intro m hm
  rw [Mark.isStructural, hrole m hm, decide_eq_false h]
  exact Bool.false_ne_true

/-- Nested marks open and close the brackets of the structure in order. -/
theorem Nested.foldlM_eq {opened after : List TokenKind} {marks : List Mark}
    (h : Nested opened marks after) :
    ((marks.filter Mark.isStructural).map Mark.kind).foldlM openAfter? opened = some after := by
  induction h with
  | nil => rfl
  | append _ _ ihfront ihback =>
      rw [List.filter_append, List.map_append, List.foldlM_append, ihfront]
      exact ihback
  | @structural opened after m hrole h =>
      have hfilter : [m].filter Mark.isStructural = [m] :=
        List.filter_eq_self.mpr (by simp [Mark.isStructural, hrole])
      rw [hfilter, List.map_singleton, List.foldlM_cons, h]
      rfl
  -- marks of another role are filtered out, so they open and close nothing
  | value hrole _ =>
      rw [filter_isStructural_eq_nil hrole (by decide)]
      rfl
  | captured _ hrole _ =>
      rw [filter_isStructural_eq_nil hrole (by decide)]
      rfl

/-- The tokens of the structure among nested marks are properly nested. -/
theorem Nested.properlyNested {marks : List Mark} (h : Nested [] marks []) :
    ProperlyNested ((marks.filter Mark.isStructural).map Mark.kind) := h.foldlM_eq

/-! ## Brackets by role, within a bound -/

/-- The brackets of the structure that are open behind a mark, and how many others are open in its
attribute value or its capture.  No more than a bound may be open in an attribute value.  In a
capture those of the sort of its own bracket count, and that bracket is one of them. -/
def levelAfter? (max : Nat) : List TokenKind × Nat → Mark → Option (List TokenKind × Nat)
  | (opened, depth), ⟨.structural, t⟩ =>
    if depth = 0 then (openAfter? opened t.kind).map fun after => (after, 0) else none
  | (opened, depth), ⟨.value, t⟩ =>
    (depthWithin? max TokenKind.isOpenBracket TokenKind.isCloseBracket depth t.kind).map
      fun next => (opened, next)
  | (closing :: opened, depth), ⟨.captured, t⟩ =>
    (depthWithin? (max - 1) (·.closing? == some closing) (· == closing) depth t.kind).map
      fun next => (closing :: opened, next)
  | ([], _), ⟨.captured, _⟩ => none

/-- Marks whose brackets are nested, and of which no more than a bound are open at a time in an
attribute value or a capture. -/
structure NestedWithin (max : Nat) (opened : List TokenKind) (marks : List Mark)
    (after : List TokenKind) : Prop where
  nested : Nested opened marks after
  level : marks.foldlM (levelAfter? max) (opened, 0) = some (after, 0)

/-- Two kinds of opening brackets that the same kind closes are one kind. -/
theorem closing?_beq {opening closing : TokenKind} (h : opening.closing? = some closing)
    (k : TokenKind) : (k.closing? == some closing) = (k == opening) := by
  cases opening <;> cases h <;> cases k <;> rfl

/-- Marks of one role change the depth alone. -/
theorem foldlM_levelAfter? {max bound : Nat} {opens closes : TokenKind → Bool}
    {opened : List TokenKind} {run : List Mark}
    (hstep : ∀ m ∈ run, ∀ depth, levelAfter? max (opened, depth) m =
      (depthWithin? bound opens closes depth m.kind).map fun next => (opened, next)) (depth : Nat) :
    run.foldlM (levelAfter? max) (opened, depth) =
      ((run.map Mark.kind).foldlM (depthWithin? bound opens closes) depth).map
        fun next => (opened, next) := by
  induction run generalizing depth with
  | nil => rfl
  | cons m run ih =>
      obtain ⟨hm, hrun⟩ := List.forall_mem_cons.mp hstep
      rw [List.foldlM_cons, hm, List.map_cons, List.foldlM_cons]
      cases depthWithin? bound opens closes depth m.kind with
      | none => rfl
      | some next => exact ih hrun next

/-- A mark of an attribute value changes the depth of all brackets. -/
theorem levelAfter?_value {m : Mark} (hrole : m.role = .value) (max : Nat)
    (opened : List TokenKind) (depth : Nat) : levelAfter? max (opened, depth) m =
      (depthWithin? max TokenKind.isOpenBracket TokenKind.isCloseBracket depth m.kind).map
        fun next => (opened, next) := by
  obtain ⟨role, t⟩ := m
  obtain rfl : role = .value := hrole
  cases opened <;> rfl

/-- A mark of a capture changes the depth of the brackets of its sort. -/
theorem levelAfter?_captured {m : Mark} {opening closing : TokenKind} (hrole : m.role = .captured)
    (hclosing : opening.closing? = some closing) (max : Nat) (opened : List TokenKind)
    (depth : Nat) : levelAfter? max (closing :: opened, depth) m =
      (depthWithin? (max - 1) (· == opening) (· == closing) depth m.kind).map
        fun next => (closing :: opened, next) := by
  obtain ⟨role, t⟩ := m
  obtain rfl : role = .captured := hrole
  rw [levelAfter?, funext (closing?_beq hclosing)]
  rfl

namespace NestedWithin

variable {max : Nat} {opened between after : List TokenKind} {front back run : List Mark}

/-- No marks. -/
theorem nil : NestedWithin max opened [] opened := ⟨.nil, rfl⟩

/-- Marks behind others. -/
theorem append (hfront : NestedWithin max opened front between)
    (hback : NestedWithin max between back after) :
    NestedWithin max opened (front ++ back) after := by
  refine ⟨.append hfront.nested hback.nested, ?_⟩
  rw [List.foldlM_append, hfront.level]
  exact hback.level

/-- A mark of the structure. -/
theorem structural {m : Mark} (hrole : m.role = .structural)
    (h : openAfter? opened m.kind = some after) : NestedWithin max opened [m] after := by
  refine ⟨.structural hrole h, ?_⟩
  obtain ⟨role, t⟩ := m
  obtain rfl : role = .structural := hrole
  rw [List.foldlM_cons, levelAfter?, if_pos rfl, show openAfter? opened t.kind = some after from h]
  rfl

/-- The marks of an attribute value. -/
theorem value (hrole : ∀ m ∈ run, m.role = .value)
    (h : ClosesWithin max TokenKind.isOpenBracket TokenKind.isCloseBracket 0 (run.map Mark.kind)) :
    NestedWithin max opened run opened := by
  refine ⟨.value hrole h.closesInNumber, ?_⟩
  rw [foldlM_levelAfter? fun m hm depth => levelAfter?_value (hrole m hm) max opened depth, h]
  rfl

/-- The marks between the brackets of a capture. -/
theorem captured {opening closing : TokenKind} (hclosing : opening.closing? = some closing)
    (hrole : ∀ m ∈ run, m.role = .captured)
    (h : ClosesWithin (max - 1) (· == opening) (· == closing) 0 (run.map Mark.kind)) :
    NestedWithin max (closing :: opened) run (closing :: opened) := by
  refine ⟨.captured hclosing hrole h.closesInNumber, ?_⟩
  rw [foldlM_levelAfter? fun m hm depth =>
    levelAfter?_captured (hrole m hm) hclosing max opened depth, h]
  rfl

end NestedWithin

end GenericIR
