/-
# Lists of the grammar

The lists of the grammar are read in turns, and every turn that goes on has gone past a
lexeme.  By induction on what is left, a list agrees with its phrase where its items do.

* `Parse.recognizes_itemsUntil`, `Parse.recognizes_closedItems`, `Parse.recognizes_openItems` :
  the kinds of lists.
-/
import GenericIR.Proofs.Recognition.Outcome

namespace GenericIR.Parse

section Lists

variable {α : Type} {fits : Nat → Prop} {item : Parse α} {R : Phrase α}

/-- Items up to a lookahead of some kinds. -/
theorem recognizes_itemsUntil (stops : List TokenKind) (hitem : Recognizes fits item R)
    (hadv : Advances Any item) :
    Recognizes fits (itemsUntil stops item) (Grammar.Until stops R) := by
  intro n p xs hp
  -- the items are read one by one, each of them nearer to the end of the text
  induction hk : p.left using Nat.strongRecOn generalizing p xs with
  | ind k ih =>
    subst hk
    obtain ⟨x, xs, rfl⟩ := hp.exists_cons
    rw [itemsUntil_eq stops hadv]
    refine .look hp ?_
    by_cases hx : x.kind ∈ stops
    · rw [if_pos hx]
      refine .pure hp fun as ys => ⟨fun h => ?_, ?_⟩
      · cases h with
        | done _ => exact ⟨rfl, rfl⟩
        | more hne _ _ => exact absurd hx hne
      · rintro ⟨rfl, rfl⟩
        exact .done hx
    · rw [if_neg hx]
      refine .congr (.bind (hitem hp) fun a q ys hq _ hat =>
        .map (a :: ·) (ih q.left (hadv p a q trivial hq) hat rfl)) fun bs zs => ⟨fun h => ?_, ?_⟩
      · cases h with
        | done hmem => exact absurd hmem hx
        | more _ hR hrest => exact ⟨_, _, hR, _, hrest, rfl⟩
      · rintro ⟨a, ys, hR, as, hrest, rfl⟩
        exact .more hx hR hrest

/-- Items with commas between them up to a closing bracket. -/
theorem recognizes_closedItems {close : TokenKind} (hitem : Recognizes fits item R)
    (hcomposed : Composed Any item) :
    Recognizes fits (closedItems close item) (Grammar.Closed close R) := by
  intro n p xs hp
  -- the list goes on only behind a comma, which is one lexeme nearer to the end
  induction hk : p.left using Nat.strongRecOn generalizing p xs with
  | ind k ih =>
    subst hk
    obtain ⟨x, xs, rfl⟩ := hp.exists_cons
    rw [closedItems_eq close hcomposed]
    refine .sees hp (fun hx => ?_) fun hx => ?_
    · refine .pure hp fun as ys => ⟨fun h => ?_, ?_⟩
      · cases h with
        | empty _ => exact ⟨rfl, rfl⟩
        | last hne _ _ => exact absurd hx hne
        | more hne _ _ _ => exact absurd hx hne
      · rintro ⟨rfl, rfl⟩
        exact .empty hx
    · let T (a : α) (ys : List Lexeme) (bs : List α) (zs : List Lexeme) : Prop :=
        ∃ y rest, ys = y :: rest ∧ ((y.kind ≠ .comma ∧ bs = [a] ∧ zs = ys) ∨
          (y.kind = .comma ∧ ∃ as, Grammar.Closed close R rest as zs ∧ bs = a :: as))
      refine .congr (.bind (T := T) (hitem hp) fun a q ys hq _ hat => ?_) fun bs zs =>
        ⟨fun h => ?_, ?_⟩
      · have hle := hcomposed.left_le hq
        obtain ⟨y, ys, rfl⟩ := hat.exists_cons
        refine .accept hat (by decide) (fun hy r hr hat' => ?_) fun hy => ?_
        · refine .congr (.map (a :: ·) (ih r.left (Nat.lt_of_lt_of_le hr hle) hat' rfl))
            fun bs zs => ⟨?_, ?_⟩
          · rintro ⟨_, _, hys, ⟨hne, _⟩ | ⟨_, h⟩⟩
            · cases hys
              exact absurd hy hne
            · cases hys
              exact h
          · exact fun h => ⟨_, _, rfl, Or.inr ⟨hy, h⟩⟩
        · refine .pure hat fun bs zs => ⟨?_, ?_⟩
          · rintro ⟨_, _, hys, ⟨_, rfl, rfl⟩ | ⟨hcomma, _⟩⟩
            · exact ⟨rfl, rfl⟩
            · cases hys
              exact absurd hcomma hy
          · rintro ⟨rfl, rfl⟩
            exact ⟨_, _, rfl, Or.inl ⟨hy, rfl, rfl⟩⟩
      · cases h with
        | empty heq => exact absurd heq hx
        | last _ hR hy => exact ⟨_, _, hR, _, _, rfl, Or.inl ⟨hy, rfl, rfl⟩⟩
        | more _ hR hy hrest => exact ⟨_, _, hR, _, _, rfl, Or.inr ⟨hy, _, hrest, rfl⟩⟩
      · rintro ⟨a, ys, hR, y, rest, rfl, ⟨hy, rfl, rfl⟩ | ⟨hy, as, has, rfl⟩⟩
        · exact .last hx hR hy
        · exact .more hx hR hy has

/-- Items with a comma before each of them. -/
theorem recognizes_further (hitem : Recognizes fits item R) (hcomposed : Composed Any item) :
    Recognizes fits (collect (commaTurn item) ()) (Grammar.Further R) := by
  intro n p xs hp
  induction hk : p.left using Nat.strongRecOn generalizing p xs with
  | ind k ih =>
    subst hk
    obtain ⟨x, xs, rfl⟩ := hp.exists_cons
    rw [collect_commaTurn_eq hcomposed]
    refine .accept hp (by decide) (fun hx q hlt hat => ?_) fun hx => ?_
    · refine .congr (.bind (hitem hat) fun a r ys hr _ hat' =>
        .map (a :: ·) (ih r.left (Nat.lt_of_le_of_lt (hcomposed.left_le hr) hlt) hat' rfl))
        fun bs zs => ⟨fun h => ?_, ?_⟩
      · cases h with
        | done hne => exact absurd hx hne
        | more _ hR hrest => exact ⟨_, _, hR, _, hrest, rfl⟩
      · rintro ⟨a, ys, hR, as, hrest, rfl⟩
        exact .more hx hR hrest
    · refine .pure hp fun bs zs => ⟨fun h => ?_, ?_⟩
      · cases h with
        | done _ => exact ⟨rfl, rfl⟩
        | more hcomma _ _ => exact absurd hcomma hx
      · rintro ⟨rfl, rfl⟩
        exact .done hx

/-- One item, and more after commas. -/
theorem recognizes_openItems (hitem : Recognizes fits item R) (hcomposed : Composed Any item) :
    Recognizes fits (openItems item) (Grammar.Bare R) := by
  intro n p xs hp
  refine .congr (.bind (hitem hp) fun a q ys _ _ hat =>
    .map (a :: ·) (recognizes_further hitem hcomposed hat)) fun bs zs => ⟨fun h => ?_, ?_⟩
  · cases h with
    | intro hR hrest => exact ⟨_, _, hR, _, hrest, rfl⟩
  · rintro ⟨a, ys, hR, as, hrest, rfl⟩
    exact .intro hR hrest

/-- A value with one lexeme of a kind behind it. -/
theorem Outcome.closing {n : Nat} {p : Parser} {xs : List Lexeme} {k : TokenKind} {a : α}
    (hp : p.At fits n xs) (hk : k ≠ .eof) :
    Outcome fits n (Parse.consume k >>= fun _ => Pure.pure a) p
      fun b ys => ∃ y, xs = y :: ys ∧ y.kind = k ∧ b = a := by
  obtain ⟨x, xs, rfl⟩ := hp.exists_cons
  refine .consume hp hk (fun hx b ys => ?_) fun hx _ _ h => .pure h fun b ys => ⟨?_, ?_⟩
  · rintro ⟨_, hxs, hkind, _⟩
    cases hxs
    exact hx hkind
  · rintro ⟨_, hxs, _, rfl⟩
    cases hxs
    exact ⟨rfl, rfl⟩
  · rintro ⟨rfl, rfl⟩
    exact ⟨x, rfl, hx, rfl⟩

/-- Items in parentheses, from behind the first of them. -/
theorem recognizes_enclosed {n : Nat} {p : Parser} {x : Lexeme} {xs : List Lexeme}
    (hitem : Recognizes fits item R) (hcomposed : Composed Any item) (hx : x.kind = .lparen)
    (hp : p.At fits n xs) :
    Outcome fits n (closedItems .rparen item >>= fun as => consume .rparen >>= fun _ => pure as)
      p (Grammar.Enclosed R (x :: xs)) := by
  refine .congr (.bind (recognizes_closedItems hitem hcomposed hp) fun as _ _ _ _ hat =>
    .closing hat (by decide)) fun bs zs => ⟨fun h => ?_, ?_⟩
  · cases h with
    | intro _ hclosed hy => exact ⟨_, _, hclosed, _, rfl, hy, rfl⟩
  · rintro ⟨as, ys, hclosed, y, rfl, hy, rfl⟩
    exact .intro hx hclosed hy

/-- Any number of commas. -/
theorem recognizes_skipCommas :
    Recognizes fits skipCommas fun xs (_ : Unit) ys => Grammar.Commas xs ys := by
  have hnothing : Recognizes fits (pure () : Parse Unit) fun xs (_ : Unit) ys => ys = xs :=
    fun hp => .pure hp fun _ _ => ⟨fun h => ⟨rfl, h⟩, And.right⟩
  have hcommas : ∀ xs ys, Grammar.Commas xs ys ↔
      ∃ units, Grammar.Further (fun xs (_ : Unit) ys => ys = xs) xs units ys := by
    intro xs ys
    constructor
    · intro h
      induction h with
      | done hx => exact ⟨[], .done hx⟩
      | more hx _ ih =>
          obtain ⟨units, hunits⟩ := ih
          exact ⟨() :: units, .more hx rfl hunits⟩
    · rintro ⟨units, h⟩
      induction h with
      | done hx => exact .done hx
      | more hx heq _ ih => exact .more hx (heq ▸ ih)
  intro n p xs hp
  refine .congr (.map _ (recognizes_further hnothing (.pure _) hp)) fun u ys => ⟨fun h => ?_, ?_⟩
  · obtain ⟨units, hunits⟩ := (hcommas xs ys).mp h
    exact ⟨units, hunits, rfl⟩
  · rintro ⟨units, hunits, _⟩
    exact (hcommas xs _).mpr ⟨units, hunits⟩

end Lists

end GenericIR.Parse
