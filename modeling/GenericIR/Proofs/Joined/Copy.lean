/-
# Lexemes that stand in another run

Lexemes at the front of a run may stand in front of other lexemes in another one.  They are
copied where they are the same with the same gaps before them, whatever their places.  They are
moved where the first of them may stand behind another gap.  Behind them both runs go on with
lookaheads in some relation.

* `Copied.split`, `Moved.split` : lexemes are copied in two steps;
* `Copied.before`, `Moved.before` : a lexeme inside is the same in both runs;
* `startsAlike_same`, `opensAlike_same` : lookaheads that are the same start the same parts.
-/
import GenericIR.Proofs.Layout.Agreement

namespace GenericIR

/-- Lexemes that are the same, with the same gap before them. -/
structure Lexeme.Twin (x x' : Lexeme) : Prop where
  same : x.Same x'
  gap : x.gap = x'.gap

/-- Lexemes from a run to what is left of it, which stand with the same gaps in another run that
goes on with a lookahead in a relation. -/
inductive Copied (H : Lexeme → Lexeme → Prop) :
    List Lexeme → List Lexeme → List Lexeme → List Lexeme → Prop where
  | here {y y' : Lexeme} {ys ys' : List Lexeme} (h : H y y') :
      Copied H (y :: ys) (y :: ys) (y' :: ys') (y' :: ys')
  | cons {x x' : Lexeme} {xs ys xs' ys' : List Lexeme} (hx : x.Twin x')
      (h : Copied H xs ys xs' ys') : Copied H (x :: xs) ys (x' :: xs') ys'

/-- Lexemes from a run to what is left of it, which stand in another run that goes on with a
lookahead in a relation; the gap before the first of them may be another one there. -/
inductive Moved (H : Lexeme → Lexeme → Prop) :
    List Lexeme → List Lexeme → List Lexeme → List Lexeme → Prop where
  | here {y y' : Lexeme} {ys ys' : List Lexeme} (h : H y y') :
      Moved H (y :: ys) (y :: ys) (y' :: ys') (y' :: ys')
  | cons {x x' : Lexeme} {xs ys xs' ys' : List Lexeme} (hx : x.Same x')
      (h : Copied H xs ys xs' ys') : Moved H (x :: xs) ys (x' :: xs') ys'

/-- A relation of lookaheads that relates those that are the same. -/
abbrev KeepsSame (H : Lexeme → Lexeme → Prop) : Prop := ∀ {x x' : Lexeme}, x.Same x' → H x x'

variable {H : Lexeme → Lexeme → Prop} {x w : Lexeme} {xs ys ws xs' ys' : List Lexeme}

/-- A run is not the end of what is behind its first lexeme. -/
theorem not_cons_suffix (x : Lexeme) (xs : List Lexeme) : ¬ x :: xs <:+ xs := fun h =>
  Nat.not_succ_le_self xs.length h.length_le

/-! ## Copied lexemes -/

namespace Copied

/-- What is left is the end of the run. -/
theorem suffix (h : Copied H xs ys xs' ys') : ys <:+ xs := by
  induction h with
  | here _ => exact List.suffix_rfl
  | cons _ _ ih => exact ih.trans (List.suffix_cons _ _)

/-- Copied lexemes are moved. -/
theorem moved (h : Copied H xs ys xs' ys') : Moved H xs ys xs' ys' := by
  cases h with
  | here h => exact .here h
  | cons hx h => exact .cons hx.same h

/-- Lexemes are copied in two steps. -/
theorem split (hH : KeepsSame H) (h : Copied H xs ys xs' ys') (hws : ws <:+ xs)
    (hys : ys <:+ ws) : ∃ ws', Copied H xs ws xs' ws' ∧ Copied H ws ys ws' ys' := by
  induction h with
  | @here y y' ys ys' h =>
      obtain rfl : ws = y :: ys := hws.eq_of_length_le hys.length_le
      exact ⟨_, .here h, .here h⟩
  | @cons x x' xs ys xs' ys' hx h ih =>
      rcases List.suffix_cons_iff.mp hws with rfl | hws
      · exact ⟨_, .here (hH hx.same), .cons hx h⟩
      · obtain ⟨ws', hfront, hback⟩ := ih hws hys
        exact ⟨ws', .cons hx hfront, hback⟩

/-- A lexeme inside has its copy, with lexemes copied up to it and behind it. -/
theorem before (h : Copied H xs ys xs' ys') (hws : w :: ws <:+ xs) (hys : ys <:+ ws) :
    ∃ w' ws', Copied Lexeme.Same xs (w :: ws) xs' (w' :: ws') ∧ w.Twin w' ∧
      Copied H ws ys ws' ys' := by
  induction h with
  | here _ => exact absurd (hws.trans hys) (not_cons_suffix _ _)
  | @cons x x' xs ys xs' ys' hx h ih =>
      rcases List.suffix_cons_iff.mp hws with heq | hws
      · obtain ⟨rfl, rfl⟩ := List.cons.inj heq
        exact ⟨_, _, .here hx.same, hx, h⟩
      · obtain ⟨w', ws', hfront, hw, hback⟩ := ih hws hys
        exact ⟨w', ws', .cons hx hfront, hw, hback⟩

/-- More lookaheads may be related. -/
theorem mono {K : Lexeme → Lexeme → Prop} (h : Copied H xs ys xs' ys')
    (hK : ∀ {x x' : Lexeme}, H x x' → K x x') : Copied K xs ys xs' ys' := by
  induction h with
  | here h => exact .here (hK h)
  | cons hx _ ih => exact .cons hx ih

/-- The first lexeme has its copy, where it is gone past. -/
theorem past (h : Copied H (x :: xs) ys xs' ys') (hys : ys <:+ xs) :
    ∃ x' zs', xs' = x' :: zs' ∧ x.Twin x' ∧ Copied H xs ys zs' ys' := by
  cases h with
  | here _ => exact absurd hys (not_cons_suffix _ _)
  | cons hx h => exact ⟨_, _, rfl, hx, h⟩

/-- Where nothing is copied, both runs go on with their lookaheads. -/
theorem nothing (h : Copied H xs xs xs' ys') : xs' = ys' := by
  cases h with
  | here _ => rfl
  | cons _ h => exact absurd h.suffix (not_cons_suffix _ _)

/-- The last lexeme that is gone past has its copy. -/
theorem upTo (h : Copied H xs ys xs' ys') (hw : w :: ys <:+ xs) :
    ∃ w', Copied Lexeme.Same xs (w :: ys) xs' (w' :: ys') ∧ w.Twin w' := by
  obtain ⟨w', ws', hfront, htwin, hback⟩ := h.before hw List.suffix_rfl
  obtain rfl := hback.nothing
  exact ⟨w', hfront, htwin⟩

end Copied

/-! ## Moved lexemes -/

namespace Moved

/-- What is left is the end of the run. -/
theorem suffix (h : Moved H xs ys xs' ys') : ys <:+ xs := by
  cases h with
  | here _ => exact List.suffix_rfl
  | cons _ h => exact h.suffix.trans (List.suffix_cons _ _)

/-- Lexemes are moved in two steps. -/
theorem split (hH : KeepsSame H) (h : Moved H xs ys xs' ys') (hws : ws <:+ xs)
    (hys : ys <:+ ws) : ∃ ws', Moved H xs ws xs' ws' ∧ Moved H ws ys ws' ys' := by
  cases h with
  | here h =>
      obtain rfl := hws.eq_of_length_le hys.length_le
      exact ⟨_, .here h, .here h⟩
  | cons hx h =>
      rcases List.suffix_cons_iff.mp hws with rfl | hws
      · exact ⟨_, .here (hH hx), .cons hx h⟩
      · obtain ⟨ws', hfront, hback⟩ := h.split hH hws hys
        exact ⟨ws', .cons hx hfront, hback.moved⟩

/-- A lexeme inside is the same in both runs, with lexemes moved up to it and copied behind it. -/
theorem before (h : Moved H xs ys xs' ys') (hws : w :: ws <:+ xs) (hys : ys <:+ ws) :
    ∃ w' ws', Moved Lexeme.Same xs (w :: ws) xs' (w' :: ws') ∧ w.Same w' ∧
      Copied H ws ys ws' ys' := by
  cases h with
  | here _ => exact absurd (hws.trans hys) (not_cons_suffix _ _)
  | cons hx h =>
      rcases List.suffix_cons_iff.mp hws with heq | hws
      · obtain ⟨rfl, rfl⟩ := List.cons.inj heq
        exact ⟨_, _, .here hx, hx, h⟩
      · obtain ⟨w', ws', hfront, hw, hback⟩ := h.before hws hys
        exact ⟨w', ws', .cons hx hfront, hw.same, hback⟩

/-- Lexemes are moved in two steps, the lookahead between them the same where it is gone past. -/
theorem split_before (h : Moved H xs ys xs' ys') (hws : w :: ws <:+ xs) (hys : ys <:+ ws) :
    ∃ ws', Moved Lexeme.Same xs (w :: ws) xs' ws' ∧ Moved H (w :: ws) ys ws' ys' := by
  obtain ⟨w', ws', hfront, hw, hback⟩ := h.before hws hys
  exact ⟨w' :: ws', hfront, .cons hw hback⟩

/-- The first lexeme is the same in both runs, where it is gone past. -/
theorem past (h : Moved H (x :: xs) ys xs' ys') (hys : ys <:+ xs) :
    ∃ x' zs', xs' = x' :: zs' ∧ x.Same x' ∧ Copied H xs ys zs' ys' := by
  cases h with
  | here _ => exact absurd hys (not_cons_suffix _ _)
  | cons hx h => exact ⟨_, _, rfl, hx, h⟩

/-- One lexeme that is gone past is the same in both runs. -/
theorem past_one (h : Moved H (x :: xs) xs xs' ys') : ∃ x', xs' = x' :: ys' ∧ x.Same x' := by
  obtain ⟨x', zs', rfl, hx, hrest⟩ := h.past List.suffix_rfl
  obtain rfl := hrest.nothing
  exact ⟨x', rfl, hx⟩

/-- Where nothing is moved, both runs go on with lookaheads in the relation. -/
theorem nothing (h : Moved H (x :: xs) (x :: xs) xs' ys') :
    ∃ x' zs', xs' = x' :: zs' ∧ ys' = x' :: zs' ∧ H x x' := by
  cases h with
  | here h => exact ⟨_, _, rfl, rfl, h⟩
  | cons _ h => exact absurd h.suffix (not_cons_suffix _ _)

/-- The lookaheads behind the lexemes that are moved are in the relation. -/
theorem ending {y : Lexeme} (hH : KeepsSame H) (h : Moved H xs (y :: ys) xs' ys') :
    ∃ y' zs', ys' = y' :: zs' ∧ H y y' := by
  obtain ⟨_, _, hback⟩ := h.split hH h.suffix List.suffix_rfl
  obtain ⟨y', zs', _, rfl, hy⟩ := hback.nothing
  exact ⟨y', zs', rfl, hy⟩

/-- More lookaheads may be related. -/
theorem mono {K : Lexeme → Lexeme → Prop} (h : Moved H xs ys xs' ys')
    (hK : ∀ {x x' : Lexeme}, H x x' → K x x') : Moved K xs ys xs' ys' := by
  cases h with
  | here h => exact .here (hK h)
  | cons hx h => exact .cons hx (h.mono hK)

/-- The first lexeme is related to the first one of the other run. -/
theorem head (hH : KeepsSame H) (h : Moved H (x :: xs) ys xs' ys') :
    ∃ x' zs', xs' = x' :: zs' ∧ H x x' := by
  cases h with
  | here h => exact ⟨_, _, rfl, h⟩
  | cons hx _ => exact ⟨_, _, rfl, hH hx⟩

end Moved

/-! ## Lookaheads that end the same parts -/

/-- A relation of lookaheads that start the same parts of an operation: a dictionary or a body,
types, a callee, a location, and a further item of a list. -/
structure StartsAlike (H : Lexeme → Lexeme → Prop) : Prop where
  same : KeepsSame H
  kind : ∀ {x x' : Lexeme}, H x x' →
    ∀ k ∈ [TokenKind.comma, .lbrace, .colon, .arrow, .symbolRefId, .keyword],
      x.kind = k ↔ x'.kind = k
  text : ∀ {x x' : Lexeme}, H x x' → x.kind = .keyword → x.Same x'

/-- A relation of lookaheads that start the same parts of an operation, but for a location. -/
structure OpensAlike (H : Lexeme → Lexeme → Prop) : Prop where
  same : KeepsSame H
  kind : ∀ {x x' : Lexeme}, H x x' →
    ∀ k ∈ [TokenKind.comma, .lbrace, .colon, .arrow, .symbolRefId], x.kind = k ↔ x'.kind = k

/-- Lookaheads that start the same parts do so but for a location too. -/
theorem StartsAlike.opensAlike (hH : StartsAlike H) : OpensAlike H where
  same := hH.same
  kind h k hk := hH.kind h k (List.mem_append_left [TokenKind.keyword] hk)

/-- Lexemes that are the same start the same parts. -/
theorem startsAlike_same : StartsAlike Lexeme.Same where
  same h := h
  kind h k _ := by rw [h.kind]
  text h _ := h

/-- Lexemes that are the same start the same parts but for a location. -/
theorem opensAlike_same : OpensAlike Lexeme.Same := startsAlike_same.opensAlike

end GenericIR
