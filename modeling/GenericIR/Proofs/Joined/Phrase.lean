/-
# Phrases that stand in another run

A phrase reads the lexemes that it takes and looks at the one behind them.  Where its lexemes are
moved to another run, and the lookahead there starts the same parts, it is a phrase with the same
value there.

* `Optionally.moved`, `Until.moved`, `Enclosed.moved` : the ways of putting phrases together;
* `Until.append_moved` : items in front of further items;
* `IsDictionary.moved`, `IsCaptured.moved`, `IsLocation.moved` : the parts in brackets.
-/
import GenericIR.Proofs.Joined.Copy
import GenericIR.Proofs.Layout.Grammar
import GenericIR.Proofs.Remainder

namespace GenericIR

namespace Grammar

variable {α : Type} {H : Lexeme → Lexeme → Prop} {xs ys xs' ys' : List Lexeme}

/-- A phrase that has the same value where its lexemes are moved. -/
abbrev Moves (H : Lexeme → Lexeme → Prop) (part : Phrase α) : Prop :=
  ∀ {xs : List Lexeme} {a : α} {ys xs' ys' : List Lexeme},
    part xs a ys → Moved H xs ys xs' ys' → part xs' a ys'

/-! ## Parts and lists -/

/-- A part that may be missing, where the lookaheads start it alike. -/
theorem Optionally.moved {starts : Lexeme → Prop} {part : Phrase α} {a : Option α}
    (hH : KeepsSame H) (hstarts : ∀ {x x' : Lexeme}, H x x' → (starts x ↔ starts x'))
    (hpart : Moves H part) (h : Optionally starts part xs a ys) (hm : Moved H xs ys xs' ys') :
    Optionally starts part xs' a ys' := by
  cases h with
  | present hx h =>
      obtain ⟨x', zs', rfl, hxx'⟩ := hm.head hH
      exact .present ((hstarts hxx').mp hx) (hpart h hm)
  | missing hx =>
      obtain ⟨x', zs', rfl, rfl, hxx'⟩ := hm.nothing
      exact .missing fun hx' => hx ((hstarts hxx').mpr hx')

/-- A part behind a lexeme. -/
theorem After.moved {kind : TokenKind} {part : Phrase α} {a : α} (hsuffix : LeavesSuffix part)
    (hpart : Moves H part) (h : After kind part xs a ys) (hm : Moved H xs ys xs' ys') :
    After kind part xs' a ys' := by
  cases h with
  | intro hx h =>
      obtain ⟨x', zs', rfl, hxx', hrest⟩ := hm.past (hsuffix h)
      exact .intro (hxx'.kind ▸ hx) (hpart h hrest.moved)

/-- Items up to some kinds of lookahead. -/
theorem Until.moved {stops : List TokenKind} {item : Phrase α} {as : List α}
    (hsuffix : LeavesSuffix item) (hitem : Moves Lexeme.Same item)
    (h : Until stops item xs as ys) (hm : Moved Lexeme.Same xs ys xs' ys') :
    Until stops item xs' as ys' := by
  induction h generalizing xs' with
  | done hx =>
      obtain ⟨x', zs', rfl, rfl, hxx'⟩ := hm.nothing
      exact .done (hxx'.kind ▸ hx)
  | more hx h hrest ih =>
      obtain ⟨x', zs', rfl, hxx'⟩ := hm.head id
      obtain ⟨ws', hfront, hback⟩ := hm.split id (hsuffix h) (hrest.suffix hsuffix)
      exact .more (hxx'.kind ▸ hx) (hitem h hfront) (ih hback)

/-- Items one after the other, whatever the lookahead behind them. -/
inductive Successive (item : Phrase α) : Phrase (List α) where
  | nil {xs : List Lexeme} : Successive item xs [] xs
  | cons {xs ys zs : List Lexeme} {a : α} {as : List α} (h : item xs a ys)
      (hrest : Successive item ys as zs) : Successive item xs (a :: as) zs

/-- Items in front of further items.  The last of them has to stay the same before the lookahead
that is there in place of the one that ended it. -/
theorem Until.append_moved {stops : List TokenKind} {item : Phrase α} {as bs : List α}
    {zs : List Lexeme} (htail : ∀ {x : Lexeme} {xs : List Lexeme} {a : α} {ys : List Lexeme},
      item (x :: xs) a ys → ys <:+ xs)
    (hsuffix : LeavesSuffix item) (hitem : Moves Lexeme.Same item)
    (h : Until stops item xs as ys)
    (hlast : ∀ {front : List α} {a : α} {ws ws' : List Lexeme}, as = front ++ [a] →
      Successive item xs front ws → item ws a ys → Moved H ws ys ws' ys' → item ws' a ys')
    (hm : Moved H xs ys xs' ys') (hmore : Until stops item ys' bs zs) :
    Until stops item xs' (as ++ bs) zs := by
  induction h generalizing xs' with
  | done hx =>
      obtain ⟨x', zs', rfl, rfl, _⟩ := hm.nothing
      exact hmore
  | more hx h hrest ih =>
      have hbehind := hrest.suffix hsuffix
      obtain ⟨x', zs', rfl, hxx', _⟩ := hm.past (hbehind.trans (htail h))
      cases hrest with
      | done _ => exact .more (hxx'.kind ▸ hx) (@hlast [] _ _ _ rfl .nil h hm) hmore
      | more hw hnext hlater =>
          have hleft := (hlater.suffix hsuffix).trans (htail hnext)
          obtain ⟨ws', hfront, hback⟩ := hm.split_before (hsuffix h) hleft
          refine .more (hxx'.kind ▸ hx) (hitem h hfront) (ih ?_ hback)
          exact fun heq hreach => hlast (heq ▸ rfl) (.cons h hreach)

/-- Items up to a closing bracket. -/
theorem Closed.moved {close : TokenKind} {item : Phrase α} {as : List α}
    (hsuffix : LeavesSuffix item) (hitem : Moves Lexeme.Same item)
    (h : Closed close item xs as ys) (hm : Moved Lexeme.Same xs ys xs' ys') :
    Closed close item xs' as ys' := by
  induction h generalizing xs' with
  | empty hx =>
      obtain ⟨x', zs', rfl, rfl, hxx'⟩ := hm.nothing
      exact .empty (hxx'.kind ▸ hx)
  | last hx h hy =>
      obtain ⟨x', zs', rfl, hxx'⟩ := hm.head id
      obtain ⟨y', ws', rfl, hyy'⟩ := hm.ending id
      exact .last (hxx'.kind ▸ hx) (hitem h hm) (hyy'.kind ▸ hy)
  | more hx h hy hrest ih =>
      obtain ⟨x', zs', rfl, hxx'⟩ := hm.head id
      obtain ⟨y', ws', hfront, hyy', hback⟩ := hm.before (hsuffix h) (hrest.suffix hsuffix)
      exact .more (hxx'.kind ▸ hx) (hitem h hfront) (hyy'.kind ▸ hy) (ih hback.moved)

/-- Items in parentheses, whatever is behind them. -/
theorem Enclosed.moved {item : Phrase α} {as : List α} (hsuffix : LeavesSuffix item)
    (hitem : Moves Lexeme.Same item) (h : Enclosed item xs as ys) (hm : Moved H xs ys xs' ys') :
    Enclosed item xs' as ys' := by
  cases h with
  | intro hx h hy =>
      have hclosed := h.suffix hsuffix
      obtain ⟨x', zs', rfl, hxx', hrest⟩ := hm.past ((List.suffix_cons _ _).trans hclosed)
      obtain ⟨y', hinside, hyy'⟩ := hrest.upTo hclosed
      exact .intro (hxx'.kind ▸ hx) (h.moved hsuffix hitem hinside.moved) (hyy'.same.kind ▸ hy)

section OpensAlike

variable (hH : OpensAlike H)
include hH

/-- Lookaheads are commas alike. -/
theorem comma_iff {x x' : Lexeme} (h : H x x') : x.kind = .comma ↔ x'.kind = .comma :=
  hH.kind h _ (by simp)

/-- Items behind commas. -/
theorem Further.moved {item : Phrase α} {as : List α} (hsuffix : LeavesSuffix item)
    (hitem : Moves H item) (h : Further item xs as ys) (hm : Moved H xs ys xs' ys') :
    Further item xs' as ys' := by
  induction h generalizing xs' with
  | done hx =>
      obtain ⟨x', zs', rfl, rfl, hxx'⟩ := hm.nothing
      exact .done fun hx' => hx ((comma_iff hH hxx').mpr hx')
  | more hx h hrest ih =>
      have hitems := hrest.suffix hsuffix
      obtain ⟨x', zs', rfl, hxx', hback⟩ := hm.past (hitems.trans (hsuffix h))
      obtain ⟨ws', hfront, hlater⟩ := hback.split hH.same (hsuffix h) hitems
      exact .more (hxx'.kind ▸ hx) (hitem h hfront.moved) (ih hlater.moved)

/-- At least one item. -/
theorem Bare.moved {item : Phrase α} {as : List α} (hsuffix : LeavesSuffix item)
    (hitem : Moves H item) (h : Bare item xs as ys) (hm : Moved H xs ys xs' ys') :
    Bare item xs' as ys' := by
  cases h with
  | intro h hrest =>
      obtain ⟨ws', hfront, hback⟩ := hm.split hH.same (hsuffix h) (hrest.suffix hsuffix)
      exact .intro (hitem h hfront) (hrest.moved hH hsuffix hitem hback)

/-- Commas. -/
theorem Commas.moved (h : Commas xs ys) (hm : Moved H xs ys xs' ys') : Commas xs' ys' := by
  induction h generalizing xs' with
  | done hx =>
      obtain ⟨x', zs', rfl, rfl, hxx'⟩ := hm.nothing
      exact .done fun hx' => hx ((comma_iff hH hxx').mpr hx')
  | more hx hrest ih =>
      obtain ⟨x', zs', rfl, hxx', hback⟩ := hm.past hrest.suffix
      exact .more (hxx'.kind ▸ hx) (ih hback.moved)

end OpensAlike

/-! ## Types -/

/-- A type, whatever is behind it. -/
theorem IsType.moved {type : String} (h : IsType xs type ys) (hm : Moved H xs ys xs' ys') :
    IsType xs' type ys' := by
  cases h with
  | plain hx =>
      obtain ⟨x', rfl, hxx'⟩ := hm.past_one
      rw [hxx'.valueText]
      exact .plain (hxx'.kind ▸ hx)
  | dialect hbang htext hx hgap =>
      obtain ⟨bang', zs', rfl, hbb', hrest⟩ := hm.past (List.suffix_cons _ _)
      obtain ⟨x', ws', rfl, hxx', hback⟩ := hrest.past List.suffix_rfl
      obtain rfl := hback.nothing
      rw [hxx'.same.valueText]
      refine .dialect (hbb'.kind ▸ hbang) ?_ (hxx'.same.kind ▸ hx) (hxx'.gap ▸ hgap)
      rw [Token.hasText, ← hbb'.value]
      exact htext

/-- A list of types. -/
theorem IsTypeList.moved (hH : OpensAlike H) {types : List String}
    (h : IsTypeList xs types ys) (hm : Moved H xs ys xs' ys') : IsTypeList xs' types ys' := by
  cases h with
  | enclosed h => exact .enclosed (h.moved IsType.suffix IsType.moved hm)
  | bare hx h =>
      have hbare : Bare IsType xs' types ys' := h.moved hH IsType.suffix IsType.moved hm
      cases h with
      | intro htype hrest =>
          obtain ⟨x', zs', rfl, hxx', _⟩ :=
            hm.past ((hrest.suffix IsType.suffix).trans htype.suffix_tail)
          exact .bare (hxx'.kind ▸ hx) hbare

/-- Types behind a colon or an arrow. -/
theorem MayHaveTypes.moved (hH : OpensAlike H) {kind : TokenKind}
    (hkind : kind = .colon ∨ kind = .arrow) {types : List String}
    (h : MayHaveTypes kind xs types ys) (hm : Moved H xs ys xs' ys') :
    MayHaveTypes kind xs' types ys' := by
  cases h with
  | intro h =>
      refine .intro (h.moved hH.same (fun hxx' => ?_) (fun h hm => ?_) hm)
      · refine hH.kind hxx' _ ?_
        rcases hkind with rfl | rfl <;> simp
      · exact h.moved IsTypeList.suffix (IsTypeList.moved hH) hm

/-- The text of one lexeme, whatever is behind it. -/
theorem IsText.moved {kind : TokenKind} {text : String} (h : IsText kind xs text ys)
    (hm : Moved H xs ys xs' ys') : IsText kind xs' text ys' := by
  cases h with
  | intro hx =>
      obtain ⟨x', rfl, hxx'⟩ := hm.past_one
      rw [hxx'.valueText]
      exact .intro (hxx'.kind ▸ hx)

/-! ## Attributes -/

section Brackets

variable {fits : Nat → Prop}

/-- The lexemes of an attribute value are the same where they are moved. -/
theorem ValueRun.moved {depth : Nat} {v : List Lexeme} (h : ValueRun fits depth xs v ys)
    (hm : Moved Lexeme.Same xs ys xs' ys') :
    ∃ v', ValueRun fits depth xs' v' ys' ∧ List.Forall₂ Lexeme.Same v v' := by
  induction h generalizing xs' with
  | stop hx =>
      obtain ⟨x', zs', rfl, rfl, hxx'⟩ := hm.nothing
      exact ⟨[], .stop (hxx'.kind ▸ hx), .nil⟩
  | opening hx hfits h ih =>
      obtain ⟨x', zs', rfl, hxx', hrest⟩ := hm.past (h.append_eq ▸ List.suffix_append _ _)
      obtain ⟨v', hv', hsame⟩ := ih hrest.moved
      exact ⟨x' :: v', .opening (hxx'.kind ▸ hx) hfits hv', .cons hxx' hsame⟩
  | closing hx h ih =>
      obtain ⟨x', zs', rfl, hxx', hrest⟩ := hm.past (h.append_eq ▸ List.suffix_append _ _)
      obtain ⟨v', hv', hsame⟩ := ih hrest.moved
      exact ⟨x' :: v', .closing (hxx'.kind ▸ hx) hv', .cons hxx' hsame⟩
  | inner hopen hclose hcomma heof h ih =>
      obtain ⟨x', zs', rfl, hxx', hrest⟩ := hm.past (h.append_eq ▸ List.suffix_append _ _)
      obtain ⟨v', hv', hsame⟩ := ih hrest.moved
      rw [hxx'.kind] at hopen hclose hcomma heof
      exact ⟨x' :: v', .inner hopen hclose hcomma heof hv', .cons hxx' hsame⟩

/-- An entry of a dictionary. -/
theorem IsEntry.moved {entry : String × AttributeValue} (h : IsEntry fits xs entry ys)
    (hm : Moved Lexeme.Same xs ys xs' ys') : IsEntry fits xs' entry ys' := by
  cases h with
  | unit hx hy =>
      obtain ⟨x', rfl, hxx'⟩ := hm.past_one
      obtain ⟨y', zs', rfl, hyy'⟩ := hm.ending id
      rw [hxx'.valueText]
      exact .unit (hxx'.kind ▸ hx) (hyy'.kind ▸ hy)
  | valued hx hy h =>
      have hvalue := h.append_eq ▸ List.suffix_append _ _
      obtain ⟨x', zs', rfl, hxx', hrest⟩ := hm.past (suffix_cons_of_suffix hvalue)
      obtain ⟨y', ws', rfl, hyy', hback⟩ := hrest.past hvalue
      obtain ⟨v', hv', hsame⟩ := h.moved hback.moved
      rw [hxx'.valueText, Parse.ofLexemes_of_same hsame]
      exact .valued (hxx'.kind ▸ hx) (hyy'.same.kind ▸ hy) hv'

/-- An entry with the commas behind it. -/
theorem IsSeparatedEntry.moved {entry : String × AttributeValue}
    (h : IsSeparatedEntry fits xs entry ys) (hm : Moved Lexeme.Same xs ys xs' ys') :
    IsSeparatedEntry fits xs' entry ys' := by
  cases h with
  | intro h hcommas =>
      obtain ⟨ws', hfront, hback⟩ := hm.split id h.suffix hcommas.suffix
      exact .intro (h.moved hfront) (hcommas.moved opensAlike_same hback)

/-- A dictionary, whatever is behind it. -/
theorem IsDictionary.moved {entries : List (String × AttributeValue)}
    (h : IsDictionary fits xs entries ys) (hm : Moved H xs ys xs' ys') :
    IsDictionary fits xs' entries ys' := by
  cases h with
  | intro hx h hy =>
      have hentries := h.suffix IsSeparatedEntry.suffix
      obtain ⟨x', zs', rfl, hxx', hrest⟩ := hm.past ((List.suffix_cons _ _).trans hentries)
      obtain ⟨y', hinside, hyy'⟩ := hrest.upTo hentries
      exact .intro (hxx'.kind ▸ hx)
        (h.moved IsSeparatedEntry.suffix IsSeparatedEntry.moved hinside.moved)
        (hyy'.same.kind ▸ hy)

/-- A dictionary that may be missing. -/
theorem MayHaveDictionary.moved (hH : OpensAlike H) {entries : List (String × AttributeValue)}
    (h : MayHaveDictionary fits xs entries ys) (hm : Moved H xs ys xs' ys') :
    MayHaveDictionary fits xs' entries ys' := by
  cases h with
  | intro h =>
      exact .intro (h.moved hH.same (fun hxx' => hH.kind hxx' _ (by simp)) IsDictionary.moved hm)

/-- Lexemes that are the same are both the word before attributes, or neither is. -/
theorem isAttributesWord_iff {x x' : Lexeme} (h : x.Same x') :
    IsAttributesWord x ↔ IsAttributesWord x' := by
  rw [IsAttributesWord, IsAttributesWord, Token.hasText, Token.hasText, h.kind, h.value]

/-- A dictionary behind its word. -/
theorem MayHaveClause.moved {entries : List (String × AttributeValue)}
    (h : MayHaveClause fits xs entries ys) (hm : Moved Lexeme.Same xs ys xs' ys') :
    MayHaveClause fits xs' entries ys' := by
  cases h with
  | present hx h =>
      obtain ⟨x', zs', rfl, hxx', hrest⟩ := hm.past h.suffix
      exact .present ((isAttributesWord_iff hxx').mp hx) (h.moved hrest.moved)
  | missing hx =>
      obtain ⟨x', zs', rfl, rfl, hxx'⟩ := hm.nothing
      exact .missing fun hx' => hx ((isAttributesWord_iff hxx').mpr hx')

/-! ## Captures -/

section Capture

variable {opening closing : TokenKind} {run : List Lexeme}

/-- The lexemes of a capture behind its first bracket are twins where they are copied. -/
theorem CaptureRun.copied {depth : Nat} (h : CaptureRun fits opening closing depth xs run ys)
    (hm : Copied H xs ys xs' ys') : ∃ run', CaptureRun fits opening closing depth xs' run' ys' ∧
      List.Forall₂ Lexeme.Twin run run' := by
  induction h generalizing xs' with
  | last hx =>
      obtain ⟨x', zs', rfl, hxx', hrest⟩ := hm.past List.suffix_rfl
      obtain rfl := hrest.nothing
      exact ⟨[x'], .last (hxx'.same.kind ▸ hx), .cons hxx' .nil⟩
  | opened hx hfits h ih =>
      obtain ⟨x', zs', rfl, hxx', hrest⟩ := hm.past (h.append_eq ▸ List.suffix_append _ _)
      obtain ⟨run', hrun', htwins⟩ := ih hrest
      exact ⟨x' :: run', .opened (hxx'.same.kind ▸ hx) hfits hrun', .cons hxx' htwins⟩
  | closed hx h ih =>
      obtain ⟨x', zs', rfl, hxx', hrest⟩ := hm.past (h.append_eq ▸ List.suffix_append _ _)
      obtain ⟨run', hrun', htwins⟩ := ih hrest
      exact ⟨x' :: run', .closed (hxx'.same.kind ▸ hx) hrun', .cons hxx' htwins⟩
  | inner hopen hclose heof h ih =>
      obtain ⟨x', zs', rfl, hxx', hrest⟩ := hm.past (h.append_eq ▸ List.suffix_append _ _)
      obtain ⟨run', hrun', htwins⟩ := ih hrest
      rw [hxx'.same.kind] at hopen hclose heof
      exact ⟨x' :: run', .inner hopen hclose heof hrun', .cons hxx' htwins⟩

/-- The lexemes of a capture are twins but for the gap before the first of them. -/
theorem IsCapture.moved (h : IsCapture fits opening closing xs run ys)
    (hm : Moved H xs ys xs' ys') : ∃ x more x' more', run = x :: more ∧
      IsCapture fits opening closing xs' (x' :: more') ys' ∧ x.Same x' ∧
      List.Forall₂ Lexeme.Twin more more' := by
  cases h with
  | intro hx h =>
      obtain ⟨x', zs', rfl, hxx', hrest⟩ := hm.past (h.append_eq ▸ List.suffix_append _ _)
      obtain ⟨run', hrun', htwins⟩ := h.copied hrest
      exact ⟨_, _, x', run', rfl, .intro (hxx'.kind ▸ hx) hrun', hxx', htwins⟩

/-- The text of twins with the gaps before them is the same. -/
theorem join_gap_text_of_twins {run run' : List Lexeme} (h : List.Forall₂ Lexeme.Twin run run') :
    (run.map fun y => y.gap ++ y.text) = run'.map fun y => y.gap ++ y.text := by
  induction h with
  | nil => rfl
  | cons hx _ ih => rw [List.map_cons, List.map_cons, hx.gap, hx.same.text, ih]

/-- The text of twins is the same, whatever the gap before the first of them. -/
theorem verbatim_of_twins {x x' : Lexeme} {run run' : List Lexeme} (hx : x.Same x')
    (h : List.Forall₂ Lexeme.Twin run run') : verbatim (x :: run) = verbatim (x' :: run') := by
  rw [verbatim, verbatim, hx.text, join_gap_text_of_twins h]

/-- The text of a capture, whatever is behind it. -/
theorem IsCaptured.moved {text : String} (h : IsCaptured fits opening closing xs text ys)
    (hm : Moved H xs ys xs' ys') : IsCaptured fits opening closing xs' text ys' := by
  cases h with
  | intro h =>
      obtain ⟨x, more, x', more', rfl, h', hxx', htwins⟩ := h.moved hm
      rw [verbatim_of_twins hxx' htwins]
      exact .intro h'

end Capture

/-- Lexemes that are the same both start a location, or neither does. -/
theorem isLocWord_iff {x x' : Lexeme} (h : x.Same x') : IsLocWord x ↔ IsLocWord x' := by
  rw [IsLocWord, IsLocWord, Token.hasText, Token.hasText, h.kind, h.value]

/-- Lookaheads that start the same parts both start a location, or neither does. -/
theorem isLocWord_iff_of_startsAlike (hH : StartsAlike H) {x x' : Lexeme} (h : H x x') :
    IsLocWord x ↔ IsLocWord x' := by
  by_cases hx : x.kind = .keyword
  · exact isLocWord_iff (hH.text h hx)
  · have hx' : x'.kind ≠ .keyword := fun hx' => hx ((hH.kind h _ (by simp)).mpr hx')
    exact iff_of_false (fun hl => hx hl.1) fun hl => hx' hl.1

/-- A location, whatever is behind it. -/
theorem IsLocation.moved {text : String} (h : IsLocation fits xs text ys)
    (hm : Moved H xs ys xs' ys') : IsLocation fits xs' text ys' := by
  cases h with
  | intro hx h =>
      obtain ⟨x', zs', rfl, hxx', hrest⟩ := hm.past (h.append_eq ▸ List.suffix_append _ _)
      cases h with
      | intro ho hrun =>
          obtain ⟨o', ws', rfl, hoo', hback⟩ :=
            hrest.past (hrun.append_eq ▸ List.suffix_append _ _)
          obtain ⟨run', hrun', htwins⟩ := hrun.copied hback
          rw [verbatim_of_twins hxx' (.cons hoo' htwins)]
          exact .intro ((isLocWord_iff hxx').mp hx) (.intro (hoo'.same.kind ▸ ho) hrun')

/-- A location that may be missing. -/
theorem moved_location (hH : StartsAlike H) {location : Option String}
    (h : Optionally IsLocWord (IsLocation fits) xs location ys) (hm : Moved H xs ys xs' ys') :
    Optionally IsLocWord (IsLocation fits) xs' location ys' :=
  h.moved hH.same (isLocWord_iff_of_startsAlike hH) IsLocation.moved hm

end Brackets

end Grammar

end GenericIR
