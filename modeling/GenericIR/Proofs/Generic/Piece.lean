/-
# Pieces of text

A piece of text is right for a phrase of the grammar where it can be put together from tokens
that are read back as they are written and that the phrase derives its value from.  Pieces are
put together as the phrases are.

* `Piece.andThen` : one piece behind another;
* `exists_piece_list` : pieces with commas between them.
-/
import GenericIR.Proofs.Derivation
import GenericIR.Proofs.Generic.Text
import GenericIR.Proofs.Spelling

namespace GenericIR

/-! ## The first chunk -/

/-- The kind of the first token of chunks, which is the end of the text where there are none. -/
def headKind : List Chunk → TokenKind
  | [] => .eof
  | c :: _ => c.meaning.1

/-- The first lexeme is of the kind of the first chunk. -/
theorem lexemesFrom_eq_cons (ending : List Char) (p : Place) (cs : List Chunk) :
    ∃ x xs, lexemesFrom ending p cs = x :: xs ∧ x.kind = headKind cs := by
  cases cs with
  | nil => exact ⟨_, _, rfl, rfl⟩
  | cons c cs => exact ⟨_, _, rfl, rfl⟩

/-! ## Pieces -/

section Pieces

variable {α β γ : Type} {limits : Limits}

/-- Two phrases one after the other. -/
def Phrase.andThen (R : Phrase α) (S : Phrase β) : Phrase (α × β) :=
  fun xs r zs => ∃ ys, R xs r.1 ys ∧ S ys r.2 zs

/-- A mark behind a gap. -/
def Chunk.ofMark (g : List Char) (c : Char) : Chunk :=
  ⟨g, [c], (markKind c, .text (String.ofList [c]))⟩

/-- Marks that are scanned alike before any text. -/
def loneMarks : List Char := [',', '(', ')', '\x7b', '\x7d', '!']

/-- A lone mark is a token by itself. -/
theorem scanToken_of_mem_loneMarks {c : Char} (hc : c ∈ loneMarks) (t : List Char) :
    scanToken limits c t = .plain (markKind c) [c] := by
  simp only [loneMarks, List.mem_cons, List.not_mem_nil, or_false] at hc
  rcases hc with rfl | rfl | rfl | rfl | rfl | rfl <;> rfl

/-- A lone mark stands behind any gap. -/
theorem stands_ofMark {g : List Char} {c : Char} (hg : Layout g) (hc : c ∈ loneMarks) :
    (Chunk.ofMark g c).Stands limits := by
  have hblank : ¬ isBlank c ∧ c ≠ '/' := by
    simp only [loneMarks, List.mem_cons, List.not_mem_nil, or_false] at hc
    rcases hc with rfl | rfl | rfl | rfl | rfl | rfl <;> decide
  exact ⟨hg, c, [], rfl, hblank.1, hblank.2, scanToken_of_mem_loneMarks hc []⟩

/-- One token that carries a text. -/
def IsToken (kind : TokenKind) (text : String) : Phrase Unit := fun xs _ ys =>
  ∃ x, xs = x :: ys ∧ x.kind = kind ∧ x.token.value = .text text

/-- One mark. -/
def IsMark (c : Char) : Phrase Unit := IsToken (markKind c) (String.ofList [c])

/-- Chunks that spell a text, are read back before any text that goes on with no token, and
from which a phrase derives a value where a token of some kinds follows. -/
structure Piece (limits : Limits) (R : Phrase α) (follow : TokenKind → Prop) (text : List Char)
    (a : α) (cs : List Chunk) : Prop where
  spells : ∀ rest, spell cs rest = text ++ rest
  readsBack : ∀ rest, Stops rest → ReadsBack limits cs rest
  derives : ∀ ending p ds, follow (headKind ds) →
    ∃ q, R (lexemesFrom ending p (cs ++ ds)) a (lexemesFrom ending q ds)

namespace Piece

variable {R : Phrase α} {S : Phrase β} {follow follow' : TokenKind → Prop}
  {text text' : List Char} {a : α} {b : β} {cs ds : List Chunk}

/-- Chunks of one phrase are chunks of another that derives its value from the same. -/
theorem map (h : Piece limits R follow text a cs) (hfollow : ∀ k, follow' k → follow k)
    (hS : ∀ xs y ys, R xs a (y :: ys) → follow' y.kind → S xs b (y :: ys)) :
    Piece limits S follow' text b cs where
  spells := h.spells
  readsBack := h.readsBack
  derives ending p ds hds := by
    obtain ⟨q, hq⟩ := h.derives ending p ds (hfollow _ hds)
    obtain ⟨y, ys, heq, hy⟩ := lexemesFrom_eq_cons ending q ds
    rw [heq] at hq
    refine ⟨q, ?_⟩
    rw [heq]
    exact hS _ y ys hq (hy ▸ hds)

/-- The text that is spelled may be given in another form. -/
theorem congr (h : Piece limits R follow text a cs) (htext : text = text') :
    Piece limits R follow text' a cs := htext ▸ h

/-- The first token of a piece is known where it is the same whatever follows. -/
theorem starting (starts : TokenKind → Prop) (h : Piece limits R follow text a cs)
    (hstarts : ∀ ds, starts (headKind (cs ++ ds))) :
    Piece limits (fun xs a ys => ∃ x rest, xs = x :: rest ∧ starts x.kind ∧ R xs a ys) follow
      text a cs where
  spells := h.spells
  readsBack := h.readsBack
  derives ending p ds hds := by
    obtain ⟨q, hq⟩ := h.derives ending p ds hds
    obtain ⟨x, xs, heq, hx⟩ := lexemesFrom_eq_cons ending p (cs ++ ds)
    exact ⟨q, x, xs, heq, hx ▸ hstarts ds, hq⟩

/-- No chunks spell no text. -/
theorem nil (hR : ∀ x xs, follow x.kind → R (x :: xs) a (x :: xs)) :
    Piece limits R follow [] a [] where
  spells _ := rfl
  readsBack _ _ := trivial
  derives ending p ds hds := by
    obtain ⟨x, xs, heq, hx⟩ := lexemesFrom_eq_cons ending p ds
    refine ⟨p, ?_⟩
    rw [List.nil_append, heq]
    exact hR x xs (hx ▸ hds)

/-- One token. -/
theorem token {c : Chunk} (hc : c.Stands limits)
    (hR : ∀ p y ys, follow y.kind → R (c.lexeme p :: y :: ys) a (y :: ys)) :
    Piece limits R follow (c.gap ++ c.text) a [c] where
  spells rest := (List.append_assoc _ _ _).symm
  readsBack rest hrest := readsBack_cons hc hrest trivial
  derives ending p ds hds := by
    obtain ⟨y, ys, heq, hy⟩ := lexemesFrom_eq_cons ending (c.after p) ds
    refine ⟨c.after p, ?_⟩
    show R (c.lexeme p :: lexemesFrom ending (c.after p) ds) a _
    rw [heq]
    exact hR p y ys (hy ▸ hds)

/-- One piece behind another. -/
theorem andThen (h : Piece limits R follow text a cs) (h' : Piece limits S follow' text' b ds)
    (hstops : ∀ rest, Stops rest → Stops (text' ++ rest))
    (hhead : ∀ es, follow' (headKind es) → follow (headKind (ds ++ es))) :
    Piece limits (R.andThen S) follow' (text ++ text') (a, b) (cs ++ ds) where
  spells rest := by rw [spell_append, h'.spells, h.spells, List.append_assoc]
  readsBack rest hrest := by
    refine readsBack_append (h.readsBack _ ?_) (h'.readsBack rest hrest)
    rw [h'.spells]
    exact hstops rest hrest
  derives ending p es hes := by
    obtain ⟨q, hq⟩ := h.derives ending p (ds ++ es) (hhead es hes)
    obtain ⟨r, hr⟩ := h'.derives ending q es hes
    rw [List.append_assoc]
    exact ⟨r, _, hq, hr⟩

/-- A lone mark in front of a piece. -/
theorem mark {g : List Char} {c : Char} (hg : Layout g) (hc : c ∈ loneMarks)
    (h : Piece limits S follow text b cs) :
    Piece limits ((IsMark c).andThen S) follow (g ++ c :: text) ((), b)
      (.ofMark g c :: cs) where
  spells rest := by
    show g ++ (c :: spell cs rest) = _
    rw [h.spells, List.append_assoc]
    rfl
  readsBack rest hrest := by
    refine readsBack_cons_of_any (stands_ofMark hg hc) (fun d u t htext => ?_)
      (h.readsBack rest hrest)
    obtain ⟨rfl, rfl⟩ := List.cons.inj htext
    rw [scanToken_of_mem_loneMarks hc, scanToken_of_mem_loneMarks hc]
  derives ending p ds hds := by
    obtain ⟨q, hq⟩ := h.derives ending _ ds hds
    exact ⟨q, _, ⟨_, rfl, rfl, rfl⟩, hq⟩

/-- A piece between two lone marks. -/
theorem enclosed {g g' : List Char} {c d : Char} (hg : Layout g) (hg' : Layout g')
    (hc : c ∈ loneMarks) (hd : d ∈ loneMarks) (hstops : ∀ rest, Stops (g' ++ d :: rest))
    (h : Piece limits R (· = markKind d) text a cs) :
    Piece limits ((IsMark c).andThen (R.andThen (IsMark d))) (fun _ => True)
      (g ++ c :: (text ++ (g' ++ [d]))) ((), a, ()) (.ofMark g c :: (cs ++ [.ofMark g' d])) := by
  have hclose : Piece limits (IsMark d) (fun _ => True) (g' ++ [d]) () [.ofMark g' d] :=
    .token (stands_ofMark hg' hd) fun _ _ _ _ => ⟨_, rfl, rfl, rfl⟩
  have hstops' : ∀ rest, Stops rest → Stops (g' ++ [d] ++ rest) := by
    intro rest _
    rw [List.append_assoc]
    exact hstops rest
  exact (h.andThen hclose hstops' fun _ _ => rfl).mark hg hc

end Piece

/-! ## Lists -/

/-- A text that can be written behind any gap as a value of a phrase, its first token of some
kinds, where tokens of some kinds follow. -/
def Writable (limits : Limits) (R : Phrase α) (starts follow : TokenKind → Prop)
    (text : List Char) (a : α) : Prop :=
  ∀ g, Layout g → ∃ cs, Piece limits R follow (g ++ text) a cs ∧
    ∀ ds, starts (headKind (cs ++ ds))

/-- What can be written as a value of one phrase can be written as a value of another that
derives it from the same. -/
theorem Writable.map {R : Phrase α} {S : Phrase β} {starts follow follow' : TokenKind → Prop}
    {text : List Char} {a : α} {b : β} (h : Writable limits R starts follow text a)
    (hfollow : ∀ k, follow' k → follow k)
    (hS : ∀ xs y ys, R xs a (y :: ys) → follow' y.kind → S xs b (y :: ys)) :
    Writable limits S starts follow' text b := by
  intro g hg
  obtain ⟨cs, hcs, hstarts⟩ := h g hg
  exact ⟨cs, hcs.map hfollow hS, hstarts⟩

/-- A token that carries a text. -/
theorem writable_isToken {text : List Char} {kind : TokenKind} {value : String}
    (hscan : ∃ d u, text = d :: u ∧ ¬ isBlank d ∧ d ≠ '/' ∧
      scanToken limits d u = ⟨text, .ok (kind, .text value)⟩) :
    Writable limits (IsToken kind value) (· = kind) (fun _ => True) text () := by
  intro g hg
  have hstands : Chunk.Stands limits ⟨g, text, (kind, .text value)⟩ := ⟨hg, hscan⟩
  exact ⟨_, .token hstands fun _ _ _ _ => ⟨_, rfl, rfl, rfl⟩, fun _ => rfl⟩

/-- One token can be written behind any gap. -/
theorem writable_token {R : Phrase α} {follow : TokenKind → Prop} {text : List Char} {a : α}
    {kind : TokenKind} {value : TokenValue}
    (hscan : ∃ d u, text = d :: u ∧ ¬ isBlank d ∧ d ≠ '/' ∧
      scanToken limits d u = ⟨text, .ok (kind, value)⟩)
    (hR : ∀ gap text' span y ys, follow y.kind →
      R (⟨gap, text', ⟨kind, value, span⟩⟩ :: y :: ys) a (y :: ys)) :
    Writable limits R (· = kind) follow text a := by
  intro g hg
  have hstands : Chunk.Stands limits ⟨g, text, (kind, value)⟩ := ⟨hg, hscan⟩
  exact ⟨_, .token hstands fun p y ys hy => hR _ _ _ y ys hy, fun _ => rfl⟩

/-- Items with commas between them can be written, where the phrase of the list derives one
item alone and an item before a comma and more of the list. -/
theorem writable_listText {R : Phrase α} {L : Phrase (List α)} {starts follow : TokenKind → Prop}
    (hlast : ∀ {x xs a y ys}, starts x.kind → R (x :: xs) a (y :: ys) → follow y.kind →
      L (x :: xs) [a] (y :: ys))
    (hmore : ∀ {x xs a y z zs as ws}, starts x.kind → R (x :: xs) a (y :: z :: zs) →
      y.kind = .comma → starts z.kind → L (z :: zs) as ws → L (x :: xs) (a :: as) ws)
    (text : γ → List Char) (value : γ → α) {items : List γ} (hne : items ≠ [])
    (hitems : ∀ i ∈ items,
      Writable limits R starts (fun k => k = .comma ∨ follow k) (text i) (value i)) :
    Writable limits L starts follow (listText (items.map text)) (items.map value) := by
  obtain ⟨item, items, rfl⟩ := List.exists_cons_of_ne_nil hne
  intro g hg
  induction items generalizing item g with
  | nil =>
      obtain ⟨cs, hcs, hstarts⟩ := hitems item List.mem_cons_self g hg
      refine ⟨cs, ⟨?_, hcs.readsBack, fun ending p ds hds => ?_⟩, hstarts⟩
      · intro rest
        show _ = (g ++ (text item ++ [])) ++ rest
        rw [hcs.spells, List.append_nil]
      · obtain ⟨q, hq⟩ := hcs.derives ending p ds (Or.inr hds)
        obtain ⟨x, xs, hxs, hx⟩ := lexemesFrom_eq_cons ending p (cs ++ ds)
        obtain ⟨y, ys, hys, hy⟩ := lexemesFrom_eq_cons ending q ds
        rw [hxs, hys] at hq
        refine ⟨q, ?_⟩
        rw [hxs, hys]
        exact hlast (hx ▸ hstarts ds) hq (hy ▸ hds)
  | cons next items ih =>
      obtain ⟨cs, hcs, hstarts⟩ := hitems item List.mem_cons_self g hg
      obtain ⟨ds, hds, hnext⟩ := ih next (by simp)
        (fun i hi => hitems i (List.mem_cons_of_mem item hi)) [' '] (.blank (by decide) .nil)
      have hmark := hds.mark (c := ',') .nil (by decide)
      have hboth := hcs.andThen hmark (fun rest _ => .cons (by decide) _)
        fun es _ => Or.inl rfl
      refine ⟨_, ⟨fun rest => ?_, hboth.readsBack, fun ending p es hes => ?_⟩, fun es => ?_⟩
      · rw [hboth.spells]
        simp only [List.map_cons, listText, List.flatMap_cons, List.append_assoc,
          List.cons_append, List.nil_append]
      · obtain ⟨q, hq⟩ := hcs.derives ending p (.ofMark [] ',' :: (ds ++ es)) (Or.inl rfl)
        obtain ⟨r, hr⟩ := hds.derives ending ((Chunk.ofMark [] ',').after q) es hes
        obtain ⟨x, xs, hxs, hx⟩ :=
          lexemesFrom_eq_cons ending p (cs ++ (.ofMark [] ',' :: (ds ++ es)))
        obtain ⟨z, zs, hzs, hz⟩ :=
          lexemesFrom_eq_cons ending ((Chunk.ofMark [] ',').after q) (ds ++ es)
        rw [lexemesFrom, hxs, hzs] at hq
        rw [hzs] at hr
        refine ⟨r, ?_⟩
        rw [List.append_assoc, List.cons_append, hxs]
        exact hmore (hx ▸ hstarts _) hq rfl (hz ▸ hnext es) hr
      · rw [List.append_assoc]
        exact hstarts _

/-- A list that may be empty is a piece of text. -/
theorem exists_piece_listText {L : Phrase (List α)} {starts follow : TokenKind → Prop}
    (text : γ → List Char) (value : γ → α) (items : List γ)
    (hnil : ∀ x xs, follow x.kind → L (x :: xs) [] (x :: xs))
    (hcons : items ≠ [] →
      Writable limits L starts follow (listText (items.map text)) (items.map value)) :
    ∃ cs, Piece limits L follow (listText (items.map text)) (items.map value) cs := by
  by_cases hitems : items = []
  · rw [hitems]
    exact ⟨[], .nil hnil⟩
  · obtain ⟨cs, hcs, _⟩ := hcons hitems [] .nil
    exact ⟨cs, hcs⟩

end Pieces

end GenericIR
