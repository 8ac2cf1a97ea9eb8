/-
# Steps over bytes that mirror steps

A parser over bytes follows a parser where it stands at the same place with the same lookahead
and has gone past the same tokens.  A checked step mirrors a step where, from parsers one of
which follows the other, it has a result, and that is the value or the diagnostic of the step,
with parsers behind it one of which follows the other again.  A step that gives a value leaves
the parser where it is or goes past a token.

* `Mirrors.bind` : steps one after another;
* `Mirrors.advance`, `Mirrors.peek` : readings, by `ByteLexer.next_eq`;
* `Mirrors.collect` : lists whose turns mirror each other and go forward.
-/
import Mathlib.Data.List.Forall2
import GenericIR.Proofs.Bytes.Parser
import GenericIR.Proofs.Bytes.Reading
import GenericIR.Proofs.Bytes.Written
import GenericIR.Proofs.Progress

namespace GenericIR

/-! ## Parsers that follow -/

/-- A parser over bytes that stands where a parser stands in a source. -/
structure ByteParser.Follows (source : List Char) (limits : Limits) (q : ByteParser)
    (p : Parser) : Prop where
  text : p.Over source
  limits : p.lexer.limits = limits
  place : q.place = p.lexer.place
  lookahead : q.lookahead = p.lookahead.token
  passed : q.passed.map Mark.token = p.passed.map Lexeme.token

/-- A token whose text is cut out of the source as it is in the lexeme. -/
structure Lexeme.Cut (source : List Char) (x : Lexeme) (t : Token) : Prop where
  token : t = x.token
  slice : slice? source t.span.offset t.span.stop = some x.text.toList

/-- The value of a token as text. -/
theorem Lexeme.Cut.valueText {source : List Char} {x : Lexeme} {t : Token} (h : x.Cut source t) :
    x.valueText = t.value.render := by
  rw [h.token]
  rfl

/-- A parser over bytes that is where another one was, or has gone past a token since. -/
def ByteParser.Onward (q r : ByteParser) : Prop := r = q ∨ q.passed.length < r.passed.length

/-- Going onward and onward again is going onward. -/
theorem ByteParser.Onward.trans {q r s : ByteParser} (hqr : q.Onward r) (hrs : r.Onward s) :
    q.Onward s := by
  rcases hqr with rfl | hqr
  · exact hrs
  · rcases hrs with rfl | hrs
    · exact Or.inr hqr
    · exact Or.inr (hqr.trans hrs)

/-- What a step of a parser comes to is mirrored from a parser over bytes: the same value up to
a relation, with parsers onward one of which follows the other, or the same diagnostic behind the
same tokens. -/
inductive Mirror (source : List Char) (limits : Limits) {α β : Type} (V : α → β → Prop)
    (q : ByteParser) :
    EStateM.Result Diagnostic Parser α → Option (Except Diagnostic β × ByteParser) → Prop where
  | ok {a : α} {b : β} {p' : Parser} {q' : ByteParser} (hab : V a b)
      (h : q'.Follows source limits p') (honward : q.Onward q') :
      Mirror source limits V q (.ok a p') (some (.ok b, q'))
  | error {d : Diagnostic} {p' : Parser} {q' : ByteParser}
      (h : q'.passed.map Mark.token = p'.passed.map Lexeme.token) :
      Mirror source limits V q (.error d p') (some (.error d, q'))

/-- A checked step that mirrors a step. -/
def Mirrors (source : List Char) (limits : Limits) {α β : Type} (V : α → β → Prop)
    (m : Parse α) (n : ByteParse β) : Prop :=
  ∀ p q, q.Follows source limits p → Mirror source limits V q (m p) (n q)

namespace Mirrors

open Checked (bind_ok bind_error)
open ByteParse (collectTurn_of_error collectTurn_of_stop collectTurn_of_last collectTurn_of_more)
open Parse (bind_apply)

variable {source : List Char} {limits : Limits} {α β γ δ : Type}
variable {V : α → β → Prop} {W : γ → δ → Prop}

/-! ## One step after another -/

/-- Values in a relation. -/
theorem pure {a : α} {b : β} (h : V a b) :
    Mirrors source limits V (Pure.pure a) (Pure.pure b) := fun _ _ hp => .ok h hp (Or.inl rfl)

/-- Steps one after another at two parsers. -/
theorem bind_at {m : Parse α} {n : ByteParse β} {f : α → Parse γ} {g : β → ByteParse δ}
    {p : Parser} {q : ByteParser} (hm : Mirror source limits V q (m p) (n q))
    (hf : ∀ a b p' q', m p = .ok a p' → V a b → q'.Follows source limits p' →
      Mirror source limits W q' (f a p') (g b q')) :
    Mirror source limits W q ((m >>= f) p) ((n >>= g) q) := by
  rw [bind_apply]
  generalize hr : m p = r at hm
  generalize hn : n q = r' at hm
  cases hm with
  | @ok a b p' q' hab hq honward =>
      have hlater := hf a b p' q' hr hab hq
      rw [bind_ok hn]
      dsimp only
      generalize f a p' = rest at hlater
      generalize g b q' = rest' at hlater
      cases hlater with
      | ok hcd hr honward' => exact .ok hcd hr (honward.trans honward')
      | error h => exact .error h
  | error h =>
      rw [bind_error hn]
      exact .error h

/-- Steps one after another. -/
theorem bind {m : Parse α} {n : ByteParse β} {f : α → Parse γ} {g : β → ByteParse δ}
    (hm : Mirrors source limits V m n) (hf : ∀ a b, V a b → Mirrors source limits W (f a) (g b)) :
    Mirrors source limits W (m >>= f) (n >>= g) := fun p q hp =>
  bind_at (hm p q hp) fun a b _ _ _ hab hp' => hf a b hab _ _ hp'

/-- Steps with one value one after another. -/
theorem bind_eq {m : Parse α} {n : ByteParse α} {f : α → Parse γ} {g : α → ByteParse δ}
    (hm : Mirrors source limits Eq m n) (hf : ∀ a, Mirrors source limits W (f a) (g a)) :
    Mirrors source limits W (m >>= f) (n >>= g) :=
  bind hm fun a _ hab => hab ▸ hf a

/-- A checked step in front that only gives a value. -/
theorem given {a : α} {n : ByteParse α} {m : Parse γ} {g : α → ByteParse δ}
    (hn : Mirrors source limits Eq (Pure.pure a) n) (h : Mirrors source limits W m (g a)) :
    Mirrors source limits W m (n >>= g) := by
  intro p q hp
  refine bind_at (f := fun _ => m) (hn p q hp) ?_
  rintro _ _ p' q' ⟨⟩ rfl hp'
  exact h p q' hp'

/-- A choice by the same condition. -/
theorem ite {c c' : Prop} [Decidable c] [Decidable c'] {m m' : Parse α} {n n' : ByteParse β}
    (hc : c ↔ c') (hthen : c → Mirrors source limits V m n)
    (helse : ¬ c → Mirrors source limits V m' n') :
    Mirrors source limits V (if c then m else m') (if c' then n else n') := by
  by_cases h : c
  · rw [if_pos h, if_pos (hc.mp h)]
    exact hthen h
  · rw [if_neg h, if_neg fun h' => h (hc.mpr h')]
    exact helse h

/-- More pairs of values may be related. -/
theorem mono {V' : α → β → Prop} {m : Parse α} {n : ByteParse β} (h : Mirrors source limits V m n)
    (hV : ∀ a b, V a b → V' a b) : Mirrors source limits V' m n := by
  intro p q hp
  have hm := h p q hp
  generalize m p = r at hm
  generalize n q = r' at hm
  cases hm with
  | ok hab hq honward => exact .ok (hV _ _ hab) hq honward
  | error h => exact .error h

/-! ## The lookahead -/

/-- Looking at the lookahead. -/
theorem look {f : Token → Parse γ} {g : Token → ByteParse δ}
    (h : ∀ t, Mirrors source limits W (f t) (g t)) :
    Mirrors source limits W (Parse.current >>= f) (ByteParse.current >>= g) := by
  intro p q hp
  show Mirror source limits W q (f p.lookahead.token p) (g q.lookahead q)
  rw [hp.lookahead]
  exact h _ p q hp

/-- Looking at the lookahead in the checked step only. -/
theorem look_checked {m : Parse γ} {g : Token → ByteParse δ}
    (h : ∀ t, Mirrors source limits W m (g t)) :
    Mirrors source limits W m (ByteParse.current >>= g) := fun p q hp => h _ p q hp

/-- Asking for the text behind the lookahead, where nothing was skipped. -/
theorem nothingSkipped {f : List Char → Parse γ} {n : ByteParse δ}
    (h : Mirrors source limits W (f []) n) :
    Mirrors source limits W (Parse.skipped >>= f) n := by
  intro p q hp
  rw [Parse.skipped_bind_apply, hp.text.skipped]
  exact h p q hp

/-- Asking for the kind of the lookahead. -/
theorem sees (k : TokenKind) : Mirrors source limits Eq (Parse.sees k) (ByteParse.sees k) := by
  intro p q hp
  show Mirror source limits Eq q _ (some (.ok (decide (q.lookahead.kind = k)), q))
  rw [hp.lookahead]
  exact .ok rfl hp (Or.inl rfl)

/-- A fault at the lookahead. -/
theorem fail (fault : Fault) :
    Mirrors source limits V (Parse.fail fault) (ByteParse.fail fault) := by
  intro p q hp
  show Mirror source limits V q _ (some (.error (.ofFault fault q.lookahead.span), q))
  rw [hp.lookahead]
  exact .error hp.passed

/-- A token that a production cannot start with. -/
theorem unexpected (context : String) :
    Mirrors source limits V (Parse.unexpected context) (ByteParse.unexpected context) :=
  look fun _ => fail _

/-- A parser that is followed has come to a lookahead whose text is cut out of the source. -/
theorem cut_lookahead {p : Parser} {q : ByteParser} (hp : q.Follows source limits p) {x : Lexeme}
    {l : Lexer} (hnext : Lexer.next p.lexer = .ok x l) : p.lookahead.Cut source q.lookahead := by
  refine ⟨hp.lookahead, ?_⟩
  have hpassed : (⟨l, x, p.lookahead :: p.passed, []⟩ : Parser).passed =
      [p.lookahead].reverse ++ p.passed := rfl
  have hslice := (hp.text.advance hnext).slice?_eq hpassed
  rw [hp.lookahead]
  simpa [verbatim] using hslice

/-- Going past the lookahead, whatever its role. -/
theorem advance (role : Role) : Mirrors source limits (Lexeme.Cut source) Parse.advance
    (ByteParse.advance source limits role) := by
  intro p q hp
  have hnext := ByteLexer.next_eq p.lexer hp.text.stands
  rw [hp.limits, ← hp.place] at hnext
  unfold Parse.advance ByteParse.advance
  rw [hnext]
  cases hl : Lexer.next p.lexer with
  | ok x l =>
      refine .ok (cut_lookahead hp hl) ⟨hp.text.advance hl, ?_, rfl, rfl, ?_⟩
        (Or.inr (Nat.lt_succ_self _))
      · rw [(Lexer.took_of_next hl).1.limits, hp.limits]
      · rw [List.map_cons, List.map_cons, hp.lookahead, hp.passed]
  | error d l => exact .error hp.passed

/-- Going past the lookahead to a step that takes its token. -/
theorem past {role : Role} {f : Lexeme → Parse γ} {g : Token → ByteParse δ}
    (h : ∀ x t, x.Cut source t → Mirrors source limits W (f x) (g t)) :
    Mirrors source limits W (Parse.advance >>= f) (ByteParse.advance source limits role >>= g) :=
  bind (advance role) h

/-- Asking for a kind. -/
theorem consume (k : TokenKind) : Mirrors source limits (Lexeme.Cut source) (Parse.consume k)
    (ByteParse.consume source limits k) :=
  look fun _ => ite Iff.rfl (fun _ => advance _) fun _ => fail _

/-- Asking for a kind with a text. -/
theorem consumeText (k : TokenKind) (text : String) :
    Mirrors source limits (Lexeme.Cut source) (Parse.consumeText k text)
      (ByteParse.consumeText source limits k text) :=
  look fun _ => ite Iff.rfl (fun _ => fail _) fun _ => consume k

/-- Accepting a kind. -/
theorem accept (k : TokenKind) :
    Mirrors source limits Eq (Parse.accept k) (ByteParse.accept source limits k) :=
  bind_eq (sees k) fun _ => ite Iff.rfl (fun _ => past fun _ _ _ => pure rfl) fun _ => pure rfl

/-- Checking a depth. -/
theorem check (depth : Nat) :
    Mirrors source limits Eq (Parse.checkDepth depth) (ByteParse.checkDepth limits depth) := by
  intro p q hp
  rw [Parse.checkDepth, ByteParse.checkDepth, hp.limits]
  by_cases hdeep : limits.maxNestingDepth < depth
  · rw [if_pos hdeep, if_pos hdeep]
    exact fail _ p q hp
  · rw [if_neg hdeep, if_neg hdeep]
    exact .ok rfl hp (Or.inl rfl)

/-- Looking at the two tokens behind the lookahead. -/
theorem peek : Mirrors source limits Eq Parse.braceOpensAttributes
    (ByteParse.braceOpensAttributes source limits) := by
  intro p q hp
  have hnext := ByteLexer.next_eq p.lexer hp.text.stands
  rw [hp.limits, ← hp.place] at hnext
  unfold Parse.braceOpensAttributes ByteParse.braceOpensAttributes
  rw [hnext]
  cases hl : Lexer.next p.lexer with
  | error d l => exact .error hp.passed
  | ok x l =>
      have hsecond := ByteLexer.next_eq l (hp.text.advance hl).stands
      rw [(Lexer.took_of_next hl).1.limits, hp.limits] at hsecond
      dsimp only [ByteLexer.ofReading]
      by_cases hx : x.token.kind = .identifier
      · rw [if_pos hx, if_pos hx, hsecond]
        cases Lexer.next l with
        | error d m => exact .error hp.passed
        | ok y m => exact .ok rfl hp (Or.inl rfl)
      · rw [if_neg hx, if_neg hx]
        exact .ok rfl hp (Or.inl rfl)

/-- A slice between two tokens that stand in the source. -/
theorem textBetween {first last : Token} {text : String}
    (h : slice? source first.span.offset last.span.stop = some text.toList) :
    Mirrors source limits Eq (Pure.pure text) (ByteParse.textBetween source first last) := by
  intro p q hp
  have hn : ByteParse.textBetween source first last q = some (.ok text, q) := by
    unfold ByteParse.textBetween Checked.ofOption
    rw [h]
    show some (Except.ok (String.ofList text.toList), q) = _
    rw [String.ofList_toList]
  rw [hn]
  exact .ok rfl hp (Or.inl rfl)

/-! ## Lists -/

/-- What is left over bytes is less where what is left is. -/
theorem left_lt {p p' : Parser} {q q' : ByteParser} (hp : q.Follows source limits p)
    (hp' : q'.Follows source limits p') (h : p'.left < p.left) :
    ByteParse.left source q' < ByteParse.left source q := by
  have hbytes : ∀ {p : Parser} {q : ByteParser}, q.Follows source limits p →
      byteLength source - q.place.offset = byteLength p.lexer.rest := by
    intro p q hp
    obtain ⟨front, hsource, hoffset⟩ := hp.text.stands
    rw [hp.place, hoffset, hsource, byteLength_append]
    omega
  rw [Parser.left, Parser.left, Parser.kind, Parser.kind] at h
  rw [ByteParse.left, ByteParse.left, hbytes hp, hbytes hp', hp.lookahead, hp'.lookahead]
  -- both texts are ends of the source, so one of them is the end of the other
  rcases List.append_eq_append_iff.mp (hp.text.source.symm.trans hp'.text.source) with
    ⟨between, _, hrest⟩ | ⟨between, _, hrest⟩
  · have hle := length_le_byteLength between
    rw [hrest, List.length_append] at h
    rw [hrest, byteLength_append]
    omega
  · rw [hrest, List.length_append] at h
    have hnil : between = [] := by
      refine List.eq_nil_of_length_eq_zero ?_
      split at h <;> split at h <;> omega
    rw [hnil, List.length_nil] at h
    rw [hrest, hnil, List.nil_append]
    omega

/-- Turns that end a list alike, or go on from states in a relation. -/
inductive TurnMirror {σ τ : Type} (V : α → β → Prop) (S : σ → τ → Prop) :
    Turn σ α → Turn τ β → Prop where
  | stop : TurnMirror V S .stop .stop
  | last {a : α} {b : β} (hab : V a b) : TurnMirror V S (.last a) (.last b)
  | more {a : α} {b : β} {s : σ} {t : τ} (hab : V a b) (h : S s t) :
      TurnMirror V S (.more a s) (.more b t)

section Collect

variable {σ τ : Type} {S : σ → τ → Prop}
variable {turn : σ → Parse (Turn σ α)} {checked : τ → ByteParse (Turn τ β)}

/-- The loop over turns that mirror each other, behind the items before them. -/
theorem loop (h : Parse.Progressive turn)
    (hturn : ∀ s t, S s t → Mirrors source limits (TurnMirror V S) (turn s) (checked t)) {s : σ}
    {t : τ} (hs : S s t) (items : List β) :
    Mirrors source limits (fun as bs => ∃ more, bs = items ++ more ∧ List.Forall₂ V as more)
      (Parse.collect turn s)
      (Checked.loop (ByteParse.left source) (ByteParse.collectTurn checked) (t, items)) := by
  intro p q hp
  induction hn : p.left using Nat.strongRecOn generalizing s t items p q with
  | ind n ih =>
      have hfirst := hturn s t hs p q hp
      rw [Parse.collect_eq h, bind_apply]
      generalize hr : turn s p = r at hfirst
      generalize hr' : checked t q = r' at hfirst
      cases hfirst with
      | error hpassed =>
          rw [Checked.loop_of_error (collectTurn_of_error hr')]
          exact .error hpassed
      | @ok a b p' q' hab hp' honward =>
          cases hab with
          | stop =>
              rw [Checked.loop_of_done (collectTurn_of_stop hr')]
              exact .ok ⟨[], (List.append_nil items).symm, .nil⟩ hp' honward
          | last hab =>
              rw [Checked.loop_of_done (collectTurn_of_last hr')]
              exact .ok ⟨_, rfl, .cons hab .nil⟩ hp' honward
          | @more a b next next' hab hnext =>
              -- the turns behind the first one start nearer to the end
              have hleft : p'.left < p.left := h s p a next p' hr
              have hleft' := left_lt hp hp' hleft
              have hpast : q.passed.length < q'.passed.length :=
                honward.resolve_left fun heq => Nat.lt_irrefl _ (heq ▸ hleft')
              have hlater := ih p'.left (hn ▸ hleft) hnext (items ++ [b]) p' q' hp' rfl
              rw [Checked.loop_of_again (collectTurn_of_more hr' hpast) hleft']
              dsimp only
              rw [bind_apply]
              generalize Parse.collect turn next p' = rest at hlater
              generalize Checked.loop _ _ _ q' = rest' at hlater
              cases hlater with
              | error hpassed => exact .error hpassed
              | ok hmore hq honward' =>
                  obtain ⟨more, rfl, hmore⟩ := hmore
                  exact .ok ⟨b :: more, List.append_assoc _ _ _, .cons hab hmore⟩ hq
                    (honward.trans honward')

/-- Lists of turns that mirror each other. -/
theorem collect (h : Parse.Progressive turn)
    (hturn : ∀ s t, S s t → Mirrors source limits (TurnMirror V S) (turn s) (checked t)) {s : σ}
    {t : τ} (hs : S s t) :
    Mirrors source limits (List.Forall₂ V) (Parse.collect turn s)
      (ByteParse.collect source checked t) := by
  refine (loop h hturn hs []).mono ?_
  rintro as bs ⟨more, rfl, hmore⟩
  exact hmore

end Collect

/-- Lists of turns that carry no state and have the same items. -/
theorem collect_eq {turn : Unit → Parse (Turn Unit α)} {checked : Unit → ByteParse (Turn Unit α)}
    (h : Parse.Progressive turn)
    (hturn : ∀ u, Mirrors source limits (TurnMirror Eq Eq) (turn u) (checked u)) :
    Mirrors source limits Eq (Parse.collect turn ()) (ByteParse.collect source checked ()) := by
  refine (collect h (V := Eq) (S := Eq) (fun u _ _ => hturn u) rfl).mono fun as bs hab => ?_
  rwa [List.forall₂_eq_eq_eq] at hab

/-- Items up to a lookahead of one of some kinds. -/
theorem itemsUntil (stops : List TokenKind) {item : Parse α} {item' : ByteParse α}
    (h : Parse.Advances Parse.Any item) (hitem : Mirrors source limits Eq item item') :
    Mirrors source limits Eq (Parse.itemsUntil stops item)
      (ByteParse.itemsUntil source stops item') :=
  collect_eq (Parse.progressive_untilTurn stops h) fun _ => look fun _ =>
    ite Iff.rfl (fun _ => pure .stop) fun _ => bind_eq hitem fun _ => pure (.more rfl rfl)

/-- Items with commas between them up to a closing bracket. -/
theorem closedItems (close : TokenKind) {item : Parse α} {item' : ByteParse α}
    (h : Parse.Composed Parse.Any item) (hitem : Mirrors source limits Eq item item') :
    Mirrors source limits Eq (Parse.closedItems close item)
      (ByteParse.closedItems source limits close item') :=
  collect_eq (Parse.progressive_closedTurn close h) fun _ => bind_eq (sees close) fun _ =>
    ite Iff.rfl (fun _ => pure .stop) fun _ => bind_eq hitem fun _ =>
    bind_eq (accept .comma) fun _ => ite Iff.rfl (fun _ => pure (.more rfl rfl)) fun _ => pure (.last rfl)

/-- The further items of a list with commas. -/
theorem collect_commaTurn {item : Parse α} {item' : ByteParse α}
    (h : Parse.Composed Parse.Any item) (hitem : Mirrors source limits Eq item item') :
    Mirrors source limits Eq (Parse.collect (Parse.commaTurn item) ())
      (ByteParse.collect source (ByteParse.commaTurn source limits item') ()) :=
  collect_eq (Parse.progressive_commaTurn h) fun _ => bind_eq (accept .comma) fun _ =>
    ite Iff.rfl (fun _ => bind_eq hitem fun _ => pure (.more rfl rfl)) fun _ => pure .stop

/-- A list of at least one item. -/
theorem openItems {item : Parse α} {item' : ByteParse α} (h : Parse.Composed Parse.Any item)
    (hitem : Mirrors source limits Eq item item') :
    Mirrors source limits Eq (Parse.openItems item) (ByteParse.openItems source limits item') :=
  bind_eq hitem fun _ => bind_eq (collect_commaTurn h hitem) fun _ => pure rfl

/-- Any number of commas. -/
theorem skipCommas :
    Mirrors source limits Eq Parse.skipCommas (ByteParse.skipCommas source limits) :=
  bind_eq (collect_commaTurn (.pure ()) (pure rfl)) fun _ => pure rfl

end Mirrors

end GenericIR
