/-
# Steps that agree

Two parsers are alike where the lexemes ahead of them are the same but for their places and
the gaps between them.  Two steps agree where they do the same at parsers that are alike: both
give a value, their values related and the parsers alike again, or both fail with one fault.

* `Parse.Agrees.bind` : steps agree one after another;
* `Parse.Agrees.collect` : lists agree where their turns do.
-/
import Mathlib.Data.List.Forall2
import GenericIR.Proofs.Layout.Relaid
import GenericIR.Proofs.Progress

namespace GenericIR

/-! ## Parsers that are alike -/

/-- The text of a value is the same in lexemes that are the same. -/
theorem Lexeme.Same.valueText {x x' : Lexeme} (h : x.Same x') : x.valueText = x'.valueText := by
  rw [Lexeme.valueText, Lexeme.valueText, h.value]

/-- Parsers with one bound on nesting whose lookaheads are the same, with lexemes alike behind
them. -/
structure Parser.Like (p p' : Parser) (xs xs' : List Lexeme) : Prop where
  limits : p.lexer.limits = p'.lexer.limits
  faces : p.Faces (p.lookahead :: xs)
  faces' : p'.Faces (p'.lookahead :: xs')
  same : p.lookahead.Same p'.lookahead
  alike : List.Forall₂ Lexeme.Alike xs xs'

/-- Parsers that are alike go on to be alike, and find a token that touches the one before it
alike. -/
theorem Parser.Like.advance {p p' : Parser} {xs xs' : List Lexeme} (hp : p.Like p' xs xs') :
    ∃ q q' ys ys', Parse.advance p = .ok p.lookahead q ∧
      Parse.advance p' = .ok p'.lookahead q' ∧ q.Like q' ys ys' ∧ (q.kind ≠ .eof →
        (q.lookahead.token.span.offset = p.lookahead.token.span.stop ↔
          q'.lookahead.token.span.offset = p'.lookahead.token.span.stop)) := by
  by_cases heof : p.lookahead.kind = .eof
  · have heof' : p'.lookahead.kind = .eof := hp.same.kind ▸ heof
    obtain rfl := hp.faces.eq_nil_of_eof heof
    obtain rfl := hp.faces'.eq_nil_of_eof heof'
    obtain ⟨q, hq, hfaces, hkind, hlimits⟩ := hp.faces.advance_eof heof
    obtain ⟨q', hq', hfaces', hkind', hlimits'⟩ := hp.faces'.advance_eof heof'
    obtain ⟨htext, hvalue⟩ := hfaces.text_of_eof hkind
    obtain ⟨htext', hvalue'⟩ := hfaces'.text_of_eof hkind'
    exact ⟨q, q', [], [], hq, hq', ⟨by rw [hlimits, hlimits', hp.limits], hfaces, hfaces',
      ⟨hkind.trans hkind'.symm, hvalue.trans hvalue'.symm, htext.trans htext'.symm⟩, .nil⟩,
      fun hne => absurd hkind hne⟩
  · have heof' : p'.lookahead.kind ≠ .eof := hp.same.kind ▸ heof
    obtain ⟨q, hq, hfaces, hlimits⟩ := hp.faces.advance heof
    obtain ⟨q', hq', hfaces', hlimits'⟩ := hp.faces'.advance heof'
    obtain ⟨ys, rfl⟩ := hfaces.exists_cons
    obtain ⟨ys', rfl⟩ := hfaces'.exists_cons
    obtain ⟨halike, hrest⟩ := List.forall₂_cons.mp hp.alike
    refine ⟨q, q', ys, ys', hq, hq', ⟨by rw [hlimits, hlimits', hp.limits], hfaces, hfaces',
      halike.same, hrest⟩, fun hne => ?_⟩
    rw [hp.faces.touches_iff, hp.faces'.touches_iff]
    exact halike.touches hne

namespace Parse

/-- Results that agree: values in a relation with parsers that are alike behind them, or one
fault. -/
inductive Agree {α β : Type} (V : α → β → Prop) :
    EStateM.Result Diagnostic Parser α → EStateM.Result Diagnostic Parser β → Prop where
  | ok {a : α} {b : β} {q q' : Parser} {xs xs' : List Lexeme} (hab : V a b)
      (hq : q.Like q' xs xs') : Agree V (.ok a q) (.ok b q')
  | error {d d' : Diagnostic} {q q' : Parser} (hd : d.fault = d'.fault) :
      Agree V (.error d q) (.error d' q')

/-- Steps whose results agree at parsers that are alike. -/
def Agrees {α β : Type} (V : α → β → Prop) (m : Parse α) (m' : Parse β) : Prop :=
  ∀ p p' xs xs', p.Like p' xs xs' → Agree V (m p) (m' p')

namespace Agrees

variable {α β γ δ : Type} {V : α → β → Prop} {W : γ → δ → Prop}

/-! ## One step after another -/

/-- Values in a relation. -/
theorem pure {a : α} {b : β} (h : V a b) : Agrees V (Pure.pure a) (Pure.pure b) :=
  fun _ _ _ _ hp => .ok h hp

/-- Failures with one fault. -/
theorem fail (fault : Fault) : Agrees V (Parse.fail fault) (Parse.fail fault) :=
  fun _ _ _ _ _ => .error rfl

/-- Steps agree one after another. -/
theorem bind {m : Parse α} {m' : Parse β} {f : α → Parse γ} {f' : β → Parse δ}
    (hm : Agrees V m m') (hf : ∀ a b, V a b → Agrees W (f a) (f' b)) :
    Agrees W (m >>= f) (m' >>= f') := by
  intro p p' xs xs' hp
  rw [bind_apply, bind_apply]
  have hagree := hm p p' xs xs' hp
  generalize m p = r at hagree
  generalize m' p' = r' at hagree
  cases hagree with
  | ok hab hq => exact hf _ _ hab _ _ _ _ hq
  | error hd => exact .error hd

/-- Steps with one value agree one after another. -/
theorem bind_eq {m : Parse α} {f : α → Parse γ} {f' : α → Parse δ} (hm : Agrees Eq m m)
    (hf : ∀ a, Agrees W (f a) (f' a)) : Agrees W (m >>= f) (m >>= f') :=
  bind hm fun a _ hab => hab ▸ hf a

/-- A choice by the same condition. -/
theorem ite {c c' : Prop} [Decidable c] [Decidable c'] {m n : Parse α} {m' n' : Parse β}
    (hc : c ↔ c') (hthen : c → Agrees V m m') (helse : ¬ c → Agrees V n n') :
    Agrees V (if c then m else n) (if c' then m' else n') := by
  by_cases h : c
  · rw [if_pos h, if_pos (hc.mp h)]
    exact hthen h
  · rw [if_neg h, if_neg fun h' => h (hc.mpr h')]
    exact helse h

/-- More pairs of values may be related. -/
theorem mono {V' : α → β → Prop} {m : Parse α} {m' : Parse β} (h : Agrees V m m')
    (hV : ∀ a b, V a b → V' a b) : Agrees V' m m' := by
  intro p p' xs xs' hp
  have hagree := h p p' xs xs' hp
  generalize m p = r at hagree
  generalize m' p' = r' at hagree
  cases hagree with
  | ok hab hq => exact .ok (hV _ _ hab) hq
  | error hd => exact .error hd

/-! ## The lookahead -/

/-- Looking at the lookahead, whose kind and value are the same. -/
theorem look {f : Token → Parse γ} {f' : Token → Parse δ}
    (h : ∀ kind value span span', Agrees W (f ⟨kind, value, span⟩) (f' ⟨kind, value, span'⟩)) :
    Agrees W (current >>= f) (current >>= f') := by
  intro p p' xs xs' hp
  rw [current_bind_apply, current_bind_apply]
  obtain ⟨⟨gap, text, ⟨kind, value, span⟩⟩, hx⟩ : ∃ x, x = p.lookahead := ⟨_, rfl⟩
  obtain ⟨⟨gap', text', ⟨kind', value', span'⟩⟩, hx'⟩ : ∃ x, x = p'.lookahead := ⟨_, rfl⟩
  have hsame := hp.same
  rw [← hx, ← hx'] at hsame
  obtain rfl : kind = kind' := hsame.kind
  obtain rfl : value = value' := hsame.value
  rw [← hx, ← hx']
  exact h kind value span span' p p' xs xs' hp

/-- Asking for the text behind the lookahead, where both parsers skipped nothing. -/
theorem nothingSkipped {f : List Char → Parse γ} {f' : List Char → Parse δ}
    (h : Agrees W (f []) (f' [])) : Agrees W (skipped >>= f) (skipped >>= f') := by
  intro p p' xs xs' hp
  rw [skipped_bind_apply, skipped_bind_apply, hp.faces.skipped, hp.faces'.skipped]
  exact h p p' xs xs' hp

/-- Asking for the kind of the lookahead. -/
theorem sees (k : TokenKind) : Agrees Eq (Parse.sees k) (Parse.sees k) := by
  intro p p' xs xs' hp
  have hkind : p.kind = p'.kind := hp.same.kind
  rw [Parse.sees, Parse.sees, hkind]
  exact .ok rfl hp

/-- Going past the lookahead. -/
theorem advance : Agrees Lexeme.Same Parse.advance Parse.advance := by
  intro p p' xs xs' hp
  obtain ⟨q, q', ys, ys', hq, hq', hlike, _⟩ := hp.advance
  rw [hq, hq']
  exact .ok hp.same hlike

/-- Going past the lookahead to a step that takes what is the same in it. -/
theorem past {f : Lexeme → Parse γ} {f' : Lexeme → Parse δ}
    (h : ∀ x x', x.Same x' → Agrees W (f x) (f' x')) :
    Agrees W (Parse.advance >>= f) (Parse.advance >>= f') := bind advance h

/-- A token that a production cannot start with. -/
theorem unexpected (context : String) :
    Agrees V (Parse.unexpected context) (Parse.unexpected context) :=
  look fun _ _ _ _ => fail _

/-- Asking for a kind. -/
theorem consume (k : TokenKind) : Agrees Lexeme.Same (Parse.consume k) (Parse.consume k) :=
  look fun _ _ _ _ => ite Iff.rfl (fun _ => advance) fun _ => fail _

/-- Asking for a kind with a text. -/
theorem consumeText (k : TokenKind) (text : String) :
    Agrees Lexeme.Same (Parse.consumeText k text) (Parse.consumeText k text) :=
  look fun _ _ _ _ => ite Iff.rfl (fun _ => fail _) fun _ => consume k

/-- Accepting a kind. -/
theorem accept (k : TokenKind) : Agrees Eq (Parse.accept k) (Parse.accept k) :=
  bind_eq (sees k) fun _ => ite Iff.rfl (fun _ => past fun _ _ _ => pure rfl) fun _ => pure rfl

/-- Checking a depth. -/
theorem check (depth : Nat) : Agrees Eq (checkDepth depth) (checkDepth depth) := by
  intro p p' xs xs' hp
  rw [checkDepth, checkDepth, hp.limits]
  by_cases hdeep : p'.lexer.limits.maxNestingDepth < depth
  · rw [if_pos hdeep, if_pos hdeep]
    exact .error rfl
  · rw [if_neg hdeep, if_neg hdeep]
    exact .ok rfl hp

/-- Looking at the two lexemes behind the lookahead. -/
theorem peek : Agrees Eq braceOpensAttributes braceOpensAttributes := by
  intro p p' xs xs' hp
  obtain ⟨q, q', _, _, hq, hq', hlike, _⟩ := hp.advance
  obtain ⟨r, r', _, _, hr, hr', hlike', _⟩ := hlike.advance
  rw [braceOpensAttributes, braceOpensAttributes, Parser.next_of_advance hq,
    Parser.next_of_advance hq']
  have hsecond : q.lookahead.token.kind = q'.lookahead.token.kind := hlike.same.kind
  by_cases hkind : q.lookahead.token.kind = .identifier
  · have hkind' : q'.lookahead.token.kind = .identifier := hsecond ▸ hkind
    have hthird : r.lookahead.token.kind = r'.lookahead.token.kind := hlike'.same.kind
    simp only [if_pos hkind, if_pos hkind', Parser.next_of_advance hr,
      Parser.next_of_advance hr', hthird]
    exact .ok rfl hp
  · have hkind' : q'.lookahead.token.kind ≠ .identifier := hsecond ▸ hkind
    simp only [if_neg hkind, if_neg hkind']
    exact .ok rfl hp

/-! ## Lists -/

/-- Turns that end a list alike or go on from one state, with items in a relation. -/
inductive TurnLike {σ : Type} (V : α → β → Prop) : Turn σ α → Turn σ β → Prop where
  | stop : TurnLike V .stop .stop
  | last {a : α} {b : β} (h : V a b) : TurnLike V (.last a) (.last b)
  | more {a : α} {b : β} {s : σ} (h : V a b) : TurnLike V (.more a s) (.more b s)

/-- Lists agree where their turns do. -/
theorem collect {σ : Type} {turn : σ → Parse (Turn σ α)} {turn' : σ → Parse (Turn σ β)}
    (h : Progressive turn) (h' : Progressive turn')
    (hturn : ∀ s, Agrees (TurnLike V) (turn s) (turn' s)) (s : σ) :
    Agrees (List.Forall₂ V) (Parse.collect turn s) (Parse.collect turn' s) := by
  intro p p' xs xs' hp
  induction hn : p.left using Nat.strongRecOn generalizing s p p' xs xs' with
  | ind n ih =>
      have hagree := hturn s p p' xs xs' hp
      rw [collect_eq h, collect_eq h', bind_apply, bind_apply]
      generalize hr : turn s p = r at hagree
      generalize turn' s p' = r' at hagree
      cases hagree with
      | error hd => exact .error hd
      | @ok _ _ q q' ys ys' hab hq =>
          cases hab with
          | stop => exact .ok .nil hq
          | last hab => exact .ok (.cons hab .nil) hq
          | @more a b next hab =>
              -- the turns behind the first one start nearer to the end
              have hleft : q.left < n := hn ▸ h s p a next q hr
              have hrest := ih q.left hleft next q q' ys ys' hq rfl
              dsimp only
              rw [bind_apply, bind_apply]
              generalize Parse.collect turn next q = rest at hrest
              generalize Parse.collect turn' next q' = rest' at hrest
              cases hrest with
              | ok habs hq' => exact .ok (.cons hab habs) hq'
              | error hd => exact .error hd

/-- Lists are the same where their turns are. -/
theorem collect_same {σ : Type} {turn : σ → Parse (Turn σ α)} (h : Progressive turn)
    (hturn : ∀ s, Agrees Eq (turn s) (turn s)) (s : σ) :
    Agrees Eq (Parse.collect turn s) (Parse.collect turn s) := by
  refine (collect h h (V := Eq) (fun s => (hturn s).mono ?_) s).mono ?_
  · rintro (_ | _ | _) _ rfl
    · exact .stop
    · exact .last rfl
    · exact .more rfl
  · intro as bs habs
    rwa [List.forall₂_eq_eq_eq] at habs

end Agrees

end Parse

end GenericIR
