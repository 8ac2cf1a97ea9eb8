/-
# Outcomes of steps

A step of the parser agrees with a phrase of the grammar at a parser: it gives a value
exactly where the phrase derives that value from the lexemes ahead, and stops before the
lexemes that the phrase leaves.  `Parse.Outcome` says so, with one rule for each way in which
steps are put together.

* `Parse.Outcome.bind`, `Parse.Outcome.map` : one step after another derives one phrase after
  another, and what is made of a value;
* `Parse.Outcome.past`, `Parse.Outcome.consume`, `Parse.Outcome.peek` : the primitive steps.
-/
import GenericIR.Proofs.Lookahead
import GenericIR.Proofs.Progress

namespace GenericIR

/-! ## Parsers before a run of lexemes -/

/-- A parser before at most `n` lexemes, whose bound on nesting lets through exactly the depths
in `fits`, as far as `n` lexemes can nest. -/
structure Parser.At (fits : Nat → Prop) (n : Nat) (p : Parser) (xs : List Lexeme) : Prop where
  faces : p.Faces xs
  short : xs.length ≤ n
  room : ∀ d ≤ n, d ≤ p.lexer.limits.maxNestingDepth ↔ fits d

namespace Parser.At

variable {fits : Nat → Prop} {n : Nat} {p : Parser} {x : Lexeme} {xs : List Lexeme}

/-- A parser stands before some lexeme. -/
theorem exists_cons (h : p.At fits n xs) : ∃ x ys, xs = x :: ys := by
  obtain ⟨ys, hys⟩ := h.faces.exists_cons
  exact ⟨_, ys, hys⟩

/-- The kind of the first lexeme is that of the lookahead. -/
theorem kind_eq (h : p.At fits n (x :: xs)) : p.kind = x.kind := by
  rw [Parser.kind, h.faces.lookahead]

/-- Going past a lexeme before the end. -/
theorem advance (h : p.At fits n (x :: xs)) (hx : x.kind ≠ .eof) :
    ∃ q, Parse.advance p = .ok x q ∧ q.At fits n xs := by
  obtain ⟨q, hq, hfaces, hlimits⟩ := h.faces.advance hx
  refine ⟨q, hq, hfaces, ?_, ?_⟩
  · have hshort := h.short
    rw [List.length_cons] at hshort
    omega
  · rw [hlimits]
    exact h.room

end Parser.At

namespace Parse

/-! ## Outcomes -/

/-- At a parser, a step gives the values that the phrase `S` derives there, and stands before
the lexemes that it leaves. -/
structure Outcome {α : Type} (fits : Nat → Prop) (n : Nat) (m : Parse α) (p : Parser)
    (S : α → List Lexeme → Prop) : Prop where
  sound : ∀ a q, m p = .ok a q → ∃ ys, S a ys ∧ q.At fits n ys
  complete : ∀ a ys, S a ys → ∃ q, m p = .ok a q ∧ q.At fits n ys

namespace Outcome

variable {α β : Type} {fits : Nat → Prop} {n : Nat} {p : Parser} {S S' : α → List Lexeme → Prop}
  {x y : Lexeme} {xs : List Lexeme}

/-- The same step has any phrase that derives the same. -/
theorem congr {m : Parse α} (h : Outcome fits n m p S') (hS : ∀ a ys, S a ys ↔ S' a ys) :
    Outcome fits n m p S := by
  constructor
  · intro a q hq
    obtain ⟨ys, hys, hat⟩ := h.sound a q hq
    exact ⟨ys, (hS a ys).mpr hys, hat⟩
  · intro a ys hys
    exact h.complete a ys ((hS a ys).mp hys)

/-- Only what a step does at the parser counts. -/
theorem of_eq {m g : Parse α} {q : Parser} (h : m p = g q) (hq : Outcome fits n g q S) :
    Outcome fits n m p S where
  sound a r hr := hq.sound a r (h ▸ hr)
  complete a ys hys := by
    rw [h]
    exact hq.complete a ys hys

/-- A value and no step. -/
theorem pure {a : α} (hp : p.At fits n xs) (hS : ∀ b ys, S b ys ↔ b = a ∧ ys = xs) :
    Outcome fits n (Pure.pure a) p S := by
  constructor
  · intro b q hq
    cases hq
    exact ⟨xs, (hS a xs).mpr ⟨rfl, rfl⟩, hp⟩
  · intro b ys hys
    obtain ⟨rfl, rfl⟩ := (hS b ys).mp hys
    exact ⟨p, rfl, hp⟩

/-- A step that fails. -/
theorem fails {m : Parse α} (hm : ∃ d q, m p = .error d q) (hS : ∀ b ys, ¬ S b ys) :
    Outcome fits n m p S := by
  obtain ⟨d, q, hq⟩ := hm
  constructor
  · intro b r hr
    rw [hq] at hr
    cases hr
  · intro b ys hys
    exact absurd hys (hS b ys)

/-- One step after another. -/
theorem bind {m : Parse α} {f : α → Parse β} {T : α → List Lexeme → β → List Lexeme → Prop}
    (hm : Outcome fits n m p S)
    (hf : ∀ a q ys, m p = .ok a q → S a ys → q.At fits n ys → Outcome fits n (f a) q (T a ys)) :
    Outcome fits n (m >>= f) p (fun b zs => ∃ a ys, S a ys ∧ T a ys b zs) := by
  constructor
  · intro b r hr
    rw [bind_apply] at hr
    split at hr
    · next a q hq =>
        obtain ⟨ys, hys, hat⟩ := hm.sound a q hq
        obtain ⟨zs, hzs, hzat⟩ := (hf a q ys hq hys hat).sound b r hr
        exact ⟨zs, ⟨a, ys, hys, hzs⟩, hzat⟩
    · cases hr
  · rintro b zs ⟨a, ys, hys, hzs⟩
    obtain ⟨q, hq, hat⟩ := hm.complete a ys hys
    obtain ⟨r, hr, hzat⟩ := (hf a q ys hq hys hat).complete b zs hzs
    refine ⟨r, ?_, hzat⟩
    rw [bind_apply, hq]
    exact hr

/-- What is made of the value of a step. -/
theorem map {m : Parse α} (f : α → β) (hm : Outcome fits n m p S) :
    Outcome fits n (m >>= fun a => Pure.pure (f a)) p fun b ys => ∃ a, S a ys ∧ b = f a := by
  refine congr (bind hm fun a _ _ _ _ hat => pure hat fun _ _ => Iff.rfl) fun b ys => ⟨?_, ?_⟩
  · rintro ⟨a, ha, rfl⟩
    exact ⟨a, ys, ha, rfl, rfl⟩
  · rintro ⟨a, _, ha, rfl, rfl⟩
    exact ⟨a, ha, rfl⟩

/-- Looking at the lookahead. -/
theorem look {f : Token → Parse α} (hp : p.At fits n (x :: xs))
    (h : Outcome fits n (f x.token) p S) : Outcome fits n (current >>= f) p S :=
  of_eq (by rw [current_bind_apply, hp.faces.lookahead]) h

/-- Asking for the text behind the lookahead, where nothing was skipped. -/
theorem nothingSkipped {f : List Char → Parse α} (hp : p.At fits n xs)
    (h : Outcome fits n (f []) p S) : Outcome fits n (skipped >>= f) p S :=
  of_eq (by rw [skipped_bind_apply, hp.faces.skipped]) h

/-- Asking for the kind of the lookahead. -/
theorem sees {k : TokenKind} {f : Bool → Parse α} (hp : p.At fits n (x :: xs))
    (htrue : x.kind = k → Outcome fits n (f true) p S)
    (hfalse : x.kind ≠ k → Outcome fits n (f false) p S) :
    Outcome fits n (Parse.sees k >>= f) p S := by
  refine look (f := fun t => f (decide (t.kind = k))) hp ?_
  by_cases hk : x.kind = k
  · rw [decide_eq_true hk]
    exact htrue hk
  · rw [decide_eq_false hk]
    exact hfalse hk

/-- Going past the lookahead. -/
theorem past {f : Lexeme → Parse α} (hp : p.At fits n (x :: xs)) (hx : x.kind ≠ .eof)
    (h : ∀ q, q.left < p.left → q.At fits n xs → Outcome fits n (f x) q S) :
    Outcome fits n (advance >>= f) p S := by
  obtain ⟨q, hq, hat⟩ := hp.advance hx
  have hleft := Parser.left_of_advance p q x hq (by rw [hp.kind_eq]; exact hx)
  exact of_eq (by rw [bind_apply, hq]) (h q hleft hat)

/-- Accepting a kind goes past it where it is the lookahead. -/
theorem accept {k : TokenKind} {f : Bool → Parse α} (hp : p.At fits n (x :: xs))
    (hk : k ≠ .eof)
    (htrue : x.kind = k → ∀ q, q.left < p.left → q.At fits n xs → Outcome fits n (f true) q S)
    (hfalse : x.kind ≠ k → Outcome fits n (f false) p S) :
    Outcome fits n (Parse.accept k >>= f) p S := by
  rw [accept_bind]
  refine sees hp (fun hx => ?_) fun hx => ?_
  · rw [if_pos rfl]
    exact past hp (hx ▸ hk) (htrue hx)
  · exact hfalse hx

/-- Asking for a kind goes past it, or fails where nothing can be derived. -/
theorem consume {k : TokenKind} {f : Lexeme → Parse α} (hp : p.At fits n (x :: xs))
    (hk : k ≠ .eof) (hS : x.kind ≠ k → ∀ a ys, ¬ S a ys)
    (h : x.kind = k → ∀ q, q.left < p.left → q.At fits n xs → Outcome fits n (f x) q S) :
    Outcome fits n (Parse.consume k >>= f) p S := by
  by_cases hx : x.kind = k
  · refine of_eq ?_ (past hp (hx ▸ hk) (h hx))
    rw [bind_apply, bind_apply, Parse.consume, current_bind_apply, hp.faces.lookahead,
      if_pos hx]
  · refine fails ⟨.ofFault (.unexpectedKind k x.token.render) x.token.span, p, ?_⟩ (hS hx)
    rw [bind_apply, Parse.consume, current_bind_apply, hp.faces.lookahead, if_neg hx, fail,
      hp.faces.lookahead]

/-- Asking for a kind with a text goes past it, or fails where nothing can be derived. -/
theorem consumeText {k : TokenKind} {text : String} {f : Lexeme → Parse α}
    (hp : p.At fits n (x :: xs)) (hk : k ≠ .eof)
    (hS : ¬ (x.kind = k ∧ x.token.hasText text) → ∀ a ys, ¬ S a ys)
    (h : x.kind = k → x.token.hasText text → ∀ q, q.left < p.left → q.At fits n xs →
      Outcome fits n (f x) q S) :
    Outcome fits n (Parse.consumeText k text >>= f) p S := by
  by_cases hx : x.kind = k ∧ ¬ x.token.hasText text
  · refine fails ⟨.ofFault (.unexpectedValue text x.token.render) x.token.span, p, ?_⟩
      (hS fun hgood => hx.2 hgood.2)
    rw [bind_apply, Parse.consumeText, current_bind_apply, hp.faces.lookahead, if_pos hx, fail,
      hp.faces.lookahead]
  · refine of_eq (g := Parse.consume k >>= f) ?_ (consume hp hk (fun hne => hS fun hgood =>
      hne hgood.1) fun hkind => h hkind ?_)
    · rw [bind_apply, bind_apply, Parse.consumeText, current_bind_apply, hp.faces.lookahead,
        if_neg hx]
    · exact Decidable.of_not_not fun htext => hx ⟨hkind, htext⟩

/-- A token that a production cannot start with. -/
theorem unexpected {context : String} (hS : ∀ b ys, ¬ S b ys) :
    Outcome fits n (Parse.unexpected context) p S :=
  fails ⟨_, _, rfl⟩ hS

/-- Checking a depth within reach. -/
theorem check {depth : Nat} {m : Parse α} (hp : p.At fits n xs) (hdepth : depth ≤ n)
    (hS : ¬ fits depth → ∀ b ys, ¬ S b ys) (h : fits depth → Outcome fits n m p S) :
    Outcome fits n (checkDepth depth >>= fun _ => m) p S := by
  have hroom := hp.room depth hdepth
  by_cases hle : depth ≤ p.lexer.limits.maxNestingDepth
  · refine of_eq ?_ (h (hroom.mp hle))
    rw [bind_apply, checkDepth, if_neg (Nat.not_lt.mpr hle)]
  · refine fails ?_ (hS fun hfits => hle (hroom.mpr hfits))
    refine ⟨.ofFault (.limitExceeded "bracket nesting depth" p.lexer.limits.maxNestingDepth)
      p.lookahead.token.span, p, ?_⟩
    rw [bind_apply, checkDepth, if_pos (Nat.not_le.mp hle)]
    rfl

/-- Looking at the two lexemes behind a brace. -/
theorem peek {f : Bool → Parse α} (hp : p.At fits n (x :: xs)) (hx : x.kind = .lbrace)
    (htrue : Grammar.OpensDictionary (x :: xs) → Outcome fits n (f true) p S)
    (hfalse : ¬ Grammar.OpensDictionary (x :: xs) → Outcome fits n (f false) p S) :
    Outcome fits n (braceOpensAttributes >>= f) p S := by
  have hpeek : ∃ b : Bool, braceOpensAttributes p = .ok b p ∧
      (b = true ↔ Grammar.OpensDictionary (x :: xs)) := by
    obtain ⟨q, hq, hat⟩ := hp.advance (by rw [hx]; decide)
    obtain ⟨y, ys, rfl⟩ := hat.exists_cons
    rw [braceOpensAttributes, Parser.next_of_advance hq, hat.faces.lookahead]
    by_cases hy : y.kind = .identifier
    · obtain ⟨r, hr, hat'⟩ := hat.advance (by rw [hy]; decide)
      obtain ⟨z, zs, rfl⟩ := hat'.exists_cons
      refine ⟨decide (z.kind ∈ [.equal, .comma, .rbrace]), ?_, ?_⟩
      · simp only [if_pos hy, Parser.next_of_advance hr, hat'.faces.lookahead]
      · rw [decide_eq_true_iff]
        exact ⟨fun hz => ⟨hy, hz⟩, And.right⟩
    · refine ⟨false, by simp only [if_neg hy], by simp, fun hopens => ?_⟩
      cases ys with
      | nil => exact hopens.elim
      | cons z zs => exact absurd hopens.1 hy
  obtain ⟨b, hb, hiff⟩ := hpeek
  refine of_eq (g := f b) (by rw [bind_apply, hb]) ?_
  cases b with
  | true => exact htrue (hiff.mp rfl)
  | false => exact hfalse fun hopens => absurd (hiff.mpr hopens) (by decide)

/-- What is made of a part that is there exactly when the lookahead can start it. -/
theorem optionallyMap {starts : Lexeme → Prop} {part : Phrase α} {m : Parse β} (f : Option α → β)
    (hp : p.At fits n (x :: xs))
    (hpresent : starts x → Outcome fits n m p fun r ys =>
      ∃ a, part (x :: xs) a ys ∧ r = f (some a))
    (hmissing : ¬ starts x → m p = .ok (f none) p) :
    Outcome fits n m p fun r ys =>
      ∃ a, Grammar.Optionally starts part (x :: xs) a ys ∧ r = f a := by
  by_cases hx : starts x
  · refine congr (hpresent hx) fun r ys => ⟨?_, ?_⟩
    · rintro ⟨_, h, rfl⟩
      obtain ⟨a, rfl, hpart⟩ := h.of_starts hx
      exact ⟨a, hpart, rfl⟩
    · rintro ⟨a, h, rfl⟩
      exact ⟨some a, .present hx h, rfl⟩
  · refine of_eq (g := Pure.pure (f none)) (hmissing hx) (pure hp fun r ys => ⟨?_, ?_⟩)
    · rintro ⟨_, h, rfl⟩
      obtain ⟨rfl, rfl⟩ := h.of_not hx
      exact ⟨rfl, rfl⟩
    · rintro ⟨rfl, rfl⟩
      exact ⟨none, .missing hx, rfl⟩

/-- A part that is there exactly when the lookahead can start it. -/
theorem optionally {starts : Lexeme → Prop} {part : Phrase α} {m : Parse (Option α)}
    (hp : p.At fits n (x :: xs))
    (hpresent : starts x → Outcome fits n m p fun r ys => ∃ a, part (x :: xs) a ys ∧ r = some a)
    (hmissing : ¬ starts x → m p = .ok none p) :
    Outcome fits n m p (Grammar.Optionally starts part (x :: xs)) := by
  refine congr (optionallyMap id hp hpresent hmissing) fun r ys => ⟨fun h => ⟨r, h, rfl⟩, ?_⟩
  rintro ⟨_, h, rfl⟩
  exact h

end Outcome

/-- A production that agrees with its phrase at every parser. -/
def Recognizes {α : Type} (fits : Nat → Prop) (m : Parse α) (R : Phrase α) : Prop :=
  ∀ {n p xs}, p.At fits n xs → Outcome fits n m p (R xs)

end Parse

end GenericIR
