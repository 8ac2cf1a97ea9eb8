/-
# Runs that are read in one way

A parser comes to one result.  So a phrase that it recognizes leaves one and the same run wherever
a parser stands before the lexemes, and items that are read up to some place are the first of all
the items that are read from there.

* `Parse.settled_of_recognizes` : what a recognized phrase leaves is settled;
* `Grammar.Reaches.rest` : items up to a place are the first of all items;
* `Grammar.IsOpening.settled`, `Grammar.IsSignature.settled` : productions that no step of the
  parser stands for alone.
-/
import GenericIR.Proofs.Recognition.Module
import GenericIR.Proofs.Trailing.Hole

namespace GenericIR

/-- What a parser faces is determined by the parser. -/
theorem Parser.Faces.unique {p : Parser} {xs ys : List Lexeme} (hxs : p.Faces xs)
    (hys : p.Faces ys) : xs = ys := by
  have hreads : ∀ {zs : List Lexeme}, p.Faces zs →
      p.lookahead.kind = .eof ∧ zs = [p.lookahead] ∨
        p.lookahead.kind ≠ .eof ∧ ∃ ws, p.lexer.Reads ws ∧ zs = p.lookahead :: ws := by
    rintro zs ⟨_, l, hnext, hzs⟩
    cases hzs with
    | last hlast hx =>
        rw [hnext] at hlast
        cases hlast
        exact Or.inl ⟨hx, rfl⟩
    | more hmore hx hrest =>
        rw [hnext] at hmore
        cases hmore
        exact Or.inr ⟨hx, _, hrest, rfl⟩
  rcases hreads hxs with ⟨hx, rfl⟩ | ⟨hx, ws, hws, rfl⟩ <;>
    rcases hreads hys with ⟨hy, rfl⟩ | ⟨hy, vs, hvs, rfl⟩
  · rfl
  · exact absurd hx hy
  · exact absurd hy hx
  · rw [← ((Lexer.reads_iff _ _).mp hws).2, ← ((Lexer.reads_iff _ _).mp hvs).2]

/-- Runs of lexemes that some parser stands before. -/
def Readable (fits : Nat → Prop) (xs : List Lexeme) : Prop := ∃ n p, Parser.At fits n p xs

/-- Behind a lexeme before the end the rest of a run is readable. -/
theorem Readable.tail {fits : Nat → Prop} {x : Lexeme} {xs : List Lexeme}
    (h : Readable fits (x :: xs)) (hx : x.kind ≠ .eof) : Readable fits xs := by
  obtain ⟨n, p, hp⟩ := h
  obtain ⟨q, _, hq⟩ := hp.advance hx
  exact ⟨n, q, hq⟩

/-- The end of a readable run is readable. -/
theorem Readable.of_append {fits : Nat → Prop} {x : Lexeme} {us xs : List Lexeme}
    (h : Readable fits (us ++ x :: xs)) : Readable fits (x :: xs) := by
  induction us with
  | nil => exact h
  | cons u us ih =>
      refine ih (h.tail fun hend => ?_)
      -- nothing follows the end of the text
      obtain ⟨_, _, hp⟩ := h
      exact List.append_ne_nil_of_right_ne_nil us (List.cons_ne_nil x xs)
        (hp.faces.eq_nil_of_eof hend)

/-- All the lexemes of a source are readable. -/
theorem Lexer.Reads.readable {limits : Limits} {source : String} {xs : List Lexeme}
    (h : (Lexer.ofSource limits source).Reads xs) : Readable (· ≤ limits.maxNestingDepth) xs := by
  obtain ⟨p, _, hfaces, hlimits, _⟩ := Parser.faces_ofSource limits source xs h
  exact ⟨xs.length, p, hfaces, Nat.le_refl _, fun _ _ => by rw [hlimits]⟩

/-- A phrase settles what it leaves of a readable run. -/
abbrev Settled {α : Type} (fits : Nat → Prop) (R : Phrase α) : Prop :=
  ∀ {xs ys : List Lexeme} {a : α}, Readable fits xs → R xs a ys →
    Readable fits ys ∧ ∀ {b : α} {zs : List Lexeme}, R xs b zs → zs = ys

/-- **A recognized phrase settles what it leaves.** -/
theorem Parse.settled_of_recognizes {α : Type} {fits : Nat → Prop} {m : Parse α} {R : Phrase α}
    (h : Recognizes fits m R) : Settled fits R := by
  rintro xs ys a ⟨n, p, hp⟩ ha
  obtain ⟨q, hq, hys⟩ := (h hp).complete a ys ha
  refine ⟨⟨n, q, hys⟩, fun {b zs} hb => ?_⟩
  obtain ⟨r, hr, hzs⟩ := (h hp).complete b zs hb
  rw [hq] at hr
  cases hr
  exact hzs.faces.unique hys.faces

namespace Grammar

open Parse

variable {α : Type} {fits : Nat → Prop} {xs ys zs : List Lexeme}

/-- The attributes behind their word settle what they leave. -/
theorem MayHaveClause.settled : Settled fits (MayHaveClause fits) := by
  intro xs ys entries hxs h
  obtain ⟨hys, hunique⟩ :=
    settled_of_recognizes (recognizes_attributesClause .empty) hxs ⟨_, h, rfl⟩
  exact ⟨hys, fun h' => hunique ⟨_, h', rfl⟩⟩

/-- The results behind their arrow settle what they leave. -/
theorem settled_results : Settled fits
    (Optionally (·.kind = .arrow) (After .arrow (AreResults fits))) := by
  intro xs ys results hxs h
  obtain ⟨hys, hunique⟩ := settled_of_recognizes recognizes_resultsClause hxs ⟨_, h, rfl⟩
  exact ⟨hys, fun h' => hunique ⟨_, h', rfl⟩⟩

/-- The opening of a module settles what it leaves. -/
theorem IsOpening.settled : Settled fits (IsOpening fits) := by
  rintro xs ys _ hxs ⟨hx, _, hname, hentries, ho⟩
  have hxs := hxs.tail (by rw [hx]; decide)
  obtain ⟨hxs₁, hname_unique⟩ := settled_of_recognizes recognizes_callee hxs hname
  obtain ⟨hys, hclause_unique⟩ := MayHaveClause.settled hxs₁ hentries
  refine ⟨hys.tail (by rw [ho]; decide), ?_⟩
  rintro _ zs ⟨_, _, hname', hentries', _⟩
  obtain rfl := hname_unique hname'
  exact (List.cons.inj (hclause_unique hentries')).2

/-- The signature of a function settles what it leaves. -/
theorem IsSignature.settled : Settled fits (IsSignature fits) := by
  rintro xs ys _ hxs ⟨hx, hvisibility, hy, hparameters, hearly, hresults, hlate⟩
  have hxs := hxs.tail (by rw [hx]; decide)
  obtain ⟨hxs, hvisibility_unique⟩ := settled_of_recognizes recognizes_visibility hxs hvisibility
  have hxs := hxs.tail (by rw [hy]; decide)
  obtain ⟨hxs, hparameters_unique⟩ := settled_of_recognizes recognizes_parameters hxs hparameters
  obtain ⟨hxs, hearly_unique⟩ := MayHaveClause.settled hxs hearly
  obtain ⟨hxs, hresults_unique⟩ := settled_results hxs hresults
  obtain ⟨hys, hlate_unique⟩ := MayHaveClause.settled hxs hlate
  refine ⟨hys, ?_⟩
  rintro _ zs ⟨_, hvisibility', _, hparameters', hearly', hresults', hlate'⟩
  obtain ⟨rfl, rfl⟩ := List.cons.inj (hvisibility_unique hvisibility')
  obtain rfl := hparameters_unique hparameters'
  obtain rfl := hearly_unique hearly'
  obtain rfl := hresults_unique hresults'
  exact hlate_unique hlate'

/-- Items up to some place are the first of all the items that are read. -/
theorem Reaches.rest {stops : List TokenKind} {item : Phrase α} {as bs : List α}
    (hitem : Settled fits item) (hxs : Readable fits xs) (h : Reaches stops item xs as ys)
    (hall : Until stops item xs bs zs) : Readable fits ys ∧ ∃ cs, Until stops item ys cs zs := by
  induction h generalizing bs with
  | nil => exact ⟨hxs, bs, hall⟩
  | cons hx h _ ih =>
      cases hall with
      | done hstop => exact absurd hstop hx
      | more _ h' hlater =>
          obtain ⟨hys, hunique⟩ := hitem hxs h
          obtain rfl := hunique h'
          exact ih hys hlater

/-- Behind the front of an operation a readable run is readable. -/
theorem IsFront.readable {front : Front} (h : IsFront fits xs front ys) (hxs : Readable fits xs) :
    Readable fits ys := by
  obtain ⟨y, zs, rfl⟩ : ∃ y zs, ys = y :: zs := by
    cases h <;> exact ⟨_, _, rfl⟩
  obtain ⟨us, rfl⟩ := h.suffix
  exact hxs.of_append

end Grammar

end GenericIR
