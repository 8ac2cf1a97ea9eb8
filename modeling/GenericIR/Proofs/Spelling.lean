/-
# Spelled tokens

A text can be put together from tokens with gaps before them.  It is read back as these tokens
where every gap is a run of blanks and closed comments and no token is one that the text
behind it would go on with.

* `gap_append` : a gap that is put before a token is read back;
* `reads_lexemesFrom` : a text that is put together is read back as its lexemes.
-/
import GenericIR.Proofs.Locality
import GenericIR.Proofs.Reading

namespace GenericIR

/-! ## Gaps -/

/-- Blanks, comments up to the end of their line, and comments that are closed. -/
inductive Layout : List Char → Prop where
  | nil : Layout []
  | blank {c : Char} {g : List Char} (hc : isBlank c) (h : Layout g) : Layout (c :: g)
  | line {body g : List Char} (hbody : '\n' ∉ body) (h : Layout g) :
      Layout ('/' :: '/' :: (body ++ '\n' :: g))
  | block {body g : List Char} (hbody : ¬ ['*', '/'] <:+: body) (h : Layout g) :
      Layout ('/' :: '*' :: (body ++ '*' :: '/' :: g))

/-- A blank character is taken into the gap. -/
theorem gapFrom_blank {c : Char} (hc : isBlank c) (t : List Char) :
    gapFrom .between (c :: t) = c :: gapFrom .between t := by
  rw [gapFrom, if_pos hc]
  · rintro _ rfl
    exact absurd hc (by decide)
  · rintro _ rfl
    exact absurd hc (by decide)

/-- A comment up to the end of its line is taken whole. -/
theorem gapFrom_line {body : List Char} (hbody : '\n' ∉ body) (t : List Char) :
    gapFrom .line (body ++ '\n' :: t) = body ++ '\n' :: gapFrom .between t := by
  induction body with
  | nil => rfl
  | cons c body ih =>
      have hc : c ≠ '\n' := fun h => hbody (h ▸ List.mem_cons_self)
      rw [List.cons_append, gapFrom, if_neg hc, ih fun h => hbody (List.mem_cons_of_mem c h)]
      rfl

/-- A comment that is closed is taken whole. -/
theorem gapFrom_block {body : List Char} (hbody : ¬ ['*', '/'] <:+: body) (t : List Char) :
    gapFrom .block (body ++ '*' :: '/' :: t) = body ++ '*' :: '/' :: gapFrom .between t := by
  induction body with
  | nil => rfl
  | cons c body ih =>
      rw [List.cons_append, gapFrom, ih fun h => hbody (h.trans (List.suffix_cons c body).isInfix)]
      · rfl
      · rintro rest rfl hrest
        -- the comment would have been closed here
        cases body with
        | nil => cases hrest
        | cons d body =>
            obtain ⟨rfl, _⟩ := List.cons.inj hrest
            exact hbody (List.prefix_append ['*', '/'] body).isInfix

/-- A layout is taken whole, and the gap goes on behind it. -/
theorem gapFrom_append {g : List Char} (h : Layout g) (t : List Char) :
    gapFrom .between (g ++ t) = g ++ gapFrom .between t := by
  induction h with
  | nil => rfl
  | blank hc _ ih => rw [List.cons_append, gapFrom_blank hc, ih, List.cons_append]
  | @line body g hbody _ ih =>
      have hassoc : '/' :: '/' :: (body ++ '\n' :: g) ++ t =
          '/' :: '/' :: (body ++ '\n' :: (g ++ t)) := by
        simp only [List.cons_append, List.append_assoc]
      rw [hassoc, gapFrom, gapFrom_line hbody, ih]
      simp only [List.cons_append, List.append_assoc]
  | @block body g hbody _ ih =>
      have hassoc : '/' :: '*' :: (body ++ '*' :: '/' :: g) ++ t =
          '/' :: '*' :: (body ++ '*' :: '/' :: (g ++ t)) := by
        simp only [List.cons_append, List.append_assoc]
      rw [hassoc, gapFrom, gapFrom_block hbody, ih]
      simp only [List.cons_append, List.append_assoc]

/-- A gap that is put before a token is read back. -/
theorem gap_append {g t : List Char} (h : Layout g) (ht : gap t = []) : gap (g ++ t) = g := by
  rw [gap] at ht
  rw [gap, gapFrom_append h, ht, List.append_nil]

/-- A character that is neither blank nor a slash starts no gap. -/
theorem gap_cons {c : Char} (hc : ¬ isBlank c) (hslash : c ≠ '/') (t : List Char) :
    gap (c :: t) = [] := by
  rw [gap, gapFrom, if_neg hc]
  · exact fun rest h => absurd h hslash
  · exact fun rest h => absurd h hslash

/-! ## Tokens put together -/

/-- A token as it is written, with the gap before it. -/
structure Chunk where
  gap : List Char
  text : List Char
  meaning : Meaning

namespace Chunk

/-- The lexeme of a chunk that is written at a place. -/
def lexeme (c : Chunk) (p : Place) : Lexeme :=
  ⟨String.ofList c.gap, String.ofList c.text,
    ⟨c.meaning.1, c.meaning.2, .ofText (p.after c.gap) c.text⟩⟩

/-- The place behind a chunk. -/
def after (c : Chunk) (p : Place) : Place := (p.after c.gap).after c.text

end Chunk

/-- Chunks one after the other, with more text behind them. -/
def spell (cs : List Chunk) (rest : List Char) : List Char :=
  cs.foldr (fun c text => c.gap ++ (c.text ++ text)) rest

/-- The lexemes of chunks that are written from a place on, with a gap behind them and then
the end of the text. -/
def lexemesFrom (ending : List Char) : Place → List Chunk → List Lexeme
  | p, [] => [⟨String.ofList ending, "", ⟨.eof, .none, ⟨p.after ending, 0⟩⟩⟩]
  | p, c :: cs => c.lexeme p :: lexemesFrom ending (c.after p) cs

/-- Whether every chunk is read back as it is written, where a text stands behind them. -/
def ReadsBack (limits : Limits) : List Chunk → List Char → Prop
  | [], _ => True
  | c :: cs, rest => gap (spell (c :: cs) rest) = c.gap ∧
      (∃ d u, c.text = d :: u ∧
        scanToken limits d (u ++ spell cs rest) = ⟨c.text, .ok c.meaning⟩) ∧
      ReadsBack limits cs rest

/-- Chunks are put together in two steps. -/
theorem spell_append (cs ds : List Chunk) (rest : List Char) :
    spell (cs ++ ds) rest = spell cs (spell ds rest) := List.foldr_append

/-- Chunks are read back in two steps. -/
theorem readsBack_append {limits : Limits} {cs ds : List Chunk} {rest : List Char}
    (hcs : ReadsBack limits cs (spell ds rest)) (hds : ReadsBack limits ds rest) :
    ReadsBack limits (cs ++ ds) rest := by
  induction cs with
  | nil => exact hds
  | cons c cs ih =>
      obtain ⟨hgap, hscan, hrest⟩ := hcs
      rw [List.cons_append]
      refine ⟨?_, ?_, ih hrest⟩
      · rw [← List.cons_append, spell_append]
        exact hgap
      · rwa [spell_append]

/-- A chunk whose gap is a layout and whose text alone is scanned as its token. -/
structure Chunk.Stands (limits : Limits) (c : Chunk) : Prop where
  layout : Layout c.gap
  scan : ∃ d u, c.text = d :: u ∧ ¬ isBlank d ∧ d ≠ '/' ∧
    scanToken limits d u = ⟨c.text, .ok c.meaning⟩

/-- The gap of a chunk is read back. -/
theorem Chunk.Stands.gap_eq {limits : Limits} {c : Chunk} (h : c.Stands limits)
    (rest : List Char) : GenericIR.gap (c.gap ++ (c.text ++ rest)) = c.gap := by
  obtain ⟨d, u, htext, hblank, hslash, _⟩ := h.scan
  refine gap_append h.layout ?_
  rw [htext, List.cons_append]
  exact gap_cons hblank hslash _

/-- A chunk is read back before a text that goes on with no token. -/
theorem readsBack_cons {limits : Limits} {c : Chunk} {cs : List Chunk} {rest : List Char}
    (h : c.Stands limits) (hstops : Stops (spell cs rest)) (hcs : ReadsBack limits cs rest) :
    ReadsBack limits (c :: cs) rest := by
  refine ⟨h.gap_eq _, ?_, hcs⟩
  obtain ⟨d, u, htext, _, _, hscan⟩ := h.scan
  refine ⟨d, u, htext, ?_⟩
  rw [scanToken_append .nil hstops d u]
  · rw [List.append_nil, hscan]
  · rw [List.append_nil, hscan, htext]
    exact ⟨Nat.le_refl _, _, rfl⟩

/-- A chunk that is scanned alike before any text is read back before any. -/
theorem readsBack_cons_of_any {limits : Limits} {c : Chunk} {cs : List Chunk}
    {rest : List Char} (h : c.Stands limits)
    (hany : ∀ d u t, c.text = d :: u → scanToken limits d (u ++ t) = scanToken limits d u)
    (hcs : ReadsBack limits cs rest) : ReadsBack limits (c :: cs) rest := by
  refine ⟨h.gap_eq _, ?_, hcs⟩
  obtain ⟨d, u, htext, _, _, hscan⟩ := h.scan
  exact ⟨d, u, htext, by rw [hany d u _ htext, hscan]⟩

namespace Lexer

/-- A chunk in front of a text is the next lexeme. -/
theorem next_chunk {limits : Limits} (p : Place) {c : Chunk} {rest : List Char}
    (hgap : gap (c.gap ++ (c.text ++ rest)) = c.gap)
    (hscan : ∃ d u, c.text = d :: u ∧ scanToken limits d (u ++ rest) = ⟨c.text, .ok c.meaning⟩) :
    next ⟨limits, p, c.gap ++ (c.text ++ rest)⟩ = .ok (c.lexeme p) ⟨limits, c.after p, rest⟩ := by
  obtain ⟨d, u, htext, hscan⟩ := hscan
  have hskip : ∀ (q : Place) (front back : List Char),
      (⟨limits, q, front ++ back⟩ : Lexer).skip front = ⟨limits, q.after front, back⟩ := by
    intro q front back
    rw [skip, List.drop_left]
  rw [next, hgap, hskip]
  simp only [htext, List.cons_append, hscan, take]
  rw [← List.cons_append, ← htext, hskip]
  rfl

/-- A text that is put together is read back as its lexemes. -/
theorem reads_lexemesFrom {limits : Limits} {ending : List Char} (hending : gap ending = ending)
    (p : Place) {cs : List Chunk} (h : ReadsBack limits cs ending) :
    Reads ⟨limits, p, spell cs ending⟩ (lexemesFrom ending p cs) := by
  induction cs generalizing p with
  | nil =>
      refine .last (m := ⟨limits, p.after ending, []⟩) ?_ rfl
      have hskip : (⟨limits, p, ending⟩ : Lexer).skip ending = ⟨limits, p.after ending, []⟩ := by
        rw [skip, List.drop_length]
      show next ⟨limits, p, ending⟩ = _
      rw [next, hending, hskip]
  | cons c cs ih =>
      obtain ⟨hgap, hscan, hrest⟩ := h
      refine .more (next_chunk p hgap hscan) ?_ (ih _ hrest)
      obtain ⟨d, u, _, hscan⟩ := hscan
      exact kind_ne_eof_of_scanToken limits d _ c.meaning.1 c.meaning.2 (by rw [hscan])

end Lexer

end GenericIR
