/-
# Tokens of two texts with a line feed between them

Two texts with a line feed between them are read as the first text and then as the second one: the
tokens of the first stay as they are, and those of the second stand further down, by the first
text and its line feed.  This needs a first text that ends outside of a block comment, for such a
comment would go on into the second one.

* `ReadsTo.copied_here` : what is read of a text is read where the text goes on otherwise;
* `layout_concat_line_feed` : a line feed ends a gap that is no open block comment;
* `Lexer.tokens_joined` : the tokens of both texts, and the fault of the second.
-/
import Mathlib
import GenericIR.Proofs.Cursor.Place
import GenericIR.Proofs.FirstFault
import GenericIR.Proofs.Joined.Lowered
import GenericIR.Proofs.Joined.Reading

namespace GenericIR

namespace Lexer

/-! ## Lexemes that stay where they are -/

section

variable {l l' m m' : Lexer} {x x' : Lexeme} {xs xs' : List Lexeme}

/-- A lexeme that is read at the same place with the same gap is the same lexeme. -/
theorem eq_of_twin (hnext : next l = .ok x m) (hnext' : next l' = .ok x' m')
    (hplace : l.place = l'.place) (h : x.Twin x') : x = x' ∧ m.place = m'.place := by
  obtain ⟨htook, hspan⟩ := took_of_next hnext
  obtain ⟨htook', hspan'⟩ := took_of_next hnext'
  have hsame : x.token.span = x'.token.span := by
    rw [hspan, hspan', hplace, h.gap, h.same.text]
  refine ⟨?_, by rw [htook.place, htook'.place, hplace, h.gap, h.same.text]⟩
  have hkind := h.same.kind
  have hvalue := h.same.value
  have htext := h.same.text
  have hgap := h.gap
  obtain ⟨gap, text, ⟨kind, value, span⟩⟩ := x
  obtain ⟨gap', text', ⟨kind', value', span'⟩⟩ := x'
  simp only at hsame hkind hvalue htext hgap
  subst hsame hkind hvalue htext hgap
  rfl

/-- Lexemes that are read from the same place with the same gaps are the same lexemes. -/
theorem ReadsTo.eq_of_twins (h : ReadsTo l xs m) (h' : ReadsTo l' xs' m')
    (hplace : l.place = l'.place) (htwins : List.Forall₂ Lexeme.Twin xs xs') :
    xs = xs' ∧ m.place = m'.place := by
  induction h generalizing l' xs' with
  | nil =>
      cases htwins
      cases h'
      exact ⟨rfl, hplace⟩
  | cons hnext hx _ ih =>
      cases htwins with
      | cons htwin htwins =>
          cases h' with
          | cons hnext' _ hrest' =>
              obtain ⟨rfl, hplace'⟩ := eq_of_twin hnext hnext' hplace htwin
              obtain ⟨rfl, hend⟩ := ih hrest' hplace' htwins
              exact ⟨rfl, hend⟩

/-- What is read of a text is read at the same place where the text forks behind it. -/
theorem ReadsTo.copied_here (h : ReadsTo l xs m) {t : List Char} (ht : Fork m.rest t) :
    ReadsTo ⟨l.limits, l.place, spelled xs ++ t⟩ xs ⟨m.limits, m.place, t⟩ := by
  obtain ⟨xs', q, hxs', htwins⟩ := h.copied ht l.place
  obtain ⟨rfl, hplace⟩ := h.eq_of_twins hxs' rfl htwins
  obtain rfl : m.place = q := hplace
  exact hxs'

/-- All readings go on behind some of them. -/
theorem ReadsTo.readAll_eq (h : ReadsTo l xs m) :
    readAll l = ⟨xs ++ (readAll m).lexemes, (readAll m).fault, (readAll m).lexer⟩ := by
  induction h with
  | nil => rfl
  | cons hnext hx _ ih =>
      rw [Lexer.readAll_eq, hnext]
      dsimp only
      rw [if_neg hx, ih]
      rfl

end

/-! ## Behind a layout -/

section

variable (limits : Limits) (p : Place) {g : List Char} (t : List Char)

/-- Skipping a text with a layout before it. -/
theorem skip_append (text : List Char) :
    (⟨limits, p, g ++ t⟩ : Lexer).skip (g ++ text) =
      (⟨limits, p.after g, t⟩ : Lexer).skip text := by
  unfold skip
  rw [Place.after_append, List.length_append, List.drop_length_add_append]

/-- A reading behind a layout is the reading with the layout in its gap. -/
theorem next_append (hg : Layout g) :
    next ⟨limits, p, g ++ t⟩ = match next ⟨limits, p.after g, t⟩ with
      | .ok x m => .ok { x with gap := String.ofList (g ++ x.gap.toList) } m
      | .error d m => .error d m := by
  have hgap : gap (g ++ t) = g ++ gap t := gapFrom_append hg t
  unfold next
  dsimp only
  rw [hgap, skip_append]
  cases ((⟨limits, p.after g, t⟩ : Lexer).skip (gap t)).rest with
  | nil => simp only [String.toList_ofList]
  | cons c rest =>
      dsimp only
      unfold take
      dsimp only
      cases (scanToken ((⟨limits, p.after g, t⟩ : Lexer).skip (gap t)).limits c rest).outcome with
      | ok meaning => simp only [String.toList_ofList]
      | error fault => rfl

/-- All readings behind a layout find the same tokens and the same fault. -/
theorem readAll_append (hg : Layout g) :
    (⟨limits, p, g ++ t⟩ : Lexer).tokens = (⟨limits, p.after g, t⟩ : Lexer).tokens ∧
    (⟨limits, p, g ++ t⟩ : Lexer).ahead = (⟨limits, p.after g, t⟩ : Lexer).ahead := by
  unfold tokens ahead
  rw [readAll_eq ⟨limits, p, g ++ t⟩, readAll_eq ⟨limits, p.after g, t⟩, next_append _ _ _ hg]
  cases next ⟨limits, p.after g, t⟩ with
  | error d m => exact ⟨rfl, rfl⟩
  | ok x m =>
      dsimp only
      split <;> exact ⟨rfl, rfl⟩

end

end Lexer

/-! ## The end of a text -/

/-- A gap that ends in a block comment which nothing closes. -/
def EndsInBlock (g : List Char) : Prop :=
  ∃ front body, g = front ++ '/' :: '*' :: body ∧ Layout front ∧ ¬ ['*', '/'] <:+: body

/-- Whether a source ends in a block comment which nothing closes: the gap before its end does. -/
def Lexer.StopsInBlock (limits : Limits) (source : String) : Prop :=
  ∃ e ∈ (readAll (.ofSource limits source)).lexemes, e.kind = .eof ∧ EndsInBlock e.gap.toList

/-- A line feed ends a gap that is no open block comment. -/
theorem layout_concat_line_feed {g : List Char} (hgap : gap g = g) (hopen : ¬ EndsInBlock g) :
    Layout (g ++ ['\n']) := by
  rcases gap_shape g with hlayout | ⟨_, front, comment, rfl, hfront, hcomment⟩
  · exact (hgap ▸ hlayout).append (.blank (by decide) .nil)
  · rw [List.append_assoc]
    apply hfront.append
    cases hcomment with
    | @line body hbody => exact .line hbody .nil
    | @block body hbody => exact absurd ⟨front, body, rfl, hfront, hbody⟩ hopen

/-! ## Texts one behind the other -/

namespace Lexer

/-- The place behind a source and a line feed is the start of a source, further down. -/
theorem after_line_feed (source : String) :
    Place.start.after (source.toList ++ ['\n']) =
      Place.start.lowered (source.utf8ByteSize + 1) (1 + source.toList.count '\n') := by
  have hbytes : byteLength (source.toList ++ ['\n']) = source.utf8ByteSize + 1 := by
    rw [byteLength_append, byteLength_toList]
    rfl
  have hlines : (source.toList ++ ['\n']).count '\n' = source.toList.count '\n' + 1 := by simp
  rw [Place.start_after, hbytes, hlines, lastLine_concat_line_feed]
  simp only [Place.lowered, Place.start, byteLength_nil, Place.mk.injEq]
  refine ⟨by omega, by omega, trivial⟩

/-- A source without an error has a last lexeme. -/
theorem Reads.eq_concat {l : Lexer} {xs : List Lexeme} (h : Reads l xs) :
    ∃ front e, xs = front ++ [e] := by
  have hne : xs ≠ [] := by cases h <;> exact List.cons_ne_nil _ _
  exact ⟨xs.dropLast, xs.getLast hne, (List.dropLast_append_getLast hne).symm⟩

/-- The end of a source is read behind a gap that goes up to the end. -/
theorem rest_of_reads_eof {l : Lexer} {e : Lexeme} (h : Reads l [e]) :
    e.kind = .eof ∧ l.rest = e.gap.toList ∧ gap l.rest = l.rest := by
  have hrest := h.rest_eq
  cases h with
  | more _ _ hnone => cases hnone
  | last hnext he =>
      rw [spelled_cons, spelled_nil, (rest_of_next_eof hnext he).2.1] at hrest
      have hgap : l.rest = e.gap.toList := by simpa using hrest
      refine ⟨he, hgap, ?_⟩
      rw [gap_of_next hnext, String.toList_ofList] at hgap
      exact hgap.symm

/-- All readings of a source, a line feed and another source: the lexemes of the first source, and
all readings of the second one from further down. -/
theorem readAll_joined {limits : Limits} {s : String} (t : String) {xs : List Lexeme} {e : Lexeme}
    (h : Reads (.ofSource limits s) (xs ++ [e])) (hopen : ¬ EndsInBlock e.gap.toList) :
    (ofSource limits (s ++ "\n" ++ t)).tokens = xs.map Lexeme.token ++
      (ofSource limits t).tokens.map
        (Token.lowered (s.utf8ByteSize + 1) (1 + s.toList.count '\n')) ∧
    (ofSource limits (s ++ "\n" ++ t)).ahead = (ofSource limits t).ahead.map
      (Diagnostic.lowered (s.utf8ByteSize + 1) (1 + s.toList.count '\n')) := by
  obtain ⟨m, hfront, hlast⟩ := h.exists_readsTo (List.cons_ne_nil e [])
  obtain ⟨hsource, hlimits, hplace⟩ := hfront.took
  have hs : s.toList = spelled xs ++ m.rest := hsource
  obtain ⟨_, hrest, hgap⟩ := rest_of_reads_eof hlast
  have hlayout : Layout (m.rest ++ ['\n']) := layout_concat_line_feed hgap (hrest ▸ hopen)
  -- the lexemes of the first source are read up to the gap before its end
  have hfork : Fork m.rest (m.rest ++ ['\n'] ++ t.toList) :=
    ⟨m.rest, [], '\n' :: t.toList, (List.append_nil _).symm, List.append_assoc _ _ _, .nil,
      fun c hc => by cases hc; decide⟩
  have hfirst := (hfront.copied_here hfork).readAll_eq
  have hjoined : ofSource limits (s ++ "\n" ++ t) =
      ⟨limits, .start, spelled xs ++ (m.rest ++ ['\n'] ++ t.toList)⟩ := by
    simp [ofSource, hs]
  -- that gap and the line feed are a layout before the second source
  have hlower : (⟨m.limits, m.place.after (m.rest ++ ['\n']), t.toList⟩ : Lexer) =
      (ofSource limits t).lowered (s.utf8ByteSize + 1) (1 + s.toList.count '\n') := by
    rw [hplace, hlimits]
    show (⟨limits, (Place.start.after (spelled xs)).after _, _⟩ : Lexer) = _
    rw [← Place.after_append, ← List.append_assoc, ← hs, after_line_feed]
    rfl
  obtain ⟨htokens, hahead⟩ := readAll_append m.limits m.place t.toList hlayout
  rw [hlower] at htokens hahead
  rw [hjoined, tokens, ahead]
  change readAll ⟨limits, .start, _⟩ = _ at hfirst
  rw [hfirst, List.map_append]
  change xs.map _ ++ tokens _ = _ ∧ ahead _ = _
  rw [htokens, hahead, tokens, ahead, readAll_lowered]
  refine ⟨?_, rfl⟩
  rw [List.map_map, tokens, List.map_map]
  rfl

/-- A source that has tokens and does not stop in a block comment, a line feed and another source
are read as the tokens of the first source without its end, and then as the second one: its tokens
up to its end, or its tokens and then its error.  All spans of the second part are further down,
by the bytes and the lines of the first source and its line feed, with the same columns and
lengths. -/
theorem tokens_joined (limits : Limits) (s t : String) (ts : List Token) (l : Lexer)
    (hs : tokenize (.ofSource limits s) = .ok ts l) (hopen : ¬ StopsInBlock limits s) :
    ∃ front e, ts = front ++ [e] ∧ e.kind = .eof ∧
      (ofSource limits (s ++ "\n" ++ t)).tokens = front ++ (ofSource limits t).tokens.map
        (Token.lowered (s.utf8ByteSize + 1) (1 + s.toList.count '\n')) ∧
      (∀ us m, tokenize (.ofSource limits t) = .ok us m →
        ∃ k, tokenize (.ofSource limits (s ++ "\n" ++ t)) = .ok
          (front ++ us.map (Token.lowered (s.utf8ByteSize + 1) (1 + s.toList.count '\n'))) k) ∧
      (∀ d m, tokenize (.ofSource limits t) = .error d m →
        ∃ k, tokenize (.ofSource limits (s ++ "\n" ++ t)) = .error
          (d.lowered (s.utf8ByteSize + 1) (1 + s.toList.count '\n')) k) := by
  obtain ⟨hfault, rfl, _⟩ := (tokenize_eq_ok_iff _ _ _).mp hs
  have hreads := (reads_iff _ _).mpr ⟨hfault, rfl⟩
  obtain ⟨xs, e, hsplit⟩ := hreads.eq_concat
  rw [hsplit] at hreads
  obtain ⟨m, _, hlast⟩ := hreads.exists_readsTo (List.cons_ne_nil e [])
  have heof := (rest_of_reads_eof hlast).1
  have hclosed : ¬ EndsInBlock e.gap.toList := fun h =>
    hopen ⟨e, by rw [hsplit]; exact List.mem_append_right _ List.mem_cons_self, heof, h⟩
  obtain ⟨htokens, hahead⟩ := readAll_joined t hreads hclosed
  refine ⟨xs.map Lexeme.token, e.token, by rw [hsplit, List.map_append]; rfl, heof, htokens,
    fun us m hus => ?_, fun d m hd => ?_⟩
  · obtain ⟨hnone, rfl, _⟩ := (tokenize_eq_ok_iff _ _ _).mp hus
    have hjoined : (ofSource limits (s ++ "\n" ++ t)).ahead = none := by
      rw [hahead, ahead, hnone]
      rfl
    exact ⟨_, (tokenize_eq_ok_iff _ _ _).mpr ⟨hjoined, htokens, rfl⟩⟩
  · have hfirst := (tokenize_eq_error_iff _ d).mp ⟨m, hd⟩
    apply (tokenize_eq_error_iff _ _).mpr
    rw [hahead, hfirst]
    rfl

/-- A source that stops in a line comment, before a source with an error in its second line: the
error stands in the third line. -/
theorem tokens_joined_line_comment :
    (∃ tokens l, tokenize (.ofSource .standard "x // y") = .ok tokens l) ∧
    ¬ StopsInBlock .standard "x // y" ∧
    ∃ k, tokenize (.ofSource .standard ("x // y" ++ "\n" ++ "\n 0x")) =
      .error (.ofFault (.invalidNumber "0x") ⟨⟨9, 3, 2⟩, 2⟩) k := by
  have hs : tokenize (.ofSource .standard "x // y") =
      .ok [⟨.identifier, .text "x", ⟨⟨0, 1, 1⟩, 1⟩⟩, ⟨.eof, .none, ⟨⟨6, 1, 7⟩, 0⟩⟩]
        ⟨.standard, ⟨6, 1, 7⟩, []⟩ := by cbv
  have hlexemes : (readAll (.ofSource .standard "x // y")).lexemes =
      [⟨"", "x", ⟨.identifier, .text "x", ⟨⟨0, 1, 1⟩, 1⟩⟩⟩,
        ⟨" // y", "", ⟨.eof, .none, ⟨⟨6, 1, 7⟩, 0⟩⟩⟩] := by cbv
  -- no gap has a star, so none has the start of a block comment
  have hstar : ∀ x ∈ (readAll (.ofSource .standard "x // y")).lexemes, '*' ∉ x.gap.toList := by
    rw [hlexemes]
    decide
  have hopen : ¬ StopsInBlock .standard "x // y" := by
    rintro ⟨e, he, _, front, body, hgap, _⟩
    exact hstar e he (by simp [hgap])
  have ht : tokenize (.ofSource .standard "\n 0x") =
      .error (.ofFault (.invalidNumber "0x") ⟨⟨2, 2, 2⟩, 2⟩) ⟨.standard, ⟨4, 2, 4⟩, []⟩ := by cbv
  obtain ⟨_, _, _, _, _, _, herror⟩ := tokens_joined .standard "x // y" "\n 0x" _ _ hs hopen
  exact ⟨⟨_, _, hs⟩, hopen, herror _ _ ht⟩

end Lexer

end GenericIR
