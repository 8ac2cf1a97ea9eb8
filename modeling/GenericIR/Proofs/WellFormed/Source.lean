/-
# The lexemes of a source

The lexemes that are read from a source spell it out, and each of them has the form of its kind.
So a run of them, with the gaps in between, is a stretch of the source.

* `Lexer.formed_of_next` : the form of a lexeme by its kind;
* `lexemesOf_of_reads` : what is known of all lexemes of a source;
* `LexemesOf.verbatim_isInfix` : the text of a run is a stretch of the source.
-/
import GenericIR.Proofs.Bytes.Written
import GenericIR.Proofs.Derivation
import GenericIR.Proofs.Partition.Tokens
import GenericIR.Proofs.WellFormed.Token

namespace GenericIR

/-! ## The text of lexemes -/

/-- The text that lexemes are read from: their gaps and their own texts in turn. -/
def spelled (xs : List Lexeme) : List Char := xs.flatMap fun x => x.gap.toList ++ x.text.toList

@[simp] theorem spelled_nil : spelled [] = [] := rfl

theorem spelled_cons (x : Lexeme) (xs : List Lexeme) :
    spelled (x :: xs) = x.gap.toList ++ (x.text.toList ++ spelled xs) := by
  rw [spelled, List.flatMap_cons, List.append_assoc]
  rfl

theorem spelled_append (xs ys : List Lexeme) : spelled (xs ++ ys) = spelled xs ++ spelled ys :=
  List.flatMap_append

/-- The verbatim text of a run starts with the text of its first lexeme. -/
theorem toList_verbatim_cons (x : Lexeme) (xs : List Lexeme) :
    (verbatim (x :: xs)).toList = x.text.toList ++ spelled xs := by
  refine (List.append_right_inj x.gap.toList).mp ?_
  rw [gap_append_verbatim]
  exact spelled_cons x xs

/-- Text that was skipped stands behind the text of the first lexeme of a run. -/
theorem toList_verbatimPast_cons (skipped : List Char) (x : Lexeme) (xs : List Lexeme) :
    (verbatimPast skipped (x :: xs)).toList = x.text.toList ++ skipped ++ spelled xs := by
  have htext := toList_verbatim_cons x xs
  rw [verbatim, String.toList_append] at htext
  rw [verbatimPast, String.toList_append, String.toList_append, String.toList_ofList,
    List.append_cancel_left htext]

/-! ## The form of a lexeme -/

/-- Texts of values: they start with a percent or a dollar sign. -/
def IsValueText (text : String) : Prop := ∃ c rest, text.toList = c :: rest ∧ (c = '%' ∨ c = '$')

/-- What the kind of a lexeme tells of what it carries and of its text. -/
structure Lexeme.Formed (x : Lexeme) : Prop where
  identifier : x.kind = .identifier → IsIdentifier x.valueText
  value : x.kind = .valueId → IsValueText x.valueText
  symbol : x.kind = .symbolRefId → ['@'] <+: x.valueText.toList
  type : x.kind = .type → x.valueText ≠ ""
  dense : x.kind = .dense → "dense".toList <+: x.valueText.toList ∧ ['>'] <:+ x.valueText.toList
  bracket : ∀ c ∈ ['(', ')', '\x7b', '\x7d'], x.kind = markKind c → x.text.toList = [c]
  location : Grammar.IsLocWord x → x.text = "loc"

/-- The form of a lexeme that is read. -/
theorem Lexer.formed_of_next {l m : Lexer} {x : Lexeme} (hnext : next l = .ok x m) : x.Formed := by
  rcases next_ok_cases hnext with ⟨_, _, rfl⟩ | ⟨c, rest, kind, value, _, hout, _, rfl⟩
  · exact ⟨nofun, nofun, nofun, nofun, nofun,
      @not_markKind_of_not_mem .eof _ (by decide), fun h => absurd h.1 nofun⟩
  · have hform := tokenForm_of_scanToken hout
    have hcarries := carries_of_scanToken hout
    generalize (scanToken l.limits c rest).lexeme = text at hform hcarries
    -- words, ids and angle bracket forms carry their texts
    have hown : kind ∈ [.identifier, .valueId, .type, .dense, .keyword] →
        value = .text (String.ofList text) := by
      intro hkind
      simp only [List.mem_cons, List.not_mem_nil, or_false] at hkind
      rcases hkind with rfl | rfl | rfl | rfl | rfl <;>
        exact hcarries.own (by decide) (by decide) nofun (by decide)
    refine ⟨?_, ?_, ?_, ?_, ?_, fun d hd hk => ?_, ?_⟩
    · rintro rfl
      rw [Lexeme.valueText, hown (by simp)]
      exact hform.identifier rfl
    · rintro rfl
      rw [Lexeme.valueText, hown (by simp)]
      obtain ⟨d, name, rfl, hd⟩ := hform.valueId rfl
      exact ⟨d, name, String.toList_ofList, hd⟩
    · rintro rfl
      obtain ⟨name, rfl⟩ := hform.symbol rfl
      rw [Lexeme.valueText, TokenValue.render, String.toList_ofList]
      exact ⟨name, rfl⟩
    · rintro rfl
      rw [Lexeme.valueText, hown (by simp)]
      intro hempty
      exact hform.type rfl (String.ofList_eq_empty_iff.mp hempty)
    · rintro rfl
      have htext : (String.ofList text).toList = text := String.toList_ofList
      rw [Lexeme.valueText, hown (by simp), TokenValue.render, htext]
      exact hform.dense rfl
    · rw [String.toList_ofList]
      exact hform.bracket d hd hk
    · rintro ⟨hkind, hloc⟩
      obtain rfl : kind = .keyword := hkind
      rw [hown (by simp)] at hloc
      simpa [Token.hasText, TokenValue.text?] using hloc

/-! ## All lexemes of a source -/

/-- Whether a text is that of a boolean, an integer, a hexadecimal or a float in a source, as it is
written there. -/
def IsScalarText (limits : Limits) (source text : String) : Prop :=
  ∃ tokens l, Lexer.tokenize (.ofSource limits source) = .ok tokens l ∧
    ∃ t ∈ tokens, t.kind.isScalarLiteral ∧
      slice? source.toList t.span.offset t.span.stop = some text.toList

/-- What is known of all lexemes of a source: their forms, that they spell it out, and where its
scalar literals stand. -/
structure LexemesOf (limits : Limits) (source : String) (all : List Lexeme) : Prop where
  formed : ∀ x ∈ all, x.Formed
  source_eq : source.toList = spelled all
  scalar : ∀ x ∈ all, x.kind.isScalarLiteral → IsScalarText limits source x.text

namespace Lexer

variable {l : Lexer} {xs : List Lexeme}

/-- Lexemes that are read to the end have the forms of their kinds. -/
theorem Reads.formed (h : Reads l xs) : ∀ x ∈ xs, x.Formed := by
  induction h with
  | last hnext _ => exact List.forall_mem_singleton.mpr (formed_of_next hnext)
  | more hnext _ _ ih => exact List.forall_mem_cons.mpr ⟨formed_of_next hnext, ih⟩

/-- Lexemes that are read to the end spell out the rest of the source. -/
theorem Reads.rest_eq (h : Reads l xs) : l.rest = spelled xs := by
  induction h with
  | last hnext hx =>
      have htook := (took_of_next hnext).1.rest
      rw [(rest_of_next_eof hnext hx).1] at htook
      rw [htook, spelled_cons, spelled_nil]
  | more hnext _ _ ih => rw [(took_of_next hnext).1.rest, ih, spelled_cons]

/-- The span of a lexeme is where its text stands in the source. -/
theorem Reads.slice?_eq {source : List Char} (h : Reads l xs) (hl : l.place.Stands source l.rest) :
    ∀ x ∈ xs, slice? source x.token.span.offset x.token.span.stop = some x.text.toList := by
  have hslice : ∀ {l m : Lexer} {x : Lexeme}, next l = .ok x m → l.place.Stands source l.rest →
      slice? source x.token.span.offset x.token.span.stop = some x.text.toList := by
    intro l m x hnext hl
    obtain ⟨htook, hspan⟩ := took_of_next hnext
    rw [htook.rest] at hl
    rw [hspan, Span.stop_ofText]
    exact hl.after.slice?
  induction h with
  | last hnext _ => exact List.forall_mem_singleton.mpr (hslice hnext hl)
  | more hnext _ _ ih =>
      exact List.forall_mem_cons.mpr ⟨hslice hnext hl, ih (tokenAt_of_next hl hnext).2.1⟩

end Lexer

/-- What is known of the lexemes that are read from a source. -/
theorem lexemesOf_of_reads {limits : Limits} {source : String} {all : List Lexeme}
    (h : (Lexer.ofSource limits source).Reads all) : LexemesOf limits source all where
  formed := h.formed
  source_eq := h.rest_eq
  scalar x hx hkind := by
    obtain ⟨hfault, hlexemes⟩ := (Lexer.reads_iff _ _).mp h
    refine ⟨_, _, (Lexer.tokenize_eq_ok_iff _ _ _).mpr ⟨hfault, rfl, rfl⟩, x.token, ?_, hkind, ?_⟩
    · exact List.mem_map_of_mem (hlexemes ▸ hx)
    · exact h.slice?_eq (.start source.toList) x hx

/-- The verbatim text of a run of lexemes is a stretch of the source. -/
theorem LexemesOf.verbatim_isInfix {limits : Limits} {source : String} {all run : List Lexeme}
    (h : LexemesOf limits source all) (hrun : run <:+: all) :
    (verbatim run).toList <:+: source.toList := by
  cases run with
  | nil => exact List.nil_infix
  | cons x run =>
      obtain ⟨front, back, rfl⟩ := hrun
      refine ⟨spelled front ++ x.gap.toList, spelled back, ?_⟩
      rw [h.source_eq, spelled_append, spelled_append, spelled_cons, toList_verbatim_cons]
      simp only [List.append_assoc]

end GenericIR
