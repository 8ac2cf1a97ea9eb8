/-
# What the tokens of an attribute value stand for

A single literal stands for what it is decoded to; a literal that is read carries its decoded
value.  Any other run of tokens stands for its text, single spaces between the tokens, without the
white space at its ends.

* `IsTrimmed`, `isTrimmed_trim` : texts without white space at their ends;
* `StandsFor`, `standsFor_ofLexemes` : what a run of lexemes that are read stands for.
-/
import Mathlib.Data.List.TakeWhile
import GenericIR.Grammar.Attribute
import GenericIR.Proofs.Reading

namespace GenericIR

/-! ## White space at the ends -/

/-- A text without the white space at its ends. -/
structure IsTrimmed (text trimmed : List Char) : Prop where
  split : ∃ front back, text = front ++ (trimmed ++ back) ∧ (∀ c ∈ front, isWhiteSpace c) ∧
    ∀ c ∈ back, isWhiteSpace c
  first : ∀ c ∈ trimmed.head?, ¬ isWhiteSpace c
  last : ∀ c ∈ trimmed.getLast?, ¬ isWhiteSpace c

/-- What is in front of the first character outside a class is of the class, and that character
is not. -/
theorem takeWhile_dropWhile (class? : Char → Bool) (text : List Char) :
    (∀ c ∈ text.takeWhile class?, class? c) ∧ ∀ c ∈ (text.dropWhile class?).head?, ¬ class? c := by
  refine ⟨fun c hc => List.mem_takeWhile_imp hc, fun c hc => ?_⟩
  have hfirst := List.head?_dropWhile_not class? text
  rw [Option.mem_def.mp hc] at hfirst
  simpa using hfirst

/-- Trimming a text leaves what is between the white space at its ends. -/
theorem isTrimmed_trim (text : List Char) : IsTrimmed text (trim text) := by
  obtain ⟨hfront, hmiddle⟩ := takeWhile_dropWhile isWhiteSpace text
  obtain ⟨hback, hend⟩ := takeWhile_dropWhile isWhiteSpace (text.dropWhile isWhiteSpace).reverse
  -- the text behind the white space in front, up to the white space behind
  have hsplit : text.dropWhile isWhiteSpace = trim text ++
      ((text.dropWhile isWhiteSpace).reverse.takeWhile isWhiteSpace).reverse := by
    rw [trim, ← List.reverse_append, List.takeWhile_append_dropWhile, List.reverse_reverse]
  have hwhole : text = text.takeWhile isWhiteSpace ++ (trim text ++
      ((text.dropWhile isWhiteSpace).reverse.takeWhile isWhiteSpace).reverse) := by
    rw [← hsplit, List.takeWhile_append_dropWhile]
  refine ⟨⟨_, _, hwhole, hfront, fun c hc => hback c (List.mem_reverse.mp hc)⟩, fun c hc => ?_,
    fun c hc => ?_⟩
  · refine hmiddle c ?_
    rw [hsplit, List.head?_append, Option.mem_def.mp hc]
    rfl
  · rw [trim, List.getLast?_reverse] at hc
    exact hend c hc

/-! ## Literals -/

/-- Whether a token of a kind is a literal. -/
def TokenKind.IsLiteral (k : TokenKind) : Prop :=
  k ∈ [.booleanLiteral, .integerLiteral, .hexadecimalLiteral, .floatLiteral, .stringLiteral]

instance (k : TokenKind) : Decidable k.IsLiteral :=
  inferInstanceAs (Decidable (k ∈ ([_, _, _, _, _] : List TokenKind)))

/-- What a literal is decoded to. -/
inductive DecodedTo : TokenKind → TokenValue → AttributeValue → Prop where
  | bool (b : Bool) : DecodedTo .booleanLiteral (.bool b) (.bool b)
  | integer (n : Int64) : DecodedTo .integerLiteral (.int n) (.integer n)
  | hexadecimal (n : Int64) : DecodedTo .hexadecimalLiteral (.int n) (.integer n)
  | float (x : Binary64) : DecodedTo .floatLiteral (.float x) (.float x)
  | string (s : String) : DecodedTo .stringLiteral (.text s) (.str s)

/-- Whether a token carries a decoded value where it is a literal. -/
def IsDecoded (kind : TokenKind) (value : TokenValue) : Prop :=
  kind.IsLiteral → ∃ a, DecodedTo kind value a

/-- A numeral carries its number. -/
theorem isDecoded_numeral {text : List Char} {kind : TokenKind} {value : TokenValue}
    (h : (numeral text).outcome = .ok (kind, value)) : ∃ a, DecodedTo kind value a := by
  rcases numeral_ok_cases h with ⟨n, hn⟩ | ⟨n, hn⟩ | ⟨x, hx⟩
  · cases hn
    exact ⟨_, .integer n⟩
  · cases hn
    exact ⟨_, .hexadecimal n⟩
  · cases hx
    exact ⟨_, .float x⟩

/-- A word carries its truth value, where it has one. -/
theorem isDecoded_word {limits : Limits} {text : List Char} {kind : TokenKind}
    {value : TokenValue} (h : (word limits text).outcome = .ok (kind, value)) :
    IsDecoded kind value := by
  rcases word_ok_cases h with ⟨b, hb⟩ | ⟨k, hk, htext⟩
  · cases hb
    exact fun _ => ⟨_, .bool b⟩
  · cases htext
    have hnone : ∀ k ∈ [TokenKind.keyword, .identifier, .type, .dense], ¬ k.IsLiteral := by decide
    exact fun hkind => absurd hkind (hnone _ hk)

/-- A token carries its decoded value where it is a literal. -/
theorem isDecoded_scanToken {limits : Limits} {c : Char} {rest : List Char} {kind : TokenKind}
    {value : TokenValue} (h : (scanToken limits c rest).outcome = .ok (kind, value)) :
    IsDecoded kind value := by
  -- a symbol or a label is no literal
  have hreference : ∀ {sigil : Char} {k : TokenKind}, ¬ k.IsLiteral →
      (reference limits sigil k rest).outcome = .ok (kind, value) → IsDecoded kind value := by
    intro sigil k hk h hkind
    rw [kind_of_reference _ _ _ _ _ _ h] at hkind
    exact absurd hkind hk
  revert h
  fun_cases scanToken limits c rest with
  | case1 _ => exact fun h _ => isDecoded_numeral h
  | case2 _ _ =>
      intro h
      obtain ⟨s, _, hs⟩ := Scan.exists_of_map_ok _ _ _ h
      cases hs
      exact fun _ => ⟨_, .string _⟩
  | case3 _ _ _ => exact isDecoded_word
  | case4 _ _ _ _ => exact hreference (by decide)
  | case5 _ _ _ _ _ =>
      intro h
      cases h
      exact fun hkind => absurd hkind (by decide)
  | case6 _ _ _ _ _ _ =>
      unfold label
      split
      · exact hreference (by decide)
      · intro h
        cases h
        exact fun hkind => absurd hkind (by decide)
      · exact hreference (by decide)
  | case7 _ _ _ _ _ _ =>
      intro h
      obtain ⟨k, hk, htext⟩ := mark_ok_cases h
      cases htext
      have hnone : ∀ k ∈ markKinds, ¬ k.IsLiteral := by decide
      exact fun hkind => absurd hkind (hnone _ hk)

/-- A lexeme that is read carries its decoded value where it is a literal. -/
theorem Lexer.isDecoded_of_next {l m : Lexer} {x : Lexeme} (h : next l = .ok x m) :
    IsDecoded x.kind x.token.value := by
  rcases next_ok_cases h with ⟨_, _, rfl⟩ | ⟨c, rest, kind, value, _, hout, _, rfl⟩
  · have hnone : ¬ TokenKind.eof.IsLiteral := by decide
    exact fun hkind => absurd hkind hnone
  · exact isDecoded_scanToken hout

/-! ## Runs of lexemes -/

/-- What a run of lexemes stands for: the decoded value of a single literal, and in every other
case the text of the lexemes, joined by single spaces and trimmed. -/
inductive StandsFor : List Lexeme → AttributeValue → Prop where
  | literal {x : Lexeme} {a : AttributeValue} (h : DecodedTo x.kind x.token.value a) :
      StandsFor [x] a
  | text {v : List Lexeme} {t : String} (hv : ∀ x, v = [x] → ¬ x.kind.IsLiteral)
      (ht : IsTrimmed (List.intercalate [' '] (v.map fun x => x.text.toList)) t.toList) :
      StandsFor v (.opaqueText t)

/-- A run that is no single literal is kept as its text. -/
theorem ofLexemes_eq_opaqueText {v : List Lexeme} (h : ∀ x, v = [x] → ¬ x.kind.IsLiteral) :
    AttributeValue.ofLexemes v = .opaqueText (joinedText v) := by
  unfold AttributeValue.ofLexemes
  split
  · next x =>
      have hx := h x rfl
      simp only [TokenKind.IsLiteral, List.mem_cons, List.not_mem_nil, or_false, not_or,
        Lexeme.kind] at hx
      split <;> simp_all
  · rfl

/-- A literal is kept as its decoded value. -/
theorem ofLexemes_of_decodedTo {x : Lexeme} {a : AttributeValue}
    (h : DecodedTo x.kind x.token.value a) : AttributeValue.ofLexemes [x] = a := by
  obtain ⟨gap, text, kind, value, span⟩ := x
  cases h <;> rfl

/-- The value of lexemes that are read is what they stand for. -/
theorem standsFor_ofLexemes {v : List Lexeme} (h : ∀ x ∈ v, IsDecoded x.kind x.token.value) :
    StandsFor v (.ofLexemes v) := by
  by_cases hliteral : ∃ x, v = [x] ∧ x.kind.IsLiteral
  · obtain ⟨x, rfl, hx⟩ := hliteral
    obtain ⟨a, ha⟩ := h x List.mem_cons_self hx
    rw [ofLexemes_of_decodedTo ha]
    exact .literal ha
  · have hnone : ∀ x, v = [x] → ¬ x.kind.IsLiteral := fun x hv hx => hliteral ⟨x, hv, hx⟩
    rw [ofLexemes_eq_opaqueText hnone]
    refine .text hnone ?_
    rw [joinedText, String.toList_ofList]
    exact isTrimmed_trim _

end GenericIR
