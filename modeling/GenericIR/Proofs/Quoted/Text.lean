/-
# Ways to write a text in quotes

A text can be written between double quotes in many ways: a backslash has to stand before a quote
and before a backslash, may stand before most other characters, and marks the letters for a line
feed, a carriage return and a tab.  All of them are read back as the text, whatever follows the
closing quote.  The closing quote is the first one that no backslash takes with it.

* `Writes` : the ways to write a text;
* `writes_iff_quoted` : these are the texts in quotes that are decoded to it;
* `Writes.literal`, `Writes.symbol` : they are read as one token, alone or behind a sigil;
* `next_of_quote` : where a token ends that starts with a quote.
-/
import GenericIR.Proofs.Partition.Shape
import GenericIR.Proofs.Tokens.Reading

namespace GenericIR

/-! ## The ways to write a text -/

/-- The ways to write a character between double quotes. -/
inductive WritesChar : List Char → Char → Prop where
  | plain {c : Char} (hquote : c ≠ '"') (hback : c ≠ '\\') : WritesChar [c] c
  | marked {c : Char} (hletter : c ∉ ['n', 'r', 't']) : WritesChar ['\\', c] c
  | lineFeed : WritesChar ['\\', 'n'] '\n'
  | carriageReturn : WritesChar ['\\', 'r'] '\r'
  | tab : WritesChar ['\\', 't'] '\t'

/-- The ways to write a text between double quotes, one character after the other. -/
inductive Writes : List Char → List Char → Prop where
  | nil : Writes [] []
  | cons {w body s : List Char} {c : Char} (hc : WritesChar w c) (h : Writes body s) :
      Writes (w ++ body) (c :: s)

/-- What a backslash takes with it is written for what it stands for. -/
theorem writesChar_unescape (c : Char) : WritesChar ['\\', c] (unescape c) := by
  unfold unescape
  by_cases hn : c = 'n'
  · rw [if_pos hn, hn]
    exact .lineFeed
  by_cases hr : c = 'r'
  · rw [if_neg hn, if_pos hr, hr]
    exact .carriageReturn
  by_cases ht : c = 't'
  · rw [if_neg hn, if_neg hr, if_pos ht, ht]
    exact .tab
  · rw [if_neg hn, if_neg hr, if_neg ht]
    exact .marked (by simp [hn, hr, ht])

/-- A character that is written in one of its ways is decoded to itself. -/
theorem WritesChar.quoted {w body s : List Char} {c : Char} (hc : WritesChar w c)
    (h : Quoted body s) : Quoted (w ++ body) (c :: s) := by
  cases hc with
  | plain hquote hback => exact .plain hquote hback h
  | marked hletter =>
      have hself : unescape c = c := by
        simp only [List.mem_cons, List.not_mem_nil, or_false, not_or] at hletter
        rw [unescape, if_neg hletter.1, if_neg hletter.2.1, if_neg hletter.2.2]
      have hpair : Quoted ('\\' :: c :: body) (unescape c :: s) := .escaped h
      rwa [hself] at hpair
  | lineFeed => exact .escaped h
  | carriageReturn => exact .escaped h
  | tab => exact .escaped h

/-- The ways to write a text are the texts in quotes that are decoded to it. -/
theorem writes_iff_quoted {body s : List Char} : Writes body s ↔ Quoted body s := by
  constructor
  · intro h
    induction h with
    | nil => exact .nil
    | cons hc _ ih => exact hc.quoted ih
  · intro h
    induction h with
    | nil => exact .nil
    | plain hquote hback _ ih => exact .cons (.plain hquote hback) ih
    | escaped _ ih => exact .cons (writesChar_unescape _) ih

/-! ## Reading them back -/

/-- A text between double quotes. -/
def inQuotes (body : List Char) : List Char := '"' :: (body ++ ['"'])

/-- A text in quotes is decoded, whatever follows its closing quote. -/
theorem Quoted.quotedBody_eq {body s : List Char} (h : Quoted body s) (t : List Char) :
    quotedBody (body ++ '"' :: t) = ⟨body ++ ['"'], .ok s⟩ := by
  induction h with
  | nil => rfl
  | @plain c body s hquote hback _ ih =>
      rw [List.cons_append, quotedBody, ih]
      · rfl
      · exact hquote
      · exact fun _ _ hc => absurd hc hback
  | @escaped c body s _ ih =>
      rw [List.cons_append, List.cons_append, quotedBody, ih]
      rfl

/-- Whether a text, where it is what a lexer comes to behind a gap, is read as one token of a kind
with a value, whatever follows it. -/
def ReadsAs (text : List Char) (kind : TokenKind) (value : String) : Prop :=
  ∀ (l : Lexer) (t : List Char), (l.skip (gap l.rest)).rest = text ++ t →
    ∃ m, Lexer.next l = .ok ⟨String.ofList (gap l.rest), String.ofList text,
      ⟨kind, .text value, .ofText (l.place.after (gap l.rest)) text⟩⟩ m ∧ m.rest = t

/-- A text that is scanned as one token before any text is read as one. -/
theorem readsAs_of_scanToken {c : Char} {u : List Char} {kind : TokenKind} {value : String}
    (h : ∀ limits t, scanToken limits c (u ++ t) = ⟨c :: u, .ok (kind, .text value)⟩) :
    ReadsAs (c :: u) kind value :=
  fun l t hrest => Lexer.gives_of_scanToken hrest rfl (h l.limits t)

section Tokens

variable {body : List Char} {x : String}

/-- A text in quotes is scanned as one string literal. -/
theorem Writes.scanToken_literal (h : Writes body x.toList) (limits : Limits) (t : List Char) :
    scanToken limits '"' (body ++ ['"'] ++ t) =
      ⟨inQuotes body, .ok (.stringLiteral, .text x)⟩ := by
  show quoted (body ++ ['"'] ++ t) = _
  rw [List.append_assoc, quoted]
  show ((quotedBody (body ++ '"' :: t)).map _).prepend ['"'] = _
  rw [(writes_iff_quoted.mp h).quotedBody_eq]
  simp only [Scan.map, Scan.prepend, Except.map, String.ofList_toList, inQuotes, List.cons_append,
    List.nil_append]

/-- A text in quotes ends a symbol, whatever follows it. -/
theorem Writes.parts_eq {s : List Char} (h : Writes body s) (max count : Nat) (t : List Char) :
    parts '@' max count (inQuotes body ++ t) = ⟨inQuotes body, .ok s⟩ := by
  rw [parts, if_pos ⟨rfl, rfl⟩]
  show (quotedBody ((body ++ ['"']) ++ t)).prepend ['"'] = _
  rw [List.append_assoc]
  show (quotedBody (body ++ '"' :: t)).prepend ['"'] = _
  rw [(writes_iff_quoted.mp h).quotedBody_eq]
  rfl

/-- A text in quotes behind the sigil of symbols is scanned as one symbol, with the sigil in its
value. -/
theorem Writes.scanToken_symbol (h : Writes body x.toList) (limits : Limits) (t : List Char) :
    scanToken limits '@' (inQuotes body ++ t) =
      ⟨'@' :: inQuotes body, .ok (.symbolRefId, .text ("@" ++ x))⟩ := by
  show reference limits '@' .symbolRefId (inQuotes body ++ t) = _
  have hvalue : String.ofList ('@' :: x.toList) = "@" ++ x := by
    rw [← String.toList_inj, String.toList_ofList, String.toList_append]
    rfl
  rw [reference, h.parts_eq]
  simp only [Scan.map, Scan.prepend, Except.map, hvalue, List.singleton_append]

/-- A text in quotes is one string literal. -/
theorem Writes.literal (h : Writes body x.toList) : ReadsAs (inQuotes body) .stringLiteral x :=
  readsAs_of_scanToken h.scanToken_literal

/-- A text in quotes behind the sigil of symbols is one symbol. -/
theorem Writes.symbol (h : Writes body x.toList) :
    ReadsAs ('@' :: inQuotes body) .symbolRefId ("@" ++ x) :=
  readsAs_of_scanToken h.scanToken_symbol

end Tokens

/-! ## The quote that closes a text -/

/-- Backslashes with the characters they take with them, and other characters. -/
inductive Paired : List Char → Prop where
  | nil : Paired []
  | pair (c : Char) {body : List Char} (h : Paired body) : Paired ('\\' :: c :: body)
  | single {c : Char} {body : List Char} (hc : c ≠ '\\') (h : Paired body) : Paired (c :: body)

/-- A quote in a text that no backslash takes with it, by what is in front of it and behind it. -/
structure QuoteBehind (text body t : List Char) : Prop where
  split : text = body ++ '"' :: t
  paired : Paired body

/-- The first such quote. -/
structure FirstQuoteBehind (text body t : List Char) : Prop extends QuoteBehind text body t where
  first : ∀ body' t', QuoteBehind text body' t' → body.length ≤ body'.length

/-- A text in quotes has no backslash that lacks its character. -/
theorem Quoted.paired {body s : List Char} (h : Quoted body s) : Paired body := by
  induction h with
  | nil => exact .nil
  | plain _ hback _ ih => exact .single hback ih
  | escaped _ ih => exact .pair _ ih

/-- Up to a quote that no backslash takes with it, there is a text in quotes that closes there or
before. -/
theorem Paired.exists_quoted {body : List Char} (h : Paired body) (t : List Char) :
    ∃ front s back, Quoted front s ∧ body ++ '"' :: t = front ++ '"' :: back ∧
      front.length ≤ body.length := by
  induction h with
  | nil => exact ⟨[], [], t, .nil, rfl, Nat.le_refl 0⟩
  | pair c _ ih =>
      obtain ⟨front, s, back, hfront, hsplit, hle⟩ := ih
      exact ⟨'\\' :: c :: front, unescape c :: s, back, .escaped hfront,
        congrArg (fun u => '\\' :: c :: u) hsplit, Nat.succ_le_succ (Nat.succ_le_succ hle)⟩
  | @single c body hc _ ih =>
      by_cases hquote : c = '"'
      · exact ⟨[], [], body ++ '"' :: t, .nil, by rw [hquote]; rfl, Nat.zero_le _⟩
      · obtain ⟨front, s, back, hfront, hsplit, hle⟩ := ih
        exact ⟨c :: front, c :: s, back, .plain hquote hc hfront, congrArg (c :: ·) hsplit,
          Nat.succ_le_succ hle⟩

/-- What is in front of the first quote that no backslash takes with it is a text in quotes. -/
theorem FirstQuoteBehind.exists_quoted {text body t : List Char}
    (h : FirstQuoteBehind text body t) : ∃ s, Quoted body s := by
  obtain ⟨front, s, back, hfront, hsplit, hle⟩ := h.paired.exists_quoted t
  have hshort := h.first front back ⟨h.split.trans hsplit, hfront.paired⟩
  obtain ⟨rfl, _⟩ := List.append_inj hsplit (Nat.le_antisymm hshort hle)
  exact ⟨s, hfront⟩

/-- A text is closed by a quote, or the scan takes all of it and finds none. -/
theorem quotedBody_cases (text : List Char) :
    (∃ body s t, text = body ++ '"' :: t ∧ Quoted body s) ∨
      quotedBody text = ⟨text, .error .unterminatedString⟩ := by
  fun_induction quotedBody text with
  | case1 => exact Or.inr rfl
  | case2 rest => exact Or.inl ⟨[], [], rest, rfl, .nil⟩
  | case3 c rest ih =>
      rcases ih with ⟨body, s, t, rfl, hbody⟩ | hnone
      · exact Or.inl ⟨'\\' :: c :: body, _, t, rfl, .escaped hbody⟩
      · right
        rw [hnone]
        rfl
  | case4 c rest hquote hescape ih =>
      rcases ih with ⟨body, s, t, rfl, hbody⟩ | hnone
      · have hback : c ≠ '\\' := by
          rintro rfl
          -- the backslash would have taken a character with it
          cases body with
          | nil => exact hescape '"' t rfl rfl
          | cons d body => exact hescape d (body ++ '"' :: t) rfl rfl
        exact Or.inl ⟨c :: body, _, t, rfl, .plain hquote hback hbody⟩
      · right
        rw [hnone]
        rfl

/-- What a lexer makes of a text behind an opening quote: a string literal that ends right behind
the first quote that no backslash takes with it, or a fault where there is none. -/
structure ClosesAtFirstQuote (l : Lexer) (text : List Char) : Prop where
  unterminated : (∃ d m, Lexer.next l = .error d m ∧ d.fault = .unterminatedString) ↔
    ¬ ∃ body t, QuoteBehind text body t
  closed : ∀ body t, FirstQuoteBehind text body t →
    ∃ y m, Lexer.next l = .ok y m ∧ y.kind = .stringLiteral ∧ y.text.toList = inQuotes body ∧
      m.rest = t

/-- A lexer that comes to a text in quotes behind a gap reads it as a literal. -/
theorem next_of_quoted (l : Lexer) {text body s t : List Char}
    (h : (l.skip (gap l.rest)).rest = '"' :: text) (hsplit : text = body ++ '"' :: t)
    (hbody : Quoted body s) :
    ∃ y m, Lexer.next l = .ok y m ∧ y.kind = .stringLiteral ∧ y.text.toList = inQuotes body ∧
      m.rest = t := by
  have hwrites : Writes body (String.ofList s).toList := by
    rw [String.toList_ofList]
    exact writes_iff_quoted.mpr hbody
  have hrest : (l.skip (gap l.rest)).rest = inQuotes body ++ t := by
    rw [h, hsplit, inQuotes, List.cons_append, List.append_assoc]
    rfl
  obtain ⟨m, hnext, hm⟩ := hwrites.literal l t hrest
  exact ⟨_, m, hnext, rfl, String.toList_ofList, hm⟩

/-- A lexer that comes to a quote behind a gap reads up to the first quote that closes it. -/
theorem next_of_quote (l : Lexer) (text : List Char)
    (h : (l.skip (gap l.rest)).rest = '"' :: text) : ClosesAtFirstQuote l text := by
  refine ⟨⟨?_, fun hnone => ?_⟩, fun body t hfirst => ?_⟩
  · rintro ⟨d, m, hnext, _⟩ ⟨body, t, hquote⟩
    obtain ⟨front, s, back, hfront, hsplit, _⟩ := hquote.paired.exists_quoted t
    obtain ⟨y, k, hy, _⟩ := next_of_quoted l h (hquote.split.trans hsplit) hfront
    rw [hnext] at hy
    cases hy
  · rcases quotedBody_cases text with ⟨body, s, t, hsplit, hbody⟩ | hall
    · exact absurd ⟨body, t, hsplit, hbody.paired⟩ hnone
    · rcases Lexer.next_cases l with ⟨hnil, _⟩ | ⟨c, rest, hcons, hnext⟩
      · rw [hnil] at h
        cases h
      · rw [hcons] at h
        obtain ⟨rfl, rfl⟩ := List.cons.inj h
        have hscan : scanToken l.limits '"' rest = ⟨'"' :: rest, .error .unterminatedString⟩ := by
          show quoted rest = _
          rw [quoted, hall]
          rfl
        rw [hscan] at hnext
        exact ⟨_, _, hnext, rfl⟩
  · obtain ⟨s, hbody⟩ := hfirst.exists_quoted
    exact next_of_quoted l h hfirst.split hbody

end GenericIR
