/-
# What a lexer makes of the text it comes to

A lexer goes over the gap in front of it and comes to a text.  It then either gives a token of some
front of that text or ends with a fault that covers the front, and in both cases it leaves what is
behind the front.  What the reading does is the scan of that text, so exact statements about tokens
are statements about scans.

* `Lexer.ComesTo` : the text behind the gap;
* `Lexer.Gives`, `Lexer.Faults` : a token or a fault of a front of it;
* `Lexer.gives_of_scanToken`, `Lexer.faults_of_scanToken` : both from the scan.
-/
import GenericIR.Proofs.Reading
import GenericIR.Proofs.Spelling

namespace GenericIR

namespace Lexer

/-! ## Readings at a text -/

/-- A lexer that stands at a text, or at a gap with the text behind it. -/
def ComesTo (l : Lexer) (text : List Char) : Prop := (l.skip (gap l.rest)).rest = text

/-- The next reading gives a token of a kind with a value that covers a text, and leaves the lexer
in front of the rest. -/
def Gives (l : Lexer) (text : List Char) (kind : TokenKind) (value : TokenValue)
    (rest : List Char) : Prop :=
  ∃ m, next l = .ok ⟨String.ofList (gap l.rest), String.ofList text,
    ⟨kind, value, .ofText (l.place.after (gap l.rest)) text⟩⟩ m ∧ m.rest = rest

/-- The next reading ends with a fault that covers a text, and leaves the lexer in front of the
rest. -/
def Faults (l : Lexer) (text : List Char) (fault : Fault) (rest : List Char) : Prop :=
  ∃ m, next l = .error (.ofFault fault (.ofText (l.place.after (gap l.rest)) text)) m ∧
    m.rest = rest

variable {l : Lexer} {c : Char} {u text rest : List Char}

/-- The reading of a text is its scan. -/
theorem next_of_comesTo (h : l.ComesTo (c :: u)) :
    next l = take (gap l.rest) (scanToken l.limits c u) (l.skip (gap l.rest)) := by
  rcases next_cases l with ⟨hnil, _⟩ | ⟨d, v, hcons, hnext⟩
  · rw [ComesTo, hnil] at h
    cases h
  · rw [ComesTo, hcons] at h
    obtain ⟨rfl, rfl⟩ := List.cons.inj h
    exact hnext

/-- Behind the front of the text it comes to, a lexer is in front of the rest. -/
theorem rest_skip_of_comesTo (h : l.ComesTo (text ++ rest)) :
    ((l.skip (gap l.rest)).skip text).rest = rest := by
  show (l.skip (gap l.rest)).rest.drop text.length = rest
  rw [show (l.skip (gap l.rest)).rest = text ++ rest from h, List.drop_left]

/-- A front that is scanned as a token is read as one. -/
theorem gives_of_scanToken {kind : TokenKind} {value : TokenValue} (h : l.ComesTo (text ++ rest))
    (hsplit : text ++ rest = c :: u)
    (hscan : scanToken l.limits c u = ⟨text, .ok (kind, value)⟩) :
    l.Gives text kind value rest := by
  refine ⟨(l.skip (gap l.rest)).skip text, ?_, rest_skip_of_comesTo h⟩
  rw [next_of_comesTo (hsplit ▸ h), hscan]
  rfl

/-- A front that is scanned with a fault is read with it. -/
theorem faults_of_scanToken {fault : Fault} (h : l.ComesTo (text ++ rest))
    (hsplit : text ++ rest = c :: u) (hscan : scanToken l.limits c u = ⟨text, .error fault⟩) :
    l.Faults text fault rest := by
  refine ⟨(l.skip (gap l.rest)).skip text, ?_, rest_skip_of_comesTo h⟩
  rw [next_of_comesTo (hsplit ▸ h), hscan]
  rfl

/-- A reading leaves one text. -/
theorem Gives.rest_eq {text' rest' : List Char} {kind kind' : TokenKind} {value value' : TokenValue}
    (h : l.Gives text kind value rest) (h' : l.Gives text' kind' value' rest') : rest = rest' := by
  obtain ⟨m, hnext, rfl⟩ := h
  obtain ⟨m', hnext', rfl⟩ := h'
  exact congrArg Lexer.rest (EStateM.Result.ok.inj (hnext.symm.trans hnext')).2

/-! ## A text on its own -/

/-- A source that starts with a character that no gap takes is what its lexer comes to. -/
theorem comesTo_ofSource {limits : Limits} {source : String} (h : gap source.toList = []) :
    (Lexer.ofSource limits source).ComesTo source.toList := by
  show source.toList.drop (gap source.toList).length = source.toList
  rw [h]
  rfl

/-- Whether a source is one token, with nothing before and behind it. -/
def IsOneToken (limits : Limits) (source : String) (kind : TokenKind) (value : TokenValue) : Prop :=
  ∃ m, tokenize (Lexer.ofSource limits source) =
    .ok [⟨kind, value, .ofText .start source.toList⟩,
      ⟨.eof, .none, ⟨Place.start.after source.toList, 0⟩⟩] m

/-- A source that is read as a token up to its end is one token. -/
theorem isOneToken_of_gives {limits : Limits} {source : String} {kind : TokenKind}
    {value : TokenValue} (hgap : gap source.toList = []) (hkind : kind ≠ .eof)
    (h : (Lexer.ofSource limits source).Gives source.toList kind value []) :
    IsOneToken limits source kind value := by
  obtain ⟨m, hnext, hm⟩ := h
  have hplace : m.place = Place.start.after source.toList := by
    have htook := (took_of_next hnext).1.place
    simpa only [String.toList_ofList, ofSource, hgap, Place.after_nil] using htook
  have hreads : (Lexer.ofSource limits source).Reads _ :=
    .more hnext hkind (.last (next_of_rest_nil m hm) rfl)
  obtain ⟨hfault, hlexemes⟩ := (reads_iff _ _).mp hreads
  refine ⟨_, (tokenize_eq_ok_iff _ _ _).mpr ⟨hfault, ?_, rfl⟩⟩
  rw [hlexemes]
  simp only [List.map_cons, List.map_nil, ofSource, hgap, Place.after_nil, hplace]

/-- A source that is one token starts with this token. -/
theorem IsOneToken.eq_of_gives {limits : Limits} {source : String} {kind kind' : TokenKind}
    {value value' : TokenValue} (h : IsOneToken limits source kind value)
    (hgives : (Lexer.ofSource limits source).Gives text kind' value' rest) :
    kind = kind' ∧ value = value' := by
  obtain ⟨m, htokens⟩ := h
  obtain ⟨n, hnext, -⟩ := hgives
  obtain ⟨-, hmap, -⟩ := (tokenize_eq_ok_iff _ _ _).mp htokens
  rw [readAll_eq, hnext] at hmap
  dsimp only at hmap
  split at hmap
  · exact absurd (List.cons.inj hmap).2 (List.cons_ne_nil _ _).symm
  · obtain ⟨hkind, hvalue, -⟩ := Token.mk.inj (List.cons.inj hmap).1
    exact ⟨hkind.symm, hvalue.symm⟩

/-- A text that is scanned as a token up to its end is one token. -/
theorem isOneToken_of_scanToken {limits : Limits} {kind : TokenKind} {value : TokenValue}
    (htext : text = c :: u) (hblank : ¬ isBlank c) (hslash : c ≠ '/') (hkind : kind ≠ .eof)
    (hscan : scanToken limits c u = ⟨text, .ok (kind, value)⟩) :
    IsOneToken limits (String.ofList text) kind value := by
  have hlist : (String.ofList text).toList = text ++ [] := by
    rw [String.toList_ofList, List.append_nil]
  have hgap : gap (String.ofList text).toList = [] := by
    rw [String.toList_ofList, htext]
    exact gap_cons hblank hslash u
  have hgives : (Lexer.ofSource limits (String.ofList text)).Gives text kind value [] :=
    gives_of_scanToken (hlist ▸ comesTo_ofSource hgap) ((List.append_nil text).trans htext) hscan
  exact isOneToken_of_gives hgap hkind (String.toList_ofList.symm ▸ hgives)

end Lexer

end GenericIR
