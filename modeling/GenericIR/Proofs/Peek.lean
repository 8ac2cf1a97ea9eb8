/-
# The peek behind a brace

A brace behind the signature of an operation opens a dictionary or a body.  The parser tells them
apart by the two lexemes behind it, which it reads without going on, and it reads them again when
it does go on.  So the peek finds what the parser comes to, and a fault that it meets is one that a
dictionary and a body meet alike.

* `Parse.peekedAt` : what the peek finds, told by going on;
* `Parse.FaultBehind.attributes`, `Parse.FaultBehind.capture` : a dictionary and a body meet the
  fault that the peek meets;
* `Parse.readFromBody_of_attributes` : how a dictionary starts that the peek has taken for a body;
* `Parse.peek_is_transparent` : the peek at any parser that faces a brace.
-/
import GenericIR.Proofs.Progress

namespace GenericIR

namespace Parse

/-! ## What the peek finds -/

/-- A fault in the two lexemes behind the lookahead, met by going on.  The second of them counts
only where the first is an identifier. -/
inductive FaultBehind (p : Parser) (d : Diagnostic) (q : Parser) : Prop where
  | first (hfirst : advance p = .error d q) : FaultBehind p d q
  | second {x : Lexeme} {r : Parser} (hfirst : advance p = .ok x r) (hr : r.kind = .identifier)
      (hsecond : advance r = .error d q) : FaultBehind p d q

/-- Where a peek ends, told by the lexemes that the parser comes to when it goes on.  The parser
stays where it is. -/
inductive PeekedAt (p : Parser) : EStateM.Result Diagnostic Parser Bool → Prop where
  | fault {d : Diagnostic} {q : Parser} (h : FaultBehind p d q) : PeekedAt p (.error d p)
  | other {x : Lexeme} {q : Parser} (hfirst : advance p = .ok x q) (hq : q.kind ≠ .identifier) :
      PeekedAt p (.ok false p)
  | decided {x y : Lexeme} {q r : Parser} (hfirst : advance p = .ok x q)
      (hq : q.kind = .identifier) (hsecond : advance q = .ok y r) :
      PeekedAt p (.ok (decide (r.kind ∈ [.equal, .comma, .rbrace])) p)

/-- A peek reads the lexemes that the parser reads when it goes on. -/
theorem peekedAt (p : Parser) : PeekedAt p (braceOpensAttributes p) := by
  unfold braceOpensAttributes
  cases hx : Lexer.next p.lexer with
  | error d l =>
      have hfirst : advance p =
          .error d ⟨l, p.lookahead, p.passed, p.skipped ++ p.lexer.textUpTo l⟩ := by
        rw [advance, hx]
      exact .fault (.first hfirst)
  | ok x l =>
      have hfirst : advance p = .ok p.lookahead ⟨l, x, p.lookahead :: p.passed, []⟩ := by
        rw [advance, hx]
      dsimp only
      by_cases hkind : x.token.kind = .identifier
      · rw [if_pos hkind]
        cases hy : Lexer.next l with
        | error d m =>
            refine .fault (.second hfirst hkind
              (q := ⟨m, x, p.lookahead :: p.passed, l.textUpTo m⟩) ?_)
            rw [advance, hy]
            rfl
        | ok y m =>
            refine .decided hfirst hkind (y := x) (r := ⟨m, y, x :: p.lookahead :: p.passed, []⟩) ?_
            rw [advance, hy]
      · rw [if_neg hkind]
        exact .other hfirst hkind

section

variable {p q r : Parser} {x y : Lexeme} {d : Diagnostic}

/-- The fault behind a lookahead is one fault. -/
theorem FaultBehind.unique {e : Diagnostic} (h : FaultBehind p d q) (h' : FaultBehind p e r) :
    d = e := by
  cases h with
  | first hfirst =>
      cases h' with
      | first hfirst' => rw [hfirst] at hfirst'; cases hfirst'; rfl
      | second hfirst' _ _ => rw [hfirst] at hfirst'; cases hfirst'
  | second hfirst _ hsecond =>
      cases h' with
      | first hfirst' => rw [hfirst] at hfirst'; cases hfirst'
      | second hfirst' _ hsecond' =>
          rw [hfirst] at hfirst'
          cases hfirst'
          rw [hsecond] at hsecond'
          cases hsecond'
          rfl

/-- The peek ends with the fault behind the lookahead. -/
theorem FaultBehind.peek (h : FaultBehind p d q) : braceOpensAttributes p = .error d p := by
  have hpeeked := peekedAt p
  generalize braceOpensAttributes p = result at hpeeked
  cases hpeeked with
  | fault h' => rw [h.unique h']
  | other hfirst hne =>
      cases h with
      | first hfirst' => rw [hfirst] at hfirst'; cases hfirst'
      | second hfirst' hr _ => rw [hfirst] at hfirst'; cases hfirst'; exact absurd hr hne
  | decided hfirst _ hsecond =>
      cases h with
      | first hfirst' => rw [hfirst] at hfirst'; cases hfirst'
      | second hfirst' _ hsecond' =>
          rw [hfirst] at hfirst'
          cases hfirst'
          rw [hsecond] at hsecond'
          cases hsecond'

/-! ## Faults that both continuations meet -/

/-- An entry of a dictionary with the commas behind it. -/
abbrev separatedEntry : Parse (String × AttributeValue) :=
  attributeEntry >>= fun entry => skipCommas >>= fun _ => pure entry

/-- A dictionary goes on from its brace to its entries. -/
theorem attributes_apply (hp : p.kind = .lbrace) (into : Attributes) :
    attributes into p = (advance >>= fun _ => itemsUntil [.rbrace] separatedEntry >>=
      fun entries => consume .rbrace >>= fun _ => pure (into.insertAll entries)) p := by
  rw [attributes, bind_apply, consume_apply, if_pos hp, bind_apply]

/-- A capture of a body goes on from its brace to its lexemes. -/
theorem capture_apply (hp : p.kind = .lbrace) (context : String) :
    capture .lbrace .rbrace context p = (advance >>= fun first =>
      collect (captureTurn .lbrace .rbrace context) 1 >>= fun run =>
        pure (verbatimPast p.skipped (first :: run))) p := by
  rw [capture, skipped_bind_apply, balanced, bind_assoc, bind_apply, consume_apply, if_pos hp,
    bind_apply]
  simp only [bind_assoc, pure_bind]

/-- A fault behind a brace is met by a dictionary. -/
theorem FaultBehind.attributes (hp : p.kind = .lbrace) (h : FaultBehind p d q)
    (into : Attributes) : attributes into p = .error d q := by
  rw [attributes_apply hp, bind_apply]
  cases h with
  | first hfirst => rw [hfirst]
  | @second x r hfirst hr hsecond =>
      -- behind an identifier the fault is met inside the first entry
      have hkind : r.lookahead.token.kind = .identifier := hr
      have hentry : attributeEntry r = .error d q := by
        rw [attributeEntry, sees_bind_apply, decide_eq_true hr, if_pos rfl, bind_apply, hsecond]
      rw [hfirst]
      dsimp only
      rw [bind_apply, itemsUntil_eq _ advances_separatedEntry, current_bind_apply, hkind,
        if_neg (by decide), bind_apply, bind_apply, hentry]

/-- A fault behind a brace is met by a body. -/
theorem FaultBehind.capture (hp : p.kind = .lbrace) (h : FaultBehind p d q) (context : String) :
    capture .lbrace .rbrace context p = .error d q := by
  rw [capture_apply hp, bind_apply]
  cases h with
  | first hfirst => rw [hfirst]
  | @second x r hfirst hr hsecond =>
      have heof : r.kind ≠ .eof := by rw [hr]; decide
      rw [hfirst]
      dsimp only
      rw [bind_apply, collect_captureTurn_eq, sees_bind_apply, decide_eq_false heof,
        if_neg (by decide), bind_apply, hsecond]

/-! ## A body read as a dictionary -/

/-- An entry of a dictionary starts with the identifier that is its name. -/
theorem name_of_attributeEntry {entry : String × AttributeValue}
    (h : attributeEntry p = .ok entry q) :
    p.kind = .identifier ∧ entry.1 = p.lookahead.valueText := by
  rw [attributeEntry, sees_bind_apply] at h
  by_cases hp : p.kind = .identifier
  · refine ⟨hp, ?_⟩
    rw [decide_eq_true hp, if_pos rfl] at h
    obtain ⟨x, r, hx, h⟩ := exists_of_bind_ok h
    rw [← (passed_of_advance hx).1]
    obtain ⟨valued, s, _, h⟩ := exists_of_bind_ok h
    cases valued with
    | false =>
        cases h
        rfl
    | true =>
        obtain ⟨v, t, _, h⟩ := exists_of_bind_ok h
        cases h
        rfl
  · rw [decide_eq_false hp, if_neg (by decide)] at h
    cases h

/-- A name with neither an equals sign nor a comma behind it is an entry that is set to itself. -/
theorem separatedEntry_of_unit (hp : p.kind = .identifier) (hx : advance p = .ok x q)
    (hequal : q.kind ≠ .equal) (hcomma : q.kind ≠ .comma) :
    separatedEntry p = .ok (p.lookahead.valueText, .unit p.lookahead.valueText) q := by
  have hentry : attributeEntry p =
      .ok (p.lookahead.valueText, .unit p.lookahead.valueText) q := by
    rw [attributeEntry, sees_bind_apply, decide_eq_true hp, if_pos rfl, bind_apply, hx]
    dsimp only
    rw [accept_bind, sees_bind_apply, decide_eq_false hequal, (passed_of_advance hx).1]
    rfl
  rw [separatedEntry, bind_apply, hentry]
  dsimp only
  rw [bind_apply, skipCommas_of_ne hcomma]
  rfl

/-- Entries that do not end at once start with one. -/
theorem exists_entry_of_itemsUntil {entries : List (String × AttributeValue)}
    (hp : p.kind ≠ .rbrace) (h : itemsUntil [.rbrace] separatedEntry p = .ok entries q) :
    ∃ entry more r, entries = entry :: more ∧ separatedEntry p = .ok entry r ∧
      itemsUntil [.rbrace] separatedEntry r = .ok more q := by
  rw [itemsUntil_eq _ advances_separatedEntry, current_bind_apply] at h
  have hstop : ¬ p.lookahead.token.kind ∈ [TokenKind.rbrace] := fun hmem =>
    hp (List.mem_singleton.mp hmem)
  rw [if_neg hstop] at h
  obtain ⟨entry, r, hentry, h⟩ := exists_of_bind_ok h
  obtain ⟨more, s, hmore, h⟩ := exists_of_bind_ok h
  cases h
  exact ⟨entry, more, r, rfl, hentry, hmore⟩

/-- What a dictionary is read from that the peek has taken for a body: it is empty, or its first
entry is a name alone, and the next is a name right behind it. -/
inductive ReadFromBody (into : Attributes) (p : Parser) : Attributes → Prop where
  | empty {x : Lexeme} {q : Parser} (hfirst : advance p = .ok x q) (hq : q.kind = .rbrace) :
      ReadFromBody into p into
  | unit {x y : Lexeme} {q r : Parser} {value : AttributeValue}
      {more : List (String × AttributeValue)} (hfirst : advance p = .ok x q)
      (hq : q.kind = .identifier) (hsecond : advance q = .ok y r) (hr : r.kind = .identifier) :
      ReadFromBody into p (into.insertAll
        ((q.lookahead.valueText, .unit q.lookahead.valueText) ::
          (r.lookahead.valueText, value) :: more))

/-- Where the peek finds a body behind an identifier, the lexeme behind that is none of the three
that go on with an entry. -/
theorem second_of_body (hpeek : braceOpensAttributes p = .ok false p)
    (hfirst : advance p = .ok x q) (hq : q.kind = .identifier) :
    ∃ y r, advance q = .ok y r ∧ r.kind ∉ [TokenKind.equal, .comma, .rbrace] := by
  have hpeeked := peekedAt p
  generalize hres : braceOpensAttributes p = result at hpeeked hpeek
  cases hpeeked with
  | fault _ => cases hpeek
  | other hfirst' hne =>
      rw [hfirst] at hfirst'
      cases hfirst'
      exact absurd hq hne
  | @decided _ y _ r hfirst' _ hsecond =>
      rw [hfirst] at hfirst'
      cases hfirst'
      refine ⟨y, r, hsecond, of_decide_eq_false ?_⟩
      injection hpeek

/-- A dictionary that is read where the peek finds a body is empty or starts with two names. -/
theorem readFromBody_of_attributes {into as : Attributes} {s : Parser} (hp : p.kind = .lbrace)
    (hpeek : braceOpensAttributes p = .ok false p) (h : attributes into p = .ok as s) :
    ReadFromBody into p as := by
  rw [attributes_apply hp] at h
  obtain ⟨x, q, hfirst, h⟩ := exists_of_bind_ok h
  obtain ⟨entries, t, hentries, h⟩ := exists_of_bind_ok h
  obtain ⟨_, u, _, h⟩ := exists_of_bind_ok h
  cases h
  by_cases hclose : q.kind = .rbrace
  · have hstop : q.lookahead.token.kind ∈ [TokenKind.rbrace] := List.mem_singleton.mpr hclose
    rw [itemsUntil_eq _ advances_separatedEntry, current_bind_apply, if_pos hstop] at hentries
    cases hentries
    exact .empty hfirst hclose
  · obtain ⟨entry, more, r, rfl, hentry, hmore⟩ := exists_entry_of_itemsUntil hclose hentries
    obtain ⟨_, _, hname, _⟩ := exists_of_bind_ok hentry
    have hq := (name_of_attributeEntry hname).1
    obtain ⟨y, r', hsecond, hbehind⟩ := second_of_body hpeek hfirst hq
    have hne : ∀ k ∈ [TokenKind.equal, .comma, .rbrace], r'.kind ≠ k := fun k hk hkind =>
      hbehind (hkind ▸ hk)
    rw [separatedEntry_of_unit hq hsecond (hne _ (by decide)) (hne _ (by decide))] at hentry
    cases hentry
    -- no comma separates the name from what follows, which is another entry
    obtain ⟨entry, more, _, rfl, hentry, _⟩ :=
      exists_entry_of_itemsUntil (hne _ (by decide)) hmore
    obtain ⟨named, _, hname, hrest⟩ := exists_of_bind_ok hentry
    obtain ⟨_, _, _, hrest⟩ := exists_of_bind_ok hrest
    cases hrest
    obtain ⟨hr, hvalue⟩ := name_of_attributeEntry hname
    obtain ⟨name, value⟩ := entry
    obtain rfl : name = r.lookahead.valueText := hvalue
    exact .unit hfirst hq hsecond hr

/-! ## Any parser that faces a brace -/

/-- A block that is known to be a dictionary, or known to be a body. -/
def blockAs (isDictionary : Bool) (into : Attributes) : Parse (Attributes × Option String) :=
  if isDictionary then do return (← attributes into, none)
  else do return (into, some (← capture .lbrace .rbrace "operation body"))

/-- A block is what the peek finds it to be. -/
theorem block_apply (hp : p.kind = .lbrace) (into : Attributes) :
    block into p = (braceOpensAttributes >>= fun b => blockAs b into) p := by
  rw [block, sees_bind_apply, decide_eq_true hp, if_pos rfl]
  rfl

/-- The peek behind a brace changes nothing but the choice.  It is decided by the lexemes that the
parser comes to when it goes on, and the parser stays at the brace.  A fault in them ends a
dictionary and a body alike, so it ends the block whatever it is; without one the block is what the
peek finds it to be, read from the brace on.  And what the peek takes for a body is as a dictionary
a failure, or empty, or has a name alone as its first entry and a name right behind it. -/
theorem peek_is_transparent (p : Parser) (hp : p.kind = .lbrace) (into : Attributes) :
    PeekedAt p (braceOpensAttributes p) ∧
    (∀ d q, FaultBehind p d q → block into p = .error d p ∧ attributes into p = .error d q ∧
      capture .lbrace .rbrace "operation body" p = .error d q) ∧
    (∀ b q, braceOpensAttributes p = .ok b q → block into p = blockAs b into p) ∧
    ∀ as q, braceOpensAttributes p = .ok false p → attributes into p = .ok as q →
      ReadFromBody into p as := by
  refine ⟨peekedAt p, fun d q h => ?_, fun b q h => ?_, fun as q => readFromBody_of_attributes hp⟩
  · refine ⟨?_, h.attributes hp into, h.capture hp _⟩
    rw [block_apply hp, bind_apply, h.peek]
  · have hq : q = p := by
      rcases braceOpensAttributes_apply p with ⟨c, hc⟩ | ⟨d, hd⟩
      · rw [hc] at h
        cases h
        rfl
      · rw [hd] at h
        cases h
    rw [block_apply hp, bind_apply, h, hq]

/-- A parser that faces a brace, a name and a string with no end: the block, a dictionary and a body
all end with the fault of that string. -/
theorem block_of_unterminated :
    ∃ p d q, Parser.ofSource .standard "\x7b a \"x \x7d" = .ok p ∧ d.fault = .unterminatedString ∧
      block .empty p = .error d p ∧ attributes .empty p = .error d q ∧
      capture .lbrace .rbrace "operation body" p = .error d q := by
  let brace : Lexeme := ⟨"", "\x7b", ⟨.lbrace, .text "\x7b", ⟨⟨0, 1, 1⟩, 1⟩⟩⟩
  let name : Lexeme := ⟨" ", "a", ⟨.identifier, .text "a", ⟨⟨2, 1, 3⟩, 1⟩⟩⟩
  let p : Parser := ⟨⟨.standard, ⟨1, 1, 2⟩, [' ', 'a', ' ', '"', 'x', ' ', '}']⟩, brace, [], []⟩
  let r : Parser := ⟨⟨.standard, ⟨3, 1, 4⟩, [' ', '"', 'x', ' ', '}']⟩, name, [brace], []⟩
  let q : Parser := ⟨⟨.standard, ⟨8, 1, 9⟩, []⟩, name, [brace], [' ', '"', 'x', ' ', '}']⟩
  let d : Diagnostic := .ofFault .unterminatedString ⟨⟨4, 1, 5⟩, 4⟩
  have hp : Parser.ofSource .standard "\x7b a \"x \x7d" = .ok p := rfl
  have hfirst : advance p = .ok brace r := rfl
  have hsecond : advance r = .error d q := rfl
  obtain ⟨_, hfault, _⟩ := peek_is_transparent p rfl .empty
  exact ⟨p, d, q, hp, rfl, hfault d q (.second hfirst rfl hsecond)⟩

end

end Parse

end GenericIR
