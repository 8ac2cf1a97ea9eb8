/-
# Where quoted texts go

A text in quotes comes to the graph in four ways: as the value of an attribute, as the name of an
operation, and behind its sigil as the name of a module or a function and as a callee.  Each of
them gives the text that was written, wherever the parser stands and whatever it reads later.  Of
a name only one sigil is taken off, also where the text starts with one itself.

* `Parse.attributes_of_single` : a dictionary with one entry;
* `Arrives` : the four ways for a parser at any place;
* `Graph.parse_quotedModule` : all of them in one source;
* `quoted_text_arrives` : what is written in quotes is read back.
-/
import GenericIR.Proofs.FirstFault
import GenericIR.Proofs.Quoted.Text
import GenericIR.Proofs.Recognition.Module
import GenericIR.Proofs.Values.Extent

namespace GenericIR

/-! ## Lexemes by their text -/

/-- A lexeme with a text that is read as one token is that token. -/
theorem ReadsAs.of_next {text : List Char} {kind : TokenKind} {value : String}
    (h : ReadsAs text kind value) (hne : text ≠ []) {l m : Lexer} {y : Lexeme}
    (hnext : Lexer.next l = .ok y m) (hy : y.text.toList = text) :
    y.kind = kind ∧ y.token.value = .text value := by
  have hrest : ∃ t, (l.skip (gap l.rest)).rest = text ++ t := by
    rcases Lexer.next_ok_cases hnext with ⟨_, _, rfl⟩ | ⟨c, rest, _, _, hrest, _, _, rfl⟩
    · exact absurd hy.symm hne
    · rw [String.toList_ofList] at hy
      obtain ⟨t, ht⟩ := scanToken_isPrefix l.limits c rest
      exact ⟨t, by rw [hrest, ← hy, ht]⟩
  obtain ⟨t, hrest⟩ := hrest
  obtain ⟨k, hk, _⟩ := h l t hrest
  rw [hnext] at hk
  cases hk
  exact ⟨rfl, rfl⟩

/-! ## Parsers at a text in quotes -/

/-- A parser with a text as its lookahead, and the parser that has gone past it. -/
structure Parser.PastText (text : List Char) (p q : Parser) : Prop where
  fresh : p.Fresh
  lookahead : p.lookahead.text.toList = text
  advance : Parse.advance p = .ok p.lookahead q

namespace Parser.GoesPast

variable {p q : Parser} {x : Lexeme} {xs ys : List Lexeme}

/-- Of the lexemes that are gone past, the first one is gone past first. -/
theorem exists_advance (h : p.GoesPast (x :: xs) q) :
    ∃ r, Parse.advance p = .ok x r ∧ r.GoesPast xs q := by
  cases h with
  | cons _ hadvance h => exact ⟨_, hadvance, h⟩

/-- One lexeme is gone past in one step. -/
theorem advance_of_single (h : p.GoesPast [x] q) : Parse.advance p = .ok x q := by
  obtain ⟨_, hadvance, hnil⟩ := h.exists_advance
  cases hnil
  exact hadvance

/-- Lexemes are gone past in two steps. -/
theorem exists_append (h : p.GoesPast (xs ++ ys) q) :
    ∃ r, p.GoesPast xs r ∧ r.GoesPast ys q := by
  induction xs generalizing p with
  | nil => exact ⟨p, .nil, h⟩
  | cons x xs ih =>
      cases h with
      | cons hp hx h =>
          obtain ⟨r, hfront, hback⟩ := ih h
          exact ⟨r, .cons hp hx hfront, hback⟩

end Parser.GoesPast

namespace Parse

open GenericIR.Parser (GoesPast advance_eq_ok_iff kind_of_advance limits_of_advance)

variable {p q r : Parser} {x : String}

/-- A list that ends behind its first item. -/
theorem itemsUntil_of_single {α : Type} {stops : List TokenKind} {item : Parse α} {a : α}
    (hitem : Advances Any item) (hp : p.kind ∉ stops) (ha : item p = .ok a q)
    (hq : q.kind ∈ stops) : itemsUntil stops item p = .ok [a] q := by
  have hnone : itemsUntil stops item q = .ok [] q := by
    rw [itemsUntil_eq _ hitem, current_bind_apply]
    exact congrFun (if_pos hq) q
  rw [itemsUntil_eq _ hitem, current_bind_apply]
  refine (congrFun (if_neg hp) p).trans ?_
  rw [bind_apply, ha]
  dsimp only
  rw [bind_apply, hnone]
  rfl

/-- An entry with a value is its name and what the lexemes of the value stand for. -/
theorem attributeEntry_of_value {k e : Lexeme} {v : List Lexeme}
    (hgoes : GoesPast p (k :: e :: v) q) (hk : k.kind = .identifier) (he : e.kind = .equal)
    (hv : FirstEvent p.lexer.limits.maxNestingDepth (v.map Lexeme.kind) q.kind .ends) :
    attributeEntry p = .ok (k.valueText, .ofLexemes v) q := by
  obtain ⟨p₁, hname, hgoes⟩ := hgoes.exists_advance
  obtain ⟨p₂, hequal, hgoes⟩ := hgoes.exists_advance
  have hvalue : attributeValue p₂ = .ok (.ofLexemes v) q := by
    rw [← limits_of_advance hname, ← limits_of_advance hequal] at hv
    rw [attributeValue, bind_apply, collect_attributeValueTurn_of_firstEvent hgoes hv]
    rfl
  rw [attributeEntry, sees_bind_apply, decide_eq_true ((kind_of_advance hname).trans hk),
    if_pos rfl, bind_apply, hname]
  dsimp only
  rw [accept_bind, sees_bind_apply, decide_eq_true ((kind_of_advance hequal).trans he),
    if_pos rfl, bind_apply, hequal]
  dsimp only
  rw [if_pos rfl, bind_apply, hvalue]
  rfl

/-- A dictionary with one entry sets its name to what the lexemes of the value stand for. -/
theorem attributes_of_single {o k e c : Lexeme} {v : List Lexeme} (into : Attributes)
    (hgoes : GoesPast p (o :: k :: e :: (v ++ [c])) q) (ho : o.kind = .lbrace)
    (hk : k.kind = .identifier) (he : e.kind = .equal) (hc : c.kind = .rbrace)
    (hv : FirstEvent p.lexer.limits.maxNestingDepth (v.map Lexeme.kind) .rbrace .ends) :
    attributes into p = .ok (into.insert k.valueText (.ofLexemes v)) q := by
  -- the parsers at the entry and at the closing brace
  obtain ⟨p₁, hopen, hgoes⟩ := hgoes.exists_advance
  obtain ⟨p₂, hentry, hlast⟩ : ∃ r, p₁.GoesPast (k :: e :: v) r ∧ r.GoesPast [c] q :=
    Parser.GoesPast.exists_append hgoes
  have hclose := hlast.advance_of_single
  have hbrace : p₂.kind = .rbrace := (kind_of_advance hclose).trans hc
  have hname : p₁.kind ∉ [TokenKind.rbrace] := by
    obtain ⟨_, hadvance, _⟩ := hentry.exists_advance
    rw [kind_of_advance hadvance, hk]
    decide
  have hseparated : (attributeEntry >>= fun entry => skipCommas >>= fun _ => pure entry) p₁ =
      .ok (k.valueText, .ofLexemes v) p₂ := by
    rw [← limits_of_advance hopen, ← hbrace] at hv
    rw [bind_apply, attributeEntry_of_value hentry hk he hv]
    dsimp only
    rw [bind_apply, skipCommas_of_ne (by rw [hbrace]; decide)]
    rfl
  have hentries := itemsUntil_of_single advances_separatedEntry hname hseparated
    (List.mem_singleton.mpr hbrace)
  rw [attributes, bind_apply, consume_apply, if_pos ((kind_of_advance hopen).trans ho), hopen]
  dsimp only
  rw [bind_apply, hentries]
  dsimp only
  rw [bind_apply, consume_apply, if_pos hbrace, hclose]
  rfl

/-- The name of an operation that is a string literal is what it carries. -/
theorem operationName_of_literal (hkind : p.kind = .stringLiteral)
    (hvalue : p.lookahead.token.value = .text x) (hadvance : advance p = .ok p.lookahead q) :
    operationName p = .ok x q := by
  rw [operationName, current_bind_apply]
  refine (congrFun (if_pos hkind) p).trans ?_
  rw [bind_apply, hadvance]
  show EStateM.Result.ok p.lookahead.valueText q = _
  rw [Lexeme.valueText, hvalue]
  rfl

/-- A callee is what its symbol carries. -/
theorem callee_of_symbol (hkind : p.kind = .symbolRefId)
    (hvalue : p.lookahead.token.value = .text x) (hadvance : advance p = .ok p.lookahead q) :
    callee p = .ok (some x) q := by
  rw [callee, sees_bind_apply, decide_eq_true hkind, if_pos rfl, bind_apply, hadvance]
  show EStateM.Result.ok (some p.lookahead.valueText) q = _
  rw [Lexeme.valueText, hvalue]
  rfl

/-- The name of a module is what its symbol carries behind the sigil. -/
theorem moduleName_of_symbol (hkind : p.kind = .symbolRefId)
    (hvalue : p.lookahead.token.value = .text x) (hadvance : advance p = .ok p.lookahead q) :
    moduleName p = .ok (some (dropSigil x)) q := by
  rw [moduleName, sees_bind_apply, decide_eq_true hkind, if_pos rfl, bind_apply, hadvance]
  show EStateM.Result.ok (some (dropSigil p.lookahead.valueText)) q = _
  rw [Lexeme.valueText, hvalue]
  rfl

/-- The name of a function is what the symbol behind its visibility carries behind the sigil. -/
theorem name_of_functionTail {v : Option String} {f : Function} (hv : visibility p = .ok v q)
    (hvalue : q.lookahead.token.value = .text x) (h : functionTail p = .ok f r) :
    f.name = dropSigil x := by
  rw [functionTail] at h
  obtain ⟨_, q', hq, h⟩ := exists_of_bind_ok h
  rw [hv] at hq
  cases hq
  obtain ⟨y, _, hy, h⟩ := exists_of_bind_ok h
  have hsymbol : y = q.lookahead := by
    rw [consume_apply] at hy
    split at hy
    · exact (advance_eq_ok_iff.mp hy).1
    · cases hy
  obtain ⟨_, _, _, h⟩ := exists_of_bind_ok h
  obtain ⟨_, _, _, h⟩ := exists_of_bind_ok h
  obtain ⟨_, _, _, h⟩ := exists_of_bind_ok h
  obtain ⟨_, _, _, h⟩ := exists_of_bind_ok h
  obtain ⟨_, _, _, h⟩ := exists_of_bind_ok h
  cases h
  show dropSigil y.valueText = _
  rw [hsymbol, Lexeme.valueText, hvalue]
  rfl

end Parse

/-- One sigil is taken off a symbol. -/
theorem dropSigil_sigil (x : String) : dropSigil ("@" ++ x) = x := by
  have htext : ("@" ++ x).toList = '@' :: x.toList := String.toList_append
  unfold dropSigil
  rw [htext]
  exact String.ofList_toList

/-! ## The four ways -/

/-- Whether a text that is written between quotes arrives in every place that it can have: as one
token, whatever follows it, and from any parser that goes past it as a value, as a name and as a
callee. -/
structure Arrives (body : List Char) (x : String) : Prop where
  literal : ReadsAs (inQuotes body) .stringLiteral x
  symbol : ReadsAs ('@' :: inQuotes body) .symbolRefId ("@" ++ x)
  value : ∀ {p q : Parser} {o k e s c : Lexeme} (into : Attributes),
    p.GoesPast [o, k, e, s, c] q → o.kind = .lbrace → k.kind = .identifier → e.kind = .equal →
    s.text.toList = inQuotes body → c.kind = .rbrace →
    Parse.attributes into p = .ok (into.insert k.valueText (.str x)) q
  operation : ∀ {p q : Parser}, p.PastText (inQuotes body) q → Parse.operationName p = .ok x q
  callee : ∀ {p q : Parser}, p.PastText ('@' :: inQuotes body) q →
    Parse.callee p = .ok (some ("@" ++ x)) q
  module : ∀ {p q : Parser}, p.PastText ('@' :: inQuotes body) q →
    Parse.moduleName p = .ok (some x) q
  function : ∀ {p q q' r : Parser} {v : Option String} {f : Function},
    Parse.visibility p = .ok v q → q.PastText ('@' :: inQuotes body) q' →
    Parse.functionTail p = .ok f r → f.name = x

/-- The token of a text that a parser has as its lookahead. -/
theorem ReadsAs.of_pastText {text : List Char} {kind : TokenKind} {value : String}
    (h : ReadsAs text kind value) (hne : text ≠ []) {p q : Parser} (hp : p.PastText text q) :
    p.kind = kind ∧ p.lookahead.token.value = .text value := by
  obtain ⟨l, hnext⟩ := hp.fresh
  exact h.of_next hne hnext hp.lookahead

/-- Text that is written in one of its ways arrives everywhere. -/
theorem Writes.arrives {body : List Char} {x : String} (h : Writes body x.toList) :
    Arrives body x where
  literal := h.literal
  symbol := h.symbol
  value := by
    intro p q o k e s c into hgoes ho hk he hs hc
    -- the literal is read by the parser that goes past the equals sign
    have hread : ∃ l m, Lexer.next l = .ok s m := by
      obtain ⟨_, _, h⟩ := hgoes.exists_advance
      obtain ⟨_, _, h⟩ := h.exists_advance
      obtain ⟨_, hequal, h⟩ := h.exists_advance
      obtain ⟨_, hliteral, _⟩ := h.exists_advance
      rw [(Parser.advance_eq_ok_iff.mp hliteral).1]
      exact ⟨_, _, (Parser.advance_eq_ok_iff.mp hequal).2.1⟩
    obtain ⟨l, m, hnext⟩ := hread
    obtain ⟨hkind, hvalue⟩ := h.literal.of_next (List.cons_ne_nil _ _) hnext hs
    have hfirst : FirstEvent p.lexer.limits.maxNestingDepth ([s].map Lexeme.kind) .rbrace
        .ends := by
      rw [List.map_singleton, hkind]
      refine firstEventFrom_cons_iff.mpr ⟨fun other hother => ?_, firstEventFrom_nil_iff.mpr ?_⟩
      · cases hother <;> simp_all
      · exact .ends rfl (Or.inr rfl)
    have hstr : AttributeValue.ofLexemes [s] = .str x :=
      ofLexemes_of_decodedTo (by rw [hkind, hvalue]; exact .string x)
    rw [← hstr]
    exact Parse.attributes_of_single (v := [s]) into hgoes ho hk he hc hfirst
  operation := by
    intro p q hp
    obtain ⟨hkind, hvalue⟩ := h.literal.of_pastText (List.cons_ne_nil _ _) hp
    exact Parse.operationName_of_literal hkind hvalue hp.advance
  callee := by
    intro p q hp
    obtain ⟨hkind, hvalue⟩ := h.symbol.of_pastText (List.cons_ne_nil _ _) hp
    exact Parse.callee_of_symbol hkind hvalue hp.advance
  module := by
    intro p q hp
    obtain ⟨hkind, hvalue⟩ := h.symbol.of_pastText (List.cons_ne_nil _ _) hp
    rw [Parse.moduleName_of_symbol hkind hvalue hp.advance, dropSigil_sigil]
  function := by
    intro p q q' r v f hv hq hf
    obtain ⟨_, hvalue⟩ := h.symbol.of_pastText (List.cons_ne_nil _ _) hq
    rw [Parse.name_of_functionTail hv hvalue hf, dropSigil_sigil]

/-! ## All of them in one source -/

section Source

variable {limits : Limits} {body : List Char} {x : String}

/-- A source with a text as the name and as an attribute of a module, as the name of a function
and of an operation, and as a callee. -/
def quotedModule (text : String) : String :=
  "module @" ++ text ++ " attributes \x7bk = " ++ text ++ "\x7d \x7bfunc @" ++ text ++ "() " ++
    text ++ "() call @" ++ text ++ "()\x7d"

/-- The module with a name in all these places. -/
def namedModule (x : String) : Graph where
  name := some x
  functions := [{ Function.named x with hasBody := false }]
  operations := [{ Operation.named x with isConstant := Parse.isConstantName x },
    { Operation.named "call" with callee := some ("@" ++ x) }]
  attributes := Attributes.empty.insert "k" (.str x)

/-- A token that carries its own text. -/
def Chunk.ofText (g text : String) (kind : TokenKind) : Chunk :=
  ⟨g.toList, text.toList, (kind, .text text)⟩

/-- A text in quotes as a string literal. -/
def Chunk.ofLiteral (g body : List Char) (x : String) : Chunk :=
  ⟨g, inQuotes body, (.stringLiteral, .text x)⟩

/-- A text in quotes as a symbol. -/
def Chunk.ofSymbol (g body : List Char) (x : String) : Chunk :=
  ⟨g, '@' :: inQuotes body, (.symbolRefId, .text ("@" ++ x))⟩

/-- The tokens of the attributes of the module. -/
def clauseChunks (body : List Char) (x : String) : List Chunk :=
  [.ofText " " "attributes" .identifier, .ofText " " "\x7b" .lbrace, .ofText "" "k" .identifier,
    .ofText " " "=" .equal, .ofLiteral [' '] body x, .ofText "" "\x7d" .rbrace]

/-- The tokens of the function. -/
def functionChunks (body : List Char) (x : String) : List Chunk :=
  [.ofText "" "func" .keyword, .ofSymbol [' '] body x, .ofText "" "(" .lparen,
    .ofText "" ")" .rparen]

/-- The tokens of the operation with a quoted name. -/
def nameChunks (body : List Char) (x : String) : List Chunk :=
  [.ofLiteral [' '] body x, .ofText "" "(" .lparen, .ofText "" ")" .rparen]

/-- The tokens of the operation with a quoted callee. -/
def callChunks (body : List Char) (x : String) : List Chunk :=
  [.ofText " " "call" .identifier, .ofSymbol [' '] body x, .ofText "" "(" .lparen,
    .ofText "" ")" .rparen]

/-- The tokens of the source. -/
def quotedChunks (body : List Char) (x : String) : List Chunk :=
  .ofText "" "module" .keyword :: .ofSymbol [' '] body x :: (clauseChunks body x ++
    .ofText " " "\x7b" .lbrace :: (functionChunks body x ++ (nameChunks body x ++
      (callChunks body x ++ [.ofText "" "\x7d" .rbrace]))))

/-- The tokens spell out the source. -/
theorem spell_quotedChunks {text : String} (htext : text.toList = inQuotes body) (x : String) :
    spell (quotedChunks body x) [] = (quotedModule text).toList := by
  unfold quotedModule
  simp only [String.toList_append, htext, List.append_assoc]
  rfl

/-- The tokens are read back. -/
theorem readsBack_quotedChunks (h : Writes body x.toList) :
    ReadsBack limits (quotedChunks body x) [] := by
  have hliteral : ∀ t, ∃ d u, inQuotes body = d :: u ∧
      scanToken limits d (u ++ t) = ⟨inQuotes body, .ok (.stringLiteral, .text x)⟩ :=
    fun t => ⟨_, _, rfl, h.scanToken_literal limits t⟩
  have hsymbol : ∀ t, ∃ d u, '@' :: inQuotes body = d :: u ∧
      scanToken limits d (u ++ t) = ⟨'@' :: inQuotes body, .ok (.symbolRefId, .text ("@" ++ x))⟩ :=
    fun t => ⟨_, _, rfl, h.scanToken_symbol limits t⟩
  refine ⟨rfl, ⟨_, _, rfl, rfl⟩, rfl, hsymbol _, rfl, ⟨_, _, rfl, rfl⟩, rfl, ⟨_, _, rfl, rfl⟩, rfl,
    ⟨_, _, rfl, rfl⟩, rfl, ⟨_, _, rfl, rfl⟩, rfl, hliteral _, rfl, ⟨_, _, rfl, rfl⟩, rfl,
    ⟨_, _, rfl, rfl⟩, rfl, ⟨_, _, rfl, rfl⟩, rfl, hsymbol _, rfl, ⟨_, _, rfl, rfl⟩, rfl,
    ⟨_, _, rfl, rfl⟩, rfl, hliteral _, rfl, ⟨_, _, rfl, rfl⟩, rfl, ⟨_, _, rfl, rfl⟩, rfl,
    ⟨_, _, rfl, rfl⟩, rfl, hsymbol _, rfl, ⟨_, _, rfl, rfl⟩, rfl, ⟨_, _, rfl, rfl⟩, rfl,
    ⟨_, _, rfl, rfl⟩, trivial⟩

/-- An operation with nothing but a name, perhaps a callee, and no operands in parentheses. -/
theorem isOperation_of_name {fits : Nat → Prop} {n o c z : Lexeme} {xs ys zs : List Lexeme}
    {name : String} {callee : Option String} {isConstant : Bool} (hn : n.kind ≠ .lparen)
    (hn' : n.kind ≠ .valueId) (hname : Grammar.IsName (n :: xs) name ys)
    (hcallee : Grammar.Optionally (·.kind = .symbolRefId) (Grammar.IsText .symbolRefId) ys callee
      (o :: c :: z :: zs))
    (ho : o.kind = .lparen) (hc : c.kind = .rparen)
    (hz : z.kind = .identifier ∨ z.kind = .rbrace)
    (hconstant : Parse.isConstantName name = isConstant) :
    Grammar.IsOperation fits (n :: xs)
      { Operation.named name with callee := callee, isConstant := isConstant } (z :: zs) := by
  -- nothing that can follow the operands does
  have hnone : ∀ k ∈ [TokenKind.lparen, .lbrace, .colon, .arrow, .keyword], z.kind ≠ k := by
    rcases hz with hz | hz <;> rw [hz] <;> decide
  have hlocation : Grammar.Optionally Grammar.IsLocWord (Grammar.IsLocation fits) (z :: zs) none
      (z :: zs) := .missing fun h => hnone _ (by simp) h.1
  have hdictionary : Grammar.MayHaveDictionary fits (z :: zs) [] (z :: zs) :=
    .intro (.missing (hnone _ (by simp)))
  have hhead : Grammar.IsHead fits (n :: xs) { Operation.named name with callee := callee }
      (z :: zs) :=
    .intro (.none (.none hn hn')) hname hcallee
      (.enclosed ho (.done (by rw [hc]; decide)) hc) (.missing (hnone _ (by simp))) hdictionary
      (.intro (.missing (hnone _ (by simp))))
  cases isConstant with
  | true => exact .constant hhead hconstant (hnone _ (by simp)) hlocation
  | false =>
      exact .general hhead (fun h => absurd (hconstant.symm.trans h) Bool.false_ne_true)
        (.intro (.missing (hnone _ (by simp)))) (.missing (hnone _ (by simp))) hdictionary hlocation

/-- A dictionary with one value. -/
theorem mayHaveClause_of_value {fits : Nat → Prop} {a o k e c : Lexeme} {v xs : List Lexeme}
    (ha : Grammar.IsAttributesWord a) (ho : o.kind = .lbrace) (hk : k.kind = .identifier)
    (he : e.kind = .equal) (hv : Grammar.ValueRun fits 0 (v ++ c :: xs) v (c :: xs))
    (hc : c.kind = .rbrace) :
    Grammar.MayHaveClause fits (a :: o :: k :: e :: (v ++ c :: xs))
      [(k.valueText, .ofLexemes v)] xs :=
  .present ha (.intro ho (.more (by rw [hk]; decide) (.intro (.valued hk he hv)
    (.done (by rw [hc]; decide))) (.done (by rw [hc]; decide))) hc)

/-- A dictionary with a text in quotes as its value. -/
theorem mayHaveClause_of_literal {fits : Nat → Prop} {a o k e s c : Lexeme} {xs : List Lexeme}
    (ha : Grammar.IsAttributesWord a) (ho : o.kind = .lbrace) (hk : k.kind = .identifier)
    (he : e.kind = .equal) (hs : s.kind = .stringLiteral) (hvalue : s.token.value = .text x)
    (hc : c.kind = .rbrace) :
    Grammar.MayHaveClause fits (a :: o :: k :: e :: s :: c :: xs) [(k.valueText, .str x)] xs := by
  have hstr : AttributeValue.ofLexemes [s] = .str x :=
    ofLexemes_of_decodedTo (by rw [hs, hvalue]; exact .string x)
  have hrun : Grammar.ValueRun fits 0 (s :: c :: xs) [s] (c :: xs) :=
    .inner (by rw [hs]; decide) (by rw [hs]; decide) (by rw [hs]; decide) (by rw [hs]; decide)
      (.stop (Or.inr hc))
  rw [← hstr]
  exact @mayHaveClause_of_value fits a o k e c [s] xs ha ho hk he hrun hc

/-- A function with nothing but a name. -/
theorem isFunction_of_symbol {fits : Nat → Prop} {f g l r z : Lexeme} {ys : List Lexeme}
    (hf : f.kind = .keyword) (hg : g.kind = .symbolRefId)
    (hvalue : g.token.value = .text ("@" ++ x)) (hl : l.kind = .lparen) (hr : r.kind = .rparen)
    (hz : z.kind = .stringLiteral) :
    Grammar.IsFunction fits (f :: g :: l :: r :: z :: ys)
      { Function.named x with hasBody := false } (z :: ys) := by
  have hclause : Grammar.MayHaveClause fits (z :: ys) [] (z :: ys) :=
    .missing fun h => by rw [h.1] at hz; cases hz
  have hnone : ∀ k ≠ TokenKind.stringLiteral, z.kind ≠ k := fun k hk h => hk (h.symm.trans hz)
  have hfunction := Grammar.IsFunction.intro hf
    (.missing fun h => by rw [h.1] at hg; cases hg) hg (.intro hl (.empty hr) hr) hclause
    (.missing (hnone _ (by decide))) hclause (.missing (hnone _ (by decide)))
  rw [Lexeme.valueText, hvalue] at hfunction
  show Grammar.IsFunction fits _ ⟨x, _, _, _, _, _, _⟩ _
  rw [← dropSigil_sigil x]
  exact hfunction

/-- The items of the module, up to the brace that closes it. -/
theorem exists_items_quotedChunks (fits : Nat → Prop) (body : List Char) (x : String)
    (p : Place) :
    ∃ q, Grammar.Until [.rbrace, .eof] (Grammar.IsItem fits)
      (lexemesFrom [] p (functionChunks body x ++ (nameChunks body x ++
        (callChunks body x ++ [.ofText "" "\x7d" .rbrace]))))
      [.function { Function.named x with hasBody := false },
        .operation { Operation.named x with isConstant := Parse.isConstantName x },
        .operation { Operation.named "call" with callee := some ("@" ++ x) }]
      (lexemesFrom [] q [.ofText "" "\x7d" .rbrace]) := by
  -- each item, wherever it stands, and whatever of its kind is behind it
  have hfunction : ∀ p cs, ∃ q, Grammar.IsItem fits
      (lexemesFrom [] p (functionChunks body x ++ (nameChunks body x ++ cs)))
      (.function { Function.named x with hasBody := false })
      (lexemesFrom [] q (nameChunks body x ++ cs)) :=
    fun p cs => ⟨_, .function rfl (isFunction_of_symbol rfl rfl rfl rfl rfl rfl)⟩
  have hname : ∀ p cs, ∃ q, Grammar.IsItem fits
      (lexemesFrom [] p (nameChunks body x ++ (callChunks body x ++ cs)))
      (.operation { Operation.named x with isConstant := Parse.isConstantName x })
      (lexemesFrom [] q (callChunks body x ++ cs)) := fun p cs =>
    ⟨_, .operation (by nofun) (isOperation_of_name (by nofun) (by nofun) (.quoted rfl)
      (.missing (by nofun)) rfl rfl (Or.inl rfl) rfl)⟩
  have hcall : ∀ p, ∃ q, Grammar.IsItem fits
      (lexemesFrom [] p (callChunks body x ++ [.ofText "" "\x7d" .rbrace]))
      (.operation { Operation.named "call" with callee := some ("@" ++ x) })
      (lexemesFrom [] q [.ofText "" "\x7d" .rbrace]) := fun p =>
    ⟨_, .operation (by nofun) (isOperation_of_name (by nofun) (by nofun) (.one rfl (by nofun))
      (.present rfl (.intro rfl)) rfl rfl (Or.inr rfl) (by decide))⟩
  -- one item behind the other
  obtain ⟨q₁, hfirst⟩ := hfunction p (callChunks body x ++ [.ofText "" "\x7d" .rbrace])
  obtain ⟨q₂, hsecond⟩ := hname q₁ [.ofText "" "\x7d" .rbrace]
  obtain ⟨q₃, hthird⟩ := hcall q₂
  exact ⟨q₃, .more (by nofun) hfirst (.more (by nofun) hsecond (.more (by nofun) hthird
    (.done (show TokenKind.rbrace ∈ [TokenKind.rbrace, .eof] from List.mem_cons_self))))⟩

/-- The tokens are those of the module. -/
theorem isModule_quotedChunks (fits : Nat → Prop) (body : List Char) (x : String) :
    Grammar.IsModule fits (lexemesFrom [] .start (quotedChunks body x)) (namedModule x) := by
  have hsymbol : ∀ p cs, ∃ q, Grammar.Optionally (·.kind = .symbolRefId)
      (Grammar.IsText .symbolRefId) (lexemesFrom [] p (.ofSymbol [' '] body x :: cs))
      (some ("@" ++ x)) (lexemesFrom [] q cs) :=
    fun p cs => ⟨_, .present rfl (.intro rfl)⟩
  have hclause : ∀ p cs, ∃ q, Grammar.MayHaveClause fits
      (lexemesFrom [] p (clauseChunks body x ++ cs)) [("k", .str x)] (lexemesFrom [] q cs) :=
    fun p cs => ⟨_, mayHaveClause_of_literal ⟨rfl, rfl⟩ rfl rfl rfl rfl rfl rfl⟩
  obtain ⟨q₁, hname⟩ := hsymbol ((Chunk.ofText "" "module" .keyword).after .start) _
  obtain ⟨q₂, hentries⟩ := hclause q₁ (.ofText " " "\x7b" .lbrace :: (functionChunks body x ++
    (nameChunks body x ++ (callChunks body x ++ [.ofText "" "\x7d" .rbrace]))))
  obtain ⟨q₃, hitems⟩ := exists_items_quotedChunks fits body x
    ((Chunk.ofText " " "\x7b" .lbrace).after q₂)
  have hmodule := Grammar.IsModuleText.intro
    (x := (Chunk.ofText "" "module" .keyword).lexeme .start) rfl rfl hname hentries rfl hitems
    rfl
  rw [Option.map_some, dropSigil_sigil] at hmodule
  exact .intro hmodule rfl

/-- A source with a text that is written in one of its ways in all these places. -/
theorem Graph.parse_quotedModule (h : Writes body x.toList) {text : String}
    (htext : text.toList = inQuotes body) :
    Graph.parse limits (quotedModule text) = .ok (namedModule x) := by
  have hreads := @Lexer.reads_lexemesFrom limits [] rfl .start _
    (@readsBack_quotedChunks limits body x h)
  rw [spell_quotedChunks htext] at hreads
  exact (Graph.parse_iff_isModule hreads (fun _ _ => Iff.rfl) _).mpr
    (isModule_quotedChunks _ body x)

end Source

/-! ## What is written in quotes is read back -/

/-- A text that is written between quotes in one of its ways arrives, whatever follows it, wherever
the parser stands, and in a whole source.  Where a lexer comes to a quote, the token ends behind
the first quote that no backslash takes with it, and is a fault exactly where there is none. -/
theorem quoted_text_arrives (limits : Limits) {body : List Char} {x : String}
    (h : Writes body x.toList) :
    Arrives body x ∧
      Graph.parse limits (quotedModule (String.ofList (inQuotes body))) = .ok (namedModule x) ∧
      ∀ (l : Lexer) (behind : List Char), (l.skip (gap l.rest)).rest = '"' :: behind →
        ClosesAtFirstQuote l behind :=
  ⟨h.arrives, Graph.parse_quotedModule h String.toList_ofList, next_of_quote⟩

/-- A text that starts with a sigil and has a quote and a line feed in it, each written with a
backslash. -/
theorem quoted_text_arrives_sigil :
    Writes ['@', '\\', '"', '\\', 'n'] "@\"\n".toList ∧
      Arrives ['@', '\\', '"', '\\', 'n'] "@\"\n" ∧
      Graph.parse .standard (quotedModule "\"@\\\"\\n\"") = .ok (namedModule "@\"\n") := by
  have h : Writes ['@', '\\', '"', '\\', 'n'] "@\"\n".toList :=
    .cons (.plain (by decide) (by decide)) (.cons (.marked (by decide)) (.cons .lineFeed .nil))
  obtain ⟨harrives, hparse, _⟩ := quoted_text_arrives .standard h
  exact ⟨h, harrives, hparse⟩

end GenericIR
