/-
# The parts of a generic form

Each part of a generic form is a piece of text for its phrase of the grammar: ids, operands,
attributes and types, every list of them with commas between its items.

* `exists_piece_operands`, `exists_piece_attributes`, `exists_piece_types` : the parts in
  brackets;
* `writable_operation` : the whole line is an operation of the grammar.
-/
import GenericIR.Proofs.Generic.Piece
import GenericIR.Proofs.Generic.Token

namespace GenericIR

variable {limits : Limits} {fits : Nat → Prop}

/-! ## Ids -/

/-- An id that an operation defines. -/
theorem writable_output {id : String} (h : IsValueId id) :
    Writable limits Grammar.IsOutput (· = .valueId) (fun k => k = .comma ∨ k = .equal)
      id.toList id := by
  refine writable_token (scanToken_of_isValueId h) fun _ _ _ y ys hy => ?_
  exact .single rfl (by rcases hy with h | h <;> rw [h] <;> decide)

/-- An operand. -/
theorem writable_input {id : String} (h : IsValueId id) :
    Writable limits (Grammar.IsText .valueId) (· = .valueId) (fun k => k = .comma ∨ k = .rparen)
      id.toList id :=
  writable_token (scanToken_of_isValueId h) fun _ _ _ _ _ _ => .intro rfl

/-- A name as a string literal. -/
theorem scanToken_name (name : String) :
    ∃ d u, quotedText name = d :: u ∧ ¬ isBlank d ∧ d ≠ '/' ∧
      scanToken limits d u = ⟨quotedText name, .ok (.stringLiteral, .text name)⟩ :=
  ⟨'"', _, rfl, by decide, by decide, scanToken_quotedText name []⟩

/-- An equals sign behind a space. -/
theorem exists_piece_equal : ∃ cs, Piece limits (IsMark '=') (fun _ => True) " =".toList () cs ∧
    ∀ ds, headKind (cs ++ ds) = .equal := by
  have hequal : Writable limits (IsMark '=') (· = .equal) (fun _ => True) ['='] () :=
    writable_isToken ⟨'=', [], rfl, by decide, by decide, rfl⟩
  exact hequal [' '] (.blank (by decide) .nil)

/-- The ids that are defined, where there are any. -/
theorem writable_outputs {ids : List String} (hne : ids ≠ [])
    (hids : ∀ id ∈ ids, IsValueId id) :
    Writable limits Grammar.AreOutputs (· = .valueId) (· = .equal)
      (listText (ids.map String.toList)) ids := by
  -- the ids are a bare list, and the first of them says so
  let L : Phrase (List String) := fun xs as ys =>
    ∃ x rest, xs = x :: rest ∧ x.kind = .valueId ∧ Grammar.Bare Grammar.IsOutput xs as ys
  have hlist : Writable limits L (· = .valueId) (· = .equal) (listText (ids.map String.toList))
      (ids.map id) := by
    refine writable_listText ?_ ?_ _ _ hne fun id hid => writable_output (hids id hid)
    · intro x xs a y ys hx h hy
      exact ⟨x, xs, rfl, hx, .intro h (.done (by rw [hy]; nofun))⟩
    · rintro x xs a y z zs as ws hx h hy _ ⟨_, _, _, _, h', hrest⟩
      exact ⟨x, xs, rfl, hx, .intro h (.more hy h' hrest)⟩
  rw [List.map_id] at hlist
  refine hlist.map (fun _ h => h) ?_
  rintro _ y ys ⟨x, rest, rfl, hx, h⟩ _
  exact .bare hx h

/-- The ids that are defined, with the name behind them. -/
theorem writable_definitions (op : GenericForm limits) :
    Writable limits (Grammar.AreDefinitions.andThen Grammar.IsName)
      (fun k => k = .valueId ∨ k = .stringLiteral) (fun _ => True)
      (op.definitionsText ++ quotedText op.name) (op.outputs, op.name) := by
  intro g hg
  rw [GenericForm.definitionsText]
  by_cases hnil : op.outputs = []
  · rw [if_pos hnil, hnil]
    have hname : Writable limits (Grammar.AreDefinitions.andThen Grammar.IsName)
        (· = .stringLiteral) (fun _ => True) (quotedText op.name) ([], op.name) :=
      writable_token (scanToken_name op.name) fun _ _ _ _ _ _ =>
        ⟨_, Grammar.AreDefinitions.none (.none nofun nofun), Grammar.IsName.quoted rfl⟩
    obtain ⟨cs, hcs, hstarts⟩ := hname g hg
    exact ⟨cs, hcs, fun ds => Or.inr (hstarts ds)⟩
  · rw [if_neg hnil]
    obtain ⟨cs, hcs, hstarts⟩ := writable_outputs hnil op.isValueId_outputs g hg
    have hname : Writable limits Grammar.IsName (· = .stringLiteral) (fun _ => True)
        (quotedText op.name) op.name :=
      writable_token (scanToken_name op.name) fun _ _ _ _ _ _ => .quoted rfl
    obtain ⟨ds, hds, hequal⟩ := @exists_piece_equal limits
    obtain ⟨es, hes, _⟩ := hname [' '] (.blank (by decide) .nil)
    have hmark := hds.andThen hes (fun _ _ => .cons (by decide) _) fun _ _ => trivial
    have hall := hcs.andThen hmark (fun _ _ => .cons (by decide) _) fun rest _ => by
      rw [List.append_assoc]
      exact hequal _
    refine ⟨cs ++ (ds ++ es), .congr (hall.map (fun _ h => h) ?_) ?_, fun rest => ?_⟩
    · rintro xs y ys ⟨_, houtputs, _, ⟨x, rfl, hx, _⟩, hname⟩ _
      exact ⟨_, .some hnil houtputs hx, hname⟩
    · simp only [List.append_assoc]
      rfl
    · rw [List.append_assoc]
      exact Or.inl (hstarts _)

/-! ## Operands -/

/-- The operands in parentheses. -/
theorem exists_piece_operands {ids : List String} (hids : ∀ id ∈ ids, IsValueId id) :
    ∃ cs, Piece limits Grammar.AreOperands (fun _ => True)
      ('(' :: (listText (ids.map String.toList) ++ [')'])) ids cs ∧
      ∀ ds, headKind (cs ++ ds) = .lparen := by
  have hcons : ids ≠ [] → Writable limits Grammar.OperandRun (· = .valueId) (· = .rparen)
      (listText (ids.map String.toList)) (ids.map id) := by
    intro hne
    refine writable_listText ?_ ?_ _ _ hne fun id hid => writable_input (hids id hid)
    · rintro x xs a y ys _ ⟨hx⟩ hy
      exact .value hx (.done (by rw [hy]; decide))
    · rintro x xs a y z zs as ws _ ⟨hx⟩ hy _ h
      exact .value hx (.comma hy h)
  obtain ⟨cs, hcs⟩ :=
    exists_piece_listText _ _ _ (fun x xs hx => .done (by rw [hx]; decide)) hcons
  rw [List.map_id] at hcs
  have hall := hcs.enclosed (c := '(') (d := ')') .nil .nil (by decide) (by decide)
    fun _ => .cons (by decide) _
  refine ⟨_, hall.map (fun _ _ => trivial) ?_, fun _ => rfl⟩
  rintro _ z zs ⟨_, ⟨x, rfl, hx, _⟩, _, h, y, rfl, hy, _⟩ _
  exact .enclosed hx h hy

/-! ## Attributes -/

/-- A token whose kind is neither a bracket nor a comma is an attribute value by itself. -/
theorem valueRun_token {x y : Lexeme} {ys : List Lexeme} (hx : x.kind ∈
      [.booleanLiteral, .integerLiteral, .stringLiteral]) (hy : y.kind = .comma ∨ y.kind = .rbrace) :
    Grammar.ValueRun fits 0 (x :: y :: ys) [x] (y :: ys) := by
  have hkind : ¬ x.kind.isOpenBracket ∧ ¬ x.kind.isCloseBracket ∧ x.kind ≠ .comma ∧
      x.kind ≠ .eof := by
    revert hx
    cases x.kind <;> decide
  exact .inner hkind.1 hkind.2.1 (fun _ => hkind.2.2.1) hkind.2.2.2 (.stop hy)

/-- The value of an attribute as a literal. -/
theorem writable_literal {name : String} {value : PlainValue} {text : List Char}
    (h : value.literal? = some text) :
    Writable limits (fun xs a ys => ∃ v, Grammar.ValueRun fits 0 xs v ys ∧ a = .ofLexemes v)
      (fun _ => True) (fun k => k = .comma ∨ k = .rbrace) text (value.value name) := by
  have hwritable : ∀ {kind : TokenKind} {v : TokenValue},
      kind ∈ [.booleanLiteral, .integerLiteral, .stringLiteral] →
      (∃ d u, text = d :: u ∧ ¬ isBlank d ∧ d ≠ '/' ∧
        scanToken limits d u = ⟨text, .ok (kind, v)⟩) →
      (∀ gap text span, value.value name = .ofLexemes [⟨gap, text, ⟨kind, v, span⟩⟩]) →
      Writable limits (fun xs a ys => ∃ v, Grammar.ValueRun fits 0 xs v ys ∧ a = .ofLexemes v)
        (fun _ => True) (fun k => k = .comma ∨ k = .rbrace) text (value.value name) := by
    intro kind v hkind hscan hvalue g hg
    have htoken : Writable limits
        (fun xs a ys => ∃ v, Grammar.ValueRun fits 0 xs v ys ∧ a = .ofLexemes v)
        (· = kind) (fun k => k = .comma ∨ k = .rbrace) text (value.value name) :=
      writable_token hscan fun _ _ _ y ys hy => ⟨_, valueRun_token hkind hy, hvalue _ _ _⟩
    obtain ⟨cs, hcs, _⟩ := htoken g hg
    exact ⟨cs, hcs, fun _ => trivial⟩
  cases value with
  | bool b =>
      cases b with
      | false =>
          cases h
          exact hwritable (by decide) ⟨'f', "alse".toList, rfl, by decide, by decide, rfl⟩
            fun _ _ _ => rfl
      | true =>
          cases h
          exact hwritable (by decide) ⟨'t', "rue".toList, rfl, by decide, by decide, rfl⟩
            fun _ _ _ => rfl
  | integer n =>
      cases h
      exact hwritable (by decide) (scanToken_integerText n) fun _ _ _ => rfl
  | str s =>
      cases h
      exact hwritable (by decide) (scanToken_name s) fun _ _ _ => rfl
  | unit => cases h

/-- A name with its value, or alone. -/
theorem writable_entry {entry : String × PlainValue}
    (hname : LexesAs limits .identifier entry.1) :
    Writable limits (Grammar.IsEntry fits) (· = .identifier)
      (fun k => k = .comma ∨ k = .rbrace) (entryText entry)
      (entry.1, entry.2.value entry.1) := by
  obtain ⟨name, value⟩ := entry
  have hscan := scanToken_of_lexesAs hname (Or.inl rfl)
  cases hliteral : value.literal? with
  | none =>
      have hunit : value = .unit := by
        cases value with
        | unit => rfl
        | bool b => cases hliteral
        | integer n => cases hliteral
        | str s => cases hliteral
      subst hunit
      have htext : entryText (name, PlainValue.unit) = name.toList := List.append_nil _
      rw [htext]
      refine writable_token hscan fun _ _ _ y ys hy => .unit rfl ?_
      rcases hy with hy | hy <;> rw [hy] <;> decide
  | some text =>
      intro g hg
      have hkey : Writable limits (Grammar.IsText .identifier) (· = .identifier) (fun _ => True)
          name.toList name := writable_token hscan fun _ _ _ _ _ _ => .intro rfl
      obtain ⟨cs, hcs, hstarts⟩ := hkey g hg
      obtain ⟨ds, hds, _⟩ := @exists_piece_equal limits
      obtain ⟨es, hes, _⟩ := @writable_literal limits fits name _ _ hliteral [' ']
        (.blank (by decide) .nil)
      have hall := hcs.andThen (hds.andThen hes (fun _ _ => .cons (by decide) _)
        fun _ _ => trivial) (fun _ _ => .cons (by decide) _) fun _ _ => trivial
      refine ⟨cs ++ (ds ++ es), .congr (hall.map (fun _ h => h) ?_) ?_, fun rest => ?_⟩
      · rintro xs z zs ⟨_, htext, _, ⟨y, rfl, hy, _⟩, v, hv, hvalue⟩ _
        obtain ⟨hx⟩ := htext
        have hentry := Grammar.IsEntry.valued hx hy hv
        rw [← hvalue] at hentry
        exact hentry
      · simp only [entryText, hliteral, List.append_assoc]
        rfl
      · rw [List.append_assoc]
        exact hstarts _

/-- The entries of a dictionary. -/
theorem writable_entries {entries : List (String × PlainValue)} (hne : entries ≠ [])
    (hnames : ∀ entry ∈ entries, LexesAs limits .identifier entry.1) :
    Writable limits (Grammar.Until [.rbrace] (Grammar.IsSeparatedEntry fits)) (· = .identifier)
      (· = .rbrace) (listText (entries.map entryText))
      (entries.map fun entry => (entry.1, entry.2.value entry.1)) := by
  have hitem : ∀ {x : Lexeme}, x.kind = .identifier → x.kind ∉ [TokenKind.rbrace] := by
    intro x hx
    rw [hx]
    decide
  have hitems : ∀ entry ∈ entries, Writable limits (Grammar.IsEntry fits) (· = .identifier)
      (fun k => k = .comma ∨ k = .rbrace) (entryText entry)
      (entry.1, entry.2.value entry.1) :=
    fun entry hentry => writable_entry (hnames entry hentry)
  refine writable_listText ?_ ?_ _ _ hne hitems
  · intro x xs a y ys hx h hy
    refine .more (hitem hx) (.intro h (.done (by rw [hy]; nofun))) (.done ?_)
    rw [hy]
    exact List.mem_singleton.mpr rfl
  · intro x xs a y z zs as ws hx h hy hz hrest
    exact .more (hitem hx) (.intro h (.more hy (.done (by rw [hz]; nofun)))) hrest

/-- The attributes in braces, if there are any, before the colon of the types. -/
theorem exists_piece_attributes (op : GenericForm limits) :
    ∃ cs, Piece limits (Grammar.MayHaveDictionary fits) (· = .colon) op.attributesText op.values cs ∧
      ∀ ds, headKind ds = .colon → headKind (cs ++ ds) = .lbrace ∨ headKind (cs ++ ds) = .colon := by
  rw [GenericForm.attributesText, GenericForm.values]
  by_cases hnil : op.entries = []
  · rw [if_pos hnil, hnil]
    refine ⟨[], .nil fun x xs hx => ?_, fun ds hds => Or.inr hds⟩
    exact .intro (.missing (by rw [hx]; decide))
  · rw [if_neg hnil]
    obtain ⟨cs, hcs, _⟩ := @writable_entries limits fits _ hnil op.lexesAs_entries [] .nil
    have hall := hcs.enclosed (c := '\x7b') (d := '\x7d') (.blank (c := ' ') (by decide) .nil)
      .nil (by decide) (by decide) fun _ => .cons (by decide) _
    refine ⟨_, hall.map (fun _ _ => trivial) ?_, fun _ _ => Or.inl rfl⟩
    rintro _ z zs ⟨_, ⟨x, rfl, hx, _⟩, _, h, y, rfl, hy, _⟩ _
    exact .intro (.present hx (.intro hx h hy))

/-! ## Types -/

/-- A type of one token, with or without a mark in front of it. -/
theorem writable_type {type : String} (h : IsTypeText limits type) :
    Writable limits Grammar.IsType (· ≠ .rparen) (fun _ => True) type.toList type := by
  obtain ⟨token, htoken, htype⟩ := h
  have hscan : ∃ kind, (kind = .type ∨ kind = .identifier) ∧ ∃ d u, token.toList = d :: u ∧
      ¬ isBlank d ∧ d ≠ '/' ∧ scanToken limits d u = ⟨token.toList, .ok (kind, .text token)⟩ := by
    rcases htoken with h | h
    · exact ⟨.type, Or.inl rfl, scanToken_of_lexesAs h (Or.inr rfl)⟩
    · exact ⟨.identifier, Or.inr rfl, scanToken_of_lexesAs h (Or.inl rfl)⟩
  obtain ⟨kind, hkind, hscan⟩ := hscan
  intro g hg
  rcases htype with rfl | rfl
  · have hplain : Writable limits Grammar.IsType (· = kind) (fun _ => True) type.toList type :=
      writable_token hscan fun _ _ _ _ _ _ => .plain hkind
    obtain ⟨cs, hcs, hstarts⟩ := hplain g hg
    refine ⟨cs, hcs, fun ds => ?_⟩
    rw [hstarts ds]
    rcases hkind with rfl | rfl <;> nofun
  · have hstands : Chunk.Stands limits ⟨[], token.toList, (kind, .text token)⟩ := ⟨.nil, hscan⟩
    -- the token touches the mark, for the gap before it is empty
    have htouch : Piece limits (fun xs (_ : Unit) ys => ∃ x, xs = x :: ys ∧
        (x.kind = .type ∨ x.kind = .identifier) ∧ x.gap = "" ∧ x.valueText = token)
        (fun _ => True) ([] ++ token.toList) () [⟨[], token.toList, (kind, .text token)⟩] :=
      .token hstands fun _ _ _ _ => ⟨_, rfl, hkind, rfl, rfl⟩
    have hmark := htouch.mark (c := '!') hg (by decide)
    refine ⟨_, .congr (hmark.map (fun _ h => h) ?_) ?_, fun _ => nofun⟩
    · rintro _ y ys ⟨_, ⟨bang, rfl, hbang, hvalue⟩, x, rfl, hx, hgap, rfl⟩ _
      have htext : bang.token.hasText "!" := by
        rw [Token.hasText, hvalue]
        rfl
      exact .dialect hbang htext hx hgap
    · rw [String.toList_append]
      rfl

/-- Types in parentheses. -/
theorem exists_piece_types {types : List String} (h : ∀ type ∈ types, IsTypeText limits type)
    {g : List Char} (hg : Layout g) :
    ∃ cs, Piece limits Grammar.IsTypeList (fun _ => True) (g ++ GenericForm.typesText types)
      types cs := by
  have hcons : types ≠ [] → Writable limits (Grammar.Closed .rparen Grammar.IsType) (· ≠ .rparen)
      (· = .rparen) (listText (types.map String.toList)) (types.map id) := by
    intro hne
    have hitems : ∀ type ∈ types, Writable limits Grammar.IsType (· ≠ .rparen)
        (fun k => k = .comma ∨ k = .rparen) type.toList (id type) :=
      fun type htype => (writable_type (h type htype)).map (fun _ _ => trivial) fun _ _ _ h _ => h
    refine writable_listText ?_ ?_ _ _ hne hitems
    · intro x xs a y ys hx h hy
      exact .last hx h (by rw [hy]; nofun)
    · intro x xs a y z zs as ws hx h hy _ hrest
      exact .more hx h hy hrest
  obtain ⟨cs, hcs⟩ := exists_piece_listText _ _ _ (fun x xs hx => .empty hx) hcons
  rw [List.map_id] at hcs
  have hall := hcs.enclosed (c := '(') (d := ')') hg .nil (by decide) (by decide)
    fun _ => .cons (by decide) _
  refine ⟨_, hall.map (fun _ _ => trivial) ?_⟩
  rintro _ z zs ⟨_, ⟨x, rfl, hx, _⟩, _, h, y, rfl, hy, _⟩ _
  exact .enclosed (.intro hx h hy)

/-- Types in parentheses behind a colon or an arrow. -/
theorem exists_piece_typesAfter {kind : TokenKind} (mark : List Char) {types : List String}
    (hmark : ∃ d u, mark = d :: u ∧ ¬ isBlank d ∧ d ≠ '/' ∧
      scanToken limits d u = ⟨mark, .ok (kind, .text (String.ofList mark))⟩)
    (h : ∀ type ∈ types, IsTypeText limits type) :
    ∃ cs, Piece limits (Grammar.After kind Grammar.IsTypeList) (fun _ => True)
      (' ' :: (mark ++ ' ' :: GenericForm.typesText types)) types cs ∧
      ∀ ds, headKind (cs ++ ds) = kind := by
  obtain ⟨cs, hcs, hstarts⟩ := writable_isToken hmark [' '] (.blank (by decide) .nil)
  obtain ⟨ds, hds⟩ := exists_piece_types h (.blank (c := ' ') (by decide) .nil)
  have hall := hcs.andThen hds (fun _ _ => .cons (by decide) _) fun _ _ => trivial
  refine ⟨cs ++ ds, .congr (hall.map (fun _ h => h) ?_) ?_, fun rest => ?_⟩
  · rintro xs z zs ⟨_, ⟨x, rfl, hx, _⟩, h⟩ _
    exact .intro hx h
  · simp only [List.append_assoc]
    rfl
  · rw [List.append_assoc]
    exact hstarts _

/-! ## The whole line -/

/-- A new name goes behind all entries. -/
theorem setEntry_of_not_mem {α : Type} {name : String} (value : α) {entries : List (String × α)}
    (h : name ∉ entries.map Prod.fst) : setEntry name value entries = entries ++ [(name, value)] := by
  induction entries with
  | nil => rfl
  | cons entry entries ih =>
      rw [List.map_cons, List.mem_cons, not_or] at h
      rw [setEntry, if_neg fun heq => h.1 heq.symm, ih h.2, List.cons_append]

/-- Entries with names that are new and distinct are set behind those that are there. -/
theorem entries_insertAll {as : Attributes} {entries : List (String × AttributeValue)}
    (h : ((as.entries ++ entries).map Prod.fst).Nodup) :
    (as.insertAll entries).entries = as.entries ++ entries := by
  induction entries generalizing as with
  | nil => exact (List.append_nil _).symm
  | cons entry entries ih =>
      have hnew : entry.1 ∉ as.entries.map Prod.fst := by
        intro hmem
        rw [List.map_append, List.nodup_append] at h
        exact h.2.2 _ hmem _ List.mem_cons_self rfl
      have hset : (as.insert entry.1 entry.2).entries = as.entries ++ [entry] :=
        setEntry_of_not_mem entry.2 hnew
      show ((as.insert entry.1 entry.2).insertAll entries).entries = _
      rw [ih, hset, List.append_assoc, List.singleton_append]
      rwa [hset, List.append_assoc, List.singleton_append]

/-- Setting entries with distinct names gives exactly these entries. -/
theorem insertAll_of_nodup {entries : List (String × AttributeValue)}
    (h : (entries.map Prod.fst).Nodup) : Attributes.empty.insertAll entries = ⟨entries, h⟩ := by
  have hentries : (Attributes.empty.insertAll entries).entries = entries := entries_insertAll h
  generalize Attributes.empty.insertAll entries = as at hentries
  obtain ⟨_, _⟩ := as
  obtain rfl := hentries
  rfl

/-- The braces of attributes go on with no token. -/
theorem stops_attributesText (op : GenericForm limits) {rest : List Char} (h : Stops rest) :
    Stops (op.attributesText ++ rest) := by
  rw [GenericForm.attributesText]
  split
  · exact h
  · exact .cons (by decide) _

/-- The line of an operation. -/
theorem writable_operation (op : GenericForm limits) :
    Writable limits (Grammar.IsOperation fits) (fun k => k = .valueId ∨ k = .stringLiteral)
      (fun k => k ≠ .lbrace ∧ k ≠ .keyword) op.text op.operation := by
  intro g hg
  -- the parts that are written
  obtain ⟨cs₁, hdefinitions, hstarts⟩ := writable_definitions op g hg
  obtain ⟨cs₂, hinputs, hlparen⟩ := @exists_piece_operands limits _ op.isValueId_inputs
  obtain ⟨cs₃, hentries, hlbrace⟩ := @exists_piece_attributes limits fits op
  obtain ⟨cs₄, hcolon, hcolons⟩ := exists_piece_typesAfter [':']
    ⟨':', [], rfl, by decide, by decide, rfl⟩ op.isTypeText_inputTypes
  obtain ⟨cs₅, harrow, _⟩ := exists_piece_typesAfter ['-', '>']
    ⟨'-', ['>'], rfl, by decide, by decide, rfl⟩ op.isTypeText_outputTypes
  -- the parts that are missing
  have hcallee : Piece limits (Grammar.Optionally (·.kind = .symbolRefId)
      (Grammar.IsText .symbolRefId)) (· = .lparen) [] none [] :=
    .nil fun x xs hx => .missing (by rw [hx]; nofun)
  have hregions : Piece limits (Grammar.Optionally (·.kind = .lparen)
      (Grammar.IsCaptured fits .lparen .rparen)) (fun k => k = .lbrace ∨ k = .colon) [] none [] :=
    .nil fun x xs hx => .missing (by rcases hx with hx | hx <;> rw [hx] <;> nofun)
  have hblock : Piece limits (Grammar.IsBlock fits) (· ≠ .lbrace) [] ([], none) [] :=
    .nil fun x xs hx => .missing hx
  have hlate : Piece limits (Grammar.MayHaveDictionary fits) (· ≠ .lbrace) [] [] [] :=
    .nil fun x xs hx => .intro (.missing hx)
  have hlocation : Piece limits (Grammar.Optionally Grammar.IsLocWord (Grammar.IsLocation fits))
      (fun k => k ≠ .lbrace ∧ k ≠ .keyword) [] none [] :=
    .nil fun x xs hx => .missing fun hword => hx.2 hword.1
  -- all of them, from the last to the first
  have hcolonNext : ∀ es, headKind (cs₄ ++ (cs₅ ++ ([] ++ ([] ++ []))) ++ es) = .colon := by
    intro es
    rw [List.append_assoc]
    exact hcolons _
  have hstops : ∀ rest, Stops (op.attributesText ++ ((' ' :: ([':'] ++
      ' ' :: GenericForm.typesText op.inputTypes)) ++ rest)) :=
    fun rest => stops_attributesText op (.cons (by decide) _)
  have h₈ := hlate.andThen hlocation (fun _ h => h) fun _ h => h.1
  have h₇ := hblock.andThen h₈ (fun _ h => h) fun _ h => h.1
  have h₆ := harrow.andThen h₇ (fun _ h => h) fun _ _ => trivial
  have h₅ := hcolon.andThen h₆ (fun _ _ => .cons (by decide) _) fun _ _ => trivial
  have h₄ := hentries.andThen h₅ (fun _ _ => .cons (by decide) _) fun es _ => hcolonNext es
  have h₃ := hregions.andThen h₄ (fun rest _ => by
    rw [List.append_assoc, List.append_assoc]
    exact hstops _) fun es _ => by
      rw [List.append_assoc]
      exact hlbrace _ (hcolonNext es)
  have h₂ := hinputs.andThen h₃ (fun rest _ => by
    rw [List.nil_append, List.append_assoc, List.append_assoc]
    exact hstops _) fun _ _ => trivial
  have h₁ := hcallee.andThen h₂ (fun _ _ => .cons (by decide) _) fun es _ => by
    rw [List.append_assoc]
    exact hlparen _
  have hall := hdefinitions.andThen h₁ (fun _ _ => .cons (by decide) _) fun _ _ => trivial
  refine ⟨_, .congr (hall.map (fun _ h => h) ?_) ?_, fun rest => ?_⟩
  · rintro xs y ys ⟨_, ⟨_, houtputs, hname⟩, _, hcallee, _, hinputs, _, hregions, _, hentries, _,
      hcolon, _, ⟨hx, harrow⟩, _, hblock, _, hlate, hlocation⟩ _
    obtain ⟨hc, htypes⟩ := hcolon
    have hhead := Grammar.IsHead.intro houtputs hname hcallee hinputs hregions hentries
      (.intro (.present hc (.intro hc htypes)))
    have hop := Grammar.IsOperation.general hhead (fun _ => hx)
      (.intro (.present hx (.intro hx harrow))) hblock hlate hlocation
    rw [GenericForm.operation, ← insertAll_of_nodup]
    exact hop
  · simp only [GenericForm.text, List.append_assoc, List.cons_append, List.nil_append,
      List.append_nil]
    rfl
  · rw [List.append_assoc]
    exact hstarts _

end GenericIR
