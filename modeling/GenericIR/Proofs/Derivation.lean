/-
# Derivations

The grammar as a relation on runs of lexemes, with no parser in it.  A phrase says which
lexemes at the front of a run are read, as which value, and which lexemes they leave; the
first lexeme left is the lookahead behind the phrase.  A part that may be missing is there
exactly when the lookahead can start it.

The depths of brackets that are accepted in attribute values and captures are a parameter
`fits`, so that the grammar can be read with a bound or without one.

* `Grammar.IsOperation`, `Grammar.IsFunction` : one operation, one function;
* `Grammar.IsModule` : a whole run of lexemes as a graph.
-/
import GenericIR.Grammar.Module
import GenericIR.Proofs.Reading

namespace GenericIR

/-- Lexemes at the front of a run, their value, and the lexemes behind them. -/
abbrev Phrase (α : Type) : Type := List Lexeme → α → List Lexeme → Prop

namespace Grammar

variable {α : Type}

/-! ## Parts and lists -/

/-- A part that is there exactly when the lookahead can start it. -/
inductive Optionally (starts : Lexeme → Prop) (part : Phrase α) : Phrase (Option α) where
  | present {x : Lexeme} {xs ys : List Lexeme} {a : α} (hx : starts x)
      (h : part (x :: xs) a ys) : Optionally starts part (x :: xs) (some a) ys
  | missing {x : Lexeme} {xs : List Lexeme} (hx : ¬ starts x) :
      Optionally starts part (x :: xs) none (x :: xs)

/-- A part behind a lexeme of a kind. -/
inductive After (kind : TokenKind) (part : Phrase α) : Phrase α where
  | intro {x : Lexeme} {xs ys : List Lexeme} {a : α} (hx : x.kind = kind)
      (h : part xs a ys) : After kind part (x :: xs) a ys

/-- Items up to a lookahead of some kinds. -/
inductive Until (stops : List TokenKind) (item : Phrase α) : Phrase (List α) where
  | done {x : Lexeme} {xs : List Lexeme} (hx : x.kind ∈ stops) :
      Until stops item (x :: xs) [] (x :: xs)
  | more {x : Lexeme} {xs ys zs : List Lexeme} {a : α} {as : List α} (hx : x.kind ∉ stops)
      (h : item (x :: xs) a ys) (hrest : Until stops item ys as zs) :
      Until stops item (x :: xs) (a :: as) zs

/-- Items with commas between them up to a closing bracket, which may follow a comma. -/
inductive Closed (close : TokenKind) (item : Phrase α) : Phrase (List α) where
  | empty {x : Lexeme} {xs : List Lexeme} (hx : x.kind = close) :
      Closed close item (x :: xs) [] (x :: xs)
  | last {x y : Lexeme} {xs ys : List Lexeme} {a : α} (hx : x.kind ≠ close)
      (h : item (x :: xs) a (y :: ys)) (hy : y.kind ≠ .comma) :
      Closed close item (x :: xs) [a] (y :: ys)
  | more {x y : Lexeme} {xs ys zs : List Lexeme} {a : α} {as : List α} (hx : x.kind ≠ close)
      (h : item (x :: xs) a (y :: ys)) (hy : y.kind = .comma)
      (hrest : Closed close item ys as zs) : Closed close item (x :: xs) (a :: as) zs

/-- Items in parentheses. -/
inductive Enclosed (item : Phrase α) : Phrase (List α) where
  | intro {x y : Lexeme} {xs ys : List Lexeme} {as : List α} (hx : x.kind = .lparen)
      (h : Closed .rparen item xs as (y :: ys)) (hy : y.kind = .rparen) :
      Enclosed item (x :: xs) as ys

/-- Items with a comma before each of them. -/
inductive Further (item : Phrase α) : Phrase (List α) where
  | done {x : Lexeme} {xs : List Lexeme} (hx : x.kind ≠ .comma) :
      Further item (x :: xs) [] (x :: xs)
  | more {x : Lexeme} {xs ys zs : List Lexeme} {a : α} {as : List α} (hx : x.kind = .comma)
      (h : item xs a ys) (hrest : Further item ys as zs) : Further item (x :: xs) (a :: as) zs

/-- One item, and more after commas. -/
inductive Bare (item : Phrase α) : Phrase (List α) where
  | intro {xs ys zs : List Lexeme} {a : α} {as : List α} (h : item xs a ys)
      (hrest : Further item ys as zs) : Bare item xs (a :: as) zs

/-- Any number of commas. -/
inductive Commas : List Lexeme → List Lexeme → Prop where
  | done {x : Lexeme} {xs : List Lexeme} (hx : x.kind ≠ .comma) : Commas (x :: xs) (x :: xs)
  | more {x : Lexeme} {xs ys : List Lexeme} (hx : x.kind = .comma) (hrest : Commas xs ys) :
      Commas (x :: xs) ys

/-! ## Types -/

/-- A type: one lexeme, or two where the first is a `!` that touches the second. -/
inductive IsType : Phrase String where
  | plain {x : Lexeme} {xs : List Lexeme} (hx : x.kind = .type ∨ x.kind = .identifier) :
      IsType (x :: xs) x.valueText xs
  | dialect {bang x : Lexeme} {xs : List Lexeme} (hbang : bang.kind = .keyword)
      (htext : bang.token.hasText "!") (hx : x.kind = .type ∨ x.kind = .identifier)
      (hgap : x.gap = "") : IsType (bang :: x :: xs) ("!" ++ x.valueText) xs

/-- Types in parentheses, or bare. -/
inductive IsTypeList : Phrase (List String) where
  | enclosed {xs ys : List Lexeme} {types : List String} (h : Enclosed IsType xs types ys) :
      IsTypeList xs types ys
  | bare {x : Lexeme} {xs ys : List Lexeme} {types : List String} (hx : x.kind ≠ .lparen)
      (h : Bare IsType (x :: xs) types ys) : IsTypeList (x :: xs) types ys

/-! ## Attributes -/

section Brackets

variable (fits : Nat → Prop)

/-- The lexemes of an attribute value from a depth of open brackets on, up to the first comma
or closing brace outside of all brackets. -/
inductive ValueRun : Nat → Phrase (List Lexeme) where
  | stop {x : Lexeme} {xs : List Lexeme} (hx : x.kind = .comma ∨ x.kind = .rbrace) :
      ValueRun 0 (x :: xs) [] (x :: xs)
  | opening {x : Lexeme} {xs v ys : List Lexeme} {depth : Nat} (hx : x.kind.isOpenBracket)
      (hfits : fits (depth + 1)) (h : ValueRun (depth + 1) xs v ys) :
      ValueRun depth (x :: xs) (x :: v) ys
  | closing {x : Lexeme} {xs v ys : List Lexeme} {depth : Nat} (hx : x.kind.isCloseBracket)
      (h : ValueRun depth xs v ys) : ValueRun (depth + 1) (x :: xs) (x :: v) ys
  | inner {x : Lexeme} {xs v ys : List Lexeme} {depth : Nat}
      (hopen : ¬ x.kind.isOpenBracket) (hclose : ¬ x.kind.isCloseBracket)
      (hcomma : depth = 0 → x.kind ≠ .comma) (heof : x.kind ≠ .eof)
      (h : ValueRun depth xs v ys) : ValueRun depth (x :: xs) (x :: v) ys

/-- An entry of a dictionary: a name with a value, or alone. -/
inductive IsEntry : Phrase (String × AttributeValue) where
  | unit {x y : Lexeme} {ys : List Lexeme} (hx : x.kind = .identifier) (hy : y.kind ≠ .equal) :
      IsEntry (x :: y :: ys) (x.valueText, .unit x.valueText) (y :: ys)
  | valued {x y : Lexeme} {ys v zs : List Lexeme} (hx : x.kind = .identifier)
      (hy : y.kind = .equal) (h : ValueRun fits 0 ys v zs) :
      IsEntry (x :: y :: ys) (x.valueText, .ofLexemes v) zs

/-- An entry with the commas behind it. -/
inductive IsSeparatedEntry : Phrase (String × AttributeValue) where
  | intro {xs ys zs : List Lexeme} {entry : String × AttributeValue}
      (h : IsEntry fits xs entry ys) (hcommas : Commas ys zs) : IsSeparatedEntry xs entry zs

/-- A dictionary in braces, as the list of its entries. -/
inductive IsDictionary : Phrase (List (String × AttributeValue)) where
  | intro {x y : Lexeme} {xs ys : List Lexeme} {entries : List (String × AttributeValue)}
      (hx : x.kind = .lbrace) (h : Until [.rbrace] (IsSeparatedEntry fits) xs entries (y :: ys))
      (hy : y.kind = .rbrace) : IsDictionary (x :: xs) entries ys

/-- A dictionary that may be missing, and then has no entries. -/
inductive MayHaveDictionary : Phrase (List (String × AttributeValue)) where
  | intro {xs ys : List Lexeme} {entries : Option (List (String × AttributeValue))}
      (h : Optionally (·.kind = .lbrace) (IsDictionary fits) xs entries ys) :
      MayHaveDictionary xs (entries.getD []) ys

/-- Whether a lexeme is the word before the attributes of a module or a function. -/
def IsAttributesWord (x : Lexeme) : Prop :=
  x.kind = .identifier ∧ x.token.hasText "attributes"

/-- A dictionary behind the word `attributes`; both may be missing. -/
inductive MayHaveClause : Phrase (List (String × AttributeValue)) where
  | present {x : Lexeme} {xs ys : List Lexeme} {entries : List (String × AttributeValue)}
      (hx : IsAttributesWord x) (h : IsDictionary fits xs entries ys) :
      MayHaveClause (x :: xs) entries ys
  | missing {x : Lexeme} {xs : List Lexeme} (hx : ¬ IsAttributesWord x) :
      MayHaveClause (x :: xs) [] (x :: xs)

/-! ## Captures -/

/-- The lexemes of a capture behind its first bracket, from a depth of open brackets of its
own kind on, up to the one that closes the first. -/
inductive CaptureRun (opening closing : TokenKind) : Nat → Phrase (List Lexeme) where
  | last {x : Lexeme} {xs : List Lexeme} (hx : x.kind = closing) :
      CaptureRun opening closing 1 (x :: xs) [x] xs
  | opened {x : Lexeme} {xs run ys : List Lexeme} {depth : Nat} (hx : x.kind = opening)
      (hfits : fits (depth + 1)) (h : CaptureRun opening closing (depth + 1) xs run ys) :
      CaptureRun opening closing depth (x :: xs) (x :: run) ys
  | closed {x : Lexeme} {xs run ys : List Lexeme} {depth : Nat} (hx : x.kind = closing)
      (h : CaptureRun opening closing (depth + 1) xs run ys) :
      CaptureRun opening closing (depth + 2) (x :: xs) (x :: run) ys
  | inner {x : Lexeme} {xs run ys : List Lexeme} {depth : Nat} (hopen : x.kind ≠ opening)
      (hclose : x.kind ≠ closing) (heof : x.kind ≠ .eof)
      (h : CaptureRun opening closing depth xs run ys) :
      CaptureRun opening closing depth (x :: xs) (x :: run) ys

/-- The lexemes from an opening bracket to the one that closes it. -/
inductive IsCapture (opening closing : TokenKind) : Phrase (List Lexeme) where
  | intro {x : Lexeme} {xs run ys : List Lexeme} (hx : x.kind = opening)
      (h : CaptureRun fits opening closing 1 xs run ys) :
      IsCapture opening closing (x :: xs) (x :: run) ys

/-- The text of a capture. -/
inductive IsCaptured (opening closing : TokenKind) : Phrase String where
  | intro {xs run ys : List Lexeme} (h : IsCapture fits opening closing xs run ys) :
      IsCaptured opening closing xs (verbatim run) ys

/-- Whether a lexeme starts a location. -/
def IsLocWord (x : Lexeme) : Prop := x.kind = .keyword ∧ x.token.hasText "loc"

/-- A location, as its text. -/
inductive IsLocation : Phrase String where
  | intro {x : Lexeme} {xs run ys : List Lexeme} (hx : IsLocWord x)
      (h : IsCapture fits .lparen .rparen xs run ys) :
      IsLocation (x :: xs) (verbatim (x :: run)) ys

end Brackets

/-! ## Parts of operations -/

/-- A value that an operation defines, perhaps a group of several. -/
inductive IsOutput : Phrase String where
  | single {x y : Lexeme} {ys : List Lexeme} (hx : x.kind = .valueId) (hy : y.kind ≠ .colon) :
      IsOutput (x :: y :: ys) x.valueText (y :: ys)
  | group {x y n : Lexeme} {xs : List Lexeme} (hx : x.kind = .valueId) (hy : y.kind = .colon)
      (hn : n.kind = .integerLiteral) :
      IsOutput (x :: y :: n :: xs) (x.valueText ++ ":" ++ n.valueText) xs

/-- The values that an operation defines: in parentheses, bare, or none. -/
inductive AreOutputs : Phrase (List String) where
  | enclosed {xs ys : List Lexeme} {outputs : List String}
      (h : Enclosed IsOutput xs outputs ys) : AreOutputs xs outputs ys
  | bare {x : Lexeme} {xs ys : List Lexeme} {outputs : List String} (hx : x.kind = .valueId)
      (h : Bare IsOutput (x :: xs) outputs ys) : AreOutputs (x :: xs) outputs ys
  | none {x : Lexeme} {xs : List Lexeme} (hparen : x.kind ≠ .lparen) (hx : x.kind ≠ .valueId) :
      AreOutputs (x :: xs) [] (x :: xs)

/-- The values that an operation defines, with an equals sign behind them unless there are
none. -/
inductive AreDefinitions : Phrase (List String) where
  | none {xs ys : List Lexeme} (h : AreOutputs xs [] ys) : AreDefinitions xs [] ys
  | some {x : Lexeme} {xs ys : List Lexeme} {outputs : List String} (hne : outputs ≠ [])
      (h : AreOutputs xs outputs (x :: ys)) (hx : x.kind = .equal) :
      AreDefinitions xs outputs ys

/-- The name of an operation: a string, or one or two identifiers run together. -/
inductive IsName : Phrase String where
  | quoted {x : Lexeme} {xs : List Lexeme} (hx : x.kind = .stringLiteral) :
      IsName (x :: xs) x.valueText xs
  | one {x y : Lexeme} {ys : List Lexeme} (hx : x.kind = .identifier)
      (hy : y.kind ≠ .identifier) : IsName (x :: y :: ys) x.valueText (y :: ys)
  | two {x y : Lexeme} {ys : List Lexeme} (hx : x.kind = .identifier)
      (hy : y.kind = .identifier) : IsName (x :: y :: ys) (x.valueText ++ y.valueText) ys

/-- The text of one lexeme of a kind. -/
inductive IsText (kind : TokenKind) : Phrase String where
  | intro {x : Lexeme} {xs : List Lexeme} (hx : x.kind = kind) :
      IsText kind (x :: xs) x.valueText xs

/-- Value ids and commas in any order up to a lookahead that ends the operands, or up to a
constant, which is the last operand. -/
inductive OperandRun : Phrase (List String) where
  | done {x : Lexeme} {xs : List Lexeme}
      (hx : x.kind ∈ [.rparen, .colon, .arrow, .lbrace, .identifier, .stringLiteral, .rbrace,
        .eof]) : OperandRun (x :: xs) [] (x :: xs)
  | comma {x : Lexeme} {xs ys : List Lexeme} {inputs : List String} (hx : x.kind = .comma)
      (h : OperandRun xs inputs ys) : OperandRun (x :: xs) inputs ys
  | value {x : Lexeme} {xs ys : List Lexeme} {inputs : List String} (hx : x.kind = .valueId)
      (h : OperandRun xs inputs ys) : OperandRun (x :: xs) (x.valueText :: inputs) ys
  | dense {x : Lexeme} {xs : List Lexeme} (hx : x.kind = .dense) :
      OperandRun (x :: xs) [x.valueText] xs
  | scalar {x : Lexeme} {xs : List Lexeme} (hx : x.kind.isScalarLiteral) :
      OperandRun (x :: xs) [x.text] xs

/-- The operands, in parentheses or bare. -/
inductive AreOperands : Phrase (List String) where
  | enclosed {x y : Lexeme} {xs ys : List Lexeme} {inputs : List String} (hx : x.kind = .lparen)
      (h : OperandRun xs inputs (y :: ys)) (hy : y.kind = .rparen) :
      AreOperands (x :: xs) inputs ys
  | bare {x : Lexeme} {xs ys : List Lexeme} {inputs : List String} (hx : x.kind ≠ .lparen)
      (h : OperandRun (x :: xs) inputs ys) : AreOperands (x :: xs) inputs ys

/-- Types behind a mark, which may be missing with them. -/
inductive MayHaveTypes (kind : TokenKind) : Phrase (List String) where
  | intro {xs ys : List Lexeme} {types : Option (List String)}
      (h : Optionally (·.kind = kind) (After kind IsTypeList) xs types ys) :
      MayHaveTypes kind xs (types.getD []) ys

/-- Whether a brace opens a dictionary: behind it stand an identifier and an equals sign, a
comma or a closing brace. -/
def OpensDictionary : List Lexeme → Prop
  | _ :: x :: y :: _ => x.kind = .identifier ∧ y.kind ∈ [.equal, .comma, .rbrace]
  | _ => False

section Operations

variable (fits : Nat → Prop)

/-- A block in braces after the signature, if there is one: the entries of a dictionary, or
the text of a body. -/
inductive IsBlock : Phrase (List (String × AttributeValue) × Option String) where
  | dictionary {x : Lexeme} {xs ys : List Lexeme} {entries : List (String × AttributeValue)}
      (hx : x.kind = .lbrace) (hopens : OpensDictionary (x :: xs))
      (h : IsDictionary fits (x :: xs) entries ys) : IsBlock (x :: xs) (entries, none) ys
  | body {x : Lexeme} {xs ys : List Lexeme} {text : String} (hx : x.kind = .lbrace)
      (hopens : ¬ OpensDictionary (x :: xs))
      (h : IsCaptured fits .lbrace .rbrace (x :: xs) text ys) :
      IsBlock (x :: xs) ([], some text) ys
  | missing {x : Lexeme} {xs : List Lexeme} (hx : x.kind ≠ .lbrace) :
      IsBlock (x :: xs) ([], none) (x :: xs)

/-- An operation up to the types of its operands. -/
inductive IsHead : Phrase Operation where
  | intro {xs₀ xs₁ xs₂ xs₃ xs₄ xs₅ xs₆ xs₇ : List Lexeme} {outputs inputs types : List String}
      {name : String} {callee regions : Option String}
      {entries : List (String × AttributeValue)}
      (houtputs : AreDefinitions xs₀ outputs xs₁) (hname : IsName xs₁ name xs₂)
      (hcallee : Optionally (·.kind = .symbolRefId) (IsText .symbolRefId) xs₂ callee xs₃)
      (hinputs : AreOperands xs₃ inputs xs₄)
      (hregions : Optionally (·.kind = .lparen) (IsCaptured fits .lparen .rparen) xs₄ regions xs₅)
      (hentries : MayHaveDictionary fits xs₅ entries xs₆)
      (htypes : MayHaveTypes .colon xs₆ types xs₇) :
      IsHead xs₀ { Operation.named name with
        callee := callee, inputs := inputs, inputTypes := types, outputs := outputs,
        attributes := Attributes.empty.insertAll entries, regions := regions } xs₇

/-- An operation.  A constant is one whose name says so and that is written without result
types; it keeps no types. -/
inductive IsOperation : Phrase Operation where
  | constant {x : Lexeme} {xs ys zs : List Lexeme} {op : Operation} {location : Option String}
      (hhead : IsHead fits xs op (x :: ys)) (hname : Parse.isConstantName op.name)
      (hx : x.kind ≠ .arrow)
      (hlocation : Optionally IsLocWord (IsLocation fits) (x :: ys) location zs) :
      IsOperation xs { op with inputTypes := [], location := location, isConstant := true } zs
  | general {x : Lexeme} {xs xs₁ xs₂ xs₃ xs₄ ys : List Lexeme} {op : Operation}
      {types : List String} {entries late : List (String × AttributeValue)}
      {body location : Option String} (hhead : IsHead fits xs op (x :: xs₁))
      (hname : Parse.isConstantName op.name → x.kind = .arrow)
      (htypes : MayHaveTypes .arrow (x :: xs₁) types xs₂)
      (hblock : IsBlock fits xs₂ (entries, body) xs₃)
      (hlate : MayHaveDictionary fits xs₃ late xs₄)
      (hlocation : Optionally IsLocWord (IsLocation fits) xs₄ location ys) :
      IsOperation xs { op with
        outputTypes := types, attributes := op.attributes.insertAll (entries ++ late),
        body := body, location := location } ys

/-! ## Functions and modules -/

/-- A parameter of a function. -/
inductive IsParameter : Phrase Parameter where
  | intro {x y : Lexeme} {xs xs₁ xs₂ ys : List Lexeme} {type : String}
      {entries : List (String × AttributeValue)} {location : Option String}
      (hx : x.kind = .valueId) (hy : y.kind = .colon) (htype : IsType xs type xs₁)
      (hentries : MayHaveDictionary fits xs₁ entries xs₂)
      (hlocation : Optionally IsLocWord (IsLocation fits) xs₂ location ys) :
      IsParameter (x :: y :: xs)
        ⟨x.valueText, type, Attributes.empty.insertAll entries, location⟩ ys

/-- A result of a function with its attributes. -/
inductive IsResult : Phrase FunctionResult where
  | intro {xs xs₁ ys : List Lexeme} {type : String} {entries : List (String × AttributeValue)}
      (htype : IsType xs type xs₁) (hentries : MayHaveDictionary fits xs₁ entries ys) :
      IsResult xs ⟨type, Attributes.empty.insertAll entries⟩ ys

/-- Results in parentheses, or one type without attributes. -/
inductive AreResults : Phrase (List FunctionResult) where
  | enclosed {xs ys : List Lexeme} {results : List FunctionResult}
      (h : Enclosed (IsResult fits) xs results ys) : AreResults xs results ys
  | bare {x : Lexeme} {xs ys : List Lexeme} {type : String} (hx : x.kind ≠ .lparen)
      (h : IsType (x :: xs) type ys) : AreResults (x :: xs) [⟨type, .empty⟩] ys

/-- Whether a lexeme is a visibility. -/
def IsVisibility (x : Lexeme) : Prop :=
  x.kind = .identifier ∧ ∃ v ∈ ["private", "public", "nested"], x.token.hasText v

/-- The operations of a body in braces. -/
inductive IsBody : Phrase (List Operation) where
  | intro {x y : Lexeme} {xs ys : List Lexeme} {operations : List Operation}
      (hx : x.kind = .lbrace)
      (h : Until [.rbrace, .eof] (IsOperation fits) xs operations (y :: ys))
      (hy : y.kind = .rbrace) : IsBody (x :: xs) operations ys

/-- A function, or its declaration where the body is missing. -/
inductive IsFunction : Phrase Function where
  | intro {x y : Lexeme} {xs xs₁ xs₂ xs₃ xs₄ xs₅ ys : List Lexeme} {visibility : Option String}
      {parameters : List Parameter} {early late : List (String × AttributeValue)}
      {results : Option (List FunctionResult)} {body : Option (List Operation)}
      (hx : x.kind = .keyword)
      (hvisibility : Optionally IsVisibility (IsText .identifier) xs visibility (y :: xs₁))
      (hy : y.kind = .symbolRefId)
      (hparameters : Enclosed (IsParameter fits) xs₁ parameters xs₂)
      (hearly : MayHaveClause fits xs₂ early xs₃)
      (hresults : Optionally (·.kind = .arrow) (After .arrow (AreResults fits)) xs₃ results xs₄)
      (hlate : MayHaveClause fits xs₄ late xs₅)
      (hbody : Optionally (·.kind = .lbrace) (IsBody fits) xs₅ body ys) :
      IsFunction (x :: xs)
        ⟨dropSigil y.valueText, visibility, parameters, results.getD [],
          Attributes.empty.insertAll (early ++ late), body.getD [], body.isSome⟩ ys

/-- A function where the lookahead is a keyword that ends in `func`, else an operation. -/
inductive IsItem : Phrase ModuleItem where
  | function {x : Lexeme} {xs ys : List Lexeme} {f : Function} (hx : x.token.startsFunction)
      (h : IsFunction fits (x :: xs) f ys) : IsItem (x :: xs) (.function f) ys
  | operation {x : Lexeme} {xs ys : List Lexeme} {op : Operation}
      (hx : ¬ x.token.startsFunction) (h : IsOperation fits (x :: xs) op ys) :
      IsItem (x :: xs) (.operation op) ys

/-- A module up to its closing brace. -/
inductive IsModuleText : Phrase Graph where
  | intro {x o c : Lexeme} {xs xs₁ ys zs : List Lexeme} {name : Option String}
      {entries : List (String × AttributeValue)} {items : List ModuleItem}
      (hx : x.kind = .keyword) (htext : x.token.hasText "module")
      (hname : Optionally (·.kind = .symbolRefId) (IsText .symbolRefId) xs name xs₁)
      (hentries : MayHaveClause fits xs₁ entries (o :: ys)) (ho : o.kind = .lbrace)
      (hitems : Until [.rbrace, .eof] (IsItem fits) ys items (c :: zs)) (hc : c.kind = .rbrace) :
      IsModuleText (x :: xs)
        ⟨name.map dropSigil, items.filterMap ModuleItem.function?,
          items.filterMap ModuleItem.operation?, Attributes.empty.insertAll entries⟩ zs

/-- A whole run of lexemes that is a module with the end of the text behind it. -/
inductive IsModule : List Lexeme → Graph → Prop where
  | intro {e : Lexeme} {xs : List Lexeme} {g : Graph} (h : IsModuleText fits xs g [e])
      (he : e.kind = .eof) : IsModule xs g

end Operations

end Grammar

end GenericIR
