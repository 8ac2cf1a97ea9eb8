/-
# Well-formed graphs

What every graph that a source parses to can be relied on for: which sigils its texts start with,
which of them are stretches of the source and between which brackets, what a constant and a
declaration do not have, and what the names of attributes are.

* `Graph.WellFormed` : what a graph can be relied on for;
* `Grammar.IsOperation.wellFormed`, `Grammar.IsFunction.wellFormed` : the two large productions;
* `Graph.wellFormed_of_parse` : every graph that a source parses to is well formed.
-/
import GenericIR.Proofs.Brackets.Balance
import GenericIR.Proofs.Recognition.Module
import GenericIR.Proofs.Remainder
import GenericIR.Proofs.WellFormed.Source

namespace GenericIR

/-! ## Well-formed parts -/

/-- Whether a text is a stretch of a source from an opening text to a closing one. -/
structure IsStretch (source first last text : String) : Prop where
  inside : text.toList <:+: source.toList
  starts : first.toList <+: text.toList
  ends : last.toList <:+ text.toList

/-- Whether a text is that of a constant operand: a dense form, or a scalar literal as it is written
in the source. -/
def IsConstantText (limits : Limits) (source text : String) : Prop :=
  ("dense".toList <+: text.toList ∧ ['>'] <:+ text.toList) ∨ IsScalarText limits source text

/-- The operands of an operation are values, but the last one may be a constant. -/
structure AreInputs (limits : Limits) (source : String) (inputs : List String) : Prop where
  values : ∀ input ∈ inputs.dropLast, IsValueText input
  last : ∀ input ∈ inputs.getLast?, IsValueText input ∨ IsConstantText limits source input

/-- The names of attributes are distinct identifiers. -/
structure Attributes.WellFormed (attributes : Attributes) : Prop where
  distinct : attributes.keys.Nodup
  identifiers : ∀ key ∈ attributes.keys, IsIdentifier key

/-- What an operation of a source can be relied on for. -/
structure Operation.WellFormed (limits : Limits) (source : String) (op : Operation) : Prop where
  outputs : ∀ output ∈ op.outputs, IsValueText output
  inputs : AreInputs limits source op.inputs
  callee : ∀ callee ∈ op.callee, ['@'] <+: callee.toList
  body : ∀ body ∈ op.body, IsStretch source "\x7b" "\x7d" body
  regions : ∀ regions ∈ op.regions, IsStretch source "(" ")" regions
  location : ∀ location ∈ op.location, IsStretch source "loc" ")" location
  constant : op.isConstant → "constant".toList <:+ op.name.toList ∧ op.inputTypes = [] ∧
    op.outputTypes = [] ∧ op.body = none
  inputTypes : "" ∉ op.inputTypes
  outputTypes : "" ∉ op.outputTypes
  attributes : op.attributes.WellFormed

/-- What a parameter of a function can be relied on for. -/
structure Parameter.WellFormed (source : String) (param : Parameter) : Prop where
  name : IsValueText param.name
  type : param.type ≠ ""
  attributes : param.attributes.WellFormed
  location : ∀ location ∈ param.location, IsStretch source "loc" ")" location

/-- What a result of a function can be relied on for. -/
structure FunctionResult.WellFormed (result : FunctionResult) : Prop where
  type : result.type ≠ ""
  attributes : result.attributes.WellFormed

/-- What a function of a source can be relied on for. -/
structure Function.WellFormed (limits : Limits) (source : String) (f : Function) : Prop where
  visibility : ∀ visibility ∈ f.visibility, visibility ∈ ["private", "public", "nested"]
  parameters : ∀ param ∈ f.parameters, param.WellFormed source
  results : ∀ result ∈ f.results, result.WellFormed
  attributes : f.attributes.WellFormed
  operations : ∀ op ∈ f.operations, op.WellFormed limits source
  declaration : f.hasBody = false → f.operations = []

/-- What the graph of a source can be relied on for. -/
structure Graph.WellFormed (limits : Limits) (source : String) (g : Graph) : Prop where
  functions : ∀ f ∈ g.functions, f.WellFormed limits source
  operations : ∀ op ∈ g.operations, op.WellFormed limits source
  attributes : g.attributes.WellFormed

/-- A text of a value goes on to be one with more text behind it. -/
theorem IsValueText.append {text : String} (h : IsValueText text) (more : String) :
    IsValueText (text ++ more) := by
  obtain ⟨c, rest, htext, hc⟩ := h
  exact ⟨c, rest ++ more.toList, by rw [String.toList_append, htext, List.cons_append], hc⟩

namespace Attributes.WellFormed

/-- A dictionary without entries. -/
theorem empty : Attributes.empty.WellFormed := ⟨.nil, nofun⟩

/-- Entries whose names are identifiers may be set. -/
theorem insertAll {attributes : Attributes} {entries : List (String × AttributeValue)}
    (h : attributes.WellFormed) (hentries : ∀ entry ∈ entries, IsIdentifier entry.1) :
    (attributes.insertAll entries).WellFormed := by
  induction entries generalizing attributes with
  | nil => exact h
  | cons entry entries ih =>
      obtain ⟨hentry, hentries⟩ := List.forall_mem_cons.mp hentries
      refine ih ⟨(attributes.insert entry.1 entry.2).distinct, fun key hkey => ?_⟩ hentries
      rw [keys_insert] at hkey
      split at hkey
      · exact h.identifiers key hkey
      · rcases List.mem_append.mp hkey with hkey | hkey
        · exact h.identifiers key hkey
        · exact List.mem_singleton.mp hkey ▸ hentry

end Attributes.WellFormed

namespace Grammar

variable {limits : Limits} {source : String} {fits : Nat → Prop} {all xs ys : List Lexeme}
  (hall : LexemesOf limits source all) (hxs : xs <:+ all)

/-! ## Types -/

section Types

include hall hxs

/-- A type is not empty. -/
theorem IsType.ne_empty {type : String} (h : IsType xs type ys) : type ≠ "" := by
  cases h with
  | plain hx =>
      have hform := hall.formed _ (hxs.subset List.mem_cons_self)
      rcases hx with hx | hx
      · exact hform.type hx
      · exact (hform.identifier hx).ne_empty
  | dialect _ _ _ _ => simp

/-- Types in a list are not empty. -/
theorem IsTypeList.ne_empty {types : List String} (h : IsTypeList xs types ys) : "" ∉ types := by
  have hread : ∀ type ∈ types, ReadWithin IsType xs type := by
    cases h with
    | enclosed h => exact h.readWithin IsType.suffix
    | bare _ h => exact h.readWithin IsType.suffix
  intro hmem
  obtain ⟨ws, zs, hws, htype⟩ := hread _ hmem
  exact htype.ne_empty hall (hws.trans hxs) rfl

/-- Types behind a mark are not empty. -/
theorem MayHaveTypes.ne_empty {kind : TokenKind} {types : List String}
    (h : MayHaveTypes kind xs types ys) : "" ∉ types := by
  obtain ⟨h⟩ := h
  cases h with
  | missing _ => exact List.not_mem_nil
  | present _ h =>
      obtain ⟨_, h⟩ := h
      exact h.ne_empty hall ((List.suffix_cons _ _).trans hxs)

end Types

/-! ## Attributes -/

section Attributes

include hall hxs

/-- The name of an entry is an identifier. -/
theorem IsSeparatedEntry.isIdentifier {entry : String × AttributeValue}
    (h : IsSeparatedEntry fits xs entry ys) : IsIdentifier entry.1 := by
  obtain ⟨h, _⟩ := h
  cases h with
  | unit hx _ => exact (hall.formed _ (hxs.subset List.mem_cons_self)).identifier hx
  | valued hx _ _ => exact (hall.formed _ (hxs.subset List.mem_cons_self)).identifier hx

/-- The names in a dictionary are identifiers. -/
theorem IsDictionary.isIdentifier {entries : List (String × AttributeValue)}
    (h : IsDictionary fits xs entries ys) : ∀ entry ∈ entries, IsIdentifier entry.1 := by
  obtain ⟨_, h, _⟩ := h
  intro entry hentry
  obtain ⟨ws, zs, hws, hread⟩ := h.readWithin IsSeparatedEntry.suffix entry hentry
  exact hread.isIdentifier hall ((hws.trans (List.suffix_cons _ _)).trans hxs)

/-- The names in a dictionary that may be missing are identifiers. -/
theorem MayHaveDictionary.isIdentifier {entries : List (String × AttributeValue)}
    (h : MayHaveDictionary fits xs entries ys) : ∀ entry ∈ entries, IsIdentifier entry.1 := by
  obtain ⟨h⟩ := h
  cases h with
  | present _ h => exact h.isIdentifier hall hxs
  | missing _ => exact nofun

/-- The names in a dictionary behind its word are identifiers. -/
theorem MayHaveClause.isIdentifier {entries : List (String × AttributeValue)}
    (h : MayHaveClause fits xs entries ys) : ∀ entry ∈ entries, IsIdentifier entry.1 := by
  cases h with
  | present _ h => exact h.isIdentifier hall ((List.suffix_cons _ _).trans hxs)
  | missing _ => exact nofun

end Attributes

/-! ## Captures -/

/-- The last lexeme of a capture is the bracket that closes it. -/
theorem CaptureRun.exists_last {opening closing : TokenKind} {depth : Nat} {run : List Lexeme}
    (h : CaptureRun fits opening closing depth xs run ys) :
    ∃ front x, run = front ++ [x] ∧ x.kind = closing := by
  induction h with
  | last hx => exact ⟨[], _, rfl, hx⟩
  | opened _ _ _ ih =>
      obtain ⟨front, x, rfl, hx⟩ := ih
      exact ⟨_ :: front, x, rfl, hx⟩
  | closed _ _ ih =>
      obtain ⟨front, x, rfl, hx⟩ := ih
      exact ⟨_ :: front, x, rfl, hx⟩
  | inner _ _ _ _ ih =>
      obtain ⟨front, x, rfl, hx⟩ := ih
      exact ⟨_ :: front, x, rfl, hx⟩

section Captures

include hall hxs

/-- A run that a bracket closes is a stretch of the source up to this bracket. -/
theorem isStretch_of_last {x z : Lexeme} {front : List Lexeme} {c : Char}
    (hrun : x :: (front ++ [z]) ++ ys = xs) (hc : c ∈ ['(', ')', '\x7b', '\x7d'])
    (hz : z.kind = markKind c) :
    IsStretch source x.text (String.singleton c) (verbatim (x :: (front ++ [z]))) := by
  have hmem : z ∈ all := hxs.subset (hrun ▸ by simp)
  have hinside : x :: (front ++ [z]) <:+: all :=
    (hrun ▸ List.prefix_append _ _ : x :: (front ++ [z]) <+: xs).isInfix.trans hxs.isInfix
  refine ⟨hall.verbatim_isInfix hinside, ?_, ?_⟩
  · rw [toList_verbatim_cons]
    exact List.prefix_append _ _
  · rw [toList_verbatim_cons, spelled_append, spelled_cons, spelled_nil, List.append_nil,
      (hall.formed z hmem).bracket c hc hz, String.toList_singleton, ← List.append_assoc,
      ← List.append_assoc]
    exact List.suffix_append _ _

/-- A capture is a stretch of the source between its brackets. -/
theorem IsCaptured.isStretch {text : String} {a b : Char}
    (ha : a ∈ ['(', ')', '\x7b', '\x7d']) (hb : b ∈ ['(', ')', '\x7b', '\x7d'])
    (h : IsCaptured fits (markKind a) (markKind b) xs text ys) :
    IsStretch source (String.singleton a) (String.singleton b) text := by
  obtain ⟨h⟩ := h
  have heq := h.append_eq
  obtain ⟨hx, hrun⟩ := h
  obtain ⟨front, z, rfl, hz⟩ := hrun.exists_last
  have hfirst := (hall.formed _ (hxs.subset List.mem_cons_self)).bracket a ha hx
  have hstretch := isStretch_of_last hall hxs heq hb hz
  refine ⟨hstretch.inside, ?_, hstretch.ends⟩
  rw [String.toList_singleton, ← hfirst]
  exact hstretch.starts

/-- A location is a stretch of the source from its word to a closing parenthesis. -/
theorem IsLocation.isStretch {text : String} (h : IsLocation fits xs text ys) :
    IsStretch source "loc" ")" text := by
  obtain ⟨hword, h⟩ := h
  have heq := h.append_eq
  obtain ⟨_, hrun⟩ := h
  obtain ⟨front, z, rfl, hz⟩ := hrun.exists_last
  rw [← (hall.formed _ (hxs.subset List.mem_cons_self)).location hword]
  exact @isStretch_of_last _ _ _ _ _ hall hxs _ z (_ :: front) ')' (congrArg (List.cons _) heq)
    (by simp) hz

/-- A location that may be missing is a stretch of the source. -/
theorem isStretch_location {location : Option String}
    (h : Optionally IsLocWord (IsLocation fits) xs location ys) :
    ∀ text ∈ location, IsStretch source "loc" ")" text := by
  cases h with
  | present _ h =>
      rintro _ ⟨⟩
      exact h.isStretch hall hxs
  | missing _ => exact nofun

/-- A capture that may be missing is a stretch of the source between its brackets. -/
theorem isStretch_regions {regions : Option String}
    (h : Optionally (·.kind = .lparen) (IsCaptured fits .lparen .rparen) xs regions ys) :
    ∀ text ∈ regions, IsStretch source "(" ")" text := by
  cases h with
  | present _ h =>
      rintro _ ⟨⟩
      exact @IsCaptured.isStretch _ _ _ _ _ _ hall hxs _ '(' ')' (by simp) (by simp) h
  | missing _ => exact nofun

end Captures

/-! ## Operations -/

/-- A visibility is one of three words. -/
theorem mem_of_visibility {visibility : Option String}
    (h : Optionally IsVisibility (IsText .identifier) xs visibility ys) :
    ∀ text ∈ visibility, text ∈ ["private", "public", "nested"] := by
  cases h with
  | missing _ => exact nofun
  | @present x _ _ _ hx h =>
      obtain ⟨_⟩ := h
      rintro _ ⟨⟩
      obtain ⟨_, v, hv, htext⟩ := hx
      have hvalue : x.valueText = v := by
        rw [Lexeme.valueText]
        cases hval : x.token.value <;>
          simp [Token.hasText, hval, TokenValue.text?] at htext ⊢
        exact htext
      exact hvalue ▸ hv

section Operations

include hall hxs

/-- A value that an operation defines starts with its sigil. -/
theorem IsOutput.isValueText {output : String} (h : IsOutput xs output ys) :
    IsValueText output := by
  cases h with
  | single hx _ => exact (hall.formed _ (hxs.subset List.mem_cons_self)).value hx
  | group hx _ _ =>
      exact (((hall.formed _ (hxs.subset List.mem_cons_self)).value hx).append ":").append _

/-- The values that an operation defines start with their sigils. -/
theorem AreDefinitions.isValueText {outputs : List String} (h : AreDefinitions xs outputs ys) :
    ∀ output ∈ outputs, IsValueText output := by
  have hread : ∀ output ∈ outputs, ReadWithin IsOutput xs output := by
    have houtputs : ∀ {zs : List Lexeme}, AreOutputs xs outputs zs →
        ∀ output ∈ outputs, ReadWithin IsOutput xs output := by
      intro zs h
      cases h with
      | enclosed h => exact h.readWithin IsOutput.suffix
      | bare _ h => exact h.readWithin IsOutput.suffix
      | none _ _ => exact nofun
    cases h with
    | none _ => exact nofun
    | some _ h _ => exact houtputs h
  intro output houtput
  obtain ⟨ws, zs, hws, h⟩ := hread output houtput
  exact h.isValueText hall (hws.trans hxs)

/-- Operands are values, but the last of them may be a constant. -/
theorem OperandRun.areInputs {inputs : List String} (h : OperandRun xs inputs ys) :
    AreInputs limits source inputs := by
  induction h with
  | done _ => exact ⟨nofun, nofun⟩
  | comma _ _ ih => exact ih ((List.suffix_cons _ _).trans hxs)
  | @value x xs ys inputs hx h ih =>
      have hvalue := (hall.formed x (hxs.subset List.mem_cons_self)).value hx
      obtain ⟨hvalues, hlast⟩ := ih ((List.suffix_cons _ _).trans hxs)
      cases inputs with
      | nil => exact ⟨nofun, fun input hinput => Or.inl (Option.some.inj hinput ▸ hvalue)⟩
      | cons y inputs =>
          refine ⟨?_, fun input hinput => hlast input (List.getLast?_cons_cons ▸ hinput)⟩
          rw [List.dropLast_cons_cons]
          exact List.forall_mem_cons.mpr ⟨hvalue, hvalues⟩
  | @dense x xs hx =>
      refine ⟨nofun, fun input hinput => Or.inr (Or.inl ?_)⟩
      exact Option.some.inj hinput ▸ (hall.formed x (hxs.subset List.mem_cons_self)).dense hx
  | @scalar x xs hx =>
      refine ⟨nofun, fun input hinput => Or.inr (Or.inr ?_)⟩
      exact Option.some.inj hinput ▸ hall.scalar x (hxs.subset List.mem_cons_self) hx

/-- The operands of an operation. -/
theorem AreOperands.areInputs {inputs : List String} (h : AreOperands xs inputs ys) :
    AreInputs limits source inputs := by
  cases h with
  | enclosed _ h _ => exact h.areInputs hall ((List.suffix_cons _ _).trans hxs)
  | bare _ h => exact h.areInputs hall hxs

/-- A callee starts with its sigil. -/
theorem isPrefix_callee {callee : Option String}
    (h : Optionally (·.kind = .symbolRefId) (IsText .symbolRefId) xs callee ys) :
    ∀ text ∈ callee, ['@'] <+: text.toList := by
  cases h with
  | missing _ => exact nofun
  | present _ h =>
      obtain ⟨hx⟩ := h
      rintro _ ⟨⟩
      exact (hall.formed _ (hxs.subset List.mem_cons_self)).symbol hx

/-- The head of an operation is a well-formed operation with neither result types nor a body. -/
theorem IsHead.wellFormed {op : Operation} (h : IsHead fits xs op ys) :
    op.WellFormed limits source ∧ op.outputTypes = [] ∧ op.body = none ∧ op.isConstant = false := by
  obtain ⟨houtputs, hname, hcallee, hinputs, hregions, hentries, htypes⟩ := h
  -- the parts are read from what those before them leave
  have htwo := (hname.suffix.trans houtputs.suffix).trans hxs
  have hthree := (hcallee.suffix IsText.suffix).trans htwo
  have hfour := hinputs.suffix.trans hthree
  have hfive := (hregions.suffix IsCaptured.suffix).trans hfour
  have hsix := hentries.suffix.trans hfive
  exact ⟨{
    outputs := houtputs.isValueText hall hxs
    inputs := hinputs.areInputs hall hthree
    callee := isPrefix_callee hall htwo hcallee
    body := nofun
    regions := isStretch_regions hall hfour hregions
    location := nofun
    constant := nofun
    inputTypes := htypes.ne_empty hall hsix
    outputTypes := List.not_mem_nil
    attributes := Attributes.WellFormed.empty.insertAll (hentries.isIdentifier hall hfive)
  }, rfl, rfl, rfl⟩

/-- A block after the signature has identifiers as names, or is a stretch of the source. -/
theorem IsBlock.wellFormed {entries : List (String × AttributeValue)} {body : Option String}
    (h : IsBlock fits xs (entries, body) ys) : (∀ entry ∈ entries, IsIdentifier entry.1) ∧
      ∀ text ∈ body, IsStretch source "\x7b" "\x7d" text := by
  cases h with
  | dictionary _ _ h => exact ⟨h.isIdentifier hall hxs, nofun⟩
  | body _ _ h =>
      refine ⟨nofun, ?_⟩
      rintro _ ⟨⟩
      exact @IsCaptured.isStretch _ _ _ _ _ _ hall hxs _ '\x7b' '\x7d' (by simp) (by simp) h
  | missing _ => exact ⟨nofun, nofun⟩

/-- **An operation of a source is well formed.** -/
theorem IsOperation.wellFormed {op : Operation} (h : IsOperation fits xs op ys) :
    op.WellFormed limits source := by
  cases h with
  | constant hhead hname _ hlocation =>
      obtain ⟨hop, houtputTypes, hbody, _⟩ := hhead.wellFormed hall hxs
      exact { hop with
        location := isStretch_location hall (hhead.suffix.trans hxs) hlocation
        constant := fun _ => ⟨of_decide_eq_true hname, rfl, houtputTypes, hbody⟩
        inputTypes := List.not_mem_nil }
  | general hhead _ htypes hblock hlate hlocation =>
      obtain ⟨hop, _, _, hconstant⟩ := hhead.wellFormed hall hxs
      have htwo := hhead.suffix.trans hxs
      have hthree := htypes.suffix.trans htwo
      have hfour := hblock.suffix.trans hthree
      obtain ⟨hentries, hbody⟩ := hblock.wellFormed hall hthree
      refine { hop with
        body := hbody
        location := isStretch_location hall (hlate.suffix.trans hfour) hlocation
        constant := fun h => absurd (hconstant ▸ h) nofun
        outputTypes := htypes.ne_empty hall htwo
        attributes := hop.attributes.insertAll fun entry hentry => ?_ }
      rcases List.mem_append.mp hentry with hentry | hentry
      · exact hentries entry hentry
      · exact hlate.isIdentifier hall hfour entry hentry

/-! ## Functions and modules -/

/-- A parameter of a function is well formed. -/
theorem IsParameter.wellFormed {param : Parameter} (h : IsParameter fits xs param ys) :
    param.WellFormed source := by
  obtain ⟨hx, _, htype, hentries, hlocation⟩ := h
  have htwo := ((List.suffix_cons _ _).trans (List.suffix_cons _ _)).trans hxs
  have hthree := htype.suffix.trans htwo
  exact {
    name := (hall.formed _ (hxs.subset List.mem_cons_self)).value hx
    type := htype.ne_empty hall htwo
    attributes := Attributes.WellFormed.empty.insertAll (hentries.isIdentifier hall hthree)
    location := isStretch_location hall (hentries.suffix.trans hthree) hlocation }

/-- A result of a function is well formed. -/
theorem IsResult.wellFormed {result : FunctionResult} (h : IsResult fits xs result ys) :
    result.WellFormed := by
  obtain ⟨htype, hentries⟩ := h
  exact ⟨htype.ne_empty hall hxs,
    Attributes.WellFormed.empty.insertAll (hentries.isIdentifier hall (htype.suffix.trans hxs))⟩

/-- The results of a function are well formed. -/
theorem AreResults.wellFormed {results : List FunctionResult} (h : AreResults fits xs results ys) :
    ∀ result ∈ results, result.WellFormed := by
  cases h with
  | enclosed h =>
      intro result hresult
      obtain ⟨ws, zs, hws, h⟩ := h.readWithin IsResult.suffix result hresult
      exact h.wellFormed hall (hws.trans hxs)
  | bare _ h => exact List.forall_mem_singleton.mpr ⟨h.ne_empty hall hxs, .empty⟩

/-- The operations of a body are well formed. -/
theorem IsBody.wellFormed {operations : List Operation} (h : IsBody fits xs operations ys) :
    ∀ op ∈ operations, op.WellFormed limits source := by
  obtain ⟨_, h, _⟩ := h
  intro op hop
  obtain ⟨ws, zs, hws, h⟩ := h.readWithin IsOperation.suffix op hop
  exact h.wellFormed hall ((hws.trans (List.suffix_cons _ _)).trans hxs)

/-- **A function of a source is well formed.** -/
theorem IsFunction.wellFormed {f : Function} (h : IsFunction fits xs f ys) :
    f.WellFormed limits source := by
  obtain ⟨_, hvisibility, _, hparameters, hearly, hresults, hlate, hbody⟩ := h
  have hname := (hvisibility.suffix IsText.suffix).trans ((List.suffix_cons _ _).trans hxs)
  have htwo := (List.suffix_cons _ _).trans hname
  have hthree := (hparameters.suffix IsParameter.suffix).trans htwo
  have hfour := hearly.suffix.trans hthree
  have hfive := (hresults.suffix fun h => h.suffix AreResults.suffix).trans hfour
  have hsix := hlate.suffix.trans hfive
  refine ⟨mem_of_visibility hvisibility, fun param hparam => ?_, ?_,
    Attributes.WellFormed.empty.insertAll fun entry hentry => ?_, ?_, ?_⟩
  · obtain ⟨ws, zs, hws, h⟩ := hparameters.readWithin IsParameter.suffix param hparam
    exact h.wellFormed hall (hws.trans htwo)
  · cases hresults with
    | missing _ => exact nofun
    | present _ h =>
        obtain ⟨_, h⟩ := h
        exact h.wellFormed hall ((List.suffix_cons _ _).trans hfour)
  · rcases List.mem_append.mp hentry with hentry | hentry
    · exact hearly.isIdentifier hall hthree entry hentry
    · exact hlate.isIdentifier hall hfive entry hentry
  · cases hbody with
    | missing _ => exact nofun
    | present _ h => exact h.wellFormed hall hsix
  · cases hbody with
    | missing _ => exact fun _ => rfl
    | present _ _ => exact nofun

/-- A module of a source is well formed. -/
theorem IsModuleText.wellFormed {g : Graph} (h : IsModuleText fits xs g ys) :
    g.WellFormed limits source := by
  obtain ⟨_, _, hname, hentries, _, hitems, _⟩ := h
  have htwo := (hname.suffix IsText.suffix).trans ((List.suffix_cons _ _).trans hxs)
  have hthree := (List.suffix_cons _ _).trans (hentries.suffix.trans htwo)
  have hread := hitems.readWithin IsItem.suffix
  refine ⟨fun f hf => ?_, fun op hop => ?_,
    Attributes.WellFormed.empty.insertAll (hentries.isIdentifier hall htwo)⟩
  · obtain ⟨item, hitem, hfunction⟩ := List.mem_filterMap.mp hf
    obtain ⟨ws, zs, hws, h⟩ := hread item hitem
    cases h with
    | function _ h => exact Option.some.inj hfunction ▸ h.wellFormed hall (hws.trans hthree)
    | operation _ _ => cases hfunction
  · obtain ⟨item, hitem, hoperation⟩ := List.mem_filterMap.mp hop
    obtain ⟨ws, zs, hws, h⟩ := hread item hitem
    cases h with
    | function _ _ => cases hoperation
    | operation _ h => exact Option.some.inj hoperation ▸ h.wellFormed hall (hws.trans hthree)

end Operations

end Grammar

/-- **Every graph that a source parses to is well formed.** -/
theorem Graph.wellFormed_of_parse {limits : Limits} {source : String} {g : Graph}
    (h : Graph.parse limits source = .ok g) : g.WellFormed limits source := by
  obtain ⟨_, _, p, _, _, hreads⟩ := Graph.reads_of_parse h
  obtain ⟨hmodule, _⟩ := (Graph.parse_iff_isModule hreads (fun _ _ => Iff.rfl) g).mp h
  exact hmodule.wellFormed (lexemesOf_of_reads hreads) List.suffix_rfl

/-- The graph of a module with one constant, whose operand is an integer of the source. -/
theorem Graph.wellFormed_constant :
    Graph.parse .standard "module \x7b%0 = a.constant 1\x7d" =
      .ok ⟨none, [], [{ Operation.named "a.constant" with
        inputs := ["1"], outputs := ["%0"], isConstant := true }], .empty⟩ ∧
    Graph.WellFormed .standard "module \x7b%0 = a.constant 1\x7d"
      ⟨none, [], [{ Operation.named "a.constant" with
        inputs := ["1"], outputs := ["%0"], isConstant := true }], .empty⟩ := by
  have hvalue : Lexer.next ⟨.standard, ⟨8, 1, 9⟩, "%0 = a.constant 1\x7d".toList⟩ =
      .ok ⟨"", "%0", ⟨.valueId, .text "%0", ⟨⟨8, 1, 9⟩, 2⟩⟩⟩
        ⟨.standard, ⟨10, 1, 11⟩, " = a.constant 1\x7d".toList⟩ := by cbv
  have hreads : (Lexer.ofSource .standard "module \x7b%0 = a.constant 1\x7d").Reads _ :=
    .more rfl (by decide) <| .more rfl (by decide) <| .more hvalue (by decide) <|
    .more rfl (by decide) <| .more rfl (by decide) <| .more rfl (by decide) <|
    .more rfl (by decide) <| .last rfl rfl
  suffices hparse : Graph.parse .standard "module \x7b%0 = a.constant 1\x7d" = .ok _ from
    ⟨hparse, Graph.wellFormed_of_parse hparse⟩
  refine (Graph.parse_iff_isModule hreads (fun _ _ => Iff.rfl) _).mpr (.intro
    (.intro rfl (by decide) (.missing (by decide)) (.missing fun h => absurd h.1 (by decide)) rfl
      (.more (by decide) (.operation (by decide) (.constant (.intro
        (.some (by decide) (.bare rfl (.intro (.single rfl (by decide)) (.done (by decide)))) rfl)
        (.one rfl (by decide)) (.missing (by decide)) (.bare (by decide) (.scalar rfl))
        (.missing (by decide)) (.intro (.missing (by decide))) (.intro (.missing (by decide))))
        (by decide) (by decide) (.missing fun h => absurd h.1 (by decide))))
        (.done (by decide))) rfl) rfl)

end GenericIR
