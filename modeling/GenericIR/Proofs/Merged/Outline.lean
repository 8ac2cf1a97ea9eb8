/-
# The entries of a module as they are written

An outline of a module says which entries are written for which of its items: each entry as the
lexemes of its name and of its value, in the order of the source, with no dictionary in it.  The
outline is a grammar of its own; it shares with the other one only the phrases that no entry is
in.

* `Outline.Entry` : an entry as its lexemes;
* `Outline.IsOperation`, `Outline.IsFunction`, `Outline.IsModule` : the entries of one operation,
  one function, a whole run of lexemes;
* `Outline.Holds` : entries that are read one behind the other;
* `Outline.IsModule.holds`, `Outline.IsModule.sublist` : so are all entries of a module.
-/
import GenericIR.Proofs.Remainder

namespace GenericIR

namespace Outline

open Grammar (AreDefinitions AreOperands After Closed Commas Enclosed IsAttributesWord IsCaptured
  IsLocWord IsLocation IsName IsText IsType IsVisibility MayHaveTypes OpensDictionary Optionally
  Until ValueRun)

/-! ## Entries -/

/-- An entry: the lexeme of its name, and those of its value unless the name stands alone. -/
structure Entry where
  key : Lexeme
  value : Option (List Lexeme)

/-- The name of an entry with the value that its lexemes stand for. -/
def Entry.attribute (e : Entry) : String × AttributeValue :=
  (e.key.valueText, e.value.elim (.unit e.key.valueText) .ofLexemes)

/-- The lexemes of an entry. -/
def Entry.lexemes (e : Entry) : List Lexeme := e.key :: e.value.getD []

/-- The entries of a function: those of each parameter, those before the results, those of each
result, those behind the results, and those of each operation of the body. -/
structure FunctionEntries where
  parameters : List (List Entry)
  early : List Entry
  results : List (List Entry)
  late : List Entry
  operations : List (List Entry)

/-- All entries of a function in the order of the source. -/
def FunctionEntries.all (f : FunctionEntries) : List Entry :=
  f.parameters.flatten ++ (f.early ++ (f.results.flatten ++ (f.late ++ f.operations.flatten)))

/-- The entries of an item of a module. -/
inductive ItemEntries where
  | function (f : FunctionEntries)
  | operation (entries : List Entry)

namespace ItemEntries

/-- All entries of an item in the order of the source. -/
def all : ItemEntries → List Entry
  | function f => f.all
  | operation entries => entries

/-- The entries of a function, unless the item is an operation. -/
def function? : ItemEntries → Option FunctionEntries
  | function f => some f
  | operation _ => none

/-- The entries of an operation, unless the item is a function. -/
def operation? : ItemEntries → Option (List Entry)
  | function _ => none
  | operation entries => some entries

end ItemEntries

/-- The entries of a module: its own, and those of each of its items. -/
structure ModuleEntries where
  own : List Entry
  items : List ItemEntries

/-- All entries of a module in the order of the source. -/
def ModuleEntries.all (m : ModuleEntries) : List Entry := m.own ++ m.items.flatMap ItemEntries.all

section Phrases

variable (fits : Nat → Prop)

/-! ## Blocks -/

/-- An entry of a dictionary. -/
inductive IsEntry : Phrase Entry where
  | alone {x y : Lexeme} {ys : List Lexeme} (hx : x.kind = .identifier) (hy : y.kind ≠ .equal) :
      IsEntry (x :: y :: ys) ⟨x, none⟩ (y :: ys)
  | valued {x y : Lexeme} {ys v zs : List Lexeme} (hx : x.kind = .identifier)
      (hy : y.kind = .equal) (h : ValueRun fits 0 ys v zs) : IsEntry (x :: y :: ys) ⟨x, some v⟩ zs

/-- An entry with the commas behind it. -/
inductive IsSeparatedEntry : Phrase Entry where
  | intro {xs ys zs : List Lexeme} {e : Entry} (h : IsEntry fits xs e ys)
      (hcommas : Commas ys zs) : IsSeparatedEntry xs e zs

/-- A dictionary in braces. -/
inductive IsDictionary : Phrase (List Entry) where
  | intro {x y : Lexeme} {xs ys : List Lexeme} {es : List Entry} (hx : x.kind = .lbrace)
      (h : Until [.rbrace] (IsSeparatedEntry fits) xs es (y :: ys)) (hy : y.kind = .rbrace) :
      IsDictionary (x :: xs) es ys

/-- A dictionary that may be missing. -/
inductive MayHaveDictionary : Phrase (List Entry) where
  | intro {xs ys : List Lexeme} {es : Option (List Entry)}
      (h : Optionally (·.kind = .lbrace) (IsDictionary fits) xs es ys) :
      MayHaveDictionary xs (es.getD []) ys

/-- A dictionary behind the word `attributes`; both may be missing. -/
inductive MayHaveClause : Phrase (List Entry) where
  | present {x : Lexeme} {xs ys : List Lexeme} {es : List Entry} (hx : IsAttributesWord x)
      (h : IsDictionary fits xs es ys) : MayHaveClause (x :: xs) es ys
  | missing {x : Lexeme} {xs : List Lexeme} (hx : ¬ IsAttributesWord x) :
      MayHaveClause (x :: xs) [] (x :: xs)

/-! ## Operations -/

/-- A block after the signature: the entries of a dictionary, or none where it is a body. -/
inductive IsBlock : Phrase (List Entry) where
  | dictionary {x : Lexeme} {xs ys : List Lexeme} {es : List Entry} (hx : x.kind = .lbrace)
      (hopens : OpensDictionary (x :: xs)) (h : IsDictionary fits (x :: xs) es ys) :
      IsBlock (x :: xs) es ys
  | body {x : Lexeme} {xs ys : List Lexeme} {text : String} (hx : x.kind = .lbrace)
      (hopens : ¬ OpensDictionary (x :: xs))
      (h : IsCaptured fits .lbrace .rbrace (x :: xs) text ys) : IsBlock (x :: xs) [] ys
  | missing {x : Lexeme} {xs : List Lexeme} (hx : x.kind ≠ .lbrace) :
      IsBlock (x :: xs) [] (x :: xs)

/-- An operation up to the types of its operands, as its name and the entries among them. -/
inductive IsHead : Phrase (String × List Entry) where
  | intro {xs₀ xs₁ xs₂ xs₃ xs₄ xs₅ xs₆ xs₇ : List Lexeme} {outputs inputs types : List String}
      {name : String} {callee regions : Option String} {es : List Entry}
      (houtputs : AreDefinitions xs₀ outputs xs₁) (hname : IsName xs₁ name xs₂)
      (hcallee : Optionally (·.kind = .symbolRefId) (IsText .symbolRefId) xs₂ callee xs₃)
      (hinputs : AreOperands xs₃ inputs xs₄)
      (hregions : Optionally (·.kind = .lparen) (IsCaptured fits .lparen .rparen) xs₄ regions xs₅)
      (hentries : MayHaveDictionary fits xs₅ es xs₆)
      (htypes : MayHaveTypes .colon xs₆ types xs₇) : IsHead xs₀ (name, es) xs₇

/-- An operation: the entries before its signature, those after it, and those behind a body. -/
inductive IsOperation : Phrase (List Entry) where
  | constant {x : Lexeme} {xs ys zs : List Lexeme} {name : String} {es : List Entry}
      {location : Option String} (hhead : IsHead fits xs (name, es) (x :: ys))
      (hname : Parse.isConstantName name) (hx : x.kind ≠ .arrow)
      (hlocation : Optionally IsLocWord (IsLocation fits) (x :: ys) location zs) :
      IsOperation xs es zs
  | general {x : Lexeme} {xs xs₁ xs₂ xs₃ xs₄ ys : List Lexeme} {name : String}
      {types : List String} {es block late : List Entry} {location : Option String}
      (hhead : IsHead fits xs (name, es) (x :: xs₁))
      (hname : Parse.isConstantName name → x.kind = .arrow)
      (htypes : MayHaveTypes .arrow (x :: xs₁) types xs₂) (hblock : IsBlock fits xs₂ block xs₃)
      (hlate : MayHaveDictionary fits xs₃ late xs₄)
      (hlocation : Optionally IsLocWord (IsLocation fits) xs₄ location ys) :
      IsOperation xs (es ++ (block ++ late)) ys

/-! ## Functions and modules -/

/-- A parameter of a function. -/
inductive IsParameter : Phrase (List Entry) where
  | intro {x y : Lexeme} {xs xs₁ xs₂ ys : List Lexeme} {type : String} {es : List Entry}
      {location : Option String} (hx : x.kind = .valueId) (hy : y.kind = .colon)
      (htype : IsType xs type xs₁) (hentries : MayHaveDictionary fits xs₁ es xs₂)
      (hlocation : Optionally IsLocWord (IsLocation fits) xs₂ location ys) :
      IsParameter (x :: y :: xs) es ys

/-- A result of a function. -/
inductive IsResult : Phrase (List Entry) where
  | intro {xs xs₁ ys : List Lexeme} {type : String} {es : List Entry}
      (htype : IsType xs type xs₁) (hentries : MayHaveDictionary fits xs₁ es ys) :
      IsResult xs es ys

/-- Results in parentheses, or one type without entries. -/
inductive AreResults : Phrase (List (List Entry)) where
  | enclosed {xs ys : List Lexeme} {ess : List (List Entry)}
      (h : Enclosed (IsResult fits) xs ess ys) : AreResults xs ess ys
  | bare {x : Lexeme} {xs ys : List Lexeme} {type : String} (hx : x.kind ≠ .lparen)
      (h : IsType (x :: xs) type ys) : AreResults (x :: xs) [[]] ys

/-- The operations of a body in braces. -/
inductive IsBody : Phrase (List (List Entry)) where
  | intro {x y : Lexeme} {xs ys : List Lexeme} {ess : List (List Entry)} (hx : x.kind = .lbrace)
      (h : Until [.rbrace, .eof] (IsOperation fits) xs ess (y :: ys)) (hy : y.kind = .rbrace) :
      IsBody (x :: xs) ess ys

/-- A function. -/
inductive IsFunction : Phrase FunctionEntries where
  | intro {x y : Lexeme} {xs xs₁ xs₂ xs₃ xs₄ xs₅ ys : List Lexeme} {visibility : Option String}
      {parameters : List (List Entry)} {early late : List Entry}
      {results operations : Option (List (List Entry))} (hx : x.kind = .keyword)
      (hvisibility : Optionally IsVisibility (IsText .identifier) xs visibility (y :: xs₁))
      (hy : y.kind = .symbolRefId) (hparameters : Enclosed (IsParameter fits) xs₁ parameters xs₂)
      (hearly : MayHaveClause fits xs₂ early xs₃)
      (hresults : Optionally (·.kind = .arrow) (After .arrow (AreResults fits)) xs₃ results xs₄)
      (hlate : MayHaveClause fits xs₄ late xs₅)
      (hbody : Optionally (·.kind = .lbrace) (IsBody fits) xs₅ operations ys) :
      IsFunction (x :: xs) ⟨parameters, early, results.getD [], late, operations.getD []⟩ ys

/-- A function where the lookahead is a keyword that ends in `func`, else an operation. -/
inductive IsItem : Phrase ItemEntries where
  | function {x : Lexeme} {xs ys : List Lexeme} {f : FunctionEntries}
      (hx : x.token.startsFunction) (h : IsFunction fits (x :: xs) f ys) :
      IsItem (x :: xs) (.function f) ys
  | operation {x : Lexeme} {xs ys : List Lexeme} {es : List Entry}
      (hx : ¬ x.token.startsFunction) (h : IsOperation fits (x :: xs) es ys) :
      IsItem (x :: xs) (.operation es) ys

/-- A whole run of lexemes that is a module with the end of the text behind it. -/
inductive IsModule : List Lexeme → ModuleEntries → Prop where
  | intro {x o c e : Lexeme} {xs xs₁ ys : List Lexeme} {name : Option String}
      {own : List Entry} {items : List ItemEntries}
      (hx : x.kind = .keyword) (htext : x.token.hasText "module")
      (hname : Optionally (·.kind = .symbolRefId) (IsText .symbolRefId) xs name xs₁)
      (hown : MayHaveClause fits xs₁ own (o :: ys)) (ho : o.kind = .lbrace)
      (hitems : Until [.rbrace, .eof] (IsItem fits) ys items [c, e]) (hc : c.kind = .rbrace)
      (he : e.kind = .eof) : IsModule (x :: xs) ⟨own, items⟩

end Phrases

/-! ## Entries in the order of the source -/

section Order

variable {fits : Nat → Prop} {x : Lexeme} {xs ys zs : List Lexeme} {e : Entry}
  {es more : List Entry}

/-- An entry leaves the end of the run. -/
theorem IsEntry.suffix (h : IsEntry fits xs e ys) : ys <:+ xs := by
  cases h with
  | alone _ _ => exact List.suffix_cons _ _
  | valued _ _ h =>
      rw [← h.append_eq]
      exact (List.suffix_append _ _).trans ((List.suffix_cons _ _).trans (List.suffix_cons _ _))

/-- The lexemes of an entry stand in front of what it leaves. -/
theorem IsEntry.sublist (h : IsEntry fits xs e ys) : (e.lexemes ++ ys).Sublist xs := by
  cases h with
  | alone _ _ => exact .refl _
  | valued _ _ h =>
      rw [← h.append_eq]
      exact .cons_cons _ (.cons _ (.refl _))

/-- Entries that are read one behind the other, whatever stands between them. -/
inductive Holds (fits : Nat → Prop) : Phrase (List Entry) where
  | none {xs ys : List Lexeme} (h : ys <:+ xs) : Holds fits xs [] ys
  | entry {xs ws ys zs : List Lexeme} {e : Entry} {es : List Entry} (hws : ws <:+ xs)
      (h : IsEntry fits ws e ys) (hrest : Holds fits ys es zs) : Holds fits xs (e :: es) zs

namespace Holds

/-- Entries behind a part without entries. -/
theorem behind (h : Holds fits ys es zs) (hys : ys <:+ xs) : Holds fits xs es zs := by
  cases h with
  | none hzs => exact .none (hzs.trans hys)
  | entry hws h hrest => exact .entry (hws.trans hys) h hrest

/-- Entries behind a lexeme. -/
theorem cons (h : Holds fits xs es ys) : Holds fits (x :: xs) es ys :=
  h.behind (List.suffix_cons x xs)

/-- Entries behind entries. -/
theorem append (h : Holds fits xs es ys) (hmore : Holds fits ys more zs) :
    Holds fits xs (es ++ more) zs := by
  induction h with
  | none hys => exact hmore.behind hys
  | entry hws h _ ih => exact .entry hws h (ih hmore)

/-- Entries before a part without entries. -/
theorem before (h : Holds fits xs es ys) (hzs : zs <:+ ys) : Holds fits xs es zs := by
  have happend := h.append (.none hzs)
  rwa [List.append_nil] at happend

/-- The lexemes of the entries stand in their order, no two entries over one lexeme. -/
theorem sublist (h : Holds fits xs es ys) : (es.flatMap Entry.lexemes ++ ys).Sublist xs := by
  induction h with
  | none hys => exact hys.sublist
  | entry hws h _ ih =>
      rw [List.flatMap_cons, List.append_assoc]
      exact ((ih.append_left _).trans h.sublist).trans hws.sublist

/-- Every one of the entries is read somewhere. -/
theorem readWithin (h : Holds fits xs es ys) :
    ∀ e ∈ es, Grammar.ReadWithin (IsEntry fits) xs e := by
  induction h with
  | none _ => exact nofun
  | entry hws h _ ih =>
      refine List.forall_mem_cons.mpr ⟨⟨_, _, hws, h⟩, fun e he => ?_⟩
      exact (ih e he).of_suffix (h.suffix.trans hws)

end Holds

/-- A phrase whose entries are held, in order, by the lexemes that it takes. -/
abbrev HoldsAll {α : Type} (fits : Nat → Prop) (part : Phrase α) (entries : α → List Entry) :
    Prop := ∀ xs a ys, part xs a ys → Holds fits xs (entries a) ys

end Order

section Lists

variable {α : Type} {fits : Nat → Prop} {part : Phrase α} {entries : α → List Entry}
  {xs ys : List Lexeme}

/-- Items up to some kinds of lookahead. -/
theorem holds_until {stops : List TokenKind} {as : List α} (h : Until stops part xs as ys)
    (hpart : HoldsAll fits part entries) : Holds fits xs (as.flatMap entries) ys := by
  induction h with
  | done _ => exact .none List.suffix_rfl
  | more _ h _ ih => exact (hpart _ _ _ h).append ih

/-- Items up to a closing bracket. -/
theorem holds_closed {close : TokenKind} {as : List α} (h : Closed close part xs as ys)
    (hpart : HoldsAll fits part entries) : Holds fits xs (as.flatMap entries) ys := by
  induction h with
  | empty _ => exact .none List.suffix_rfl
  | last _ h _ =>
      rw [List.flatMap_singleton]
      exact hpart _ _ _ h
  | more _ h _ _ ih => exact (hpart _ _ _ h).append ih.cons

/-- Items in parentheses. -/
theorem holds_enclosed {as : List α} (h : Enclosed part xs as ys)
    (hpart : HoldsAll fits part entries) : Holds fits xs (as.flatMap entries) ys := by
  cases h with
  | intro _ h _ => exact ((holds_closed h hpart).before (List.suffix_cons _ _)).cons

end Lists

section Productions

variable {fits : Nat → Prop} {xs ys : List Lexeme}

/-- An entry. -/
theorem IsEntry.holds {e : Entry} (h : IsEntry fits xs e ys) : Holds fits xs [e] ys :=
  .entry List.suffix_rfl h (.none List.suffix_rfl)

/-- An entry with the commas behind it. -/
theorem IsSeparatedEntry.holds {e : Entry} (h : IsSeparatedEntry fits xs e ys) :
    Holds fits xs [e] ys := by
  cases h with
  | intro h hcommas => exact h.holds.before hcommas.suffix

/-- A dictionary. -/
theorem IsDictionary.holds {es : List Entry} (h : IsDictionary fits xs es ys) :
    Holds fits xs es ys := by
  cases h with
  | intro _ h _ =>
      have hes := holds_until h fun _ _ _ => IsSeparatedEntry.holds
      rw [List.flatMap_singleton'] at hes
      exact (hes.before (List.suffix_cons _ _)).cons

/-- A dictionary that may be missing. -/
theorem MayHaveDictionary.holds {es : List Entry} (h : MayHaveDictionary fits xs es ys) :
    Holds fits xs es ys := by
  obtain ⟨h⟩ := h
  cases h with
  | present _ h => exact h.holds
  | missing _ => exact .none List.suffix_rfl

/-- A dictionary behind its word. -/
theorem MayHaveClause.holds {es : List Entry} (h : MayHaveClause fits xs es ys) :
    Holds fits xs es ys := by
  cases h with
  | present _ h => exact h.holds.cons
  | missing _ => exact .none List.suffix_rfl

/-- A block after the signature. -/
theorem IsBlock.holds {es : List Entry} (h : IsBlock fits xs es ys) : Holds fits xs es ys := by
  cases h with
  | dictionary _ _ h => exact h.holds
  | body _ _ h => exact .none h.suffix
  | missing _ => exact .none List.suffix_rfl

/-- An operation up to the types of its operands. -/
theorem IsHead.holds {head : String × List Entry} (h : IsHead fits xs head ys) :
    Holds fits xs head.2 ys := by
  cases h with
  | intro houtputs hname hcallee hinputs hregions hentries htypes =>
      have hfront := hname.suffix.trans houtputs.suffix
      have hoperands := (hinputs.suffix.trans (hcallee.suffix IsText.suffix)).trans hfront
      have hgroup := (hregions.suffix IsCaptured.suffix).trans hoperands
      exact (hentries.holds.before htypes.suffix).behind hgroup

/-- An operation. -/
theorem IsOperation.holds {es : List Entry} (h : IsOperation fits xs es ys) :
    Holds fits xs es ys := by
  cases h with
  | constant hhead _ _ hlocation => exact hhead.holds.before (hlocation.suffix IsLocation.suffix)
  | general hhead _ htypes hblock hlate hlocation =>
      have hlater := hlate.holds.before (hlocation.suffix IsLocation.suffix)
      exact (hhead.holds.before htypes.suffix).append (hblock.holds.append hlater)

/-- A parameter. -/
theorem IsParameter.holds {es : List Entry} (h : IsParameter fits xs es ys) :
    Holds fits xs es ys := by
  cases h with
  | intro _ _ htype hentries hlocation =>
      exact ((hentries.holds.before (hlocation.suffix IsLocation.suffix)).behind
        htype.suffix).cons.cons

/-- A result. -/
theorem IsResult.holds {es : List Entry} (h : IsResult fits xs es ys) : Holds fits xs es ys := by
  cases h with
  | intro htype hentries => exact hentries.holds.behind htype.suffix

/-- Results. -/
theorem AreResults.holds {ess : List (List Entry)} (h : AreResults fits xs ess ys) :
    Holds fits xs ess.flatten ys := by
  cases h with
  | enclosed h =>
      rw [← List.flatMap_id]
      exact holds_enclosed h fun _ _ _ => IsResult.holds
  | bare _ h => exact .none h.suffix

/-- Results behind their arrow. -/
theorem holds_resultsClause {ess : Option (List (List Entry))}
    (h : Optionally (·.kind = .arrow) (After .arrow (AreResults fits)) xs ess ys) :
    Holds fits xs (ess.getD []).flatten ys := by
  cases h with
  | present _ h =>
      obtain ⟨_, h⟩ := h
      exact h.holds.cons
  | missing _ => exact .none List.suffix_rfl

/-- The body of a function that may be missing. -/
theorem holds_functionBody {ess : Option (List (List Entry))}
    (h : Optionally (·.kind = .lbrace) (IsBody fits) xs ess ys) :
    Holds fits xs (ess.getD []).flatten ys := by
  cases h with
  | present _ h =>
      obtain ⟨_, h, _⟩ := h
      have hess := holds_until h fun _ _ _ => IsOperation.holds
      rw [List.flatMap_id'] at hess
      exact (hess.before (List.suffix_cons _ _)).cons
  | missing _ => exact .none List.suffix_rfl

/-- A function. -/
theorem IsFunction.holds {f : FunctionEntries} (h : IsFunction fits xs f ys) :
    Holds fits xs f.all ys := by
  cases h with
  | intro _ hvisibility _ hparameters hearly hresults hlate hbody =>
      have hfront := (List.suffix_cons _ _).trans (hvisibility.suffix IsText.suffix)
      have hess := (holds_enclosed hparameters fun _ _ _ => IsParameter.holds).behind hfront
      rw [List.flatMap_id'] at hess
      exact (hess.append (hearly.holds.append ((holds_resultsClause hresults).append
        (hlate.holds.append (holds_functionBody hbody))))).cons

/-- An item of a module. -/
theorem IsItem.holds {item : ItemEntries} (h : IsItem fits xs item ys) :
    Holds fits xs item.all ys := by
  cases h with
  | function _ h => exact h.holds
  | operation _ h => exact h.holds

/-- A module holds all its entries in the order of the source. -/
theorem IsModule.holds {m : ModuleEntries} (h : IsModule fits xs m) : Holds fits xs m.all [] := by
  cases h with
  | intro _ _ hname hown _ hitems _ _ =>
      have hitems := (holds_until hitems fun _ _ _ => IsItem.holds).before List.nil_suffix
      exact ((hown.holds.append hitems.cons).behind (hname.suffix IsText.suffix)).cons

/-- The lexemes of a module hold those of all its entries in the order of the source, no two
entries over one lexeme. -/
theorem IsModule.sublist {m : ModuleEntries} (h : IsModule fits xs m) :
    (m.all.flatMap Entry.lexemes).Sublist xs := by
  have hsublist := h.holds.sublist
  rwa [List.append_nil] at hsublist

end Productions

end Outline

end GenericIR
