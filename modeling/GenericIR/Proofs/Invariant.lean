/-
# What every production keeps

A parser goes through a source by going on from one lexeme to the next, and ends with a fault that
going on meets or with one of its own.  So what going on keeps is kept by every production, and
what holds of the faults that going on meets and of those at the lookahead holds of every diagnostic
that a production ends with.  An attribute entry and a capture count brackets, and may end with more
than a fault at the lookahead: what they do is asked for by itself.

* `Parse.Upholds` : steps that keep something, with the rules for steps put together;
* `Parse.Invariant` : what is asked of going on, of a fault, of an entry and of a capture;
* `Parse.Invariant.of_fail` : properties for which any fault at the lookahead is as good as another;
* `Parse.upholds_operation`, `Parse.upholds_function` : one lemma for each production;
* `Graph.exists_of_parse_error` : what holds of the diagnostic that a source ends with.
-/
import GenericIR.Proofs.Peek

namespace GenericIR

/-- The written form of the token that a fault quotes. -/
def Fault.found? : Fault → Option String
  | .unexpectedKind _ found | .unexpectedValue _ found | .unexpectedConstruct _ found => some found
  | _ => none

/-- The brackets of captures: parentheses around region groups and locations, braces around
bodies. -/
inductive IsCapturePair : TokenKind → TokenKind → Prop where
  | parens : IsCapturePair .lparen .rparen
  | braces : IsCapturePair .lbrace .rbrace

/-- The brackets of a capture differ. -/
theorem IsCapturePair.ne {opening closing : TokenKind} (h : IsCapturePair opening closing) :
    opening ≠ closing := by
  cases h <;> decide

/-- No capture starts with the end of the text. -/
theorem IsCapturePair.ne_eof {opening closing : TokenKind} (h : IsCapturePair opening closing) :
    opening ≠ .eof := by
  cases h <;> decide

namespace Parse

/-! ## Steps that keep something -/

/-- Results of a step: a value with a parser that has a property, or a diagnostic that has one. -/
inductive Upheld {α : Type} (I : Parser → Prop) (E : Diagnostic → Prop) :
    EStateM.Result Diagnostic Parser α → Prop where
  | ok {a : α} {q : Parser} (h : I q) : Upheld I E (.ok a q)
  | error {d : Diagnostic} {q : Parser} (h : E d) : Upheld I E (.error d q)

/-- Steps that keep a property of parsers, and else end with a diagnostic that has a property. -/
def Upholds {α : Type} (I : Parser → Prop) (E : Diagnostic → Prop) (m : Parse α) : Prop :=
  ∀ p, I p → Upheld I E (m p)

section

variable {I : Parser → Prop} {E : Diagnostic → Prop}

namespace Upholds

variable {α β : Type}

/-- A value alone. -/
theorem pure (a : α) : Upholds I E (pure a) := fun _ hp => .ok hp

/-- One step after another. -/
theorem bind {m : Parse α} {f : α → Parse β} (hm : Upholds I E m) (hf : ∀ a, Upholds I E (f a)) :
    Upholds I E (m >>= f) := by
  intro p hp
  have hfirst := hm p hp
  rw [bind_apply]
  generalize m p = r at hfirst
  cases hfirst with
  | ok hq => exact hf _ _ hq
  | error hd => exact .error hd

/-- A step in either of two cases. -/
theorem ite {c : Prop} [Decidable c] {m m' : Parse α} (hm : Upholds I E m)
    (hm' : Upholds I E m') : Upholds I E (if c then m else m') := by
  split
  · exact hm
  · exact hm'

/-- Looking at the lookahead. -/
theorem current : Upholds I E current := fun _ hp => .ok hp

/-- Asking for the text skipped behind the lookahead. -/
theorem skipped : Upholds I E skipped := fun _ hp => .ok hp

/-- Asking for the kind of the lookahead. -/
theorem sees (k : TokenKind) : Upholds I E (sees k) := fun _ hp => .ok hp

/-- A list of turns, by induction on the turns. -/
theorem collect {σ : Type} {turn : σ → Parse (Turn σ α)} (h : ∀ s, Upholds I E (turn s)) (s : σ) :
    Upholds I E (collect turn s) := by
  intro p hp
  have hturn := h s p hp
  fun_induction Parse.collect turn s p with
  | case1 s p d q hres =>
      rw [hres] at hturn
      cases hturn with
      | error hd => exact .error hd
  | case2 s p q hres | case3 s p item q hres | case6 s p item next q hres _ =>
      rw [hres] at hturn
      cases hturn with
      | ok hq => exact .ok hq
  | case4 s p item next q hres _ items r hrest ih =>
      rw [hres] at hturn
      cases hturn with
      | ok hq =>
          have hlater := ih hq (h next q hq)
          rw [hrest] at hlater
          cases hlater with
          | ok hr => exact .ok hr
  | case5 s p item next q hres _ d r hrest ih =>
      rw [hres] at hturn
      cases hturn with
      | ok hq =>
          have hlater := ih hq (h next q hq)
          rw [hrest] at hlater
          cases hlater with
          | error hd => exact .error hd

/-- A list up to a lookahead of some kinds. -/
theorem itemsUntil (stops : List TokenKind) {item : Parse α}
    (hitem : Upholds I E item) :
    Upholds I E (itemsUntil stops item) :=
  .collect (fun _ => .bind .current fun _ => .ite (.pure _) (.bind hitem fun _ => .pure _)) _

end Upholds

/-! ## Invariants -/

/-- A property that going on keeps, and a property of the diagnostics that going on meets and of
those that quote the lookahead. -/
structure Steady (I : Parser → Prop) (E : Diagnostic → Prop) : Prop where
  advance : Upholds I E advance
  quoting : ∀ {p : Parser} {fault : Fault}, I p →
    fault.found? = some p.lookahead.token.render → E (.ofFault fault p.lookahead.token.span)

/-- The same for all diagnostics: those that an attribute entry and a capture end with are among
them, which count the brackets they go past. -/
structure Invariant (I : Parser → Prop) (E : Diagnostic → Prop) : Prop extends Steady I E where
  attributeEntry : Upholds I E attributeEntry
  balanced : ∀ {opening closing : TokenKind}, IsCapturePair opening closing →
    ∀ context, Upholds I E (balanced opening closing context)

namespace Steady

variable {α : Type} (h : Steady I E)

include h

/-- Accepting a kind. -/
theorem accept (k : TokenKind) : Upholds I E (accept k) :=
  .bind (.sees k) fun _ => .ite (.bind h.advance fun _ => .pure _) (.pure _)

/-- The lookahead where a production cannot start with it. -/
theorem unexpected (context : String) : Upholds I E (unexpected context : Parse α) :=
  fun _ hp => .error (h.quoting hp rfl)

/-- Asking for a kind. -/
theorem consume (k : TokenKind) : Upholds I E (consume k) := by
  intro p hp
  rw [consume_apply]
  split
  · exact h.advance p hp
  · exact .error (h.quoting hp rfl)

/-- Asking for a kind with a text. -/
theorem consumeText (k : TokenKind) (text : String) : Upholds I E (consumeText k text) := by
  intro p hp
  rw [Parse.consumeText, current_bind_apply]
  split
  · exact .error (h.quoting hp rfl)
  · exact h.consume k p hp

/-- A fault behind the lookahead is one that going on meets. -/
theorem fault_behind {p q : Parser} {d : Diagnostic} (hp : I p) (hfault : FaultBehind p d q) :
    E d := by
  cases hfault with
  | first hfirst =>
      have hadvance := h.advance p hp
      rw [hfirst] at hadvance
      cases hadvance with
      | error hd => exact hd
  | @second x r hfirst _ hsecond =>
      have hadvance := h.advance p hp
      rw [hfirst] at hadvance
      cases hadvance with
      | ok hr =>
          have hnext := h.advance r hr
          rw [hsecond] at hnext
          cases hnext with
          | error hd => exact hd

/-- The peek behind a brace. -/
theorem braceOpensAttributes : Upholds I E braceOpensAttributes := by
  intro p hp
  have hpeeked := peekedAt p
  generalize Parse.braceOpensAttributes p = r at hpeeked
  cases hpeeked with
  | fault hfault => exact .error (h.fault_behind hp hfault)
  | other _ _ => exact .ok hp
  | decided _ _ _ => exact .ok hp

variable {item : Parse α}

/-- A list up to a closing bracket. -/
theorem closedItems (close : TokenKind) (hitem : Upholds I E item) :
    Upholds I E (closedItems close item) :=
  .collect (fun _ => .bind (.sees _) fun _ => .ite (.pure _) <| .bind hitem fun _ =>
    .bind (h.accept _) fun _ => .ite (.pure _) (.pure _)) _

/-- The further items of a list with commas. -/
theorem collect_commaTurn (hitem : Upholds I E item) :
    Upholds I E (collect (commaTurn item) ()) :=
  .collect (fun _ => .bind (h.accept _) fun _ => .ite (.bind hitem fun _ => .pure _) (.pure _)) _

/-- A list of at least one item. -/
theorem openItems (hitem : Upholds I E item) : Upholds I E (openItems item) :=
  .bind hitem fun _ => .bind (h.collect_commaTurn hitem) fun _ => .pure _

/-- Any number of commas. -/
theorem skipCommas : Upholds I E skipCommas :=
  .bind (h.collect_commaTurn (.pure ())) fun _ => .pure _

end Steady

/-- Where any fault at the lookahead has the property, whichever it is, an attribute entry and a
capture need nothing more. -/
theorem Invariant.of_fail (hadvance : Upholds I E advance)
    (hfail : ∀ {p : Parser} {fault : Fault}, I p →
      (∀ text, fault.found? = some text → p.lookahead.token.render = text) →
      E (.ofFault fault p.lookahead.token.span)) : Invariant I E := by
  have h : Steady I E := ⟨hadvance, fun hp hfound => hfail hp fun text htext =>
    Option.some.inj (hfound.symm.trans htext)⟩
  have hunquoted : ∀ {α : Type} {fault : Fault}, fault.found? = none →
      Upholds I E (fail fault : Parse α) := fun hnone p hp => by
    refine .error (hfail hp fun text htext => ?_)
    rw [hnone] at htext
    cases htext
  have hcheck : ∀ depth, Upholds I E (checkDepth depth) := fun depth p hp => by
    unfold checkDepth
    dsimp only
    split
    · exact hunquoted rfl p hp
    · exact .ok hp
  refine { h with attributeEntry := ?_, balanced := fun {opening closing} _ context => ?_ }
  · have hvalue : Upholds I E attributeValue := by
      refine .bind (.collect (fun depth => .bind .current fun t => ?_) _) fun _ => .pure _
      refine .ite (.pure _) <| .ite (hunquoted rfl) <| .ite ?_ <| .ite ?_ ?_
      · exact .bind (hcheck _) fun _ => .bind h.advance fun _ => .pure _
      · exact .ite (hunquoted rfl) (.bind h.advance fun _ => .pure _)
      · exact .bind h.advance fun _ => .pure _
    exact .bind (.sees _) fun _ => .ite
      (.bind h.advance fun _ => .bind (h.accept _) fun _ => .ite
        (.bind hvalue fun _ => .pure _) (.pure _))
      (h.unexpected _)
  · have hturn : ∀ depth, Upholds I E (captureTurn opening closing context depth) := by
      intro depth
      refine .bind (.sees _) fun _ => .ite (hunquoted rfl) <| .bind h.advance fun x => .ite ?_ ?_
      · exact .bind (hcheck _) fun _ => .pure _
      · exact .ite (.ite (.pure _) (.pure _)) (.pure _)
    exact .bind (h.consume _) fun _ => .bind (.collect hturn _) fun _ => .pure _

/-! ## The productions -/

section Productions

variable (h : Invariant I E)

include h

/-! ### Captures and types -/

/-- The text of a capture. -/
theorem upholds_capture {opening closing : TokenKind} (hpair : IsCapturePair opening closing)
    (context : String) : Upholds I E (capture opening closing context) :=
  .bind .skipped fun _ => .bind (h.balanced hpair _) fun _ => .pure _

/-- A location. -/
theorem upholds_location : Upholds I E location :=
  .bind .current fun _ => .ite
    (.bind .skipped fun _ => .bind h.advance fun _ => .bind (.sees _) fun _ => .ite
      (.bind (h.balanced .parens _) fun _ => .pure _) (h.unexpected _))
    (.pure _)

/-- A type that starts with a mark of its own. -/
theorem upholds_dialectType : Upholds I E dialectType :=
  .bind h.advance fun _ => .bind .current fun _ => .ite (.bind h.advance fun _ => .pure _)
    (h.unexpected _)

/-- A type. -/
theorem upholds_type : Upholds I E type :=
  .bind .current fun _ => .ite (.bind h.advance fun _ => .pure _) <|
    .ite (upholds_dialectType h) (h.unexpected _)

/-- A list of types. -/
theorem upholds_typeList : Upholds I E typeList :=
  .bind (h.accept _) fun _ => .ite
    (.bind (h.closedItems _ (upholds_type h)) fun _ => .bind (h.consume _) fun _ => .pure _)
    (h.openItems (upholds_type h))

/-! ### Attributes -/

/-- A dictionary. -/
theorem upholds_attributes (into : Attributes) :
    Upholds I E (attributes into) := by
  refine .bind (h.consume _) fun _ => .bind (.itemsUntil _ ?_) fun _ =>
    .bind (h.consume _) fun _ => .pure _
  exact .bind h.attributeEntry fun _ => .bind h.skipCommas fun _ => .pure _

/-- A dictionary that may be missing. -/
theorem upholds_optionalAttributes (into : Attributes) :
    Upholds I E (optionalAttributes into) :=
  .bind (.sees _) fun _ => .ite (upholds_attributes h into) (.pure _)

/-- A dictionary after its keyword. -/
theorem upholds_attributesClause (into : Attributes) :
    Upholds I E (attributesClause into) :=
  .bind .current fun _ => .ite (.bind h.advance fun _ => upholds_attributes h into) (.pure _)

/-! ### Operations -/

/-- A value that an operation defines. -/
theorem upholds_returnValue : Upholds I E returnValue :=
  .bind (h.consume _) fun _ => .bind (h.accept _) fun _ => .ite
    (.bind (h.consume _) fun _ => .pure _) (.pure _)

/-- The values that an operation defines. -/
theorem upholds_returnValues : Upholds I E returnValues := by
  refine .bind (h.accept _) fun _ => .ite ?_ (.bind (.sees _) fun _ => .ite ?_ (.pure _))
  · exact .bind (h.closedItems _ (upholds_returnValue h)) fun _ =>
      .bind (h.consume _) fun _ => .pure _
  · exact h.openItems (upholds_returnValue h)

/-- The values that an operation defines, with the equals sign behind them. -/
theorem upholds_definitions : Upholds I E definitions :=
  .bind (upholds_returnValues h) fun _ => .ite (.pure _) (.bind (h.consume _) fun _ => .pure _)

/-- The name of an operation. -/
theorem upholds_operationName : Upholds I E operationName :=
  .bind .current fun _ => .ite (.bind h.advance fun _ => .pure _) <| .ite
    (.bind h.advance fun _ => .bind (.sees _) fun _ => .ite (.bind h.advance fun _ => .pure _)
      (.pure _))
    (h.unexpected _)

/-- A callee that may be missing. -/
theorem upholds_callee : Upholds I E callee :=
  .bind (.sees _) fun _ => .ite (.bind h.advance fun _ => .pure _) (.pure _)

/-- One operand after any commas. -/
theorem upholds_operandTurn : Upholds I E operandTurn :=
  .bind h.skipCommas fun _ => .bind .current fun _ => .ite (.pure _) <|
    .ite (.bind h.advance fun _ => .pure _) <| .ite (.bind h.advance fun _ => .pure _) <|
    .ite (.bind h.advance fun _ => .pure _) (h.unexpected _)

/-- The operands. -/
theorem upholds_operands : Upholds I E operands :=
  .bind (h.accept _) fun _ => .bind (.collect (fun _ => upholds_operandTurn h) _) fun _ =>
    .ite (.bind (h.consume _) fun _ => .pure _) (.pure _)

/-- A region group that may be missing. -/
theorem upholds_regionGroup : Upholds I E regionGroup :=
  .bind (.sees _) fun _ => .ite (.bind (upholds_capture h .parens _) fun _ => .pure _) (.pure _)

/-- Types after a mark. -/
theorem upholds_typesAfter (k : TokenKind) : Upholds I E (typesAfter k) :=
  .bind (h.accept _) fun _ => .ite (upholds_typeList h) (.pure _)

/-- A block after the signature. -/
theorem upholds_block (into : Attributes) : Upholds I E (block into) := by
  refine .bind (.sees _) fun _ => .ite (.bind h.braceOpensAttributes fun _ => .ite ?_ ?_) (.pure _)
  · exact .bind (upholds_attributes h into) fun _ => .pure _
  · exact .bind (upholds_capture h .braces _) fun _ => .pure _

/-- An operation up to the types of its operands. -/
theorem upholds_operationHead : Upholds I E operationHead :=
  .bind (upholds_definitions h) fun _ => .bind (upholds_operationName h) fun _ =>
    .bind (upholds_callee h) fun _ => .bind (upholds_operands h) fun _ =>
    .bind (upholds_regionGroup h) fun _ => .bind (upholds_optionalAttributes h _) fun _ =>
    .bind (upholds_typesAfter h _) fun _ => .pure _

/-- What follows the head of a constant. -/
theorem upholds_constantTail (op : Operation) : Upholds I E (constantTail op) :=
  .bind (upholds_location h) fun _ => .pure _

/-- What follows the head of any other operation. -/
theorem upholds_operationTail (op : Operation) :
    Upholds I E (operationTail op) :=
  .bind (upholds_typesAfter h _) fun _ => .bind (upholds_block h _) fun _ =>
    .bind (upholds_optionalAttributes h _) fun _ => .bind (upholds_location h) fun _ => .pure _

/-- An operation. -/
theorem upholds_operation : Upholds I E operation :=
  .bind (upholds_operationHead h) fun op => .bind (.sees _) fun _ =>
    .ite (upholds_constantTail h op) (upholds_operationTail h op)

/-! ### Functions and modules -/

/-- A visibility that may be missing. -/
theorem upholds_visibility : Upholds I E visibility :=
  .bind .current fun _ => .ite (.bind h.advance fun _ => .pure _) (.pure _)

/-- A parameter. -/
theorem upholds_parameter : Upholds I E parameter :=
  .bind (h.consume _) fun _ => .bind (h.consume _) fun _ => .bind (upholds_type h) fun _ =>
    .bind (upholds_optionalAttributes h _) fun _ => .bind (upholds_location h) fun _ => .pure _

/-- The parameters. -/
theorem upholds_parameters : Upholds I E parameters :=
  .bind (h.consume _) fun _ => .bind (h.closedItems _ (upholds_parameter h)) fun _ =>
    .bind (h.consume _) fun _ => .pure _

/-- A result. -/
theorem upholds_result : Upholds I E result :=
  .bind (upholds_type h) fun _ => .bind (upholds_optionalAttributes h _) fun _ => .pure _

/-- The results. -/
theorem upholds_results : Upholds I E results :=
  .bind (h.accept _) fun _ => .ite
    (.bind (h.closedItems _ (upholds_result h)) fun _ =>
      .bind (h.consume _) fun _ => .pure _)
    (.bind (upholds_type h) fun _ => .pure _)

/-- The results after an arrow. -/
theorem upholds_resultsClause : Upholds I E resultsClause :=
  .bind (h.accept _) fun _ => .ite (upholds_results h) (.pure _)

/-- A body that may be missing. -/
theorem upholds_functionBody : Upholds I E functionBody :=
  .bind (h.accept _) fun _ => .ite
    (.bind (.itemsUntil _ (upholds_operation h)) fun _ =>
      .bind (h.consume _) fun _ => .pure _)
    (.pure _)

/-- A function. -/
theorem upholds_function : Upholds I E function :=
  .bind (h.consume _) fun _ => .bind (upholds_visibility h) fun _ => .bind (h.consume _) fun _ =>
    .bind (upholds_parameters h) fun _ => .bind (upholds_attributesClause h _) fun _ =>
    .bind (upholds_resultsClause h) fun _ => .bind (upholds_attributesClause h _) fun _ =>
    .bind (upholds_functionBody h) fun _ => .pure _

/-- An item of a module. -/
theorem upholds_moduleItem : Upholds I E moduleItem :=
  .bind .current fun _ => .ite (.bind (upholds_function h) fun _ => .pure _)
    (.bind (upholds_operation h) fun _ => .pure _)

/-- The name of a module, which may be missing. -/
theorem upholds_moduleName : Upholds I E moduleName :=
  .bind (.sees _) fun _ => .ite (.bind h.advance fun _ => .pure _) (.pure _)

/-- A module up to its closing brace. -/
theorem upholds_moduleText : Upholds I E moduleText :=
  .bind (h.consumeText _ _) fun _ => .bind (upholds_moduleName h) fun _ =>
    .bind (upholds_attributesClause h _) fun _ => .bind (h.consume _) fun _ =>
    .bind (.itemsUntil _ (upholds_moduleItem h)) fun _ => .bind (h.consume _) fun _ =>
    .pure _

/-- A module with nothing behind it. -/
theorem upholds_graph : Upholds I E graph :=
  .bind (upholds_moduleText h) fun _ => .bind (h.consume _) fun _ => .pure _

end Productions

end

end Parse

/-! ## Whole sources -/

/-- The diagnostic that a source ends with has the property of diagnostics, apart from the source
line that is shown with it. -/
theorem Graph.exists_of_parse_error {I : Parser → Prop} {E : Diagnostic → Prop}
    (h : Parse.Invariant I E) {limits : Limits} {source : String} {d : Diagnostic}
    (hstart : ∀ p, Parser.ofSource limits source = .ok p → I p)
    (hfirst : ∀ e, Parser.ofSource limits source = .error e → E e)
    (hparse : Graph.parse limits source = .error d) : ∃ e, E e ∧ d = e.inSource source := by
  unfold Graph.parse at hparse
  cases hp : Parser.ofSource limits source with
  | error e =>
      rw [hp] at hparse
      cases hparse
      exact ⟨e, hfirst e hp, rfl⟩
  | ok p =>
      rw [hp] at hparse
      dsimp only at hparse
      have hgraph := Parse.upholds_graph h p (hstart p hp)
      cases hres : Parse.graph p with
      | ok g q => rw [hres] at hparse; cases hparse
      | error e q =>
          rw [hres] at hparse hgraph
          cases hparse
          cases hgraph with
          | error he => exact ⟨e, he, rfl⟩

end GenericIR
