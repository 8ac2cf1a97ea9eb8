/-
# The round trip of generic forms

A module that is written in generic form parses to one function with exactly the operations
that were written: every line is read back as its operation, and ends where the next line
begins.

* `Graph.parse_genericModule` : the round trip, for any operations and any limits.
-/
import GenericIR.Proofs.Generic.Operation
import GenericIR.Proofs.Recognition.Module

namespace GenericIR

variable {limits : Limits} {fits : Nat → Prop}

/-! ## Bodies -/

/-- A body goes on with no token. -/
theorem stops_lines (ops : List (GenericForm limits)) {rest : List Char} (h : Stops rest) :
    Stops ((ops.flatMap fun op => '\n' :: op.text) ++ rest) := by
  cases ops with
  | nil => exact h
  | cons op ops => exact .cons (by decide) _

/-- The lines of a body, one operation after the other. -/
theorem exists_piece_lines (ops : List (GenericForm limits)) :
    ∃ cs, Piece limits (Grammar.Until [.rbrace, .eof] (Grammar.IsOperation fits)) (· = .rbrace)
      (ops.flatMap fun op => '\n' :: op.text) (ops.map GenericForm.operation) cs ∧
      ∀ ds, headKind ds = .rbrace →
        headKind (cs ++ ds) ≠ .lbrace ∧ headKind (cs ++ ds) ≠ .keyword := by
  induction ops with
  | nil =>
      refine ⟨[], .nil fun x xs hx => .done (by rw [hx]; decide), fun ds hds => ?_⟩
      rw [List.nil_append, hds]
      decide
  | cons op ops ih =>
      obtain ⟨ds, hds, hnext⟩ := ih
      obtain ⟨cs, hcs, hstarts⟩ := @writable_operation _ fits op ['\n'] (.blank (by decide) .nil)
      have hline := hcs.starting (fun k => k = .valueId ∨ k = .stringLiteral) hstarts
      have hboth := hline.andThen hds (fun _ h => stops_lines ops h) hnext
      refine ⟨cs ++ ds, .congr (hboth.map (fun _ h => h) ?_) rfl, fun es _ => ?_⟩
      · rintro _ y ys ⟨_, ⟨x, xs, rfl, hx, hop⟩, hrest⟩ _
        refine .more ?_ hop hrest
        rcases hx with hx | hx <;> rw [hx] <;> decide
      · rw [List.append_assoc]
        rcases hstarts (ds ++ es) with h | h <;> rw [h] <;> decide

/-! ## The function and the module -/

/-- The symbol of the function is one token. -/
theorem scanToken_symbol : ∃ d u, "@f".toList = d :: u ∧ ¬ isBlank d ∧ d ≠ '/' ∧
    scanToken limits d u = ⟨"@f".toList, .ok (.symbolRefId, .text "@f")⟩ := by
  have hrest : ∀ rest, ['f'].dropWhile isIdChar ≠ ':' :: ':' :: rest := by
    intro rest h
    have hnil : ['f'].dropWhile isIdChar = [] := by decide
    rw [hnil] at h
    cases h
  refine ⟨'@', ['f'], rfl, by decide, by decide, ?_⟩
  show reference limits '@' .symbolRefId ['f'] = _
  rw [reference, parts_of_last (by decide) hrest]
  rfl

/-- The text of the function. -/
def functionText (ops : List (GenericForm limits)) : List Char :=
  "func @f() \x7b".toList ++ ((ops.flatMap fun op => '\n' :: op.text) ++ "\n\x7d".toList)

/-- The text of the function is that of its tokens. -/
theorem functionText_eq (ops : List (GenericForm limits)) :
    functionText ops = "func".toList ++ ' ' :: ("@f".toList ++ '(' :: ')' :: ' ' :: '\x7b' ::
      ((ops.flatMap fun op => '\n' :: op.text) ++ ['\n', '\x7d'])) := rfl

/-- The function with its body. -/
theorem writable_function (ops : List (GenericForm limits)) :
    Writable limits (fun xs f ys => ∃ x rest, xs = x :: rest ∧ x.token.startsFunction ∧
        Grammar.IsFunction fits xs f ys) (· = .keyword) (fun _ => True) (functionText ops)
      { Function.named "f" with operations := ops.map GenericForm.operation } := by
  intro g hg
  -- the parts that are written
  have hword : Writable limits (IsToken .keyword "func") (· = .keyword) (fun _ => True)
      "func".toList () :=
    writable_isToken ⟨'f', "unc".toList, rfl, by decide, by decide, rfl⟩
  obtain ⟨cs₁, hfunc, hstarts⟩ := hword g hg
  obtain ⟨cs₂, hsymbol, hsymbols⟩ :=
    writable_isToken (@scanToken_symbol limits) [' '] (.blank (by decide) .nil)
  have hnone : Piece limits (Grammar.Closed .rparen (Grammar.IsParameter fits)) (· = .rparen)
      [] [] [] := .nil fun x xs hx => .empty hx
  have hparameters := hnone.enclosed (c := '(') (d := ')') .nil .nil (by decide) (by decide)
    fun _ => .cons (by decide) _
  obtain ⟨cs₃, hlines, _⟩ := @exists_piece_lines limits fits ops
  have hbody := hlines.enclosed (c := '\x7b') (d := '\x7d') (.blank (c := ' ') (by decide) .nil)
    (.blank (c := '\n') (by decide) .nil) (by decide) (by decide) fun _ => .cons (by decide) _
  -- the parts that are missing
  have hvisibility : Piece limits (Grammar.Optionally Grammar.IsVisibility
      (Grammar.IsText .identifier)) (· = .symbolRefId) [] none [] :=
    .nil fun x xs hx => .missing fun h => by rw [h.1] at hx; cases hx
  have hclause : Piece limits (Grammar.MayHaveClause fits) (· = .lbrace) [] [] [] :=
    .nil fun x xs hx => .missing fun h => by rw [h.1] at hx; cases hx
  have hresults : Piece limits (Grammar.Optionally (·.kind = .arrow)
      (Grammar.After .arrow (Grammar.AreResults fits))) (· = .lbrace) [] none [] :=
    .nil fun x xs hx => .missing (by rw [hx]; nofun)
  -- all of them, from the last to the first
  have h₆ := hclause.andThen hbody (fun _ _ => .cons (by decide) _) fun _ _ => rfl
  have h₅ := hresults.andThen h₆ (fun _ _ => .cons (by decide) _) fun _ _ => rfl
  have h₄ := hclause.andThen h₅ (fun _ _ => .cons (by decide) _) fun _ _ => rfl
  have h₃ := hparameters.andThen h₄ (fun _ _ => .cons (by decide) _) fun _ _ => trivial
  have h₂ := hsymbol.andThen h₃ (fun _ _ => .cons (by decide) _) fun _ _ => trivial
  have h₁ := hvisibility.andThen h₂ (fun _ _ => .cons (by decide) _) fun es _ => by
    rw [List.append_assoc]
    exact hsymbols _
  have hall := hfunc.andThen h₁ (fun _ _ => .cons (by decide) _) fun _ _ => trivial
  refine ⟨_, .congr (hall.map (fun _ h => h) ?_) ?_, fun rest => ?_⟩
  · rintro xs z zs ⟨_, ⟨x, rfl, hx, htext⟩, _, hvisibility, _, ⟨y, rfl, hy, hname⟩, _,
      ⟨_, ⟨l, rfl, hl, _⟩, _, hparameters, r, rfl, hr, _⟩, _, hearly, _, hresults, _, hlate,
      _, ⟨o, rfl, ho, _⟩, _, hops, c, rfl, hc, _⟩ _
    have hfunction := Grammar.IsFunction.intro hx hvisibility hy (.intro hl hparameters hr) hearly
      hresults hlate (.present ho (.intro ho hops hc))
    rw [Lexeme.valueText, hname] at hfunction
    refine ⟨x, _, rfl, ?_, hfunction⟩
    have hkind : x.token.kind = .keyword := hx
    rw [Token.startsFunction, hkind, htext]
    decide
  · rw [functionText_eq]
    simp only [List.append_assoc, List.cons_append, List.nil_append]
  · rw [List.append_assoc]
    exact hstarts _

/-- The text of the module is that of its tokens. -/
theorem toList_genericModule (ops : List (GenericForm limits)) :
    (genericModule ops).toList = "module".toList ++ ' ' :: '\x7b' :: ' ' ::
      (functionText ops ++ [' ', '\x7d']) := by
  have hfunction : functionText ops ++ [' ', '\x7d'] = "func".toList ++ ' ' :: ("@f".toList ++
      '(' :: ')' :: ' ' :: '\x7b' :: ((ops.flatMap fun op => '\n' :: op.text) ++
        ['\n', '\x7d', ' ', '\x7d'])) := by
    rw [functionText_eq]
    simp only [List.append_assoc, List.cons_append, List.nil_append]
  rw [hfunction]
  exact String.toList_ofList

/-- The module around the function. -/
theorem exists_piece_module (ops : List (GenericForm limits)) :
    ∃ cs, Piece limits (Grammar.IsModuleText fits) (fun _ => True) (genericModule ops).toList
      ⟨none, [{ Function.named "f" with operations := ops.map GenericForm.operation }], [],
        .empty⟩ cs := by
  -- the parts that are written
  have hword : Writable limits (IsToken .keyword "module") (· = .keyword) (fun _ => True)
      "module".toList () :=
    writable_isToken ⟨'m', "odule".toList, rfl, by decide, by decide, rfl⟩
  obtain ⟨cs₁, hmodule, _⟩ := hword [] .nil
  obtain ⟨cs₂, hfunction, _⟩ := @writable_function limits fits ops [' '] (.blank (by decide) .nil)
  have hitems : Piece limits (Grammar.Until [.rbrace, .eof] (Grammar.IsItem fits)) (· = .rbrace)
      ([' '] ++ functionText ops)
      [.function { Function.named "f" with operations := ops.map GenericForm.operation }] cs₂ := by
    refine hfunction.map (fun _ _ => trivial) ?_
    rintro _ y ys ⟨x, xs, rfl, hx, h⟩ hy
    refine .more ?_ (.function hx h) (.done (by rw [hy]; decide))
    intro hmem
    rw [Token.startsFunction, Bool.and_eq_true, beq_iff_eq] at hx
    rw [Lexeme.kind, hx.1] at hmem
    revert hmem
    decide
  have hbody := hitems.enclosed (c := '\x7b') (d := '\x7d') (.blank (c := ' ') (by decide) .nil)
    (.blank (c := ' ') (by decide) .nil) (by decide) (by decide) fun _ => .cons (by decide) _
  -- the parts that are missing
  have hname : Piece limits (Grammar.Optionally (·.kind = .symbolRefId)
      (Grammar.IsText .symbolRefId)) (· = .lbrace) [] none [] :=
    .nil fun x xs hx => .missing (by rw [hx]; nofun)
  have hclause : Piece limits (Grammar.MayHaveClause fits) (· = .lbrace) [] [] [] :=
    .nil fun x xs hx => .missing fun h => by rw [h.1] at hx; cases hx
  -- all of them, from the last to the first
  have h₂ := hclause.andThen hbody (fun _ _ => .cons (by decide) _) fun _ _ => rfl
  have h₁ := hname.andThen h₂ (fun _ _ => .cons (by decide) _) fun _ _ => rfl
  have hall := hmodule.andThen h₁ (fun _ _ => .cons (by decide) _) fun _ _ => trivial
  refine ⟨_, .congr (hall.map (fun _ h => h) ?_) ?_⟩
  · rintro xs z zs ⟨_, ⟨x, rfl, hx, hvalue⟩, _, hname, _, hentries, _, ⟨o, rfl, ho, _⟩, _, hitems,
      c, rfl, hc, _⟩ _
    have htext : x.token.hasText "module" := by
      rw [Token.hasText, hvalue]
      rfl
    exact Grammar.IsModuleText.intro hx htext hname hentries ho hitems hc
  · rw [toList_genericModule]
    simp only [List.cons_append, List.nil_append]

/-! ## The round trip -/

/-- A module whose operations are written in generic form parses to one function with exactly
these operations. -/
theorem Graph.parse_genericModule (ops : List (GenericForm limits)) :
    Graph.parse limits (genericModule ops) =
      .ok ⟨none, [{ Function.named "f" with operations := ops.map GenericForm.operation }], [],
        .empty⟩ := by
  obtain ⟨cs, hcs⟩ :=
    @exists_piece_module limits (fun d => d ≤ limits.maxNestingDepth) ops
  have hreads := @Lexer.reads_lexemesFrom limits [] rfl .start _ (hcs.readsBack [] .nil)
  rw [hcs.spells, List.append_nil] at hreads
  obtain ⟨q, hq⟩ := hcs.derives [] .start [] trivial
  rw [List.append_nil] at hq
  exact (Graph.parse_iff_isModule hreads (fun _ _ => Iff.rfl) _).mpr (.intro hq rfl)

/-- A line with all its parts parses to its operation. -/
theorem Graph.parse_genericModule_allParts :
    Graph.parse .standard ("module \x7b func @f() \x7b\n" ++
      "%r, $s = \"a \\\"b\\\"\"(%0) \x7bk = -5, u\x7d : (!t) -> (i32, tensor<2x!t>)" ++
      "\n\x7d \x7d") =
      .ok ⟨none, [{ Function.named "f" with operations := [GenericForm.allParts.operation] }], [],
        .empty⟩ :=
  Graph.parse_genericModule [GenericForm.allParts]

end GenericIR
