/-
# The parser and its steps

A parser is a lexer with the one lexeme read ahead of it.  Every production is a `Parse`: it
goes on to the next lexeme where the lookahead is what it asks for, and ends with a
diagnostic at the lookahead where it is not.  A parser outlives a diagnostic: a mismatch
leaves it as it was, and a fault of the lexer leaves the lookahead while the lexer stands
behind the fault, so that some text is skipped between them.

* `Parser.left_of_advance` : going on brings a parser nearer to the end of the text, where
  it was not there yet.
-/
import GenericIR.Lexer

namespace GenericIR

/-! ## Parsers -/

/-- A lexer, the lexeme it read last, and the lexemes that were the lookahead before. -/
structure Parser where
  lexer : Lexer
  lookahead : Lexeme
  /-- The lexemes gone past, the latest first. -/
  passed : List Lexeme
  /-- The text behind the lookahead that readings with a fault have gone over. -/
  skipped : List Char
deriving DecidableEq, Repr

/-- A step of a parser: a value or a diagnostic, and the parser after it. -/
abbrev Parse : Type → Type := EStateM Diagnostic Parser

namespace Parser

/-- A parser at the start of a source, unless its first token has a fault. -/
def ofSource (limits : Limits) (source : String) : Except Diagnostic Parser :=
  match Lexer.next (Lexer.ofSource limits source) with
  | .ok x l => .ok ⟨l, x, [], []⟩
  | .error d _ => .error d

/-- The kind of the lookahead. -/
def kind (p : Parser) : TokenKind := p.lookahead.token.kind

/-- A bound on how many lexemes are left: the characters not read yet, and the lookahead. -/
def left (p : Parser) : Nat := p.lexer.rest.length + if p.kind = .eof then 0 else 1

end Parser

/-! ## Steps -/

namespace Parse

/-- The lookahead, from which the parser goes on to the next lexeme. -/
def advance : Parse Lexeme := fun p =>
  match Lexer.next p.lexer with
  | .ok x l => .ok p.lookahead ⟨l, x, p.lookahead :: p.passed, []⟩
  | .error d l => .error d ⟨l, p.lookahead, p.passed, p.skipped ++ p.lexer.textUpTo l⟩

/-- The token of the lookahead. -/
def current : Parse Token := fun p => .ok p.lookahead.token p

/-- The text that was skipped behind the lookahead. -/
def skipped : Parse (List Char) := fun p => .ok p.skipped p

/-- Whether the lookahead is of a kind. -/
def sees (kind : TokenKind) : Parse Bool := fun p => .ok (decide (p.kind = kind)) p

/-- Ends with a fault at the lookahead. -/
def fail {α : Type} (fault : Fault) : Parse α := fun p =>
  .error (.ofFault fault p.lookahead.token.span) p

/-- Ends with the lookahead as the token that a production cannot start with. -/
def unexpected {α : Type} (context : String) : Parse α := do
  fail (.unexpectedConstruct context (← current).render)

/-- Goes on from a lookahead of a kind. -/
def consume (kind : TokenKind) : Parse Lexeme := do
  let t ← current
  if t.kind = kind then advance else fail (.unexpectedKind kind t.render)

/-- Goes on from a lookahead of a kind that carries a text. -/
def consumeText (kind : TokenKind) (text : String) : Parse Lexeme := do
  let t ← current
  if t.kind = kind ∧ ¬ t.hasText text then fail (.unexpectedValue text t.render)
  else consume kind

/-- Goes on from a lookahead of a kind, if it is of that kind. -/
def accept (kind : TokenKind) : Parse Bool := do
  if ← sees kind then
    let _ ← advance
    return true
  else return false

/-- Ends where a depth of brackets passes the bound. -/
def checkDepth (depth : Nat) : Parse Unit := fun p =>
  let max := p.lexer.limits.maxNestingDepth
  if max < depth then fail (.limitExceeded "bracket nesting depth" max) p else .ok () p

/-! ### Steps at a parser -/

/-- Two steps one after the other, at a parser. -/
theorem bind_apply {α β : Type} (m : Parse α) (f : α → Parse β) (p : Parser) :
    (m >>= f) p = match m p with
      | .ok a q => f a q
      | .error d q => .error d q := by
  show EStateM.bind m f p = _
  unfold EStateM.bind
  cases m p <;> rfl

/-- Looking at the lookahead does not move a parser. -/
theorem current_bind_apply {α : Type} (f : Token → Parse α) (p : Parser) :
    (current >>= f) p = f p.lookahead.token p := rfl

/-- Asking for the text skipped behind the lookahead does not move a parser. -/
theorem skipped_bind_apply {α : Type} (f : List Char → Parse α) (p : Parser) :
    (skipped >>= f) p = f p.skipped p := rfl

/-- Asking for the kind of the lookahead does not move a parser. -/
theorem sees_bind_apply {α : Type} (k : TokenKind) (f : Bool → Parse α) (p : Parser) :
    (sees k >>= f) p = f (decide (p.kind = k)) p := rfl

/-- Asking for a kind goes on from a lookahead of that kind. -/
theorem consume_apply (k : TokenKind) (p : Parser) :
    consume k p = if p.kind = k then advance p
      else fail (.unexpectedKind k p.lookahead.token.render) p := by
  rw [consume, current_bind_apply]
  exact apply_ite (fun step : Parse Lexeme => step p) _ _ _

/-- Accepting a kind goes past it where it is the lookahead. -/
theorem accept_bind {α : Type} (k : TokenKind) (f : Bool → Parse α) :
    accept k >>= f = sees k >>= fun b => if b then advance >>= fun _ => f true else f false := by
  funext p
  rw [bind_apply, accept, sees_bind_apply, sees_bind_apply]
  by_cases hp : p.kind = k
  · simp only [hp, decide_true, if_true, bind_apply]
    cases advance p <;> rfl
  · simp only [hp, decide_false]
    rfl

end Parse

/-! ## Going on -/

namespace Parser

/-- Going on brings a parser nearer to the end of the text, where it was not there yet. -/
theorem left_of_advance (p q : Parser) (x : Lexeme) (h : Parse.advance p = .ok x q)
    (hp : p.kind ≠ .eof) : q.left < p.left := by
  unfold Parse.advance at h
  split at h
  · next y l hnext =>
      cases h
      by_cases hy : y.token.kind = .eof
      · have hle := Lexer.length_rest_le_of_next p.lexer l y hnext
        simp only [left, kind, hy, if_true] at hp ⊢
        simp only [hp, if_false]
        omega
      · have hlt := Lexer.length_rest_of_next p.lexer l y hnext hy
        simp only [left, kind, hy] at hp ⊢
        simp only [hp, if_false]
        omega
  · cases h

end Parser

end GenericIR
