/-
# Blanks and comments

Between two tokens there may be blank characters, comments that run to the end of their
line, and comments between `/*` and `*/`, which do not nest.  A comment of the second kind
that is never closed takes the rest of the text.

* `gap_isPrefix` : the gap is the front of the text it was found in.
-/
import GenericIR.Scan.Basic

namespace GenericIR

/-- Blank characters: space, tab, line feed, carriage return and form feed. -/
def isBlank (c : Char) : Bool :=
  c == ' ' || c == '\t' || c == '\n' || c == '\r' || c == '\x0c'

/-- Where a gap stands: between comments, or in a comment of either kind. -/
inductive GapState where
  | between
  | line
  | block
deriving DecidableEq, Repr

/-- The rest of a gap from a state on. -/
def gapFrom : GapState → List Char → List Char
  | .between, '/' :: '/' :: rest => '/' :: '/' :: gapFrom .line rest
  | .between, '/' :: '*' :: rest => '/' :: '*' :: gapFrom .block rest
  | .between, c :: rest => if isBlank c then c :: gapFrom .between rest else []
  | .line, c :: rest => c :: gapFrom (if c = '\n' then .between else .line) rest
  | .block, '*' :: '/' :: rest => '*' :: '/' :: gapFrom .between rest
  | .block, c :: rest => c :: gapFrom .block rest
  | _, [] => []

/-- The blanks and comments at the front of a text. -/
def gap (text : List Char) : List Char := gapFrom .between text

/-- What is left of a gap is the front of the text it was found in. -/
theorem gapFrom_isPrefix (state : GapState) (text : List Char) :
    gapFrom state text <+: text := by
  fun_induction gapFrom state text with
  | case1 rest ih => simpa using ih
  | case2 rest ih => simpa using ih
  | case3 c rest _ _ hc ih => simpa using ih
  | case4 c rest _ _ hc => exact List.nil_prefix
  | case5 c rest ih => simpa using ih
  | case6 rest ih => simpa using ih
  | case7 c rest _ ih => simpa using ih
  | case8 => exact List.nil_prefix

/-- The gap is the front of the text it was found in. -/
theorem gap_isPrefix (text : List Char) : gap text <+: text := gapFrom_isPrefix _ _

end GenericIR
