import GenericIR.Source.Place
import GenericIR.Source.Line
import GenericIR.Text.Integer
import GenericIR.Text.WhiteSpace
import GenericIR.Text.Number
import GenericIR.Binary64.Basic
import GenericIR.Binary64.Decimal
import GenericIR.Binary64.Reading
import GenericIR.Binary64.Shortest
import GenericIR.Binary64.Text
import GenericIR.Limits
import GenericIR.Token.Kind
import GenericIR.Token.Basic
import GenericIR.Diagnostic
import GenericIR.Scan.Basic
import GenericIR.Scan.Blank
import GenericIR.Scan.Quoted
import GenericIR.Scan.Numeral
import GenericIR.Scan.Word
import GenericIR.Scan.Reference
import GenericIR.Scan.Token
import GenericIR.Lexer
import GenericIR.Graph.Attribute
import GenericIR.Graph.Basic
import GenericIR.Json.Basic
import GenericIR.Json.Graph
import GenericIR.Json.Limits
import GenericIR.Grammar.Parser
import GenericIR.Grammar.Repeat
import GenericIR.Grammar.Capture
import GenericIR.Grammar.Type
import GenericIR.Grammar.Attribute
import GenericIR.Grammar.Operation
import GenericIR.Grammar.Function
import GenericIR.Grammar.Module
import GenericIR.Proofs.Reading
import GenericIR.Proofs.Composition
import GenericIR.Proofs.Progress
import GenericIR.Proofs.Derivation
import GenericIR.Proofs.Recognition.Outcome
import GenericIR.Proofs.Recognition.Repeat
import GenericIR.Proofs.Recognition.Attribute
import GenericIR.Proofs.Recognition.Operation
import GenericIR.Proofs.Recognition.Module
import GenericIR.Proofs.Locality
import GenericIR.Proofs.Spelling
import GenericIR.Proofs.Layout.Relaid
import GenericIR.Proofs.Layout.Agreement
import GenericIR.Proofs.Layout.Grammar
import GenericIR.Proofs.Layout.Module
import GenericIR.Proofs.Generic.Text
import GenericIR.Proofs.Generic.Token
import GenericIR.Proofs.Generic.Piece
import GenericIR.Proofs.Generic.Operation
import GenericIR.Proofs.Generic.RoundTrip
import GenericIR.Proofs.FirstFault
import GenericIR.Proofs.CutOff
import GenericIR.Proofs.Partition.Shape
import GenericIR.Proofs.Partition.Tokens
import GenericIR.Proofs.Bytes.Checked
import GenericIR.Proofs.Bytes.Source
import GenericIR.Proofs.Bytes.Lexer
import GenericIR.Proofs.Bytes.Step
import GenericIR.Proofs.Bytes.Reading
import GenericIR.Proofs.Bytes.Parser
import GenericIR.Proofs.Bytes.Written
import GenericIR.Proofs.Bytes.Mirror
import GenericIR.Proofs.Bytes.Parsing
import GenericIR.Proofs.Brackets.Nesting
import GenericIR.Proofs.Brackets.Steps
import GenericIR.Proofs.Brackets.Grammar
import GenericIR.Proofs.Brackets.Balance
import GenericIR.Proofs.Remainder
import GenericIR.Proofs.Joined.Copy
import GenericIR.Proofs.Joined.Phrase
import GenericIR.Proofs.Joined.Operation
import GenericIR.Proofs.WellFormed.Token
import GenericIR.Proofs.WellFormed.Source
import GenericIR.Proofs.Joined.Reading
import GenericIR.Proofs.Joined.Functions
import GenericIR.Proofs.Joined.Operations
import GenericIR.Proofs.WellFormed.Graph
import GenericIR.Proofs.Limits.Token
import GenericIR.Proofs.Limits.Accepted
import GenericIR.Proofs.Cursor.Place
import GenericIR.Proofs.Cursor.Reachable
import GenericIR.Proofs.Cursor.Faults
import GenericIR.Proofs.Cursor.Lockstep
import GenericIR.Proofs.Cursor.Skipped
import GenericIR.Proofs.Cursor.Relocated
import GenericIR.Proofs.Cursor.Afresh
import GenericIR.Proofs.Joined.Lowered
import GenericIR.Proofs.Joined.Tokens
import GenericIR.Proofs.Diagnostics.Line
import GenericIR.Proofs.Diagnostics.Pointing
import GenericIR.Proofs.Diagnostics.Located
import GenericIR.Proofs.Spaced.Alone
import GenericIR.Proofs.Spaced.Before
import GenericIR.Proofs.Spaced.Front
import GenericIR.Proofs.Spaced.Text
import GenericIR.Proofs.Captures.Count
import GenericIR.Proofs.Captures.Verbatim
import GenericIR.Proofs.Json.Written
import GenericIR.Proofs.Json.Number
import GenericIR.Proofs.Binary64.Interval
import GenericIR.Proofs.Binary64.Text
import GenericIR.Proofs.Json.Graph
import GenericIR.Proofs.Trailing.Operation
import GenericIR.Proofs.Trailing.Reading
import GenericIR.Proofs.Trailing.Hole
import GenericIR.Proofs.Trailing.Unique
import GenericIR.Proofs.Trailing.Refusal
import GenericIR.Proofs.Trailing.Location
import GenericIR.Proofs.Quoted.Paths
import GenericIR.Proofs.Values.Normal
import GenericIR.Proofs.Tokens.Integer
import GenericIR.Proofs.Tokens.Symbol
import GenericIR.Proofs.Tokens.Word
import GenericIR.Proofs.Tokens.Float
import GenericIR.Proofs.Cursor.Progress
import GenericIR.Proofs.Peek
import GenericIR.Proofs.Invariant
import GenericIR.Proofs.Diagnostics.Caret
import GenericIR.Proofs.Limits.Refused
