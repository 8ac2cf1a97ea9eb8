/-
# Kinds of tokens

The closed set of token kinds, their names in messages, and the three classes of kinds that
the grammar asks about: scalar literals, opening brackets and closing brackets.
-/

namespace GenericIR

/-- The kind of a token. -/
inductive TokenKind where
  | identifier
  | booleanLiteral
  | integerLiteral
  | hexadecimalLiteral
  | floatLiteral
  | stringLiteral
  | symbolRefId
  | type
  | dense
  | valueId
  | caretId
  | colon
  | doubleColon
  | comma
  | equal
  | equalEqual
  | lparen
  | rparen
  | arrow
  | lbracket
  | rbracket
  | lbrace
  | rbrace
  | lessThan
  | greaterThan
  | keyword
  | eof
deriving DecidableEq, Repr

namespace TokenKind

/-! ## Names -/

/-- The upper-case name of a kind in messages. -/
def name : TokenKind → String
  | identifier => "IDENTIFIER"
  | booleanLiteral => "BOOLEAN_LITERAL"
  | integerLiteral => "INTEGER_LITERAL"
  | hexadecimalLiteral => "HEXADECIMAL_LITERAL"
  | floatLiteral => "FLOAT_LITERAL"
  | stringLiteral => "STRING_LITERAL"
  | symbolRefId => "SYMBOL_REF_ID"
  | type => "TYPE"
  | dense => "DENSE"
  | valueId => "VALUE_ID"
  | caretId => "CARET_ID"
  | colon => "COLON"
  | doubleColon => "DOUBLE_COLON"
  | comma => "COMMA"
  | equal => "EQUAL"
  | equalEqual => "EQUAL_EQUAL"
  | lparen => "LPAREN"
  | rparen => "RPAREN"
  | arrow => "ARROW"
  | lbracket => "LBRACKET"
  | rbracket => "RBRACKET"
  | lbrace => "LBRACE"
  | rbrace => "RBRACE"
  | lessThan => "LESS_THAN"
  | greaterThan => "GREATER_THAN"
  | keyword => "KEYWORD"
  | eof => "EOF"

/-- Every kind, in the order of the type. -/
def all : List TokenKind :=
  [identifier, booleanLiteral, integerLiteral, hexadecimalLiteral, floatLiteral,
    stringLiteral, symbolRefId, type, dense, valueId, caretId, colon, doubleColon, comma,
    equal, equalEqual, lparen, rparen, arrow, lbracket, rbracket, lbrace, rbrace, lessThan,
    greaterThan, keyword, eof]

/-- The kind with a given name. -/
def ofName? (text : String) : Option TokenKind := all.find? fun k => k.name == text

/-- Every kind is found by its name. -/
theorem ofName?_name (k : TokenKind) : ofName? k.name = some k := by
  cases k <;> decide +kernel

/-! ## Classes of kinds -/

/-- Literals whose value is decoded when they are read, strings apart. -/
def isScalarLiteral : TokenKind → Bool
  | booleanLiteral | integerLiteral | hexadecimalLiteral | floatLiteral => true
  | _ => false

/-- Brackets that open a level of nesting. -/
def isOpenBracket : TokenKind → Bool
  | lparen | lbracket | lbrace => true
  | _ => false

/-- Brackets that close a level of nesting. -/
def isCloseBracket : TokenKind → Bool
  | rparen | rbracket | rbrace => true
  | _ => false

/-- No bracket both opens and closes a level. -/
theorem not_isCloseBracket_of_isOpenBracket {k : TokenKind} (h : k.isOpenBracket) :
    ¬ k.isCloseBracket := by
  revert h
  cases k <;> decide

end TokenKind

end GenericIR
