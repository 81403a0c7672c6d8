import Mathlib

/-!
# Tokens

The kinds of tokens in the order of the source's table, positions in a file, and tokens with the
fields that the lexer fills in.
-/

namespace Cangjie

/-- The kinds of tokens. -/
inductive TokenKind where
  | DOT
  | COMMA
  | LPAREN
  | RPAREN
  | LSQUARE
  | RSQUARE
  | LCURL
  | RCURL
  | EXP
  | MUL
  | MOD
  | DIV
  | ADD
  | SUB
  | INCR
  | DECR
  | AND
  | OR
  | COALESCING
  | PIPELINE
  | COMPOSITION
  | NOT
  | BITAND
  | BITOR
  | BITXOR
  | BITNOT
  | LSHIFT
  | RSHIFT
  | COLON
  | SEMI
  | ASSIGN
  | ADD_ASSIGN
  | SUB_ASSIGN
  | MUL_ASSIGN
  | EXP_ASSIGN
  | DIV_ASSIGN
  | MOD_ASSIGN
  | AND_ASSIGN
  | OR_ASSIGN
  | BITAND_ASSIGN
  | BITOR_ASSIGN
  | BITXOR_ASSIGN
  | LSHIFT_ASSIGN
  | RSHIFT_ASSIGN
  | ARROW
  | BACKARROW
  | DOUBLE_ARROW
  | RANGEOP
  | CLOSEDRANGEOP
  | ELLIPSIS
  | HASH
  | AT
  | QUEST
  | LT
  | GT
  | LE
  | GE
  | IS
  | AS
  | NOTEQ
  | EQUAL
  | WILDCARD
  | INT8
  | INT16
  | INT32
  | INT64
  | INTNATIVE
  | UINT8
  | UINT16
  | UINT32
  | UINT64
  | UINTNATIVE
  | FLOAT16
  | FLOAT32
  | FLOAT64
  | RUNE
  | BOOLEAN
  | NOTHING
  | UNIT
  | STRUCT
  | ENUM
  | VARRAY
  | THISTYPE
  | PACKAGE
  | IMPORT
  | CLASS
  | INTERFACE
  | FUNC
  | MACRO
  | QUOTE
  | DOLLAR
  | LET
  | VAR
  | CONST
  | TYPE
  | INIT
  | THIS
  | SUPER
  | IF
  | ELSE
  | CASE
  | TRY
  | CATCH
  | FINALLY
  | FOR
  | DO
  | WHILE
  | THROW
  | RETURN
  | CONTINUE
  | BREAK
  | IN
  | NOT_IN
  | MATCH
  | WHERE
  | EXTEND
  | WITH
  | PROP
  | STATIC
  | PUBLIC
  | PRIVATE
  | INTERNAL
  | PROTECTED
  | OVERRIDE
  | REDEF
  | ABSTRACT
  | SEALED
  | OPEN
  | FOREIGN
  | INOUT
  | MUT
  | UNSAFE
  | OPERATOR
  | SPAWN
  | SYNCHRONIZED
  | UPPERBOUND
  | MAIN
  | IDENTIFIER
  | PACKAGE_IDENTIFIER
  | INTEGER_LITERAL
  | RUNE_BYTE_LITERAL
  | FLOAT_LITERAL
  | COMMENT
  | NL
  | END
  | SENTINEL
  | RUNE_LITERAL
  | STRING_LITERAL
  | JSTRING_LITERAL
  | MULTILINE_STRING
  | MULTILINE_RAW_STRING
  | BOOL_LITERAL
  | UNIT_LITERAL
  | DOLLAR_IDENTIFIER
  | ANNOTATION
  | AT_EXCL
  | COMMON
  | SPECIFIC
  | PERFORM
  | RESUME
  | THROWING
  | HANDLE
  | ILLEGAL
  | DOUBLE_COLON
  | FEATURES
  deriving DecidableEq, Repr

/-- The number that stands for a kind. -/
def TokenKind.toNat (kind : TokenKind) : Nat := kind.ctorIdx

/-- The kind a number stands for. -/
def TokenKind.ofNat? (n : Nat) : Option TokenKind :=
  if (TokenKind.ofNat n).toNat = n then some (TokenKind.ofNat n) else none

theorem TokenKind.ofNat?_toNat (kind : TokenKind) : TokenKind.ofNat? kind.toNat = some kind := by
  have hback : TokenKind.ofNat kind.toNat = kind := ofNat_ctorIdx kind
  rw [ofNat?, hback, if_pos rfl]

theorem TokenKind.toNat_lt (kind : TokenKind) : kind.toNat < 2 ^ 8 := by
  cases kind <;> decide

/-- A position in a file; the line and the column are signed words of 32 bits. -/
structure Position where
  fileID : BitVec 32
  line : BitVec 32
  column : BitVec 32
  deriving DecidableEq, Repr

/-- The position of what has no position. -/
def INVALID_POSITION : Position := ⟨0, 0, 0⟩

/-- Positions are compared by line and column. -/
def Position.beq (p rhs : Position) : Bool := p.line == rhs.line && p.column == rhs.column

/-- The position some columns further. -/
def Position.advance (p : Position) (w : Nat) : Position :=
  { p with column := p.column + BitVec.ofNat 32 w }

/-- A token.  The value is a string of bytes. -/
structure Token where
  kind : TokenKind
  delimiterNum : BitVec 32
  isSingleQuote : Bool
  commentForMacroDebug : Bool
  value : List UInt8
  beginPos : Position
  endPos : Position
  deriving DecidableEq, Repr

end Cangjie
