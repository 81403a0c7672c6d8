import Mathlib.Logic.Basic

/-!
# Kinds of expressions

Every expression has a kind, and every kind belongs to a major kind.
-/

namespace Cangjie.CHIR.IR

inductive ExprMajorKind
  | TERMINATOR
  | UNARY_EXPR
  | BINARY_EXPR
  | MEMORY_EXPR
  | STRUCTURED_CTRL_FLOW_EXPR
  | OTHERS
deriving DecidableEq

inductive ExprKind
  | GOTO
  | BRANCH
  | MULTIBRANCH
  | EXIT
  | TRY_APPLY
  | TRY_INVOKE
  | TRY_INVOKESTATIC
  | RAISE_EXCEPTION
  | TRY_NEG
  | TRY_ADD
  | TRY_SUB
  | TRY_MUL
  | TRY_DIV
  | TRY_MOD
  | TRY_EXP
  | TRY_LSHIFT
  | TRY_RSHIFT
  | TRY_SPAWN
  | TRY_NUMERIC_CAST
  | TRY_INTRINSIC
  | TRY_ALLOCATE
  | TRY_RAW_ARRAY_ALLOCATE
  | NEG
  | NOT
  | BITNOT
  | ADD
  | SUB
  | MUL
  | DIV
  | MOD
  | EXP
  | LSHIFT
  | RSHIFT
  | BITAND
  | BITOR
  | BITXOR
  | LT
  | GT
  | LE
  | GE
  | EQUAL
  | NOTEQUAL
  | AND
  | OR
  | ALLOCATE
  | LOAD
  | STORE
  | GET_ELEMENT_REF
  | GET_ELEMENT_BY_NAME
  | STORE_ELEMENT_REF
  | STORE_ELEMENT_BY_NAME
  | FORIN_RANGE
  | FORIN_ITER
  | FORIN_CLOSED_RANGE
  | LAMBDA
  | CONSTANT
  | DEBUGEXPR
  | TUPLE
  | FIELD
  | FIELD_BY_NAME
  | APPLY
  | INVOKE
  | INVOKESTATIC
  | INSTANCEOF
  | CLASS_STATIC_CAST
  | NUMERIC_CAST
  | GET_EXCEPTION
  | RAW_ARRAY_ALLOCATE
  | RAW_ARRAY_LITERAL_INIT
  | RAW_ARRAY_INIT_BY_VALUE
  | VARRAY
  | VARRAY_BUILDER
  | INTRINSIC
  | SPAWN
  | GET_INSTANTIATE_VALUE
  | BOX
  | UNBOX_TO_VALUE
  | CAST_TO_GENERIC
  | CAST_TO_CONCRETE
  | UNBOX_TO_REF
  | GET_RTTI
  | GET_RTTI_STATIC
deriving DecidableEq

namespace ExprKind

def majorKind : ExprKind → ExprMajorKind
  | GOTO | BRANCH | MULTIBRANCH | EXIT | TRY_APPLY | TRY_INVOKE | TRY_INVOKESTATIC
  | RAISE_EXCEPTION | TRY_NEG | TRY_ADD | TRY_SUB | TRY_MUL | TRY_DIV | TRY_MOD | TRY_EXP
  | TRY_LSHIFT | TRY_RSHIFT | TRY_SPAWN | TRY_NUMERIC_CAST | TRY_INTRINSIC | TRY_ALLOCATE
  | TRY_RAW_ARRAY_ALLOCATE => .TERMINATOR
  | NEG | NOT | BITNOT => .UNARY_EXPR
  | ADD | SUB | MUL | DIV | MOD | EXP | LSHIFT | RSHIFT | BITAND | BITOR | BITXOR | LT | GT | LE
  | GE | EQUAL | NOTEQUAL | AND | OR => .BINARY_EXPR
  | ALLOCATE | LOAD | STORE | GET_ELEMENT_REF | GET_ELEMENT_BY_NAME | STORE_ELEMENT_REF
  | STORE_ELEMENT_BY_NAME => .MEMORY_EXPR
  | FORIN_RANGE | FORIN_ITER | FORIN_CLOSED_RANGE | LAMBDA => .STRUCTURED_CTRL_FLOW_EXPR
  | CONSTANT | DEBUGEXPR | TUPLE | FIELD | FIELD_BY_NAME | APPLY | INVOKE | INVOKESTATIC
  | INSTANCEOF | CLASS_STATIC_CAST | NUMERIC_CAST | GET_EXCEPTION | RAW_ARRAY_ALLOCATE
  | RAW_ARRAY_LITERAL_INIT | RAW_ARRAY_INIT_BY_VALUE | VARRAY | VARRAY_BUILDER | INTRINSIC | SPAWN
  | GET_INSTANTIATE_VALUE | BOX | UNBOX_TO_VALUE | CAST_TO_GENERIC | CAST_TO_CONCRETE
  | UNBOX_TO_REF | GET_RTTI | GET_RTTI_STATIC => .OTHERS

/-- The kinds of `TryUnaryExpression`. -/
def isTryUnary : ExprKind → Bool
  | TRY_NEG => true
  | _ => false

/-- The kinds of `TryBinaryExpression`. -/
def isTryBinary : ExprKind → Bool
  | TRY_ADD | TRY_SUB | TRY_MUL | TRY_DIV | TRY_MOD | TRY_EXP | TRY_LSHIFT | TRY_RSHIFT => true
  | _ => false

def isMathematicalOperator : ExprKind → Bool
  | ADD | SUB | MUL | DIV | MOD | EXP => true
  | _ => false

end ExprKind

end Cangjie.CHIR.IR
