/-!
# Operation codes of the bytecode

The operation codes in the order of the source's table, with the number of bytecode cells that
follow the operation and whether the operation names a place to go on when an exception is raised.
-/

namespace Cangjie.CHIR.Interpreter

/-- The operation codes. -/
inductive OpCode where
  | GVAR
  | LVAR
  | GVAR_SET
  | LVAR_SET
  | ALLOCATE_CLASS
  | ALLOCATE_CLASS_EXC
  | ALLOCATE_STRUCT
  | ALLOCATE_STRUCT_EXC
  | ALLOCATE_RAW_ARRAY
  | ALLOCATE_RAW_ARRAY_EXC
  | ALLOCATE_RAW_ARRAY_LITERAL
  | ALLOCATE_RAW_ARRAY_LITERAL_EXC
  | RAW_ARRAY_LITERAL_INIT
  | RAW_ARRAY_INIT_BY_VALUE
  | ALLOCATE
  | ALLOCATE_EXC
  | FRAME
  | UINT8
  | UINT16
  | UINT32
  | UINT64
  | UINTNAT
  | INT8
  | INT16
  | INT32
  | INT64
  | INTNAT
  | FLOAT16
  | FLOAT32
  | FLOAT64
  | RUNE
  | BOOL
  | UNIT
  | NULLPTR
  | STRING
  | TUPLE
  | ARRAY
  | VARRAY
  | VARRAY_BY_VALUE
  | VARRAY_GET
  | FUNC
  | RETURN
  | JUMP
  | BRANCH
  | EXIT
  | STORE
  | DROP
  | GETREF
  | STOREINREF
  | UN_NEG
  | UN_NEG_EXC
  | UN_NOT
  | UN_BITNOT
  | UN_INC
  | UN_DEC
  | BIN_ADD
  | BIN_SUB
  | BIN_MUL
  | BIN_DIV
  | BIN_MOD
  | BIN_EXP
  | BIN_ADD_EXC
  | BIN_SUB_EXC
  | BIN_MUL_EXC
  | BIN_DIV_EXC
  | BIN_MOD_EXC
  | BIN_EXP_EXC
  | BIN_LT
  | BIN_GT
  | BIN_LE
  | BIN_GE
  | BIN_NOTEQ
  | BIN_EQUAL
  | BIN_BITAND
  | BIN_BITOR
  | BIN_BITXOR
  | BIN_LSHIFT
  | BIN_RSHIFT
  | BIN_LSHIFT_EXC
  | BIN_RSHIFT_EXC
  | FIELD
  | FIELD_TPL
  | INVOKE
  | INVOKE_EXC
  | TYPECAST
  | TYPECAST_EXC
  | INSTANCEOF
  | APPLY
  | APPLY_EXC
  | CAPPLY
  | ASG
  | DEREF
  | RAISE
  | RAISE_EXC
  | GET_EXCEPTION
  | SYSCALL
  | INTRINSIC0
  | INTRINSIC1
  | INTRINSIC2
  | INTRINSIC0_EXC
  | INTRINSIC1_EXC
  | INTRINSIC2_EXC
  | SWITCH
  | SPAWN
  | SPAWN_EXC
  | BOX
  | UNBOX
  | UNBOX_REF
  | NOT_SUPPORTED
  | ABORT
  | INVALID
  deriving DecidableEq, Repr

/-- The cell that holds an operation code. -/
def OpCode.toCell (op : OpCode) : Nat := op.ctorIdx

theorem OpCode.ofNat_toCell (op : OpCode) : OpCode.ofNat op.toCell = op := OpCode.ofNat_ctorIdx op

/-- The number of cells after the operation, for the operations of variable length the number of
cells before the variable part. -/
def getOpCodeArgSize : OpCode → Nat
  | .ALLOCATE_RAW_ARRAY | .RAW_ARRAY_INIT_BY_VALUE | .ALLOCATE | .UNIT | .NULLPTR
  | .VARRAY_BY_VALUE | .RETURN | .EXIT | .STORE | .DROP | .ASG | .DEREF | .RAISE
  | .GET_EXCEPTION | .SPAWN | .UNBOX | .UNBOX_REF | .NOT_SUPPORTED | .ABORT | .INVALID => 0
  | .ALLOCATE_CLASS | .ALLOCATE_STRUCT_EXC | .ALLOCATE_RAW_ARRAY_LITERAL_EXC | .UINT64
  | .UINTNAT | .INT64 | .INTNAT | .FLOAT64 | .BRANCH | .UN_NEG | .UN_NOT | .UN_BITNOT | .UN_INC
  | .UN_DEC | .BIN_ADD | .BIN_SUB | .BIN_MUL | .BIN_DIV | .BIN_MOD | .BIN_EXP | .BIN_LT
  | .BIN_GT | .BIN_LE | .BIN_GE | .BIN_NOTEQ | .BIN_EQUAL | .BIN_BITAND | .BIN_BITOR
  | .BIN_BITXOR | .INVOKE | .APPLY_EXC | .SYSCALL | .INTRINSIC1 | .INTRINSIC0_EXC | .SWITCH => 2
  | .ALLOCATE_CLASS_EXC | .UN_NEG_EXC | .BIN_ADD_EXC | .BIN_SUB_EXC | .BIN_MUL_EXC
  | .BIN_DIV_EXC | .BIN_MOD_EXC | .BIN_EXP_EXC | .BIN_LSHIFT | .BIN_RSHIFT | .INVOKE_EXC
  | .TYPECAST | .INTRINSIC2 | .INTRINSIC1_EXC => 3
  | .BIN_LSHIFT_EXC | .BIN_RSHIFT_EXC | .TYPECAST_EXC | .INTRINSIC2_EXC => 4
  | _ => 1

/-- The operation has a place to go on when an exception is raised. -/
def opHasExceptionHandler : OpCode → Bool
  | .ALLOCATE_CLASS_EXC | .ALLOCATE_STRUCT_EXC | .ALLOCATE_RAW_ARRAY_EXC
  | .ALLOCATE_RAW_ARRAY_LITERAL_EXC | .ALLOCATE_EXC | .UN_NEG_EXC | .BIN_ADD_EXC
  | .BIN_SUB_EXC | .BIN_MUL_EXC | .BIN_DIV_EXC | .BIN_MOD_EXC | .BIN_EXP_EXC
  | .BIN_LSHIFT_EXC | .BIN_RSHIFT_EXC | .INVOKE_EXC | .TYPECAST_EXC | .APPLY_EXC | .RAISE_EXC
  | .GET_EXCEPTION | .INTRINSIC0_EXC | .INTRINSIC1_EXC | .INTRINSIC2_EXC | .SPAWN_EXC => true
  | _ => false

end Cangjie.CHIR.Interpreter
