import CangjieCompiler.CHIR.Interpreter.BCHIRLinker
import CangjieCompiler.Foundations.SymbolicImage

/-!
# Instructions

The bytecode of a definition is a sequence of instructions, each an operation with its operands and
the mangled name annotated at it.  This file says how many operands an operation has, what its
operands stand for, which of them the interpreter takes as a place to go on, and what an
instruction is linked to.
-/

namespace Cangjie.CHIR.Interpreter

open SymbolicImage

/-- An operation with its operands and the mangled name annotated at it. -/
structure Instr where
  op : OpCode
  operands : List ByteCodeContent
  mangledName : String

/-- The operand at an index. -/
def Instr.arg (i : Instr) (k : ℕ) : ByteCodeContent := i.operands.getD k 0

/-- The cells of an instruction. -/
def Instr.encode (i : Instr) : List ByteCodeContent := i.op.toCell :: i.operands

/-- The number of operands, from the operands that hold a length. -/
def operandCount (op : OpCode) (arg : ℕ → ByteCodeContent) : ℕ :=
  match op with
  | .SYSCALL => 3 + arg 1
  | .SWITCH => 2 + arg 1 * 2 + (arg 1 + 1)
  | .CAPPLY => arg 0 + 2
  | .GETREF | .STOREINREF | .FIELD_TPL => arg 0 + 1
  | op => getOpCodeArgSize op

/-- The operands are laid out as the operation has them. -/
def Instr.WellFormed (i : Instr) : Prop := i.operands.length = operandCount i.op i.arg

/-! ## What the interpreter does with an operand -/

/-- The operands that the interpreter takes as the next place to go on: the ones of jumps, and the
last one of an operation with an exception handler. -/
def isTarget (op : OpCode) (arg : ℕ → ByteCodeContent) (k : ℕ) : Prop :=
  match op with
  | .JUMP => k = 0
  | .BRANCH => k = 0 ∨ k = 1
  | .SWITCH => 2 + arg 1 * 2 ≤ k ∧ k < 2 + arg 1 * 2 + (arg 1 + 1)
  | op => opHasExceptionHandler op = true ∧ k + 1 = getOpCodeArgSize op

instance (op : OpCode) (arg : ℕ → ByteCodeContent) (k : ℕ) : Decidable (isTarget op arg k) := by
  unfold isTarget
  split <;> infer_instance

/-- The operands that are an index into a table of the package or stand for an annotated name. -/
def isTableIndex (op : OpCode) (k : ℕ) : Prop :=
  match op with
  | .GVAR | .FUNC | .STRING | .ALLOCATE_CLASS | .ALLOCATE_CLASS_EXC | .BOX | .INSTANCEOF => k = 0
  | .INVOKE | .INVOKE_EXC | .INTRINSIC1 => k = 1
  | .SYSCALL => k ≠ 1
  | .CAPPLY => k ≠ 0
  | _ => False

/-! ## What the linker does with an operand -/

/-- What the linker takes an operand for. -/
inductive OperandKind where
  | plain
  | target
  | string
  | type
  | optionalType
  | gvar
  | func
  | classId
  | methodId
  deriving DecidableEq

/-- The kinds of the operands of an operation. -/
def operandKinds (op : OpCode) (arg : ℕ → ByteCodeContent) : List OperandKind :=
  match BCHIRLinker.linkerCase op with
  | .gvar => [.gvar]
  | .func => [.func]
  | .string => [.string]
  | .allocateClass => [.classId, .plain]
  | .allocateClassExc => [.classId, .plain, .target]
  | .allocateStructExc => [.plain, .target]
  | .allocateExc => [.target]
  | .boxOrInstanceof => [.classId]
  | .invokeExc => [.plain, .methodId, .target]
  | .invoke => [.plain, .methodId]
  | .jump => [.target]
  | .branch => [.target, .target]
  | .intrinsic1 => [.plain, .optionalType]
  | .syscall => [.string, .plain, .type] ++ List.replicate (arg 1) .type
  | .switch => [.plain, .plain] ++ List.replicate (arg 1 * 2) .plain
      ++ List.replicate (arg 1 + 1) .target
  | .applyExc => [.plain, .target]
  | .arithmeticExc => [.plain, .plain, .target]
  | .shiftExc => [.plain, .plain, .plain, .target]
  | .capply => .plain :: List.replicate (arg 0 + 1) .type
  | .path => .plain :: List.replicate (arg 0) .plain
  | .other => List.replicate (getOpCodeArgSize op) .plain

/-- The identifiers of names and the indices of types and strings in the linked package. -/
structure Resolution where
  gvar : String → Option ByteCodeContent
  classId : String → ByteCodeContent
  methodId : String → ByteCodeContent
  typeMap : List ByteCodeContent
  stringMap : List ByteCodeContent

/-- The cell that an operand is linked to. -/
def linkOperand (r : Resolution) (offset : ℕ) (mangledName : String) :
    OperandKind → ByteCodeContent → Cell String
  | .plain, value => .word value
  | .target, value => .word (value + offset)
  | .string, value => .word (r.stringMap.getD value 0)
  | .type, value => .word (r.typeMap.getD value 0)
  | .optionalType, value =>
    .word (if value ≠ BYTECODE_CONTENT_MAX then r.typeMap.getD value 0 else BYTECODE_CONTENT_MAX)
  | .gvar, _ =>
    match r.gvar mangledName with
    | some id => .word id
    | none => .ref mangledName
  | .func, _ => .ref mangledName
  | .classId, _ => .word (r.classId mangledName)
  | .methodId, _ => .word (r.methodId mangledName)

/-- The operation that an operation is linked to: a global variable that is not known is taken as a
function. -/
def linkOp (r : Resolution) (op : OpCode) (mangledName : String) : OpCode :=
  if op = .GVAR ∧ r.gvar mangledName = none then .FUNC else op

/-- The cells that an instruction is linked to. -/
def linkInstr (r : Resolution) (offset : ℕ) (i : Instr) : List (Cell String) :=
  .word (linkOp r i.op i.mangledName).toCell ::
    List.zipWith (linkOperand r offset i.mangledName) (operandKinds i.op i.arg) i.operands

/-! ## Instructions of a definition -/

/-- The instruction at an index. -/
def Definition.instrAt (d : Definition) (curr : ℕ) : Instr where
  op := OpCode.ofNat (d.get curr)
  operands := BCHIRLinker.cellsBetween d (curr + 1)
    (curr + 1 + operandCount (OpCode.ofNat (d.get curr)) fun k => d.get (curr + 1 + k))
  mangledName := d.getMangledNameAnnotation curr

/-- The indices at which the instructions of a list start, the first one at `start`. -/
def startsFrom : ℕ → List Instr → List ℕ
  | _, [] => []
  | start, i :: rest => start :: startsFrom (start + i.encode.length) rest

/-- The bytecode is the sequence of the instructions, every operand is laid out as its operation has
it, the annotated names are those of the instructions, and every place to go on is the start of an
instruction. -/
structure Definition.Consists (d : Definition) (instrs : List Instr) : Prop where
  bytecode_eq : d.bytecode = instrs.flatMap Instr.encode
  wellFormed : ∀ i ∈ instrs, i.WellFormed
  mangledName : ∀ p ∈ (startsFrom 0 instrs).zip instrs,
    d.getMangledNameAnnotation p.1 = p.2.mangledName
  target : ∀ i ∈ instrs, ∀ k, isTarget i.op i.arg k → i.arg k ∈ startsFrom 0 instrs

end Cangjie.CHIR.Interpreter
