import CangjieCompiler.CHIR.Checker.ExpOverflow
import CangjieCompiler.CHIR.Interpreter.InterpreterValue
import CangjieCompiler.CHIR.Interpreter.OpCodes
import CangjieCompiler.Foundations.FixedWidthBits

/-!
# Integer operations of the interpreter

An operation pops its operands from the argument stack, and pushes its result or raises an
exception.  The template parameters `T` and `S` of the source are the kind of the operands and the
reading of their words. What C++ leaves open is a parameter: the word in a variable that nothing was
stored in, and a shift by a negative number.

Casts are those between integer types.
-/

namespace Cangjie.CHIR.Interpreter

open FixedWidth OverflowChecker

/-! ## The operations of the source -/

/-- What C++ leaves open. -/
structure Host where
  uninitialized (w : ℕ) : BitVec w
  negativeShift {w : ℕ} (left : Bool) (x : BitVec w) (count : ℤ) : BitVec w

/-- What an operation leaves: the name of the exception, if one is raised, and the argument stack.
-/
structure Step where
  raised : Option String
  argStack : List IVal

/-- `ArgsPop` for a class of integers -/
def popInt (kind : TypeKind) : List IVal → Option (BitVec kind.bitness × List IVal)
  | .IInt kind' content :: argStack =>
    if h : kind' = kind then some (h ▸ content, argStack) else none
  | _ => none

def raiseOverflowException (argStack : List IVal) : Step := ⟨some "OverflowException", argStack⟩

def raiseArithmeticException (argStack : List IVal) : Step := ⟨some "ArithmeticException", argStack⟩

def raiseArithmeticExceptionMsg (str : String) (argStack : List IVal) : Step :=
  ⟨some ("ArithmeticException: " ++ str), argStack⟩

def pushInt (kind : TypeKind) (res : BitVec kind.bitness) (argStack : List IVal) : Step :=
  ⟨none, .IInt kind res :: argStack⟩

def pushIfNotOverflow (kind : TypeKind) (c : Checked kind.bitness) (strat : OverflowStrategy)
    (argStack : List IVal) : Step :=
  if c.isOverflow && strat = .THROWING then raiseOverflowException argStack
  else if strat = .CHECKED then
    if c.isOverflow then ⟨none, .ITuple [.IBool true] :: argStack⟩
    else ⟨none, .ITuple [.IBool false, .IInt kind c.res] :: argStack⟩
  else pushInt kind c.res argStack

def binExpOpInt (strat : OverflowStrategy) (argStack : List IVal) : Option Step := do
  let (a2, argStack) ← popInt .TYPE_UINT64 argStack
  let (a1, argStack) ← popInt .TYPE_INT64 argStack
  some (pushIfNotOverflow .TYPE_INT64 (isExpOverflow a1 a2 strat) strat argStack)

/-- `none` where the source aborts. -/
def binRegOpInt (host : Host) (op : OpCode) (kind : TypeKind) (strat : OverflowStrategy)
    (argStack : List IVal) : Option Step := do
  let (a2, argStack) ← popInt kind argStack
  let (a1, argStack) ← popInt kind argStack
  match op with
  | .BIN_ADD | .BIN_ADD_EXC =>
    some (pushIfNotOverflow kind (isOverflowAfterAdd kind.uns a1 a2 strat) strat argStack)
  | .BIN_SUB | .BIN_SUB_EXC =>
    some (pushIfNotOverflow kind (isOverflowAfterSub kind.uns a1 a2 strat) strat argStack)
  | .BIN_MUL | .BIN_MUL_EXC =>
    some (pushIfNotOverflow kind (isOverflowAfterMul kind.uns a1 a2 strat) strat argStack)
  | .BIN_DIV | .BIN_DIV_EXC =>
    if a2 = 0 then some (raiseArithmeticException argStack)
    else some (pushIfNotOverflow kind
      (isOverflowAfterDiv kind.uns a1 a2 strat (host.uninitialized kind.bitness)) strat argStack)
  | .BIN_MOD | .BIN_MOD_EXC =>
    if a2 = 0 then some (raiseArithmeticException argStack)
    else some (pushIfNotOverflow kind (isOverflowAfterMod kind.uns a1 a2) strat argStack)
  | .BIN_BITAND => some (pushInt kind (a1 &&& a2) argStack)
  | .BIN_BITOR => some (pushInt kind (a1 ||| a2) argStack)
  | .BIN_BITXOR => some (pushInt kind (a1 ^^^ a2) argStack)
  | _ => none

/-- `a1.content << shiftValue` or `a1.content >> shiftValue` -/
def shiftBy (host : Host) (left : Bool) (uns : Bool) {w : ℕ} (x : BitVec w) (shiftValue : ℤ) :
    BitVec w :=
  if shiftValue < 0 then host.negativeShift left x shiftValue
  else if left then x <<< shiftValue.toNat
  else shiftRight uns x shiftValue.toNat

/-- The count is converted to `int64_t` before it is compared with the width. -/
def binShiftOpIntCase (host : Host) (left : Bool) (kind rhsTy : TypeKind) (argStack : List IVal) :
    Option Step := do
  let (a2, argStack) ← popInt rhsTy argStack
  let (a1, argStack) ← popInt kind argStack
  if rhsTy.isSigned ∧ value false a2 < 0 then
    some (raiseArithmeticExceptionMsg "Overshift: Value of right operand is less than 0!" argStack)
  else
    let shiftValue := value false (convert rhsTy.uns a2 64)
    if (kind.bitness : ℤ) ≤ shiftValue then
      some (raiseArithmeticExceptionMsg
        "Overshift: Value of right operand is greater than or equal to the width of left operand!"
        argStack)
    else some (pushInt kind (shiftBy host left kind.uns a1 shiftValue) argStack)

/-- The kind of the right operand is that of the bytecode, which only shifts read. -/
def binOpInt (host : Host) (op : OpCode) (kind rhsTy : TypeKind) (strat : OverflowStrategy)
    (argStack : List IVal) : Option Step :=
  match op with
  | .BIN_EXP | .BIN_EXP_EXC => if kind = .TYPE_INT64 then binExpOpInt strat argStack else none
  | .UN_NEG | .UN_NEG_EXC => do
    let (a, argStack) ← popInt kind argStack
    some (pushIfNotOverflow kind (isOverflowAfterSub kind.uns 0 a strat) strat argStack)
  | .UN_INC => do
    let (a, argStack) ← popInt kind argStack
    some (pushIfNotOverflow kind (isOverflowAfterAdd kind.uns a 1 strat) strat argStack)
  | .UN_DEC => do
    let (a, argStack) ← popInt kind argStack
    some (pushIfNotOverflow kind (isOverflowAfterSub kind.uns a 1 strat) strat argStack)
  | .UN_BITNOT => do
    let (a1, argStack) ← popInt kind argStack
    some (pushInt kind (~~~a1) argStack)
  | .BIN_LSHIFT | .BIN_LSHIFT_EXC => binShiftOpIntCase host true kind rhsTy argStack
  | .BIN_RSHIFT | .BIN_RSHIFT_EXC => binShiftOpIntCase host false kind rhsTy argStack
  | _ => binRegOpInt host op kind strat argStack

/-- `CastOrRaiseExceptionForInt`, for all integer types of the source and of the target -/
def interpretTypeCast (srcKind targetKind : TypeKind) (strat : OverflowStrategy)
    (argStack : List IVal) : Option Step := do
  let (v, argStack) ← popInt srcKind argStack
  let c := isTypecastOverflowForInt srcKind.uns v targetKind.bitness targetKind.uns strat
  if c.isOverflow && strat = .THROWING then some (raiseOverflowException argStack)
  else some (pushInt targetKind c.res argStack)

/-! ## What the language says -/

/-- The operations with one operand. -/
inductive UnaryOp where
  | NEG
  | INC
  | DEC
  | BITNOT

/-- The operations with two operands of one type. -/
inductive BinaryOp where
  | ADD
  | SUB
  | MUL
  | DIV
  | MOD
  | BITAND
  | BITOR
  | BITXOR

/-- An operation with operands of its types. -/
inductive IntOperation where
  | unary (op : UnaryOp) (kind : TypeKind) (x : BitVec kind.bitness)
  | binary (op : BinaryOp) (kind : TypeKind) (x y : BitVec kind.bitness)
  | exp (x y : BitVec 64)
  | shift (left : Bool) (kind : TypeKind) (x : BitVec kind.bitness) (rhsKind : TypeKind)
      (count : BitVec rhsKind.bitness)
  | typeCast (srcKind : TypeKind) (x : BitVec srcKind.bitness) (targetKind : TypeKind)

/-- An integer reduced to the width of a type. -/
def IVal.ofInt (kind : TypeKind) (z : ℤ) : IVal := .IInt kind (BitVec.ofInt kind.bitness z)

/-- The value of an arithmetic operation with the exact result `z`; `none` if it raises.  Without a
strategy only quotients saturate. -/
def arithmeticResult (kind : TypeKind) (isQuotient : Bool) (strat : OverflowStrategy) (z : ℤ) :
    Option IVal :=
  match strat with
  | .NA => some (.ofInt kind (if isQuotient then clamp kind.bitness kind.uns z else z))
  | .WRAPPING => some (.ofInt kind z)
  | .SATURATING => some (.ofInt kind (clamp kind.bitness kind.uns z))
  | .THROWING => if kind.HasValue z then some (.ofInt kind z) else none
  | .CHECKED =>
    some (.ITuple (if kind.HasValue z then [.IBool false, .ofInt kind z] else [.IBool true]))

/-- The value of a cast of `z`; `none` if it raises. -/
def castResult (targetKind : TypeKind) (strat : OverflowStrategy) (z : ℤ) : Option IVal :=
  match strat with
  | .SATURATING => some (.ofInt targetKind (clamp targetKind.bitness targetKind.uns z))
  | .THROWING => if targetKind.HasValue z then some (.ofInt targetKind z) else none
  | _ => some (.ofInt targetKind z)

def UnaryOp.result (op : UnaryOp) (kind : TypeKind) (strat : OverflowStrategy) (x : ℤ) :
    Option IVal :=
  match op with
  | NEG => arithmeticResult kind false strat (-x)
  | INC => arithmeticResult kind false strat (x + 1)
  | DEC => arithmeticResult kind false strat (x - 1)
  | BITNOT => some (.ofInt kind (Int.lnot x))

def BinaryOp.result (op : BinaryOp) (kind : TypeKind) (strat : OverflowStrategy) (x y : ℤ) :
    Option IVal :=
  match op with
  | ADD => arithmeticResult kind false strat (x + y)
  | SUB => arithmeticResult kind false strat (x - y)
  | MUL => arithmeticResult kind false strat (x * y)
  | DIV => if y = 0 then none else arithmeticResult kind true strat (x.tdiv y)
  | MOD => if y = 0 then none else arithmeticResult kind false strat (x.tmod y)
  | BITAND => some (.ofInt kind (Int.land x y))
  | BITOR => some (.ofInt kind (Int.lor x y))
  | BITXOR => some (.ofInt kind (Int.xor x y))

/-- A shift raises if its count is negative or at least the width. -/
def shiftResult (left : Bool) (kind : TypeKind) (x count : ℤ) : Option IVal :=
  if 0 ≤ count ∧ count < kind.bitness then
    some (.ofInt kind (if left then x * 2 ^ count.toNat else x / 2 ^ count.toNat))
  else none

namespace IntOperation

/-- The value of an operation; `none` if it raises. -/
def result (strat : OverflowStrategy) : IntOperation → Option IVal
  | unary op kind x => op.result kind strat (value kind.uns x)
  | binary op kind x y => op.result kind strat (value kind.uns x) (value kind.uns y)
  | exp x y => arithmeticResult .TYPE_INT64 false strat (value false x ^ y.toNat)
  | shift left kind x rhsKind count =>
    shiftResult left kind (value kind.uns x) (value rhsKind.uns count)
  | typeCast srcKind x targetKind => castResult targetKind strat (value srcKind.uns x)

/-! ## The bytecode of an operation -/

/-- The operation codes without and with an exception handler. -/
def opCodes : IntOperation → List OpCode
  | unary .NEG _ _ => [.UN_NEG, .UN_NEG_EXC]
  | unary .INC _ _ => [.UN_INC]
  | unary .DEC _ _ => [.UN_DEC]
  | unary .BITNOT _ _ => [.UN_BITNOT]
  | binary .ADD _ _ _ => [.BIN_ADD, .BIN_ADD_EXC]
  | binary .SUB _ _ _ => [.BIN_SUB, .BIN_SUB_EXC]
  | binary .MUL _ _ _ => [.BIN_MUL, .BIN_MUL_EXC]
  | binary .DIV _ _ _ => [.BIN_DIV, .BIN_DIV_EXC]
  | binary .MOD _ _ _ => [.BIN_MOD, .BIN_MOD_EXC]
  | binary .BITAND _ _ _ => [.BIN_BITAND]
  | binary .BITOR _ _ _ => [.BIN_BITOR]
  | binary .BITXOR _ _ _ => [.BIN_BITXOR]
  | exp _ _ => [.BIN_EXP, .BIN_EXP_EXC]
  | shift true _ _ _ _ => [.BIN_LSHIFT, .BIN_LSHIFT_EXC]
  | shift false _ _ _ _ => [.BIN_RSHIFT, .BIN_RSHIFT_EXC]
  | typeCast _ _ _ => [.TYPECAST, .TYPECAST_EXC]

/-- The operation code executed with the operands on the argument stack. -/
def interpret (host : Host) (op : OpCode) (strat : OverflowStrategy) (argStack : List IVal) :
    IntOperation → Option Step
  | unary _ kind x => binOpInt host op kind kind strat (.IInt kind x :: argStack)
  | binary _ kind x y => binOpInt host op kind kind strat (.IInt kind y :: .IInt kind x :: argStack)
  | exp x y =>
    binOpInt host op .TYPE_INT64 .TYPE_UINT64 strat
      (.IInt .TYPE_UINT64 y :: .IInt .TYPE_INT64 x :: argStack)
  | shift _ kind x rhsKind count =>
    binOpInt host op kind rhsKind strat (.IInt rhsKind count :: .IInt kind x :: argStack)
  | typeCast srcKind x targetKind =>
    interpretTypeCast srcKind targetKind strat (.IInt srcKind x :: argStack)

end IntOperation

end Cangjie.CHIR.Interpreter
