import CangjieCompiler.CHIR.Analysis.StatePool
import CangjieCompiler.CHIR.Checker.ExpOverflow

/-!
# Constant folding of binary expressions

The transfer functions of the constant analysis for arithmetic, exponentiation, bitwise and logical
expressions.  An operand is known when the state has a constant for it.  The carrier of an integer
constant has 64 bits, signed or unsigned as the type of the value is, and the cast to a class of
constants is given by `getVal`, which finds nothing in a constant of another class.

Besides the new state a transfer function says whether the expression is known to complete or known
to throw; the terminators with an exception edge ask for this.  The reports of errors and the
folding of floating-point numbers are left out.
-/

namespace Cangjie.CHIR

/-- A binary expression with its operands and its result. -/
structure BinaryExpressionBase where
  opKind : BinaryExprKind
  lhs : Value
  rhs : Value
  result : Value
  overflowStrategy : OverflowStrategy
  deriving DecidableEq

/-- A binary expression on integers with the types of its operands and of its result. -/
structure IntBinaryExpression extends BinaryExpressionBase where
  lhsType : TypeKind
  rhsType : TypeKind
  resultType : TypeKind
  deriving DecidableEq

namespace ConstAnalysis

inductive ExceptionKind where
  | SUCCESS
  | FAIL
  | NA
  deriving DecidableEq, Repr

variable {φ : Type}

/-! ## The state -/

/-- The state of the constant analysis. -/
structure ConstDomain (φ : Type) where
  programState : OrderedMap Value (ValueDomain (ConstValue φ))

namespace ConstDomain

/-- The constant of a value, if it has one. -/
def checkAbstractValue (state : ConstDomain φ) (obj : Value) : Option (ConstValue φ) :=
  match state.programState.find? obj with
  | some (.VAL absVal) => some absVal
  | _ => none

def update (state : ConstDomain φ) (dest : Value) (absVal : ConstValue φ) : ConstDomain φ :=
  ⟨state.programState.assign dest (.VAL absVal)⟩

def setToBound (state : ConstDomain φ) (dest : Value) (isTop : Bool) : ConstDomain φ :=
  ⟨state.programState.assign dest (if isTop then .TOP else .BOTTOM)⟩

@[simp] lemma checkAbstractValue_update (state : ConstDomain φ) (dest obj : Value)
    (absVal : ConstValue φ) :
    (state.update dest absVal).checkAbstractValue obj =
      if dest = obj then some absVal else state.checkAbstractValue obj := by
  unfold checkAbstractValue update
  dsimp only
  rw [OrderedMap.find?_assign]
  split_ifs <;> rfl

@[simp] lemma checkAbstractValue_setToBound (state : ConstDomain φ) (dest obj : Value)
    (isTop : Bool) :
    (state.setToBound dest isTop).checkAbstractValue obj =
      if dest = obj then none else state.checkAbstractValue obj := by
  unfold checkAbstractValue setToBound
  dsimp only
  rw [OrderedMap.find?_assign]
  split_ifs <;> rfl

end ConstDomain

/-! ## Integer constants -/

/-- The carrier of a `ConstUIntVal` or of a `ConstIntVal`. -/
def getVal (uns : Bool) : ConstValue φ → Option (BitVec 64)
  | .UINT val => if uns then some val.toBitVec else none
  | .INT val => if uns then none else some val.toBitVec
  | _ => none

/-- A new `ConstUIntVal` or `ConstIntVal`. -/
def makeVal (uns : Bool) (val : BitVec 64) : ConstValue φ :=
  if uns then .UINT ⟨val⟩ else .INT ⟨⟨val⟩⟩

@[simp] lemma getVal_makeVal (uns : Bool) (val : BitVec 64) :
    getVal uns (makeVal uns val : ConstValue φ) = some val := by
  cases uns <;> rfl

lemma makeVal_injective {uns : Bool} {x y : BitVec 64}
    (h : (makeVal uns x : ConstValue φ) = makeVal uns y) : x = y := by
  have hval := congrArg (getVal uns) h
  rwa [getVal_makeVal, getVal_makeVal, Option.some_inj] at hval

/-- The integer constant of a value of a type. -/
def knownInt (state : ConstDomain φ) (type : TypeKind) (obj : Value) : Option (BitVec 64) :=
  (state.checkAbstractValue obj).bind (getVal type.uns)

/-- `CutOffHighBits` for a destination of integer type. -/
def cutOffHighBits (srcNum : BitVec 64) (destTypeKind : TypeKind) : BitVec 64 :=
  OverflowChecker.convert destTypeKind.uns (srcNum.setWidth destTypeKind.bitness) 64

/-! ## Arithmetic -/

/-- The operations whose result one operand decides; `none` for `ExceptionKind::NA`. -/
def handleTrivialArithmeticOp (state : ConstDomain φ) (expr : IntBinaryExpression)
    (left right : Option (BitVec 64)) : Option (ConstDomain φ × ExceptionKind) :=
  let zero := makeVal expr.lhsType.uns 0
  if right = some 0 ∧ (expr.opKind = .DIV ∨ expr.opKind = .MOD) then
    some (state.setToBound expr.result true, .FAIL)
  else if right = some 0 ∧ expr.opKind = .MUL then
    some (state.update expr.result zero, .SUCCESS)
  else if right = some 1 ∧ expr.opKind = .MOD then
    some (state.update expr.result zero, .SUCCESS)
  else if left = some 0 ∧ (expr.opKind = .MUL ∨ expr.opKind = .DIV ∨ expr.opKind = .MOD) then
    some (state.update expr.result zero, .SUCCESS)
  else none

/-- `IsIntOverflow` or `IsUIntOverflow`, by the class of the constants. -/
def isOverflowOfType (type : TypeKind) (kind : BinaryExprKind) (x y : BitVec 64)
    (strategy : OverflowStrategy) : Option (OverflowChecker.Checked 64) :=
  if type.uns then OverflowChecker.isUIntOverflow type kind.toExprKind x y strategy
  else OverflowChecker.isIntOverflow type kind.toExprKind x y strategy

/-- What a checked operation records. -/
def recordChecked (uns : Bool) (state : ConstDomain φ) (expr : IntBinaryExpression)
    (c : OverflowChecker.Checked 64) : ConstDomain φ × ExceptionKind :=
  if c.isOverflow && expr.overflowStrategy = .THROWING then
    (state.setToBound expr.result true, .FAIL)
  else (state.update expr.result (makeVal uns c.res), .SUCCESS)

def handleArithmeticOpOfInt (state : ConstDomain φ) (expr : IntBinaryExpression)
    (left right : Option (BitVec 64)) : ConstDomain φ × ExceptionKind :=
  match handleTrivialArithmeticOp state expr left right with
  | some handled => handled
  | none =>
    if expr.lhs = expr.rhs ∧ expr.opKind = .SUB then
      (state.update expr.result (makeVal expr.lhsType.uns 0), .SUCCESS)
    else
      match left, right with
      | some x, some y =>
        match isOverflowOfType expr.resultType expr.opKind x y expr.overflowStrategy with
        | some c => recordChecked expr.lhsType.uns state expr c
        | none => (state, .NA)
      | _, _ => (state.setToBound expr.result true, .NA)

/-- `HandleArithmeticOp` for operands of integer type. -/
def handleArithmeticOp (state : ConstDomain φ) (expr : IntBinaryExpression) :
    ConstDomain φ × ExceptionKind :=
  if state.checkAbstractValue expr.lhs = none ∧ state.checkAbstractValue expr.rhs = none then
    (state.setToBound expr.result true, .NA)
  else
    handleArithmeticOpOfInt state expr (knownInt state expr.lhsType expr.lhs)
      (knownInt state expr.lhsType expr.rhs)

/-- `HandleExpOp` for a result of integer type. -/
def handleExpOp (state : ConstDomain φ) (expr : IntBinaryExpression) :
    ConstDomain φ × ExceptionKind :=
  let left := (state.checkAbstractValue expr.lhs).bind (getVal false)
  let right := (state.checkAbstractValue expr.rhs).bind (getVal true)
  if right = some 0 then (state.update expr.result (makeVal false 1), .SUCCESS)
  else
    match left, right with
    | some x, right =>
      if x = 0 ∨ x = 1 then (state.update expr.result (makeVal false x), .SUCCESS)
      else
        match right with
        | some y =>
          recordChecked false state expr
            (OverflowChecker.isExpOverflow x y expr.overflowStrategy)
        | none => (state.setToBound expr.result true, .NA)
    | none, _ => (state.setToBound expr.result true, .NA)

/-- `HandleBinaryExpr` for the mathematical operators on integers. -/
def handleMathematicalOp (state : ConstDomain φ) (expr : IntBinaryExpression) :
    ConstDomain φ × ExceptionKind :=
  if expr.opKind = .EXP then handleExpOp state expr else handleArithmeticOp state expr

/-! ## Bitwise operations -/

def isShiftOp (kind : BinaryExprKind) : Bool := kind == .LSHIFT || kind == .RSHIFT

/-- The table of operations on the common type of two 64-bit carriers, which is signed only if both
of them are; the other kinds are not in the table. -/
def bitwiseOp (kind : BinaryExprKind) (unsL unsR : Bool) (x y : BitVec 64) :
    Option (BitVec 64) :=
  match kind with
  | .LSHIFT => some (x <<< y.toNat)
  | .RSHIFT => some (if unsL || unsR then x >>> y.toNat else x.sshiftRight y.toNat)
  | .BITAND => some (x &&& y)
  | .BITXOR => some (x ^^^ y)
  | .BITOR => some (x ||| y)
  | _ => none

def handleBitwiseOpOfType (state : ConstDomain φ) (expr : IntBinaryExpression) (unsL unsR : Bool)
    (left right : Option (BitVec 64)) : ConstDomain φ × ExceptionKind :=
  let top := state.setToBound expr.result true
  match right with
  | none => (top, .NA)
  | some rightVal =>
    if !unsR && isShiftOp expr.opKind && rightVal.slt 0 then (top, .FAIL)
    else if isShiftOp expr.opKind && decide (expr.lhsType.bitness ≤ rightVal.toNat) then
      (top, .FAIL)
    else
      match left with
      | none => (top, .NA)
      | some leftVal =>
        match bitwiseOp expr.opKind unsL unsR leftVal rightVal with
        | some res =>
          (state.update expr.result (makeVal unsL (cutOffHighBits res expr.lhsType)), .SUCCESS)
        | none => (state, .NA)

def handleBitwiseOp (state : ConstDomain φ) (expr : IntBinaryExpression) :
    ConstDomain φ × ExceptionKind :=
  handleBitwiseOpOfType state expr expr.lhsType.uns expr.rhsType.uns
    (knownInt state expr.lhsType expr.lhs) (knownInt state expr.rhsType expr.rhs)

/-! ## Logical operations -/

/-- The Boolean constant of a value. -/
def knownBool (state : ConstDomain φ) (obj : Value) : Option Bool :=
  match state.checkAbstractValue obj with
  | some (.BOOL val) => some val
  | _ => none

def handleLogicalOp (state : ConstDomain φ) (expr : BinaryExpressionBase) : ConstDomain φ :=
  let lhsVal := knownBool state expr.lhs
  let rhsVal := knownBool state expr.rhs
  if expr.opKind = .AND then
    match lhsVal, rhsVal with
    | some l, some r => state.update expr.result (.BOOL (l && r))
    | l, r =>
      if l = some false ∨ r = some false then state.update expr.result (.BOOL false)
      else state.setToBound expr.result true
  else
    match lhsVal, rhsVal with
    | some l, some r => state.update expr.result (.BOOL (l && r))
    | l, r =>
      if l = some true ∨ r = some true then state.update expr.result (.BOOL true)
      else state.setToBound expr.result true

end ConstAnalysis

end Cangjie.CHIR
