import CangjieCompiler.CHIR.Analysis.SIntDomain

/-!
# Overflow checking

The checks of integer operations and of casts between integer types, as the constant analysis and
the interpreter use them.  A C++ integer type of `w` bits is given by its width and by the flag
`uns`, and its values are the words of that width.

A compiler builtin such as `__builtin_add_overflow` stores the low bits of the exact result and
reports whether the exact result does not fit.  The host has 64-bit words, so that `ssize_t` and
`size_t` have 64 bits; a quotient or remainder by zero, which the source excludes by an assertion,
is left as Lean has it.
-/

namespace Cangjie.CHIR

open FixedWidth

/-- The kinds of the integer types. -/
inductive TypeKind where
  | TYPE_INT8
  | TYPE_INT16
  | TYPE_INT32
  | TYPE_INT64
  | TYPE_INT_NATIVE
  | TYPE_UINT8
  | TYPE_UINT16
  | TYPE_UINT32
  | TYPE_UINT64
  | TYPE_UINT_NATIVE
  deriving DecidableEq, Repr

namespace TypeKind

/-- `GetBitness` -/
def bitness : TypeKind → ℕ
  | TYPE_INT8 => 8
  | TYPE_INT16 => 16
  | TYPE_INT32 => 32
  | TYPE_INT64 => 64
  | TYPE_INT_NATIVE => 64
  | TYPE_UINT8 => 8
  | TYPE_UINT16 => 16
  | TYPE_UINT32 => 32
  | TYPE_UINT64 => 64
  | TYPE_UINT_NATIVE => 64

def isSigned : TypeKind → Bool
  | TYPE_INT8 => true
  | TYPE_INT16 => true
  | TYPE_INT32 => true
  | TYPE_INT64 => true
  | TYPE_INT_NATIVE => true
  | _ => false

/-- How the words of the type are read. -/
def uns (kind : TypeKind) : Bool := !kind.isSigned

/-- An integer is a value of the type. -/
def HasValue (kind : TypeKind) (z : ℤ) : Prop := Representable kind.bitness kind.uns z

instance (kind : TypeKind) (z : ℤ) : Decidable (kind.HasValue z) :=
  inferInstanceAs (Decidable (Representable _ _ _))

lemma one_lt_bitness (kind : TypeKind) : 1 < kind.bitness := by
  cases kind <;> decide

lemma le_bitness (kind : TypeKind) : 8 ≤ kind.bitness := by
  cases kind <;> decide

lemma bitness_le (kind : TypeKind) : kind.bitness ≤ 64 := by
  cases kind <;> decide

lemma bitness_eq_or_le (kind : TypeKind) : kind.bitness = 64 ∨ kind.bitness ≤ 32 := by
  cases kind <;> decide

end TypeKind

/-- The kinds of the expressions with an operator. -/
inductive ExprKind where
  | NEG
  | NOT
  | BITNOT
  | ADD
  | SUB
  | MUL
  | DIV
  | MOD
  | EXP
  | LSHIFT
  | RSHIFT
  | BITAND
  | BITOR
  | BITXOR
  | LT
  | GT
  | LE
  | GE
  | EQUAL
  | NOTEQUAL
  | AND
  | OR
  deriving DecidableEq, Repr

/-- `ExprKindMgr::ToExprKind` -/
def BinaryExprKind.toExprKind : BinaryExprKind → ExprKind
  | ADD => .ADD
  | SUB => .SUB
  | MUL => .MUL
  | DIV => .DIV
  | MOD => .MOD
  | EXP => .EXP
  | LSHIFT => .LSHIFT
  | RSHIFT => .RSHIFT
  | BITAND => .BITAND
  | BITOR => .BITOR
  | BITXOR => .BITXOR
  | LT => .LT
  | GT => .GT
  | LE => .LE
  | GE => .GE
  | EQUAL => .EQUAL
  | NOTEQUAL => .NOTEQUAL
  | AND => .AND
  | OR => .OR

namespace OverflowChecker

/-! ## The checks of the source -/

section Source

variable {w : ℕ}

/-- What a check returns and what it leaves in `*res`. -/
structure Checked (w : ℕ) where
  isOverflow : Bool
  res : BitVec w
  deriving DecidableEq

/-- `std::numeric_limits<T>::min()` -/
def numericMin (w : ℕ) (uns : Bool) : BitVec w := BitVec.ofInt w (least w uns)

/-- `std::numeric_limits<T>::max()` -/
def numericMax (w : ℕ) (uns : Bool) : BitVec w := BitVec.ofInt w (greatest w uns)

/-- A value of one type converted to a type of `n` bits. -/
def convert (uns : Bool) (x : BitVec w) (n : ℕ) : BitVec n := BitVec.ofInt n (value uns x)

/-- A compiler builtin for the operation with the exact result `z`. -/
def builtinOverflow (w : ℕ) (uns : Bool) (z : ℤ) : Checked w where
  isOverflow := decide ¬Representable w uns z
  res := BitVec.ofInt w z

def isOverflowAfterAdd (uns : Bool) (x y : BitVec w) (strategy : OverflowStrategy) : Checked w :=
  let c := builtinOverflow w uns (value uns x + value uns y)
  if c.isOverflow && strategy = .SATURATING then
    { c with res := if value uns x < value uns c.res then numericMin w uns else numericMax w uns }
  else c

def isOverflowAfterSub (uns : Bool) (x y : BitVec w) (strategy : OverflowStrategy) : Checked w :=
  let c := builtinOverflow w uns (value uns x - value uns y)
  if c.isOverflow && strategy = .SATURATING then
    { c with res := if value uns x < value uns c.res then numericMin w uns else numericMax w uns }
  else c

def isOverflowAfterMul (uns : Bool) (x y : BitVec w) (strategy : OverflowStrategy) : Checked w :=
  let c := builtinOverflow w uns (value uns x * value uns y)
  if c.isOverflow && strategy = .SATURATING then
    { c with
      res :=
        if value uns x < 0 ∧ value uns y < 0 then numericMax w uns
        else if 0 ≤ value uns x ∧ 0 ≤ value uns y then numericMax w uns
        else numericMin w uns }
  else c

/-- The last argument is what `*res` holds before. -/
def isOverflowAfterDiv (uns : Bool) (x y : BitVec w) (strategy : OverflowStrategy)
    (res : BitVec w) : Checked w :=
  let isOverflow := !uns && (x == numericMin w uns && decide (value uns y = -1))
  if isOverflow && strategy = .WRAPPING then ⟨isOverflow, numericMin w uns⟩
  else if isOverflow && strategy = .SATURATING then ⟨isOverflow, numericMax w uns⟩
  else if isOverflow then ⟨isOverflow, res⟩
  else ⟨isOverflow, BitVec.ofInt w ((value uns x).tdiv (value uns y))⟩

def isOverflowAfterMod (uns : Bool) (x y : BitVec w) : Checked w :=
  if !uns && (x == numericMin w uns && decide (value uns y = -1)) then ⟨false, 0⟩
  else ⟨false, BitVec.ofInt w ((value uns x).tmod (value uns y))⟩

/-- `none` where the source aborts. -/
def isOverflow (uns : Bool) (x y : BitVec w) (kind : ExprKind) (strategy : OverflowStrategy) :
    Option (Checked w) :=
  match kind with
  | .ADD => some (isOverflowAfterAdd uns x y strategy)
  | .NEG => some (isOverflowAfterSub uns 0 y strategy)
  | .SUB => some (isOverflowAfterSub uns x y strategy)
  | .MUL => some (isOverflowAfterMul uns x y strategy)
  | .DIV => some (isOverflowAfterDiv uns x y strategy 0)
  | .MOD => some (isOverflowAfterMod uns x y)
  | _ => none

/-- The operands cut to a type, and the result brought back to 64 bits. -/
def isOverflowAt (w : ℕ) (uns : Bool) (exprKind : ExprKind) (x y : BitVec 64)
    (strategy : OverflowStrategy) : Option (Checked 64) :=
  (isOverflow uns (convert uns x w) (convert uns y w) exprKind strategy).map fun c =>
    ⟨c.isOverflow, convert uns c.res 64⟩

def isIntOverflow (typeKind : TypeKind) (exprKind : ExprKind) (x y : BitVec 64)
    (strategy : OverflowStrategy) : Option (Checked 64) :=
  match typeKind with
  | .TYPE_INT8 => isOverflowAt 8 false exprKind x y strategy
  | .TYPE_INT16 => isOverflowAt 16 false exprKind x y strategy
  | .TYPE_INT32 => isOverflowAt 32 false exprKind x y strategy
  | .TYPE_INT64 => isOverflowAt 64 false exprKind x y strategy
  | .TYPE_INT_NATIVE => isOverflowAt 64 false exprKind x y strategy
  | _ => none

def isUIntOverflow (typeKind : TypeKind) (exprKind : ExprKind) (x y : BitVec 64)
    (strategy : OverflowStrategy) : Option (Checked 64) :=
  match typeKind with
  | .TYPE_UINT8 => isOverflowAt 8 true exprKind x y strategy
  | .TYPE_UINT16 => isOverflowAt 16 true exprKind x y strategy
  | .TYPE_UINT32 => isOverflowAt 32 true exprKind x y strategy
  | .TYPE_UINT64 => isOverflowAt 64 true exprKind x y strategy
  | .TYPE_UINT_NATIVE => isOverflowAt 64 true exprKind x y strategy
  | _ => none

/-- The size and the reading of `LargerType`. -/
def largerType (w : ℕ) (unsT : Bool) (n : ℕ) (unsK : Bool) : ℕ × Bool :=
  if w ≤ n then (n, unsK) else (w, unsT)

/-- The flag of `IsTypecastOverflowForInt<T, K>` for a type `T` of `w` bits and a type `K` of `n`
bits. -/
def typecastOverflows (unsT : Bool) (x : BitVec w) (n : ℕ) (unsK : Bool) : Bool :=
  if !unsT && unsK && decide (value unsT x < 0) then true
  else if unsT && !unsK then
    decide (value unsT (convert unsK (numericMax n unsK) w) < value unsT x)
  else
    let larger := largerType w unsT n unsK
    let tmax := value larger.2 (convert unsT (numericMax w unsT) larger.1)
    let kmax := value larger.2 (convert unsK (numericMax n unsK) larger.1)
    if kmax < tmax then
      decide (value unsT (convert unsK (numericMax n unsK) w) < value unsT x) ||
        decide (value unsT x < value unsT (convert unsK (numericMin n unsK) w))
    else
      decide (value unsK (numericMax n unsK) < value unsK (convert unsT x n)) ||
        decide (value unsK (convert unsT x n) < value unsK (numericMin n unsK))

/-- The cast of `x` from the type `T` of `w` bits to the type `K` of `n` bits. -/
def isTypecastOverflowForInt (unsT : Bool) (x : BitVec w) (n : ℕ) (unsK : Bool)
    (strategy : OverflowStrategy) : Checked n :=
  let isOverflow := typecastOverflows unsT x n unsK
  if isOverflow && strategy = .SATURATING then
    ⟨isOverflow, if value unsT x < 0 then numericMin n unsK else numericMax n unsK⟩
  else ⟨isOverflow, convert unsT x n⟩

end Source

end OverflowChecker

end Cangjie.CHIR
