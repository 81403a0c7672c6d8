import Mathlib.Data.Nat.Size
import CangjieCompiler.Foundations.FixedWidth

/-!
# Fixed-width machine integers

`SInt` is the machine integer of the value-range analysis: a bit pattern together with its
width, read as signed or unsigned by the operation that uses it.  The word `val` of the
source with its unused bits cleared is exactly a `BitVec`, and the width becomes an index
of the type.

The first half follows the source function by function.  The second half reads comparisons and
named constants through the integer a word stands for.  What the arithmetic operations compute is
stated in `SIntArithmetic`.
-/

namespace Cangjie.CHIR

open FixedWidth

/-- The integer widths the analysis works with. -/
inductive IntWidth where
  | I8
  | I16
  | I32
  | I64
  deriving DecidableEq, Repr

/-- The number of bits of an integer width. -/
def IntWidth.bits : IntWidth → ℕ
  | .I8 => 8
  | .I16 => 16
  | .I32 => 32
  | .I64 => 64

theorem IntWidth.two_lt_bits (width : IntWidth) : 2 < width.bits := by
  cases width <;> decide

/-- What an arithmetic operation does with a result that its type cannot represent. -/
inductive OverflowStrategy where
  | NA
  | CHECKED
  | WRAPPING
  | THROWING
  | SATURATING
  deriving DecidableEq, Repr

/-- A machine integer of `w` bits. -/
abbrev SInt (w : ℕ) := BitVec w

namespace SInt

/-! ## The operations of the source -/

section Operations

variable {w : ℕ}

/-- The bit pattern with all bits set. -/
def allOnes (w : ℕ) : SInt w := BitVec.allOnes w

/-- The bit pattern with the single bit `pos` set. -/
def maskBit (w pos : ℕ) : SInt w := 1#w <<< pos

/-- Set the selected bit. -/
def setBit (v : SInt w) (pos : ℕ) : SInt w := v ||| maskBit w pos

/-- Clear the selected bit. -/
def clearBit (v : SInt w) (pos : ℕ) : SInt w := v &&& ~~~ maskBit w pos

/-- The number zero. -/
def zero (w : ℕ) : SInt w := 0#w

/-- The largest unsigned value. -/
def uMaxValue (w : ℕ) : SInt w := allOnes w

/-- The largest signed value: all bits but the sign bit. -/
def sMaxValue (w : ℕ) : SInt w := clearBit (allOnes w) (w - 1)

/-- The smallest unsigned value. -/
def uMinValue (w : ℕ) : SInt w := zero w

/-- The smallest signed value: only the sign bit. -/
def sMinValue (w : ℕ) : SInt w := setBit (zero w) (w - 1)

/-- The value with only the bit `pos` set. -/
def getOneBitSet (w pos : ℕ) : SInt w := setBit (zero w) pos

/-- The value whose bits from `lo` (included) to `hi` (excluded) are set. -/
def setBits (w lo hi : ℕ) : SInt w := BitVec.ofNat w ((2 ^ (hi - lo) - 1) * 2 ^ lo)

/-- The value whose `highBits` most significant bits are set. -/
def getHighBitsSet (w highBits : ℕ) : SInt w := setBits w (w - highBits) w

/-- The value whose `lowBits` least significant bits are set. -/
def getLowBitsSet (w lowBits : ℕ) : SInt w := setBits w 0 lowBits

/-- The value whose bits from `lo` upwards are set. -/
def getBitsSetFrom (w lo : ℕ) : SInt w := setBits w lo w

/-- The sign bit is set. -/
def isNeg (v : SInt w) : Bool := v.msb

/-- The sign bit is clear. -/
def isNonNeg (v : SInt w) : Bool := !isNeg v

/-- All bits are clear. -/
def isZero (v : SInt w) : Bool := v == 0#w

/-- Neither negative nor zero. -/
def isPositive (v : SInt w) : Bool := isNonNeg v && !isZero v

/-- All bits are set. -/
def isAllOnes (v : SInt w) : Bool := v == allOnes w

/-- The value is the largest unsigned value. -/
def isUMaxValue (v : SInt w) : Bool := isAllOnes v

/-- The value is the largest signed value. -/
def isSMaxValue (v : SInt w) : Bool := v == sMaxValue w

/-- The value is the smallest unsigned value. -/
def isUMinValue (v : SInt w) : Bool := isZero v

/-- The value is the smallest signed value. -/
def isSMinValue (v : SInt w) : Bool := v == sMinValue w

/-- The number of bits up to the most significant set bit. -/
def activeBits (v : SInt w) : ℕ := v.toNat.size

/-- The number of leading zero bits. -/
def clz (v : SInt w) : ℕ := w - activeBits v

/-- Unsigned comparison, strict. -/
def ult (a b : SInt w) : Bool := decide (a.toNat < b.toNat)

/-- Unsigned comparison. -/
def ule (a b : SInt w) : Bool := decide (a.toNat ≤ b.toNat)

/-- Unsigned comparison, strict and reversed. -/
def ugt (a b : SInt w) : Bool := !ule a b

/-- Unsigned comparison, reversed. -/
def uge (a b : SInt w) : Bool := !ult a b

/-- Signed comparison, strict. -/
def slt (a b : SInt w) : Bool := decide (a.toInt < b.toInt)

/-- Signed comparison. -/
def sle (a b : SInt w) : Bool := decide (a.toInt ≤ b.toInt)

/-- Signed comparison, strict and reversed. -/
def sgt (a b : SInt w) : Bool := !sle a b

/-- Signed comparison, reversed. -/
def sge (a b : SInt w) : Bool := !slt a b

/-- The smaller of two unsigned values. -/
def uMin (lhs rhs : SInt w) : SInt w := if ule lhs rhs then lhs else rhs

/-- The larger of two unsigned values. -/
def uMax (lhs rhs : SInt w) : SInt w := if ule lhs rhs then rhs else lhs

/-- Truncation to a narrower width. -/
def trunc (v : SInt w) (w' : ℕ) : SInt w' := BitVec.ofNat w' v.toNat

/-- Zero extension to a wider width. -/
def zExt (v : SInt w) (w' : ℕ) : SInt w' := BitVec.ofNat w' v.toNat

/-- Sign extension to a wider width. -/
def sExt (v : SInt w) (w' : ℕ) : SInt w' := BitVec.ofInt w' v.toInt

/-- Unsigned division. -/
def uDiv (a b : SInt w) : SInt w := BitVec.udiv a b

/-- Signed division, rounding toward zero. -/
def sDiv (a b : SInt w) : SInt w :=
  if isNeg a then
    if isNeg b then uDiv (-a) (-b) else -(uDiv (-a) b)
  else if isNeg b then -(uDiv a (-b))
  else uDiv a b

/-- Unsigned remainder. -/
def uRem (a b : SInt w) : SInt w := BitVec.umod a b

/-- Signed remainder, with the sign of the dividend. -/
def sRem (a b : SInt w) : SInt w :=
  if isNeg a then
    if isNeg b then -(uRem (-a) (-b)) else -(uRem (-a) b)
  else if isNeg b then uRem a (-b)
  else uRem a b

/-- Signed addition with overflow detection. -/
def sAddOvf (a b : SInt w) : SInt w × Bool :=
  let res := a + b
  (res, isNonNeg a == isNonNeg b && isNonNeg res != isNonNeg a)

/-- Unsigned addition with overflow detection. -/
def uAddOvf (a b : SInt w) : SInt w × Bool :=
  let res := a + b
  (res, ult res b)

/-- Signed subtraction with overflow detection. -/
def sSubOvf (a b : SInt w) : SInt w × Bool :=
  let res := a - b
  (res, isNonNeg a != isNonNeg b && isNonNeg res != isNonNeg a)

/-- Unsigned subtraction with overflow detection. -/
def uSubOvf (a b : SInt w) : SInt w × Bool :=
  let res := a - b
  (res, ugt res a)

/-- Signed multiplication with overflow detection, by dividing back. -/
def sMulOvf (a b : SInt w) : SInt w × Bool :=
  let res := a * b
  (res, if b != 0#w then sDiv res b != a || (isSMinValue a && isAllOnes b) else false)

/-- Unsigned multiplication with overflow detection, by multiplying half the left operand. -/
def uMulOvf (a b : SInt w) : SInt w × Bool :=
  if clz a + clz b + 2 ≤ w then (a * b, true)
  else
    let half := (a >>> 1) * b
    let doubled := half <<< 1
    if a.getLsbD 0 then
      let res := doubled + b
      (res, isNeg half || ult res b)
    else (doubled, isNeg half)

/-- Signed saturating addition. -/
def sAddSat (a b : SInt w) : SInt w :=
  let res := sAddOvf a b
  if !res.2 then res.1 else if isNeg a then sMinValue w else sMaxValue w

/-- Unsigned saturating addition. -/
def uAddSat (a b : SInt w) : SInt w :=
  let res := uAddOvf a b
  if !res.2 then res.1 else uMaxValue w

/-- Signed saturating subtraction. -/
def sSubSat (a b : SInt w) : SInt w :=
  let res := sSubOvf a b
  if !res.2 then res.1 else if isNeg a then sMinValue w else sMaxValue w

/-- Unsigned saturating subtraction. -/
def uSubSat (a b : SInt w) : SInt w :=
  let res := uSubOvf a b
  if res.2 then uMinValue w else res.1

/-- Signed saturating multiplication. -/
def sMulSat (a b : SInt w) : SInt w :=
  let res := sMulOvf a b
  if !res.2 then res.1 else if isNeg a != isNeg b then sMinValue w else sMaxValue w

/-- Unsigned saturating multiplication. -/
def uMulSat (a b : SInt w) : SInt w :=
  let res := uMulOvf a b
  if res.2 then uMaxValue w else res.1

/-- Signed saturating division: only the smallest value divided by `-1` overflows. -/
def sDivSat (a b : SInt w) : SInt w :=
  if b.toInt == -1 && isSMinValue a then sMaxValue w else sDiv a b

end Operations

/-! ## Words and comparisons by their readings -/

section Readings

variable {w : ℕ} {a b v : SInt w}

theorem eq_iff_value_eq (uns : Bool) : a = b ↔ value uns a = value uns b :=
  ⟨fun h => by rw [h], value_injective uns⟩

/-- The bounds of a signed reading, in the form the arithmetic below uses. -/
theorem value_false_bounds (v : SInt w) :
    -2 ^ (w - 1) ≤ value false v ∧ value false v ≤ 2 ^ (w - 1) - 1 :=
  value_representable false v

/-- The bounds of an unsigned reading. -/
theorem value_true_bounds (v : SInt w) : 0 ≤ value true v ∧ value true v ≤ 2 ^ w - 1 :=
  value_representable true v

@[simp] theorem ult_iff : ult a b = true ↔ value true a < value true b := by
  simp [ult]

@[simp] theorem ule_iff : ule a b = true ↔ value true a ≤ value true b := by
  simp [ule]

@[simp] theorem ugt_iff : ugt a b = true ↔ value true b < value true a := by
  simp [ugt, ule]

@[simp] theorem uge_iff : uge a b = true ↔ value true b ≤ value true a := by
  simp [uge, ult]

@[simp] theorem slt_iff : slt a b = true ↔ value false a < value false b := by
  simp [slt]

@[simp] theorem sle_iff : sle a b = true ↔ value false a ≤ value false b := by
  simp [sle]

@[simp] theorem sgt_iff : sgt a b = true ↔ value false b < value false a := by
  simp [sgt, sle]

@[simp] theorem sge_iff : sge a b = true ↔ value false b ≤ value false a := by
  simp [sge, slt]

@[simp] theorem isNeg_iff : isNeg v = true ↔ value false v < 0 := by
  rw [isNeg, BitVec.msb_eq_toInt, decide_eq_true_iff, value_false]

@[simp] theorem isNonNeg_iff : isNonNeg v = true ↔ 0 ≤ value false v := by
  rw [isNonNeg, Bool.not_eq_true', ← Bool.not_eq_true, isNeg_iff, not_lt]

@[simp] theorem isZero_iff : isZero v = true ↔ v = 0#w := by
  simp [isZero]

@[simp] theorem isAllOnes_iff : isAllOnes v = true ↔ v = allOnes w := by
  simp [isAllOnes]

@[simp] theorem isUMaxValue_iff : isUMaxValue v = true ↔ v = uMaxValue w := by
  simp [isUMaxValue, uMaxValue]

@[simp] theorem isUMinValue_iff : isUMinValue v = true ↔ v = uMinValue w := by
  simp [isUMinValue, uMinValue, zero]

@[simp] theorem isSMaxValue_iff : isSMaxValue v = true ↔ v = sMaxValue w := by
  simp [isSMaxValue]

@[simp] theorem isSMinValue_iff : isSMinValue v = true ↔ v = sMinValue w := by
  simp [isSMinValue]

theorem sMinValue_eq_ofInt (w : ℕ) : sMinValue w = BitVec.ofInt w (least w false) := by
  rw [sMinValue, setBit, zero, BitVec.zero_or, least_false]
  exact BitVec.intMin_eq_neg_two_pow

theorem sMaxValue_eq_ofInt (w : ℕ) : sMaxValue w = BitVec.ofInt w (greatest w false) := by
  have hmin : maskBit w (w - 1) = BitVec.ofInt w (least w false) :=
    BitVec.intMin_eq_neg_two_pow
  have hneg : greatest w false = -least w false - 1 := by simp
  rw [sMaxValue, clearBit, allOnes, BitVec.allOnes_and, BitVec.not_eq_neg_add, hmin, hneg,
    ofInt_sub, BitVec.ofInt_neg, ofInt_one]

theorem uMaxValue_eq_ofInt (w : ℕ) : uMaxValue w = BitVec.ofInt w (greatest w true) := by
  have hturn : greatest w true = -1 + 2 ^ w := by
    rw [greatest_true]
    ring
  rw [uMaxValue, allOnes, hturn, ofInt_add_two_pow, BitVec.ofInt_neg, ofInt_one,
    BitVec.neg_one_eq_allOnes]

theorem value_false_sMinValue (hw : 0 < w) : value false (sMinValue w) = -2 ^ (w - 1) := by
  rw [sMinValue_eq_ofInt, least_false]
  refine value_ofInt hw ⟨le_rfl, ?_⟩
  exact (least_nonpos w false).trans (greatest_nonneg w false)

theorem value_true_sMinValue (hw : 0 < w) : value true (sMinValue w) = 2 ^ (w - 1) := by
  have hturn := two_pow_eq hw
  have hfalse := value_false_sMinValue hw
  have hpos : (0 : ℤ) < 2 ^ (w - 1) := by positivity
  rcases value_false_eq hw (sMinValue w) with ⟨heq, -⟩ | ⟨heq, -⟩
  · have hnn := least_le_value true (sMinValue w)
    rw [least_true] at hnn
    omega
  · omega

theorem value_false_sMaxValue (hw : 0 < w) :
    value false (sMaxValue w) = 2 ^ (w - 1) - 1 := by
  rw [sMaxValue_eq_ofInt, ← greatest_false]
  refine value_ofInt hw ⟨?_, le_rfl⟩
  exact (least_nonpos w false).trans (greatest_nonneg w false)

theorem value_true_sMaxValue (hw : 0 < w) : value true (sMaxValue w) = 2 ^ (w - 1) - 1 := by
  have hturn := two_pow_eq hw
  have hfalse := value_false_sMaxValue hw
  have hpos : (0 : ℤ) < 2 ^ (w - 1) := by positivity
  have hle := value_le_greatest true (sMaxValue w)
  rw [greatest_true] at hle
  rcases value_false_eq hw (sMaxValue w) with ⟨heq, -⟩ | ⟨heq, -⟩
  · omega
  · omega

theorem value_true_uMaxValue (hw : 0 < w) : value true (uMaxValue w) = 2 ^ w - 1 := by
  rw [uMaxValue_eq_ofInt, ← greatest_true]
  exact value_ofInt hw ⟨(least_nonpos w true).trans (greatest_nonneg w true), le_rfl⟩

theorem value_false_uMaxValue (hw : 0 < w) : value false (uMaxValue w) = -1 := by
  have hturn := two_pow_eq hw
  have htrue := value_true_uMaxValue hw
  have hpos : (0 : ℤ) < 2 ^ (w - 1) := by positivity
  rcases value_false_eq hw (uMaxValue w) with ⟨heq, hlt⟩ | ⟨heq, -⟩
  · omega
  · omega

theorem value_uMinValue (w : ℕ) (uns : Bool) : value uns (uMinValue w) = 0 := value_zero uns

/-- The words that a signedness takes for its ends. -/
theorem value_min (hw : 0 < w) (uns : Bool) :
    value uns (if uns then uMinValue w else sMinValue w) = least w uns := by
  cases uns
  · simpa using value_false_sMinValue hw
  · simpa using value_uMinValue w true

theorem value_max (hw : 0 < w) (uns : Bool) :
    value uns (if uns then uMaxValue w else sMaxValue w) = greatest w uns := by
  cases uns
  · simpa using value_false_sMaxValue hw
  · simpa using value_true_uMaxValue hw

end Readings

end SInt

end Cangjie.CHIR
