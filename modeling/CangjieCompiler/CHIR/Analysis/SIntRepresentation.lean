import CangjieCompiler.CHIR.Analysis.SIntArithmetic
import CangjieCompiler.Foundations.FixedWidthBits

/-!
# Machine integers in a word of 64 bits

The source keeps the bits of a machine integer in a word of 64 bits whose unused bits are clear, and
masks the word after every operation that can set them.  Sign tests and bit counts are offset by the
number of unused bits.

The low bits of the word are the machine integer of `SInt`.  What the overflow-detecting and the
saturating operations compute in the word is stated for the integers it stands for.
-/

namespace Cangjie.CHIR

open FixedWidth

/-- The mask that `SInt::ClearUnusedBits` applies. -/
def clearUnusedBits (width : IntWidth) (val : BitVec 64) : BitVec 64 :=
  let wordBits := (width.bits - 1) % 64 + 1
  val &&& (BitVec.allOnes 64 >>> (64 - wordBits))

lemma IntWidth.bits_pos (width : IntWidth) : 0 < width.bits := by
  cases width <;> decide

lemma IntWidth.bits_le (width : IntWidth) : width.bits ≤ 64 := by
  cases width <;> decide

lemma toNat_allOnes_shiftRight (width : IntWidth) :
    (BitVec.allOnes 64 >>> (64 - width.bits)).toNat = 2 ^ width.bits - 1 := by
  cases width <;> decide

/-- Clearing the unused bits keeps the number modulo the width. -/
lemma toNat_clearUnusedBits (width : IntWidth) (val : BitVec 64) :
    (clearUnusedBits width val).toNat = val.toNat % 2 ^ width.bits := by
  have hbits : (width.bits - 1) % 64 + 1 = width.bits := by
    cases width <;> decide
  rw [clearUnusedBits, hbits, BitVec.toNat_and, toNat_allOnes_shiftRight,
    Nat.and_two_pow_sub_one_eq_mod]

/-- A machine integer as the source keeps it. -/
structure SIntRep (width : IntWidth) where
  val : BitVec 64
  unusedClear : val.toNat < 2 ^ width.bits

namespace SIntRep

variable {width : IntWidth}

/-! ## The operations of the source -/

/-- The constructor, which clears the unused bits. -/
def of (width : IntWidth) (val : BitVec 64) : SIntRep width where
  val := clearUnusedBits width val
  unusedClear := by
    rw [toNat_clearUnusedBits]
    exact Nat.mod_lt _ (Nat.two_pow_pos width.bits)

def signExtend64 (val : BitVec 64) (srcWidth : ℕ) : ℤ :=
  ((val <<< (64 - srcWidth)).sshiftRight (64 - srcWidth)).toInt

/-- The number of leading zero bits of a word. -/
def leadingZeroes (val : BitVec 64) : ℕ :=
  if val = 0#64 then 64 else 64 - val.toNat.size

def maskBit (pos : ℕ) : BitVec 64 := 1#64 <<< pos

def sVal (a : SIntRep width) : ℤ := signExtend64 a.val width.bits

def zero (width : IntWidth) : SIntRep width := of width 0#64

def allOnes (width : IntWidth) : SIntRep width := of width (BitVec.allOnes 64)

def uMaxValue (width : IntWidth) : SIntRep width := allOnes width

def uMinValue (width : IntWidth) : SIntRep width := zero width

/-- `ClearBit` of the sign bit on the word with all bits set. -/
def sMaxValue (width : IntWidth) : SIntRep width :=
  of width ((allOnes width).val &&& ~~~maskBit (width.bits - 1))

/-- `SetBit` of the sign bit on zero. -/
def sMinValue (width : IntWidth) : SIntRep width :=
  of width ((zero width).val ||| maskBit (width.bits - 1))

def at' (a : SIntRep width) (bit : ℕ) : Bool := (maskBit bit &&& a.val) != 0#64

def isNeg (a : SIntRep width) : Bool := a.at' (width.bits - 1)

def isNonNeg (a : SIntRep width) : Bool := !a.isNeg

def isAllOnes (a : SIntRep width) : Bool :=
  a.val == BitVec.allOnes 64 >>> (64 - width.bits)

def isSMinValue (a : SIntRep width) : Bool := a.val == 1#64 <<< (width.bits - 1)

def uCmp (a b : SIntRep width) : ℤ :=
  if a.val < b.val then -1 else if b.val < a.val then 1 else 0

def ult (a b : SIntRep width) : Bool := decide (uCmp a b < 0)

def ule (a b : SIntRep width) : Bool := decide (uCmp a b ≤ 0)

def ugt (a b : SIntRep width) : Bool := !ule a b

def clz (a : SIntRep width) : ℕ := leadingZeroes a.val - (64 - width.bits)

def clo (a : SIntRep width) : ℕ := leadingZeroes (~~~(a.val <<< (64 - width.bits)))

def add (a b : SIntRep width) : SIntRep width := of width (a.val + b.val)

def sub (a b : SIntRep width) : SIntRep width := of width (a.val - b.val)

def mul (a b : SIntRep width) : SIntRep width := of width (a.val * b.val)

/-- All bits flipped, and one added. -/
def neg (a : SIntRep width) : SIntRep width :=
  of width ((of width (a.val ^^^ BitVec.allOnes 64)).val + 1#64)

/-- `operator<<=` by a number of bits that is at most the width. -/
def shiftLeft (a : SIntRep width) (count : ℕ) : SIntRep width :=
  of width (if count = width.bits then 0#64 else a.val <<< count)

def getULimitedValue (a : SIntRep width) (maxv : ℕ) : ℕ :=
  if maxv < a.val.toNat then maxv else a.val.toNat

def shl (a count : SIntRep width) : SIntRep width :=
  a.shiftLeft (count.getULimitedValue width.bits)

/-- `LShrInPlace` by a number of bits that is at most the width. -/
def lShr (a : SIntRep width) (count : ℕ) : SIntRep width where
  val := if count = width.bits then 0#64 else a.val >>> count
  unusedClear := by
    split_ifs with hcount
    · exact Nat.two_pow_pos width.bits
    · rw [BitVec.toNat_ushiftRight]
      exact (Nat.shiftRight_le _ _).trans_lt a.unusedClear

/-- The source does not divide by zero. -/
def uDiv (a b : SIntRep width) : Option (SIntRep width) :=
  if b.val = 0#64 then none else some (of width (a.val / b.val))

def sDiv (a b : SIntRep width) : Option (SIntRep width) :=
  if a.isNeg then
    if b.isNeg then a.neg.uDiv b.neg else (a.neg.uDiv b).map neg
  else if b.isNeg then (a.uDiv b.neg).map neg
  else a.uDiv b

def sAddOvf (a b : SIntRep width) : SIntRep width × Bool :=
  let res := a.add b
  (res, a.isNonNeg == b.isNonNeg && res.isNonNeg != a.isNonNeg)

def uAddOvf (a b : SIntRep width) : SIntRep width × Bool :=
  let res := a.add b
  (res, res.ult b)

def sSubOvf (a b : SIntRep width) : SIntRep width × Bool :=
  let res := a.sub b
  (res, a.isNonNeg != b.isNonNeg && res.isNonNeg != a.isNonNeg)

def uSubOvf (a b : SIntRep width) : SIntRep width × Bool :=
  let res := a.sub b
  (res, res.ugt a)

def sMulOvf (a b : SIntRep width) : Option (SIntRep width × Bool) :=
  let res := a.mul b
  if b.val ≠ 0#64 then
    (res.sDiv b).map fun back => (res, back.val != a.val || (a.isSMinValue && b.isAllOnes))
  else some (res, false)

def uMulOvf (a b : SIntRep width) : SIntRep width × Bool :=
  if a.clz + b.clz + 2 ≤ width.bits then (a.mul b, true)
  else
    let half := (a.lShr 1).mul b
    let doubled := half.shiftLeft 1
    if a.at' 0 then
      let res := doubled.add b
      (res, half.isNeg || res.ult b)
    else (doubled, half.isNeg)

def sShlOvf (a count : SIntRep width) : SIntRep width × Bool :=
  if width.bits ≤ count.val.toNat then (zero width, true)
  else
    (a.shl count,
      if a.isNonNeg then decide (a.clz ≤ count.val.toNat) else decide (a.clo ≤ count.val.toNat))

def uShlOvf (a count : SIntRep width) : SIntRep width × Bool :=
  if width.bits ≤ count.val.toNat then (zero width, true)
  else (a.shl count, decide (a.clz < count.val.toNat))

def sAddSat (a b : SIntRep width) : SIntRep width :=
  let res := a.sAddOvf b
  if !res.2 then res.1 else if a.isNeg then sMinValue width else sMaxValue width

def uAddSat (a b : SIntRep width) : SIntRep width :=
  let res := a.uAddOvf b
  if !res.2 then res.1 else uMaxValue width

def sSubSat (a b : SIntRep width) : SIntRep width :=
  let res := a.sSubOvf b
  if !res.2 then res.1 else if a.isNeg then sMinValue width else sMaxValue width

def uSubSat (a b : SIntRep width) : SIntRep width :=
  let res := a.uSubOvf b
  if res.2 then uMinValue width else res.1

def sMulSat (a b : SIntRep width) : Option (SIntRep width) :=
  (a.sMulOvf b).map fun res =>
    if !res.2 then res.1 else if a.isNeg != b.isNeg then sMinValue width else sMaxValue width

def uMulSat (a b : SIntRep width) : SIntRep width :=
  let res := a.uMulOvf b
  if res.2 then uMaxValue width else res.1

def sDivSat (a b : SIntRep width) : Option (SIntRep width) :=
  if b.sVal = -1 ∧ a.isSMinValue then some (sMaxValue width) else a.sDiv b

/-! ## The machine integer of a word -/

/-- The bits that are used. -/
def word (a : SIntRep width) : SInt width.bits := a.val.setWidth width.bits

lemma toNat_word (a : SIntRep width) : a.word.toNat = a.val.toNat := by
  rw [word, BitVec.toNat_setWidth, Nat.mod_eq_of_lt a.unusedClear]

lemma word_of (width : IntWidth) (val : BitVec 64) :
    (of width val).word = val.setWidth width.bits := by
  apply BitVec.eq_of_toNat_eq
  rw [toNat_word, of, toNat_clearUnusedBits, BitVec.toNat_setWidth]

lemma val_eq_iff {a b : SIntRep width} : a.val = b.val ↔ a.word = b.word := by
  rw [← BitVec.toNat_inj, ← BitVec.toNat_inj, toNat_word, toNat_word]

lemma val_eq_iff_word {a : SIntRep width} {v : BitVec 64} (hv : v.toNat < 2 ^ width.bits) :
    a.val = v ↔ a.word = v.setWidth width.bits := by
  rw [← BitVec.toNat_inj, ← BitVec.toNat_inj, toNat_word, BitVec.toNat_setWidth,
    Nat.mod_eq_of_lt hv]

@[simp] lemma word_zero : (zero width).word = BitVec.ofNat width.bits 0 := by
  rw [zero, word_of, BitVec.setWidth_zero]

@[simp] lemma word_add (a b : SIntRep width) : (a.add b).word = a.word + b.word := by
  rw [add, word_of, BitVec.setWidth_add _ _ width.bits_le]
  rfl

@[simp] lemma word_mul (a b : SIntRep width) : (a.mul b).word = a.word * b.word := by
  rw [mul, word_of, BitVec.setWidth_mul _ _ width.bits_le]
  rfl

@[simp] lemma word_sub (a b : SIntRep width) : (a.sub b).word = a.word - b.word := by
  rw [sub, word_of, BitVec.sub_eq_add_neg, BitVec.setWidth_add _ _ width.bits_le,
    BitVec.setWidth_neg_of_le width.bits_le, ← BitVec.sub_eq_add_neg]
  rfl

@[simp] lemma word_neg (a : SIntRep width) : a.neg.word = -a.word := by
  have hflip : (of width (a.val ^^^ BitVec.allOnes 64)).word = ~~~a.word := by
    rw [word_of, BitVec.xor_allOnes, BitVec.setWidth_not width.bits_le]
    rfl
  rw [neg, word_of, BitVec.setWidth_add _ _ width.bits_le, BitVec.neg_eq_not_add, ← hflip]
  cases width <;> rfl

@[simp] lemma word_allOnes : (allOnes width).word = SInt.allOnes width.bits := by
  rw [allOnes, word_of]
  cases width <;> rfl

@[simp] lemma word_uMaxValue : (uMaxValue width).word = SInt.uMaxValue width.bits := word_allOnes

@[simp] lemma word_uMinValue : (uMinValue width).word = SInt.uMinValue width.bits := word_zero

@[simp] lemma word_sMaxValue : (sMaxValue width).word = SInt.sMaxValue width.bits := by
  cases width <;> rfl

@[simp] lemma word_sMinValue : (sMinValue width).word = SInt.sMinValue width.bits := by
  cases width <;> rfl

/-- A bit within the width. -/
lemma at_eq (a : SIntRep width) {bit : ℕ} (hbit : bit < width.bits) :
    a.at' bit = a.word.getLsbD bit := by
  have hbit64 : bit < 64 := hbit.trans_le width.bits_le
  have hmask : maskBit bit = BitVec.twoPow 64 bit := rfl
  have hne : BitVec.twoPow 64 bit ≠ 0#64 := by
    intro hzero
    have hnat := congrArg BitVec.toNat hzero
    rw [BitVec.toNat_twoPow_of_lt hbit64] at hnat
    exact (Nat.two_pow_pos bit).ne' hnat
  rw [at', hmask, BitVec.twoPow_and, word, BitVec.getLsbD_setWidth, decide_eq_true hbit,
    Bool.true_and]
  cases hval : a.val.getLsbD bit
  · rfl
  · exact bne_iff_ne.mpr hne

@[simp] lemma isNeg_eq (a : SIntRep width) : a.isNeg = SInt.isNeg a.word := by
  rw [isNeg, at_eq a (Nat.sub_lt width.bits_pos Nat.one_pos), SInt.isNeg, BitVec.msb_eq_getLsbD_last]

@[simp] lemma isNonNeg_eq (a : SIntRep width) : a.isNonNeg = SInt.isNonNeg a.word := by
  rw [isNonNeg, isNeg_eq, SInt.isNonNeg]

@[simp] lemma isAllOnes_eq (a : SIntRep width) : a.isAllOnes = SInt.isAllOnes a.word := by
  rw [isAllOnes, SInt.isAllOnes, Bool.eq_iff_iff, beq_iff_eq, beq_iff_eq, val_eq_iff_word]
  · cases width <;> exact Iff.rfl
  · rw [toNat_allOnes_shiftRight]
    exact Nat.sub_lt (Nat.two_pow_pos _) Nat.one_pos

@[simp] lemma isSMinValue_eq (a : SIntRep width) : a.isSMinValue = SInt.isSMinValue a.word := by
  rw [isSMinValue, SInt.isSMinValue, Bool.eq_iff_iff, beq_iff_eq, beq_iff_eq, val_eq_iff_word]
  · cases width <;> exact Iff.rfl
  · cases width <;> decide

lemma lt_iff {a b : SIntRep width} : a.val < b.val ↔ a.word.toNat < b.word.toNat := by
  rw [BitVec.lt_def, toNat_word, toNat_word]

@[simp] lemma ult_eq (a b : SIntRep width) : a.ult b = SInt.ult a.word b.word := by
  rw [ult, SInt.ult, uCmp]
  split_ifs with hlt hgt
  · rw [decide_eq_true (lt_iff.mp hlt)]
    rfl
  all_goals
    rw [decide_eq_false fun h => hlt (lt_iff.mpr h)]
    rfl

@[simp] lemma ugt_eq (a b : SIntRep width) : a.ugt b = SInt.ugt a.word b.word := by
  rw [ugt, ule, SInt.ugt, SInt.ule, uCmp]
  split_ifs with hlt hgt
  · rw [decide_eq_true (lt_iff.mp hlt).le]
    rfl
  · rw [decide_eq_false (Nat.not_le.mpr (lt_iff.mp hgt))]
    rfl
  · rw [decide_eq_true (Nat.not_lt.mp fun h => hgt (lt_iff.mpr h))]
    rfl

/-- The signed reading. -/
lemma sVal_eq (a : SIntRep width) : a.sVal = value false a.word := by
  have hclear := a.unusedClear
  rw [sVal, signExtend64, BitVec.toInt_sshiftRight, BitVec.toInt_shiftLeft, value_false,
    BitVec.toInt_eq_toNat_bmod, toNat_word]
  cases width with
  | I64 =>
    simp only [IntWidth.bits] at hclear ⊢
    rw [Nat.shiftLeft_eq, Int.shiftRight_eq_div_pow, Int.bmod_def, Int.bmod_def]
    push_cast
    norm_num at hclear ⊢
  | _ =>
    simp only [IntWidth.bits] at hclear ⊢
    rw [Nat.shiftLeft_eq, Int.shiftRight_eq_div_pow, Int.bmod_def, Int.bmod_def]
    push_cast
    norm_num at hclear ⊢
    omega

@[simp] lemma word_shiftLeft (a : SIntRep width) {count : ℕ} (hcount : count < width.bits) :
    (a.shiftLeft count).word = a.word <<< count := by
  rw [shiftLeft, word_of, if_neg hcount.ne]
  apply BitVec.eq_of_toNat_eq
  have hdvd : 2 ^ width.bits ∣ 2 ^ 64 := Nat.pow_dvd_pow 2 width.bits_le
  rw [BitVec.toNat_setWidth, BitVec.toNat_shiftLeft, BitVec.toNat_shiftLeft, toNat_word,
    Nat.mod_mod_of_dvd _ hdvd]

lemma word_shl (a : SIntRep width) {count : SIntRep width}
    (hcount : count.val.toNat < width.bits) : (a.shl count).word = a.word <<< count.val.toNat := by
  rw [shl, getULimitedValue, if_neg hcount.not_gt, word_shiftLeft a hcount]

@[simp] lemma word_lShr_one (a : SIntRep width) : (a.lShr 1).word = a.word >>> 1 := by
  apply BitVec.eq_of_toNat_eq
  have hone : 1 ≠ width.bits := by cases width <;> decide
  have hval : (a.lShr 1).val = a.val >>> 1 := if_neg hone
  rw [toNat_word, hval, BitVec.toNat_ushiftRight, BitVec.toNat_ushiftRight, toNat_word]

/-- The leading zeros of the word, without the unused bits. -/
lemma clz_eq (a : SIntRep width) : a.clz = SInt.clz a.word := by
  have hsize : a.val.toNat.size ≤ width.bits := Nat.size_le.mpr a.unusedClear
  have hbits := width.bits_le
  rw [clz, leadingZeroes, SInt.clz, SInt.activeBits, toNat_word]
  split_ifs with hzero
  · rw [hzero, BitVec.toNat_zero, Nat.size_zero]
    omega
  · omega

lemma uDiv_eq (a b : SIntRep width) (hb : b.word ≠ BitVec.ofNat width.bits 0) :
    ∃ q, a.uDiv b = some q ∧ q.word = SInt.uDiv a.word b.word := by
  have hval : b.val ≠ 0#64 := by
    intro hzero
    refine hb (BitVec.eq_of_toNat_eq ?_)
    rw [toNat_word, hzero, BitVec.toNat_zero, BitVec.toNat_zero]
  refine ⟨_, by rw [uDiv, if_neg hval], ?_⟩
  apply BitVec.eq_of_toNat_eq
  rw [word_of, BitVec.toNat_setWidth, BitVec.toNat_udiv, SInt.uDiv, BitVec.udiv_eq,
    BitVec.toNat_udiv, toNat_word, toNat_word]
  exact Nat.mod_eq_of_lt ((Nat.div_le_self _ _).trans_lt a.unusedClear)

lemma uDiv_eq_none {a b : SIntRep width} (hb : b.word = BitVec.ofNat width.bits 0) : a.uDiv b = none := by
  have hval : b.val = 0#64 := by
    apply BitVec.eq_of_toNat_eq
    rw [← toNat_word, hb, BitVec.toNat_zero, BitVec.toNat_zero]
  rw [uDiv, if_pos hval]

/-- The quotient exists unless the divisor is zero. -/
lemma map_word_sDiv (a b : SIntRep width) :
    (a.sDiv b).map word =
      if b.word = BitVec.ofNat width.bits 0 then none else some (SInt.sDiv a.word b.word) := by
  rw [sDiv, SInt.sDiv, isNeg_eq, isNeg_eq]
  by_cases hb : b.word = BitVec.ofNat width.bits 0
  · have hneg : SInt.isNeg b.word = false := by
      rw [hb, SInt.isNeg, BitVec.msb_zero]
    rw [if_pos hb, hneg, uDiv_eq_none hb, uDiv_eq_none hb]
    cases SInt.isNeg a.word <;> rfl
  · have hbneg : b.neg.word ≠ BitVec.ofNat width.bits 0 := by
      rw [word_neg]
      exact fun h => hb (BitVec.neg_eq_zero_iff.mp h)
    obtain ⟨q₁, hq₁, hword₁⟩ := uDiv_eq a b hb
    obtain ⟨q₂, hq₂, hword₂⟩ := uDiv_eq a.neg b hb
    obtain ⟨q₃, hq₃, hword₃⟩ := uDiv_eq a b.neg hbneg
    obtain ⟨q₄, hq₄, hword₄⟩ := uDiv_eq a.neg b.neg hbneg
    rw [word_neg] at hword₂ hword₃
    rw [word_neg, word_neg] at hword₄
    rw [if_neg hb, hq₁, hq₂, hq₃, hq₄]
    cases SInt.isNeg a.word <;> cases SInt.isNeg b.word
    · exact congrArg some hword₁
    · exact congrArg some ((word_neg q₃).trans (congrArg _ hword₃))
    · exact congrArg some ((word_neg q₂).trans (congrArg _ hword₂))
    · exact congrArg some hword₄

/-! ## The overflow-detecting operations on the machine integers -/

/-- A result and its flag, with the machine integer for the word. -/
def flagged (p : SIntRep width × Bool) : SInt width.bits × Bool := (p.1.word, p.2)

lemma flagged_sAddOvf (a b : SIntRep width) :
    flagged (a.sAddOvf b) = SInt.sAddOvf a.word b.word := by
  simp only [flagged, sAddOvf, SInt.sAddOvf, word_add, isNonNeg_eq]

lemma flagged_uAddOvf (a b : SIntRep width) :
    flagged (a.uAddOvf b) = SInt.uAddOvf a.word b.word := by
  simp only [flagged, uAddOvf, SInt.uAddOvf, word_add, ult_eq]

lemma flagged_sSubOvf (a b : SIntRep width) :
    flagged (a.sSubOvf b) = SInt.sSubOvf a.word b.word := by
  simp only [flagged, sSubOvf, SInt.sSubOvf, word_sub, isNonNeg_eq]

lemma flagged_uSubOvf (a b : SIntRep width) :
    flagged (a.uSubOvf b) = SInt.uSubOvf a.word b.word := by
  simp only [flagged, uSubOvf, SInt.uSubOvf, word_sub, ugt_eq]

lemma val_ne_zero_iff (a : SIntRep width) : a.val ≠ 0#64 ↔ a.word ≠ BitVec.ofNat width.bits 0 := by
  have hzero : (0#64).toNat < 2 ^ width.bits := Nat.two_pow_pos width.bits
  rw [ne_eq, val_eq_iff_word hzero, BitVec.setWidth_zero]

lemma map_flagged_sMulOvf (a b : SIntRep width) :
    (a.sMulOvf b).map flagged = some (SInt.sMulOvf a.word b.word) := by
  rw [sMulOvf, SInt.sMulOvf]
  by_cases hb : b.word = BitVec.ofNat width.bits 0
  · rw [if_neg fun h => (val_ne_zero_iff b).mp h hb, if_neg (by rw [hb, bne_self_eq_false]; decide)]
    exact congrArg (fun w => some (w, false)) (word_mul a b)
  · obtain ⟨back, hback, hword⟩ : ∃ back, (a.mul b).sDiv b = some back ∧
        back.word = SInt.sDiv (a.word * b.word) b.word := by
      have hmap := map_word_sDiv (a.mul b) b
      rw [if_neg hb, word_mul] at hmap
      exact Option.map_eq_some_iff.mp hmap
    rw [if_pos ((val_ne_zero_iff b).mpr hb), if_pos (bne_iff_ne.mpr hb), hback]
    have hne : (back.val != a.val) = (SInt.sDiv (a.word * b.word) b.word != a.word) := by
      rw [Bool.eq_iff_iff, bne_iff_ne, bne_iff_ne, ne_eq, ne_eq, val_eq_iff, hword]
    rw [Option.map_some, Option.map_some, flagged, word_mul, hne, isSMinValue_eq, isAllOnes_eq]

lemma flagged_uMulOvf (a b : SIntRep width) :
    flagged (a.uMulOvf b) = SInt.uMulOvf a.word b.word := by
  have hone : 1 < width.bits := lt_trans Nat.one_lt_two width.two_lt_bits
  rw [uMulOvf, SInt.uMulOvf, clz_eq, clz_eq, at_eq a width.bits_pos]
  split_ifs with hmany hodd
  · rw [flagged, word_mul]
  · simp only [flagged, word_add, word_shiftLeft _ hone, word_mul, word_lShr_one, isNeg_eq, ult_eq]
  · simp only [flagged, word_shiftLeft _ hone, word_mul, word_lShr_one, isNeg_eq]

/-! ## Shifts -/

/-- A shifted number has so many bits more. -/
lemma size_mul_two_pow_le_iff {x c n : ℕ} (hx : x ≠ 0) :
    x * 2 ^ c < 2 ^ n ↔ x.size + c ≤ n := by
  rw [← Nat.size_le, ← Nat.shiftLeft_eq, Nat.size_shiftLeft hx]

lemma representable_true_iff {w : ℕ} {n : ℕ} : Representable w true (n : ℤ) ↔ n < 2 ^ w := by
  have hcast : ((2 ^ w : ℕ) : ℤ) = 2 ^ w := by push_cast; rfl
  rw [Representable, least_true, greatest_true, ← hcast]
  omega

lemma representable_false_iff {w : ℕ} {n : ℕ} :
    Representable w false (n : ℤ) ↔ n < 2 ^ (w - 1) := by
  have hcast : ((2 ^ (w - 1) : ℕ) : ℤ) = 2 ^ (w - 1) := by push_cast; rfl
  rw [Representable, least_false, greatest_false, ← hcast]
  omega

lemma representable_false_neg_iff {w : ℕ} {n : ℕ} :
    Representable w false (-(n : ℤ)) ↔ n ≤ 2 ^ (w - 1) := by
  have hcast : ((2 ^ (w - 1) : ℕ) : ℤ) = 2 ^ (w - 1) := by push_cast; rfl
  have hpos : 0 < 2 ^ (w - 1) := Nat.two_pow_pos _
  rw [Representable, least_false, greatest_false, ← hcast]
  omega

/-- An unsigned number loses bits when it is shifted by more than its leading zeros. -/
lemma clz_lt_iff (a : SIntRep width) {c : ℕ} (hc : c < width.bits) :
    a.clz < c ↔ ¬ Representable width.bits true (value true a.word * 2 ^ c) := by
  have hvalue : value true a.word * 2 ^ c = ((a.word.toNat * 2 ^ c : ℕ) : ℤ) := by
    rw [value_true]
    push_cast
    rfl
  have hsize : a.word.toNat.size ≤ width.bits := Nat.size_le.mpr a.word.isLt
  rw [hvalue, representable_true_iff, clz_eq, SInt.clz, SInt.activeBits]
  by_cases hzero : a.word.toNat = 0
  · have hpos : 0 < 2 ^ width.bits := Nat.two_pow_pos _
    rw [hzero, Nat.size_zero, zero_mul]
    omega
  · rw [size_mul_two_pow_le_iff hzero]
    omega

/-- A number that is not negative keeps its sign bit clear only if it is shifted by less than its
leading zeros. -/
lemma clz_le_iff (a : SIntRep width) (ha : 0 ≤ value false a.word) {c : ℕ} (hc : c < width.bits) :
    a.clz ≤ c ↔ ¬ Representable width.bits false (value false a.word * 2 ^ c) := by
  have hturn := two_pow_eq width.bits_pos
  have hbounds := value_false_eq width.bits_pos a.word
  have hlt := SInt.value_true_bounds a.word
  have hnat : value false a.word = (a.word.toNat : ℤ) := by
    rw [← value_true]
    omega
  have hvalue : value false a.word * 2 ^ c = ((a.word.toNat * 2 ^ c : ℕ) : ℤ) := by
    rw [hnat]
    push_cast
    rfl
  have hsize : a.word.toNat.size ≤ width.bits := Nat.size_le.mpr a.word.isLt
  rw [hvalue, representable_false_iff, clz_eq, SInt.clz, SInt.activeBits]
  by_cases hzero : a.word.toNat = 0
  · have hpos : 0 < 2 ^ (width.bits - 1) := Nat.two_pow_pos _
    rw [hzero, Nat.size_zero, zero_mul]
    omega
  · rw [size_mul_two_pow_le_iff hzero]
    omega

/-- Set bits put behind a number are counted in full. -/
lemma size_mul_two_pow_add (n k : ℕ) : (n * 2 ^ k + (2 ^ k - 1)).size = n.size + k := by
  have hpos : 0 < 2 ^ k := Nat.two_pow_pos k
  apply le_antisymm
  · rw [Nat.size_le, pow_add]
    calc n * 2 ^ k + (2 ^ k - 1) < (n + 1) * 2 ^ k := by rw [add_mul]; omega
      _ ≤ 2 ^ n.size * 2 ^ k := Nat.mul_le_mul_right _ (Nat.lt_size_self n)
  · rcases Nat.eq_zero_or_pos n with rfl | hn
    · rw [Nat.size_zero, zero_add, zero_mul, zero_add]
      rcases Nat.eq_zero_or_pos k with rfl | hk
      · exact Nat.zero_le _
      · have hhalf : 2 ^ k = 2 * 2 ^ (k - 1) := by rw [← pow_succ', Nat.sub_add_cancel hk]
        have hlt : k - 1 < (2 ^ k - 1).size := Nat.lt_size.mpr (by omega)
        omega
    · have hsize : 0 < n.size := Nat.size_pos.mpr hn
      have hlow : 2 ^ (n.size - 1) ≤ n := Nat.lt_size.mp (by omega)
      have hlt : n.size - 1 + k < (n * 2 ^ k + (2 ^ k - 1)).size := by
        rw [Nat.lt_size, pow_add]
        exact (Nat.mul_le_mul_right _ hlow).trans (Nat.le_add_right _ _)
      omega

/-- The leading ones are the leading zeros of the complement. -/
lemma clo_eq (a : SIntRep width) :
    a.clo = width.bits - (2 ^ width.bits - 1 - a.word.toNat).size := by
  have hclear := a.unusedClear
  have hbits := width.bits_le
  have hpow : 2 ^ 64 = 2 ^ width.bits * 2 ^ (64 - width.bits) := by
    rw [← pow_add, Nat.add_sub_cancel' hbits]
  have hpos : 0 < 2 ^ (64 - width.bits) := Nat.two_pow_pos _
  have hshifted : a.val.toNat * 2 ^ (64 - width.bits) < 2 ^ 64 := by
    rw [hpow]
    exact Nat.mul_lt_mul_of_pos_right hclear hpos
  have hnot : (~~~(a.val <<< (64 - width.bits))).toNat =
      (2 ^ width.bits - 1 - a.word.toNat) * 2 ^ (64 - width.bits) +
        (2 ^ (64 - width.bits) - 1) := by
    have hsplit : 2 ^ width.bits = (2 ^ width.bits - 1 - a.val.toNat) + a.val.toNat + 1 := by omega
    have hsum : 2 ^ 64 = (2 ^ width.bits - 1 - a.val.toNat) * 2 ^ (64 - width.bits) +
        a.val.toNat * 2 ^ (64 - width.bits) + 2 ^ (64 - width.bits) := by
      calc 2 ^ 64 = 2 ^ width.bits * 2 ^ (64 - width.bits) := hpow
        _ = ((2 ^ width.bits - 1 - a.val.toNat) + a.val.toNat + 1) * 2 ^ (64 - width.bits) := by
          rw [← hsplit]
        _ = _ := by ring
    rw [BitVec.toNat_not, BitVec.toNat_shiftLeft, Nat.shiftLeft_eq, Nat.mod_eq_of_lt hshifted,
      toNat_word]
    omega
  have hsize := size_mul_two_pow_add (2 ^ width.bits - 1 - a.word.toNat) (64 - width.bits)
  rw [← hnot] at hsize
  rw [clo, leadingZeroes]
  split_ifs with hzero
  · rw [hzero, BitVec.toNat_zero, Nat.size_zero] at hsize
    omega
  · omega

/-- A negative number keeps its sign only if it is shifted by less than its leading ones. -/
lemma clo_le_iff (a : SIntRep width) (ha : value false a.word < 0) {c : ℕ} (hc : c < width.bits) :
    a.clo ≤ c ↔ ¬ Representable width.bits false (value false a.word * 2 ^ c) := by
  obtain ⟨n, hn⟩ : ∃ n, n = 2 ^ width.bits - 1 - a.word.toNat := ⟨_, rfl⟩
  have hlt := a.word.isLt
  have hnat : value false a.word = -((n + 1 : ℕ) : ℤ) := by
    have hcast : ((2 ^ width.bits : ℕ) : ℤ) = 2 ^ width.bits := by push_cast; rfl
    have hbounds := SInt.value_true_bounds a.word
    rcases value_false_eq width.bits_pos a.word with ⟨heq, -⟩ | ⟨heq, -⟩
    · omega
    · rw [heq, value_true, ← hcast]
      omega
  have hvalue : value false a.word * 2 ^ c = -(((n + 1) * 2 ^ c : ℕ) : ℤ) := by
    rw [hnat]
    push_cast
    ring
  have hpow : 2 ^ (width.bits - 1) = 2 ^ (width.bits - 1 - c) * 2 ^ c := by
    rw [← pow_add, Nat.sub_add_cancel (Nat.le_sub_one_of_lt hc)]
  have hsize : n.size ≤ width.bits := Nat.size_le.mpr (by omega)
  have hfits : (n + 1) * 2 ^ c ≤ 2 ^ (width.bits - 1) ↔ n.size ≤ width.bits - 1 - c := by
    rw [hpow, Nat.mul_le_mul_right_iff (Nat.two_pow_pos c), Nat.succ_le_iff, Nat.size_le]
  rw [hvalue, representable_false_neg_iff, hfits, clo_eq, ← hn]
  omega

/-! ## Exactness -/

/-- The operation returns the result modulo the width, and sets the flag exactly if the result is
not representable. -/
def DetectsOverflow (width : IntWidth) (uns : Bool)
    (op : SIntRep width → SIntRep width → Option (SIntRep width × Bool)) (f : ℤ → ℤ → ℤ) : Prop :=
  ∀ a b, ∃ res overflow, op a b = some (res, overflow) ∧
    res.word = BitVec.ofInt width.bits (f (value uns a.word) (value uns b.word)) ∧
    (overflow = true ↔
      ¬ Representable width.bits uns (f (value uns a.word) (value uns b.word)))

/-- The same for a shift, where the number of bits is unsigned and at least the width counts as
overflow. -/
def DetectsShiftOverflow (width : IntWidth) (uns : Bool)
    (op : SIntRep width → SIntRep width → SIntRep width × Bool) : Prop :=
  ∀ a count, (op a count).1.word =
      BitVec.ofInt width.bits (value uns a.word * 2 ^ count.word.toNat) ∧
    ((op a count).2 = true ↔ width.bits ≤ count.word.toNat ∨
      ¬ Representable width.bits uns (value uns a.word * 2 ^ count.word.toNat))

/-- The operation returns the result clamped to what is representable. -/
def Saturates (width : IntWidth) (uns : Bool)
    (op : SIntRep width → SIntRep width → Option (SIntRep width)) (f : ℤ → ℤ → ℤ) : Prop :=
  ∀ a b, ∃ res, op a b = some res ∧
    value uns res.word = clamp width.bits uns (f (value uns a.word) (value uns b.word))

structure ExactArithmetic (width : IntWidth) : Prop where
  sAddOvf : DetectsOverflow width false (fun a b => some (a.sAddOvf b)) (· + ·)
  uAddOvf : DetectsOverflow width true (fun a b => some (a.uAddOvf b)) (· + ·)
  sSubOvf : DetectsOverflow width false (fun a b => some (a.sSubOvf b)) (· - ·)
  uSubOvf : DetectsOverflow width true (fun a b => some (a.uSubOvf b)) (· - ·)
  sMulOvf : DetectsOverflow width false SIntRep.sMulOvf (· * ·)
  uMulOvf : DetectsOverflow width true (fun a b => some (a.uMulOvf b)) (· * ·)
  sShlOvf : DetectsShiftOverflow width false SIntRep.sShlOvf
  uShlOvf : DetectsShiftOverflow width true SIntRep.uShlOvf
  sAddSat : Saturates width false (fun a b => some (a.sAddSat b)) (· + ·)
  uAddSat : Saturates width true (fun a b => some (a.uAddSat b)) (· + ·)
  sSubSat : Saturates width false (fun a b => some (a.sSubSat b)) (· - ·)
  uSubSat : Saturates width true (fun a b => some (a.uSubSat b)) (· - ·)
  sMulSat : Saturates width false SIntRep.sMulSat (· * ·)
  uMulSat : Saturates width true (fun a b => some (a.uMulSat b)) (· * ·)
  /-- The quotient, rounded toward zero, of a division by another number than zero. -/
  sDivSat : ∀ a b : SIntRep width, (a.sDivSat b).map (fun q => value false q.word) =
    if value false b.word = 0 then none
    else some (clamp width.bits false ((value false a.word).tdiv (value false b.word)))

lemma detectsOverflow_of_flagged {uns : Bool}
    {op : SIntRep width → SIntRep width → SIntRep width × Bool} {f : ℤ → ℤ → ℤ}
    {ovf : SInt width.bits → SInt width.bits → SInt width.bits × Bool}
    (hop : ∀ a b, flagged (op a b) = ovf a.word b.word)
    (hovf : ∀ x y, ovf x y = (BitVec.ofInt width.bits (f (value uns x) (value uns y)),
      decide ¬ Representable width.bits uns (f (value uns x) (value uns y)))) :
    DetectsOverflow width uns (fun a b => some (op a b)) f := by
  intro a b
  have heq := Prod.mk.inj ((hop a b).trans (hovf a.word b.word))
  refine ⟨_, _, rfl, heq.1, ?_⟩
  rw [heq.2, decide_eq_true_iff]

/-- A shift by less than the width. -/
lemma word_shl_eq_ofInt (uns : Bool) (a : SIntRep width) {count : SIntRep width}
    (hcount : count.word.toNat < width.bits) :
    (a.shl count).word =
      BitVec.ofInt width.bits (value uns a.word * 2 ^ count.word.toNat) := by
  rw [toNat_word] at hcount ⊢
  rw [word_shl a hcount, shiftLeft_eq_ofInt uns]

/-- A shift by the width or more leaves nothing. -/
lemma ofInt_mul_two_pow_eq_zero {w c : ℕ} (h : w ≤ c) (x : ℤ) :
    BitVec.ofInt w (x * 2 ^ c) = 0#w := by
  obtain ⟨k, rfl⟩ := Nat.exists_eq_add_of_le h
  apply BitVec.eq_of_toNat_eq
  rw [BitVec.toNat_ofInt, pow_add, ← mul_assoc, mul_comm x, mul_assoc]
  push_cast
  rw [Int.mul_emod_right]
  rfl

lemma detectsShiftOverflow_sShlOvf : DetectsShiftOverflow width false sShlOvf := by
  intro a count
  have htoNat := toNat_word count
  rw [sShlOvf]
  split_ifs with hmany hsign
  · rw [← htoNat] at hmany
    refine ⟨?_, iff_of_true rfl (.inl hmany)⟩
    rw [word_zero, ofInt_mul_two_pow_eq_zero hmany]
  all_goals
    rw [← htoNat, not_le] at hmany
    refine ⟨word_shl_eq_ofInt false a hmany, ?_⟩
    rw [isNonNeg_eq, SInt.isNonNeg_iff] at hsign
    rw [decide_eq_true_iff, ← htoNat, or_iff_right hmany.not_ge]
  · exact clz_le_iff a hsign hmany
  · exact clo_le_iff a (not_le.mp hsign) hmany

lemma detectsShiftOverflow_uShlOvf : DetectsShiftOverflow width true uShlOvf := by
  intro a count
  have htoNat := toNat_word count
  rw [uShlOvf]
  split_ifs with hmany
  · rw [← htoNat] at hmany
    refine ⟨?_, iff_of_true rfl (.inl hmany)⟩
    rw [word_zero, ofInt_mul_two_pow_eq_zero hmany]
  · rw [← htoNat, not_le] at hmany
    refine ⟨word_shl_eq_ofInt true a hmany, ?_⟩
    rw [decide_eq_true_iff, ← htoNat, or_iff_right hmany.not_ge]
    exact clz_lt_iff a hmany

/-! ## The saturating operations on the machine integers -/

lemma word_sAddSat (a b : SIntRep width) : (a.sAddSat b).word = SInt.sAddSat a.word b.word := by
  rw [sAddSat, SInt.sAddSat, ← flagged_sAddOvf, isNeg_eq, flagged]
  cases (a.sAddOvf b).2
  · rfl
  · cases SInt.isNeg a.word
    · exact word_sMaxValue
    · exact word_sMinValue

lemma word_uAddSat (a b : SIntRep width) : (a.uAddSat b).word = SInt.uAddSat a.word b.word := by
  rw [uAddSat, SInt.uAddSat, ← flagged_uAddOvf, flagged]
  cases (a.uAddOvf b).2
  · rfl
  · exact word_uMaxValue

lemma word_sSubSat (a b : SIntRep width) : (a.sSubSat b).word = SInt.sSubSat a.word b.word := by
  rw [sSubSat, SInt.sSubSat, ← flagged_sSubOvf, isNeg_eq, flagged]
  cases (a.sSubOvf b).2
  · rfl
  · cases SInt.isNeg a.word
    · exact word_sMaxValue
    · exact word_sMinValue

lemma word_uSubSat (a b : SIntRep width) : (a.uSubSat b).word = SInt.uSubSat a.word b.word := by
  rw [uSubSat, SInt.uSubSat, ← flagged_uSubOvf, flagged]
  cases (a.uSubOvf b).2
  · rfl
  · exact word_uMinValue

lemma word_uMulSat (a b : SIntRep width) : (a.uMulSat b).word = SInt.uMulSat a.word b.word := by
  rw [uMulSat, SInt.uMulSat, ← flagged_uMulOvf, flagged]
  cases (a.uMulOvf b).2
  · rfl
  · exact word_uMaxValue

lemma map_word_sMulSat (a b : SIntRep width) :
    (a.sMulSat b).map word = some (SInt.sMulSat a.word b.word) := by
  obtain ⟨⟨res, overflow⟩, hres, hflagged⟩ := Option.map_eq_some_iff.mp (map_flagged_sMulOvf a b)
  rw [sMulSat, SInt.sMulSat, hres, ← hflagged, isNeg_eq, isNeg_eq]
  refine congrArg some ?_
  cases overflow
  · rfl
  · cases SInt.isNeg a.word != SInt.isNeg b.word
    · exact word_sMaxValue
    · exact word_sMinValue

lemma map_word_sDivSat (a b : SIntRep width) :
    (a.sDivSat b).map word =
      if b.word = BitVec.ofNat width.bits 0 then none else some (SInt.sDivSat a.word b.word) := by
  rw [sDivSat, SInt.sDivSat, sVal_eq, isSMinValue_eq, value_false]
  by_cases hedge : b.word.toInt = -1 ∧ SInt.isSMinValue a.word = true
  · have hb : b.word ≠ BitVec.ofNat width.bits 0 := by
      intro hzero
      rw [hzero, BitVec.toInt_zero] at hedge
      exact absurd hedge.1 (by decide)
    have hcond : (b.word.toInt == -1 && SInt.isSMinValue a.word) = true := by
      rw [Bool.and_eq_true, beq_iff_eq]
      exact hedge
    rw [if_pos hedge, if_neg hb, if_pos hcond, Option.map_some, word_sMaxValue]
  · have hcond : ¬ (b.word.toInt == -1 && SInt.isSMinValue a.word) = true := by
      rw [Bool.and_eq_true, beq_iff_eq]
      exact hedge
    rw [if_neg hedge, if_neg hcond, map_word_sDiv]

/-- The arithmetic of machine integers is exact in every width. -/
theorem exactArithmetic (width : IntWidth) : ExactArithmetic width := by
  have hpos := width.bits_pos
  have hone : 1 < width.bits := lt_trans Nat.one_lt_two width.two_lt_bits
  constructor
  case sAddOvf =>
    refine detectsOverflow_of_flagged flagged_sAddOvf fun x y => ?_
    rw [SInt.sAddOvf_eq hpos, add_eq_ofInt false]
  case uAddOvf =>
    refine detectsOverflow_of_flagged flagged_uAddOvf fun x y => ?_
    rw [SInt.uAddOvf_eq hpos, add_eq_ofInt true]
  case sSubOvf =>
    refine detectsOverflow_of_flagged flagged_sSubOvf fun x y => ?_
    rw [SInt.sSubOvf_eq hpos, sub_eq_ofInt false]
  case uSubOvf =>
    refine detectsOverflow_of_flagged flagged_uSubOvf fun x y => ?_
    rw [SInt.uSubOvf_eq hpos, sub_eq_ofInt true]
  case sMulOvf =>
    intro a b
    obtain ⟨res, hres, hflagged⟩ := Option.map_eq_some_iff.mp (map_flagged_sMulOvf a b)
    rw [SInt.sMulOvf_eq hone, mul_eq_ofInt false] at hflagged
    have heq := Prod.mk.inj hflagged
    refine ⟨res.1, res.2, hres, heq.1, ?_⟩
    rw [heq.2, decide_eq_true_iff]
  case uMulOvf =>
    refine detectsOverflow_of_flagged flagged_uMulOvf fun x y => ?_
    rw [SInt.uMulOvf_eq hpos, mul_eq_ofInt true]
  case sShlOvf => exact detectsShiftOverflow_sShlOvf
  case uShlOvf => exact detectsShiftOverflow_uShlOvf
  case sAddSat => exact fun a b => ⟨_, rfl, by rw [word_sAddSat, SInt.value_sAddSat hpos]⟩
  case uAddSat => exact fun a b => ⟨_, rfl, by rw [word_uAddSat, SInt.value_uAddSat hpos]⟩
  case sSubSat => exact fun a b => ⟨_, rfl, by rw [word_sSubSat, SInt.value_sSubSat hpos]⟩
  case uSubSat => exact fun a b => ⟨_, rfl, by rw [word_uSubSat, SInt.value_uSubSat hpos]⟩
  case sMulSat =>
    intro a b
    obtain ⟨res, hres, hword⟩ := Option.map_eq_some_iff.mp (map_word_sMulSat a b)
    exact ⟨res, hres, by rw [hword, SInt.value_sMulSat hone]⟩
  case uMulSat => exact fun a b => ⟨_, rfl, by rw [word_uMulSat, SInt.value_uMulSat hpos]⟩
  case sDivSat =>
    intro a b
    have hmap : (a.sDivSat b).map (fun q => value false q.word) =
        ((a.sDivSat b).map word).map (value false) := by
      rw [Option.map_map]
      rfl
    have hzero : b.word = BitVec.ofNat width.bits 0 ↔ value false b.word = 0 := by
      rw [SInt.eq_iff_value_eq false, value_zero]
    rw [hmap, map_word_sDivSat]
    by_cases hb : b.word = BitVec.ofNat width.bits 0
    · rw [if_pos hb, if_pos (hzero.mp hb)]
      rfl
    · rw [if_neg hb, if_neg fun h => hb (hzero.mpr h), Option.map_some,
        SInt.value_sDivSat hone]

end SIntRep

end Cangjie.CHIR
