import CangjieCompiler.Foundations.FixedWidth
import Mathlib.Data.Int.Bitwise

/-!
# Bits of words and of integers

An integer has a bit at every position, those of a negative one being all set from some position on.
The word of an integer has the low bits of it, under either reading, so that the bitwise operations
on words are those on integers reduced to the width.  A right shift is the quotient by a power of
two, rounded down, and a left shift is the product with it, reduced to the width.
-/

namespace FixedWidth

variable {w : ℕ}

/-! ## Single bits -/

theorem getLsbD_ofInt (z : ℤ) {i : ℕ} (hi : i < w) :
    (BitVec.ofInt w z).getLsbD i = z.testBit i := by
  cases z with
  | ofNat n =>
    rw [Int.ofNat_eq_natCast, BitVec.ofInt_natCast, BitVec.getLsbD_ofNat, decide_eq_true hi,
      Bool.true_and]
    rfl
  | negSucc n =>
    rw [BitVec.ofInt_negSucc_eq_not_ofNat, BitVec.getLsbD_not, BitVec.getLsbD_ofNat,
      decide_eq_true hi, Bool.true_and, Bool.true_and]
    rfl

theorem ofInt_land (y z : ℤ) :
    BitVec.ofInt w (Int.land y z) = BitVec.ofInt w y &&& BitVec.ofInt w z := by
  apply BitVec.eq_of_getLsbD_eq
  intro i hi
  rw [BitVec.getLsbD_and, getLsbD_ofInt _ hi, getLsbD_ofInt _ hi, getLsbD_ofInt _ hi,
    Int.testBit_land]

theorem ofInt_lor (y z : ℤ) :
    BitVec.ofInt w (Int.lor y z) = BitVec.ofInt w y ||| BitVec.ofInt w z := by
  apply BitVec.eq_of_getLsbD_eq
  intro i hi
  rw [BitVec.getLsbD_or, getLsbD_ofInt _ hi, getLsbD_ofInt _ hi, getLsbD_ofInt _ hi,
    Int.testBit_lor]

theorem ofInt_xor (y z : ℤ) :
    BitVec.ofInt w (Int.xor y z) = BitVec.ofInt w y ^^^ BitVec.ofInt w z := by
  apply BitVec.eq_of_getLsbD_eq
  intro i hi
  rw [BitVec.getLsbD_xor, getLsbD_ofInt _ hi, getLsbD_ofInt _ hi, getLsbD_ofInt _ hi,
    Int.testBit_lxor]

theorem ofInt_lnot (z : ℤ) : BitVec.ofInt w (Int.lnot z) = ~~~BitVec.ofInt w z := by
  apply BitVec.eq_of_getLsbD_eq
  intro i hi
  rw [BitVec.getLsbD_not, getLsbD_ofInt _ hi, getLsbD_ofInt _ hi, Int.testBit_lnot,
    decide_eq_true hi, Bool.true_and]

/-! ## Shifts -/

theorem shiftLeft_eq_ofInt (uns : Bool) (v : BitVec w) (k : ℕ) :
    v <<< k = BitVec.ofInt w (value uns v * 2 ^ k) := by
  have hpow : BitVec.ofInt w (2 ^ k) = BitVec.twoPow w k := by
    have hcast : ((2 : ℤ) ^ k) = ((2 ^ k : ℕ) : ℤ) := by push_cast; rfl
    rw [hcast, BitVec.ofInt_natCast]
    apply BitVec.eq_of_toNat_eq
    rw [BitVec.toNat_ofNat, BitVec.toNat_twoPow]
  rw [BitVec.ofInt_mul, ofInt_value, hpow, BitVec.mul_twoPow_eq_shiftLeft]

/-- The right shift of the reading: it fills in zeros or the sign. -/
def shiftRight (uns : Bool) (v : BitVec w) (k : ℕ) : BitVec w :=
  if uns then v >>> k else v.sshiftRight k

theorem value_shiftRight (uns : Bool) (v : BitVec w) (k : ℕ) :
    value uns (shiftRight uns v k) = value uns v / 2 ^ k := by
  cases uns with
  | true =>
    rw [shiftRight, if_pos rfl, value_true, value_true, BitVec.toNat_ushiftRight,
      Nat.shiftRight_eq_div_pow]
    push_cast
    rfl
  | false =>
    rw [shiftRight, if_neg Bool.false_ne_true, value_false, value_false, BitVec.toInt_sshiftRight,
      Int.shiftRight_eq_div_pow]
    push_cast
    rfl

theorem shiftRight_eq_ofInt (uns : Bool) (v : BitVec w) (k : ℕ) :
    shiftRight uns v k = BitVec.ofInt w (value uns v / 2 ^ k) := by
  rw [← value_shiftRight, ofInt_value]

end FixedWidth
