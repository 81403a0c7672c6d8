import CangjieCompiler.CHIR.Analysis.SInt
import CangjieCompiler.Foundations.IntervalArithmetic

/-!
# The arithmetic of machine integers

The overflow-detecting operations return the word of the exact result together with a flag that
is set exactly when the exact result is not representable, however the source finds out: by
comparing signs, by comparing with an operand, or by dividing back.  The saturating operations
return the exact result clamped to the representable integers.
-/

namespace Cangjie.CHIR

open FixedWidth IntervalArithmetic

namespace SInt

/-! ## Division -/

section Division

variable {w : ℕ} {a b : SInt w}

theorem value_uDiv (a b : SInt w) : value true (uDiv a b) = value true a / value true b := by
  rw [value_true, value_true, value_true]
  exact_mod_cast congrArg Nat.cast (BitVec.toNat_udiv (x := a) (y := b))

theorem value_uRem (a b : SInt w) : value true (uRem a b) = value true a % value true b := by
  rw [value_true, value_true, value_true]
  exact_mod_cast congrArg Nat.cast (BitVec.toNat_umod (x := a) (y := b))

/-- The signed division of the source is the truncating division. -/
theorem sDiv_eq_ofInt (a b : SInt w) :
    sDiv a b = BitVec.ofInt w ((value false a).tdiv (value false b)) := by
  have hsdiv : sDiv a b = BitVec.sdiv a b := by
    rw [sDiv, BitVec.sdiv_eq, isNeg, isNeg]
    cases a.msb <;> cases b.msb <;> rfl
  rw [hsdiv, ← BitVec.ofInt_toInt (x := BitVec.sdiv a b), BitVec.toInt_sdiv]
  apply BitVec.eq_of_toInt_eq
  simp

/-- The signed remainder of the source is the truncating remainder. -/
theorem sRem_eq_ofInt (a b : SInt w) :
    sRem a b = BitVec.ofInt w ((value false a).tmod (value false b)) := by
  have hsrem : sRem a b = BitVec.srem a b := by
    rw [sRem, BitVec.srem_eq, isNeg, isNeg]
    cases a.msb <;> cases b.msb <;> rfl
  rw [hsrem, ← BitVec.ofInt_toInt (x := BitVec.srem a b), BitVec.toInt_srem]
  rfl

/-- A signed quotient is representable unless the smallest value is divided by `-1`. -/
theorem tdiv_representable {x y : ℤ} (hx : Representable w false x)
    (h : ¬(x = -2 ^ (w - 1) ∧ y = -1)) : Representable w false (x.tdiv y) := by
  obtain ⟨hlo, hhi⟩ := hx
  rw [least_false] at hlo
  rw [greatest_false] at hhi
  have hpos : (0 : ℤ) < 2 ^ (w - 1) := by positivity
  have hgoal : -2 ^ (w - 1) ≤ x.tdiv y ∧ x.tdiv y ≤ 2 ^ (w - 1) - 1 := by
    rcases lt_or_ge |y| 2 with hsmall | hlarge
    · have hcases : y = -1 ∨ y = 0 ∨ y = 1 := by
        rw [abs_lt] at hsmall
        omega
      rcases hcases with rfl | rfl | rfl
      · rw [Int.tdiv_neg, Int.tdiv_one]
        omega
      · rw [Int.tdiv_zero]
        omega
      · rw [Int.tdiv_one]
        omega
    · have hhalf := two_mul_abs_tdiv_le (a := x) hlarge
      have hx := abs_le.mpr (⟨by omega, by omega⟩ : -2 ^ (w - 1) ≤ x ∧ x ≤ 2 ^ (w - 1))
      have hquot : |x.tdiv y| < 2 ^ (w - 1) := by omega
      rw [abs_lt] at hquot
      omega
  exact hgoal

theorem value_sDiv (hw : 0 < w) (h : ¬(value false a = -2 ^ (w - 1) ∧ value false b = -1)) :
    value false (sDiv a b) = (value false a).tdiv (value false b) := by
  rw [sDiv_eq_ofInt]
  exact value_ofInt hw (tdiv_representable (value_representable false a) h)

theorem value_sRem (hw : 0 < w) (a b : SInt w) :
    value false (sRem a b) = (value false a).tmod (value false b) := by
  rw [sRem_eq_ofInt]
  refine value_ofInt hw ?_
  obtain ⟨hlo, hhi⟩ := value_representable false a
  have habs := abs_tmod_le (value false a) (value false b)
  rcases lt_or_ge (value false a) 0 with hneg | hnonneg
  · have hrem : (value false a).tmod (value false b) ≤ 0 :=
      tmod_nonpos _ hneg.le
    rw [abs_of_nonpos hrem, abs_of_neg hneg] at habs
    exact ⟨by omega, hrem.trans (greatest_nonneg w false)⟩
  · have hrem : 0 ≤ (value false a).tmod (value false b) := Int.tmod_nonneg _ hnonneg
    rw [abs_of_nonneg hrem, abs_of_nonneg hnonneg] at habs
    exact ⟨(least_nonpos w false).trans hrem, by omega⟩

/-- The saturating quotient is the clamped quotient. -/
theorem value_sDivSat (hw : 1 < w) (a b : SInt w) :
    value false (sDivSat a b) = clamp w false ((value false a).tdiv (value false b)) := by
  have hwpos : 0 < w := by omega
  have hmin := value_false_sMinValue hwpos
  rw [sDivSat]
  by_cases hover : value false a = -2 ^ (w - 1) ∧ value false b = -1
  · have ha : isSMinValue a = true := by
      rw [isSMinValue_iff, eq_iff_value_eq false, hmin, hover.1]
    have hb : (b.toInt == -1) = true := by
      rw [beq_iff_eq]
      exact hover.2
    have hout : greatest w false < (value false a).tdiv (value false b) := by
      rw [hover.1, hover.2, Int.tdiv_neg, Int.tdiv_one, greatest_false]
      omega
    rw [hb, ha, Bool.and_self, if_pos rfl, value_false_sMaxValue hwpos,
      clamp_eq_greatest hout, greatest_false]
  · have hcond : (b.toInt == -1 && isSMinValue a) = false := by
      rw [Bool.and_eq_false_iff]
      by_contra hboth
      rw [not_or, Bool.not_eq_false, Bool.not_eq_false, beq_iff_eq, isSMinValue_iff] at hboth
      exact hover ⟨by rw [hboth.2, hmin], hboth.1⟩
    rw [hcond, if_neg Bool.false_ne_true, value_sDiv hwpos hover,
      clamp_eq_self (tdiv_representable (value_representable false a) hover)]

end Division

/-! ## Detected overflow -/

section Overflow

variable {w : ℕ}

theorem isNonNeg_eq_iff (a b : SInt w) :
    isNonNeg a = isNonNeg b ↔ (0 ≤ value false a ↔ 0 ≤ value false b) := by
  rw [Bool.eq_iff_iff, isNonNeg_iff, isNonNeg_iff]

theorem isNeg_eq_iff (a b : SInt w) :
    isNeg a = isNeg b ↔ (value false a < 0 ↔ value false b < 0) := by
  rw [Bool.eq_iff_iff, isNeg_iff, isNeg_iff]

theorem pair_eq_decide {p : SInt w × Bool} {v : SInt w} {P : Prop} [Decidable P]
    (hval : p.1 = v) (hflag : p.2 = true ↔ P) : p = (v, decide P) :=
  Prod.ext hval (Bool.eq_iff_iff.mpr (hflag.trans decide_eq_true_iff.symm))

theorem sAddOvf_eq (hw : 0 < w) (a b : SInt w) :
    sAddOvf a b = (a + b, decide ¬Representable w false (value false a + value false b)) := by
  have ha := value_false_bounds a
  have hb := value_false_bounds b
  have hturn := two_pow_eq hw
  have hsum := value_add_cases hw false a b
  refine pair_eq_decide rfl ?_
  simp only [sAddOvf, Bool.and_eq_true, beq_iff_eq, bne_iff_ne, ne_eq, isNonNeg_eq_iff]
  simp only [Representable, least_false, greatest_false] at hsum ⊢
  omega

theorem uAddOvf_eq (hw : 0 < w) (a b : SInt w) :
    uAddOvf a b = (a + b, decide ¬Representable w true (value true a + value true b)) := by
  have ha := value_true_bounds a
  have hb := value_true_bounds b
  have hturn := two_pow_eq hw
  have hsum := value_add_cases hw true a b
  refine pair_eq_decide rfl ?_
  simp only [uAddOvf, ult_iff]
  simp only [Representable, least_true, greatest_true] at hsum ⊢
  omega

theorem sSubOvf_eq (hw : 0 < w) (a b : SInt w) :
    sSubOvf a b = (a - b, decide ¬Representable w false (value false a - value false b)) := by
  have ha := value_false_bounds a
  have hb := value_false_bounds b
  have hturn := two_pow_eq hw
  have hdiff := value_sub_cases hw false a b
  refine pair_eq_decide rfl ?_
  simp only [sSubOvf, Bool.and_eq_true, bne_iff_ne, ne_eq, isNonNeg_eq_iff]
  simp only [Representable, least_false, greatest_false] at hdiff ⊢
  omega

theorem uSubOvf_eq (hw : 0 < w) (a b : SInt w) :
    uSubOvf a b = (a - b, decide ¬Representable w true (value true a - value true b)) := by
  have ha := value_true_bounds a
  have hb := value_true_bounds b
  have hturn := two_pow_eq hw
  have hdiff := value_sub_cases hw true a b
  refine pair_eq_decide rfl ?_
  simp only [uSubOvf, ugt_iff]
  simp only [Representable, least_true, greatest_true] at hdiff ⊢
  omega

/-- Dividing back recovers the left factor exactly when the product is representable, the
smallest value times `-1` apart. -/
theorem sMulOvf_eq (hw : 1 < w) (a b : SInt w) :
    sMulOvf a b = (a * b, decide ¬Representable w false (value false a * value false b)) := by
  have hwpos : 0 < w := by omega
  have hmin := value_false_sMinValue hwpos
  have hones := value_false_uMaxValue hwpos
  have ha := value_false_bounds a
  have hb := value_false_bounds b
  have hpos : (0 : ℤ) < 2 ^ (w - 1) := by positivity
  have hturn := two_pow_eq hwpos
  refine pair_eq_decide rfl ?_
  by_cases hzero : b = 0#w
  · have hprod : value false a * value false b = 0 := by rw [hzero, value_zero, mul_zero]
    simp only [sMulOvf, hzero, bne_self_eq_false, Bool.false_eq_true, if_false, false_iff,
      not_not, value_zero, mul_zero]
    exact ⟨least_nonpos w false, greatest_nonneg w false⟩
  have hne : value false b ≠ 0 := fun h => hzero (value_injective false (by rw [h, value_zero]))
  have hflag : (sMulOvf a b).2 = true ↔
      sDiv (a * b) b ≠ a ∨ value false a = -2 ^ (w - 1) ∧ value false b = -1 := by
    simp only [sMulOvf, bne_iff_ne, ne_eq, hzero, not_false_eq_true, if_true, Bool.or_eq_true,
      Bool.and_eq_true, isSMinValue_iff, isAllOnes_iff]
    rw [eq_iff_value_eq false (a := a) (b := sMinValue w), hmin,
      eq_iff_value_eq false (a := b) (b := allOnes w), show allOnes w = uMaxValue w from rfl, hones]
  rw [hflag]
  obtain ⟨k, hk⟩ := value_ofInt_congr (w := w) false (value false a * value false b)
  rw [← mul_eq_ofInt] at hk
  constructor
  · rintro (hback | ⟨hx, hy⟩) hrep
    · apply hback
      have hval := value_mul hwpos hrep
      rw [sDiv_eq_ofInt, hval, Int.mul_tdiv_cancel _ hne, ofInt_value]
    · rw [hx, hy] at hrep
      have := hrep.2
      rw [greatest_false] at this
      omega
  · intro hrep
    by_contra hcontra
    rw [not_or, not_not] at hcontra
    obtain ⟨hback, hedge⟩ := hcontra
    have hover : ¬(value false (a * b) = -2 ^ (w - 1) ∧ value false b = -1) := by
      rintro ⟨hres, hy⟩
      apply hedge
      refine ⟨?_, hy⟩
      rw [← hback, sDiv_eq_ofInt, hres, hy, Int.tdiv_neg, Int.tdiv_one, neg_neg, ← hmin,
        ← value_true_sMinValue hwpos, ofInt_value]
    have hquot : value false a = (value false (a * b)).tdiv (value false b) := by
      rw [← value_sDiv hwpos hover, hback]
    have hnear := abs_sub_mul_tdiv_lt (value false (a * b)) hne
    rw [← hquot, hk, add_sub_cancel_left] at hnear
    have hbabs : |value false b| ≤ 2 ^ (w - 1) := abs_le.mpr ⟨by omega, by omega⟩
    have hturns : |2 ^ w * k| < 2 ^ w := by omega
    have hkzero : k = 0 := by
      rw [abs_mul, abs_of_pos (by positivity : (0 : ℤ) < 2 ^ w)] at hturns
      have hlt : |k| < 1 := by
        by_contra hge
        rw [not_lt] at hge
        have hmul := mul_le_mul_of_nonneg_left hge (by positivity : (0 : ℤ) ≤ 2 ^ w)
        omega
      exact Int.abs_lt_one_iff.mp hlt
    rw [hkzero, mul_zero, add_zero] at hk
    exact hrep (hk ▸ value_representable false (a * b))

/-- A product whose factors have few enough bits does not overflow when its left factor is
halved. -/
theorem half_mul_lt {x y n : ℕ} (h : x.size + y.size ≤ n + 1) : x / 2 * y < 2 ^ n := by
  have hx : x < 2 ^ x.size := Nat.lt_size_self x
  have hy : y < 2 ^ y.size := Nat.lt_size_self y
  rcases Nat.eq_zero_or_pos x with rfl | hxpos
  · simp
  have hsize : 0 < x.size := Nat.size_pos.mpr hxpos
  have hpow : 2 ^ x.size = 2 * 2 ^ (x.size - 1) := by
    rw [← pow_succ', Nat.sub_add_cancel hsize]
  have hhalf : x / 2 < 2 ^ (x.size - 1) := by omega
  calc x / 2 * y ≤ x / 2 * 2 ^ y.size := Nat.mul_le_mul_left _ hy.le
    _ < 2 ^ (x.size - 1) * 2 ^ y.size := Nat.mul_lt_mul_of_pos_right hhalf (by positivity)
    _ = 2 ^ (x.size - 1 + y.size) := by rw [pow_add]
    _ ≤ 2 ^ n := Nat.pow_le_pow_right (by norm_num) (by omega)

/-- A product whose factors have many bits overflows. -/
theorem two_pow_le_mul {x y n : ℕ} (hx : 0 < x.size) (hy : 0 < y.size)
    (h : n + 2 ≤ x.size + y.size) : 2 ^ n ≤ x * y := by
  have hxlow : 2 ^ (x.size - 1) ≤ x := Nat.lt_size.mp (by omega)
  have hylow : 2 ^ (y.size - 1) ≤ y := Nat.lt_size.mp (by omega)
  calc 2 ^ n ≤ 2 ^ (x.size - 1 + (y.size - 1)) := Nat.pow_le_pow_right (by norm_num) (by omega)
    _ = 2 ^ (x.size - 1) * 2 ^ (y.size - 1) := by rw [pow_add]
    _ ≤ x * y := Nat.mul_le_mul hxlow hylow

theorem size_le_width (v : SInt w) : v.toNat.size ≤ w := Nat.size_le.mpr v.isLt

theorem uMulOvf_eq (hw : 0 < w) (a b : SInt w) :
    uMulOvf a b = (a * b, decide ¬Representable w true (value true a * value true b)) := by
  have hasize := size_le_width a
  have hbsize := size_le_width b
  have hrep : ¬Representable w true (value true a * value true b) ↔
      2 ^ w ≤ a.toNat * b.toNat := by
    have hcast : ((2 ^ w : ℕ) : ℤ) = 2 ^ w := by push_cast; rfl
    have hmul : value true a * value true b = ((a.toNat * b.toNat : ℕ) : ℤ) := by
      rw [value_true, value_true, Nat.cast_mul]
    rw [hmul, Representable, least_true, greatest_true, ← hcast]
    omega
  by_cases hmany : clz a + clz b + 2 ≤ w
  · have hover : 2 ^ w ≤ a.toNat * b.toNat := by
      rw [clz, clz, activeBits, activeBits] at hmany
      exact two_pow_le_mul (by omega) (by omega) (by omega)
    rw [uMulOvf, if_pos hmany]
    exact pair_eq_decide rfl (by rw [hrep]; simpa using hover)
  · have hhalf : a.toNat / 2 * b.toNat < 2 ^ w := by
      rw [clz, clz, activeBits, activeBits] at hmany
      exact half_mul_lt (by omega)
    have hturn := two_pow_eq hw
    have hcast : ((2 ^ w : ℕ) : ℤ) = 2 ^ w := by push_cast; rfl
    have hhalfNat : ((a >>> 1) * b).toNat = a.toNat / 2 * b.toNat := by
      rw [BitVec.toNat_mul, BitVec.toNat_ushiftRight, Nat.shiftRight_one, Nat.mod_eq_of_lt hhalf]
    have hdoubledNat : (((a >>> 1) * b) <<< 1).toNat = 2 * (a.toNat / 2 * b.toNat) % 2 ^ w := by
      rw [BitVec.toNat_shiftLeft, hhalfNat, Nat.shiftLeft_eq, pow_one, mul_comm]
    have hneg : isNeg ((a >>> 1) * b) = true ↔ 2 ^ w ≤ 2 * (a.toNat / 2 * b.toNat) := by
      have hval : value true ((a >>> 1) * b) = ((a.toNat / 2 * b.toNat : ℕ) : ℤ) := by
        rw [value_true, hhalfNat]
      have hreadings := value_false_eq hw ((a >>> 1) * b)
      have hfull : ((a.toNat / 2 * b.toNat : ℕ) : ℤ) < 2 ^ w := by exact_mod_cast hhalf
      rw [isNeg_iff]
      omega
    rw [uMulOvf, if_neg hmany]
    cases hodd : a.getLsbD 0
    · have heven : 2 * (a.toNat / 2) = a.toNat := by
        have hbit : a.toNat % 2 = 0 := by
          simpa [BitVec.getLsbD, Nat.testBit_zero] using hodd
        omega
      have hprod : 2 * (a.toNat / 2 * b.toNat) = a.toNat * b.toNat := by
        rw [← mul_assoc, heven]
      refine pair_eq_decide ?_ ?_
      · apply BitVec.eq_of_toNat_eq
        simp only [Bool.false_eq_true, if_false]
        rw [hdoubledNat, hprod, BitVec.toNat_mul]
      · simp only [Bool.false_eq_true, if_false]
        rw [hneg, hrep, hprod]
    · have hbit : 2 * (a.toNat / 2) + 1 = a.toNat := by
        have hbit : a.toNat % 2 = 1 := by
          simpa [BitVec.getLsbD, Nat.testBit_zero] using hodd
        omega
      have hprod : 2 * (a.toNat / 2 * b.toNat) + b.toNat = a.toNat * b.toNat := by
        calc 2 * (a.toNat / 2 * b.toNat) + b.toNat = (2 * (a.toNat / 2) + 1) * b.toNat := by ring
          _ = a.toNat * b.toNat := by rw [hbit]
      have hsumNat : ((((a >>> 1) * b) <<< 1) + b).toNat = a.toNat * b.toNat % 2 ^ w := by
        rw [BitVec.toNat_add, hdoubledNat, Nat.mod_add_mod, hprod]
      refine pair_eq_decide ?_ ?_
      · apply BitVec.eq_of_toNat_eq
        simp only [if_true]
        rw [hsumNat, BitVec.toNat_mul]
      · simp only [if_true, Bool.or_eq_true]
        rw [hneg, hrep, ult_iff, value_true, value_true, hsumNat, Nat.cast_lt]
        have hb := b.isLt
        rcases Nat.lt_or_ge (a.toNat * b.toNat) (2 ^ w) with hfits | hover
        · rw [Nat.mod_eq_of_lt hfits]
          omega
        · rcases Nat.lt_or_ge (2 * (a.toNat / 2 * b.toNat)) (2 ^ w) with hlow | hhigh
          · rw [Nat.mod_eq_sub_mod hover, Nat.mod_eq_of_lt (by omega)]
            omega
          · omega

end Overflow

/-! ## Saturation -/

section Saturation

variable {w : ℕ}

theorem value_sAddSat (hw : 0 < w) (a b : SInt w) :
    value false (sAddSat a b) = clamp w false (value false a + value false b) := by
  have ha := value_false_bounds a
  have hb := value_false_bounds b
  rw [sAddSat, sAddOvf_eq hw]
  by_cases hrep : Representable w false (value false a + value false b)
  · simp only [hrep, not_true_eq_false, decide_false, Bool.not_false, if_true]
    rw [value_add hw hrep, clamp_eq_self hrep]
  · simp only [hrep, not_false_eq_true, decide_true, Bool.not_true, Bool.false_eq_true, if_false,
      isNeg_iff]
    rw [Representable, not_and_or, not_le, not_le] at hrep
    split_ifs with hneg
    · have hlow : value false a + value false b < least w false := by
        rw [least_false, greatest_false] at *
        omega
      rw [value_false_sMinValue hw, clamp_eq_least hlow, least_false]
    · have hhigh : greatest w false < value false a + value false b := by
        rw [least_false, greatest_false] at *
        omega
      rw [value_false_sMaxValue hw, clamp_eq_greatest hhigh, greatest_false]

theorem value_uAddSat (hw : 0 < w) (a b : SInt w) :
    value true (uAddSat a b) = clamp w true (value true a + value true b) := by
  have ha := value_true_bounds a
  have hb := value_true_bounds b
  rw [uAddSat, uAddOvf_eq hw]
  by_cases hrep : Representable w true (value true a + value true b)
  · simp only [hrep, not_true_eq_false, decide_false, Bool.not_false, if_true]
    rw [value_add hw hrep, clamp_eq_self hrep]
  · simp only [hrep, not_false_eq_true, decide_true, Bool.not_true, Bool.false_eq_true, if_false]
    have hhigh : greatest w true < value true a + value true b := by
      rw [Representable, least_true] at hrep
      omega
    rw [value_true_uMaxValue hw, clamp_eq_greatest hhigh, greatest_true]

theorem value_sSubSat (hw : 0 < w) (a b : SInt w) :
    value false (sSubSat a b) = clamp w false (value false a - value false b) := by
  have ha := value_false_bounds a
  have hb := value_false_bounds b
  rw [sSubSat, sSubOvf_eq hw]
  by_cases hrep : Representable w false (value false a - value false b)
  · simp only [hrep, not_true_eq_false, decide_false, Bool.not_false, if_true]
    rw [value_sub hw hrep, clamp_eq_self hrep]
  · simp only [hrep, not_false_eq_true, decide_true, Bool.not_true, Bool.false_eq_true, if_false,
      isNeg_iff]
    rw [Representable, not_and_or, not_le, not_le] at hrep
    split_ifs with hneg
    · have hlow : value false a - value false b < least w false := by
        rw [least_false, greatest_false] at *
        omega
      rw [value_false_sMinValue hw, clamp_eq_least hlow, least_false]
    · have hhigh : greatest w false < value false a - value false b := by
        rw [least_false, greatest_false] at *
        omega
      rw [value_false_sMaxValue hw, clamp_eq_greatest hhigh, greatest_false]

theorem value_uSubSat (hw : 0 < w) (a b : SInt w) :
    value true (uSubSat a b) = clamp w true (value true a - value true b) := by
  have ha := value_true_bounds a
  have hb := value_true_bounds b
  rw [uSubSat, uSubOvf_eq hw]
  by_cases hrep : Representable w true (value true a - value true b)
  · simp only [hrep, not_true_eq_false, decide_false, Bool.false_eq_true, if_false]
    rw [value_sub hw hrep, clamp_eq_self hrep]
  · simp only [hrep, not_false_eq_true, decide_true, if_true]
    have hlow : value true a - value true b < least w true := by
      rw [Representable, greatest_true] at hrep
      omega
    rw [value_uMinValue, clamp_eq_least hlow, least_true]

theorem value_sMulSat (hw : 1 < w) (a b : SInt w) :
    value false (sMulSat a b) = clamp w false (value false a * value false b) := by
  have hwpos : 0 < w := by omega
  rw [sMulSat, sMulOvf_eq hw]
  by_cases hrep : Representable w false (value false a * value false b)
  · simp only [hrep, not_true_eq_false, decide_false, Bool.not_false, if_true]
    rw [value_mul hwpos hrep, clamp_eq_self hrep]
  · simp only [hrep, not_false_eq_true, decide_true, Bool.not_true, Bool.false_eq_true, if_false,
      bne_iff_ne, ne_eq, isNeg_eq_iff]
    rw [Representable, not_and_or, not_le, not_le] at hrep
    have hlo := least_nonpos w false
    have hhi := greatest_nonneg w false
    split_ifs with hsigns
    · have hhigh : greatest w false < value false a * value false b := by
        have hnonneg : 0 ≤ value false a * value false b := by
          rcases lt_or_ge (value false a) 0 with ha | ha
          · exact mul_nonneg_of_nonpos_of_nonpos ha.le (by omega)
          · exact mul_nonneg ha (by omega)
        omega
      rw [value_false_sMaxValue hwpos, clamp_eq_greatest hhigh, greatest_false]
    · have hlow : value false a * value false b < least w false := by
        have hnonpos : value false a * value false b ≤ 0 := by
          rcases lt_or_ge (value false a) 0 with ha | ha
          · exact mul_nonpos_of_nonpos_of_nonneg ha.le (by omega)
          · exact mul_nonpos_of_nonneg_of_nonpos ha (by omega)
        omega
      rw [value_false_sMinValue hwpos, clamp_eq_least hlow, least_false]

theorem value_uMulSat (hw : 0 < w) (a b : SInt w) :
    value true (uMulSat a b) = clamp w true (value true a * value true b) := by
  rw [uMulSat, uMulOvf_eq hw]
  by_cases hrep : Representable w true (value true a * value true b)
  · simp only [hrep, not_true_eq_false, decide_false, Bool.false_eq_true, if_false]
    rw [value_mul hw hrep, clamp_eq_self hrep]
  · simp only [hrep, not_false_eq_true, decide_true, if_true]
    have hhigh : greatest w true < value true a * value true b := by
      have hnonneg := mul_nonneg (value_true_bounds a).1 (value_true_bounds b).1
      rw [Representable, least_true] at hrep
      omega
    rw [value_true_uMaxValue hw, clamp_eq_greatest hhigh, greatest_true]

end Saturation

end SInt

end Cangjie.CHIR
