import CangjieCompiler.CHIR.Analysis.ConstantRange.Division

/-!
# Changes of width of ranges

Extension and truncation of all elements.  Extending keeps a reading of the words; truncation is
taken modulo the narrower width, so the source first subtracts the common high bits of an interval
and then looks at how far its end reaches.
-/

namespace Cangjie.CHIR

open FixedWidth

variable {w n : ℕ}

/-! ## Words of another width -/

namespace SInt

theorem zExt_eq_ofInt (v : SInt w) (n : ℕ) : v.zExt n = BitVec.ofInt n (value true v) := by
  rw [zExt, value_true, BitVec.ofInt_natCast]

theorem trunc_eq_ofInt (v : SInt w) (n : ℕ) : v.trunc n = BitVec.ofInt n (value true v) := by
  rw [trunc, value_true, BitVec.ofInt_natCast]

theorem sExt_eq_ofInt (v : SInt w) (n : ℕ) : v.sExt n = BitVec.ofInt n (value false v) := rfl

theorem two_pow_le (h : w ≤ n) : (2 : ℤ) ^ w ≤ 2 ^ n := pow_le_pow_right₀ (by norm_num) h

theorem two_pow_half_le (h : w ≤ n) : (2 : ℤ) ^ (w - 1) ≤ 2 ^ (n - 1) :=
  pow_le_pow_right₀ (by norm_num) (by omega)

theorem value_true_zExt (hw : 0 < w) (h : w ≤ n) (v : SInt w) :
    value true (v.zExt n) = value true v := by
  have hbound := value_true_bounds v
  have hpow := two_pow_le h
  rw [zExt_eq_ofInt]
  exact value_ofInt (by omega) ⟨hbound.1, by rw [greatest_true]; omega⟩

theorem value_false_sExt (hw : 0 < w) (h : w ≤ n) (v : SInt w) :
    value false (v.sExt n) = value false v := by
  have hbound := value_false_bounds v
  have hpow := two_pow_half_le h
  rw [sExt_eq_ofInt]
  exact value_ofInt (by omega) ⟨by rw [least_false]; omega, by rw [greatest_false]; omega⟩

/-- A zero extension to a wider type is never negative. -/
theorem value_false_zExt (hw : 0 < w) (h : w < n) (v : SInt w) :
    value false (v.zExt n) = value true v := by
  have hbound := value_true_bounds v
  have hpow := two_pow_half_le (w := w + 1) (n := n) h
  rw [Nat.add_sub_cancel] at hpow
  rw [zExt_eq_ofInt]
  exact value_ofInt (by omega) ⟨by rw [least_false]; omega, by rw [greatest_false]; omega⟩

/-- Truncation is the word of either reading. -/
theorem trunc_eq_ofInt_value (h : n ≤ w) (uns : Bool) (v : SInt w) :
    v.trunc n = BitVec.ofInt n (value uns v) := by
  rw [trunc_eq_ofInt]
  cases uns with
  | true => rfl
  | false =>
    apply BitVec.eq_of_toInt_eq
    rw [BitVec.toInt_ofInt, BitVec.toInt_ofInt, value_true, value_false,
      BitVec.toInt_eq_toNat_bmod, Int.bmod_bmod_of_dvd (Nat.pow_dvd_pow 2 h)]

theorem value_true_trunc (v : SInt w) (n : ℕ) : value true (v.trunc n) = value true v % 2 ^ n := by
  rw [trunc, value_true, value_true, BitVec.toNat_ofNat]
  push_cast
  rfl

theorem value_true_getOneBitSet (h : w < n) : value true (getOneBitSet n w) = 2 ^ w := by
  have hbit : getOneBitSet n w = BitVec.twoPow n w := by
    rw [getOneBitSet, setBit, zero, BitVec.zero_or]
    rfl
  rw [hbit, value_true, BitVec.toNat_twoPow, Nat.mod_eq_of_lt (Nat.pow_lt_pow_right (by omega) h)]
  push_cast
  rfl

/-- The smallest signed value of a narrower type. -/
theorem value_false_getHighBitsSet (hw : 0 < w) (h : w < n) :
    value false (getHighBitsSet n ((n - w) + 1)) = -2 ^ (w - 1) := by
  have hpow := two_pow_half_le h.le
  have hword : getHighBitsSet n ((n - w) + 1) = BitVec.ofInt n (-2 ^ (w - 1)) := by
    have hstart : n - ((n - w) + 1) = w - 1 := by omega
    have hsplit : 2 ^ (n - (w - 1)) * 2 ^ (w - 1) = 2 ^ n := by
      rw [← pow_add, Nat.sub_add_cancel (by omega)]
    have hle : 2 ^ (w - 1) ≤ 2 ^ n := Nat.pow_le_pow_right (by omega) (by omega)
    rw [← ofInt_add_two_pow, getHighBitsSet, setBits, hstart, ← BitVec.ofInt_natCast,
      Nat.sub_mul, hsplit, one_mul, Nat.cast_sub hle]
    congr 1
    push_cast
    ring
  have hpos : (0 : ℤ) < 2 ^ (w - 1) := by positivity
  rw [hword]
  exact value_ofInt (by omega) ⟨by rw [least_false]; omega, by rw [greatest_false]; omega⟩

theorem value_true_getLowBitsSet (h : w ≤ n) :
    value true (getLowBitsSet n w) = 2 ^ w - 1 := by
  have hpow := Nat.pow_le_pow_right (show 0 < 2 by omega) h
  have hpos := Nat.two_pow_pos w
  rw [getLowBitsSet, setBits, value_true, BitVec.toNat_ofNat, Nat.sub_zero, pow_zero, mul_one,
    Nat.mod_eq_of_lt (by omega), Nat.cast_sub (by omega)]
  push_cast
  rfl

/-- The smallest signed value that the narrower type cannot hold. -/
theorem value_false_getLowBitsSet_succ (hw : 1 < w) (h : w < n) :
    value false (getLowBitsSet n (w - 1) + 1) = 2 ^ (w - 1) := by
  have hpow := two_pow_half_le (w := w + 1) (n := n) h
  rw [Nat.add_sub_cancel] at hpow
  have hpos : (0 : ℤ) < 2 ^ (w - 1) := by positivity
  have hlow := value_true_getLowBitsSet (w := w - 1) (n := n) (by omega)
  have hturn := two_pow_eq (show 0 < w by omega)
  have hturn' := two_pow_eq (show 0 < n by omega)
  have hsucc : value true (getLowBitsSet n (w - 1) + 1) = 2 ^ (w - 1) := by
    rw [value_add_one (by omega), hlow, sub_add_cancel]
    rw [hlow, greatest_true]
    omega
  rcases value_false_eq (show 0 < n by omega) (getLowBitsSet n (w - 1) + 1) with
    ⟨heq, -⟩ | ⟨-, hge⟩
  · rw [heq, hsucc]
  · omega

end SInt

namespace ConstantRange

variable {r : ConstantRange w} {x : SInt w}

/-! ## Extensions -/

theorem contains_zeroExtend (hw : 1 < w) (h : w < n) (hx : r.contains x = true) :
    (r.zeroExtend n).contains (x.zExt n) = true := by
  have hwpos : 0 < w := by omega
  have hbound := SInt.value_true_bounds x
  have hlow := SInt.value_true_bounds r.lower
  have hbit := SInt.value_true_getOneBitSet h
  have hword (v : SInt w) := SInt.value_true_zExt hwpos h.le v
  have hzeroVal : value true (0 : SInt n) = 0 := value_zero true
  rw [zeroExtend, if_neg (by rw [isEmptySet_eq_false_of_contains hwpos hx]; simp)]
  split_ifs with hends hupper
  · rw [contains_iff_of_lt (by omega) true (by dsimp only; rw [hbit, hzeroVal]; positivity)]
    dsimp only
    rw [hbit, hzeroVal, hword]
    omega
  · rw [Bool.or_eq_true, not_or, isWrappedSet_iff] at hends
    rw [SInt.isUMinValue_iff] at hupper
    have hupperVal : value true r.upper = 0 := by rw [hupper, SInt.value_uMinValue]
    rw [contains_iff hwpos true, or_iff_right hends.1] at hx
    rw [contains_iff_of_lt (by omega) true (by dsimp only; rw [hbit, hword]; omega)]
    dsimp only
    rw [hbit, hword, hword]
    omega
  · rw [Bool.or_eq_true, not_or, isWrappedSet_iff] at hends
    rw [SInt.isUMinValue_iff, SInt.eq_iff_value_eq true, SInt.value_uMinValue] at hupper
    rw [contains_iff hwpos true, or_iff_right hends.1] at hx
    have hlt : value true r.lower < value true r.upper := by omega
    rw [contains_iff_of_lt (by omega) true (by dsimp only; rw [hword, hword]; exact hlt)]
    dsimp only
    rw [hword, hword, hword]
    omega

theorem contains_signExtend (hw : 1 < w) (h : w < n) (hx : r.contains x = true) :
    (r.signExtend n).contains (x.sExt n) = true := by
  have hwpos : 0 < w := by omega
  have hbound := SInt.value_false_bounds x
  have hlow := SInt.value_false_bounds r.lower
  have hhigh := SInt.value_false_getHighBitsSet hwpos h
  have hword (v : SInt w) := SInt.value_false_sExt hwpos h.le v
  have hpow := SInt.two_pow_half_le (w := w + 1) (n := n) h
  have hturn := two_pow_eq hwpos
  rw [Nat.add_sub_cancel] at hpow
  rw [signExtend, if_neg (by rw [isEmptySet_eq_false_of_contains hwpos hx]; simp)]
  split_ifs with hends hupper
  · have hlast := SInt.value_false_getLowBitsSet_succ hw h
    rw [contains_iff_of_lt (by omega) false (by dsimp only; rw [hhigh, hlast]; omega)]
    dsimp only
    rw [hhigh, hlast, hword]
    omega
  · rw [Bool.or_eq_true, not_or, isSignWrappedSet_iff hwpos] at hends
    rw [SInt.isSMinValue_iff] at hupper
    have hupperVal : value false r.upper = -2 ^ (w - 1) := by
      rw [hupper, SInt.value_false_sMinValue hwpos]
    have hlast : value false (r.upper.zExt n) = 2 ^ (w - 1) := by
      rw [SInt.value_false_zExt hwpos h, hupper, SInt.value_true_sMinValue hwpos]
    rw [contains_iff hwpos false, or_iff_right hends.1] at hx
    rw [contains_iff_of_lt (by omega) false (by dsimp only; rw [hlast, hword]; omega)]
    dsimp only
    rw [hlast, hword, hword]
    omega
  · rw [Bool.or_eq_true, not_or, isSignWrappedSet_iff hwpos] at hends
    rw [SInt.isSMinValue_iff, SInt.eq_iff_value_eq false, SInt.value_false_sMinValue hwpos]
      at hupper
    rw [contains_iff hwpos false, or_iff_right hends.1] at hx
    have hlt : value false r.lower < value false r.upper := by omega
    rw [contains_iff_of_lt (by omega) false (by dsimp only; rw [hword, hword]; exact hlt)]
    dsimp only
    rw [hword, hword, hword]
    omega

/-! ## Truncation -/

/-- The number of active bits tells how large a word is. -/
theorem activeBits_le_iff (v : SInt w) (k : ℕ) : v.activeBits ≤ k ↔ value true v < 2 ^ k := by
  rw [SInt.activeBits, Nat.size_le, value_true]
  exact_mod_cast Iff.rfl

/-- The high bits of a word, from bit `n` on. -/
theorem value_true_highBits (h : n < w) (v : SInt w) :
    value true (v &&& SInt.getBitsSetFrom w n) = value true v - value true v % 2 ^ n := by
  have hv := v.isLt
  have hpos := Nat.two_pow_pos n
  have hsplit : 2 ^ (w - n) * 2 ^ n = 2 ^ w := by rw [← pow_add, Nat.sub_add_cancel h.le]
  have hmask : (SInt.getBitsSetFrom w n).toNat = (2 ^ (w - n) - 1) * 2 ^ n := by
    rw [SInt.getBitsSetFrom, SInt.setBits, BitVec.toNat_ofNat]
    refine Nat.mod_eq_of_lt ?_
    rw [Nat.sub_mul, hsplit, one_mul]
    have hpow := Nat.two_pow_pos w
    omega
  have hand : v.toNat &&& (2 ^ (w - n) - 1) * 2 ^ n = v.toNat / 2 ^ n * 2 ^ n := by
    apply Nat.eq_of_testBit_eq
    intro i
    rw [Nat.testBit_and, Nat.testBit_mul_two_pow, Nat.testBit_mul_two_pow,
      Nat.testBit_two_pow_sub_one, Nat.testBit_div_two_pow]
    by_cases hi : n ≤ i
    · by_cases hiw : i < w
      · have hin : i - n < w - n := by omega
        simp [hi, hin]
      · have hout : v.toNat.testBit i = false :=
          Nat.testBit_lt_two_pow (hv.trans_le (Nat.pow_le_pow_right (by omega) (by omega)))
        simp [hi, hout]
    · simp [hi]
  have hmod := Nat.div_add_mod v.toNat (2 ^ n)
  rw [value_true, value_true, BitVec.toNat_and, hmask, hand]
  push_cast
  have hcast : ((v.toNat / 2 ^ n * 2 ^ n : ℕ) : ℤ) = v.toNat - (v.toNat % 2 ^ n : ℕ) := by
    rw [mul_comm, eq_sub_iff_add_eq]
    exact_mod_cast hmod
  push_cast at hcast
  exact hcast

theorem value_true_clearBit (v : SInt w) (k : ℕ) (hlo : 2 ^ k ≤ value true v)
    (hhi : value true v < 2 ^ (k + 1)) :
    value true (SInt.clearBit v k) = value true v - 2 ^ k := by
  have hlo' : 2 ^ k ≤ v.toNat := by
    rw [value_true] at hlo
    exact_mod_cast hlo
  have hhi' : v.toNat < 2 ^ (k + 1) := by
    rw [value_true] at hhi
    exact_mod_cast hhi
  have hk : k < w := by
    by_contra hk
    have hpow := Nat.pow_le_pow_right (show 0 < 2 by omega) (not_lt.mp hk)
    have hv := v.isLt
    omega
  obtain ⟨low, hlow⟩ : ∃ low, v.toNat = 2 ^ k + low := ⟨v.toNat - 2 ^ k, by omega⟩
  have hlowLt : low < 2 ^ k := by
    rw [pow_succ] at hhi'
    omega
  have hclear : (SInt.clearBit v k).toNat = low := by
    have hmask : SInt.maskBit w k = BitVec.twoPow w k := rfl
    rw [SInt.clearBit, hmask]
    apply Nat.eq_of_testBit_eq
    intro i
    rw [BitVec.testBit_toNat, BitVec.getLsbD_and, BitVec.getLsbD_not, BitVec.getLsbD_twoPow,
      ← BitVec.testBit_toNat, hlow]
    rcases lt_trichotomy i k with hi | rfl | hi
    · have hiw : i < w := by omega
      have hne : k ≠ i := by omega
      simp [Nat.testBit_two_pow_add_gt hi, hiw, hne]
    · simp [Nat.testBit_lt_two_pow hlowLt]
    · have hout : (2 ^ k + low).testBit i = false := by
        refine Nat.testBit_lt_two_pow (hlow ▸ hhi'.trans_le ?_)
        exact Nat.pow_le_pow_right (by omega) hi
      have hout' : low.testBit i = false :=
        Nat.testBit_lt_two_pow (hlowLt.trans (Nat.pow_lt_pow_right (by omega) hi))
      rw [hout, hout', Bool.false_and]
  rw [value_true, value_true, hclear, hlow]
  push_cast
  ring

/-- Cutting the high bits of a lower bound off both bounds. -/
theorem value_cut (h : n < w) {l u adjust : SInt w} (hlu : value true l < value true u)
    (hadjust : (if n < l.activeBits then l &&& SInt.getBitsSetFrom w n else 0) = adjust) :
    value true adjust = value true l - value true l % 2 ^ n ∧
      value true (l - adjust) = value true l % 2 ^ n ∧
      value true (u - adjust) = value true u - value true adjust := by
  have hwpos : 0 < w := by omega
  have hpos : (0 : ℤ) < 2 ^ n := by positivity
  have hlow := SInt.value_true_bounds l
  have hupp := SInt.value_true_bounds u
  have hmod := Int.emod_nonneg (value true l) hpos.ne'
  have hdiv := Int.mul_ediv_add_emod (value true l) (2 ^ n)
  have hquot := mul_nonneg hpos.le (Int.ediv_nonneg hlow.1 hpos.le)
  have hadjustVal : value true adjust = value true l - value true l % 2 ^ n := by
    rw [← hadjust]
    split_ifs with hbits
    · exact value_true_highBits h l
    · rw [not_lt, activeBits_le_iff] at hbits
      rw [Int.emod_eq_of_lt hlow.1 hbits, sub_self]
      exact value_zero true
  refine ⟨hadjustVal, ?_, ?_⟩
  · rw [value_sub hwpos (by rw [hadjustVal]; exact ⟨by rw [least_true]; omega,
      by rw [greatest_true]; omega⟩), hadjustVal]
    omega
  · exact value_sub hwpos ⟨by rw [least_true]; omega, by rw [greatest_true]; omega⟩

/-- The words between two bounds, after the common high bits are cut off, are found in the
truncated interval; so is everything in the part already found. -/
theorem contains_truncateUnwrapped (hn : 1 < n) (h : n < w) {l u : SInt w}
    {wrappedPart : ConstantRange n} (hlu : value true l < value true u)
    (hwrapped : wrappedPart.Valid) {v : SInt n}
    (hv : (∃ x : SInt w, value true l ≤ value true x ∧ value true x < value true u ∧ v = x.trunc n) ∨
      wrappedPart.contains v = true) :
    (truncateUnwrapped l u n wrappedPart).contains v = true := by
  have hwpos : 0 < w := by omega
  have hnpos : 0 < n := by omega
  have hpos : (0 : ℤ) < 2 ^ n := by positivity
  have hlow := SInt.value_true_bounds l
  rw [truncateUnwrapped]
  generalize hadjust : (if n < l.activeBits then l &&& SInt.getBitsSetFrom w n else 0) = adjust
  obtain ⟨hadjustVal, hl', hu'⟩ := value_cut h hlu hadjust
  have hlTrunc : value true ((l - adjust).trunc n) = value true l % 2 ^ n := by
    rw [SInt.value_true_trunc, hl', Int.emod_emod_of_dvd _ dvd_rfl]
  -- the distance of an element from the cut bits is the word itself, up to one turn
  have hshift : ∀ x : SInt w, value true (x.trunc n) = (value true x - value true adjust) % 2 ^ n := by
    intro x
    rw [SInt.value_true_trunc, hadjustVal, Int.sub_emod, Int.sub_emod (value true l),
      Int.emod_emod_of_dvd _ dvd_rfl, sub_self, Int.zero_emod, sub_zero,
      Int.emod_emod_of_dvd _ dvd_rfl]
  have hunion : ∀ b : SInt n,
      (∀ x : SInt w, value true l ≤ value true x → value true x < value true u →
        (⟨(l - adjust).trunc n, b⟩ : ConstantRange n).contains (x.trunc n) = true) →
      (unionWith ⟨(l - adjust).trunc n, b⟩ wrappedPart).contains v = true := by
    intro b hb
    refine contains_unionWith hn (valid_of_contains (hb l le_rfl hlu)) hwrapped .smallest ?_
    rcases hv with ⟨x, hlx, hxu, rfl⟩ | hv
    · exact Or.inl (hb x hlx hxu)
    · exact Or.inr hv
  have hupperTrunc : value true (u - adjust) < 2 ^ n →
      value true ((u - adjust).trunc n) = value true (u - adjust) := by
    intro hlt
    rw [SInt.value_true_trunc, Int.emod_eq_of_lt (by omega) hlt]
  dsimp only
  by_cases hbits : (u - adjust).activeBits ≤ n
  · rw [if_pos hbits]
    rw [activeBits_le_iff] at hbits
    refine hunion _ fun x hlx hxu => ?_
    have hword : value true (x.trunc n) = value true x - value true adjust := by
      rw [hshift, Int.emod_eq_of_lt (by omega) (by omega)]
    rw [contains_iff_of_lt hnpos true (by dsimp only; rw [hlTrunc, hupperTrunc hbits]; omega)]
    dsimp only
    rw [hlTrunc, hupperTrunc hbits, hword]
    omega
  rw [if_neg hbits]
  rw [activeBits_le_iff, not_lt] at hbits
  by_cases hnext : (u - adjust).activeBits = n + 1
  swap
  · rw [if_neg hnext]
    exact contains_full v
  have hlast : value true (u - adjust) < 2 ^ (n + 1) := (activeBits_le_iff _ _).mp hnext.le
  have hclear := value_true_clearBit (u - adjust) n hbits hlast
  rw [if_pos hnext]
  rw [pow_succ] at hlast
  by_cases hturn : (SInt.clearBit (u - adjust) n).ult (l - adjust) = true
  swap
  · rw [if_neg hturn]
    exact contains_full v
  rw [if_pos hturn]
  rw [SInt.ult_iff, hl', hclear] at hturn
  have hclearTrunc : value true ((SInt.clearBit (u - adjust) n).trunc n) =
      value true (u - adjust) - 2 ^ n := by
    rw [SInt.value_true_trunc, hclear, Int.emod_eq_of_lt (by omega) (by omega)]
  refine hunion _ fun x hlx hxu => ?_
  rw [contains_iff_of_gt hnpos true (by dsimp only; rw [hlTrunc, hclearTrunc]; exact hturn)]
  dsimp only
  rw [hlTrunc, hclearTrunc]
  by_cases hfirst : value true x - value true adjust < 2 ^ n
  · have hword : value true (x.trunc n) = value true x - value true adjust := by
      rw [hshift, Int.emod_eq_of_lt (by omega) hfirst]
    omega
  · have hword : value true (x.trunc n) = value true x - value true adjust - 2 ^ n := by
      rw [hshift, ← Int.sub_emod_right, Int.emod_eq_of_lt (by omega) (by omega)]
    omega

theorem contains_truncate (hn : 1 < n) (h : n < w) (hx : r.contains x = true) :
    (r.truncate n).contains (x.trunc n) = true := by
  have hwpos : 0 < w := by omega
  have hnpos : 0 < n := by omega
  have hpow := SInt.two_pow_le h.le
  have hbound := SInt.value_true_bounds x
  have hmax : value true (SInt.uMaxValue n) = 2 ^ n - 1 := SInt.value_true_uMaxValue hnpos
  rw [truncate, if_neg (by rw [isEmptySet_eq_false_of_contains hwpos hx]; simp)]
  by_cases hfull : r.isFullSet = true
  · rw [if_pos hfull]
    exact contains_full _
  rw [if_neg hfull]
  by_cases hupper : r.isUpperWrapped = true
  swap
  · rw [if_neg hupper]
    rw [isUpperWrapped_iff] at hupper
    rw [contains_iff hwpos true, or_iff_right hfull] at hx
    exact contains_truncateUnwrapped hn h (by omega) (valid_empty n)
      (Or.inl ⟨x, by omega, by omega, rfl⟩)
  rw [if_pos hupper]
  rw [isUpperWrapped_iff] at hupper
  rw [contains_iff_of_gt hwpos true hupper] at hx
  by_cases hcovers : r.upper.uge ((SInt.uMaxValue n).zExt w) = true
  · dsimp only
    rw [if_pos hcovers]
    exact contains_full _
  dsimp only
  rw [if_neg hcovers]
  rw [SInt.uge_iff, SInt.value_true_zExt hnpos h.le, hmax, not_le] at hcovers
  have hupperLow := SInt.value_true_bounds r.upper
  have hupperTrunc : value true (r.upper.trunc n) = value true r.upper := by
    rw [SInt.value_true_trunc, Int.emod_eq_of_lt (by omega) (by omega)]
  have hwrap : value true (r.upper.trunc n) < value true (SInt.uMaxValue n) := by omega
  have hmem := contains_iff_of_gt hnpos true
    (r := ⟨SInt.uMaxValue n, r.upper.trunc n⟩) hwrap (x.trunc n)
  dsimp only at hmem
  have hlast : value true x = 2 ^ w - 1 → value true (x.trunc n) = 2 ^ n - 1 := by
    intro heq
    have hsplit : (2 : ℤ) ^ w = 2 ^ n * 2 ^ (w - n) := by
      rw [← pow_add, Nat.add_sub_cancel' h.le]
    rw [SInt.value_true_trunc, heq, hsplit, show (2 : ℤ) ^ n * 2 ^ (w - n) - 1 =
      2 ^ n - 1 + 2 ^ n * (2 ^ (w - n) - 1) by ring, Int.add_mul_emod_self_left,
      Int.emod_eq_of_lt (by omega) (by omega)]
  have hfirst : value true x < value true r.upper → value true (x.trunc n) = value true x := by
    intro hlt
    rw [SInt.value_true_trunc, Int.emod_eq_of_lt (by omega) (by omega)]
  by_cases htop : r.lower.isUMaxValue = true
  · rw [if_pos htop, hmem, hupperTrunc, hmax]
    rw [SInt.isUMaxValue_iff, SInt.eq_iff_value_eq true, SInt.value_true_uMaxValue hwpos] at htop
    rcases hx with hx | hx
    · exact Or.inl (hlast (by omega)).ge
    · exact Or.inr (by rw [hfirst hx]; exact hx)
  rw [if_neg htop]
  rw [SInt.isUMaxValue_iff, SInt.eq_iff_value_eq true, SInt.value_true_uMaxValue hwpos] at htop
  have hlowBound := SInt.value_true_bounds r.lower
  have hones : value true (SInt.allOnes w) = 2 ^ w - 1 := SInt.value_true_uMaxValue hwpos
  refine contains_truncateUnwrapped hn h (by omega) (valid_of_value_ne true hwrap.ne') ?_
  rw [hmem, hupperTrunc, hmax]
  rcases hx with hx | hx
  · by_cases heq : value true x = 2 ^ w - 1
    · exact Or.inr (Or.inl (hlast heq).ge)
    · exact Or.inl ⟨x, hx, by omega, rfl⟩
  · exact Or.inr (Or.inr (by rw [hfirst hx]; exact hx))

theorem valid_truncate (hn : 1 < n) (h : n < w) (hr : r.Valid) : (r.truncate n).Valid := by
  by_cases hempty : r.isEmptySet = true
  · rw [truncate, if_pos hempty]
    exact valid_empty n
  · obtain ⟨v, hv⟩ := exists_contains_of_valid (by omega) hr hempty
    exact valid_of_contains (contains_truncate hn h hv)

theorem valid_zeroExtend (hw : 1 < w) (h : w < n) (hr : r.Valid) : (r.zeroExtend n).Valid := by
  by_cases hempty : r.isEmptySet = true
  · rw [zeroExtend, if_pos hempty]
    exact valid_empty n
  · obtain ⟨v, hv⟩ := exists_contains_of_valid (by omega) hr hempty
    exact valid_of_contains (contains_zeroExtend hw h hv)

end ConstantRange

end Cangjie.CHIR
