import CangjieCompiler.CHIR.Analysis.ConstantRange.Division

/-!
# Negation, magnitudes and remainders of ranges

The negation of a range turns it around on the circle.  A range that starts with the smallest
value is treated apart, and exactly that value is then missing.  The remainders are bounded by
the magnitudes of the divisors, which are read as unsigned because the magnitude of the smallest
value has no signed reading.
-/

namespace Cangjie.CHIR.ConstantRange

open FixedWidth IntervalArithmetic

variable {w : ℕ} {r rhs : ConstantRange w} {x y : SInt w}

/-! ## Negation -/

theorem toNat_sub_one {d : SInt w} (hd : 0 < d.toNat) : (d - 1).toNat = d.toNat - 1 := by
  have hlt := d.isLt
  have hone : (1#w).toNat = 1 := by
    rw [BitVec.toNat_ofNat, Nat.mod_eq_of_lt (by omega)]
  change (d - 1#w).toNat = _
  rw [BitVec.toNat_sub_of_le (by rw [BitVec.le_def, hone]; omega), hone]

/-- Turning a distance around its end. -/
theorem toNat_sub_one_sub {d : SInt w} (hd : 0 < d.toNat) (e : SInt w) :
    (d - 1 - e).toNat =
      if e.toNat < d.toNat then d.toNat - 1 - e.toNat else 2 ^ w + (d.toNat - 1) - e.toNat := by
  have hd' := d.isLt
  have he := e.isLt
  rw [BitVec.toNat_sub, toNat_sub_one hd]
  split_ifs with hlt
  · rw [show 2 ^ w - e.toNat + (d.toNat - 1) = d.toNat - 1 - e.toNat + 2 ^ w by omega,
      Nat.add_mod_right, Nat.mod_eq_of_lt (by omega)]
  · rw [Nat.mod_eq_of_lt (by omega)]
    omega

theorem toNat_sub_pos {a b : SInt w} (h : a ≠ b) : 0 < (a - b).toNat := by
  rw [Nat.pos_iff_ne_zero, Ne, ← BitVec.toNat_zero (w := w), ← BitVec.toNat_inj.symm]
  exact fun hzero => h (sub_eq_zero.mp hzero)

theorem lower_ne_upper (hr : r.Valid) (hempty : r.isEmptySet = false)
    (hfull : r.isFullSet = false) : r.lower ≠ r.upper := by
  intro heq
  rw [isEmptySet, beq_iff_eq.mpr heq, Bool.true_and] at hempty
  rw [isFullSet, beq_iff_eq.mpr heq, Bool.true_and] at hfull
  rcases hr heq with h | h
  · rw [h] at hfull
    exact Bool.noConfusion hfull
  · rw [h] at hempty
    exact Bool.noConfusion hempty

theorem neg_sMinValue (w : ℕ) : -SInt.sMinValue w = SInt.sMinValue w := by
  have hmin : SInt.sMinValue w = BitVec.intMin w := by
    rw [SInt.sMinValue, SInt.setBit, SInt.zero, BitVec.zero_or]
    rfl
  rw [hmin, BitVec.neg_intMin]

/-- The negation of a range holds the negations of its elements, but for the smallest value in a
range that starts with it. -/
theorem contains_negate_iff (hw : 1 < w) (hr : r.Valid) (hempty : r.isEmptySet = false)
    (hfull : r.isFullSet = false) (hone : r ≠ single (SInt.sMinValue w)) :
    r.negate.contains (-y) = true ↔
      r.contains y = true ∧ (r.lower = SInt.sMinValue w → y ≠ SInt.sMinValue w) := by
  have hwpos : 0 < w := by omega
  have hne := lower_ne_upper hr hempty hfull
  have hlen := toNat_sub_pos hne.symm
  have hturn : -y - -(r.upper - 1) = r.upper - r.lower - 1 - (y - r.lower) := by ring
  have hdist := (y - r.lower).isLt
  rw [negate, hempty, hfull, Bool.or_self, if_neg Bool.false_ne_true]
  dsimp only
  by_cases hlower : r.lower = SInt.sMinValue w
  · have hends : -(r.upper - 1) ≠ r.lower := by
      intro heq
      apply hone
      have hupper : r.upper = SInt.sMinValue w + 1 := by
        rw [← sub_eq_iff_eq_add, ← neg_neg (r.upper - 1), heq, hlower, neg_sMinValue]
      calc r = ⟨r.lower, r.upper⟩ := rfl
        _ = single (SInt.sMinValue w) := by rw [hlower, hupper, single]
    have hspan : r.lower - -(r.upper - 1) = r.upper - r.lower - 1 := by
      rw [hlower]
      nth_rewrite 1 [← neg_sMinValue]
      ring
    have hstart : 0 < (y - r.lower).toNat ↔ y ≠ SInt.sMinValue w := by
      rw [← hlower]
      refine ⟨?_, toNat_sub_pos⟩
      rintro hpos rfl
      rw [sub_self] at hpos
      exact absurd hpos (by simp)
    rw [if_pos (SInt.isSMinValue_iff.mpr hlower), contains_iff_distance hwpos _ _ hends,
      contains_iff_distance hwpos _ _ hne]
    dsimp only
    rw [hspan, hturn, toNat_sub_one hlen, toNat_sub_one_sub hlen, imp_iff_right hlower, ← hstart]
    split_ifs with hin
    · omega
    · omega
  · have hends : -(r.upper - 1) ≠ -r.lower + 1 := by
      intro heq
      apply hne
      calc r.lower = -(-r.lower + 1) + 1 := by ring
        _ = r.upper := by rw [← heq]; ring
    have hspan : -r.lower + 1 - -(r.upper - 1) = r.upper - r.lower := by ring
    rw [if_neg (by rw [SInt.isSMinValue_iff]; exact hlower),
      contains_iff_distance hwpos _ _ hends, contains_iff_distance hwpos _ _ hne]
    dsimp only
    rw [hspan, hturn, toNat_sub_one_sub hlen]
    split_ifs with hin
    · exact iff_of_true (by omega) ⟨hin, fun h => absurd h hlower⟩
    · exact iff_of_false (by omega) (fun h => hin h.1)

/-- The negation of a range holds the negation of each of its elements, the smallest value among
them, which is its own negation. -/
def NegateSound (r : ConstantRange w) : Prop :=
  (∀ v, r.contains v = true → r.negate.contains (-v) = true) ∧
    (r.contains (SInt.sMinValue w) = true → r.negate.contains (SInt.sMinValue w) = true)

theorem sMinValue_ne_uMaxValue (hw : 1 < w) : SInt.sMinValue w ≠ SInt.uMaxValue w := by
  have hhalf := two_le_half hw
  intro heq
  have hvalue := congrArg (value false) heq
  rw [SInt.value_false_sMinValue (by omega), SInt.value_false_uMaxValue (by omega)] at hvalue
  omega

theorem sMinValue_ne_uMinValue (hw : 1 < w) : SInt.sMinValue w ≠ SInt.uMinValue w := by
  have hhalf := two_le_half hw
  intro heq
  have hvalue := congrArg (value false) heq
  rw [SInt.value_false_sMinValue (by omega), SInt.value_uMinValue] at hvalue
  omega

/-- A range other than the full set does not hold its upper bound. -/
theorem not_contains_upper (hw : 0 < w) (hfull : ¬r.isFullSet = true) :
    ¬r.contains r.upper = true := by
  rw [contains_iff hw true, or_iff_right hfull]
  omega

/-- A legal range that starts with the smallest value is neither the full nor the empty set, so
it holds that value. -/
theorem contains_sMinValue_of_lower (hw : 1 < w) (hr : r.Valid)
    (hlower : r.lower = SInt.sMinValue w) :
    r.isEmptySet = false ∧ r.isFullSet = false ∧ r.contains (SInt.sMinValue w) = true := by
  have hempty : ¬r.isEmptySet = true := by
    rw [isEmptySet, Bool.and_eq_true, SInt.isUMinValue_iff, hlower]
    exact fun h => sMinValue_ne_uMinValue hw h.2
  have hfull : ¬r.isFullSet = true := by
    rw [isFullSet, Bool.and_eq_true, SInt.isUMaxValue_iff, hlower]
    exact fun h => sMinValue_ne_uMaxValue hw h.2
  obtain ⟨v, hv⟩ := exists_contains_of_valid (by omega) hr hempty
  refine ⟨Bool.not_eq_true _ ▸ hempty, Bool.not_eq_true _ ▸ hfull, ?_⟩
  rw [← hlower]
  exact contains_lower (by omega) hv

/-- The negation of a range that starts with the smallest value ends with that value, and leaves
it out. -/
theorem not_contains_negate_sMinValue (hw : 1 < w) (hr : r.Valid)
    (hlower : r.lower = SInt.sMinValue w) : ¬r.negate.contains (SInt.sMinValue w) = true := by
  obtain ⟨hempty, hfull, -⟩ := contains_sMinValue_of_lower hw hr hlower
  have hupper : r.negate.upper = SInt.sMinValue w := by
    rw [negate, hempty, hfull, Bool.or_self, if_neg Bool.false_ne_true]
    exact (if_pos (SInt.isSMinValue_iff.mpr hlower)).trans hlower
  have hnot : ¬r.negate.isFullSet = true := by
    rw [isFullSet, Bool.and_eq_true, beq_iff_eq, SInt.isUMaxValue_iff]
    rintro ⟨hends, hmax⟩
    exact sMinValue_ne_uMaxValue hw (by rw [← hmax, hends, hupper])
  have hout := not_contains_upper (by omega) hnot
  rwa [hupper] at hout

/-- The negation of a range is sound unless the range starts with the smallest value. -/
theorem negate_sound_iff (width : IntWidth) (r : ConstantRange width.bits) (hr : r.Valid) :
    NegateSound r ↔ r.lower ≠ SInt.sMinValue width.bits := by
  have hw : 1 < width.bits := by
    have hbits := width.two_lt_bits
    omega
  constructor
  · intro hsound hlower
    obtain ⟨-, -, hmember⟩ := contains_sMinValue_of_lower hw hr hlower
    exact not_contains_negate_sMinValue hw hr hlower (hsound.2 hmember)
  · intro hlower
    have hall : ∀ v, r.contains v = true → r.negate.contains (-v) = true := by
      intro v hv
      have hempty := isEmptySet_eq_false_of_contains (by omega) hv
      by_cases hfull : r.isFullSet = true
      · rw [negate, hfull, Bool.or_true, if_pos rfl]
        exact contains_of_isFullSet hfull _
      · refine (contains_negate_iff hw hr hempty (Bool.not_eq_true _ ▸ hfull) ?_).mpr
          ⟨hv, fun h => absurd h hlower⟩
        rintro rfl
        exact hlower rfl
    refine ⟨hall, fun hmember => ?_⟩
    have hneg := hall _ hmember
    rwa [neg_sMinValue] at hneg

/-- The range of the bytes from `-127` to `0` does not start with the smallest value. -/
theorem negate_sound_nonPositive :
    NegateSound (⟨-127, 1⟩ : ConstantRange IntWidth.I8.bits) :=
  (negate_sound_iff .I8 ⟨-127, 1⟩ (by decide)).mpr (by decide)

/-- The bytes from `-128` to `0` are negated to the bytes from `0` to `127`. -/
theorem negate_not_sound :
    ¬∀ (width : IntWidth) (r : ConstantRange width.bits), r.Valid → NegateSound r := by
  intro hsound
  have hmin := (hsound .I8 ⟨-128, 1⟩ (by decide)).2 (by decide)
  exact absurd hmin (by decide)

/-! ## Magnitudes -/

theorem value_uMin (a b : SInt w) :
    value true (SInt.uMin a b) = min (value true a) (value true b) := by
  rw [SInt.uMin]
  split_ifs with hle
  · exact (min_eq_left (SInt.ule_iff.mp hle)).symm
  · rw [SInt.ule_iff, not_le] at hle
    exact (min_eq_right hle.le).symm

theorem value_uMax (a b : SInt w) :
    value true (SInt.uMax a b) = max (value true a) (value true b) := by
  rw [SInt.uMax]
  split_ifs with hle
  · exact (max_eq_right (SInt.ule_iff.mp hle)).symm
  · rw [SInt.ule_iff, not_le] at hle
    exact (max_eq_left hle.le).symm

/-- The magnitude of a negative value has an unsigned reading. -/
theorem value_true_neg_of_neg (hw : 0 < w) (hx : value false x < 0) :
    value true (-x) = -value false x := by
  have hbound := SInt.value_false_bounds x
  have hturn := two_pow_eq hw
  rw [neg_eq_ofInt false]
  exact value_ofInt hw ⟨by rw [least_true]; omega, by rw [greatest_true]; omega⟩

theorem value_true_of_nonneg (hw : 0 < w) (hx : 0 ≤ value false x) :
    value true x = value false x := by
  have hturn := two_pow_eq hw
  have hbound := SInt.value_true_bounds x
  rcases value_false_eq hw x with ⟨heq, -⟩ | ⟨heq, -⟩
  · exact heq.symm
  · omega

/-- The magnitudes of the elements lie in the range of absolute values, which holds nothing larger
than the magnitude of the smallest value. -/
theorem contains_abs (hw : 2 < w) (hx : r.contains x = true) {a : SInt w}
    (ha : value true a = |value false x|) :
    r.abs.contains a = true ∧ ∀ v, r.abs.contains v = true → value true v ≤ 2 ^ (w - 1) := by
  have hw1 : 1 < w := by omega
  have hwpos : 0 < w := by omega
  have hhalf := two_le_half hw1
  have hturn := two_pow_eq hwpos
  have hbound := SInt.value_false_bounds x
  have hempty := isEmptySet_eq_false_of_contains hwpos hx
  have habs : |value false x| ≤ 2 ^ (w - 1) := abs_le.mpr ⟨by omega, by omega⟩
  have hnonneg := abs_nonneg (value false x)
  have hzeroVal : value true (SInt.zero w) = 0 := value_zero true
  rw [abs, hempty, if_neg Bool.false_ne_true]
  by_cases hwrapped : r.isSignWrappedSet = true
  · rw [if_pos hwrapped]
    dsimp only
    rw [if_neg Bool.false_ne_true]
    rw [isSignWrappedSet_iff hwpos] at hwrapped
    have hmin := SInt.value_true_sMinValue hwpos
    generalize hlo : (if (r.upper.isPositive || !r.lower.isPositive) = true then SInt.zero w
      else SInt.uMin r.lower (-r.upper + 1)) = lo
    have hlower : value true lo ≤ |value false x| := by
      rw [← hlo]
      split_ifs with hspans
      · rw [hzeroVal]
        exact hnonneg
      · rw [Bool.or_eq_true, not_or, Bool.not_eq_true', Bool.not_eq_false, SInt.isPositive,
          SInt.isPositive, Bool.and_eq_true, Bool.and_eq_true, SInt.isNonNeg_iff,
          SInt.isNonNeg_iff, Bool.not_eq_true', Bool.not_eq_true', ← Bool.not_eq_true,
          ← Bool.not_eq_true, SInt.isZero_iff, SInt.isZero_iff, SInt.eq_iff_value_eq false,
          SInt.eq_iff_value_eq false, value_zero] at hspans
        have hupperBound := SInt.value_false_bounds r.upper
        have hlowerVal := value_true_of_nonneg hwpos hspans.2.1
        rw [value_uMin, hlowerVal]
        rcases (contains_iff_of_gt hwpos _ hwrapped.1 x).mp hx with hge | hlt
        · rw [abs_of_nonneg (hspans.2.1.trans hge)]
          exact (min_le_left _ _).trans hge
        · have hupperNeg : value true (-r.upper) ≤ -value false r.upper ∧
              value true (-r.upper) < greatest w true := by
            rw [greatest_true]
            rcases lt_or_ge (value false r.upper) 0 with hneg | hzero
            · rw [value_true_neg_of_neg hwpos hneg]
              omega
            · have hzeroWord : r.upper = 0#w := value_injective false (by rw [value_zero]; omega)
              rw [hzeroWord, BitVec.neg_zero, value_zero, value_zero]
              omega
          rw [abs_of_neg (by omega), value_add_one hw1 hupperNeg.2]
          exact (min_le_right _ _).trans (by omega)
    have hmem := contains_mk_iff true (l := lo) (u := SInt.sMinValue w) hw1 (by omega)
      (Or.inr (by rw [greatest_true]; omega))
    rw [hmem]
    exact ⟨by omega, fun v hv => by have := (hmem v).mp hv; omega⟩
  · obtain ⟨hlo, hhi⟩ := signed_bounds hw1 hx
    rw [if_neg hwrapped]
    simp only [Bool.false_and, Bool.false_eq_true, if_false]
    split_ifs with hmin hmax
    · rw [SInt.isNonNeg_iff] at hmin
      have hxpos : 0 ≤ value false x := by omega
      have hword : a = x := by
        apply value_injective true
        rw [ha, abs_of_nonneg hxpos, value_true_of_nonneg hwpos hxpos]
      rw [hword]
      refine ⟨hx, fun v hv => ?_⟩
      have hvBound := SInt.value_false_bounds v
      have hvLower := (signed_bounds hw1 hv).1
      rw [value_true_of_nonneg hwpos (by omega)]
      omega
    · rw [SInt.isNeg_iff] at hmax
      have hminBound := SInt.value_false_bounds r.sMinValue
      have hvalMax := value_true_neg_of_neg hwpos hmax
      have hvalMin := value_true_neg_of_neg hwpos (x := r.sMinValue) (by omega)
      rw [abs_of_neg (by omega)] at ha
      have hmem := contains_mk_iff true (l := -r.sMaxValue) (u := -r.sMinValue) hw1
        (by omega) (Or.inr (by rw [greatest_true]; omega))
      rw [hmem]
      exact ⟨by omega, fun v hv => by have := (hmem v).mp hv; omega⟩
    · rw [SInt.isNonNeg_iff, not_le] at hmin
      rw [SInt.isNeg_iff, not_lt] at hmax
      have hminBound := SInt.value_false_bounds r.sMinValue
      have hmaxBound := SInt.value_false_bounds r.sMaxValue
      have hvalMax := value_true_of_nonneg hwpos hmax
      have hvalMin := value_true_neg_of_neg hwpos hmin
      have hlast : |value false x| ≤ value true (SInt.uMax (-r.sMinValue) r.sMaxValue) ∧
          value true (SInt.uMax (-r.sMinValue) r.sMaxValue) ≤ 2 ^ (w - 1) := by
        rw [value_uMax, hvalMax, hvalMin]
        exact ⟨abs_le_max_abs_abs hlo hhi |>.trans (by
          rw [abs_of_neg hmin, abs_of_nonneg hmax]), max_le (by omega) (by omega)⟩
      have hmem := contains_mk_iff true (l := SInt.zero w)
        (u := SInt.uMax (-r.sMinValue) r.sMaxValue) hw1 (by omega)
        (Or.inr (by rw [greatest_true]; omega))
      rw [hmem]
      exact ⟨by omega, fun v hv => by have := (hmem v).mp hv; omega⟩

/-- The largest element belongs to its range. -/
theorem contains_uMaxValue (hw : 1 < w) (hx : r.contains x = true) :
    r.contains r.uMaxValue = true := by
  have hwpos : 0 < w := by omega
  have hbound := SInt.value_true_bounds x
  have hlow := SInt.value_true_bounds r.lower
  have hmax := SInt.value_true_uMaxValue hwpos
  have hpred := value_sub_one_cases hw true r.upper
  rw [least_true] at hpred
  rw [uMaxValue]
  split_ifs with htop
  · rw [Bool.or_eq_true, isUpperWrapped_iff] at htop
    rcases htop with hfull | hwraps
    · exact contains_of_isFullSet hfull _
    · rw [contains_iff_of_gt hwpos _ hwraps]
      omega
  · rw [Bool.or_eq_true, isUpperWrapped_iff, not_or] at htop
    rw [contains_iff hwpos true, or_iff_right htop.1] at hx ⊢
    omega

/-! ## Remainders -/

theorem getSingleElement_eq (hw : 1 < w) (hsingle : r.isSingleElement = true)
    (hx : r.contains x = true) : r.getSingleElement = x := by
  have hrange : r = single r.lower := by
    rw [isSingleElement, beq_iff_eq] at hsingle
    calc r = ⟨r.lower, r.upper⟩ := rfl
      _ = single r.lower := by rw [hsingle, single]
  rw [hrange, contains_single_iff hw] at hx
  exact hx.symm

/-- The early exits of both remainders: the divisor is zero alone, or both operands are known. -/
theorem contains_rem_of_exits (hw : 1 < w) (hx : r.contains x = true)
    (hy : rhs.contains y = true) (hne : y ≠ 0#w) (rem : SInt w → SInt w → SInt w)
    {rest : ConstantRange w} (hrest : rest.contains (rem x y) = true) :
    (if rhs.isSingleElement && rhs.getSingleElement.isZero then empty w
      else if rhs.isSingleElement && r.isSingleElement then
        single (rem r.getSingleElement rhs.getSingleElement)
      else rest).contains (rem x y) = true := by
  split_ifs with hzero hboth
  · rw [Bool.and_eq_true, SInt.isZero_iff] at hzero
    rw [getSingleElement_eq hw hzero.1 hy] at hzero
    exact absurd hzero.2 hne
  · rw [Bool.and_eq_true] at hboth
    rw [getSingleElement_eq hw hboth.1 hy, getSingleElement_eq hw hboth.2 hx]
    exact contains_single hw _
  · exact hrest

theorem contains_uRem (hw : 1 < w) (hx : r.contains x = true) (hy : rhs.contains y = true)
    (hne : value true y ≠ 0) : (r.uRem rhs).contains (SInt.uRem x y) = true := by
  have hwpos : 0 < w := by omega
  have hempty := isEmptySet_eq_false_of_contains hwpos hx
  have hempty' := isEmptySet_eq_false_of_contains hwpos hy
  obtain ⟨hx₁, hx₂⟩ := unsigned_bounds hw hx
  obtain ⟨hy₁, hy₂⟩ := unsigned_bounds hw hy
  have hxpos := (SInt.value_true_bounds x).1
  have hypos := (SInt.value_true_bounds y).1
  have hyne : y ≠ 0#w := fun h => hne (by rw [h, value_zero])
  have hmax : rhs.uMaxValue.isZero = false := by
    rw [← Bool.not_eq_true, SInt.isZero_iff, SInt.eq_iff_value_eq true, value_zero]
    omega
  rw [uRem, hempty, hempty', hmax, Bool.or_self, Bool.or_self, if_neg Bool.false_ne_true]
  refine contains_rem_of_exits hw hx hy hyne SInt.uRem ?_
  have hrem := SInt.value_uRem x y
  have hnonneg := Int.emod_nonneg (value true x) hne
  have hlt := Int.emod_lt_of_pos (value true x) (b := value true y) (by omega)
  split_ifs with hsmall
  · rw [SInt.ult_iff] at hsmall
    have hsame : SInt.uRem x y = x := by
      apply value_injective true
      rw [hrem, Int.emod_eq_of_lt hxpos (by omega)]
    rwa [hsame]
  · have hle : value true x % value true y ≤ value true x := by
      rw [← Int.tmod_eq_emod_of_nonneg hxpos]
      have habs := abs_tmod_le (value true x) (value true y)
      rw [abs_of_nonneg hxpos] at habs
      exact (le_abs_self _).trans habs
    have hpred : value true (rhs.uMaxValue - 1) = value true rhs.uMaxValue - 1 :=
      value_sub_one hw (by rw [least_true]; omega)
    refine contains_nonEmpty hw true ?_ ?_
    · rw [hrem]
      exact (value_zero true).le.trans hnonneg
    · rw [hrem, value_uMin, hpred]
      exact le_min (by omega) (by omega)

/-- The negative of a magnitude. -/
theorem value_neg_magnitude (hw : 1 < w) {m : SInt w}
    (hm : 1 ≤ value true m ∧ value true m ≤ 2 ^ (w - 1)) : value false (-m) = -value true m := by
  rw [neg_eq_ofInt true]
  exact value_ofInt (by omega) ⟨by rw [least_false]; omega, by rw [greatest_false]; omega⟩

/-- The last word that a remainder can reach: the largest dividend or the largest magnitude of a
divisor, less one. -/
theorem value_uMin_last (hw : 1 < w) {a m : SInt w} (ha : 0 ≤ value false a)
    (hm : 1 ≤ value true m) :
    value false (SInt.uMin a (m - 1)) = min (value false a) (value true m - 1) := by
  have hwpos : 0 < w := by omega
  have hpred : value true (m - 1) = value true m - 1 :=
    value_sub_one hw (by rw [least_true]; omega)
  have hval : value true (SInt.uMin a (m - 1)) = min (value false a) (value true m - 1) := by
    rw [value_uMin, value_true_of_nonneg hwpos ha, hpred]
  have hbound := SInt.value_false_bounds a
  have hmin := min_le_left (value false a) (value true m - 1)
  rcases value_false_eq hwpos (SInt.uMin a (m - 1)) with ⟨heq, -⟩ | ⟨-, hge⟩
  · rw [heq, hval]
  · omega

/-- The first word that a remainder can reach, unless the only magnitude of a divisor is one. -/
theorem value_uMax_first (hw : 1 < w) {a m : SInt w} (ha : value false a < 0)
    (hm : 1 ≤ value true m ∧ value true m ≤ 2 ^ (w - 1)) :
    value false (SInt.uMax a (-m + 1)) = max (value false a) (-value true m + 1) ∨
      (value true m = 1 ∧ value false (SInt.uMax a (-m + 1)) = value false a) := by
  have hwpos : 0 < w := by omega
  have hturn := two_pow_eq hwpos
  have hhalf := two_le_half hw
  have hneg := value_neg_magnitude hw hm
  have hlast : value false (-m + 1) = -value true m + 1 := by
    rw [value_add_one hw (by rw [hneg, greatest_false]; omega), hneg]
  have hread := value_false_eq hwpos a
  have hread' := value_false_eq hwpos (-m + 1)
  have hbound := SInt.value_true_bounds a
  have hbound' := SInt.value_true_bounds (-m + 1)
  rw [SInt.uMax]
  split_ifs with hle
  · rw [SInt.ule_iff] at hle
    left
    rw [hlast, max_eq_right (by omega)]
  · rw [SInt.ule_iff, not_le] at hle
    by_cases hone : value true m = 1
    · exact Or.inr ⟨hone, rfl⟩
    · left
      rw [max_eq_left (by omega)]

theorem contains_sRem (hw : 2 < w) (hx : r.contains x = true) (hy : rhs.contains y = true)
    (hne : value false y ≠ 0) : (r.sRem rhs).contains (SInt.sRem x y) = true := by
  have hw1 : 1 < w := by omega
  have hwpos : 0 < w := by omega
  have hhalf := two_le_half hw1
  have hturn := two_pow_eq hwpos
  have hempty := isEmptySet_eq_false_of_contains hwpos hx
  have hempty' := isEmptySet_eq_false_of_contains hwpos hy
  have hyne : y ≠ 0#w := fun h => hne (by rw [h, value_zero])
  rw [sRem, hempty, hempty', Bool.or_self, if_neg Bool.false_ne_true]
  refine contains_rem_of_exits hw1 hx hy hyne SInt.sRem ?_
  -- the magnitudes of the divisors
  have hyBound := SInt.value_false_bounds y
  have hyAbs : 1 ≤ |value false y| := Int.one_le_abs hne
  have hyLe : |value false y| ≤ 2 ^ (w - 1) := abs_le.mpr ⟨by omega, by omega⟩
  have hword : value true (BitVec.ofInt w |value false y|) = |value false y| :=
    value_ofInt hwpos ⟨by rw [least_true]; omega, by rw [greatest_true]; omega⟩
  obtain ⟨hmem, hall⟩ := contains_abs hw hy hword
  obtain ⟨hmag₁, hmag₂⟩ := unsigned_bounds hw1 hmem
  rw [hword] at hmag₁ hmag₂
  have hmaxLe := hall _ (contains_uMaxValue hw1 hmem)
  dsimp only
  generalize rhs.abs.uMaxValue = maxAbs at *
  have hmaxNe : ¬maxAbs.isZero = true := by
    rw [SInt.isZero_iff, SInt.eq_iff_value_eq true, value_zero]
    omega
  rw [if_neg hmaxNe]
  generalize hminAbs : (if rhs.abs.uMinValue.isZero = true then rhs.abs.uMinValue + 1
    else rhs.abs.uMinValue) = minAbs
  have hmin : 1 ≤ value true minAbs ∧ value true minAbs ≤ |value false y| := by
    rw [← hminAbs]
    split_ifs with hzero
    · rw [SInt.isZero_iff] at hzero
      rw [hzero, show (0#w + 1 : SInt w) = 1 from BitVec.zero_add 1#w, value_one hw1]
      omega
    · rw [SInt.isZero_iff, SInt.eq_iff_value_eq true, value_zero] at hzero
      have hnonneg := (SInt.value_true_bounds rhs.abs.uMinValue).1
      omega
  -- the bounds of a remainder
  obtain ⟨hx₁, hx₂⟩ := signed_bounds hw1 hx
  have hrem := SInt.value_sRem hwpos x y
  have hlt := abs_tmod_lt (value false x) hne
  have hle := abs_tmod_le (value false x) (value false y)
  have hsame : |value false x| < |value false y| → SInt.sRem x y = x := by
    intro hsmall
    apply value_injective false
    rw [hrem, tmod_eq_of_abs_lt hsmall]
  by_cases hminNonneg : r.sMinValue.isNonNeg = true
  · rw [if_pos hminNonneg]
    rw [SInt.isNonNeg_iff] at hminNonneg
    have hxpos : 0 ≤ value false x := by omega
    have hmaxVal := value_true_of_nonneg hwpos (x := r.sMaxValue) (by omega)
    have hrempos := Int.tmod_nonneg (value false y) hxpos
    split_ifs with hsmall
    · rw [SInt.ult_iff] at hsmall
      rw [hsame (by rw [abs_of_nonneg hxpos]; omega)]
      exact hx
    · have hzeroVal : value false (SInt.zero w) = 0 := value_zero false
      have hlast := value_uMin_last hw1 (a := r.sMaxValue) (m := maxAbs) (by omega) (by omega)
      have hremLe : value false (SInt.sRem x y) ≤
          min (value false r.sMaxValue) (value true maxAbs - 1) := by
        rw [abs_of_nonneg hrempos] at hlt hle
        rw [abs_of_nonneg hxpos] at hle
        rw [hrem]
        exact le_min (by omega) (by omega)
      rw [contains_mk_iff false hw1 (by omega) (Or.inl (by rw [least_false]; omega))]
      omega
  rw [if_neg hminNonneg]
  rw [SInt.isNonNeg_iff, not_le] at hminNonneg
  have hfirst := value_uMax_first hw1 (a := r.sMinValue) (m := maxAbs) hminNonneg (by omega)
  have hminBound := SInt.value_false_bounds r.sMinValue
  have hremGe : max (value false r.sMinValue) (-value true maxAbs + 1) ≤
      value false (SInt.sRem x y) := by
    rw [hrem]
    rw [abs_lt] at hlt
    rcases le_total 0 (value false x) with hxpos | hxneg
    · have hrempos := Int.tmod_nonneg (value false y) hxpos
      exact max_le (by omega) (by omega)
    · rw [abs_of_nonpos hxneg, abs_le] at hle
      exact max_le (by omega) (by omega)
  by_cases hmaxNeg : r.sMaxValue.isNeg = true
  · rw [if_pos hmaxNeg]
    rw [SInt.isNeg_iff] at hmaxNeg
    split_ifs with hsmall
    · have hnegVal := value_neg_magnitude hw1 (m := minAbs) ⟨hmin.1, by omega⟩
      have hread := value_false_eq hwpos r.sMinValue
      have hread' := value_false_eq hwpos (-minAbs)
      have hbound := SInt.value_true_bounds r.sMinValue
      have hbound' := SInt.value_true_bounds (-minAbs)
      rw [SInt.ugt_iff] at hsmall
      rw [hsame (by rw [abs_of_neg (by omega)]; omega)]
      exact hx
    · have hzeroVal : value false (SInt.zero w) = 0 := value_zero false
      have hremLe : value false (SInt.sRem x y) ≤ 0 := by
        rw [hrem]
        exact tmod_nonpos _ (by omega)
      have hrange : (⟨SInt.uMax r.sMinValue (-maxAbs + 1), 1⟩ : ConstantRange w) =
          ⟨SInt.uMax r.sMinValue (-maxAbs + 1), SInt.zero w + 1⟩ := by
        rw [SInt.zero, BitVec.zero_add]
      rw [hrange, contains_mk_iff false hw1 (by omega)
        (Or.inr (by rw [greatest_false]; omega))]
      omega
  · rw [if_neg hmaxNeg]
    rw [SInt.isNeg_iff, not_lt] at hmaxNeg
    have hlast := value_uMin_last hw1 (a := r.sMaxValue) (m := maxAbs) hmaxNeg (by omega)
    have hmaxBound := SInt.value_false_bounds r.sMaxValue
    have hremLe : value false (SInt.sRem x y) ≤
        min (value false r.sMaxValue) (value true maxAbs - 1) := by
      rw [hrem]
      rw [abs_lt] at hlt
      rcases le_total 0 (value false x) with hxpos | hxneg
      · rw [abs_of_nonneg hxpos, abs_le] at hle
        exact le_min (by omega) (by omega)
      · have hremneg := tmod_nonpos (value false y) hxneg
        exact le_min (by omega) (by omega)
    rw [contains_mk_iff false hw1 (by omega) ?_]
    · omega
    · rw [least_false, greatest_false]
      omega

/-! ## The operations together -/

theorem uDiv_eq_ofInt (x y : SInt w) :
    SInt.uDiv x y = BitVec.ofInt w (value true x / value true y) := by
  rw [← SInt.value_uDiv, ofInt_value]

theorem uRem_eq_ofInt (x y : SInt w) :
    SInt.uRem x y = BitVec.ofInt w (value true x % value true y) := by
  rw [← SInt.value_uRem, ofInt_value]

/-- Sums, differences, products, quotients and remainders of the elements of two ranges, computed
on the integers and brought back to the width, are elements of the range of the operation. -/
theorem operations_overApproximate (width : IntWidth) (L R : ConstantRange width.bits)
    (l r : SInt width.bits) (hl : L.contains l = true) (hr : R.contains r = true) :
    (L.add R).contains (BitVec.ofInt _ (value false l + value false r)) = true ∧
      (L.sub R).contains (BitVec.ofInt _ (value false l - value false r)) = true ∧
      (L.uMul R).contains (BitVec.ofInt _ (value true l * value true r)) = true ∧
      (L.sMul R).contains (BitVec.ofInt _ (value false l * value false r)) = true ∧
      (r ≠ 0 →
        (L.uDiv R).contains (BitVec.ofInt _ (value true l / value true r)) = true ∧
          (L.uRem R).contains (BitVec.ofInt _ (value true l % value true r)) = true ∧
          (L.sRem R).contains
            (BitVec.ofInt _ ((value false l).tmod (value false r))) = true) := by
  have hw := width.two_lt_bits
  have hw1 : 1 < width.bits := by omega
  have hwpos : 0 < width.bits := by omega
  rw [← add_eq_ofInt, ← sub_eq_ofInt, ← mul_eq_ofInt, ← mul_eq_ofInt, ← uDiv_eq_ofInt,
    ← uRem_eq_ofInt, ← SInt.sRem_eq_ofInt]
  refine ⟨contains_add hwpos hl hr, contains_sub hwpos hl hr, contains_uMul hw1 hl hr,
    contains_sMul hw1 hl hr, fun hne => ?_⟩
  have hvalue : ∀ uns, value uns r ≠ 0 := by
    intro uns hzero
    refine hne (value_injective uns ?_)
    rw [hzero]
    exact (value_zero uns).symm
  exact ⟨contains_uDiv hw1 hl hr (hvalue true), contains_uRem hw1 hl hr (hvalue true),
    contains_sRem hw hl hr (hvalue false)⟩

/-- The bytes `250`, read as `-6`, and `7` in the ranges from `250` to `3` and from `5` to `9`. -/
theorem operations_overApproximate_wrapped :
    ∃ q : SInt IntWidth.I8.bits, q = BitVec.ofInt _ (Int.tmod (-6) 7) ∧
      ((⟨250, 3⟩ : ConstantRange IntWidth.I8.bits).sRem ⟨5, 9⟩).contains q = true := by
  have hall := operations_overApproximate .I8 ⟨250, 3⟩ ⟨5, 9⟩ 250 7 (by decide) (by decide)
  exact ⟨_, rfl, (hall.2.2.2.2 (by decide)).2.2⟩

end Cangjie.CHIR.ConstantRange
