import CangjieCompiler.CHIR.Analysis.ConstantRange

/-!
# Membership in circular ranges

The source decides membership by unsigned comparisons.  `contains_iff` says that the same three
cases decide it under either reading of the bounds, so a range can be looked at as an interval
of signed or of unsigned integers, whichever the operation at hand needs.
-/

namespace Cangjie.CHIR.ConstantRange

open FixedWidth

variable {w : ℕ}

/-! ## The special ranges -/

theorem isFullSet_iff (hw : 0 < w) (r : ConstantRange w) :
    r.isFullSet = true ↔
      value true r.lower = value true r.upper ∧ value true r.lower = 2 ^ w - 1 := by
  rw [isFullSet, Bool.and_eq_true, beq_iff_eq, SInt.isUMaxValue_iff,
    SInt.eq_iff_value_eq true, SInt.eq_iff_value_eq true, SInt.value_true_uMaxValue hw]

/-- The full set, by the signed reading of its bounds. -/
theorem isFullSet_iff_signed (hw : 0 < w) (r : ConstantRange w) :
    r.isFullSet = true ↔
      value false r.lower = value false r.upper ∧ value false r.lower = -1 := by
  rw [isFullSet, Bool.and_eq_true, beq_iff_eq, SInt.isUMaxValue_iff,
    SInt.eq_iff_value_eq false, SInt.eq_iff_value_eq false, SInt.value_false_uMaxValue hw]

theorem isEmptySet_iff (r : ConstantRange w) :
    r.isEmptySet = true ↔
      value true r.lower = value true r.upper ∧ value true r.lower = 0 := by
  rw [isEmptySet, Bool.and_eq_true, beq_iff_eq, SInt.isUMinValue_iff,
    SInt.eq_iff_value_eq true, SInt.eq_iff_value_eq true, SInt.value_uMinValue]

@[simp] theorem isUpperWrapped_iff (r : ConstantRange w) :
    r.isUpperWrapped = true ↔ value true r.upper < value true r.lower := by
  rw [isUpperWrapped, SInt.ugt_iff]

theorem isWrappedSet_iff (r : ConstantRange w) :
    r.isWrappedSet = true ↔
      value true r.upper < value true r.lower ∧ value true r.upper ≠ 0 := by
  rw [isWrappedSet, Bool.and_eq_true, SInt.ugt_iff, Bool.not_eq_true', ← Bool.not_eq_true,
    SInt.isZero_iff, SInt.eq_iff_value_eq true, value_zero]

@[simp] theorem isUpperSignWrapped_iff (r : ConstantRange w) :
    r.isUpperSignWrapped = true ↔ value false r.upper < value false r.lower := by
  rw [isUpperSignWrapped, SInt.sgt_iff]

theorem isSignWrappedSet_iff (hw : 0 < w) (r : ConstantRange w) :
    r.isSignWrappedSet = true ↔
      value false r.upper < value false r.lower ∧ value false r.upper ≠ -2 ^ (w - 1) := by
  rw [isSignWrappedSet, Bool.and_eq_true, SInt.sgt_iff, Bool.not_eq_true', ← Bool.not_eq_true,
    SInt.isSMinValue_iff, SInt.eq_iff_value_eq false, SInt.value_false_sMinValue hw]

/-! ## Membership -/

/-- A range with different bounds holds the words less than its length away from the lower
bound. -/
theorem contains_iff_distance (hw : 0 < w) (r : ConstantRange w) (v : SInt w)
    (hne : r.lower ≠ r.upper) :
    r.contains v = true ↔ (v - r.lower).toNat < (r.upper - r.lower).toNat := by
  have hvalue : value true r.lower ≠ value true r.upper := fun h =>
    hne (value_injective true h)
  have hv := toNat_sub_eq hw true r.lower v
  have hupper := toNat_sub_eq hw true r.lower r.upper
  have hbv := SInt.value_true_bounds v
  have hbl := SInt.value_true_bounds r.lower
  have hbu := SInt.value_true_bounds r.upper
  rw [contains, if_neg hne]
  split_ifs at hv hupper ⊢ <;>
    simp only [Bool.not_eq_true', isUpperWrapped_iff, Bool.and_eq_true, Bool.or_eq_true,
      SInt.ule_iff, SInt.ult_iff, ← Bool.not_eq_true] at * <;>
    omega

/-- Membership, by either reading of the bounds. -/
theorem contains_iff (hw : 0 < w) (uns : Bool) (r : ConstantRange w) (v : SInt w) :
    r.contains v = true ↔
      r.isFullSet = true ∨
      (value uns r.lower < value uns r.upper ∧
        value uns r.lower ≤ value uns v ∧ value uns v < value uns r.upper) ∨
      (value uns r.upper < value uns r.lower ∧
        (value uns r.lower ≤ value uns v ∨ value uns v < value uns r.upper)) := by
  by_cases heq : r.lower = r.upper
  · rw [contains, if_pos heq, heq]
    simp
  · have hvalue : value uns r.lower ≠ value uns r.upper := fun h => heq (value_injective uns h)
    have hfull : ¬r.isFullSet = true := by
      rw [isFullSet, Bool.and_eq_true, beq_iff_eq]
      exact fun h => heq h.1
    have hv := toNat_sub_eq hw uns r.lower v
    have hupper := toNat_sub_eq hw uns r.lower r.upper
    have hends := greatest_eq hw uns
    have hbv := value_representable uns v
    have hbl := value_representable uns r.lower
    have hbu := value_representable uns r.upper
    obtain ⟨hbv₁, hbv₂⟩ := hbv
    obtain ⟨hbl₁, hbl₂⟩ := hbl
    obtain ⟨hbu₁, hbu₂⟩ := hbu
    rw [contains_iff_distance hw r v heq, or_iff_right hfull]
    split_ifs at hv hupper <;> omega

theorem isFullSet_eq_false_of_ne {r : ConstantRange w} (uns : Bool)
    (h : value uns r.lower ≠ value uns r.upper) : ¬r.isFullSet = true := by
  rw [isFullSet, Bool.and_eq_true, beq_iff_eq]
  exact fun hfull => h (by rw [hfull.1])

/-- Membership in a range that a reading takes for an interval. -/
theorem contains_iff_of_lt (hw : 0 < w) (uns : Bool) {r : ConstantRange w}
    (h : value uns r.lower < value uns r.upper) (v : SInt w) :
    r.contains v = true ↔
      value uns r.lower ≤ value uns v ∧ value uns v < value uns r.upper := by
  rw [contains_iff hw uns, or_iff_right (isFullSet_eq_false_of_ne uns h.ne)]
  omega

/-- Membership in a range that runs around the end of a reading. -/
theorem contains_iff_of_gt (hw : 0 < w) (uns : Bool) {r : ConstantRange w}
    (h : value uns r.upper < value uns r.lower) (v : SInt w) :
    r.contains v = true ↔
      value uns r.lower ≤ value uns v ∨ value uns v < value uns r.upper := by
  rw [contains_iff hw uns, or_iff_right (isFullSet_eq_false_of_ne uns h.ne')]
  omega

/-- A range with an element is a legal one. -/
theorem valid_of_contains {r : ConstantRange w} {v : SInt w} (h : r.contains v = true) :
    r.Valid := by
  intro heq
  rw [contains, if_pos heq, isFullSet, Bool.and_eq_true] at h
  exact Or.inl h.2

theorem isEmptySet_eq_false_of_contains (hw : 0 < w) {r : ConstantRange w} {v : SInt w}
    (h : r.contains v = true) : r.isEmptySet = false := by
  rw [← Bool.not_eq_true, isEmptySet_iff]
  rintro ⟨heq, hzero⟩
  have hpos : (1 : ℤ) < 2 ^ w := one_lt_pow₀ (by norm_num) (by omega)
  rw [contains_iff hw true, isFullSet_iff hw] at h
  omega

theorem isFullSet_full (w : ℕ) : (full w).isFullSet = true := by
  simp [full, ofBool, isFullSet]

theorem isEmptySet_empty (w : ℕ) : (empty w).isEmptySet = true := by
  simp [empty, ofBool, isEmptySet]

theorem contains_of_isFullSet {r : ConstantRange w} (h : r.isFullSet = true) (v : SInt w) :
    r.contains v = true := by
  have heq : r.lower = r.upper := by
    rw [isFullSet, Bool.and_eq_true, beq_iff_eq] at h
    exact h.1
  rw [contains, if_pos heq, h]

theorem contains_full (v : SInt w) : (full w).contains v = true :=
  contains_of_isFullSet (isFullSet_full w) v

theorem not_contains_of_isEmptySet (hw : 0 < w) {r : ConstantRange w}
    (h : r.isEmptySet = true) (v : SInt w) : ¬r.contains v = true := by
  intro hv
  rw [isEmptySet_eq_false_of_contains hw hv] at h
  exact Bool.false_ne_true h

theorem not_contains_empty (hw : 0 < w) (v : SInt w) : ¬(empty w).contains v = true :=
  not_contains_of_isEmptySet hw (isEmptySet_empty w) v

/-- A range with elements holds its lower bound. -/
theorem contains_lower (hw : 0 < w) {r : ConstantRange w} {v : SInt w}
    (hv : r.contains v = true) : r.contains r.lower = true := by
  rw [contains_iff hw true] at hv ⊢
  rcases hv with hfull | hv
  · exact Or.inl hfull
  · exact Or.inr (by omega)

/-- A legal range that is not the empty set has an element. -/
theorem exists_contains_of_valid (hw : 0 < w) {r : ConstantRange w} (hr : r.Valid)
    (hempty : ¬r.isEmptySet = true) : ∃ v, r.contains v = true := by
  by_cases heq : r.lower = r.upper
  · rcases hr heq with hmax | hmin
    · refine ⟨r.lower, contains_of_isFullSet ?_ _⟩
      rw [isFullSet, hmax, Bool.and_true, beq_iff_eq]
      exact heq
    · refine absurd ?_ hempty
      rw [isEmptySet, hmin, Bool.and_true, beq_iff_eq]
      exact heq
  · have hvalue : value true r.lower ≠ value true r.upper := fun h => heq (value_injective true h)
    refine ⟨r.lower, (contains_iff hw true r r.lower).mpr (Or.inr ?_)⟩
    omega

/-! ## Ranges built from bounds -/

/-- The words between two bounds, both included. -/
theorem contains_nonEmpty (hw : 1 < w) (uns : Bool) {l u v : SInt w}
    (hl : value uns l ≤ value uns v) (hu : value uns v ≤ value uns u) :
    (nonEmpty l (u + 1)).contains v = true := by
  have hwpos : 0 < w := by omega
  rw [nonEmpty]
  split_ifs with heq
  · exact contains_full v
  · have hne : value uns l ≠ value uns (u + 1) := fun h => heq (value_injective uns h)
    have hleast := least_le_value uns l
    rw [contains_iff hwpos uns]
    right
    dsimp only
    rcases value_add_one_cases hw uns u with ⟨-, hsucc⟩ | ⟨-, hturn⟩
    · exact Or.inl ⟨by omega, hl, by omega⟩
    · exact Or.inr ⟨by omega, Or.inl hl⟩

theorem ne_add_one (hw : 1 < w) (v : SInt w) : v ≠ v + 1 := by
  intro h
  have hval := congrArg (value true) h
  have hends := least_lt_greatest (show 0 < w by omega) true
  rcases value_add_one_cases hw true v with ⟨-, hsucc⟩ | ⟨htop, hturn⟩
  · omega
  · omega

theorem contains_single_iff (hw : 1 < w) {v x : SInt w} :
    (single v).contains x = true ↔ x = v := by
  have hwpos : 0 < w := by omega
  have hfull : ¬(single v).isFullSet = true := by
    rw [isFullSet, Bool.and_eq_true, beq_iff_eq]
    exact fun h => ne_add_one hw v h.1
  obtain ⟨hbx₁, hbx₂⟩ := value_representable true x
  have hends := least_lt_greatest hwpos true
  have hsucc := value_add_one_cases hw true v
  rw [contains_iff hwpos true, or_iff_right hfull, SInt.eq_iff_value_eq true]
  dsimp only [single]
  omega

theorem contains_single (hw : 1 < w) (v : SInt w) : (single v).contains v = true :=
  (contains_single_iff hw).mpr rfl

/-- The complement of a legal range. -/
theorem contains_inverse (hw : 0 < w) {r : ConstantRange w} (hr : r.Valid) (v : SInt w) :
    r.inverse.contains v = true ↔ ¬r.contains v = true := by
  rw [inverse]
  split_ifs with hfull hempty
  · simp [contains_of_isFullSet hfull, not_contains_empty hw v]
  · simp [contains_full, not_contains_of_isEmptySet hw hempty v]
  · have hne : r.lower ≠ r.upper := by
      intro heq
      rcases hr heq with hmax | hmin
      · exact hfull (by rw [isFullSet, heq, ← heq, hmax]; simp)
      · exact hempty (by rw [isEmptySet, heq, ← heq, hmin]; simp)
    have hvalue : value true r.lower ≠ value true r.upper := fun h =>
      hne (value_injective true h)
    have hfull' : ¬(⟨r.upper, r.lower⟩ : ConstantRange w).isFullSet = true := by
      rw [isFullSet, Bool.and_eq_true, beq_iff_eq]
      exact fun h => hne h.1.symm
    rw [contains_iff hw true, contains_iff hw true, or_iff_right hfull, or_iff_right hfull']
    dsimp only
    omega

/-- The words that stand in a relation to a given one. -/
theorem contains_from'_iff (hw : 1 < w) (rel : RelationalOperation) (v : SInt w)
    (isSigned : Bool) (x : SInt w) :
    (from' rel v isSigned).contains x = true ↔
      rel.Holds (value (!isSigned) x) (value (!isSigned) v) := by
  have hwpos : 0 < w := by omega
  have hends := least_lt_greatest hwpos (!isSigned)
  have hsucc := value_add_one_cases hw (!isSigned) v
  have hx := value_representable (!isSigned) x
  have hv := value_representable (!isSigned) v
  obtain ⟨hx₁, hx₂⟩ := hx
  obtain ⟨hv₁, hv₂⟩ := hv
  have hmin : (isSigned && v.isSMinValue || !isSigned && v.isUMinValue) = true ↔
      value (!isSigned) v = least w (!isSigned) := by
    cases isSigned <;>
      simp [SInt.eq_iff_value_eq true (b := SInt.uMinValue w), SInt.value_uMinValue,
        SInt.eq_iff_value_eq false (b := SInt.sMinValue w), SInt.value_false_sMinValue hwpos]
  have hmax : (isSigned && v.isSMaxValue || !isSigned && v.isUMaxValue) = true ↔
      value (!isSigned) v = greatest w (!isSigned) := by
    cases isSigned <;>
      simp [SInt.eq_iff_value_eq true (b := SInt.uMaxValue w), SInt.value_true_uMaxValue hwpos,
        SInt.eq_iff_value_eq false (b := SInt.sMaxValue w), SInt.value_false_sMaxValue hwpos]
  have hminVal : value (!isSigned) (if isSigned then SInt.sMinValue w else SInt.uMinValue w) =
      least w (!isSigned) := by
    cases isSigned
    · simpa using SInt.value_uMinValue w true
    · simpa using SInt.value_false_sMinValue hwpos
  have hmaxVal : value (!isSigned)
      ((if isSigned then SInt.sMaxValue w else SInt.uMaxValue w) + 1) = least w (!isSigned) := by
    have htop : value (!isSigned) (if isSigned then SInt.sMaxValue w else SInt.uMaxValue w) =
        greatest w (!isSigned) := by
      cases isSigned
      · simpa using SInt.value_true_uMaxValue hwpos
      · simpa using SInt.value_false_sMaxValue hwpos
    rcases value_add_one_cases hw (!isSigned)
      (if isSigned then SInt.sMaxValue w else SInt.uMaxValue w) with ⟨hlt, -⟩ | ⟨-, hturn⟩
    · omega
    · exact hturn
  have hempty := not_contains_empty hwpos x
  have hfull := contains_full x
  cases rel <;>
    simp only [from', reduceCtorEq, false_and, true_and, or_false, false_or, or_self, hmin, hmax,
      RelationalOperation.Holds, if_false]
  case LT =>
    by_cases hcase : value (!isSigned) v = least w (!isSigned)
    · rw [if_pos hcase]
      exact iff_of_false hempty (by omega)
    · rw [if_neg hcase, contains_iff_of_lt hwpos (!isSigned) (by dsimp only; omega)]
      dsimp only
      omega
  case LE =>
    by_cases hcase : value (!isSigned) v = greatest w (!isSigned)
    · rw [if_pos hcase]
      exact iff_of_true hfull (by omega)
    · rw [if_neg hcase, contains_iff_of_lt hwpos (!isSigned) (by dsimp only; omega)]
      dsimp only
      omega
  case EQ =>
    rw [contains_single_iff hw, SInt.eq_iff_value_eq (!isSigned)]
  case GT =>
    by_cases hcase : value (!isSigned) v = greatest w (!isSigned)
    · rw [if_pos hcase]
      exact iff_of_false hempty (by omega)
    · rw [if_neg hcase, contains_iff_of_gt hwpos (!isSigned) (by dsimp only; omega)]
      dsimp only
      omega
  case GE =>
    by_cases hcase : value (!isSigned) v = least w (!isSigned)
    · rw [if_pos hcase]
      exact iff_of_true hfull (by omega)
    · rw [if_neg hcase, contains_iff_of_gt hwpos (!isSigned) (by dsimp only; omega)]
      dsimp only
      omega
  case NE =>
    rw [contains_iff hwpos (!isSigned), or_iff_right (isFullSet_eq_false_of_ne (!isSigned) (by
      dsimp only; omega))]
    dsimp only
    omega

/-! ## The extreme elements -/

/-- The smallest element, by the order of a signedness. -/
def minValue (uns : Bool) (r : ConstantRange w) : SInt w := if uns then r.uMinValue else r.sMinValue

/-- The largest element, by the order of a signedness. -/
def maxValue (uns : Bool) (r : ConstantRange w) : SInt w := if uns then r.uMaxValue else r.sMaxValue

theorem value_minValue_le (hw : 0 < w) (uns : Bool) {r : ConstantRange w} {v : SInt w}
    (h : r.contains v = true) : value uns (r.minValue uns) ≤ value uns v := by
  have hleast := least_le_value uns v
  have hbu := least_le_value uns r.upper
  rw [contains_iff hw uns] at h
  cases uns
  · have hmin := SInt.value_false_sMinValue hw
    rw [least_false] at hleast hbu
    simp only [minValue, sMinValue, Bool.or_eq_true, isSignWrappedSet_iff hw, Bool.false_eq_true,
      if_false]
    split_ifs with hcase
    · omega
    · rw [not_or] at hcase
      rw [or_iff_right hcase.1] at h
      omega
  · have hmin := SInt.value_uMinValue w true
    rw [least_true] at hleast hbu
    simp only [minValue, uMinValue, Bool.or_eq_true, isWrappedSet_iff, if_true]
    split_ifs with hcase
    · omega
    · rw [not_or] at hcase
      rw [or_iff_right hcase.1] at h
      omega

theorem le_value_maxValue (hw : 1 < w) (uns : Bool) {r : ConstantRange w} {v : SInt w}
    (h : r.contains v = true) : value uns v ≤ value uns (r.maxValue uns) := by
  have hwpos : 0 < w := by omega
  have hgreatest := value_le_greatest uns v
  have hpred := value_sub_one_cases hw uns r.upper
  have hleast := least_le_value uns r.lower
  rw [contains_iff hwpos uns] at h
  cases uns
  · have hmax := SInt.value_false_sMaxValue hwpos
    rw [greatest_false] at hgreatest hpred
    simp only [maxValue, sMaxValue, Bool.or_eq_true, isUpperSignWrapped_iff, Bool.false_eq_true,
      if_false]
    split_ifs with hcase
    · omega
    · rw [not_or] at hcase
      rw [or_iff_right hcase.1] at h
      omega
  · have hmax := SInt.value_true_uMaxValue hwpos
    rw [greatest_true] at hgreatest hpred
    simp only [maxValue, uMaxValue, Bool.or_eq_true, isUpperWrapped_iff, if_true]
    split_ifs with hcase
    · omega
    · rw [not_or] at hcase
      rw [or_iff_right hcase.1] at h
      omega

end Cangjie.CHIR.ConstantRange
