import CangjieCompiler.CHIR.Analysis.ConstantRange.Arithmetic

/-!
# Division of ranges

Unsigned division is monotone and needs only the extreme elements.  Signed division is computed
quadrant by quadrant, and the quadrant of two negative operands has to leave out the one quotient
that is not representable, the smallest value divided by `-1`.  The way the source does that is
not sound for every pair of operands.  The two halves of this file say what the computed range
holds in every case and, where an element is missing, why it is not put back by a union.
-/

namespace Cangjie.CHIR.ConstantRange

open FixedWidth IntervalArithmetic

variable {w : ℕ}

/-! ## Intervals with a given last element -/

section Interval

variable {uns : Bool} {l u : SInt w}

/-- A range given by its first and last element is not degenerate unless it runs from the
smallest to the largest value. -/
theorem ne_add_one_of_le (hw : 1 < w) (hle : value uns l ≤ value uns u)
    (hproper : least w uns < value uns l ∨ value uns u < greatest w uns) : l ≠ u + 1 := by
  intro heq
  have hvalue : value uns l = value uns (u + 1) := by rw [heq]
  rcases value_add_one_cases hw uns u with ⟨-, hsucc⟩ | ⟨htop, hturn⟩
  · omega
  · omega

theorem contains_mk_iff (uns : Bool) {l u : SInt w} (hw : 1 < w) (hle : value uns l ≤ value uns u)
    (hproper : least w uns < value uns l ∨ value uns u < greatest w uns) (v : SInt w) :
    (⟨l, u + 1⟩ : ConstantRange w).contains v = true ↔
      value uns l ≤ value uns v ∧ value uns v ≤ value uns u := by
  have hne := ne_add_one_of_le hw hle hproper
  have hlow := least_le_value uns l
  have hunwrapped : (⟨l, u + 1⟩ : ConstantRange w).Unwrapped uns := by
    rcases value_add_one_cases hw uns u with ⟨-, hsucc⟩ | ⟨-, hturn⟩
    · left
      dsimp only
      omega
    · exact Or.inr (Or.inl hturn)
  rw [contains_iff_between hw hunwrapped hne]
  rw [show u + 1 - 1 = u from BitVec.add_sub_cancel u 1#w]

theorem valid_mk (hw : 1 < w) (hle : value uns l ≤ value uns u)
    (hproper : least w uns < value uns l ∨ value uns u < greatest w uns) :
    (⟨l, u + 1⟩ : ConstantRange w).Valid :=
  fun heq => absurd heq (ne_add_one_of_le hw hle hproper)

end Interval

/-! ## Unsigned division -/

theorem contains_uDiv (hw : 1 < w) {r rhs : ConstantRange w} {x y : SInt w}
    (hx : r.contains x = true) (hy : rhs.contains y = true) (hne : value true y ≠ 0) :
    (r.uDiv rhs).contains (SInt.uDiv x y) = true := by
  have hwpos : 0 < w := by omega
  have hempty := isEmptySet_eq_false_of_contains hwpos hx
  have hempty' := isEmptySet_eq_false_of_contains hwpos hy
  obtain ⟨hx₁, hx₂⟩ := unsigned_bounds hw hx
  obtain ⟨hy₁, hy₂⟩ := unsigned_bounds hw hy
  have hxpos := (SInt.value_true_bounds r.uMinValue).1
  have hypos := (SInt.value_true_bounds y).1
  have hmax : rhs.uMaxValue.isZero = false := by
    rw [← Bool.not_eq_true, SInt.isZero_iff, SInt.eq_iff_value_eq true, value_zero]
    omega
  rw [uDiv, hempty, hempty', hmax, Bool.or_self, Bool.or_self, if_neg Bool.false_ne_true]
  dsimp only
  generalize hmin : (if rhs.uMinValue.isZero then
    (if rhs.upper = 1 then rhs.lower else 1) else rhs.uMinValue) = rhsUMin
  have hdivisor : 0 < value true rhsUMin ∧ value true rhsUMin ≤ value true y := by
    have hone := value_one hw true
    rw [← hmin]
    split_ifs with hzero hupper
    · have hmem := contains_iff hwpos true rhs y
      have hlow := (SInt.value_true_bounds rhs.lower).1
      rw [isFullSet_iff hwpos, hupper] at hmem
      have hturn := two_pow_eq hwpos
      have hhalf : (2 : ℤ) ≤ 2 ^ (w - 1) := by
        calc (2 : ℤ) = 2 ^ 1 := by norm_num
          _ ≤ 2 ^ (w - 1) := pow_le_pow_right₀ (by norm_num) (by omega)
      rw [hone] at hmem
      have hcases := hmem.mp hy
      omega
    · omega
    · rw [SInt.isZero_iff, SInt.eq_iff_value_eq true, value_zero] at hzero
      have hnonneg := (SInt.value_true_bounds rhs.uMinValue).1
      omega
  refine contains_nonEmpty hw true ?_ ?_
  · rw [SInt.value_uDiv, SInt.value_uDiv]
    rw [← Int.tdiv_eq_ediv_of_nonneg hxpos, ← Int.tdiv_eq_ediv_of_nonneg (hxpos.trans hx₁)]
    exact tdiv_le_tdiv_pos_pos hxpos hx₁ (by omega) hy₂
  · rw [SInt.value_uDiv, SInt.value_uDiv]
    rw [← Int.tdiv_eq_ediv_of_nonneg (hxpos.trans hx₁),
      ← Int.tdiv_eq_ediv_of_nonneg ((hxpos.trans hx₁).trans hx₂)]
    exact tdiv_le_tdiv_pos_pos (hxpos.trans hx₁) hx₂ hdivisor.1 hdivisor.2

/-! ## The signed quadrants -/

section Filters

theorem value_last_posFilter (hw : 1 < w) :
    value false ((posFilter w).upper - 1) = 2 ^ (w - 1) - 1 := by
  have hmin := SInt.value_false_sMinValue (show 0 < w by omega)
  rcases value_sub_one_cases hw false (SInt.sMinValue w) with ⟨hlt, -⟩ | ⟨-, hturn⟩
  · rw [hmin, least_false] at hlt
    omega
  · rw [posFilter, hturn, greatest_false]

theorem two_le_half (hw : 1 < w) : (2 : ℤ) ≤ 2 ^ (w - 1) := by
  calc (2 : ℤ) = 2 ^ 1 := by norm_num
    _ ≤ 2 ^ (w - 1) := pow_le_pow_right₀ (by norm_num) (by omega)

theorem posFilter_bounds_ne (hw : 1 < w) : (posFilter w).lower ≠ (posFilter w).upper := by
  intro heq
  have hvalue := congrArg (value false) heq
  have hmin := SInt.value_false_sMinValue (show 0 < w by omega)
  have hhalf := two_le_half hw
  rw [posFilter] at hvalue
  dsimp only at hvalue
  rw [value_one hw, hmin] at hvalue
  omega

theorem posFilter_unwrapped (hw : 1 < w) : (posFilter w).Unwrapped false :=
  Or.inr (Or.inl (SInt.value_false_sMinValue (by omega)))

theorem contains_posFilter_iff (hw : 1 < w) (v : SInt w) :
    (posFilter w).contains v = true ↔ 1 ≤ value false v := by
  have hv := SInt.value_false_bounds v
  rw [contains_iff_between hw (posFilter_unwrapped hw) (posFilter_bounds_ne hw),
    value_last_posFilter hw]
  dsimp only [posFilter]
  rw [value_one hw]
  omega

theorem value_last_negFilter (hw : 1 < w) : value false ((negFilter w).upper - 1) = -1 := by
  have hzero := value_zero (w := w) false
  have hhalf := two_le_half hw
  rcases value_sub_one_cases hw false (0#w) with ⟨-, hpred⟩ | ⟨heq, -⟩
  · change value false (0#w - 1) = -1
    omega
  · rw [hzero, least_false] at heq
    omega

theorem negFilter_unwrapped (hw : 1 < w) : (negFilter w).Unwrapped false := by
  have hmin := SInt.value_false_sMinValue (show 0 < w by omega)
  have hzero := value_zero (w := w) false
  have hhalf := two_le_half hw
  left
  change value false (SInt.sMinValue w) < value false (0#w)
  omega

theorem negFilter_bounds_ne (hw : 1 < w) : (negFilter w).lower ≠ (negFilter w).upper := by
  intro heq
  have hvalue := congrArg (value false) heq
  have hmin := SInt.value_false_sMinValue (show 0 < w by omega)
  have hzero := value_zero (w := w) false
  have hhalf := two_le_half hw
  change value false (SInt.sMinValue w) = value false (0#w) at hvalue
  omega

theorem contains_negFilter_iff (hw : 1 < w) (v : SInt w) :
    (negFilter w).contains v = true ↔ value false v ≤ -1 := by
  have hv := SInt.value_false_bounds v
  have hmin := SInt.value_false_sMinValue (show 0 < w by omega)
  rw [contains_iff_between hw (negFilter_unwrapped hw) (negFilter_bounds_ne hw),
    value_last_negFilter hw]
  dsimp only [negFilter]
  omega

/-- The positive part of a range. -/
theorem posPart_cases (hw : 1 < w) {r : ConstantRange w} (hr : r.Valid) :
    (r.intersectWith (posFilter w)).isEmptySet = true ∧
        (∀ v, r.contains v = true → value false v ≤ 0) ∨
      (r.intersectWith (posFilter w)).isEmptySet = false ∧
        PartOf false r (posFilter w) (r.intersectWith (posFilter w)) := by
  have hspan : value false ((posFilter w).upper - 1) - value false (posFilter w).lower <
      2 ^ (w - 1) := by
    rw [value_last_posFilter hw]
    dsimp only [posFilter]
    rw [value_one hw]
    omega
  rcases partOf_intersectWith hw hr (posFilter_unwrapped hw) (posFilter_bounds_ne hw) hspan with
    ⟨hempty, hnone⟩ | hpart
  · left
    refine ⟨hempty, fun v hv => ?_⟩
    have hnot := hnone v hv
    rw [contains_posFilter_iff hw] at hnot
    omega
  · exact Or.inr hpart

/-- The negative part of a range. -/
theorem negPart_cases (hw : 1 < w) {r : ConstantRange w} (hr : r.Valid) :
    (r.intersectWith (negFilter w)).isEmptySet = true ∧
        (∀ v, r.contains v = true → 0 ≤ value false v) ∨
      (r.intersectWith (negFilter w)).isEmptySet = false ∧
        PartOf false r (negFilter w) (r.intersectWith (negFilter w)) := by
  have hspan : value false ((negFilter w).upper - 1) - value false (negFilter w).lower <
      2 ^ (w - 1) := by
    have hmin := SInt.value_false_sMinValue (show 0 < w by omega)
    rw [value_last_negFilter hw]
    dsimp only [negFilter]
    omega
  rcases partOf_intersectWith hw hr (negFilter_unwrapped hw) (negFilter_bounds_ne hw) hspan with
    ⟨hempty, hnone⟩ | hpart
  · left
    refine ⟨hempty, fun v hv => ?_⟩
    have hnot := hnone v hv
    rw [contains_negFilter_iff hw] at hnot
    omega
  · exact Or.inr hpart

end Filters

section Quadrants

variable {r rhs : ConstantRange w} {div : SInt w → SInt w → SInt w}

/-- A division that truncates, except for the one quotient that overflows. -/
def Truncates (div : SInt w → SInt w → SInt w) : Prop :=
  ∀ a b, ¬(value false a = -2 ^ (w - 1) ∧ value false b = -1) →
    value false (div a b) = (value false a).tdiv (value false b)

theorem truncates_sDiv (hw : 0 < w) : Truncates (w := w) SInt.sDiv := fun _ _ h =>
  SInt.value_sDiv hw h

theorem truncates_sDivSat (hw : 1 < w) : Truncates (w := w) SInt.sDivSat := by
  intro a b h
  rw [SInt.value_sDivSat hw, clamp_eq_self
    (SInt.tdiv_representable (value_representable false a) h)]

/-- The range holds exactly the values between two integers. -/
def Spans (q : ConstantRange w) (lo hi : ℤ) : Prop :=
  q.Valid ∧ ∀ v, q.contains v = true ↔ lo ≤ value false v ∧ value false v ≤ hi

theorem spans_mk (hw : 1 < w) {l u : SInt w} {lo hi : ℤ} (hl : value false l = lo)
    (hu : value false u = hi) (hle : lo ≤ hi)
    (hproper : -2 ^ (w - 1) < lo ∨ hi < 2 ^ (w - 1) - 1) : Spans ⟨l, u + 1⟩ lo hi := by
  subst hl hu
  exact ⟨valid_mk hw hle hproper, contains_mk_iff false hw hle hproper⟩

theorem spans_posDivPosRes (hw : 1 < w) (hdiv : Truncates div) {posL posR : ConstantRange w}
    (hL : posL.isEmptySet = false) (hR : posR.isEmptySet = false)
    (hpL : PartOf false r (posFilter w) posL) (hpR : PartOf false rhs (posFilter w) posR) :
    Spans (posDivPosRes posL posR div)
      ((value false posL.lower).tdiv (value false (posR.upper - 1)))
      ((value false (posL.upper - 1)).tdiv (value false posR.lower)) := by
  have ha := (contains_posFilter_iff hw _).mp hpL.lower_mem.2
  have hb := (contains_posFilter_iff hw _).mp hpR.lower_mem.2
  have hhalf := two_le_half hw
  have haOrder := hpL.lower_le_last
  have hbOrder := hpR.lower_le_last
  rw [posDivPosRes, hL, hR, Bool.not_false, Bool.and_self, if_pos rfl]
  refine spans_mk hw (hdiv _ _ (by omega)) (hdiv _ _ (by omega))
    (tdiv_le_tdiv_pos_pos (by omega) haOrder (by omega) hbOrder) (Or.inl ?_)
  have hnonneg := Int.tdiv_nonneg (a := value false posL.lower)
    (b := value false (posR.upper - 1)) (by omega) (by omega)
  omega

theorem spans_posDivNegRes (hw : 1 < w) (hdiv : Truncates div) {posL negR : ConstantRange w}
    (hL : posL.isEmptySet = false) (hR : negR.isEmptySet = false)
    (hpL : PartOf false r (posFilter w) posL) (hpR : PartOf false rhs (negFilter w) negR) :
    Spans (posDivNegRes posL negR div)
      ((value false (posL.upper - 1)).tdiv (value false (negR.upper - 1)))
      ((value false posL.lower).tdiv (value false negR.lower)) := by
  have ha := (contains_posFilter_iff hw _).mp hpL.lower_mem.2
  have hb := (contains_negFilter_iff hw _).mp hpR.last_mem.2
  have hhalf := two_le_half hw
  have haOrder := hpL.lower_le_last
  have hbOrder := hpR.lower_le_last
  rw [posDivNegRes, hL, hR, Bool.not_false, Bool.and_self, if_pos rfl]
  refine spans_mk hw (hdiv _ _ (by omega)) (hdiv _ _ (by omega))
    (tdiv_le_tdiv_pos_neg (by omega) haOrder (by omega) hbOrder) (Or.inr ?_)
  have hnonpos := Int.tdiv_nonpos_of_nonneg_of_nonpos (a := value false posL.lower)
    (b := value false negR.lower) (by omega) (by omega)
  omega

theorem spans_negDivPosRes (hw : 1 < w) (hdiv : Truncates div) {negL posR : ConstantRange w}
    (hL : negL.isEmptySet = false) (hR : posR.isEmptySet = false)
    (hpL : PartOf false r (negFilter w) negL) (hpR : PartOf false rhs (posFilter w) posR) :
    Spans (negDivPosRes negL posR div)
      ((value false negL.lower).tdiv (value false posR.lower))
      ((value false (negL.upper - 1)).tdiv (value false (posR.upper - 1))) := by
  have ha := (contains_negFilter_iff hw _).mp hpL.last_mem.2
  have hb := (contains_posFilter_iff hw _).mp hpR.lower_mem.2
  have hhalf := two_le_half hw
  have haOrder := hpL.lower_le_last
  have hbOrder := hpR.lower_le_last
  rw [negDivPosRes, hL, hR, Bool.not_false, Bool.and_self, if_pos rfl]
  refine spans_mk hw (hdiv _ _ (by omega)) (hdiv _ _ (by omega))
    (tdiv_le_tdiv_neg_pos (by omega) haOrder (by omega) hbOrder) (Or.inr ?_)
  have hnonneg := Int.tdiv_nonneg (a := -value false (negL.upper - 1))
    (b := value false (posR.upper - 1)) (by omega) (by omega)
  rw [Int.neg_tdiv] at hnonneg
  omega

/-! ### Negative by negative -/

/-- The last element the source takes for the quotients of two negative ranges.  Only the first
case is free of the overflowing quotient; in the others the smallest value or the divisor `-1`
is dropped to find the largest remaining quotient. -/
inductive NegNegLast (r rhs negL negR : ConstantRange w) (div : SInt w → SInt w → SInt w)
    (u : SInt w) : Prop
  | regular
      (noEdge : ¬(value false negL.lower = -2 ^ (w - 1) ∧ value false (negR.upper - 1) = -1))
      (value_eq : value false u =
        (value false negL.lower).tdiv (value false (negR.upper - 1)))
  | onlyEdge (minL : value false (negL.upper - 1) = -2 ^ (w - 1))
      (lastR : value false (negR.upper - 1) = -1) (onlyR : value false negR.lower = -1)
      (eq : u = div negL.lower (negR.upper - 1))
  | dropDivisor (minL : value false (negL.upper - 1) = -2 ^ (w - 1))
      (lastR : value false (negR.upper - 1) = -1) (moreR : value false negR.lower ≤ -2)
      (value_eq : value false u = (-2 ^ (w - 1) : ℤ).tdiv (-2))
  | dropDivisorWrapped (minL : value false (negL.upper - 1) = -2 ^ (w - 1))
      (lastR : value false (negR.upper - 1) = -1) (moreR : value false negR.lower ≤ -2)
      (upper_le : value false (rhs.upper - 1) ≤ -2)
      (rest : ∀ y, rhs.contains y = true → value false y ≤ -1 →
        value false y = -1 ∨ value false y ≤ value false (rhs.upper - 1))
      (value_eq : value false u = (-2 ^ (w - 1) : ℤ).tdiv (value false (rhs.upper - 1)))
  | dropDividend (minL : value false negL.lower = -2 ^ (w - 1))
      (lastR : value false (negR.upper - 1) = -1)
      (moreL : value false (negL.upper - 1) ≠ -2 ^ (w - 1))
      (upper_ne : r.upper ≠ SInt.sMinValue w + 1)
      (value_eq : value false u = 2 ^ (w - 1) - 1)
  | dropDividendWrapped (minL : value false negL.lower = -2 ^ (w - 1))
      (lastR : value false (negR.upper - 1) = -1)
      (upper_eq : r.upper = SInt.sMinValue w + 1)
      (lower_gt : -2 ^ (w - 1) + 1 < value false r.lower) (lower_neg : value false r.lower ≤ -1)
      (lower_le : value false r.lower ≤ value false (negL.upper - 1))
      (rest : ∀ v, r.contains v = true →
        value false v = -2 ^ (w - 1) ∨ value false r.lower ≤ value false v)
      (value_eq : value false u = -value false r.lower)

/-- A range that ends right after the smallest value and holds another negative value holds
everything from its lower bound on. -/
theorem wrapped_at_min (hw : 2 < w) (hupper : r.upper = SInt.sMinValue w + 1) {v : SInt w}
    (hv : r.contains v = true) (hne : value false v ≠ -2 ^ (w - 1)) :
    value false r.upper < value false r.lower ∧ value false r.lower ≤ value false v ∧
      ∀ u, r.contains u = true ↔
        value false u = -2 ^ (w - 1) ∨ value false r.lower ≤ value false u := by
  have hwpos : 0 < w := by omega
  have hmin := SInt.value_false_sMinValue hwpos
  have hmin' := SInt.value_true_sMinValue hwpos
  have hturn := two_pow_eq hwpos
  have hbound := SInt.value_false_bounds v
  have hlow := SInt.value_false_bounds r.lower
  have hquarter : (4 : ℤ) ≤ 2 ^ (w - 1) := by
    calc (4 : ℤ) = 2 ^ 2 := by norm_num
      _ ≤ 2 ^ (w - 1) := pow_le_pow_right₀ (by norm_num) (by omega)
  have hsucc : value false r.upper = -2 ^ (w - 1) + 1 := by
    rw [hupper, value_add_one (by omega), hmin]
    rw [hmin, greatest_false]
    omega
  have hsucc' : value true r.upper = 2 ^ (w - 1) + 1 := by
    rw [hupper, value_add_one (by omega), hmin']
    rw [hmin', greatest_true]
    omega
  have hmem := contains_iff hwpos false r
  simp only [isFullSet_iff hwpos] at hmem
  have hcases := (hmem v).mp hv
  have hwraps : value false r.upper < value false r.lower := by omega
  refine ⟨hwraps, by omega, fun u => ?_⟩
  have hu := SInt.value_false_bounds u
  rw [contains_iff_of_gt hwpos _ hwraps]
  omega

theorem negNegLast_cases (hw : 2 < w) (hdiv : Truncates div)
    {negL negR : ConstantRange w}
    (hpL : PartOf false r (negFilter w) negL) (hpR : PartOf false rhs (negFilter w) negR) :
    ∃ u, sDivNegNegUpper r rhs negL negR div = u + 1 ∧ NegNegLast r rhs negL negR div u := by
  have hw1 : 1 < w := by omega
  have hwpos : 0 < w := by omega
  have hmin := SInt.value_false_sMinValue hwpos
  have hquarter : (4 : ℤ) ≤ 2 ^ (w - 1) := by
    calc (4 : ℤ) = 2 ^ 2 := by norm_num
      _ ≤ 2 ^ (w - 1) := pow_le_pow_right₀ (by norm_num) (by omega)
  have hnegL := (contains_negFilter_iff hw1 _).mp hpL.last_mem.2
  have hnegR := (contains_negFilter_iff hw1 _).mp hpR.last_mem.2
  have horderL := hpL.lower_le_last
  have horderR := hpR.lower_le_last
  have hboundL := SInt.value_false_bounds negL.lower
  have hboundR := SInt.value_false_bounds negR.lower
  have hedge : (negL.lower.isSMinValue && negR.upper.isZero) = true ↔
      value false negL.lower = -2 ^ (w - 1) ∧ value false (negR.upper - 1) = -1 := by
    have hpred := value_sub_one_cases hw1 false negR.upper
    rw [Bool.and_eq_true, SInt.isSMinValue_iff, SInt.isZero_iff, SInt.eq_iff_value_eq false, hmin,
      SInt.eq_iff_value_eq false, value_zero]
    rw [least_false, greatest_false] at hpred
    omega
  rw [sDivNegNegUpper]
  dsimp only
  by_cases hcase : value false negL.lower = -2 ^ (w - 1) ∧ value false (negR.upper - 1) = -1
  swap
  · rw [if_neg (by rw [hedge]; exact hcase)]
    exact ⟨_, rfl, .regular hcase (hdiv _ _ hcase)⟩
  rw [if_pos (hedge.mpr hcase)]
  obtain ⟨hminL, hlastR⟩ := hcase
  by_cases hmoreL : negL.upper ≠ SInt.sMinValue w + 1
  · rw [if_pos hmoreL]
    have hmoreL' : value false (negL.upper - 1) ≠ -2 ^ (w - 1) := by
      intro heq
      apply hmoreL
      have hword : negL.upper - 1 = SInt.sMinValue w := value_injective false (by rw [heq, hmin])
      rw [← hword, sub_add_cancel]
    refine ⟨_, rfl, ?_⟩
    by_cases hupper : r.upper = SInt.sMinValue w + 1
    · rw [if_pos hupper]
      obtain ⟨hwraps, hle, hmem⟩ := wrapped_at_min hw hupper hpL.last_mem.1 hmoreL'
      have hsucc : value false r.upper = -2 ^ (w - 1) + 1 := by
        rw [hupper, value_add_one hw1, hmin]
        rw [hmin, greatest_false]
        omega
      refine .dropDividendWrapped hminL hlastR hupper (by omega) (by omega) hle
        (fun v hv => (hmem v).mp hv) ?_
      rw [hdiv _ _ (by omega), hlastR, Int.tdiv_neg, Int.tdiv_one]
    · rw [if_neg hupper]
      refine .dropDividend hminL hlastR hmoreL' hupper ?_
      have hsucc : value false (negL.lower + 1) = -2 ^ (w - 1) + 1 := by
        rw [value_add_one hw1, hminL]
        rw [hminL, greatest_false]
        omega
      rw [hdiv _ _ (by omega), hlastR, hsucc, Int.tdiv_neg, Int.tdiv_one]
      omega
  · rw [if_neg hmoreL]
    rw [not_not] at hmoreL
    have hminL' : value false (negL.upper - 1) = -2 ^ (w - 1) := by
      rw [hmoreL, add_sub_cancel_right, hmin]
    by_cases hmoreR : negR.lower.isAllOnes = true
    · rw [hmoreR]
      refine ⟨_, rfl, .onlyEdge hminL' hlastR ?_ rfl⟩
      rw [SInt.isAllOnes_iff] at hmoreR
      rw [hmoreR, show SInt.allOnes w = SInt.uMaxValue w from rfl,
        SInt.value_false_uMaxValue hwpos]
    · have hmoreR' : value false negR.lower ≤ -2 := by
        rw [SInt.isAllOnes_iff, SInt.eq_iff_value_eq false,
          show SInt.allOnes w = SInt.uMaxValue w from rfl,
          SInt.value_false_uMaxValue hwpos] at hmoreR
        omega
      rw [Bool.not_eq_true] at hmoreR
      rw [hmoreR]
      by_cases hstart : rhs.lower.isAllOnes = true
      · -- the divisors start with `-1` and come back to the negative values at their end
        rw [hstart]
        rw [SInt.isAllOnes_iff, SInt.eq_iff_value_eq false,
          show SInt.allOnes w = SInt.uMaxValue w from rfl,
          SInt.value_false_uMaxValue hwpos] at hstart
        have hmem := contains_iff hwpos false rhs
        simp only [isFullSet_iff_signed hwpos, hstart] at hmem
        have hin := (hmem _).mp hpR.lower_mem.1
        have hpred : value false (rhs.upper - 1) = value false rhs.upper - 1 :=
          value_sub_one hw1 (by rw [least_false]; omega)
        refine ⟨_, rfl, .dropDivisorWrapped hminL' hlastR hmoreR' (by omega) ?_ ?_⟩
        · intro y hy hneg
          have hy' := (hmem y).mp hy
          omega
        · simp only [if_true]
          rw [hdiv _ _ (by omega), hminL]
      · rw [Bool.not_eq_true] at hstart
        rw [hstart]
        refine ⟨_, rfl, .dropDivisor hminL' hlastR hmoreR' ?_⟩
        have hpred : value false (negR.upper - 1 - 1) = -2 := by
          rw [value_sub_one hw1, hlastR]
          · norm_num
          · rw [hlastR, least_false]
            omega
        simp only [Bool.false_eq_true, if_false]
        rw [hdiv _ _ (by omega), hminL, hpred]

/-- The range of the quotients of two negative parts: from the quotient of the smallest magnitudes
to the last element found by the source. -/
theorem spans_negDivNegRes (hw : 2 < w) (hdiv : Truncates div)
    {negL negR : ConstantRange w}
    (hL : negL.isEmptySet = false) (hR : negR.isEmptySet = false)
    (hpL : PartOf false r (negFilter w) negL) (hpR : PartOf false rhs (negFilter w) negR) :
    ∃ u, NegNegLast r rhs negL negR div u ∧
      Spans (negDivNegRes r rhs negL negR div)
        (value false (div (negL.upper - 1) negR.lower)) (value false u) ∧
      value false (div (negL.upper - 1) negR.lower) ≤ value false u := by
  have hw1 : 1 < w := by omega
  have hquarter : (4 : ℤ) ≤ 2 ^ (w - 1) := by
    calc (4 : ℤ) = 2 ^ 2 := by norm_num
      _ ≤ 2 ^ (w - 1) := pow_le_pow_right₀ (by norm_num) (by omega)
  obtain ⟨u, hupper, hlast⟩ := negNegLast_cases hw hdiv hpL hpR
  have hnegL := (contains_negFilter_iff hw1 _).mp hpL.last_mem.2
  have hnegR := (contains_negFilter_iff hw1 _).mp hpR.last_mem.2
  have horderL := hpL.lower_le_last
  have horderR := hpR.lower_le_last
  have hboundL := SInt.value_false_bounds negL.lower
  have hboundR := SInt.value_false_bounds r.lower
  have hfirst : ¬(value false (negL.upper - 1) = -2 ^ (w - 1) ∧ value false negR.lower = -1) →
      0 ≤ value false (div (negL.upper - 1) negR.lower) ∧
        value false (div (negL.upper - 1) negR.lower) =
          (value false (negL.upper - 1)).tdiv (value false negR.lower) := by
    intro hne
    rw [hdiv _ _ hne]
    exact ⟨Int.tdiv_nonneg_of_nonpos_of_nonpos (by omega) (by omega), rfl⟩
  have hle : value false (div (negL.upper - 1) negR.lower) ≤ value false u ∧
      (-2 ^ (w - 1) < value false (div (negL.upper - 1) negR.lower) ∨
        value false u < 2 ^ (w - 1) - 1) := by
    cases hlast with
    | regular noEdge value_eq =>
      obtain ⟨hnonneg, heq⟩ := hfirst (by omega)
      refine ⟨?_, Or.inl (by omega)⟩
      rw [heq, value_eq]
      exact tdiv_le_tdiv_neg_neg (by omega) horderL (by omega) horderR
    | onlyEdge minL lastR onlyR eq =>
      have hwordL : negL.upper - 1 = negL.lower := value_injective false (by omega)
      have hwordR : negR.upper - 1 = negR.lower := value_injective false (by omega)
      have hsame : div (negL.upper - 1) negR.lower = u := by rw [eq, hwordL, hwordR]
      rw [hsame]
      omega
    | dropDivisor minL lastR moreR value_eq =>
      obtain ⟨hnonneg, heq⟩ := hfirst (by omega)
      refine ⟨?_, Or.inl (by omega)⟩
      rw [heq, value_eq, minL]
      exact tdiv_le_tdiv_neg_neg (by omega) le_rfl (by omega) moreR
    | dropDivisorWrapped minL lastR moreR upper_le rest value_eq =>
      obtain ⟨hnonneg, heq⟩ := hfirst (by omega)
      refine ⟨?_, Or.inl (by omega)⟩
      rw [heq, value_eq, minL]
      have hbelow := rest _ hpR.lower_mem.1 (by omega)
      exact tdiv_le_tdiv_neg_neg (by omega) le_rfl (by omega) (by omega)
    | dropDividend minL lastR moreL upper_ne value_eq =>
      obtain ⟨hnonneg, -⟩ := hfirst (by omega)
      have hbound := SInt.value_false_bounds (div (negL.upper - 1) negR.lower)
      omega
    | dropDividendWrapped minL lastR upper_eq lower_gt lower_neg lower_le rest value_eq =>
      obtain ⟨hnonneg, heq⟩ := hfirst (by omega)
      refine ⟨?_, Or.inl (by omega)⟩
      have habs := abs_tdiv_le (value false (negL.upper - 1)) (value false negR.lower)
      rw [abs_of_nonpos (by omega : value false (negL.upper - 1) ≤ 0), ← heq,
        abs_of_nonneg hnonneg] at habs
      omega
  refine ⟨u, hlast, ?_, hle.1⟩
  rw [negDivNegRes, hL, hR, Bool.not_false, Bool.and_self, if_pos rfl, hupper]
  exact spans_mk hw1 rfl rfl hle.1 hle.2

/-! ### The quotients that are found -/

/-- The quadrants are legal ranges. -/
theorem valid_quadrants (hw : 2 < w) (hdiv : Truncates div) (hr : r.Valid) (hrhs : rhs.Valid) :
    ((posDivPosRes (r.intersectWith (posFilter w)) (rhs.intersectWith (posFilter w)) div).Valid ∧
      (negDivNegRes r rhs (r.intersectWith (negFilter w)) (rhs.intersectWith (negFilter w))
        div).Valid) ∧
    ((posDivNegRes (r.intersectWith (posFilter w)) (rhs.intersectWith (negFilter w)) div).Valid ∧
      (negDivPosRes (r.intersectWith (negFilter w)) (rhs.intersectWith (posFilter w))
        div).Valid) := by
  have hw1 : 1 < w := by omega
  have hempty := valid_empty w
  refine ⟨⟨?_, ?_⟩, ?_, ?_⟩
  · rcases posPart_cases hw1 hr with ⟨hL, -⟩ | ⟨hL, hpL⟩
    · rwa [posDivPosRes, hL]
    rcases posPart_cases hw1 hrhs with ⟨hR, -⟩ | ⟨hR, hpR⟩
    · rwa [posDivPosRes, hR, Bool.not_true, Bool.and_false, if_neg Bool.false_ne_true]
    exact (spans_posDivPosRes hw1 hdiv hL hR hpL hpR).1
  · rcases negPart_cases hw1 hr with ⟨hL, -⟩ | ⟨hL, hpL⟩
    · rwa [negDivNegRes, hL]
    rcases negPart_cases hw1 hrhs with ⟨hR, -⟩ | ⟨hR, hpR⟩
    · rwa [negDivNegRes, hR, Bool.not_true, Bool.and_false, if_neg Bool.false_ne_true]
    obtain ⟨u, -, hspans, -⟩ := spans_negDivNegRes hw hdiv hL hR hpL hpR
    exact hspans.1
  · rcases posPart_cases hw1 hr with ⟨hL, -⟩ | ⟨hL, hpL⟩
    · rwa [posDivNegRes, hL]
    rcases negPart_cases hw1 hrhs with ⟨hR, -⟩ | ⟨hR, hpR⟩
    · rwa [posDivNegRes, hR, Bool.not_true, Bool.and_false, if_neg Bool.false_ne_true]
    exact (spans_posDivNegRes hw1 hdiv hL hR hpL hpR).1
  · rcases negPart_cases hw1 hr with ⟨hL, -⟩ | ⟨hL, hpL⟩
    · rwa [negDivPosRes, hL]
    rcases posPart_cases hw1 hrhs with ⟨hR, -⟩ | ⟨hR, hpR⟩
    · rwa [negDivPosRes, hR, Bool.not_true, Bool.and_false, if_neg Bool.false_ne_true]
    exact (spans_negDivPosRes hw1 hdiv hL hR hpL hpR).1

theorem valid_sDivQuadrants (hw : 2 < w) (hdiv : Truncates div) (hr : r.Valid)
    (hrhs : rhs.Valid) :
    (sDivQuadrants r rhs div).Valid := by
  have hw1 : 1 < w := by omega
  obtain ⟨⟨hpp, hnn⟩, hpn, hnp⟩ := valid_quadrants hw hdiv hr hrhs
  exact valid_unionWith hw1 .signed (valid_unionWith hw1 .smallest hpn hnp)
    (valid_unionWith hw1 .smallest hpp hnn)

/-- What a quadrant holds is not lost by the unions. -/
theorem contains_sDivQuadrants (hw : 2 < w) (hdiv : Truncates div) (hr : r.Valid)
    (hrhs : rhs.Valid) {v : SInt w}
    (hv : ((posDivPosRes (r.intersectWith (posFilter w)) (rhs.intersectWith (posFilter w))
        div).contains v = true ∨
      (negDivNegRes r rhs (r.intersectWith (negFilter w)) (rhs.intersectWith (negFilter w))
        div).contains v = true) ∨
      ((posDivNegRes (r.intersectWith (posFilter w)) (rhs.intersectWith (negFilter w))
        div).contains v = true ∨
      (negDivPosRes (r.intersectWith (negFilter w)) (rhs.intersectWith (posFilter w))
        div).contains v = true)) :
    (sDivQuadrants r rhs div).contains v = true := by
  have hw1 : 1 < w := by omega
  obtain ⟨⟨hpp, hnn⟩, hpn, hnp⟩ := valid_quadrants hw hdiv hr hrhs
  have hpos := valid_unionWith hw1 .smallest hpp hnn
  have hneg := valid_unionWith hw1 .smallest hpn hnp
  refine contains_unionWith hw1 hneg hpos .signed ?_
  rcases hv with hv | hv
  · exact Or.inr (contains_unionWith hw1 hpp hnn .smallest hv)
  · exact Or.inl (contains_unionWith hw1 hpn hnp .smallest hv)

theorem contains_sDivImpl_of_quadrants (hw : 2 < w) (hdiv : Truncates div) (hr : r.Valid)
    (hrhs : rhs.Valid) {v : SInt w}
    (hv : (sDivQuadrants r rhs div).contains v = true) :
    (sDivImpl r rhs div).contains v = true := by
  have hw1 : 1 < w := by omega
  rw [sDivImpl]
  split_ifs
  · exact contains_unionWith hw1 (valid_sDivQuadrants hw hdiv hr hrhs)
      (valid_of_contains (contains_single hw1 _)) .smallest (Or.inl hv)
  · exact hv

/-- The dividends for which the largest quotients can be lost: they end with the smallest value
and start with a negative one of less than half its magnitude, and the divisors end with `-1`. -/
def LosesQuotients (r rhs : ConstantRange w) : Prop :=
  r.upper = SInt.sMinValue w + 1 ∧ -2 ^ (w - 2) < value false r.lower ∧
    value false r.lower < 0 ∧ rhs.upper = SInt.zero w ∧ value false rhs.lower ≠ -1 ∧
      value false rhs.lower ≠ 0 ∧ value false rhs.lower ≠ 1

/-- The dividends for which the largest quotients can be lost, with divisors that hold `-1` and
`-2` but not `1`. -/
def LosesLargeQuotients (r rhs : ConstantRange w) : Prop :=
  r.upper = SInt.sMinValue w + 1 ∧ -2 ^ (w - 2) < value false r.lower ∧
    value false r.lower < 0 ∧ rhs.contains (BitVec.ofInt w (-1)) = true ∧
      rhs.contains (BitVec.ofInt w (-2)) = true ∧ ¬rhs.contains 1 = true

theorem value_neg_one_two (hw : 2 < w) :
    value false (BitVec.ofInt w (-1)) = -1 ∧ value false (BitVec.ofInt w (-2)) = -2 := by
  have hhalf := two_le_half (w := w) (by omega)
  exact ⟨value_ofInt (by omega) ⟨by rw [least_false]; omega, by rw [greatest_false]; omega⟩,
    value_ofInt (by omega) ⟨by rw [least_false]; omega, by rw [greatest_false]; omega⟩⟩

theorem half_eq (hw : 1 < w) : (2 : ℤ) ^ (w - 1) = 2 * 2 ^ (w - 2) := by
  have h := two_pow_eq (w := w - 1) (by omega)
  rwa [Nat.sub_sub] at h

/-- A range without zero takes zero for its upper bound if it holds `-1`. -/
theorem upper_eq_zero (hw : 1 < w) (hzero : ¬rhs.contains (SInt.zero w) = true) {y : SInt w}
    (hy : rhs.contains y = true) (hval : value false y = -1) : rhs.upper = SInt.zero w := by
  have hwpos : 0 < w := by omega
  have hz : value false (SInt.zero w) = 0 := value_zero false
  have hmem := contains_iff hwpos false rhs y
  have hmemZero := contains_iff hwpos false rhs (SInt.zero w)
  rw [hz] at hmemZero
  apply value_injective false
  rw [hz]
  rcases hmem.mp hy with hfull | hin
  · exact absurd (contains_of_isFullSet hfull _) hzero
  · have hout := hzero
    rw [hmemZero, not_or] at hout
    omega

/-- The quotients of positive values cover everything up to the largest positive dividend when the
divisors start with `1`. -/
theorem contains_posDivPosRes_of_one (hw : 2 < w) (hdiv : Truncates div) (hr : r.Valid)
    (hrhs : rhs.Valid) {x v : SInt w} (hone : rhs.contains 1 = true) (hx : r.contains 1 = true)
    (hxv : r.contains x = true) (hv : 1 ≤ value false v) (hvx : value false v ≤ value false x) :
    (posDivPosRes (r.intersectWith (posFilter w)) (rhs.intersectWith (posFilter w)) div).contains
      v = true := by
  have hw1 : 1 < w := by omega
  have hval := value_one hw1 false
  rcases posPart_cases hw1 hr with ⟨-, hnone⟩ | ⟨hL, hpL⟩
  · have := hnone 1 hx
    omega
  rcases posPart_cases hw1 hrhs with ⟨-, hnone⟩ | ⟨hR, hpR⟩
  · have := hnone 1 hone
    omega
  have hmemOne := (contains_posFilter_iff hw1 (1 : SInt w)).mpr hval.ge
  have hbL := hpL.between 1 hx hmemOne
  have hbR := hpR.between 1 hone hmemOne
  have hbx := hpL.between x hxv ((contains_posFilter_iff hw1 x).mpr (hv.trans hvx))
  have hposL := (contains_posFilter_iff hw1 _).mp hpL.lower_mem.2
  have hposR := (contains_posFilter_iff hw1 _).mp hpR.lower_mem.2
  have hfirst : value false (r.intersectWith (posFilter w)).lower = 1 := by omega
  have hfirstR : value false (rhs.intersectWith (posFilter w)).lower = 1 := by omega
  rw [(spans_posDivPosRes hw1 hdiv hL hR hpL hpR).2 v, hfirst, hfirstR, Int.tdiv_one]
  refine ⟨?_, hvx.trans hbx.2⟩
  exact (Int.tdiv_le_self _ zero_le_one).trans hv

theorem contains_neg_div_neg (hw : 2 < w) (hdiv : Truncates div) (hr : r.Valid)
    (hrhs : rhs.Valid) {x y : SInt w}
    (hx : r.contains x = true) (hy : rhs.contains y = true) (hxneg : value false x ≤ -1)
    (hyneg : value false y ≤ -1)
    (hedge : ¬(value false x = -2 ^ (w - 1) ∧ value false y = -1))
    (hkeep : ¬LosesLargeQuotients r rhs) :
    (sDivQuadrants r rhs div).contains (div x y) = true := by
  have hw1 : 1 < w := by omega
  have hwpos : 0 < w := by omega
  have hhalf := half_eq hw1
  rcases negPart_cases hw1 hr with ⟨-, hnone⟩ | ⟨hL, hpL⟩
  · have := hnone x hx
    omega
  rcases negPart_cases hw1 hrhs with ⟨-, hnone⟩ | ⟨hR, hpR⟩
  · have := hnone y hy
    omega
  obtain ⟨u, hlast, hspans, -⟩ := spans_negDivNegRes hw hdiv hL hR hpL hpR
  have hbx := hpL.between x hx ((contains_negFilter_iff hw1 _).mpr hxneg)
  have hby := hpR.between y hy ((contains_negFilter_iff hw1 _).mpr hyneg)
  have hval := hdiv x y hedge
  have hbound := SInt.value_false_bounds (div x y)
  have hxbound := SInt.value_false_bounds x
  have hybound := SInt.value_false_bounds y
  have hnegL := (contains_negFilter_iff hw1 _).mp hpL.last_mem.2
  have hnegR := (contains_negFilter_iff hw1 _).mp hpR.last_mem.2
  -- the smallest quotient is never dropped
  have hfirst : value false (div ((r.intersectWith (negFilter w)).upper - 1)
      (rhs.intersectWith (negFilter w)).lower) ≤ value false (div x y) := by
    rw [hdiv _ _ (by omega), hval]
    exact tdiv_le_tdiv_neg_neg (by omega) hbx.2 (by omega) hby.1
  by_cases hupper : value false (div x y) ≤ value false u
  · exact contains_sDivQuadrants hw hdiv hr hrhs
      (Or.inl (Or.inr ((hspans.2 _).mpr ⟨hfirst, hupper⟩)))
  cases hlast with
  | regular noEdge value_eq =>
    refine absurd ?_ hupper
    rw [hval, value_eq]
    exact tdiv_le_tdiv_neg_neg (by omega) hbx.1 (by omega) hby.2
  | onlyEdge minL lastR onlyR eq => omega
  | dropDivisor minL lastR moreR value_eq =>
    refine absurd ?_ hupper
    rw [hval, value_eq]
    exact tdiv_le_tdiv_neg_neg (by omega) (by omega) (by omega) (by omega)
  | dropDivisorWrapped minL lastR moreR upper_le rest value_eq =>
    refine absurd ?_ hupper
    have hbelow := rest y hy hyneg
    rw [hval, value_eq]
    exact tdiv_le_tdiv_neg_neg (by omega) (by omega) (by omega) (by omega)
  | dropDividend minL lastR moreL upper_ne value_eq => omega
  | dropDividendWrapped minL lastR upper_eq lower_gt lower_neg lower_le rest value_eq =>
    have hquot : 0 ≤ value false (div x y) := by
      rw [hval]
      exact Int.tdiv_nonneg_of_nonpos_of_nonpos (by omega) (by omega)
    have hxmin : value false x = -2 ^ (w - 1) := by
      rcases rest x hx with hmin | hge
      · exact hmin
      · exfalso
        have habs := abs_tdiv_le (value false x) (value false y)
        rw [← hval, abs_of_nonneg hquot, abs_of_nonpos (by omega)] at habs
        omega
    have hsmall : 2 * value false (div x y) ≤ 2 ^ (w - 1) := by
      have habs := two_mul_abs_tdiv_le (a := value false x) (b := value false y)
        (by rw [abs_of_neg (by omega)]; omega)
      rw [← hval, abs_of_nonneg hquot, abs_of_nonpos (by omega)] at habs
      omega
    have honeVal := value_one hw1 false
    have hmaxVal := SInt.value_false_sMaxValue hwpos
    obtain ⟨hminusOne, hminusTwo⟩ := value_neg_one_two hw
    have hone : rhs.contains 1 = true := by
      by_contra hone
      have hmemR := contains_iff hwpos false rhs
      have hlastMem := hpR.last_mem.1
      have hyMem := hy
      have honeMem := hone
      have hnotFull : ¬rhs.isFullSet = true := fun h => hone (contains_of_isFullSet h _)
      rw [hmemR, or_iff_right hnotFull, lastR] at hlastMem
      rw [hmemR, or_iff_right hnotFull] at hyMem
      rw [hmemR, or_iff_right hnotFull, honeVal] at honeMem
      refine hkeep ⟨upper_eq, by omega, by omega, ?_, ?_, hone⟩
      · rw [hmemR, or_iff_right hnotFull, hminusOne]
        omega
      · rw [hmemR, or_iff_right hnotFull, hminusTwo]
        omega
    obtain ⟨-, -, hmem⟩ := wrapped_at_min hw upper_eq hpL.last_mem.1 (by omega)
    exact contains_sDivQuadrants hw hdiv hr hrhs (Or.inl (Or.inl
      (contains_posDivPosRes_of_one hw hdiv hr hrhs hone ((hmem 1).mpr (by omega))
        ((hmem (SInt.sMaxValue w)).mpr (by omega)) (by omega) (by omega))))

theorem contains_pos_div_pos (hw : 2 < w) (hdiv : Truncates div) (hr : r.Valid)
    (hrhs : rhs.Valid) {x y : SInt w}
    (hx : r.contains x = true) (hy : rhs.contains y = true) (hxpos : 1 ≤ value false x)
    (hypos : 1 ≤ value false y) : (sDivQuadrants r rhs div).contains (div x y) = true := by
  have hw1 : 1 < w := by omega
  rcases posPart_cases hw1 hr with ⟨-, hnone⟩ | ⟨hL, hpL⟩
  · have := hnone x hx
    omega
  rcases posPart_cases hw1 hrhs with ⟨-, hnone⟩ | ⟨hR, hpR⟩
  · have := hnone y hy
    omega
  have hbx := hpL.between x hx ((contains_posFilter_iff hw1 _).mpr hxpos)
  have hby := hpR.between y hy ((contains_posFilter_iff hw1 _).mpr hypos)
  have hposL := (contains_posFilter_iff hw1 _).mp hpL.lower_mem.2
  have hposR := (contains_posFilter_iff hw1 _).mp hpR.lower_mem.2
  refine contains_sDivQuadrants hw hdiv hr hrhs (Or.inl (Or.inl ?_))
  rw [(spans_posDivPosRes hw1 hdiv hL hR hpL hpR).2, hdiv _ _ (by omega)]
  exact ⟨tdiv_le_tdiv_pos_pos (by omega) hbx.1 (by omega) hby.2,
    tdiv_le_tdiv_pos_pos (by omega) hbx.2 (by omega) hby.1⟩

theorem contains_pos_div_neg (hw : 2 < w) (hdiv : Truncates div) (hr : r.Valid)
    (hrhs : rhs.Valid) {x y : SInt w}
    (hx : r.contains x = true) (hy : rhs.contains y = true) (hxpos : 1 ≤ value false x)
    (hyneg : value false y ≤ -1) : (sDivQuadrants r rhs div).contains (div x y) = true := by
  have hw1 : 1 < w := by omega
  have hhalf := two_le_half hw1
  rcases posPart_cases hw1 hr with ⟨-, hnone⟩ | ⟨hL, hpL⟩
  · have := hnone x hx
    omega
  rcases negPart_cases hw1 hrhs with ⟨-, hnone⟩ | ⟨hR, hpR⟩
  · have := hnone y hy
    omega
  have hbx := hpL.between x hx ((contains_posFilter_iff hw1 _).mpr hxpos)
  have hby := hpR.between y hy ((contains_negFilter_iff hw1 _).mpr hyneg)
  have hposL := (contains_posFilter_iff hw1 _).mp hpL.lower_mem.2
  have hnegR := (contains_negFilter_iff hw1 _).mp hpR.last_mem.2
  refine contains_sDivQuadrants hw hdiv hr hrhs (Or.inr (Or.inl ?_))
  rw [(spans_posDivNegRes hw1 hdiv hL hR hpL hpR).2, hdiv _ _ (by omega)]
  exact ⟨tdiv_le_tdiv_pos_neg (by omega) hbx.2 (by omega) hby.2,
    tdiv_le_tdiv_pos_neg (by omega) hbx.1 (by omega) hby.1⟩

theorem contains_neg_div_pos (hw : 2 < w) (hdiv : Truncates div) (hr : r.Valid)
    (hrhs : rhs.Valid) {x y : SInt w}
    (hx : r.contains x = true) (hy : rhs.contains y = true) (hxneg : value false x ≤ -1)
    (hypos : 1 ≤ value false y) : (sDivQuadrants r rhs div).contains (div x y) = true := by
  have hw1 : 1 < w := by omega
  rcases negPart_cases hw1 hr with ⟨-, hnone⟩ | ⟨hL, hpL⟩
  · have := hnone x hx
    omega
  rcases posPart_cases hw1 hrhs with ⟨-, hnone⟩ | ⟨hR, hpR⟩
  · have := hnone y hy
    omega
  have hbx := hpL.between x hx ((contains_negFilter_iff hw1 _).mpr hxneg)
  have hby := hpR.between y hy ((contains_posFilter_iff hw1 _).mpr hypos)
  have hnegL := (contains_negFilter_iff hw1 _).mp hpL.last_mem.2
  have hposR := (contains_posFilter_iff hw1 _).mp hpR.lower_mem.2
  refine contains_sDivQuadrants hw hdiv hr hrhs (Or.inr (Or.inr ?_))
  rw [(spans_negDivPosRes hw1 hdiv hL hR hpL hpR).2, hdiv _ _ (by omega)]
  exact ⟨tdiv_le_tdiv_neg_pos (by omega) hbx.1 (by omega) hby.1,
    tdiv_le_tdiv_neg_pos (by omega) hbx.2 (by omega) hby.2⟩

theorem contains_zero_div (hw : 2 < w) (hdiv : Truncates div) (hr : r.Valid)
    (hrhs : rhs.Valid) {x y : SInt w}
    (hx : r.contains x = true) (hy : rhs.contains y = true) (hxzero : value false x = 0)
    (hyne : value false y ≠ 0) :
    (sDivImpl r rhs div).contains (div x y) = true := by
  have hw1 : 1 < w := by omega
  have hpow : (0 : ℤ) < 2 ^ (w - 1) := by positivity
  have hzeroVal : value false (SInt.zero w) = 0 := value_zero false
  have hxWord : x = SInt.zero w := value_injective false (by omega)
  have hquot : div x y = SInt.zero w := by
    apply value_injective false
    rw [hdiv _ _ (by omega), hxzero, Int.zero_tdiv, hzeroVal]
  have hsome : (!(rhs.intersectWith (posFilter w)).isEmptySet ||
      !(rhs.intersectWith (negFilter w)).isEmptySet) = true := by
    rcases posPart_cases hw1 hrhs with ⟨-, hnone⟩ | ⟨hR, -⟩
    · rcases negPart_cases hw1 hrhs with ⟨-, hnone'⟩ | ⟨hR, -⟩
      · have := hnone y hy
        have := hnone' y hy
        omega
      · rw [hR, Bool.not_false, Bool.or_true]
    · rw [hR, Bool.not_false, Bool.true_or]
  rw [sDivImpl, ← hxWord, hx, hsome, Bool.and_self, if_pos rfl, hquot, ← hxWord]
  exact contains_unionWith hw1 (valid_sDivQuadrants hw hdiv hr hrhs)
    (valid_of_contains (contains_single hw1 x)) .smallest (Or.inr (contains_single hw1 x))

/-- The quadrants hold every quotient of a non-zero dividend but the overflowing one, unless the
largest quotients are lost. -/
theorem contains_sDivQuadrants_div (hw : 2 < w) (hdiv : Truncates div)
    {x y : SInt w}
    (hx : r.contains x = true) (hy : rhs.contains y = true) (hxne : value false x ≠ 0)
    (hyne : value false y ≠ 0)
    (hedge : ¬(value false x = -2 ^ (w - 1) ∧ value false y = -1))
    (hkeep : ¬LosesLargeQuotients r rhs) :
    (sDivQuadrants r rhs div).contains (div x y) = true := by
  have hr := valid_of_contains hx
  have hrhs := valid_of_contains hy
  rcases lt_or_gt_of_ne hxne with hxneg | hxpos
  · rcases lt_or_gt_of_ne hyne with hyneg | hypos
    · exact contains_neg_div_neg hw hdiv hr hrhs hx hy (by omega) (by omega) hedge hkeep
    · exact contains_neg_div_pos hw hdiv hr hrhs hx hy (by omega) (by omega)
  · rcases lt_or_gt_of_ne hyne with hyneg | hypos
    · exact contains_pos_div_neg hw hdiv hr hrhs hx hy (by omega) (by omega)
    · exact contains_pos_div_pos hw hdiv hr hrhs hx hy (by omega) (by omega)

/-- The computed range holds every quotient but the overflowing one, unless the largest quotients
are lost. -/
theorem contains_sDivImpl (hw : 2 < w) (hdiv : Truncates div) {x y : SInt w}
    (hx : r.contains x = true) (hy : rhs.contains y = true) (hyne : value false y ≠ 0)
    (hedge : ¬(value false x = -2 ^ (w - 1) ∧ value false y = -1))
    (hkeep : ¬LosesLargeQuotients r rhs) :
    (sDivImpl r rhs div).contains (div x y) = true := by
  have hr := valid_of_contains hx
  have hrhs := valid_of_contains hy
  by_cases hxzero : value false x = 0
  · exact contains_zero_div hw hdiv hr hrhs hx hy hxzero hyne
  · exact contains_sDivImpl_of_quadrants hw hdiv hr hrhs
      (contains_sDivQuadrants_div hw hdiv hx hy hxzero hyne hedge hkeep)

end Quadrants

end Cangjie.CHIR.ConstantRange
