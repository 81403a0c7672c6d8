import Mathlib.Data.BitVec
import CangjieCompiler.CHIR.Analysis.ConstantRange.SetOperations
import CangjieCompiler.CHIR.Analysis.SIntArithmetic

/-!
# Soundness of the arithmetic on ranges

Each operation of the source returns a range that holds the result of the operation on every
pair of elements.  Addition and subtraction work on the circle and are measured by distances from
the lower bounds; the other operations work on the extreme elements of a reading and are
justified by monotonicity.
-/

namespace Cangjie.CHIR.ConstantRange

open FixedWidth IntervalArithmetic

variable {w : ℕ}

/-! ## Addition and subtraction -/

/-- The distance of an element from the lower bound of its range. -/
theorem distance_lt (hw : 0 < w) {r : ConstantRange w} (hne : r.lower ≠ r.upper) {v : SInt w}
    (hv : r.contains v = true) : (v - r.lower).toNat < (r.upper - r.lower).toNat :=
  (contains_iff_distance hw r v hne).mp hv

/-- The common end of `add` and `sub`: a range as long as both operands together, less one,
which is given up for the full set when it does not fit the circle. -/
theorem contains_of_distances (hw : 0 < w) {r rhs : ConstantRange w} {lower upper z : SInt w}
    {d₁ d₂ : ℕ} (h₁ : d₁ < (r.upper - r.lower).toNat) (h₂ : d₂ < (rhs.upper - rhs.lower).toNat)
    (hz : z - lower = BitVec.ofNat w (d₁ + d₂))
    (hsize : upper - lower =
      BitVec.ofNat w ((r.upper - r.lower).toNat + (rhs.upper - rhs.lower).toNat - 1)) :
    (if lower = upper then full w
      else
        let res : ConstantRange w := ⟨lower, upper⟩
        if res.isSizeStrictlySmallerThan r || res.isSizeStrictlySmallerThan rhs then full w
        else res).contains z = true := by
  have hn₁ := (r.upper - r.lower).isLt
  have hn₂ := (rhs.upper - rhs.lower).isLt
  by_cases heq : lower = upper
  · rw [if_pos heq]
    exact contains_full z
  rw [if_neg heq]
  dsimp only
  split_ifs with hsmall
  · exact contains_full z
  have hfits : (r.upper - r.lower).toNat + (rhs.upper - rhs.lower).toNat - 1 < 2 ^ w := by
    by_contra hover
    apply hsmall
    have hlen : (upper - lower).toNat < (r.upper - r.lower).toNat := by
      rw [hsize, BitVec.toNat_ofNat, Nat.mod_eq_sub_mod (by omega), Nat.mod_eq_of_lt (by omega)]
      omega
    have hnotFull : (⟨lower, upper⟩ : ConstantRange w).isFullSet = false := by
      rw [isFullSet, Bool.and_eq_false_iff, beq_eq_false_iff_ne]
      exact Or.inl heq
    have hsmaller : isSizeStrictlySmallerThan ⟨lower, upper⟩ r = true := by
      rw [isSizeStrictlySmallerThan, hnotFull, if_neg Bool.false_ne_true]
      split_ifs
      · rfl
      · exact decide_eq_true hlen
    rw [hsmaller, Bool.true_or]
  rw [contains_iff_distance hw _ _ heq]
  dsimp only
  rw [hz, hsize, BitVec.toNat_ofNat, BitVec.toNat_ofNat, Nat.mod_eq_of_lt hfits,
    Nat.mod_eq_of_lt (by omega)]
  omega

theorem ofNat_add_toNat (a b : BitVec w) : BitVec.ofNat w (a.toNat + b.toNat) = a + b := by
  rw [BitVec.ofNat_add, BitVec.ofNat_toNat, BitVec.ofNat_toNat, BitVec.setWidth_eq,
    BitVec.setWidth_eq]

theorem ofNat_add_toNat_sub_one (a b : BitVec w) (h : 1 ≤ a.toNat + b.toNat) :
    BitVec.ofNat w (a.toNat + b.toNat - 1) = a + b - 1#w := by
  have hsum : BitVec.ofNat w (a.toNat + b.toNat - 1) + 1#w = a + b := by
    rw [← BitVec.ofNat_add, Nat.sub_add_cancel h, ofNat_add_toNat]
  rw [← hsum, BitVec.add_sub_cancel]

theorem contains_add (hw : 0 < w) {r rhs : ConstantRange w} {x y : SInt w}
    (hx : r.contains x = true) (hy : rhs.contains y = true) :
    (r.add rhs).contains (x + y) = true := by
  have hempty := isEmptySet_eq_false_of_contains hw hx
  have hempty' := isEmptySet_eq_false_of_contains hw hy
  rw [add, hempty, hempty', Bool.or_self, if_neg Bool.false_ne_true]
  by_cases hfull : (r.isFullSet || rhs.isFullSet) = true
  · rw [if_pos hfull]
    exact contains_full _
  rw [if_neg hfull]
  rw [Bool.or_eq_true, not_or] at hfull
  have hd₁ := distance_lt hw (lower_ne_upper_of_contains hx hfull.1) hx
  have hd₂ := distance_lt hw (lower_ne_upper_of_contains hy hfull.2) hy
  refine contains_of_distances hw hd₁ hd₂ ?_ ?_
  · rw [ofNat_add_toNat]
    ring
  · rw [ofNat_add_toNat_sub_one _ _ (by omega)]
    change r.upper + rhs.upper - 1#w - (r.lower + rhs.lower) = _
    ring

theorem contains_sub (hw : 0 < w) {r rhs : ConstantRange w} {x y : SInt w}
    (hx : r.contains x = true) (hy : rhs.contains y = true) :
    (r.sub rhs).contains (x - y) = true := by
  have hempty := isEmptySet_eq_false_of_contains hw hx
  have hempty' := isEmptySet_eq_false_of_contains hw hy
  rw [sub, hempty, hempty', Bool.or_self, if_neg Bool.false_ne_true]
  by_cases hfull : (r.isFullSet || rhs.isFullSet) = true
  · rw [if_pos hfull]
    exact contains_full _
  rw [if_neg hfull]
  rw [Bool.or_eq_true, not_or] at hfull
  have hd₁ := distance_lt hw (lower_ne_upper_of_contains hx hfull.1) hx
  have hd₂ := distance_lt hw (lower_ne_upper_of_contains hy hfull.2) hy
  -- the elements of the subtrahend are counted from its upper end
  have hback : (rhs.upper - 1#w - y).toNat < (rhs.upper - rhs.lower).toNat := by
    have hlen := (rhs.upper - rhs.lower).isLt
    have hword : rhs.upper - 1#w - y =
        BitVec.ofNat w ((rhs.upper - rhs.lower).toNat - ((y - rhs.lower).toNat + 1)) := by
      rw [← BitVec.ofNat_sub_ofNat_of_le _ _ (by omega) (by omega), BitVec.ofNat_add,
        BitVec.ofNat_toNat, BitVec.ofNat_toNat, BitVec.setWidth_eq, BitVec.setWidth_eq]
      ring
    rw [hword, BitVec.toNat_ofNat, Nat.mod_eq_of_lt (by omega)]
    omega
  refine contains_of_distances hw hd₁ hback ?_ ?_
  · rw [ofNat_add_toNat]
    change x - y - (r.lower - rhs.upper + 1#w) = _
    ring
  · rw [ofNat_add_toNat_sub_one _ _ (by omega)]
    change r.upper - rhs.lower - (r.lower - rhs.upper + 1#w) = _
    ring

/-! ## Operations on the extreme elements -/

theorem contains_nonEmpty_ofInt (hw : 1 < w) {uns : Bool} {l u : SInt w} {z : ℤ}
    (hz : Representable w uns z) (hl : value uns l ≤ z) (hu : z ≤ value uns u) :
    (nonEmpty l (u + 1)).contains (BitVec.ofInt w z) = true := by
  have hval := value_ofInt (show 0 < w by omega) hz
  refine contains_nonEmpty hw uns ?_ ?_
  · rw [hval]
    exact hl
  · rw [hval]
    exact hu

theorem value_sMinOf (a b : SInt w) :
    value false (sMinOf a b) = min (value false a) (value false b) := by
  rw [sMinOf]
  split_ifs with h
  · rw [SInt.slt_iff] at h
    rw [min_eq_right h.le]
  · rw [SInt.slt_iff, not_lt] at h
    rw [min_eq_left h]

theorem value_sMaxOf (a b : SInt w) :
    value false (sMaxOf a b) = max (value false a) (value false b) := by
  rw [sMaxOf]
  split_ifs with h
  · rw [SInt.slt_iff] at h
    rw [max_eq_right h.le]
  · rw [SInt.slt_iff, not_lt] at h
    rw [max_eq_left h]

section ExtremeElements

variable {r rhs : ConstantRange w} {x y : SInt w}

/-- The bounds of an element by the extreme elements of its range. -/
theorem unsigned_bounds (hw : 1 < w) (hx : r.contains x = true) :
    value true r.uMinValue ≤ value true x ∧ value true x ≤ value true r.uMaxValue :=
  ⟨value_minValue_le (by omega) true hx, le_value_maxValue hw true hx⟩

theorem signed_bounds (hw : 1 < w) (hx : r.contains x = true) :
    value false r.sMinValue ≤ value false x ∧ value false x ≤ value false r.sMaxValue :=
  ⟨value_minValue_le (by omega) false hx, le_value_maxValue hw false hx⟩

theorem contains_uAddSat (hw : 1 < w) (hx : r.contains x = true) (hy : rhs.contains y = true) :
    (r.uAddSat rhs).contains (BitVec.ofInt w (clamp w true (value true x + value true y))) =
      true := by
  have hwpos : 0 < w := by omega
  have hempty := isEmptySet_eq_false_of_contains hwpos hx
  have hempty' := isEmptySet_eq_false_of_contains hwpos hy
  obtain ⟨hx₁, hx₂⟩ := unsigned_bounds hw hx
  obtain ⟨hy₁, hy₂⟩ := unsigned_bounds hw hy
  rw [uAddSat, hempty, hempty', Bool.or_self, if_neg Bool.false_ne_true]
  refine contains_nonEmpty_ofInt hw (clamp_representable w true _) ?_ ?_
  · rw [SInt.value_uAddSat hwpos]
    exact clamp_mono w true (add_le_add hx₁ hy₁)
  · rw [SInt.value_uAddSat hwpos]
    exact clamp_mono w true (add_le_add hx₂ hy₂)

theorem contains_sAddSat (hw : 1 < w) (hx : r.contains x = true) (hy : rhs.contains y = true) :
    (r.sAddSat rhs).contains (BitVec.ofInt w (clamp w false (value false x + value false y))) =
      true := by
  have hwpos : 0 < w := by omega
  have hempty := isEmptySet_eq_false_of_contains hwpos hx
  have hempty' := isEmptySet_eq_false_of_contains hwpos hy
  obtain ⟨hx₁, hx₂⟩ := signed_bounds hw hx
  obtain ⟨hy₁, hy₂⟩ := signed_bounds hw hy
  rw [sAddSat, hempty, hempty', Bool.or_self, if_neg Bool.false_ne_true]
  refine contains_nonEmpty_ofInt hw (clamp_representable w false _) ?_ ?_
  · rw [SInt.value_sAddSat hwpos]
    exact clamp_mono w false (add_le_add hx₁ hy₁)
  · rw [SInt.value_sAddSat hwpos]
    exact clamp_mono w false (add_le_add hx₂ hy₂)

theorem contains_uSubSat (hw : 1 < w) (hx : r.contains x = true) (hy : rhs.contains y = true) :
    (r.uSubSat rhs).contains (BitVec.ofInt w (clamp w true (value true x - value true y))) =
      true := by
  have hwpos : 0 < w := by omega
  have hempty := isEmptySet_eq_false_of_contains hwpos hx
  have hempty' := isEmptySet_eq_false_of_contains hwpos hy
  obtain ⟨hx₁, hx₂⟩ := unsigned_bounds hw hx
  obtain ⟨hy₁, hy₂⟩ := unsigned_bounds hw hy
  rw [uSubSat, hempty, hempty', Bool.or_self, if_neg Bool.false_ne_true]
  refine contains_nonEmpty_ofInt hw (clamp_representable w true _) ?_ ?_
  · rw [SInt.value_uSubSat hwpos]
    exact clamp_mono w true (sub_le_sub hx₁ hy₂)
  · rw [SInt.value_uSubSat hwpos]
    exact clamp_mono w true (sub_le_sub hx₂ hy₁)

theorem contains_sSubSat (hw : 1 < w) (hx : r.contains x = true) (hy : rhs.contains y = true) :
    (r.sSubSat rhs).contains (BitVec.ofInt w (clamp w false (value false x - value false y))) =
      true := by
  have hwpos : 0 < w := by omega
  have hempty := isEmptySet_eq_false_of_contains hwpos hx
  have hempty' := isEmptySet_eq_false_of_contains hwpos hy
  obtain ⟨hx₁, hx₂⟩ := signed_bounds hw hx
  obtain ⟨hy₁, hy₂⟩ := signed_bounds hw hy
  rw [sSubSat, hempty, hempty', Bool.or_self, if_neg Bool.false_ne_true]
  refine contains_nonEmpty_ofInt hw (clamp_representable w false _) ?_ ?_
  · rw [SInt.value_sSubSat hwpos]
    exact clamp_mono w false (sub_le_sub hx₁ hy₂)
  · rw [SInt.value_sSubSat hwpos]
    exact clamp_mono w false (sub_le_sub hx₂ hy₁)

theorem contains_uMulSat (hw : 1 < w) (hx : r.contains x = true) (hy : rhs.contains y = true) :
    (r.uMulSat rhs).contains (BitVec.ofInt w (clamp w true (value true x * value true y))) =
      true := by
  have hwpos : 0 < w := by omega
  have hempty := isEmptySet_eq_false_of_contains hwpos hx
  have hempty' := isEmptySet_eq_false_of_contains hwpos hy
  obtain ⟨hx₁, hx₂⟩ := unsigned_bounds hw hx
  obtain ⟨hy₁, hy₂⟩ := unsigned_bounds hw hy
  have hmin := (SInt.value_true_bounds r.uMinValue).1
  have hmin' := (SInt.value_true_bounds rhs.uMinValue).1
  rw [uMulSat, hempty, hempty', Bool.or_self, if_neg Bool.false_ne_true]
  refine contains_nonEmpty_ofInt hw (clamp_representable w true _) ?_ ?_
  · rw [SInt.value_uMulSat hwpos]
    exact clamp_mono w true (mul_le_mul hx₁ hy₁ hmin' (hmin.trans hx₁))
  · rw [SInt.value_uMulSat hwpos]
    exact clamp_mono w true
      (mul_le_mul hx₂ hy₂ (hmin'.trans hy₁) ((hmin.trans hx₁).trans hx₂))

theorem contains_sMulSat (hw : 1 < w) (hx : r.contains x = true) (hy : rhs.contains y = true) :
    (r.sMulSat rhs).contains (BitVec.ofInt w (clamp w false (value false x * value false y))) =
      true := by
  have hwpos : 0 < w := by omega
  have hempty := isEmptySet_eq_false_of_contains hwpos hx
  have hempty' := isEmptySet_eq_false_of_contains hwpos hy
  obtain ⟨hx₁, hx₂⟩ := signed_bounds hw hx
  obtain ⟨hy₁, hy₂⟩ := signed_bounds hw hy
  rw [sMulSat, hempty, hempty', Bool.or_self, if_neg Bool.false_ne_true]
  refine contains_nonEmpty_ofInt hw (clamp_representable w false _) ?_ ?_
  · simp only [value_sMinOf, SInt.value_sMulSat hw, min_le_iff]
    rcases corner_le_mul hx₁ hx₂ hy₁ hy₂ with h | h | h | h
    · exact Or.inl (Or.inl (Or.inl (clamp_mono w false h)))
    · exact Or.inl (Or.inl (Or.inr (clamp_mono w false h)))
    · exact Or.inl (Or.inr (clamp_mono w false h))
    · exact Or.inr (clamp_mono w false h)
  · simp only [value_sMaxOf, SInt.value_sMulSat hw, le_max_iff]
    rcases mul_le_corner hx₁ hx₂ hy₁ hy₂ with h | h | h | h
    · exact Or.inl (Or.inl (Or.inl (clamp_mono w false h)))
    · exact Or.inl (Or.inl (Or.inr (clamp_mono w false h)))
    · exact Or.inl (Or.inr (clamp_mono w false h))
    · exact Or.inr (clamp_mono w false h)

theorem contains_uMul (hw : 1 < w) (hx : r.contains x = true) (hy : rhs.contains y = true) :
    (r.uMul rhs).contains (x * y) = true := by
  have hwpos : 0 < w := by omega
  have hempty := isEmptySet_eq_false_of_contains hwpos hx
  have hempty' := isEmptySet_eq_false_of_contains hwpos hy
  obtain ⟨hx₁, hx₂⟩ := unsigned_bounds hw hx
  obtain ⟨hy₁, hy₂⟩ := unsigned_bounds hw hy
  have hmin := (SInt.value_true_bounds r.uMinValue).1
  have hmin' := (SInt.value_true_bounds rhs.uMinValue).1
  rw [uMul, hempty, hempty', Bool.or_self, if_neg Bool.false_ne_true]
  simp only [SInt.uMulOvf_eq hwpos, Bool.or_eq_true, decide_eq_true_eq]
  split_ifs with hover
  · exact contains_full _
  · rw [not_or, not_not, not_not] at hover
    have hlo := mul_le_mul hx₁ hy₁ hmin' (hmin.trans hx₁)
    have hhi := mul_le_mul hx₂ hy₂ (hmin'.trans hy₁) ((hmin.trans hx₁).trans hx₂)
    rw [mul_eq_ofInt true x y]
    refine contains_nonEmpty_ofInt hw ⟨hover.1.1.trans hlo, hhi.trans hover.2.2⟩ ?_ ?_
    · rw [value_mul hwpos hover.1]
      exact hlo
    · rw [value_mul hwpos hover.2]
      exact hhi

theorem contains_sMul (hw : 1 < w) (hx : r.contains x = true) (hy : rhs.contains y = true) :
    (r.sMul rhs).contains (x * y) = true := by
  have hwpos : 0 < w := by omega
  have hempty := isEmptySet_eq_false_of_contains hwpos hx
  have hempty' := isEmptySet_eq_false_of_contains hwpos hy
  obtain ⟨hx₁, hx₂⟩ := signed_bounds hw hx
  obtain ⟨hy₁, hy₂⟩ := signed_bounds hw hy
  rw [sMul, hempty, hempty', Bool.or_self, if_neg Bool.false_ne_true]
  simp only [SInt.sMulOvf_eq hw, Bool.or_eq_true, decide_eq_true_eq]
  split_ifs with hover
  · exact contains_full _
  · simp only [not_or, not_not] at hover
    obtain ⟨⟨⟨h₁, h₂⟩, h₃⟩, h₄⟩ := hover
    have hlo := corner_le_mul hx₁ hx₂ hy₁ hy₂
    have hhi := mul_le_corner hx₁ hx₂ hy₁ hy₂
    have hrep : Representable w false (value false x * value false y) := by
      constructor
      · rcases hlo with h | h | h | h
        · exact h₁.1.trans h
        · exact h₂.1.trans h
        · exact h₃.1.trans h
        · exact h₄.1.trans h
      · rcases hhi with h | h | h | h
        · exact h.trans h₁.2
        · exact h.trans h₂.2
        · exact h.trans h₃.2
        · exact h.trans h₄.2
    rw [mul_eq_ofInt false x y]
    refine contains_nonEmpty_ofInt hw hrep ?_ ?_
    · simp only [value_sMinOf, value_mul hwpos h₁, value_mul hwpos h₂, value_mul hwpos h₃,
        value_mul hwpos h₄, min_le_iff]
      tauto
    · simp only [value_sMaxOf, value_mul hwpos h₁, value_mul hwpos h₂, value_mul hwpos h₃,
        value_mul hwpos h₄, le_max_iff]
      tauto

end ExtremeElements

end Cangjie.CHIR.ConstantRange
