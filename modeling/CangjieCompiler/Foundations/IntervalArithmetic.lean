import Mathlib.Tactic

/-!
# Products and truncated quotients over integer intervals

A product over two intervals takes its extreme values at the corners.  Machine division rounds
toward zero; on each of the four sign quadrants the quotient is monotone in the magnitude of the
dividend and antitone in the magnitude of the divisor, and all four statements are the first
quadrant moved around by `Int.neg_tdiv` and `Int.tdiv_neg`.
-/

namespace IntervalArithmetic

section Products

variable {x y x₁ x₂ y₁ y₂ : ℤ}

/-- A product with one factor in an interval is at most its value at one of the ends. -/
theorem mul_le_end (hx₁ : x₁ ≤ x) (hx₂ : x ≤ x₂) (y : ℤ) : x * y ≤ x₁ * y ∨ x * y ≤ x₂ * y := by
  rcases le_total 0 y with hy | hy
  · exact Or.inr (mul_le_mul_of_nonneg_right hx₂ hy)
  · exact Or.inl (mul_le_mul_of_nonpos_right hx₁ hy)

/-- A product over two intervals is at most its value at one of the corners. -/
theorem mul_le_corner (hx₁ : x₁ ≤ x) (hx₂ : x ≤ x₂) (hy₁ : y₁ ≤ y) (hy₂ : y ≤ y₂) :
    x * y ≤ x₁ * y₁ ∨ x * y ≤ x₁ * y₂ ∨ x * y ≤ x₂ * y₁ ∨ x * y ≤ x₂ * y₂ := by
  have hend (c : ℤ) : c * y ≤ c * y₁ ∨ c * y ≤ c * y₂ := by
    rw [mul_comm c y, mul_comm c y₁, mul_comm c y₂]
    exact mul_le_end hy₁ hy₂ c
  rcases mul_le_end hx₁ hx₂ y with h | h
  · rcases hend x₁ with h' | h'
    · exact Or.inl (h.trans h')
    · exact Or.inr (Or.inl (h.trans h'))
  · rcases hend x₂ with h' | h'
    · exact Or.inr (Or.inr (Or.inl (h.trans h')))
    · exact Or.inr (Or.inr (Or.inr (h.trans h')))

/-- A product over two intervals is at least its value at one of the corners. -/
theorem corner_le_mul (hx₁ : x₁ ≤ x) (hx₂ : x ≤ x₂) (hy₁ : y₁ ≤ y) (hy₂ : y ≤ y₂) :
    x₁ * y₁ ≤ x * y ∨ x₁ * y₂ ≤ x * y ∨ x₂ * y₁ ≤ x * y ∨ x₂ * y₂ ≤ x * y := by
  have h := mul_le_corner (neg_le_neg hx₂) (neg_le_neg hx₁) hy₁ hy₂
  simp only [neg_mul, neg_le_neg_iff] at h
  tauto

end Products

variable {a c b d : ℤ}

/-- A larger dividend and a smaller divisor give a larger quotient. -/
theorem tdiv_le_tdiv_pos_pos (ha : 0 ≤ a) (haa : a ≤ c) (hb : 0 < d) (hbb : d ≤ b) :
    a.tdiv b ≤ c.tdiv d := by
  rw [Int.tdiv_eq_ediv_of_nonneg ha, Int.tdiv_eq_ediv_of_nonneg (ha.trans haa)]
  have hpos : 0 < b := hb.trans_le hbb
  have hquot : 0 ≤ c / b := Int.ediv_nonneg (ha.trans haa) hpos.le
  calc a / b ≤ c / b := Int.ediv_le_ediv hpos haa
    _ ≤ c / d := by
      apply Int.le_ediv_of_mul_le hb
      calc c / b * d ≤ c / b * b := mul_le_mul_of_nonneg_left hbb hquot
        _ ≤ c := Int.ediv_mul_le c hpos.ne'

theorem tdiv_le_tdiv_neg_neg (ha : a ≤ 0) (haa : c ≤ a) (hb : d < 0) (hbb : b ≤ d) :
    a.tdiv b ≤ c.tdiv d := by
  have h := tdiv_le_tdiv_pos_pos (a := -a) (c := -c) (b := -b) (d := -d) (by omega)
    (by omega) (by omega) (by omega)
  rwa [Int.neg_tdiv_neg, Int.neg_tdiv_neg] at h

theorem tdiv_le_tdiv_pos_neg (ha : 0 ≤ a) (haa : a ≤ c) (hb : d < 0) (hbb : b ≤ d) :
    c.tdiv d ≤ a.tdiv b := by
  have h := tdiv_le_tdiv_pos_pos (b := -b) (d := -d) ha haa (by omega) (by omega)
  rw [Int.tdiv_neg, Int.tdiv_neg] at h
  omega

theorem tdiv_le_tdiv_neg_pos (ha : a ≤ 0) (haa : c ≤ a) (hb : 0 < d) (hbb : d ≤ b) :
    c.tdiv d ≤ a.tdiv b := by
  have h := tdiv_le_tdiv_pos_pos (a := -a) (c := -c) (by omega) (by omega) hb hbb
  rw [Int.neg_tdiv, Int.neg_tdiv] at h
  omega

/-- A quotient is at most as large as the dividend. -/
theorem abs_tdiv_le (a b : ℤ) : |a.tdiv b| ≤ |a| := by
  have h := Int.natAbs_tdiv_le_natAbs a b
  rw [Int.abs_eq_natAbs, Int.abs_eq_natAbs]
  exact_mod_cast h

/-- Division by anything but `-1`, `0` and `1` halves the dividend. -/
theorem two_mul_abs_tdiv_le (hb : 2 ≤ |b|) : 2 * |a.tdiv b| ≤ |a| := by
  have hsplit := Int.tmod_add_tdiv_mul a b
  have habs : |a.tdiv b| * |b| ≤ |a| := by
    have hnat : (a.natAbs / b.natAbs) * b.natAbs ≤ a.natAbs := Nat.div_mul_le_self _ _
    have hquot : (a.tdiv b).natAbs = a.natAbs / b.natAbs := Int.natAbs_tdiv a b
    rw [Int.abs_eq_natAbs, Int.abs_eq_natAbs, Int.abs_eq_natAbs, hquot]
    exact_mod_cast hnat
  calc 2 * |a.tdiv b| = |a.tdiv b| * 2 := mul_comm _ _
    _ ≤ |a.tdiv b| * |b| := mul_le_mul_of_nonneg_left hb (abs_nonneg _)
    _ ≤ |a| := habs

/-- A remainder is smaller than the divisor. -/
theorem abs_tmod_lt (a : ℤ) (hb : b ≠ 0) : |a.tmod b| < |b| := by
  have h : (a.tmod b).natAbs < b.natAbs := by
    rw [Int.natAbs_tmod]
    exact Nat.mod_lt _ (by omega)
  rw [Int.abs_eq_natAbs, Int.abs_eq_natAbs]
  exact_mod_cast h

/-- A remainder is at most as large as the dividend. -/
theorem abs_tmod_le (a b : ℤ) : |a.tmod b| ≤ |a| := by
  have h : (a.tmod b).natAbs ≤ a.natAbs := by
    rw [Int.natAbs_tmod]
    exact Nat.mod_le _ _
  rw [Int.abs_eq_natAbs, Int.abs_eq_natAbs]
  exact_mod_cast h

theorem tmod_nonpos (b : ℤ) (ha : a ≤ 0) : a.tmod b ≤ 0 := by
  have h := Int.tmod_nonneg b (a := -a) (by omega)
  rw [Int.neg_tmod] at h
  omega

/-- A dividend smaller than the divisor is its own remainder. -/
theorem tmod_eq_of_abs_lt (h : |a| < |b|) : a.tmod b = a := by
  have hsize : (a.tmod b).natAbs = a.natAbs := by
    rw [Int.abs_eq_natAbs, Int.abs_eq_natAbs] at h
    rw [Int.natAbs_tmod, Nat.mod_eq_of_lt (by exact_mod_cast h)]
  rcases le_total 0 a with hnonneg | hnonpos
  · have hrem := Int.tmod_nonneg b hnonneg
    omega
  · have hrem := tmod_nonpos b hnonpos
    omega

/-- A quotient found by dividing back determines the product it came from. -/
theorem abs_sub_mul_tdiv_lt (a : ℤ) (hb : b ≠ 0) : |a - a.tdiv b * b| < |b| := by
  have hsplit := Int.tmod_add_tdiv_mul a b
  have hrem : a - a.tdiv b * b = a.tmod b := by omega
  rw [hrem]
  exact abs_tmod_lt a hb

end IntervalArithmetic
