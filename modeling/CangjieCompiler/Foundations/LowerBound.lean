import Mathlib.Data.Nat.Notation
import Mathlib.Order.Basic

/-!
# Binary search

The search of the C++ standard library for the first element that is not below a value, in a range
given by its first index and its length.  The elements are only compared with the value, so the
range is given by the indices whose element is below it.
-/

namespace BinarySearch

/-- `std::lower_bound`.  Half of the range that is left is dropped in every round. -/
def lowerBound (below : ℕ → Bool) (first len : ℕ) : ℕ :=
  if _ : len = 0 then first
  else if below (first + len / 2) then
    lowerBound below (first + len / 2 + 1) (len - len / 2 - 1)
  else lowerBound below first (len / 2)
termination_by len

variable {below : ℕ → Bool} {first len : ℕ}

/-- In a range whose elements below the value come first, the search returns the end of these. -/
theorem lowerBound_spec
    (hbelow : ∀ i j, first ≤ i → i ≤ j → j < first + len → below j = true → below i = true) :
    first ≤ lowerBound below first len ∧ lowerBound below first len ≤ first + len ∧
      (∀ i, first ≤ i → i < lowerBound below first len → below i = true) ∧
      (∀ i, lowerBound below first len ≤ i → i < first + len → below i = false) := by
  fun_induction lowerBound below first len with
  | case1 first =>
    exact ⟨Nat.le_refl _, Nat.le_refl _, fun i hi hlt => absurd hlt (Nat.not_lt.mpr hi),
      fun i hi hlt => absurd hlt (Nat.not_lt.mpr hi)⟩
  | case2 first len hlen hmid ih =>
    have hend : first + len / 2 + 1 + (len - len / 2 - 1) = first + len := by omega
    rw [hend] at ih
    obtain ⟨hlo, hhi, hbefore, hafter⟩ :=
      ih fun i j hi hij hj => hbelow i j (by omega) hij hj
    refine ⟨by omega, hhi, fun i hi hlt => ?_, hafter⟩
    rcases Nat.lt_or_ge (first + len / 2) i with hupper | hlower
    · exact hbefore i hupper hlt
    · exact hbelow i (first + len / 2) hi hlower (by omega) hmid
  | case3 first len hlen hmid ih =>
    obtain ⟨hlo, hhi, hbefore, hafter⟩ :=
      ih fun i j hi hij hj => hbelow i j hi hij (by omega)
    refine ⟨hlo, by omega, hbefore, fun i hi hlt => ?_⟩
    rcases Nat.lt_or_ge i (first + len / 2) with hlower | hupper
    · exact hafter i hi hlower
    · exact Bool.eq_false_iff.mpr fun hi' =>
        hmid (hbelow (first + len / 2) i (Nat.le_add_right _ _) hupper hlt hi')

/-! ## Ascending values -/

variable {key : ℕ → ℕ} {n x : ℕ}

lemma lowerBound_key_spec (hkey : ∀ i j, i < j → j < n → key i < key j) :
    lowerBound (fun i => decide (key i < x)) 0 n ≤ n ∧
      (∀ i, i < lowerBound (fun i => decide (key i < x)) 0 n → key i < x) ∧
      (∀ i, lowerBound (fun i => decide (key i < x)) 0 n ≤ i → i < n → x ≤ key i) := by
  have hbelow : ∀ i j, 0 ≤ i → i ≤ j → j < 0 + n → decide (key j < x) = true →
      decide (key i < x) = true := by
    intro i j _ hij hj hlt
    rw [Nat.zero_add] at hj
    rw [decide_eq_true_eq] at hlt ⊢
    rcases Nat.eq_or_lt_of_le hij with rfl | hij
    · exact hlt
    · exact Nat.lt_trans (hkey i j hij hj) hlt
  obtain ⟨_, hhi, hbefore, hafter⟩ := lowerBound_spec hbelow
  rw [Nat.zero_add] at hhi hafter
  exact ⟨hhi, fun i hi => of_decide_eq_true (hbefore i (Nat.zero_le i) hi),
    fun i hi hlt => Nat.le_of_not_lt (of_decide_eq_false (hafter i hi hlt))⟩

/-- A value of an ascending range is found at its index. -/
theorem lowerBound_of_key (hkey : ∀ i j, i < j → j < n → key i < key j) {k : ℕ} (hk : k < n)
    (hx : key k = x) : lowerBound (fun i => decide (key i < x)) 0 n = k := by
  obtain ⟨hhi, hbefore, hafter⟩ := lowerBound_key_spec (x := x) hkey
  rcases Nat.lt_trichotomy k (lowerBound (fun i => decide (key i < x)) 0 n) with hlt | heq | hgt
  · exact absurd (hbefore k hlt) (by rw [hx]; exact Nat.lt_irrefl x)
  · exact heq.symm
  · have hfirst := hafter _ (Nat.le_refl _) (Nat.lt_trans hgt hk)
    exact absurd (hkey _ k hgt hk) (Nat.not_lt.mpr (hx ▸ hfirst))

end BinarySearch
