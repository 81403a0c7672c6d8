import CangjieCompiler.CHIR.Analysis.ConstantRange.Division

/-!
# The edge of signed division

The smallest value divided by `-1` wraps around or saturates, and the computed range of quotients
need not hold the result; in one shape of operands it loses representable quotients as well.
Both are decided here by bounds: the quadrants are bounded, bounds pass through the unions, and
the missing quotient lies outside.
-/

namespace Cangjie.CHIR.ConstantRange

open FixedWidth IntervalArithmetic

variable {w : ℕ} {r rhs : ConstantRange w} {div : SInt w → SInt w → SInt w}

/-! ## Bounds through the unions -/

/-- Adding a value that is already there changes nothing. -/
theorem contains_unionWith_single_of_mem (hw : 1 < w) {s : ConstantRange w} {z v : SInt w}
    (hs : s.Valid) (hz : s.contains z = true)
    (hv : (s.unionWith (single z)).contains v = true) : s.contains v = true := by
  have hsingle := contains_single hw z
  rcases unionWith_spec hw hs (valid_of_contains hsingle) .smallest with hexact | ⟨hapart, -⟩
  · rcases (hexact v).mp hv with h | h
    · exact h
    · rw [(contains_single_iff hw).mp h]
      exact hz
  · exact absurd ⟨hz, hsingle⟩ (hapart.disjoint z)

/-- Adding zero to an interval keeps its bounds. -/
theorem bounds_unionWith_zero (hw : 1 < w) {s : ConstantRange w} {lo hi : ℤ} (hs : s.Valid)
    (hb : ∀ v, s.contains v = true → lo ≤ value false v ∧ value false v ≤ hi)
    (hlo : lo ≤ 0) (hhi : 0 ≤ hi ∧ hi < 2 ^ (w - 1))
    (hproper : -2 ^ (w - 1) < lo ∨ hi < 2 ^ (w - 1) - 1)
    (hside : -2 ^ (w - 1) < lo ∨ ∃ v, s.contains v = true ∧ 0 ≤ value false v) {v : SInt w}
    (hv : (s.unionWith (single (SInt.zero w))).contains v = true) :
    lo ≤ value false v ∧ value false v ≤ hi := by
  have hwpos : 0 < w := by omega
  have hzeroVal : value false (SInt.zero w) = 0 := value_zero false
  by_cases hmem : s.contains (SInt.zero w) = true
  · exact hb v (contains_unionWith_single_of_mem hw hs hmem hv)
  have hinterval : s.Unwrapped false := by
    by_contra hwrapped
    obtain ⟨hbot, htop⟩ := contains_ends_of_not_unwrapped hwpos hwrapped
    have hlt := least_lt_greatest hwpos false
    have hbot' := hb _ hbot
    have htop' := hb _ htop
    rw [value_ofInt hwpos ⟨le_rfl, hlt.le⟩, least_false] at hbot'
    rw [value_ofInt hwpos ⟨hlt.le, le_rfl⟩, greatest_false] at htop'
    omega
  have hsingleValid := valid_of_contains (contains_single hw (SInt.zero w))
  -- an interval without zero lies on one side of it
  by_cases hposElem : ∃ u, s.contains u = true ∧ 0 ≤ value false u
  · obtain ⟨u, hu, hunonneg⟩ := hposElem
    have hwithin : Within false 0 hi s (single (SInt.zero w)) := by
      intro t ht
      rcases ht with ht | ht
      · refine ⟨?_, (hb t ht).2⟩
        by_contra hneg
        rw [not_le] at hneg
        exact hmem (contains_of_unwrapped hwpos hinterval ht hu (by omega) (by omega))
      · rw [(contains_single_iff hw).mp ht, hzeroVal]
        exact ⟨le_rfl, hhi.1⟩
    have hres := bounds_unionWith_smallest hw hs hsingleValid hwithin (by omega) hv
    omega
  · have hlo' : -2 ^ (w - 1) < lo := by
      rcases hside with h | h
      · exact h
      · exact absurd h hposElem
    have hwithin : Within false lo 0 s (single (SInt.zero w)) := by
      intro t ht
      rcases ht with ht | ht
      · refine ⟨(hb t ht).1, ?_⟩
        by_contra hpos
        exact hposElem ⟨t, ht, by omega⟩
      · rw [(contains_single_iff hw).mp ht, hzeroVal]
        exact ⟨hlo, le_rfl⟩
    have hres := bounds_unionWith_smallest hw hs hsingleValid hwithin (by omega) hv
    omega

/-- The signed quotients stay within bounds of the quadrants. -/
theorem bounds_sDivImpl (lo hi : ℤ) (hw : 2 < w) (hvalid : (sDivQuadrants r rhs div).Valid)
    (hb : ∀ v, (sDivQuadrants r rhs div).contains v = true →
      lo ≤ value false v ∧ value false v ≤ hi)
    (hlo : lo ≤ 0) (hhi : 0 ≤ hi ∧ hi < 2 ^ (w - 1))
    (hproper : -2 ^ (w - 1) < lo ∨ hi < 2 ^ (w - 1) - 1)
    (hside : -2 ^ (w - 1) < lo ∨
      ∃ v, (sDivQuadrants r rhs div).contains v = true ∧ 0 ≤ value false v) {v : SInt w}
    (hv : (sDivImpl r rhs div).contains v = true) : lo ≤ value false v ∧ value false v ≤ hi := by
  rw [sDivImpl] at hv
  split_ifs at hv
  · exact bounds_unionWith_zero (by omega) hvalid hb hlo hhi hproper hside hv
  · exact hb v hv

/-! ## Bounds of the quadrants -/

/-- An empty quadrant holds nothing. -/
theorem bounds_empty (hw : 0 < w) {lo hi : ℤ} (v : SInt w) (hv : (empty w).contains v = true) :
    lo ≤ value false v ∧ value false v ≤ hi :=
  absurd hv (not_contains_empty hw v)

theorem bounds_posDivPosRes (hw : 2 < w) (hdiv : Truncates div) (hr : r.Valid)
    (hrhs : rhs.Valid) {hi : ℤ}
    (hmax : ∀ x y, r.contains x = true → rhs.contains y = true → 1 ≤ value false x →
      1 ≤ value false y → (value false x).tdiv (value false y) ≤ hi) (v : SInt w)
    (hv : (posDivPosRes (r.intersectWith (posFilter w)) (rhs.intersectWith (posFilter w))
      div).contains v = true) : 0 ≤ value false v ∧ value false v ≤ hi := by
  have hw1 : 1 < w := by omega
  rcases posPart_cases hw1 hr with ⟨hL, -⟩ | ⟨hL, hpL⟩
  · rw [posDivPosRes, hL] at hv
    exact bounds_empty (by omega) v hv
  rcases posPart_cases hw1 hrhs with ⟨hR, -⟩ | ⟨hR, hpR⟩
  · rw [posDivPosRes, hR, Bool.not_true, Bool.and_false, if_neg Bool.false_ne_true] at hv
    exact bounds_empty (by omega) v hv
  have hposL := (contains_posFilter_iff hw1 _).mp hpL.lower_mem.2
  have hposR := (contains_posFilter_iff hw1 _).mp hpR.lower_mem.2
  have horderL := hpL.lower_le_last
  have horderR := hpR.lower_le_last
  rw [(spans_posDivPosRes hw1 hdiv hL hR hpL hpR).2] at hv
  refine ⟨?_, hv.2.trans (hmax _ _ hpL.last_mem.1 hpR.lower_mem.1 (by omega) hposR)⟩
  exact (Int.tdiv_nonneg (by omega) (by omega)).trans hv.1

theorem bounds_posDivNegRes (hw : 2 < w) (hdiv : Truncates div) (hr : r.Valid)
    (hrhs : rhs.Valid) (v : SInt w)
    (hv : (posDivNegRes (r.intersectWith (posFilter w)) (rhs.intersectWith (negFilter w))
      div).contains v = true) : -2 ^ (w - 1) + 1 ≤ value false v ∧ value false v ≤ 0 := by
  have hw1 : 1 < w := by omega
  rcases posPart_cases hw1 hr with ⟨hL, -⟩ | ⟨hL, hpL⟩
  · rw [posDivNegRes, hL] at hv
    exact bounds_empty (by omega) v hv
  rcases negPart_cases hw1 hrhs with ⟨hR, -⟩ | ⟨hR, hpR⟩
  · rw [posDivNegRes, hR, Bool.not_true, Bool.and_false, if_neg Bool.false_ne_true] at hv
    exact bounds_empty (by omega) v hv
  have hposL := (contains_posFilter_iff hw1 _).mp hpL.lower_mem.2
  have hnegR := (contains_negFilter_iff hw1 _).mp hpR.last_mem.2
  have horderL := hpL.lower_le_last
  have horderR := hpR.lower_le_last
  have hboundL := SInt.value_false_bounds ((r.intersectWith (posFilter w)).upper - 1)
  rw [(spans_posDivNegRes hw1 hdiv hL hR hpL hpR).2] at hv
  refine ⟨?_, hv.2.trans (Int.tdiv_nonpos_of_nonneg_of_nonpos (by omega) (by omega))⟩
  have habs := abs_tdiv_le (value false ((r.intersectWith (posFilter w)).upper - 1))
    (value false ((rhs.intersectWith (negFilter w)).upper - 1))
  rw [abs_of_nonneg (by omega : 0 ≤ value false ((r.intersectWith (posFilter w)).upper - 1)),
    abs_le] at habs
  omega

theorem bounds_negDivPosRes (hw : 2 < w) (hdiv : Truncates div) (hr : r.Valid)
    (hrhs : rhs.Valid) (v : SInt w)
    (hv : (negDivPosRes (r.intersectWith (negFilter w)) (rhs.intersectWith (posFilter w))
      div).contains v = true) :
    value false v ≤ 0 ∧ (¬rhs.contains 1 = true → -2 ^ (w - 1) + 1 ≤ value false v) := by
  have hw1 : 1 < w := by omega
  have hone := value_one hw1 false
  have hhalf := two_le_half hw1
  rcases negPart_cases hw1 hr with ⟨hL, -⟩ | ⟨hL, hpL⟩
  · rw [negDivPosRes, hL] at hv
    exact absurd hv (not_contains_empty (by omega) v)
  rcases posPart_cases hw1 hrhs with ⟨hR, -⟩ | ⟨hR, hpR⟩
  · rw [negDivPosRes, hR, Bool.not_true, Bool.and_false, if_neg Bool.false_ne_true] at hv
    exact absurd hv (not_contains_empty (by omega) v)
  have hnegL := (contains_negFilter_iff hw1 _).mp hpL.last_mem.2
  have hposR := (contains_posFilter_iff hw1 _).mp hpR.lower_mem.2
  have horderL := hpL.lower_le_last
  have horderR := hpR.lower_le_last
  have hboundL := SInt.value_false_bounds (r.intersectWith (negFilter w)).lower
  rw [(spans_negDivPosRes hw1 hdiv hL hR hpL hpR).2] at hv
  refine ⟨hv.2.trans ?_, fun hnone => ?_⟩
  · have hnonneg := Int.tdiv_nonneg
      (a := -value false ((r.intersectWith (negFilter w)).upper - 1))
      (b := value false ((rhs.intersectWith (posFilter w)).upper - 1)) (by omega) (by omega)
    rw [Int.neg_tdiv] at hnonneg
    omega
  · have hmore : value false (rhs.intersectWith (posFilter w)).lower ≠ 1 := by
      intro heq
      have hword : (rhs.intersectWith (posFilter w)).lower = 1 :=
        value_injective false (by rw [heq, hone])
      exact hnone (hword ▸ hpR.lower_mem.1)
    have habs := two_mul_abs_tdiv_le (a := value false (r.intersectWith (negFilter w)).lower)
      (b := value false (rhs.intersectWith (posFilter w)).lower)
      (by rw [abs_of_pos (by omega)]; omega)
    rw [abs_of_nonpos (by omega : value false (r.intersectWith (negFilter w)).lower ≤ 0)] at habs
    have hle := neg_abs_le ((value false (r.intersectWith (negFilter w)).lower).tdiv
      (value false (rhs.intersectWith (posFilter w)).lower))
    omega

/-- The quotients of two negative parts are bounded by the last element the source finds, when
the overflowing quotient is not the only one. -/
theorem bounds_negDivNegRes (hw : 2 < w) (hdiv : Truncates div) (hr : r.Valid)
    (hrhs : rhs.Valid) {hi : ℤ}
    (hlast : ∀ u, PartOf false r (negFilter w) (r.intersectWith (negFilter w)) →
      PartOf false rhs (negFilter w) (rhs.intersectWith (negFilter w)) →
      NegNegLast r rhs (r.intersectWith (negFilter w)) (rhs.intersectWith (negFilter w)) div u →
      value false u ≤ hi ∧
        ¬(value false ((r.intersectWith (negFilter w)).upper - 1) = -2 ^ (w - 1) ∧
          value false (rhs.intersectWith (negFilter w)).lower = -1)) (v : SInt w)
    (hv : (negDivNegRes r rhs (r.intersectWith (negFilter w)) (rhs.intersectWith (negFilter w))
      div).contains v = true) : 0 ≤ value false v ∧ value false v ≤ hi := by
  have hw1 : 1 < w := by omega
  rcases negPart_cases hw1 hr with ⟨hL, -⟩ | ⟨hL, hpL⟩
  · rw [negDivNegRes, hL] at hv
    exact bounds_empty (by omega) v hv
  rcases negPart_cases hw1 hrhs with ⟨hR, -⟩ | ⟨hR, hpR⟩
  · rw [negDivNegRes, hR, Bool.not_true, Bool.and_false, if_neg Bool.false_ne_true] at hv
    exact bounds_empty (by omega) v hv
  obtain ⟨u, hu, hspans, -⟩ := spans_negDivNegRes hw hdiv hL hR hpL hpR
  obtain ⟨huHi, hnoEdge⟩ := hlast u hpL hpR hu
  have hnegL := (contains_negFilter_iff hw1 _).mp hpL.last_mem.2
  have hnegR := (contains_negFilter_iff hw1 _).mp hpR.last_mem.2
  have horderR := hpR.lower_le_last
  rw [hspans.2, hdiv _ _ hnoEdge] at hv
  refine ⟨?_, hv.2.trans huHi⟩
  exact (Int.tdiv_nonneg_of_nonpos_of_nonpos (by omega) (by omega)).trans hv.1

/-- The union of the two quadrants with a negative result. -/
theorem bounds_negRes (hw : 2 < w) (hdiv : Truncates div) (hr : r.Valid) (hrhs : rhs.Valid)
    (hside : ¬rhs.contains 1 = true ∨ ∀ x, r.contains x = true → value false x ≤ 0) (v : SInt w)
    (hv : ((posDivNegRes (r.intersectWith (posFilter w)) (rhs.intersectWith (negFilter w))
        div).unionWith
      (negDivPosRes (r.intersectWith (negFilter w)) (rhs.intersectWith (posFilter w))
        div)).contains v = true) :
    value false v ≤ 0 ∧ (¬rhs.contains 1 = true → -2 ^ (w - 1) + 1 ≤ value false v) := by
  have hw1 : 1 < w := by omega
  obtain ⟨-, hpn, hnp⟩ := valid_quadrants hw hdiv hr hrhs
  by_cases hone : rhs.contains 1 = true
  · refine ⟨?_, fun hnone => absurd hone hnone⟩
    have hnoPos := hside.resolve_left (not_not.mpr hone)
    rcases posPart_cases hw1 hr with ⟨hL, -⟩ | ⟨-, hpL⟩
    · rcases unionWith_spec hw1 hpn hnp .smallest with hexact | ⟨hapart, -⟩
      · rcases (hexact v).mp hv with h | h
        · exact (bounds_posDivNegRes hw hdiv hr hrhs v h).2
        · exact (bounds_negDivPosRes hw hdiv hr hrhs v h).1
      · exfalso
        apply hapart.bounds_ne
        rw [posDivNegRes, hL]
        rfl
    · have hpos := (contains_posFilter_iff hw1 _).mp hpL.lower_mem.2
      have := hnoPos _ hpL.lower_mem.1
      omega
  · have hwithin : Within false (-2 ^ (w - 1) + 1) 0
        (posDivNegRes (r.intersectWith (posFilter w)) (rhs.intersectWith (negFilter w)) div)
        (negDivPosRes (r.intersectWith (negFilter w)) (rhs.intersectWith (posFilter w)) div) := by
      intro t ht
      rcases ht with ht | ht
      · exact bounds_posDivNegRes hw hdiv hr hrhs t ht
      · have h := bounds_negDivPosRes hw hdiv hr hrhs t ht
        exact ⟨h.2 hone, h.1⟩
    have h := bounds_unionWith_smallest hw1 hpn hnp hwithin (by omega) hv
    exact ⟨h.2, fun _ => h.1⟩

/-- The quadrants stay below a bound of the non-negative ones. -/
theorem bounds_sDivQuadrants (hi : ℤ) (hw : 2 < w) (hdiv : Truncates div) (hr : r.Valid)
    (hrhs : rhs.Valid)
    (hside : ¬rhs.contains 1 = true ∨ ∀ x, r.contains x = true → value false x ≤ 0)
    (hhi : 0 ≤ hi ∧ hi < 2 ^ (w - 1))
    (hpp : ∀ v, (posDivPosRes (r.intersectWith (posFilter w)) (rhs.intersectWith (posFilter w))
      div).contains v = true → 0 ≤ value false v ∧ value false v ≤ hi)
    (hnn : ∀ v, (negDivNegRes r rhs (r.intersectWith (negFilter w))
      (rhs.intersectWith (negFilter w)) div).contains v = true →
        0 ≤ value false v ∧ value false v ≤ hi) (v : SInt w)
    (hv : (sDivQuadrants r rhs div).contains v = true) :
    value false v ≤ hi ∧ (¬rhs.contains 1 = true → -2 ^ (w - 1) + 1 ≤ value false v) := by
  have hw1 : 1 < w := by omega
  obtain ⟨⟨hppValid, hnnValid⟩, hpn, hnp⟩ := valid_quadrants hw hdiv hr hrhs
  have hposRes : ∀ t, ((posDivPosRes (r.intersectWith (posFilter w))
      (rhs.intersectWith (posFilter w)) div).unionWith (negDivNegRes r rhs
      (r.intersectWith (negFilter w)) (rhs.intersectWith (negFilter w)) div)).contains t = true →
      0 ≤ value false t ∧ value false t ≤ hi := by
    intro t ht
    refine bounds_unionWith_smallest hw1 hppValid hnnValid ?_ (by omega) ht
    intro t ht
    rcases ht with ht | ht
    · exact hpp t ht
    · exact hnn t ht
  have hnegRes := bounds_negRes hw hdiv hr hrhs hside
  have hnegValid := valid_unionWith hw1 .smallest hpn hnp
  have hposValid := valid_unionWith hw1 .smallest hppValid hnnValid
  by_cases hone : rhs.contains 1 = true
  · refine ⟨?_, fun hnone => absurd hone hnone⟩
    refine (bounds_unionWith hw1 hnegValid hposValid
      (show Within false (-2 ^ (w - 1)) hi _ _ from ?_) hv).2
    intro t ht
    refine ⟨(SInt.value_false_bounds t).1, ?_⟩
    rcases ht with ht | ht
    · exact (hnegRes t ht).1.trans hhi.1
    · exact (hposRes t ht).2
  · have hwithin := bounds_unionWith hw1 hnegValid hposValid
      (show Within false (-2 ^ (w - 1) + 1) hi _ _ from fun t ht => by
        rcases ht with ht | ht
        · exact ⟨(hnegRes t ht).2 hone, (hnegRes t ht).1.trans hhi.1⟩
        · have h := hposRes t ht
          exact ⟨by omega, h.2⟩) hv
    exact ⟨hwithin.2, fun _ => hwithin.1⟩

/-! ## Shapes of operands at the edge -/

/-- A range that holds the smallest value holds no other negative one. -/
def OnlyMinNegative (r : ConstantRange w) : Prop :=
  r.upper = SInt.sMinValue w + 1 ∧
    (value false r.lower = -2 ^ (w - 1) ∨ 0 ≤ value false r.lower)

theorem value_sMinValue_add_one (hw : 1 < w) :
    value false (SInt.sMinValue w + 1) = -2 ^ (w - 1) + 1 := by
  have hmin := SInt.value_false_sMinValue (show 0 < w by omega)
  have hhalf := two_le_half hw
  rw [value_add_one hw, hmin]
  rw [hmin, greatest_false]
  omega

theorem onlyMinNegative_iff (hw : 2 < w) {x : SInt w} (hx : r.contains x = true)
    (hmin : value false x = -2 ^ (w - 1)) :
    OnlyMinNegative r ↔
      ∀ v, r.contains v = true → value false v ≤ -1 → value false v = -2 ^ (w - 1) := by
  have hw1 : 1 < w := by omega
  have hwpos : 0 < w := by omega
  have hhalf := two_le_half hw1
  have hsucc := value_sMinValue_add_one hw1
  have hlow := SInt.value_false_bounds r.lower
  have hupp := SInt.value_false_bounds r.upper
  constructor
  · rintro ⟨hupper, hlower⟩ v hv hneg
    by_contra hne
    obtain ⟨hwraps, hle, -⟩ := wrapped_at_min hw hupper hv hne
    rw [hupper, hsucc] at hwraps
    omega
  · intro honly
    have hupper : value false r.upper = -2 ^ (w - 1) + 1 := by
      by_contra hne
      have hnext : r.contains (SInt.sMinValue w + 1) = true := by
        rw [contains_iff hwpos false] at hx ⊢
        rw [hsucc]
        rw [hmin] at hx
        rcases hx with hfull | hin
        · exact Or.inl hfull
        · exact Or.inr (by omega)
      have := honly _ hnext (by omega)
      omega
    have hupperWord : r.upper = SInt.sMinValue w + 1 :=
      value_injective false (by rw [hupper, hsucc])
    refine ⟨hupperWord, ?_⟩
    by_contra hlower
    rw [not_or, not_le] at hlower
    have hne : r.lower ≠ r.upper := by
      intro heq
      have hmem := hx
      rw [contains_iff hwpos false, isFullSet_iff hwpos, ← heq] at hmem
      have hmin' := SInt.value_true_sMinValue hwpos
      have hturn := two_pow_eq hwpos
      have hquarter : (4 : ℤ) ≤ 2 ^ (w - 1) := by
        calc (4 : ℤ) = 2 ^ 2 := by norm_num
          _ ≤ 2 ^ (w - 1) := pow_le_pow_right₀ (by norm_num) (by omega)
      have hsucc' : value true r.lower = 2 ^ (w - 1) + 1 := by
        rw [heq, hupperWord, value_add_one hw1, hmin']
        rw [hmin', greatest_true]
        omega
      omega
    have hwraps : value false r.upper < value false r.lower := by
      have hvalue : value false r.lower ≠ value false r.upper := fun h =>
        hne (value_injective false h)
      omega
    have hlowerMem : r.contains r.lower = true := by
      rw [contains_iff_of_gt hwpos _ hwraps]
      exact Or.inl le_rfl
    have := honly _ hlowerMem (by omega)
    omega

/-- A range holds no negative value but `-1`. -/
def OnlyNegOne (r : ConstantRange w) : Prop :=
  ∀ v, r.contains v = true → value false v ≤ -1 → value false v = -1

/-- A range without zero that holds `-1` holds no other negative value when it starts with
`-1`. -/
theorem lower_eq_neg_one_iff (hw : 1 < w) (hzero : ¬rhs.contains (SInt.zero w) = true)
    {y : SInt w} (hy : rhs.contains y = true) (hval : value false y = -1) :
    value false rhs.lower = -1 ↔ OnlyNegOne rhs := by
  have hwpos : 0 < w := by omega
  have hhalf := two_le_half hw
  have hzeroVal : value false (SInt.zero w) = 0 := value_zero false
  have hupper : value false rhs.upper = 0 := by
    rw [upper_eq_zero hw hzero hy hval, hzeroVal]
  have hnotFull : ¬rhs.isFullSet = true := fun h => hzero (contains_of_isFullSet h _)
  have hmem := contains_iff hwpos false rhs
  have hin := (hmem y).mp hy
  rw [or_iff_right hnotFull, hupper] at hin
  constructor
  · intro hlower v hv hneg
    have hv' := (hmem v).mp hv
    rw [or_iff_right hnotFull, hupper] at hv'
    omega
  · intro honly
    by_contra hlower
    have hlow := SInt.value_false_bounds rhs.lower
    have htwo : value false (BitVec.ofInt w (-2)) = -2 :=
      value_ofInt hwpos ⟨by rw [least_false]; omega, by rw [greatest_false]; omega⟩
    have hmemTwo : rhs.contains (BitVec.ofInt w (-2)) = true := by
      rw [hmem, or_iff_right hnotFull, hupper, htwo]
      omega
    have := honly _ hmemTwo (by omega)
    omega

/-- A range without zero that holds `-1` holds `1` exactly when it starts with it. -/
theorem lower_eq_one_iff (hw : 1 < w) (hzero : ¬rhs.contains (SInt.zero w) = true)
    {y : SInt w} (hy : rhs.contains y = true) (hval : value false y = -1) :
    value false rhs.lower = 1 ↔ rhs.contains 1 = true := by
  have hwpos : 0 < w := by omega
  have hone := value_one hw false
  have hzeroVal : value false (SInt.zero w) = 0 := value_zero false
  have hupper : value false rhs.upper = 0 := by
    rw [upper_eq_zero hw hzero hy hval, hzeroVal]
  have hnotFull : ¬rhs.isFullSet = true := fun h => hzero (contains_of_isFullSet h _)
  have hmem := contains_iff hwpos false rhs
  have hin := (hmem y).mp hy
  have hout := hzero
  rw [hmem, or_iff_right hnotFull, hupper, hzeroVal] at hout
  rw [or_iff_right hnotFull, hupper] at hin
  rw [hmem, or_iff_right hnotFull, hupper, hone]
  omega

/-! ## What the edge does to the negative quadrant -/

section Edge

variable {x y : SInt w}

/-- The negative parts of two operands that hold the smallest value and `-1`. -/
theorem negParts_of_edge (hw : 2 < w) (hx : r.contains x = true) (hy : rhs.contains y = true)
    (hmin : value false x = -2 ^ (w - 1)) (hval : value false y = -1)
    (hpL : PartOf false r (negFilter w) (r.intersectWith (negFilter w)))
    (hpR : PartOf false rhs (negFilter w) (rhs.intersectWith (negFilter w))) :
    value false (r.intersectWith (negFilter w)).lower = -2 ^ (w - 1) ∧
      value false ((rhs.intersectWith (negFilter w)).upper - 1) = -1 := by
  have hw1 : 1 < w := by omega
  have hhalf := two_le_half hw1
  have hbx := hpL.between x hx ((contains_negFilter_iff hw1 x).mpr (by omega))
  have hby := hpR.between y hy ((contains_negFilter_iff hw1 y).mpr (by omega))
  have hnegR := (contains_negFilter_iff hw1 _).mp hpR.last_mem.2
  have hbound := SInt.value_false_bounds (r.intersectWith (negFilter w)).lower
  omega

theorem last_negPart_eq_min_iff (hw : 2 < w) (hx : r.contains x = true)
    (hmin : value false x = -2 ^ (w - 1))
    (hpL : PartOf false r (negFilter w) (r.intersectWith (negFilter w))) :
    value false ((r.intersectWith (negFilter w)).upper - 1) = -2 ^ (w - 1) ↔
      OnlyMinNegative r := by
  have hw1 : 1 < w := by omega
  rw [onlyMinNegative_iff hw hx hmin]
  constructor
  · intro hlast v hv hneg
    have hbetween := hpL.between v hv ((contains_negFilter_iff hw1 v).mpr hneg)
    have hbound := SInt.value_false_bounds v
    omega
  · intro honly
    exact honly _ hpL.last_mem.1 ((contains_negFilter_iff hw1 _).mp hpL.last_mem.2)

theorem lower_negPart_eq_neg_one_iff (hw : 2 < w)
    (hpR : PartOf false rhs (negFilter w) (rhs.intersectWith (negFilter w))) :
    value false (rhs.intersectWith (negFilter w)).lower = -1 ↔ OnlyNegOne rhs := by
  have hw1 : 1 < w := by omega
  constructor
  · intro hlower v hv hneg
    have hbetween := hpR.between v hv ((contains_negFilter_iff hw1 v).mpr hneg)
    omega
  · intro honly
    exact honly _ hpR.lower_mem.1 ((contains_negFilter_iff hw1 _).mp hpR.lower_mem.2)

/-- The only quotient of two negative operands is the overflowing one, and the quadrant is built
from it. -/
theorem contains_edge_of_only (hw : 2 < w) (hdiv : Truncates div)
    (hx : r.contains x = true)
    (hy : rhs.contains y = true) (hmin : value false x = -2 ^ (w - 1))
    (hval : value false y = -1) (honlyR : OnlyNegOne rhs)
    (honly : OnlyMinNegative r) : (sDivImpl r rhs div).contains (div x y) = true := by
  have hw1 : 1 < w := by omega
  have hhalf := two_le_half hw1
  have hr := valid_of_contains hx
  have hrhs := valid_of_contains hy
  rcases negPart_cases hw1 hr with ⟨-, hnone⟩ | ⟨hL, hpL⟩
  · have := hnone x hx
    omega
  rcases negPart_cases hw1 hrhs with ⟨-, hnone⟩ | ⟨hR, hpR⟩
  · have := hnone y hy
    omega
  obtain ⟨hfirstL, hlastR⟩ := negParts_of_edge hw hx hy hmin hval hpL hpR
  have hlastL := (last_negPart_eq_min_iff hw hx hmin hpL).mpr honly
  have hfirstR := (lower_negPart_eq_neg_one_iff hw hpR).mpr honlyR
  obtain ⟨u, -, hspans, horder⟩ := spans_negDivNegRes hw hdiv hL hR hpL hpR
  have hwordL : (r.intersectWith (negFilter w)).upper - 1 = x :=
    value_injective false (by omega)
  have hwordR : (rhs.intersectWith (negFilter w)).lower = y := value_injective false (by omega)
  rw [hwordL, hwordR] at hspans horder
  exact contains_sDivImpl_of_quadrants hw hdiv hr hrhs
    (contains_sDivQuadrants hw hdiv hr hrhs
      (Or.inl (Or.inr ((hspans.2 _).mpr ⟨le_rfl, horder⟩))))

/-- The negative quadrant stays below a bound of the quotients the source falls back to. -/
theorem bounds_negDivNegRes_of_edge (hi : ℤ) (hw : 2 < w) (hdiv : Truncates div)
    (hx : r.contains x = true)
    (hy : rhs.contains y = true) (hmin : value false x = -2 ^ (w - 1))
    (hval : value false y = -1)
    (hmore : ¬(OnlyMinNegative r ∧ OnlyNegOne rhs))
    (hdivisor : OnlyMinNegative r → 2 ^ (w - 2) ≤ hi)
    (hdividend : r.upper ≠ SInt.sMinValue w + 1 → 2 ^ (w - 1) - 1 ≤ hi)
    (hwrapped : r.upper = SInt.sMinValue w + 1 → -2 ^ (w - 1) + 1 < value false r.lower →
      value false r.lower ≤ -1 → -value false r.lower ≤ hi) (v : SInt w)
    (hv : (negDivNegRes r rhs (r.intersectWith (negFilter w)) (rhs.intersectWith (negFilter w))
      div).contains v = true) : 0 ≤ value false v ∧ value false v ≤ hi := by
  refine bounds_negDivNegRes hw hdiv (valid_of_contains hx) (valid_of_contains hy) ?_ v hv
  intro u hpL hpR hlast
  obtain ⟨hfirstL, hlastR⟩ := negParts_of_edge hw hx hy hmin hval hpL hpR
  have honly := last_negPart_eq_min_iff hw hx hmin hpL
  have hstart := lower_negPart_eq_neg_one_iff hw hpR
  refine ⟨?_, fun h => hmore ⟨honly.mp h.1, hstart.mp h.2⟩⟩
  cases hlast with
  | regular noEdge value_eq => exact absurd ⟨hfirstL, hlastR⟩ noEdge
  | onlyEdge minL lastR onlyR eq => exact absurd ⟨honly.mp minL, hstart.mp onlyR⟩ hmore
  | dropDivisor minL lastR moreR value_eq =>
    have hhalf := half_eq (w := w) (by omega)
    rw [value_eq, Int.neg_tdiv_neg, hhalf, Int.mul_tdiv_cancel_left _ two_ne_zero]
    exact hdivisor (honly.mp minL)
  | dropDivisorWrapped minL lastR moreR upper_le rest value_eq =>
    have hhalf := half_eq (w := w) (by omega)
    have hpos : (0 : ℤ) < 2 ^ (w - 2) := by positivity
    have hbelow := tdiv_le_tdiv_neg_neg (a := -2 ^ (w - 1)) (by omega) le_rfl (by omega) upper_le
    rw [Int.neg_tdiv_neg, hhalf, Int.mul_tdiv_cancel_left _ two_ne_zero, ← hhalf] at hbelow
    rw [value_eq]
    exact hbelow.trans (hdivisor (honly.mp minL))
  | dropDividend minL lastR moreL upper_ne value_eq =>
    rw [value_eq]
    exact hdividend upper_ne
  | dropDividendWrapped minL lastR upper_eq lower_gt lower_neg lower_le rest value_eq =>
    rw [value_eq]
    exact hwrapped upper_eq lower_gt lower_neg

/-- Without the divisor `1` no quotient of positive values reaches half of the range. -/
theorem bounds_posDivPosRes_of_not_one (hw : 2 < w) (hdiv : Truncates div) (hr : r.Valid)
    (hrhs : rhs.Valid) (hone : ¬rhs.contains 1 = true) (v : SInt w)
    (hv : (posDivPosRes (r.intersectWith (posFilter w)) (rhs.intersectWith (posFilter w))
      div).contains v = true) : 0 ≤ value false v ∧ value false v ≤ 2 ^ (w - 2) - 1 := by
  have hw1 : 1 < w := by omega
  refine bounds_posDivPosRes hw hdiv hr hrhs ?_ v hv
  intro a b ha hb hapos hbpos
  have hval := value_one hw1 false
  have hbound := SInt.value_false_bounds a
  have hhalf := half_eq hw1
  have hbmore : value false b ≠ 1 := by
    intro heq
    have hword : b = 1 := value_injective false (by rw [heq, hval])
    exact hone (hword ▸ hb)
  have habs := two_mul_abs_tdiv_le (a := value false a) (b := value false b)
    (by rw [abs_of_pos (by omega)]; omega)
  rw [abs_of_nonneg (by omega : 0 ≤ value false a),
    abs_of_nonneg (Int.tdiv_nonneg (by omega) (by omega))] at habs
  omega

end Edge

/-! ## Exactly when the quotients are held -/

/-- The operands hold the smallest value and `-1`. -/
def MeetsEdge (r rhs : ConstantRange w) : Prop :=
  (∃ x, r.contains x = true ∧ value false x = -2 ^ (w - 1)) ∧
    ∃ y, rhs.contains y = true ∧ value false y = -1

theorem two_le_quarter (hw : 2 < w) : (2 : ℤ) ≤ 2 ^ (w - 2) := by
  calc (2 : ℤ) = 2 ^ 1 := by norm_num
    _ ≤ 2 ^ (w - 2) := pow_le_pow_right₀ (by norm_num) (by omega)

/-- A range that ends with the smallest value holds it. -/
theorem contains_sMinValue_of_upper (hw : 2 < w) (hr : r.Valid)
    (hupper : r.upper = SInt.sMinValue w + 1) : r.contains (SInt.sMinValue w) = true := by
  have hw1 : 1 < w := by omega
  have hwpos : 0 < w := by omega
  have hhalf := half_eq hw1
  have hquarter := two_le_quarter hw
  have hsucc := value_sMinValue_add_one hw1
  have hmin := SInt.value_false_sMinValue hwpos
  have hbound := SInt.value_false_bounds r.lower
  have hne : value false r.lower ≠ -2 ^ (w - 1) + 1 := by
    intro heq
    have hword : r.lower = r.upper := value_injective false (by rw [heq, hupper, hsucc])
    rcases hr hword with h | h
    · rw [SInt.isUMaxValue_iff] at h
      have hvalue := congrArg (value false) h
      rw [SInt.value_false_uMaxValue hwpos] at hvalue
      omega
    · rw [SInt.isUMinValue_iff] at h
      have hvalue := congrArg (value false) h
      rw [show value false (SInt.uMinValue w) = 0 from value_zero false] at hvalue
      omega
  rw [contains_iff hwpos false, hupper, hsucc, hmin]
  omega

/-- Operands whose largest quotients are lost meet the edge. -/
theorem edge_of_losesLargeQuotients (hw : 2 < w) (hloses : LosesLargeQuotients r rhs) :
    MeetsEdge r rhs := by
  have hsucc := value_sMinValue_add_one (w := w) (by omega)
  have hhalf := half_eq (w := w) (by omega)
  have hquarter := two_le_quarter hw
  obtain ⟨hupper, hlow, -, hminusOne, -⟩ := hloses
  have hr : r.Valid := valid_of_value_ne false (by rw [hupper, hsucc]; omega)
  exact ⟨⟨SInt.sMinValue w, contains_sMinValue_of_upper hw hr hupper,
    SInt.value_false_sMinValue (by omega)⟩, _, hminusOne, (value_neg_one_two hw).1⟩

/-- In the losing shape the quotient of the smallest value by `-2` is missing. -/
theorem not_contains_of_losesLargeQuotients (hw : 2 < w) (hdiv : Truncates div) (hr : r.Valid)
    (hrhs : rhs.Valid) (hloses : LosesLargeQuotients r rhs) {v : SInt w}
    (hv : value false v = 2 ^ (w - 2)) : ¬(sDivImpl r rhs div).contains v = true := by
  have hw1 : 1 < w := by omega
  have hhalf := half_eq hw1
  have hquarter := two_le_quarter hw
  obtain ⟨⟨x, hx, hmin⟩, y, hy, hval⟩ := edge_of_losesLargeQuotients hw hloses
  obtain ⟨hupper, hlow, hneg, -, -, hone⟩ := hloses
  have hnotOnly : ¬OnlyMinNegative r := by
    rintro ⟨-, h⟩
    omega
  have hquadrants := bounds_sDivQuadrants (2 ^ (w - 2) - 1) hw hdiv hr hrhs
    (Or.inl hone) (by omega) (bounds_posDivPosRes_of_not_one hw hdiv hr hrhs hone)
    (bounds_negDivNegRes_of_edge _ hw hdiv hx hy hmin hval (fun h => hnotOnly h.1)
      (fun h => absurd h hnotOnly) (fun h => absurd hupper h) (fun _ _ _ => by omega))
  intro hmem
  have hbounds := bounds_sDivImpl _ _ hw (valid_sDivQuadrants hw hdiv hr hrhs)
    (fun t ht => ⟨(hquadrants t ht).2 hone, (hquadrants t ht).1⟩) (by omega) (by omega)
    (by omega) (Or.inl (by omega)) hmem
  omega

/-- Every quotient but the overflowing one is held exactly when no quotients are lost. -/
theorem sDivImpl_held_iff (hw : 2 < w) (hdiv : Truncates div) (hr : r.Valid) (hrhs : rhs.Valid) :
    (∀ x y, r.contains x = true → rhs.contains y = true → value false y ≠ 0 →
      ¬(value false x = -2 ^ (w - 1) ∧ value false y = -1) →
        (sDivImpl r rhs div).contains (div x y) = true) ↔ ¬LosesLargeQuotients r rhs := by
  constructor
  · intro hall hloses
    obtain ⟨⟨x, hx, hmin⟩, -⟩ := edge_of_losesLargeQuotients hw hloses
    have hval := (value_neg_one_two hw).2
    have hedge : ¬(value false x = -2 ^ (w - 1) ∧ value false (BitVec.ofInt w (-2)) = -1) := by
      omega
    refine not_contains_of_losesLargeQuotients hw hdiv hr hrhs hloses ?_
      (hall x _ hx hloses.2.2.2.2.1 (by omega) hedge)
    rw [hdiv x _ hedge, hmin, hval, Int.neg_tdiv_neg, half_eq (by omega),
      Int.mul_tdiv_cancel_left _ two_ne_zero]
  · intro hkeep x y hx hy hyne hedge
    exact contains_sDivImpl hw hdiv hx hy hyne hedge hkeep

/-- The overflowing quotient wraps around to the dividend. -/
theorem sDiv_edge (hw : 0 < w) {x y : SInt w} (hmin : value false x = -2 ^ (w - 1))
    (hval : value false y = -1) : SInt.sDiv x y = x := by
  rw [SInt.sDiv_eq_ofInt, hmin, hval, Int.tdiv_neg, Int.tdiv_one, neg_neg]
  have hturn : (2 : ℤ) ^ (w - 1) = value false x + 2 ^ w := by
    rw [hmin, two_pow_eq hw]
    ring
  rw [hturn, ofInt_add_two_pow, ofInt_value]

/-- The overflowing quotient saturates at the largest value. -/
theorem value_sDivSat_edge (hw : 1 < w) {x y : SInt w} (hmin : value false x = -2 ^ (w - 1))
    (hval : value false y = -1) : value false (SInt.sDivSat x y) = 2 ^ (w - 1) - 1 := by
  rw [SInt.value_sDivSat hw, hmin, hval, Int.tdiv_neg, Int.tdiv_one, neg_neg]
  have hgreatest := greatest_false w
  have hleast := least_lt_greatest (show 0 < w by omega) false
  rw [clamp, hgreatest]
  omega

/-- The dividends end with the smallest value, the divisors hold `-1`, and neither the quotients by
`1` nor the overflowing quotient alone make up for the one that is dropped. -/
def LosesSaturatedQuotient (r rhs : ConstantRange w) : Prop :=
  r.upper = SInt.sMinValue w + 1 ∧ rhs.contains (BitVec.ofInt w (-1)) = true ∧
    (rhs.contains 1 = true → r.lower = SInt.sMinValue w) ∧
      ¬(OnlyMinNegative r ∧ OnlyNegOne rhs)

theorem contains_sDivSat_edge (hw : 2 < w)
    {x y : SInt w} (hx : r.contains x = true) (hy : rhs.contains y = true)
    (hmin : value false x = -2 ^ (w - 1)) (hval : value false y = -1)
    (hupper : r.upper ≠ SInt.sMinValue w + 1) :
    (sDivSat r rhs).contains (SInt.sDivSat x y) = true := by
  have hw1 : 1 < w := by omega
  have hr := valid_of_contains hx
  have hrhs := valid_of_contains hy
  have hdiv := truncates_sDivSat hw1
  have hhalf := two_le_half hw1
  rcases negPart_cases hw1 hr with ⟨-, hnone⟩ | ⟨hL, hpL⟩
  · have := hnone x hx
    omega
  rcases negPart_cases hw1 hrhs with ⟨-, hnone⟩ | ⟨hR, hpR⟩
  · have := hnone y hy
    omega
  obtain ⟨hfirstL, hlastR⟩ := negParts_of_edge hw hx hy hmin hval hpL hpR
  have honly := last_negPart_eq_min_iff hw hx hmin hpL
  have hnotOnly : ¬OnlyMinNegative r := fun h => hupper h.1
  have hquot := value_sDivSat_edge hw1 hmin hval
  obtain ⟨u, hlast, hspans, horder⟩ := spans_negDivNegRes hw hdiv hL hR hpL hpR
  refine contains_sDivImpl_of_quadrants hw hdiv hr hrhs
    (contains_sDivQuadrants hw hdiv hr hrhs (Or.inl (Or.inr ((hspans.2 _).mpr ?_))))
  cases hlast with
  | regular noEdge value_eq => exact absurd ⟨hfirstL, hlastR⟩ noEdge
  | onlyEdge minL lastR onlyR eq => exact absurd (honly.mp minL) hnotOnly
  | dropDivisor minL lastR moreR value_eq => exact absurd (honly.mp minL) hnotOnly
  | dropDivisorWrapped minL lastR moreR upper_le rest value_eq =>
    exact absurd (honly.mp minL) hnotOnly
  | dropDividend minL lastR moreL upper_ne value_eq => omega
  | dropDividendWrapped minL lastR upper_eq lower_gt lower_neg lower_le rest value_eq =>
    exact absurd upper_eq hupper

/-- The largest value is a quotient by `1` when the dividends pass it on their way to the smallest
one. -/
theorem contains_sDivSat_edge_of_one (hw : 2 < w) (hr : r.Valid) (hrhs : rhs.Valid) {x y : SInt w}
    (hmin : value false x = -2 ^ (w - 1)) (hval : value false y = -1)
    (hupper : r.upper = SInt.sMinValue w + 1) (hone : rhs.contains 1 = true)
    (hlower : r.lower ≠ SInt.sMinValue w) :
    (sDivSat r rhs).contains (SInt.sDivSat x y) = true := by
  have hw1 : 1 < w := by omega
  have hwpos : 0 < w := by omega
  have hhalf := half_eq hw1
  have hquarter := two_le_quarter hw
  have hdiv := truncates_sDivSat hw1
  have honeVal := value_one hw1 false
  have hmaxVal := SInt.value_false_sMaxValue hwpos
  have hminVal := SInt.value_false_sMinValue hwpos
  have hsucc := value_sMinValue_add_one hw1
  have hbound := SInt.value_false_bounds r.lower
  have hbot := contains_sMinValue_of_upper hw hr hupper
  have hne : value false r.lower ≠ -2 ^ (w - 1) := fun h =>
    hlower (value_injective false (by rw [h, hminVal]))
  have hmax : r.contains (SInt.sMaxValue w) = true := by
    rw [contains_iff hwpos false, hupper, hsucc, hminVal] at hbot
    rw [contains_iff hwpos false, hupper, hsucc, hmaxVal]
    refine hbot.imp_right fun _ => ?_
    omega
  have hmem := contains_sDivImpl_of_quadrants hw hdiv hr hrhs
    (contains_pos_div_pos hw hdiv hr hrhs hmax hone (by omega) (by omega))
  have hsame : SInt.sDivSat (SInt.sMaxValue w) 1 = SInt.sDivSat x y := by
    apply value_injective false
    rw [hdiv _ _ (by omega), honeVal, Int.tdiv_one, hmaxVal, value_sDivSat_edge hw1 hmin hval]
  rwa [hsame] at hmem

/-- In the losing shape all quotients stay below the largest value. -/
theorem not_contains_of_losesSaturatedQuotient (hw : 2 < w) (hr : r.Valid) (hrhs : rhs.Valid)
    (hloses : LosesSaturatedQuotient r rhs) {v : SInt w} (hv : value false v = 2 ^ (w - 1) - 1) :
    ¬(sDivSat r rhs).contains v = true := by
  have hw1 : 1 < w := by omega
  have hwpos : 0 < w := by omega
  have hhalf := half_eq hw1
  have hquarter := two_le_quarter hw
  have hdiv := truncates_sDivSat hw1
  have hvalid := valid_sDivQuadrants hw hdiv hr hrhs
  have hmin := SInt.value_false_sMinValue hwpos
  have hval := (value_neg_one_two hw).1
  obtain ⟨hupper, hy, hfirst, hmore⟩ := hloses
  have hx := contains_sMinValue_of_upper hw hr hupper
  have hnn := bounds_negDivNegRes_of_edge (2 ^ (w - 1) - 2) hw hdiv hx hy hmin hval
    hmore (fun _ => by omega) (fun h => absurd hupper h) (fun _ _ _ => by omega)
  intro hmem
  by_cases hone : rhs.contains 1 = true
  · -- the dividends are the smallest value alone
    have hlower : value false r.lower = -2 ^ (w - 1) := by rw [hfirst hone, hmin]
    have hsucc := value_sMinValue_add_one hw1
    have hsingle : ∀ a, r.contains a = true → value false a = -2 ^ (w - 1) := by
      intro a ha
      rw [contains_iff_of_lt hwpos false (by rw [hupper]; omega), hupper] at ha
      have hbound := SInt.value_false_bounds a
      omega
    have hquadrants := bounds_sDivQuadrants (2 ^ (w - 1) - 2) hw hdiv hr hrhs
      (Or.inr (fun a ha => by have := hsingle a ha; omega)) (by omega)
      (bounds_posDivPosRes hw hdiv hr hrhs (fun a b ha _ hapos _ => by
        have := hsingle a ha
        omega))
      hnn
    obtain ⟨z, hz, hzneg, hzval⟩ : ∃ z, rhs.contains z = true ∧ value false z ≤ -1 ∧
        value false z ≠ -1 := by
      by_contra hnone
      refine hmore ⟨⟨hupper, Or.inl hlower⟩, fun z hz hneg => ?_⟩
      by_contra hne
      exact hnone ⟨z, hz, hneg, hne⟩
    have hsome : ∃ v, (sDivQuadrants r rhs SInt.sDivSat).contains v = true ∧
        0 ≤ value false v := by
      refine ⟨_, contains_sDivQuadrants_div hw hdiv hx hz (by omega) (by omega) (by omega)
        (fun h => h.2.2.2.2.2 hone), ?_⟩
      rw [hdiv _ _ (by omega), hmin]
      exact Int.tdiv_nonneg_of_nonpos_of_nonpos (by omega) (by omega)
    have hbounds := bounds_sDivImpl (-2 ^ (w - 1)) (2 ^ (w - 1) - 2) hw hvalid
      (fun t ht => ⟨(SInt.value_false_bounds t).1, (hquadrants t ht).1⟩) (by omega) (by omega)
      (by omega) (Or.inr hsome) hmem
    omega
  · have hquadrants := bounds_sDivQuadrants (2 ^ (w - 1) - 2) hw hdiv hr hrhs
      (Or.inl hone) (by omega)
      (fun v hv => by
        have h := bounds_posDivPosRes_of_not_one hw hdiv hr hrhs hone v hv
        omega)
      hnn
    have hbounds := bounds_sDivImpl _ _ hw hvalid
      (fun t ht => ⟨(hquadrants t ht).2 hone, (hquadrants t ht).1⟩) (by omega) (by omega)
      (by omega) (Or.inl (by omega)) hmem
    omega

/-- The saturated quotient is held at the edge exactly when it is not lost. -/
theorem sDivSat_edge_held_iff (hw : 2 < w) {x y : SInt w} (hx : r.contains x = true)
    (hy : rhs.contains y = true) (hmin : value false x = -2 ^ (w - 1))
    (hval : value false y = -1) :
    (sDivSat r rhs).contains (SInt.sDivSat x y) = true ↔ ¬LosesSaturatedQuotient r rhs := by
  have hr := valid_of_contains hx
  have hrhs := valid_of_contains hy
  constructor
  · intro hmem hloses
    exact not_contains_of_losesSaturatedQuotient hw hr hrhs hloses
      (value_sDivSat_edge (by omega) hmin hval) hmem
  · intro hkeep
    by_cases hupper : r.upper = SInt.sMinValue w + 1
    swap
    · exact contains_sDivSat_edge hw hx hy hmin hval hupper
    by_cases honly : OnlyMinNegative r ∧ OnlyNegOne rhs
    · exact contains_edge_of_only hw (truncates_sDivSat (by omega)) hx hy hmin hval honly.2 honly.1
    by_cases hone : rhs.contains 1 = true ∧ r.lower ≠ SInt.sMinValue w
    · exact contains_sDivSat_edge_of_one hw hr hrhs hmin hval hupper hone.1 hone.2
    have hword : y = BitVec.ofInt w (-1) :=
      value_injective false (by rw [hval, (value_neg_one_two hw).1])
    refine absurd ⟨hupper, hword ▸ hy, fun h => ?_, honly⟩ hkeep
    by_contra hlower
    exact hone ⟨h, hlower⟩

/-- A shape that loses the largest quotients loses the saturated one. -/
theorem losesSaturatedQuotient_of_large (hw : 2 < w) (hloses : LosesLargeQuotients r rhs) :
    LosesSaturatedQuotient r rhs := by
  have hhalf := half_eq (w := w) (by omega)
  have hquarter := two_le_quarter hw
  obtain ⟨hupper, hlow, hneg, hminusOne, -, hone⟩ := hloses
  refine ⟨hupper, hminusOne, fun h => absurd h hone, ?_⟩
  rintro ⟨⟨-, hlower⟩, -⟩
  omega

/-- The signed quotients of the elements of two ranges are in the computed range, but for the
quotient that overflows. -/
def SDivSound (L R : ConstantRange w) : Prop :=
  ∀ l r, L.contains l = true → R.contains r = true → r ≠ 0 →
    ¬(value false l = least w false ∧ value false r = -1) →
      (L.sDiv R).contains (BitVec.ofInt w ((value false l).tdiv (value false r))) = true

/-- The signed quotients of the elements of two ranges, clamped to the width, are in the computed
range. -/
def SDivSatSound (L R : ConstantRange w) : Prop :=
  ∀ l r, L.contains l = true → R.contains r = true → r ≠ 0 →
    (L.sDivSat R).contains (BitVec.ofInt w
      (clamp w false ((value false l).tdiv (value false r)))) = true

theorem value_false_ne_zero {v : SInt w} (hv : v ≠ 0) : value false v ≠ 0 := fun h =>
  hv (value_injective false (by rw [h]; exact (value_zero _).symm))

/-- The signed division is sound exactly when no quotients are lost, and the saturating division
exactly when the saturated quotient is not lost. -/
theorem sDiv_sound_iff (width : IntWidth) (L R : ConstantRange width.bits) (hL : L.Valid)
    (hR : R.Valid) :
    (SDivSound L R ↔ ¬LosesLargeQuotients L R) ∧
      (SDivSatSound L R ↔ ¬LosesSaturatedQuotient L R) := by
  have hw := width.two_lt_bits
  have hw1 : 1 < width.bits := by omega
  have hwpos : 0 < width.bits := by omega
  constructor
  · rw [← sDivImpl_held_iff hw (truncates_sDiv hwpos) hL hR]
    simp only [SDivSound, ← SInt.sDiv_eq_ofInt, least_false]
    constructor
    · intro hsound x y hx hy hyne hedge
      refine hsound x y hx hy (fun h => hyne ?_) hedge
      rw [h]
      exact value_zero false
    · intro hheld l r hl hr hne hedge
      exact hheld l r hl hr (value_false_ne_zero hne) hedge
  · simp only [SDivSatSound, ← SInt.value_sDivSat hw1, ofInt_value]
    constructor
    · intro hsound hloses
      have hval := (value_neg_one_two hw).1
      have hne : BitVec.ofInt width.bits (-1) ≠ 0 := by
        intro h
        rw [h, show value false (0 : SInt width.bits) = 0 from value_zero false] at hval
        omega
      have hmin := SInt.value_false_sMinValue hwpos
      have hx := contains_sMinValue_of_upper hw hL hloses.1
      exact (sDivSat_edge_held_iff hw hx hloses.2.1 hmin hval).mp (hsound _ _ hx hloses.2.1 hne)
        hloses
    · intro hkeep l r hl hr hne
      by_cases hedge : value false l = -2 ^ (width.bits - 1) ∧ value false r = -1
      · exact (sDivSat_edge_held_iff hw hl hr hedge.1 hedge.2).mpr hkeep
      · exact contains_sDivImpl hw (truncates_sDivSat hw1) hl hr (value_false_ne_zero hne) hedge
          fun h => hkeep (losesSaturatedQuotient_of_large hw h)

/-- Dividends that run around both ends of the signed bytes, and divisors that hold zero. -/
theorem sDiv_sound_wrapped :
    SDivSound (⟨100, -100⟩ : ConstantRange IntWidth.I8.bits) ⟨-3, 4⟩ ∧
      SDivSatSound (⟨100, -100⟩ : ConstantRange IntWidth.I8.bits) ⟨-3, 4⟩ := by
  obtain ⟨hdiv, hsat⟩ := sDiv_sound_iff .I8 ⟨100, -100⟩ ⟨-3, 4⟩ (by decide) (by decide)
  exact ⟨hdiv.mpr fun h => absurd h.1 (by decide), hsat.mpr fun h => absurd h.1 (by decide)⟩

/-- The bytes from `-10` up to the largest one and then `-128`, divided by `-5` to `-1`: the source
bounds the quotients by `-10 / -1`, and `-128 / -2` is none of them. -/
theorem sDiv_not_sound :
    ¬∀ (width : IntWidth) (L R : ConstantRange width.bits), L.Valid → R.Valid →
      SDivSound L R ∧ SDivSatSound L R := by
  intro hsound
  have hquot := (hsound .I8 ⟨-10, -127⟩ ⟨-5, 0⟩ (by decide) (by decide)).1 (-128) (-2)
    (by decide) (by decide) (by decide) (by decide)
  exact absurd hquot (by decide)

/-! ## Divisors without zero -/

theorem losesQuotients_iff (hw : 2 < w) (hzero : ¬rhs.contains (SInt.zero w) = true) :
    LosesQuotients r rhs ↔ LosesLargeQuotients r rhs := by
  have hw1 : 1 < w := by omega
  have hwpos : 0 < w := by omega
  have hhalf := two_le_half hw1
  have honeVal := value_one hw1 false
  have hzeroVal : value false (SInt.zero w) = 0 := value_zero false
  obtain ⟨hminusOne, hminusTwo⟩ := value_neg_one_two hw
  have hbound := SInt.value_false_bounds rhs.lower
  have hnotFull : ¬rhs.isFullSet = true := fun h => hzero (contains_of_isFullSet h _)
  have hmem := contains_iff hwpos false rhs
  simp only [or_iff_right hnotFull] at hmem
  have hout := hzero
  rw [hmem, hzeroVal] at hout
  have hsame : rhs.contains (BitVec.ofInt w (-1)) = true ∧
      rhs.contains (BitVec.ofInt w (-2)) = true ∧ ¬rhs.contains 1 = true ↔
      rhs.upper = SInt.zero w ∧ value false rhs.lower ≠ -1 ∧ value false rhs.lower ≠ 0 ∧
        value false rhs.lower ≠ 1 := by
    rw [hmem, hmem, hmem, hminusOne, hminusTwo, honeVal, SInt.eq_iff_value_eq false, hzeroVal]
    omega
  rw [LosesQuotients, LosesLargeQuotients, hsame]

theorem ne_zero_of_contains (hzero : ¬rhs.contains (SInt.zero w) = true) {y : SInt w}
    (hy : rhs.contains y = true) : value false y ≠ 0 := by
  intro h
  have hyWord : y = SInt.zero w := value_injective false (by rw [h]; exact (value_zero _).symm)
  exact hzero (hyWord ▸ hy)

/-- Every quotient by divisors without zero but the overflowing one is held exactly when no
quotients are lost. -/
theorem forall_contains_sDivImpl_iff (hw : 2 < w) (hdiv : Truncates div) (hr : r.Valid)
    (hrhs : rhs.Valid) (hzero : ¬rhs.contains (SInt.zero w) = true) :
    (∀ x y, r.contains x = true → rhs.contains y = true →
      ¬(value false x = -2 ^ (w - 1) ∧ value false y = -1) →
        (sDivImpl r rhs div).contains (div x y) = true) ↔ ¬LosesQuotients r rhs := by
  rw [losesQuotients_iff hw hzero, ← sDivImpl_held_iff hw hdiv hr hrhs]
  refine forall₂_congr fun x y => forall₂_congr fun _ hy => (imp_iff_right ?_).symm
  exact ne_zero_of_contains hzero hy

/-- At the edge, the wrapped quotient is held in two shapes only. -/
def HoldsWrappedQuotient (r rhs : ConstantRange w) : Prop :=
  value false rhs.lower = 1 ∨ (value false rhs.lower = -1 ∧ OnlyMinNegative r)

theorem contains_sDiv_edge_iff (hw : 2 < w) (hzero : ¬rhs.contains (SInt.zero w) = true)
    {x y : SInt w} (hx : r.contains x = true) (hy : rhs.contains y = true)
    (hmin : value false x = -2 ^ (w - 1)) (hval : value false y = -1) :
    (sDiv r rhs).contains x = true ↔ HoldsWrappedQuotient r rhs := by
  have hw1 : 1 < w := by omega
  have hwpos : 0 < w := by omega
  have hhalf := two_le_half hw1
  have hr := valid_of_contains hx
  have hrhs := valid_of_contains hy
  have hdiv := truncates_sDiv hwpos
  have honeVal := value_one hw1 false
  have hstart := lower_eq_one_iff hw1 hzero hy hval
  have honlyR := lower_eq_neg_one_iff hw1 hzero hy hval
  constructor
  · intro hmem
    by_contra hneither
    rw [HoldsWrappedQuotient, not_or, hstart] at hneither
    obtain ⟨hone, hmore⟩ := hneither
    rw [honlyR, and_comm] at hmore
    have hquadrants := bounds_sDivQuadrants (2 ^ (w - 1) - 1) hw hdiv hr hrhs
      (Or.inl hone) (by omega)
      (bounds_posDivPosRes hw hdiv hr hrhs (fun a b ha _ hapos hbpos => by
        have hbound := SInt.value_false_bounds a
        have hle := Int.tdiv_le_self (a := value false a) (value false b) (by omega)
        omega))
      (bounds_negDivNegRes_of_edge _ hw hdiv hx hy hmin hval hmore
        (fun _ => by have := half_eq hw1; omega) (fun _ => le_rfl) (fun _ _ _ => by omega))
    have hbounds := bounds_sDivImpl _ _ hw (valid_sDivQuadrants hw hdiv hr hrhs)
      (fun t ht => ⟨(hquadrants t ht).2 hone, (hquadrants t ht).1⟩) (by omega) (by omega)
      (by omega) (Or.inl (by omega)) hmem
    omega
  · rintro (hlower | ⟨hlower, honly⟩)
    · have hone := hstart.mp hlower
      have hquot := contains_sDivImpl_of_quadrants hw hdiv hr hrhs
        (contains_neg_div_pos hw hdiv hr hrhs hx hone (by omega) (by omega))
      have hsame : SInt.sDiv x 1 = x := by
        apply value_injective false
        rw [hdiv _ _ (by omega), honeVal, Int.tdiv_one]
      rwa [hsame] at hquot
    · have hquot := contains_edge_of_only hw hdiv hx hy hmin hval (honlyR.mp hlower) honly
      rwa [sDiv_edge hwpos hmin hval] at hquot

/-- At the edge, the saturated quotient is missing only when the dividends end with the smallest
value. -/
def HoldsSaturatedQuotient (r rhs : ConstantRange w) : Prop :=
  r.upper ≠ SInt.sMinValue w + 1 ∨
    (value false rhs.lower = 1 ∧ value false r.lower ≠ -2 ^ (w - 1)) ∨
    (value false rhs.lower = -1 ∧ OnlyMinNegative r)

theorem contains_sDivSat_edge_iff (hw : 2 < w) (hzero : ¬rhs.contains (SInt.zero w) = true)
    {x y : SInt w} (hx : r.contains x = true) (hy : rhs.contains y = true)
    (hmin : value false x = -2 ^ (w - 1)) (hval : value false y = -1) :
    (sDivSat r rhs).contains (SInt.sDivSat x y) = true ↔ HoldsSaturatedQuotient r rhs := by
  have hw1 : 1 < w := by omega
  have hword : y = BitVec.ofInt w (-1) :=
    value_injective false (by rw [hval, (value_neg_one_two hw).1])
  have hlower : r.lower = SInt.sMinValue w ↔ value false r.lower = -2 ^ (w - 1) := by
    rw [SInt.eq_iff_value_eq false, SInt.value_false_sMinValue (by omega)]
  rw [sDivSat_edge_held_iff hw hx hy hmin hval, LosesSaturatedQuotient, HoldsSaturatedQuotient,
    lower_eq_one_iff hw1 hzero hy hval, lower_eq_neg_one_iff hw1 hzero hy hval, hlower]
  have hminusOne : rhs.contains (BitVec.ofInt w (-1)) = true := hword ▸ hy
  tauto

end Cangjie.CHIR.ConstantRange
