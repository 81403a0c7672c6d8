import CangjieCompiler.CHIR.Analysis.ConstantRange.Membership

/-!
# Intersection and union of circular ranges

The intersection of two ranges may fall apart into two pieces and their union may leave a gap;
in both cases the source settles for an enclosing range chosen by a preference.  What the
soundness of the analysis needs is stated first: the intersection keeps every common element and
the union keeps every element.  The intersection is moreover exact when one of the two readings
takes both ranges for intervals, which is what the conversions between integer types rely on.
-/

namespace Cangjie.CHIR.ConstantRange

open FixedWidth

variable {w : ℕ}

/-- A preference chooses one of the two candidates. -/
theorem getPreferredRange_eq_or (a b : ConstantRange w) (type : PreferredRangeType) :
    getPreferredRange a b type = a ∨ getPreferredRange a b type = b := by
  have hsmaller : (if a.isSizeStrictlySmallerThan b then a else b) = a ∨
      (if a.isSizeStrictlySmallerThan b then a else b) = b := by
    split_ifs
    · exact Or.inl rfl
    · exact Or.inr rfl
  cases type
  · exact hsmaller
  · simp only [getPreferredRange]
    split_ifs <;> tauto
  · simp only [getPreferredRange]
    split_ifs <;> tauto

/-! ## Intersection -/

/-- What an intersection may be: exact, or the preferred one of the two ranges when each of them
starts inside the other. -/
def IntersectionOf (r rhs : ConstantRange w) (type : PreferredRangeType)
    (res : ConstantRange w) : Prop :=
  (∀ v, res.contains v = true ↔ r.contains v = true ∧ rhs.contains v = true) ∨
    (res = getPreferredRange r rhs type ∨ res = getPreferredRange rhs r type) ∧ rhs.contains r.lower = true ∧ r.contains rhs.lower = true ∧
      r.lower ≠ rhs.lower ∧ ¬r.isFullSet = true ∧ ¬rhs.isFullSet = true

theorem intersectBothUnwrapped_spec (hw : 0 < w) {r rhs : ConstantRange w}
    (type : PreferredRangeType) (hr : value true r.lower < value true r.upper)
    (hrhs : value true rhs.lower < value true rhs.upper) :
    IntersectionOf r rhs type (intersectBothUnwrapped r rhs) := by
  left
  intro v
  have hempty := not_contains_empty hw v
  have hmem := contains_iff_of_lt hw _ hr v
  have hmemRhs := contains_iff_of_lt hw _ hrhs v
  simp only [intersectBothUnwrapped, SInt.ult_iff, SInt.ule_iff]
  split_ifs with hlower hdisjoint hupper hdisjoint hupper
  · refine iff_of_false hempty ?_
    rw [hmem, hmemRhs]
    omega
  · rw [contains_iff_of_lt hw true (by dsimp only; omega), hmem, hmemRhs]
    dsimp only
    omega
  · rw [hmem, hmemRhs]
    omega
  · refine iff_of_false hempty ?_
    rw [hmem, hmemRhs]
    omega
  · rw [contains_iff_of_lt hw true (by dsimp only; omega), hmem, hmemRhs]
    dsimp only
    omega
  · rw [hmem, hmemRhs]
    omega

theorem intersectWrappedWithUnwrapped_spec (hw : 0 < w) {r rhs : ConstantRange w}
    (type : PreferredRangeType) (hr : value true r.upper < value true r.lower)
    (hrhs : value true rhs.lower < value true rhs.upper) :
    IntersectionOf r rhs type (intersectWrappedWithUnwrapped r rhs type) := by
  have hempty := not_contains_empty hw (w := w)
  have hmem := contains_iff_of_gt hw _ hr
  have hmemRhs := contains_iff_of_lt hw _ hrhs
  simp only [intersectWrappedWithUnwrapped, SInt.ult_iff, SInt.ule_iff]
  split_ifs with hstart hinside hgap hstart' hgap
  · left
    intro v
    rw [hmem, hmemRhs]
    omega
  · left
    intro v
    rw [contains_iff_of_lt hw true (by dsimp only; omega), hmem, hmemRhs]
    dsimp only
    omega
  · right
    refine ⟨Or.inl rfl, ?_, ?_, ?_,
      isFullSet_eq_false_of_ne true hr.ne', isFullSet_eq_false_of_ne true hrhs.ne⟩
    · rw [hmemRhs]
      omega
    · rw [hmem]
      omega
    · intro heq
      rw [heq] at hr
      omega
  · left
    intro v
    refine iff_of_false (hempty v) ?_
    rw [hmem, hmemRhs]
    omega
  · left
    intro v
    rw [contains_iff_of_lt hw true (by dsimp only; omega), hmem, hmemRhs]
    dsimp only
    omega
  · left
    intro v
    rw [hmem, hmemRhs]
    omega

theorem intersectBothWrapped_spec (hw : 0 < w) {r rhs : ConstantRange w}
    (type : PreferredRangeType) (hr : value true r.upper < value true r.lower)
    (hrhs : value true rhs.upper < value true rhs.lower) :
    IntersectionOf r rhs type (intersectBothWrapped r rhs type) := by
  have hmem := contains_iff_of_gt hw _ hr
  have hmemRhs := contains_iff_of_gt hw _ hrhs
  simp only [intersectBothWrapped, SInt.ult_iff, SInt.ule_iff]
  split_ifs with hupper hlower hlower' hend hlower''
  · right
    refine ⟨Or.inl rfl, ?_, ?_, ?_,
      isFullSet_eq_false_of_ne true hr.ne', isFullSet_eq_false_of_ne true hrhs.ne'⟩
    · rw [hmemRhs]
      omega
    · rw [hmem]
      omega
    · intro heq
      rw [heq] at hr
      omega
  · left
    intro v
    rw [contains_iff_of_gt hw true (by dsimp only; omega), hmem, hmemRhs]
    dsimp only
    omega
  · left
    intro v
    rw [hmem, hmemRhs]
    omega
  · left
    intro v
    rw [hmem, hmemRhs]
    omega
  · left
    intro v
    rw [contains_iff_of_gt hw true (by dsimp only; omega), hmem, hmemRhs]
    dsimp only
    omega
  · right
    refine ⟨Or.inl rfl, ?_, ?_, ?_,
      isFullSet_eq_false_of_ne true hr.ne', isFullSet_eq_false_of_ne true hrhs.ne'⟩
    · rw [hmemRhs]
      omega
    · rw [hmem]
      omega
    · intro heq
      rw [heq] at hend
      omega

theorem intersectionOf_comm {r rhs res : ConstantRange w} {type : PreferredRangeType}
    (h : IntersectionOf r rhs type res) : IntersectionOf rhs r type res := by
  rcases h with hexact | ⟨hor, hin, hin', hne, hfull, hfull'⟩
  · exact Or.inl fun v => (hexact v).trans And.comm
  · exact Or.inr ⟨hor.symm, hin', hin, hne.symm, hfull', hfull⟩

/-- The bounds of a legal range that is neither full nor empty differ. -/
theorem value_lower_ne_upper (uns : Bool) {r : ConstantRange w} (hr : r.Valid)
    (hfull : r.isFullSet = false) (hempty : r.isEmptySet = false) :
    value uns r.lower ≠ value uns r.upper := by
  intro hvalue
  have heq := value_injective uns hvalue
  rw [isFullSet, heq, beq_self_eq_true, Bool.true_and, ← heq] at hfull
  rw [isEmptySet, heq, beq_self_eq_true, Bool.true_and, ← heq] at hempty
  rcases hr heq with hmax | hmin
  · rw [hfull] at hmax
    exact Bool.false_ne_true hmax
  · rw [hempty] at hmin
    exact Bool.false_ne_true hmin

/-- What the intersection of two legal ranges is. -/
theorem intersectWith_spec (hw : 0 < w) {r rhs : ConstantRange w} (hr : r.Valid)
    (hrhs : rhs.Valid) (type : PreferredRangeType) :
    IntersectionOf r rhs type (r.intersectWith rhs type) := by
  rw [intersectWith]
  by_cases hleft : (r.isEmptySet || rhs.isFullSet) = true
  · rw [if_pos hleft]
    left
    intro v
    rcases Bool.or_eq_true _ _ ▸ hleft with hempty | hfull
    · simp [not_contains_of_isEmptySet hw hempty v]
    · simp [contains_of_isFullSet hfull v]
  by_cases hright : (rhs.isEmptySet || r.isFullSet) = true
  · rw [if_neg hleft, if_pos hright]
    left
    intro v
    rcases Bool.or_eq_true _ _ ▸ hright with hempty | hfull
    · simp [not_contains_of_isEmptySet hw hempty v]
    · simp [contains_of_isFullSet hfull v]
  rw [if_neg hleft, if_neg hright]
  rw [Bool.not_eq_true, Bool.or_eq_false_iff] at hleft hright
  have hne := value_lower_ne_upper true hr hright.2 hleft.1
  have hneRhs := value_lower_ne_upper true hrhs hleft.2 hright.1
  simp only [Bool.and_eq_true, Bool.not_eq_true', ← Bool.not_eq_true, isUpperWrapped_iff, not_lt]
  split_ifs with hcase hcase' hcase''
  · exact intersectionOf_comm
      (intersectWrappedWithUnwrapped_spec hw type hcase.2 (by omega))
  · exact intersectBothUnwrapped_spec hw type (by omega) (by omega)
  · exact intersectWrappedWithUnwrapped_spec hw type hcase''.1 (by omega)
  · exact intersectBothWrapped_spec hw type (by omega) (by omega)

theorem eq_or_of_preferred {r rhs res : ConstantRange w} {type : PreferredRangeType}
    (h : res = getPreferredRange r rhs type ∨ res = getPreferredRange rhs r type) :
    res = r ∨ res = rhs := by
  rcases h with h | h
  · rw [h]
    exact getPreferredRange_eq_or r rhs type
  · rw [h]
    exact (getPreferredRange_eq_or rhs r type).symm

/-- The intersection keeps every common element. -/
theorem contains_intersectWith (hw : 0 < w) {r rhs : ConstantRange w}
    (type : PreferredRangeType) {v : SInt w} (hr : r.contains v = true)
    (hrhs : rhs.contains v = true) : (r.intersectWith rhs type).contains v = true := by
  rcases intersectWith_spec hw (valid_of_contains hr) (valid_of_contains hrhs) type with
    hexact | ⟨hres, -⟩
  · exact (hexact v).mpr ⟨hr, hrhs⟩
  · rcases eq_or_of_preferred hres with heq | heq
    · rwa [heq]
    · rwa [heq]

/-! ### Legal results -/

theorem valid_of_value_ne {r : ConstantRange w} (uns : Bool)
    (h : value uns r.lower ≠ value uns r.upper) : r.Valid :=
  fun heq => absurd (by rw [heq]) h

theorem valid_empty (w : ℕ) : (empty w).Valid := fun _ => Or.inr (by simp [empty, ofBool])

theorem valid_full (w : ℕ) : (full w).Valid := fun _ => Or.inl (by simp [full, ofBool])

/-- A range built from a relation is legal. -/
theorem valid_from' (hw : 1 < w) (rel : RelationalOperation) (v : SInt w) (isSigned : Bool) :
    (from' rel v isSigned).Valid := by
  by_cases hsome : ∃ x, (from' rel v isSigned).contains x = true
  · obtain ⟨x, hx⟩ := hsome
    exact valid_of_contains hx
  -- only the two strict relations can be empty, and then at an end of the number line
  have hnone : ∀ x, ¬rel.Holds (value (!isSigned) x) (value (!isSigned) v) := fun x hx =>
    hsome ⟨x, (contains_from'_iff hw rel v isSigned x).mpr hx⟩
  have hmin := SInt.value_min (show 0 < w by omega) (!isSigned)
  have hmax := SInt.value_max (show 0 < w by omega) (!isSigned)
  have hlow := least_le_value (!isSigned) v
  have hhigh := value_le_greatest (!isSigned) v
  cases rel with
  | EQ => exact absurd rfl (hnone v)
  | LE => exact absurd (le_refl (value (!isSigned) v)) (hnone v)
  | GE => exact absurd (le_refl (value (!isSigned) v)) (hnone v)
  | NE =>
    refine absurd (fun h => ?_) (hnone (v + 1))
    exact ne_add_one hw v (value_injective _ h).symm
  | LT =>
    have hend : v = if (!isSigned) = true then SInt.uMinValue w else SInt.sMinValue w := by
      apply value_injective (!isSigned)
      rw [hmin]
      exact le_antisymm (not_lt.mp (hmin ▸ hnone _)) hlow
    rw [from', if_pos]
    · exact valid_empty w
    · left
      refine ⟨rfl, ?_⟩
      cases isSigned
      · simp [hend]
      · simp [hend]
  | GT =>
    have hend : v = if (!isSigned) = true then SInt.uMaxValue w else SInt.sMaxValue w := by
      apply value_injective (!isSigned)
      rw [hmax]
      exact le_antisymm hhigh (not_lt.mp (hmax ▸ hnone _))
    rw [from', if_pos]
    · exact valid_empty w
    · right
      refine ⟨rfl, ?_⟩
      cases isSigned
      · simp [hend]
      · simp [hend]

theorem valid_getPreferredRange {a b : ConstantRange w} (type : PreferredRangeType)
    (ha : a.Valid) (hb : b.Valid) : (getPreferredRange a b type).Valid := by
  rcases getPreferredRange_eq_or a b type with heq | heq
  · rwa [heq]
  · rwa [heq]

theorem valid_intersectWith {r rhs : ConstantRange w} (type : PreferredRangeType)
    (hr : r.Valid) (hrhs : rhs.Valid) : (r.intersectWith rhs type).Valid := by
  have hempty := valid_empty w
  have hpref := valid_getPreferredRange type hr hrhs
  have hpref' := valid_getPreferredRange type hrhs hr
  simp only [intersectWith, intersectWrappedWithUnwrapped, intersectBothUnwrapped,
    intersectBothWrapped, Bool.and_eq_true, Bool.not_eq_true', ← Bool.not_eq_true,
    isUpperWrapped_iff, SInt.ult_iff, SInt.ule_iff]
  split_ifs <;> first
    | assumption
    | exact valid_of_value_ne true (by dsimp only; omega)

theorem valid_inverse {r : ConstantRange w} (hr : r.Valid) : r.inverse.Valid := by
  rw [inverse]
  split_ifs with hfull hempty
  · exact valid_empty w
  · exact valid_full w
  · exact valid_of_value_ne true (value_lower_ne_upper true hr (Bool.not_eq_true _ ▸ hfull)
      (Bool.not_eq_true _ ▸ hempty)).symm

/-! ### Intersections of intervals -/

/-- A reading takes the range for an interval. -/
def Unwrapped (uns : Bool) (r : ConstantRange w) : Prop :=
  value uns r.lower < value uns r.upper ∨ value uns r.upper = least w uns ∨ r.lower = r.upper

theorem unwrapped_true_iff (r : ConstantRange w) :
    r.Unwrapped true ↔ ¬r.isWrappedSet = true := by
  rw [isWrappedSet_iff, Unwrapped, least_true, SInt.eq_iff_value_eq true]
  omega

theorem unwrapped_false_iff (hw : 0 < w) (r : ConstantRange w) :
    r.Unwrapped false ↔ ¬r.isSignWrappedSet = true := by
  rw [isSignWrappedSet_iff hw, Unwrapped, least_false, SInt.eq_iff_value_eq false]
  omega

/-- An interval holds everything between two of its elements. -/
theorem contains_of_unwrapped (hw : 0 < w) {uns : Bool} {r : ConstantRange w}
    (hr : r.Unwrapped uns) {a b v : SInt w} (ha : r.contains a = true)
    (hb : r.contains b = true) (hav : value uns a ≤ value uns v)
    (hvb : value uns v ≤ value uns b) : r.contains v = true := by
  rw [contains_iff hw uns] at ha hb ⊢
  have hle := least_le_value uns a
  rcases ha with hfull | ha
  · exact Or.inl hfull
  · rcases hb with hfull | hb
    · exact Or.inl hfull
    · right
      rw [Unwrapped, SInt.eq_iff_value_eq uns] at hr
      omega

/-- A legal range that holds everything between its elements is an interval. -/
theorem unwrapped_of_convex (hw : 0 < w) {uns : Bool} {r : ConstantRange w}
    (h : ∀ a b v, r.contains a = true → r.contains b = true → value uns a ≤ value uns v →
      value uns v ≤ value uns b → r.contains v = true) : r.Unwrapped uns := by
  by_contra hwrapped
  rw [Unwrapped, not_or, not_or, not_lt, SInt.eq_iff_value_eq uns] at hwrapped
  obtain ⟨hle, hleast, hne⟩ := hwrapped
  have hgt : value uns r.upper < value uns r.lower := lt_of_le_of_ne hle (Ne.symm hne)
  have hupper := least_le_value uns r.upper
  have hlower := value_le_greatest uns r.lower
  have hlt := least_lt_greatest hw uns
  have hbot : value uns (BitVec.ofInt w (least w uns)) = least w uns :=
    value_ofInt hw ⟨le_rfl, hlt.le⟩
  have hmem := contains_iff_of_gt hw _ hgt
  have hbotMem : r.contains (BitVec.ofInt w (least w uns)) = true := by
    rw [hmem, hbot]
    omega
  have hlowerMem : r.contains r.lower = true := by
    rw [hmem]
    exact Or.inl le_rfl
  have hupperMem := h _ _ r.upper hbotMem hlowerMem (by rw [hbot]; exact hupper) hle
  rw [hmem] at hupperMem
  omega

/-- Membership in an interval that is neither full nor empty. -/
theorem contains_iff_of_unwrapped (hw : 0 < w) {uns : Bool} {r : ConstantRange w}
    (hr : r.Unwrapped uns) (hne : r.lower ≠ r.upper) (v : SInt w) :
    r.contains v = true ↔ value uns r.lower ≤ value uns v ∧
      (value uns v < value uns r.upper ∨ value uns r.upper = least w uns) := by
  have hvalue : value uns r.lower ≠ value uns r.upper := fun h => hne (value_injective uns h)
  have hlow := least_le_value uns v
  have hlow' := least_le_value uns r.lower
  rw [Unwrapped, or_iff_left hne] at hr
  rw [contains_iff hw uns, or_iff_right (isFullSet_eq_false_of_ne uns hvalue)]
  omega

/-- An interval runs from its lower bound to the predecessor of its upper bound. -/
theorem contains_iff_between (hw : 1 < w) {uns : Bool} {r : ConstantRange w}
    (hr : r.Unwrapped uns) (hne : r.lower ≠ r.upper) (v : SInt w) :
    r.contains v = true ↔
      value uns r.lower ≤ value uns v ∧ value uns v ≤ value uns (r.upper - 1) := by
  have hpred := value_sub_one_cases hw uns r.upper
  have hhigh := value_le_greatest uns v
  have hlow := least_le_value uns r.lower
  have hrOr := hr
  rw [Unwrapped, or_iff_left hne] at hrOr
  rw [contains_iff_of_unwrapped (by omega) hr hne]
  omega

/-- The ends of an interval in order. -/
theorem lower_le_upper_sub_one (hw : 1 < w) {uns : Bool} {r : ConstantRange w}
    (hr : r.Unwrapped uns) (hne : r.lower ≠ r.upper) :
    value uns r.lower ≤ value uns (r.upper - 1) := by
  have hpred := value_sub_one_cases hw uns r.upper
  have hhigh := value_le_greatest uns r.lower
  have hlow := least_le_value uns r.lower
  rw [Unwrapped, or_iff_left hne] at hr
  omega

theorem value_lower_le_of_unwrapped (hw : 0 < w) {uns : Bool} {r : ConstantRange w}
    (hr : r.Unwrapped uns) (hfull : ¬r.isFullSet = true) {v : SInt w}
    (hv : r.contains v = true) : value uns r.lower ≤ value uns v := by
  have hle := least_le_value uns v
  rw [contains_iff hw uns, or_iff_right hfull] at hv
  rw [Unwrapped, SInt.eq_iff_value_eq uns] at hr
  omega

/-- The intersection of intervals is exact. -/
theorem contains_intersectWith_iff (hw : 0 < w) {uns : Bool} {r rhs : ConstantRange w}
    (type : PreferredRangeType) (hr : r.Valid) (hrhs : rhs.Valid) (hru : r.Unwrapped uns)
    (hrhsu : rhs.Unwrapped uns) (v : SInt w) :
    (r.intersectWith rhs type).contains v = true ↔
      r.contains v = true ∧ rhs.contains v = true := by
  rcases intersectWith_spec hw hr hrhs type with hexact | ⟨-, hin, hin', hne, hfull, hfull'⟩
  · exact hexact v
  · exfalso
    have hle := value_lower_le_of_unwrapped hw hru hfull hin'
    have hge := value_lower_le_of_unwrapped hw hrhsu hfull' hin
    exact hne (value_injective uns (le_antisymm hle hge))

theorem unwrapped_intersectWith (hw : 0 < w) {uns : Bool} {r rhs : ConstantRange w}
    (type : PreferredRangeType) (hr : r.Valid) (hrhs : rhs.Valid) (hru : r.Unwrapped uns)
    (hrhsu : rhs.Unwrapped uns) : (r.intersectWith rhs type).Unwrapped uns := by
  have hexact := contains_intersectWith_iff hw type hr hrhs hru hrhsu
  apply unwrapped_of_convex hw
  intro a b v ha hb hav hvb
  rw [hexact] at ha hb ⊢
  exact ⟨contains_of_unwrapped hw hru ha.1 hb.1 hav hvb,
    contains_of_unwrapped hw hrhsu ha.2 hb.2 hav hvb⟩

/-! ## Union -/

/-- The range from the start of one range to the end of another. -/
def bridge (a b : ConstantRange w) : ConstantRange w := ⟨a.lower, b.upper⟩

/-- Two ranges with a gap on both sides; either bridge encloses them. -/
structure Apart (r rhs : ConstantRange w) : Prop where
  bounds_ne : r.lower ≠ r.upper
  bounds_ne' : rhs.lower ≠ rhs.upper
  upper_notMem : ¬rhs.contains r.upper = true
  upper_notMem' : ¬r.contains rhs.upper = true
  disjoint : ∀ v, ¬(r.contains v = true ∧ rhs.contains v = true)
  enclose : ∀ v, r.contains v = true ∨ rhs.contains v = true →
    (bridge r rhs).contains v = true ∧ (bridge rhs r).contains v = true

/-- What a union may be: exact, or a preferred bridge over one of the two gaps. -/
def UnionOf (r rhs : ConstantRange w) (type : PreferredRangeType) (res : ConstantRange w) :
    Prop :=
  (∀ v, res.contains v = true ↔ r.contains v = true ∨ rhs.contains v = true) ∨
    Apart r rhs ∧ (res = getPreferredRange (bridge r rhs) (bridge rhs r) type ∨
      res = getPreferredRange (bridge rhs r) (bridge r rhs) type)

theorem Apart.symm {r rhs : ConstantRange w} (h : Apart r rhs) : Apart rhs r where
  bounds_ne := h.bounds_ne'
  bounds_ne' := h.bounds_ne
  upper_notMem := h.upper_notMem'
  upper_notMem' := h.upper_notMem
  disjoint v hv := h.disjoint v hv.symm
  enclose v hv := (h.enclose v hv.symm).symm

theorem unionOf_comm {r rhs res : ConstantRange w} {type : PreferredRangeType}
    (h : UnionOf r rhs type res) : UnionOf rhs r type res := by
  rcases h with hexact | ⟨hapart, hres⟩
  · exact Or.inl fun v => (hexact v).trans or_comm
  · exact Or.inr ⟨hapart.symm, hres.symm⟩

theorem unionBothWrapped_spec (hw : 0 < w) {r rhs : ConstantRange w}
    (type : PreferredRangeType) (hr : value true r.upper < value true r.lower)
    (hrhs : value true rhs.upper < value true rhs.lower) :
    UnionOf r rhs type (unionBothWrapped r rhs) := by
  left
  intro v
  have hfull := contains_full (w := w) v
  have hmem := contains_iff_of_gt hw _ hr v
  have hmemRhs := contains_iff_of_gt hw _ hrhs v
  simp only [unionBothWrapped, Bool.or_eq_true, SInt.ult_iff, SInt.ule_iff, SInt.ugt_iff]
  split_ifs with hcover hlower hupper hupper
  · refine iff_of_true hfull ?_
    rw [hmem, hmemRhs]
    omega
  all_goals
    refine (contains_iff_of_gt hw true (by dsimp only; omega) v).trans ?_
    rw [hmem, hmemRhs]
    dsimp only
    omega

theorem apart_of_between (hw : 0 < w) {r rhs : ConstantRange w}
    (hrhs : value true rhs.lower < value true rhs.upper)
    (h : value true r.upper < value true rhs.lower ∧ value true rhs.upper < value true r.lower ∨
      value true r.lower < value true r.upper ∧ value true r.upper < value true rhs.lower) :
    Apart r rhs := by
  have hmemRhs := contains_iff_of_lt hw _ hrhs
  have hne : value true r.lower ≠ value true r.upper := by omega
  have hmem := contains_iff hw true r
  have hbridge := contains_iff hw true (bridge r rhs)
  have hbridge' := contains_iff hw true (bridge rhs r)
  have hfull := isFullSet_eq_false_of_ne true hne
  have hfullBridge : ¬(bridge r rhs).isFullSet = true :=
    isFullSet_eq_false_of_ne true (by dsimp only [bridge]; omega)
  have hfullBridge' : ¬(bridge rhs r).isFullSet = true :=
    isFullSet_eq_false_of_ne true (by dsimp only [bridge]; omega)
  refine ⟨fun heq => hne (by rw [heq]), fun heq => hrhs.ne (by rw [heq]), ?_, ?_, ?_, ?_⟩
  · rw [hmemRhs]
    omega
  · rw [hmem, or_iff_right hfull]
    omega
  · intro v
    rw [hmem, or_iff_right hfull, hmemRhs]
    omega
  · intro v
    rw [hmem, or_iff_right hfull, hmemRhs, hbridge, hbridge', or_iff_right hfullBridge,
      or_iff_right hfullBridge']
    dsimp only [bridge]
    omega

theorem unionWrappedWithUnwrapped_spec (hw : 0 < w) {r rhs : ConstantRange w}
    (type : PreferredRangeType) (hr : value true r.upper < value true r.lower)
    (hrhs : value true rhs.lower < value true rhs.upper) :
    UnionOf r rhs type (unionWrappedWithUnwrapped r rhs type) := by
  have hfull := contains_full (w := w)
  have hmem := contains_iff_of_gt hw _ hr
  have hmemRhs := contains_iff_of_lt hw _ hrhs
  simp only [unionWrappedWithUnwrapped, SInt.ult_iff, SInt.ule_iff]
  split_ifs with hstart hinside hgap hbefore hapart
  · left
    intro v
    rw [hmem, hmemRhs]
    omega
  · left
    intro v
    rw [contains_iff_of_gt hw true (by dsimp only; omega), hmem, hmemRhs]
    dsimp only
    omega
  · left
    intro v
    refine iff_of_true (hfull v) ?_
    rw [hmem, hmemRhs]
    omega
  · right
    exact ⟨apart_of_between hw hrhs (by omega), Or.inl rfl⟩
  · left
    intro v
    rw [contains_iff_of_gt hw true (by dsimp only; omega), hmem, hmemRhs]
    dsimp only
    omega
  · left
    intro v
    rw [hmem, hmemRhs]
    omega

theorem unionBothUnwrapped_spec (hw : 1 < w) {r rhs : ConstantRange w}
    (type : PreferredRangeType) (hr : value true r.lower < value true r.upper)
    (hrhs : value true rhs.lower < value true rhs.upper) :
    UnionOf r rhs type (unionBothUnwrapped r rhs type) := by
  have hwpos : 0 < w := by omega
  have hfull := contains_full (w := w)
  have hmem := contains_iff_of_lt hwpos _ hr
  have hmemRhs := contains_iff_of_lt hwpos _ hrhs
  have hlow := least_le_value true r.lower
  have hlow' := least_le_value true rhs.lower
  rw [least_true] at hlow hlow'
  have hpred : value true (r.upper - 1) = value true r.upper - 1 :=
    value_sub_one hw (by rw [least_true]; omega)
  have hpred' : value true (rhs.upper - 1) = value true rhs.upper - 1 :=
    value_sub_one hw (by rw [least_true]; omega)
  simp only [unionBothUnwrapped, Bool.or_eq_true, Bool.and_eq_true, SInt.ult_iff, SInt.ugt_iff,
    SInt.isZero_iff, hpred, hpred']
  by_cases hgap : value true rhs.upper < value true r.lower ∨
      value true r.upper < value true rhs.lower
  · rw [if_pos hgap]
    right
    refine ⟨?_, Or.inl rfl⟩
    rcases hgap with hgap | hgap
    · exact (apart_of_between hwpos hr (Or.inr ⟨hrhs, hgap⟩)).symm
    · exact apart_of_between hwpos hrhs (Or.inr ⟨hr, hgap⟩)
  · rw [if_neg hgap]
    left
    intro v
    simp only [SInt.eq_iff_value_eq true (b := 0#w), value_zero]
    split_ifs <;> first
      | (exfalso; omega)
      | (refine (contains_iff_of_lt hwpos true (by dsimp only; omega) v).trans ?_
         rw [hmem, hmemRhs]
         dsimp only
         omega)

/-- What the union of two legal ranges is. -/
theorem unionWith_spec (hw : 1 < w) {r rhs : ConstantRange w} (hr : r.Valid)
    (hrhs : rhs.Valid) (type : PreferredRangeType) :
    UnionOf r rhs type (r.unionWith rhs type) := by
  have hwpos : 0 < w := by omega
  rw [unionWith]
  by_cases hleft : (r.isFullSet || rhs.isEmptySet) = true
  · rw [if_pos hleft]
    left
    intro v
    rcases Bool.or_eq_true _ _ ▸ hleft with hfull | hempty
    · simp [contains_of_isFullSet hfull v]
    · simp [not_contains_of_isEmptySet hwpos hempty v]
  by_cases hright : (rhs.isFullSet || r.isEmptySet) = true
  · rw [if_neg hleft, if_pos hright]
    left
    intro v
    rcases Bool.or_eq_true _ _ ▸ hright with hfull | hempty
    · simp [contains_of_isFullSet hfull v]
    · simp [not_contains_of_isEmptySet hwpos hempty v]
  rw [if_neg hleft, if_neg hright]
  rw [Bool.not_eq_true, Bool.or_eq_false_iff] at hleft hright
  have hne := value_lower_ne_upper true hr hleft.1 hright.2
  have hneRhs := value_lower_ne_upper true hrhs hright.1 hleft.2
  simp only [isUpperWrapped_iff]
  split_ifs with hcase hcase' hcase'
  · exact unionBothWrapped_spec hwpos type hcase hcase'
  · exact unionWrappedWithUnwrapped_spec hwpos type hcase (by omega)
  · exact unionOf_comm (unionWrappedWithUnwrapped_spec hwpos type hcase' (by omega))
  · exact unionBothUnwrapped_spec hw type (by omega) (by omega)

/-- The union keeps every element. -/
theorem contains_unionWith (hw : 1 < w) {r rhs : ConstantRange w} (hr : r.Valid)
    (hrhs : rhs.Valid) (type : PreferredRangeType) {v : SInt w}
    (h : r.contains v = true ∨ rhs.contains v = true) :
    (r.unionWith rhs type).contains v = true := by
  rcases unionWith_spec hw hr hrhs type with hexact | ⟨hapart, hres⟩
  · exact (hexact v).mpr h
  · obtain ⟨hleft, hright⟩ := hapart.enclose v h
    rcases hres with hres | hres
    · rcases getPreferredRange_eq_or (bridge r rhs) (bridge rhs r) type with heq | heq
      · rwa [hres, heq]
      · rwa [hres, heq]
    · rcases getPreferredRange_eq_or (bridge rhs r) (bridge r rhs) type with heq | heq
      · rwa [hres, heq]
      · rwa [hres, heq]

theorem valid_unionWith (hw : 1 < w) {r rhs : ConstantRange w} (type : PreferredRangeType)
    (hr : r.Valid) (hrhs : rhs.Valid) : (r.unionWith rhs type).Valid := by
  have hfull := valid_full w
  rw [unionWith]
  by_cases hleft : (r.isFullSet || rhs.isEmptySet) = true
  · rwa [if_pos hleft]
  by_cases hright : (rhs.isFullSet || r.isEmptySet) = true
  · rwa [if_neg hleft, if_pos hright]
  rw [if_neg hleft, if_neg hright]
  rw [Bool.not_eq_true, Bool.or_eq_false_iff] at hleft hright
  have hne := value_lower_ne_upper true hr hleft.1 hright.2
  have hneRhs := value_lower_ne_upper true hrhs hright.1 hleft.2
  have hlow := least_le_value true r.lower
  have hlow' := least_le_value true rhs.lower
  have hpred := value_sub_one_cases hw true r.upper
  have hpred' := value_sub_one_cases hw true rhs.upper
  simp only [isUpperWrapped_iff, unionBothWrapped, unionWrappedWithUnwrapped, unionBothUnwrapped,
    Bool.or_eq_true, Bool.and_eq_true, SInt.ult_iff, SInt.ule_iff, SInt.ugt_iff]
  split_ifs <;> first
    | assumption
    | exact valid_of_value_ne true (by dsimp only; omega)
    | exact valid_getPreferredRange type (valid_of_value_ne true (by dsimp only; omega))
        (valid_of_value_ne true (by dsimp only; omega))

/-! ### Bounds of a union -/

/-- The preference that keeps a reading's intervals together. -/
theorem getPreferredRange_preferFromBool (hw : 0 < w) {uns : Bool} {a b : ConstantRange w}
    (ha : a.Unwrapped uns) (hb : ¬b.Unwrapped uns) :
    getPreferredRange a b (preferFromBool uns) = a ∧
      getPreferredRange b a (preferFromBool uns) = a := by
  cases uns
  · rw [unwrapped_false_iff hw, Bool.not_eq_true] at ha
    rw [unwrapped_false_iff hw, not_not] at hb
    simp [getPreferredRange, preferFromBool, ha, hb]
  · rw [unwrapped_true_iff, Bool.not_eq_true] at ha
    rw [unwrapped_true_iff, not_not] at hb
    simp [getPreferredRange, preferFromBool, ha, hb]

/-- Of the two bridges over the gaps between two intervals, the first one stays within the
bounds of the intervals and the second runs around the end of the reading. -/
theorem bridge_of_apart (hw : 0 < w) {uns : Bool} {r rhs : ConstantRange w}
    (hapart : Apart r rhs) (hr : r.Unwrapped uns) (hrhs : rhs.Unwrapped uns)
    (hlt : value uns r.lower < value uns rhs.lower) :
    ((bridge r rhs).Unwrapped uns ∧ (bridge r rhs).lower ≠ (bridge r rhs).upper) ∧
      ¬(bridge rhs r).Unwrapped uns := by
  obtain ⟨hne, hne', hupper, hupper', hdisjoint, -⟩ := hapart
  have hmem := contains_iff_of_unwrapped hw hr hne
  have hmemRhs := contains_iff_of_unwrapped hw hrhs hne'
  have hrOr := hr
  have hrhsOr := hrhs
  rw [Unwrapped, or_iff_left hne] at hrOr
  rw [Unwrapped, or_iff_left hne'] at hrhsOr
  have hstart := hdisjoint rhs.lower
  rw [hmem, hmemRhs] at hstart
  rw [hmemRhs] at hupper
  rw [hmem] at hupper'
  have hlow := least_le_value uns r.lower
  simp only [Unwrapped, bridge, ne_eq, SInt.eq_iff_value_eq uns]
  omega

/-- A range that is not an interval of a reading reaches both ends of the reading. -/
theorem contains_ends_of_not_unwrapped (hw : 0 < w) {uns : Bool} {r : ConstantRange w}
    (hr : ¬r.Unwrapped uns) :
    r.contains (BitVec.ofInt w (least w uns)) = true ∧
      r.contains (BitVec.ofInt w (greatest w uns)) = true := by
  rw [Unwrapped, not_or, not_or, not_lt, SInt.eq_iff_value_eq uns] at hr
  have hgt : value uns r.upper < value uns r.lower := by omega
  have hlt := least_lt_greatest hw uns
  have hupper := least_le_value uns r.upper
  have hlower := value_le_greatest uns r.lower
  rw [contains_iff_of_gt hw _ hgt, contains_iff_of_gt hw _ hgt, value_ofInt hw ⟨le_rfl, hlt.le⟩,
    value_ofInt hw ⟨hlt.le, le_rfl⟩]
  omega

/-- The elements of a bridge lie between the elements of the intervals it joins. -/
theorem bounds_bridge (hw : 1 < w) {uns : Bool} {r rhs : ConstantRange w} {lo hi : ℤ}
    (hapart : Apart r rhs) (hr : r.Unwrapped uns) (hrhs : rhs.Unwrapped uns)
    (hlt : value uns r.lower < value uns rhs.lower)
    (h : ∀ v, r.contains v = true ∨ rhs.contains v = true → lo ≤ value uns v ∧ value uns v ≤ hi)
    {v : SInt w} (hv : (bridge r rhs).contains v = true) :
    lo ≤ value uns v ∧ value uns v ≤ hi := by
  have hwpos : 0 < w := by omega
  obtain ⟨⟨hbridge, hbridgeNe⟩, -⟩ := bridge_of_apart hwpos hapart hr hrhs hlt
  have hfirst := h r.lower (Or.inl ((contains_iff_between hw hr hapart.bounds_ne _).mpr
    ⟨le_rfl, lower_le_upper_sub_one hw hr hapart.bounds_ne⟩))
  have hlast := h (rhs.upper - 1) (Or.inr ((contains_iff_between hw hrhs hapart.bounds_ne' _).mpr
    ⟨lower_le_upper_sub_one hw hrhs hapart.bounds_ne', le_rfl⟩))
  rw [contains_iff_between hw hbridge hbridgeNe] at hv
  exact ⟨hfirst.1.trans hv.1, hv.2.trans hlast.2⟩

/-- The elements of both ranges lie between two integers. -/
def Within (uns : Bool) (lo hi : ℤ) (r rhs : ConstantRange w) : Prop :=
  ∀ v, r.contains v = true ∨ rhs.contains v = true → lo ≤ value uns v ∧ value uns v ≤ hi

/-- A preference that takes the inner bridge of two intervals that lie apart. -/
def PrefersInner (type : PreferredRangeType) (a b : ConstantRange w) : Prop :=
  getPreferredRange (bridge a b) (bridge b a) type = bridge a b ∧
    getPreferredRange (bridge b a) (bridge a b) type = bridge a b

/-- A union whose preference takes the inner bridge stays within the bounds of the two ranges. -/
theorem bounds_unionWith_of_prefersInner (hw : 1 < w) {uns : Bool} {r rhs : ConstantRange w}
    {lo hi : ℤ} {type : PreferredRangeType} (hr : r.Valid) (hrhs : rhs.Valid)
    (h : Within uns lo hi r rhs)
    (hinner : ∀ a b : ConstantRange w, Apart a b → a.Unwrapped uns → b.Unwrapped uns →
      value uns a.lower < value uns b.lower → Within uns lo hi a b → PrefersInner type a b)
    {v : SInt w} (hv : (r.unionWith rhs type).contains v = true) :
    lo ≤ value uns v ∧ value uns v ≤ hi := by
  have hwpos : 0 < w := by omega
  have hends := least_lt_greatest hwpos uns
  have hlow := least_le_value uns v
  have hhigh := value_le_greatest uns v
  have hwide : ∀ s : ConstantRange w, (∀ u, s.contains u = true → r.contains u = true ∨
      rhs.contains u = true) → ¬s.Unwrapped uns → lo ≤ value uns v ∧ value uns v ≤ hi := by
    intro s hsub hs
    obtain ⟨hbot, htop⟩ := contains_ends_of_not_unwrapped hwpos hs
    have hlo := (h _ (hsub _ hbot)).1
    have hhi := (h _ (hsub _ htop)).2
    rw [value_ofInt hwpos ⟨le_rfl, hends.le⟩] at hlo
    rw [value_ofInt hwpos ⟨hends.le, le_rfl⟩] at hhi
    omega
  rcases unionWith_spec hw hr hrhs type with hexact | ⟨hapart, hres⟩
  · exact h v ((hexact v).mp hv)
  by_cases hru : r.Unwrapped uns
  swap
  · exact hwide r (fun _ => Or.inl) hru
  by_cases hrhsu : rhs.Unwrapped uns
  swap
  · exact hwide rhs (fun _ => Or.inr) hrhsu
  have hcontra : value uns r.lower ≠ value uns rhs.lower := by
    intro heq
    have hle := lower_le_upper_sub_one hw hru hapart.bounds_ne
    have hle' := lower_le_upper_sub_one hw hrhsu hapart.bounds_ne'
    have hstart := hapart.disjoint r.lower
    rw [contains_iff_between hw hru hapart.bounds_ne,
      contains_iff_between hw hrhsu hapart.bounds_ne'] at hstart
    omega
  rcases lt_or_gt_of_ne hcontra with hlt | hgt
  · obtain ⟨hpref, hpref'⟩ := hinner r rhs hapart hru hrhsu hlt h
    rw [hpref, hpref', or_self] at hres
    rw [hres] at hv
    exact bounds_bridge hw hapart hru hrhsu hlt h hv
  · have hsymm : Within uns lo hi rhs r := fun u hu => h u hu.symm
    obtain ⟨hpref, hpref'⟩ := hinner rhs r hapart.symm hrhsu hru hgt hsymm
    rw [hpref, hpref', or_self] at hres
    rw [hres] at hv
    exact bounds_bridge hw hapart.symm hrhsu hru hgt hsymm hv

/-- A union with the preference of a reading stays within the bounds of the two ranges. -/
theorem bounds_unionWith (hw : 1 < w) {uns : Bool} {r rhs : ConstantRange w} {lo hi : ℤ}
    (hr : r.Valid) (hrhs : rhs.Valid) (h : Within uns lo hi r rhs) {v : SInt w}
    (hv : (r.unionWith rhs (preferFromBool uns)).contains v = true) :
    lo ≤ value uns v ∧ value uns v ≤ hi := by
  refine bounds_unionWith_of_prefersInner hw hr hrhs h ?_ hv
  intro a b hapart ha hb hlt _
  obtain ⟨⟨hin, -⟩, hout⟩ := bridge_of_apart (by omega) hapart ha hb hlt
  exact getPreferredRange_preferFromBool (by omega) hin hout

/-! ### The smallest preference -/

theorem lower_ne_upper_of_contains {r : ConstantRange w} {v : SInt w}
    (hv : r.contains v = true) (hfull : ¬r.isFullSet = true) : r.lower ≠ r.upper := by
  intro heq
  rw [contains, if_pos heq] at hv
  exact hfull hv

/-- The length of an interval. -/
theorem length_of_unwrapped (hw : 1 < w) {uns : Bool} {r : ConstantRange w}
    (hr : r.Unwrapped uns) (hne : r.lower ≠ r.upper) :
    ((r.upper - r.lower).toNat : ℤ) = value uns (r.upper - 1) - value uns r.lower + 1 := by
  have hdist := toNat_sub_eq (show 0 < w by omega) uns r.lower r.upper
  have hpred := value_sub_one_cases hw uns r.upper
  have hends := greatest_eq (show 0 < w by omega) uns
  have hlow := least_le_value uns r.lower
  have hvalue : value uns r.lower ≠ value uns r.upper := fun h => hne (value_injective uns h)
  rw [Unwrapped, or_iff_left hne] at hr
  split_ifs at hdist <;> omega

/-- The smaller of two ranges with different bounds is preferred in either order. -/
theorem getPreferredRange_smallest {a b : ConstantRange w} (ha : a.lower ≠ a.upper)
    (hb : b.lower ≠ b.upper) (h : (a.upper - a.lower).toNat < (b.upper - b.lower).toNat) :
    getPreferredRange a b .smallest = a ∧ getPreferredRange b a .smallest = a := by
  have hfull : a.isFullSet = false := by
    rw [isFullSet, Bool.and_eq_false_iff, beq_eq_false_iff_ne]
    exact Or.inl ha
  have hfull' : b.isFullSet = false := by
    rw [isFullSet, Bool.and_eq_false_iff, beq_eq_false_iff_ne]
    exact Or.inl hb
  have hlt : a.isSizeStrictlySmallerThan b = true := by
    simpa [isSizeStrictlySmallerThan, hfull, hfull', SInt.ult] using h
  have hge : b.isSizeStrictlySmallerThan a = false := by
    simpa [isSizeStrictlySmallerThan, hfull, hfull', SInt.ult] using h.le
  simp [getPreferredRange, hlt, hge]

/-- Intersecting with an interval of at most half the circle either is exact or gives the
interval, both ends of which are then common elements. -/
theorem intersectWith_short (hw : 1 < w) {uns : Bool} {r f : ConstantRange w} (hr : r.Valid)
    (hf : f.Unwrapped uns) (hne : f.lower ≠ f.upper)
    (hlen : value uns (f.upper - 1) - value uns f.lower < 2 ^ (w - 1)) :
    (∀ v, (r.intersectWith f).contains v = true ↔ r.contains v = true ∧ f.contains v = true) ∨
      r.intersectWith f = f ∧ r.contains f.lower = true ∧ r.contains (f.upper - 1) = true := by
  have hwpos : 0 < w := by omega
  have hvalid : f.Valid := fun heq => absurd heq hne
  rcases intersectWith_spec hwpos hr hvalid .smallest with
    hexact | ⟨hres, hin, hin', hstart, hfull, -⟩
  · exact Or.inl hexact
  right
  have hturn := two_pow_eq hwpos
  have hmem := contains_iff_between hw hf hne
  rw [hmem] at hin
  have hstartValue : value uns r.lower ≠ value uns f.lower := fun h =>
    hstart (value_injective uns h)
  have hrne := lower_ne_upper_of_contains hin' hfull
  have hdist := (contains_iff_distance hwpos r f.lower hrne).mp hin'
  have hback := toNat_sub_eq hwpos uns r.lower f.lower
  rw [if_neg (by omega)] at hback
  have hflen := length_of_unwrapped hw hf hne
  have hlast : r.contains (f.upper - 1) = true := by
    rw [contains_iff_distance hwpos r _ hrne]
    have hforth := toNat_sub_eq hwpos uns r.lower (f.upper - 1)
    rw [if_pos hin.2] at hforth
    omega
  have hpref := getPreferredRange_smallest hne hrne (by omega)
  rw [hpref.1, hpref.2, or_self] at hres
  exact ⟨hres, hin', hlast⟩

/-- The part of a range inside an interval `f`, by its ends.  Both ends are elements of the range
and of the interval, and all common elements lie between them. -/
structure PartOf (uns : Bool) (r f p : ConstantRange w) : Prop where
  bounds_ne : p.lower ≠ p.upper
  lower_mem : r.contains p.lower = true ∧ f.contains p.lower = true
  last_mem : r.contains (p.upper - 1) = true ∧ f.contains (p.upper - 1) = true
  lower_le_last : value uns p.lower ≤ value uns (p.upper - 1)
  between : ∀ v, r.contains v = true → f.contains v = true →
    value uns p.lower ≤ value uns v ∧ value uns v ≤ value uns (p.upper - 1)

/-- The intersection with a short interval is empty exactly when there are no common elements,
and is the part inside the interval otherwise. -/
theorem partOf_intersectWith (hw : 1 < w) {uns : Bool} {r f : ConstantRange w} (hr : r.Valid)
    (hf : f.Unwrapped uns) (hne : f.lower ≠ f.upper)
    (hlen : value uns (f.upper - 1) - value uns f.lower < 2 ^ (w - 1)) :
    (r.intersectWith f).isEmptySet = true ∧
        (∀ v, r.contains v = true → ¬f.contains v = true) ∨
      (r.intersectWith f).isEmptySet = false ∧ PartOf uns r f (r.intersectWith f) := by
  have hwpos : 0 < w := by omega
  have hturn := two_pow_eq hwpos
  have hends := greatest_eq hwpos uns
  have hmemF := contains_iff_between hw hf hne
  have horderF := lower_le_upper_sub_one hw hf hne
  have hvalidF : f.Valid := fun heq => absurd heq hne
  rcases intersectWith_short hw hr hf hne hlen with hexact | ⟨hres, hlower, hlast⟩
  · generalize hp : r.intersectWith f = p at hexact
    have hvalid : p.Valid := hp ▸ valid_intersectWith .smallest hr hvalidF
    cases hempty : p.isEmptySet with
    | true =>
      left
      refine ⟨rfl, fun v hrv hfv => ?_⟩
      exact not_contains_of_isEmptySet hwpos hempty v ((hexact v).mpr ⟨hrv, hfv⟩)
    | false =>
      right
      refine ⟨rfl, ?_⟩
      have hunwrapped : p.Unwrapped uns := by
        by_contra hp
        obtain ⟨hbot, htop⟩ := contains_ends_of_not_unwrapped hwpos hp
        have hlt := least_lt_greatest hwpos uns
        have hbotF := ((hexact _).mp hbot).2
        have htopF := ((hexact _).mp htop).2
        rw [hmemF, value_ofInt hwpos ⟨le_rfl, hlt.le⟩] at hbotF
        rw [hmemF, value_ofInt hwpos ⟨hlt.le, le_rfl⟩] at htopF
        omega
      have hnotFull : p.isFullSet = false := by
        by_contra hfull
        rw [Bool.not_eq_false] at hfull
        have hlt := least_lt_greatest hwpos uns
        have hbotF := ((hexact _).mp (contains_of_isFullSet hfull
          (BitVec.ofInt w (least w uns)))).2
        have htopF := ((hexact _).mp (contains_of_isFullSet hfull
          (BitVec.ofInt w (greatest w uns)))).2
        rw [hmemF, value_ofInt hwpos ⟨le_rfl, hlt.le⟩] at hbotF
        rw [hmemF, value_ofInt hwpos ⟨hlt.le, le_rfl⟩] at htopF
        omega
      have hneP : p.lower ≠ p.upper := fun heq =>
        value_lower_ne_upper uns hvalid hnotFull hempty (by rw [heq])
      have hmem := contains_iff_between hw hunwrapped hneP
      have horder := lower_le_upper_sub_one hw hunwrapped hneP
      exact
        { bounds_ne := hneP
          lower_mem := (hexact _).mp ((hmem _).mpr ⟨le_rfl, horder⟩)
          last_mem := (hexact _).mp ((hmem _).mpr ⟨horder, le_rfl⟩)
          lower_le_last := horder
          between := fun v hrv hfv => (hmem v).mp ((hexact v).mpr ⟨hrv, hfv⟩) }
  · right
    rw [hres]
    refine ⟨?_, ?_⟩
    · exact isEmptySet_eq_false_of_contains hwpos ((hmemF f.lower).mpr ⟨le_rfl, horderF⟩)
    · exact
        { bounds_ne := hne
          lower_mem := ⟨hlower, (hmemF _).mpr ⟨le_rfl, horderF⟩⟩
          last_mem := ⟨hlast, (hmemF _).mpr ⟨horderF, le_rfl⟩⟩
          lower_le_last := horderF
          between := fun v _ hfv => (hmemF v).mp hfv }

/-- A union that spans at most half the circle stays within the bounds of the two ranges. -/
theorem bounds_unionWith_smallest (hw : 1 < w) {uns : Bool} {r rhs : ConstantRange w}
    {lo hi : ℤ} (hr : r.Valid) (hrhs : rhs.Valid) (h : Within uns lo hi r rhs)
    (hlen : hi - lo < 2 ^ (w - 1)) {v : SInt w} (hv : (r.unionWith rhs).contains v = true) :
    lo ≤ value uns v ∧ value uns v ≤ hi := by
  have hwpos : 0 < w := by omega
  have hturn := two_pow_eq hwpos
  refine bounds_unionWith_of_prefersInner hw hr hrhs h ?_ hv
  intro a b hapart ha hb hlt hwithin
  obtain ⟨⟨hin, hinNe⟩, hout⟩ := bridge_of_apart hwpos hapart ha hb hlt
  have hfirst := hwithin a.lower (Or.inl ((contains_iff_between hw ha hapart.bounds_ne _).mpr
    ⟨le_rfl, lower_le_upper_sub_one hw ha hapart.bounds_ne⟩))
  have hlast := hwithin (b.upper - 1) (Or.inr
    ((contains_iff_between hw hb hapart.bounds_ne' _).mpr
      ⟨lower_le_upper_sub_one hw hb hapart.bounds_ne', le_rfl⟩))
  have hmid := hwithin b.lower (Or.inr ((contains_iff_between hw hb hapart.bounds_ne' _).mpr
    ⟨le_rfl, lower_le_upper_sub_one hw hb hapart.bounds_ne'⟩))
  have haOrder := lower_le_upper_sub_one hw ha hapart.bounds_ne
  have hpred := value_sub_one_cases hw uns a.upper
  have hinner := length_of_unwrapped hw hin hinNe
  have houter := toNat_sub_eq hwpos uns b.lower a.upper
  rw [Unwrapped, not_or, not_or, not_lt, SInt.eq_iff_value_eq uns] at hout
  dsimp only [bridge] at hinner hout
  rw [if_neg (by omega)] at houter
  refine getPreferredRange_smallest hinNe ?_ ?_
  · intro heq
    exact hout.2.2 (by rw [← SInt.eq_iff_value_eq uns]; exact heq)
  · dsimp only [bridge]
    omega

end Cangjie.CHIR.ConstantRange
