import CangjieCompiler.CHIR.Analysis.ConstantRange.Widths

/-!
# The set operations with their assertions

The constructor of a range asserts that equal bounds stand for the full or the empty set, and
some operations assert a condition on their operands.  Here these operations are written once
more, with `none` for a failed assertion.  On legal ranges no assertion fails, and the result is
that of the operation without assertions.
-/

namespace Cangjie.CHIR.ConstantRange

open FixedWidth

namespace Asserted

variable {w n : ℕ} {r rhs : ConstantRange w}

/-- The constructor of a range from its bounds. -/
def make (l u : SInt w) : Option (ConstantRange w) :=
  if (⟨l, u⟩ : ConstantRange w).Valid then some ⟨l, u⟩ else none

/-- An assertion. -/
def require (condition : Bool) : Option Unit := if condition then some () else none

theorem make_eq {l u : SInt w} (h : (⟨l, u⟩ : ConstantRange w).Valid) :
    make l u = some ⟨l, u⟩ := if_pos h

/-- Bounds that differ in some reading are legal. -/
theorem make_of_ne {l u : SInt w} (h : value true l ≠ value true u) :
    make l u = some ⟨l, u⟩ := make_eq (valid_of_value_ne true h)

@[simp] theorem require_true : require true = some () := rfl

/-! ## The operations -/

/-- The values standing in the relation `rel` to `v`. -/
def from' (rel : RelationalOperation) (v : SInt w) (isSigned : Bool) :
    Option (ConstantRange w) :=
  let isMin := (isSigned && v.isSMinValue) || (!isSigned && v.isUMinValue)
  let isMax := (isSigned && v.isSMaxValue) || (!isSigned && v.isUMaxValue)
  if (rel = .LT ∧ isMin) ∨ (rel = .GT ∧ isMax) then some (empty w)
  else if (rel = .LE ∧ isMax) ∨ (rel = .GE ∧ isMin) then some (full w)
  else
    let maxVal := if isSigned then SInt.sMaxValue w else SInt.uMaxValue w
    let minVal := if isSigned then SInt.sMinValue w else SInt.uMinValue w
    match rel with
    | .EQ => some (single v)
    | .NE => make (v + 1) v
    | .GE => make v (maxVal + 1)
    | .GT => make (v + 1) (maxVal + 1)
    | .LE => make minVal (v + 1)
    | .LT => make minVal v

/-- The complement. -/
def inverse (r : ConstantRange w) : Option (ConstantRange w) :=
  if r.isFullSet then some (empty w)
  else if r.isEmptySet then some (full w)
  else make r.upper r.lower

/-- Intersection when both ranges reach the largest unsigned value. -/
def intersectBothWrapped (r rhs : ConstantRange w) (type : PreferredRangeType) :
    Option (ConstantRange w) :=
  if rhs.upper.ult r.upper then
    if rhs.lower.ult r.upper then some (getPreferredRange r rhs type)
    else if rhs.lower.ult r.lower then make r.lower rhs.upper
    else some rhs
  else if rhs.upper.ule r.lower then
    if rhs.lower.ult r.lower then some r else make rhs.lower r.upper
  else some (getPreferredRange r rhs type)

/-- Intersection when only the first range reaches the largest unsigned value. -/
def intersectWrappedWithUnwrapped (r rhs : ConstantRange w) (type : PreferredRangeType) :
    Option (ConstantRange w) :=
  if rhs.lower.ult r.upper then
    if rhs.upper.ult r.upper then some rhs
    else if rhs.upper.ule r.lower then make rhs.lower r.upper
    else some (getPreferredRange r rhs type)
  else if rhs.lower.ult r.lower then
    if rhs.upper.ule r.lower then some (empty w) else make r.lower rhs.upper
  else some rhs

/-- Intersection when no range reaches the largest unsigned value from below. -/
def intersectBothUnwrapped (r rhs : ConstantRange w) : Option (ConstantRange w) :=
  if r.lower.ult rhs.lower then
    if r.upper.ule rhs.lower then some (empty w)
    else if r.upper.ult rhs.upper then make rhs.lower r.upper
    else some rhs
  else if rhs.upper.ule r.lower then some (empty w)
  else if rhs.upper.ult r.upper then make r.lower rhs.upper
  else some r

/-- The intersection, or the preferred of two enclosing ranges when it falls apart. -/
def intersectWith (r rhs : ConstantRange w) (type : optParam PreferredRangeType .smallest) :
    Option (ConstantRange w) :=
  if r.isEmptySet || rhs.isFullSet then some r
  else if rhs.isEmptySet || r.isFullSet then some rhs
  else if !r.isUpperWrapped && rhs.isUpperWrapped then
    intersectWrappedWithUnwrapped rhs r type
  else if !r.isUpperWrapped && !rhs.isUpperWrapped then intersectBothUnwrapped r rhs
  else if r.isUpperWrapped && !rhs.isUpperWrapped then intersectWrappedWithUnwrapped r rhs type
  else intersectBothWrapped r rhs type

/-- The elements of the first range outside the second. -/
def difference (r rhs : ConstantRange w) : Option (ConstantRange w) := do
  let rest ← inverse rhs
  intersectWith r rest

/-- Union when both ranges reach the largest unsigned value. -/
def unionBothWrapped (r rhs : ConstantRange w) : Option (ConstantRange w) :=
  if rhs.lower.ule r.upper || r.lower.ule rhs.upper then some (full w)
  else
    make (if rhs.lower.ult r.lower then rhs.lower else r.lower)
      (if rhs.upper.ugt r.upper then rhs.upper else r.upper)

/-- The preferred of the two ranges that run from one range to the other. -/
def preferredBridge (r rhs : ConstantRange w) (type : PreferredRangeType) :
    Option (ConstantRange w) := do
  let a ← make r.lower rhs.upper
  let b ← make rhs.lower r.upper
  return getPreferredRange a b type

/-- Union when only the first range reaches the largest unsigned value. -/
def unionWrappedWithUnwrapped (r rhs : ConstantRange w) (type : PreferredRangeType) :
    Option (ConstantRange w) :=
  if rhs.lower.ule r.upper then
    if rhs.upper.ult r.upper then some r
    else if rhs.upper.ult r.lower then make r.lower rhs.upper
    else some (full w)
  else if rhs.lower.ult r.lower then
    if rhs.upper.ult r.lower then preferredBridge r rhs type else make rhs.lower r.upper
  else some r

/-- Union when no range reaches the largest unsigned value from below. -/
def unionBothUnwrapped (r rhs : ConstantRange w) (type : PreferredRangeType) :
    Option (ConstantRange w) :=
  if rhs.upper.ult r.lower || r.upper.ult rhs.lower then preferredBridge r rhs type
  else
    let newLower := if rhs.lower.ult r.lower then rhs.lower else r.lower
    let newUpper := if SInt.ugt (rhs.upper - 1) (r.upper - 1) then rhs.upper else r.upper
    if newLower.isZero && newUpper.isZero then some (full w) else make newLower newUpper

/-- The preferred range that encloses both ranges. -/
def unionWith (r rhs : ConstantRange w) (type : optParam PreferredRangeType .smallest) :
    Option (ConstantRange w) :=
  if r.isFullSet || rhs.isEmptySet then some r
  else if rhs.isFullSet || r.isEmptySet then some rhs
  else if r.isUpperWrapped then
    if rhs.isUpperWrapped then unionBothWrapped r rhs else unionWrappedWithUnwrapped r rhs type
  else if rhs.isUpperWrapped then unionWrappedWithUnwrapped rhs r type
  else unionBothUnwrapped r rhs type

/-- The two unwrapped parts of a wrapped range. -/
def splitWrapping (r : ConstantRange w) (asUnsigned : Bool) :
    Option (ConstantRange w × ConstantRange w) := do
  require (if asUnsigned then r.isWrappedSet else r.isSignWrappedSet)
  let below ← from' .LT r.upper (!asUnsigned)
  let above ← from' .GE r.lower (!asUnsigned)
  return (below, above)

/-! ## No assertion fails on legal ranges -/

theorem from'_eq (hw : 1 < w) (rel : RelationalOperation) (v : SInt w) (isSigned : Bool) :
    from' rel v isSigned = some (ConstantRange.from' rel v isSigned) := by
  have hvalid := valid_from' hw rel v isSigned
  rw [from', ConstantRange.from'] at *
  dsimp only at hvalid ⊢
  by_cases hempty : (rel = .LT ∧ ((isSigned && v.isSMinValue) || (!isSigned && v.isUMinValue)) = true) ∨
      (rel = .GT ∧ ((isSigned && v.isSMaxValue) || (!isSigned && v.isUMaxValue)) = true)
  · rw [if_pos hempty, if_pos hempty]
  by_cases hfull : (rel = .LE ∧ ((isSigned && v.isSMaxValue) || (!isSigned && v.isUMaxValue)) = true) ∨
      (rel = .GE ∧ ((isSigned && v.isSMinValue) || (!isSigned && v.isUMinValue)) = true)
  · rw [if_neg hempty, if_pos hfull, if_neg hempty, if_pos hfull]
  rw [if_neg hempty, if_neg hfull] at hvalid ⊢
  rw [if_neg hempty, if_neg hfull]
  cases rel with
  | EQ => rfl
  | NE => exact make_eq hvalid
  | GE => exact make_eq hvalid
  | GT => exact make_eq hvalid
  | LE => exact make_eq hvalid
  | LT => exact make_eq hvalid

theorem inverse_eq (hr : r.Valid) : inverse r = some r.inverse := by
  have hvalid := valid_inverse hr
  rw [inverse, ConstantRange.inverse] at *
  split_ifs at hvalid ⊢
  · rfl
  · rfl
  · exact make_eq hvalid

theorem intersectBothWrapped_eq (type : PreferredRangeType)
    (hr : value true r.upper < value true r.lower) :
    intersectBothWrapped r rhs type = some (r.intersectBothWrapped rhs type) := by
  simp only [intersectBothWrapped, ConstantRange.intersectBothWrapped, SInt.ult_iff, SInt.ule_iff]
  split_ifs with hupper hlower hbefore hmiddle hafter
  · rfl
  · exact make_of_ne (by omega)
  · rfl
  · rfl
  · exact make_of_ne (by omega)
  · rfl

theorem intersectWrappedWithUnwrapped_eq (type : PreferredRangeType) :
    intersectWrappedWithUnwrapped r rhs type =
      some (r.intersectWrappedWithUnwrapped rhs type) := by
  simp only [intersectWrappedWithUnwrapped, ConstantRange.intersectWrappedWithUnwrapped,
    SInt.ult_iff, SInt.ule_iff]
  split_ifs with hlower hinside hgap hbefore hempty
  · rfl
  · exact make_of_ne (by omega)
  · rfl
  · rfl
  · exact make_of_ne (by omega)
  · rfl

theorem intersectBothUnwrapped_eq :
    intersectBothUnwrapped r rhs = some (r.intersectBothUnwrapped rhs) := by
  simp only [intersectBothUnwrapped, ConstantRange.intersectBothUnwrapped, SInt.ult_iff,
    SInt.ule_iff]
  split_ifs with hlower hbefore hcross hafter hcross
  · rfl
  · exact make_of_ne (by omega)
  · rfl
  · rfl
  · exact make_of_ne (by omega)
  · rfl

/-- Every range that an intersection builds has different bounds. -/
theorem intersectWith_eq (r rhs : ConstantRange w) (type : PreferredRangeType) :
    intersectWith r rhs type = some (r.intersectWith rhs type) := by
  rw [intersectWith, ConstantRange.intersectWith]
  simp only [Bool.and_eq_true, Bool.not_eq_true', ← Bool.not_eq_true, isUpperWrapped_iff]
  split_ifs with hleft hright hsecond hnone hfirst
  · rfl
  · rfl
  · exact intersectWrappedWithUnwrapped_eq type
  · exact intersectBothUnwrapped_eq
  · exact intersectWrappedWithUnwrapped_eq type
  · exact intersectBothWrapped_eq type (by omega)

theorem difference_eq (hrhs : rhs.Valid) :
    difference r rhs = some (r.difference rhs) := by
  rw [difference, inverse_eq hrhs, ConstantRange.difference, ← intersectWith_eq]
  rfl

theorem preferredBridge_eq {type : PreferredRangeType}
    (h : value true r.lower ≠ value true rhs.upper)
    (h' : value true rhs.lower ≠ value true r.upper) :
    preferredBridge r rhs type =
      some (getPreferredRange ⟨r.lower, rhs.upper⟩ ⟨rhs.lower, r.upper⟩ type) := by
  rw [preferredBridge, make_of_ne h, make_of_ne h']
  rfl

/-- Every range that a union builds has different bounds, the rejected candidates among them. -/
theorem unionWith_eq (hw : 1 < w) (hr : r.Valid) (hrhs : rhs.Valid)
    (type : PreferredRangeType) : unionWith r rhs type = some (r.unionWith rhs type) := by
  rw [unionWith, ConstantRange.unionWith]
  by_cases hleft : (r.isFullSet || rhs.isEmptySet) = true
  · rw [if_pos hleft, if_pos hleft]
  by_cases hright : (rhs.isFullSet || r.isEmptySet) = true
  · rw [if_neg hleft, if_neg hleft, if_pos hright, if_pos hright]
  rw [if_neg hleft, if_neg hleft, if_neg hright, if_neg hright]
  rw [Bool.not_eq_true, Bool.or_eq_false_iff] at hleft hright
  have hne := value_lower_ne_upper true hr hleft.1 hright.2
  have hneRhs := value_lower_ne_upper true hrhs hright.1 hleft.2
  have hlow := least_le_value true r.lower
  have hlow' := least_le_value true rhs.lower
  have hpred := value_sub_one_cases hw true r.upper
  have hpred' := value_sub_one_cases hw true rhs.upper
  simp only [isUpperWrapped_iff, unionBothWrapped, unionWrappedWithUnwrapped, unionBothUnwrapped,
    ConstantRange.unionBothWrapped, ConstantRange.unionWrappedWithUnwrapped,
    ConstantRange.unionBothUnwrapped, Bool.or_eq_true, Bool.and_eq_true, SInt.ult_iff,
    SInt.ule_iff, SInt.ugt_iff]
  split_ifs <;> first
    | rfl
    | exact make_of_ne (by omega)
    | exact preferredBridge_eq (by omega) (by omega)

/-- A wrapped range falls into two parts. -/
theorem splitWrapping_eq (hw : 1 < w) {asUnsigned : Bool}
    (hwrapped : (if asUnsigned then r.isWrappedSet else r.isSignWrappedSet) = true) :
    splitWrapping r asUnsigned = some (r.splitWrapping asUnsigned) := by
  rw [splitWrapping, hwrapped, from'_eq hw, from'_eq hw]
  rfl

/-! ## The set algebra -/

/-- Only the lower bound of a range is an element whose predecessor is none. -/
theorem eq_lower_of_first (hw : 1 < w) {v : SInt w} (hin : r.contains v = true)
    (hout : ¬r.contains (v - 1) = true) : v = r.lower := by
  have hpred := value_sub_one_cases hw true v
  have hends := least_lt_greatest (show 0 < w by omega) true
  have hlow := least_le_value true r.lower
  have hhigh := value_le_greatest true r.upper
  have hlow' := least_le_value true r.upper
  have hhigh' := value_le_greatest true r.lower
  rw [contains_iff (by omega) true, not_or] at hout
  rw [contains_iff (by omega) true, or_iff_right hout.1] at hin
  apply value_injective true
  omega

/-- The predecessor of the lower bound is no element, unless the range is full. -/
theorem lower_first (hw : 1 < w) (hfull : ¬r.isFullSet = true) :
    ¬r.contains (r.lower - 1) = true := by
  have hpred := value_sub_one_cases hw true r.lower
  have hlow := least_le_value true r.upper
  have hhigh := value_le_greatest true r.upper
  rw [contains_iff (by omega) true, or_iff_right hfull]
  omega

/-- Two ranges that start at different places, each inside the other, have more than a circular
interval in common. -/
theorem not_interval_of_starts (hw : 1 < w) (hstart : rhs.contains r.lower = true)
    (hstart' : r.contains rhs.lower = true) (hne : r.lower ≠ rhs.lower)
    (hfull : ¬r.isFullSet = true) (hfull' : ¬rhs.isFullSet = true) (arc : ConstantRange w) :
    ¬∀ v, arc.contains v = true ↔ r.contains v = true ∧ rhs.contains v = true := by
  intro harc
  have hr := contains_lower (show 0 < w by omega) hstart'
  have hrhs := contains_lower (show 0 < w by omega) hstart
  have hfirst : r.lower = arc.lower := by
    refine eq_lower_of_first hw ((harc _).mpr ⟨hr, hstart⟩) fun hpred => ?_
    exact lower_first hw hfull ((harc _).mp hpred).1
  have hsecond : rhs.lower = arc.lower := by
    refine eq_lower_of_first hw ((harc _).mpr ⟨hstart', hrhs⟩) fun hpred => ?_
    exact lower_first hw hfull' ((harc _).mp hpred).2
  exact hne (hfirst.trans hsecond.symm)

/-- The result of a union: a legal range that holds the elements of both operands. -/
structure IsUnion (r rhs res : ConstantRange w) : Prop where
  valid : res.Valid
  holds : ∀ v, r.contains v = true ∨ rhs.contains v = true → res.contains v = true

/-- The result of an intersection: a legal range with the common elements and nothing outside one
of the operands, and with the common elements alone when they are a circular interval. -/
structure IsIntersection (r rhs res : ConstantRange w) : Prop where
  valid : res.Valid
  holds : ∀ v, r.contains v = true ∧ rhs.contains v = true → res.contains v = true
  inside : (∀ v, res.contains v = true → r.contains v = true) ∨
    ∀ v, res.contains v = true → rhs.contains v = true
  exact_of_interval :
    (∃ arc : ConstantRange w, ∀ v,
      arc.contains v = true ↔ r.contains v = true ∧ rhs.contains v = true) →
    ∀ v, res.contains v = true ↔ r.contains v = true ∧ rhs.contains v = true

/-- The result of a complement: a legal range with the other values. -/
structure IsComplement (r res : ConstantRange w) : Prop where
  valid : res.Valid
  holds_iff : ∀ v, res.contains v = true ↔ ¬r.contains v = true

theorem isUnion_unionWith (hw : 1 < w) (hr : r.Valid) (hrhs : rhs.Valid)
    (type : PreferredRangeType) : IsUnion r rhs (r.unionWith rhs type) where
  valid := valid_unionWith hw type hr hrhs
  holds _ hv := contains_unionWith hw hr hrhs type hv

theorem isIntersection_intersectWith (hw : 1 < w) (hr : r.Valid) (hrhs : rhs.Valid)
    (type : PreferredRangeType) : IsIntersection r rhs (r.intersectWith rhs type) where
  valid := valid_intersectWith type hr hrhs
  holds _ hv := contains_intersectWith (by omega) type hv.1 hv.2
  inside := by
    rcases intersectWith_spec (by omega) hr hrhs type with hexact | ⟨hres, -⟩
    · exact Or.inl fun v hv => ((hexact v).mp hv).1
    · rcases eq_or_of_preferred hres with heq | heq
      · exact Or.inl fun v hv => heq ▸ hv
      · exact Or.inr fun v hv => heq ▸ hv
  exact_of_interval := by
    rintro ⟨arc, harc⟩
    rcases intersectWith_spec (by omega) hr hrhs type with
      hexact | ⟨-, hstart, hstart', hne, hfull, hfull'⟩
    · exact hexact
    · exact absurd harc (not_interval_of_starts hw hstart hstart' hne hfull hfull' arc)

theorem isComplement_inverse (hw : 0 < w) (hr : r.Valid) : IsComplement r r.inverse where
  valid := valid_inverse hr
  holds_iff v := contains_inverse hw hr v

/-- Union, intersection and complement of legal ranges fail no assertion and are what their names
say. -/
theorem setAlgebra_sound (width : IntWidth) (A B : ConstantRange width.bits) (hA : A.Valid)
    (hB : B.Valid) (type : PreferredRangeType) :
    (∃ res, unionWith A B type = some res ∧ IsUnion A B res) ∧
      (∃ res, intersectWith A B type = some res ∧ IsIntersection A B res) ∧
      ∃ res, inverse A = some res ∧ IsComplement A res := by
  have hw : 1 < width.bits := by
    have hbits := width.two_lt_bits
    omega
  exact ⟨⟨_, unionWith_eq hw hA hB type, isUnion_unionWith hw hA hB type⟩,
    ⟨_, intersectWith_eq A B type, isIntersection_intersectWith hw hA hB type⟩,
    _, inverse_eq hA, isComplement_inverse (by omega) hA⟩

/-- Two ranges that run around the end of the number line and have two pieces in common. -/
theorem setAlgebra_sound_wrapped :
    ∃ res, intersectWith (⟨200, 100⟩ : ConstantRange IntWidth.I8.bits) ⟨50, 10⟩ .smallest =
      some res ∧ IsIntersection ⟨200, 100⟩ ⟨50, 10⟩ res :=
  (setAlgebra_sound .I8 ⟨200, 100⟩ ⟨50, 10⟩ (by decide) (by decide) .smallest).2.1

/-! ## Changes of width -/

/-- Zero extension of all elements. -/
def zeroExtend (r : ConstantRange w) (w' : ℕ) : Option (ConstantRange w') :=
  if r.isEmptySet then some (empty w')
  else do
    require (decide (w < w'))
    if r.isFullSet || r.isWrappedSet then make 0 (SInt.getOneBitSet w' w)
    else if r.upper.isUMinValue then make (r.lower.zExt w') (SInt.getOneBitSet w' w)
    else make (r.lower.zExt w') (r.upper.zExt w')

/-- Sign extension of all elements. -/
def signExtend (r : ConstantRange w) (w' : ℕ) : Option (ConstantRange w') :=
  if r.isEmptySet then some (empty w')
  else do
    require (decide (w < w'))
    if r.isFullSet || r.isSignWrappedSet then do
      require (decide (0 < w))
      make (SInt.getHighBitsSet w' ((w' - w) + 1)) (SInt.getLowBitsSet w' (w - 1) + 1)
    else if r.upper.isSMinValue then make (r.lower.sExt w') (r.upper.zExt w')
    else make (r.lower.sExt w') (r.upper.sExt w')

/-- The part of `truncate` that works on an unwrapped interval `[lowerDiv, upperDiv)`. -/
def truncateUnwrapped (lowerDiv upperDiv : SInt w) (w' : ℕ) (wrappedPart : ConstantRange w') :
    Option (ConstantRange w') :=
  let adjust := if w' < lowerDiv.activeBits then lowerDiv &&& SInt.getBitsSetFrom w w' else 0
  let lowerDiv := lowerDiv - adjust
  let upperDiv := upperDiv - adjust
  let upperDivWidth := upperDiv.activeBits
  if upperDivWidth ≤ w' then do
    let normalPart ← make (lowerDiv.trunc w') (upperDiv.trunc w')
    unionWith normalPart wrappedPart
  else if upperDivWidth = w' + 1 then
    let upperDiv := SInt.clearBit upperDiv w'
    if upperDiv.ult lowerDiv then do
      let normalPart ← make (lowerDiv.trunc w') (upperDiv.trunc w')
      unionWith normalPart wrappedPart
    else some (full w')
  else some (full w')

/-- Truncation of all elements. -/
def truncate (r : ConstantRange w) (w' : ℕ) : Option (ConstantRange w') := do
  require (decide (w' < w))
  if r.isEmptySet then some (empty w')
  else if r.isFullSet then some (full w')
  else if r.isUpperWrapped then
    let dstMaxVal := SInt.uMaxValue w'
    if r.upper.uge (dstMaxVal.zExt w) then some (full w')
    else do
      let wrappedPart ← make dstMaxVal (r.upper.trunc w')
      if r.lower.isUMaxValue then some wrappedPart
      else truncateUnwrapped r.lower (SInt.allOnes w) w' wrappedPart
  else truncateUnwrapped r.lower r.upper w' (empty w')

theorem zeroExtend_eq (hw : 1 < w) (h : w < n) (hr : r.Valid) :
    zeroExtend r n = some (r.zeroExtend n) := by
  have hvalid := valid_zeroExtend hw h hr
  rw [zeroExtend, ConstantRange.zeroExtend] at *
  rw [decide_eq_true h, require_true]
  split_ifs at hvalid ⊢
  · rfl
  · exact make_eq hvalid
  · exact make_eq hvalid
  · exact make_eq hvalid

theorem valid_signExtend (hw : 1 < w) (h : w < n) (hr : r.Valid) : (r.signExtend n).Valid := by
  by_cases hempty : r.isEmptySet = true
  · rw [ConstantRange.signExtend, if_pos hempty]
    exact valid_empty n
  · obtain ⟨v, hv⟩ := exists_contains_of_valid (by omega) hr hempty
    exact valid_of_contains (contains_signExtend hw h hv)

theorem signExtend_eq (hw : 1 < w) (h : w < n) (hr : r.Valid) :
    signExtend r n = some (r.signExtend n) := by
  have hvalid := valid_signExtend hw h hr
  rw [signExtend, ConstantRange.signExtend] at *
  rw [decide_eq_true h, decide_eq_true (show 0 < w by omega), require_true]
  split_ifs at hvalid ⊢
  · rfl
  · exact make_eq hvalid
  · exact make_eq hvalid
  · exact make_eq hvalid

theorem truncateUnwrapped_eq (hn : 1 < n) (h : n < w) {l u : SInt w}
    {wrappedPart : ConstantRange n} (hlu : value true l < value true u)
    (hwrapped : wrappedPart.Valid) :
    truncateUnwrapped l u n wrappedPart =
      some (ConstantRange.truncateUnwrapped l u n wrappedPart) := by
  have hpos : (0 : ℤ) < 2 ^ n := by positivity
  have hmod := Int.emod_nonneg (value true l) hpos.ne'
  have hmodLt := Int.emod_lt_of_pos (value true l) hpos
  have hunion : ∀ a b : SInt n, value true a ≠ value true b →
      (make a b).bind (fun normalPart => unionWith normalPart wrappedPart) =
        some (ConstantRange.unionWith ⟨a, b⟩ wrappedPart) := by
    intro a b hne
    rw [make_of_ne hne]
    exact unionWith_eq hn (valid_of_value_ne true hne) hwrapped .smallest
  rw [truncateUnwrapped, ConstantRange.truncateUnwrapped]
  generalize hadjust : (if n < l.activeBits then l &&& SInt.getBitsSetFrom w n else 0) = adjust
  obtain ⟨hadjustVal, hl, hu⟩ := value_cut h hlu hadjust
  have hlTrunc : value true ((l - adjust).trunc n) = value true l % 2 ^ n := by
    rw [SInt.value_true_trunc, hl, Int.emod_emod_of_dvd _ dvd_rfl]
  dsimp only
  split_ifs with hbits hnext hturn
  · rw [activeBits_le_iff] at hbits
    refine hunion _ _ ?_
    rw [hlTrunc, SInt.value_true_trunc, Int.emod_eq_of_lt (by omega) hbits]
    omega
  · rw [activeBits_le_iff, not_lt] at hbits
    have hlast := (activeBits_le_iff _ _).mp hnext.le
    have hclear := value_true_clearBit (u - adjust) n hbits hlast
    rw [pow_succ] at hlast
    rw [SInt.ult_iff, hl, hclear] at hturn
    have hclearTrunc : value true ((SInt.clearBit (u - adjust) n).trunc n) =
        value true (u - adjust) - 2 ^ n := by
      rw [SInt.value_true_trunc, hclear, Int.emod_eq_of_lt (by omega) (by omega)]
    refine hunion _ _ ?_
    rw [hlTrunc, hclearTrunc]
    exact hturn.ne'
  · rfl
  · rfl

theorem truncate_eq (hn : 1 < n) (h : n < w) (r : ConstantRange w) (hr : r.Valid) :
    truncate r n = some (r.truncate n) := by
  have hnpos : 0 < n := by omega
  have hmax : value true (SInt.uMaxValue n) = 2 ^ n - 1 := SInt.value_true_uMaxValue hnpos
  rw [truncate, ConstantRange.truncate, decide_eq_true h, require_true, Option.bind_eq_bind,
    Option.bind_some]
  by_cases hempty : r.isEmptySet = true
  · rw [if_pos hempty, if_pos hempty]
  by_cases hfull : r.isFullSet = true
  · rw [if_neg hempty, if_pos hfull, if_neg hempty, if_pos hfull]
  rw [if_neg hempty, if_neg hfull, if_neg hempty, if_neg hfull]
  by_cases hupper : r.isUpperWrapped = true
  swap
  · rw [if_neg hupper, if_neg hupper]
    rw [isUpperWrapped_iff] at hupper
    have hne := value_lower_ne_upper true hr (Bool.not_eq_true _ ▸ hfull)
      (Bool.not_eq_true _ ▸ hempty)
    exact truncateUnwrapped_eq hn h (by omega) (valid_empty n)
  rw [if_pos hupper, if_pos hupper]
  dsimp only
  by_cases hcovers : r.upper.uge ((SInt.uMaxValue n).zExt w) = true
  · rw [if_pos hcovers, if_pos hcovers]
  rw [if_neg hcovers, if_neg hcovers]
  rw [SInt.uge_iff, SInt.value_true_zExt hnpos h.le, hmax, not_le] at hcovers
  have hwrapped : value true (SInt.uMaxValue n) ≠ value true (r.upper.trunc n) := by
    have hbound := SInt.value_true_bounds r.upper
    rw [SInt.value_true_trunc, Int.emod_eq_of_lt hbound.1 (by omega), hmax]
    omega
  rw [make_of_ne hwrapped, Option.bind_eq_bind, Option.bind_some]
  by_cases htop : r.lower.isUMaxValue = true
  · rw [if_pos htop, if_pos htop]
  rw [if_neg htop, if_neg htop]
  rw [SInt.isUMaxValue_iff, SInt.eq_iff_value_eq true, SInt.value_true_uMaxValue (by omega)] at htop
  have hbound := SInt.value_true_bounds r.lower
  have hones : value true (SInt.allOnes w) = 2 ^ w - 1 := SInt.value_true_uMaxValue (by omega)
  exact truncateUnwrapped_eq hn h (by omega) (valid_of_value_ne true hwrapped)

end Asserted

end Cangjie.CHIR.ConstantRange
