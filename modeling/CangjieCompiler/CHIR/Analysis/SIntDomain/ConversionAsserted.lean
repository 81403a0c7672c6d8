import CangjieCompiler.CHIR.Analysis.ConstantRange.Asserted
import CangjieCompiler.CHIR.Analysis.SIntDomain.ConversionSound

/-!
# The conversions with their assertions

The conversions of ranges once more, with `none` for a failed assertion of the ranges they build,
of the splitting and widening operations they call, and of the truncation that must not see a
wrapped range.  No assertion fails on a legal range, so a conversion of one holds the results of
converting its elements.
-/

namespace Cangjie.CHIR.ConstantRange.Asserted

open FixedWidth

variable {w n : ℕ}

/-! ## The operations -/

/-- What saturation adds to a range when values had to be changed. -/
def unionWhen (changed : Bool) (res : ConstantRange n) (v : SInt n) (type : PreferredRangeType) :
    Option (ConstantRange n) :=
  if changed then unionWith res (single v) type else some res

/-- Narrowing without change of signedness, for a range that does not wrap. -/
def ncSameSignessInner (src : ConstantRange w) (dstSize : ℕ) (isUnsigned : Bool)
    (ov : OverflowStrategy) : Option (ConstantRange dstSize) :=
  if src.isFullSet then some (full dstSize)
  else if src.isEmptySet then some (empty dstSize)
  else do
    let least ←
      if isUnsigned then from' .GE ((SInt.uMinValue dstSize).zExt w) false
      else from' .GE ((SInt.sMinValue dstSize).sExt w) true
    let higherPart ← intersectWith least src (preferFromBool isUnsigned)
    let greatest ←
      if isUnsigned then from' .LE ((SInt.uMaxValue dstSize).zExt w) false
      else from' .LE ((SInt.sMaxValue dstSize).sExt w) true
    let unchangedPart ← intersectWith greatest higherPart (preferFromBool isUnsigned)
    let res ← truncate unchangedPart dstSize
    if src = unchangedPart ∨ ov = .THROWING then some res
    else if ov = .WRAPPING then some (full dstSize)
    else do
      let tooLow ← difference src higherPart
      let res ← unionWhen tooLow.isNotEmptySet res
        (if isUnsigned then SInt.uMinValue dstSize else SInt.sMinValue dstSize)
        (preferFromBool isUnsigned)
      let tooHigh ← difference higherPart unchangedPart
      unionWhen tooHigh.isNotEmptySet res
        (if isUnsigned then SInt.uMaxValue dstSize else SInt.sMaxValue dstSize)
        (preferFromBool isUnsigned)

/-- The parts of a wrapped range, converted one by one and joined. -/
def convertParts (src : ConstantRange w) (asUnsigned : Bool)
    (convert : ConstantRange w → Option (ConstantRange n)) (type : PreferredRangeType) :
    Option (ConstantRange n) := do
  let parts ← splitWrapping src asUnsigned
  let l ← convert parts.1
  let r ← convert parts.2
  unionWith l r type

/-- Conversion without change of signedness. -/
def numericConversionWithSameSigness (src : ConstantRange w) (dstSize : ℕ) (isUnsigned : Bool)
    (ov : OverflowStrategy) : Option (ConstantRange dstSize) :=
  if h : w = dstSize then some (h ▸ src)
  else if w < dstSize then
    if isUnsigned then zeroExtend src dstSize else signExtend src dstSize
  else if (if isUnsigned then src.isWrappedSet else src.isSignWrappedSet) then
    convertParts src isUnsigned (fun part => ncSameSignessInner part dstSize isUnsigned ov)
      (preferFromBool isUnsigned)
  else ncSameSignessInner src dstSize isUnsigned ov

/-- Truncation of a range whose excluded upper bound may just not fit the destination. -/
def truncWithUpperWrapped (src : ConstantRange w) (dstUnsigned : Bool) (dstSize : ℕ) :
    Option (ConstantRange dstSize) := do
  require (if dstUnsigned then !src.isWrappedSet else !src.isSignWrappedSet)
  require (decide (dstSize < w))
  let dstMax := if dstUnsigned then SInt.uMaxValue dstSize else SInt.sMaxValue dstSize
  if src.upper = dstMax.zExt w + 1 then
    let lower := src.lower.trunc dstSize
    let upper := SInt.trunc (src.upper - 1) dstSize + 1
    if lower = upper then some (full dstSize) else make lower upper
  else truncate src dstSize

/-- Unsigned to signed, for a range that does not wrap and a destination not wider than the
source. -/
def ncU2SInner (src : ConstantRange w) (dstSize : ℕ) (ov : OverflowStrategy) :
    Option (ConstantRange dstSize) :=
  let dstMax : SInt w :=
    if dstSize < w then (SInt.sMaxValue dstSize).sExt w else (SInt.sMaxValue dstSize).trunc w
  let finish (r : ConstantRange w) : Option (ConstantRange dstSize) :=
    if h : w = dstSize then some (castWidth h r) else truncWithUpperWrapped r false dstSize
  if src.isEmptySet then some (empty dstSize)
  else do
    let greatest ← from' .LE dstMax false
    let unchangedRange ← intersectWith greatest src .unsigned
    if unchangedRange = src ∨ ov = .THROWING then finish unchangedRange
    else if ov = .SATURATING then do
      let ans ← unionWith unchangedRange (single dstMax) .signed
      finish ans
    else if h : w = dstSize then some (castWidth h src)
    else some (full dstSize)

/-- Unsigned to signed. -/
def numericConversionU2S (src : ConstantRange w) (dstSize : ℕ) (ov : OverflowStrategy) :
    Option (ConstantRange dstSize) :=
  if w < dstSize then zeroExtend src dstSize
  else if !src.isWrappedSet then ncU2SInner src dstSize ov
  else convertParts src true (fun part => ncU2SInner part dstSize ov) .signed

/-- Signed to unsigned, for a range that does not wrap and a narrower destination. -/
def ncS2UInnerTrunc (src : ConstantRange w) (dstSize : ℕ) (ov : OverflowStrategy) :
    Option (ConstantRange dstSize) :=
  if src.isEmptySet then some (empty dstSize)
  else do
    let nonNeg ← from' .GE (SInt.zero w) true
    let nonNegRange ← intersectWith src nonNeg .signed
    let negRange ← difference src nonNegRange
    let greatest ← from' .LE ((SInt.uMaxValue dstSize).zExt w) true
    let unchangedRange ← intersectWith nonNegRange greatest
    if unchangedRange = src ∨ ov = .THROWING then
      truncWithUpperWrapped unchangedRange true dstSize
    else if ov = .SATURATING then do
      let res ← unionWhen negRange.isNotEmptySet unchangedRange (SInt.zero w) .unsigned
      let res ← unionWhen (decide (unchangedRange ≠ nonNegRange)) res
        ((SInt.uMaxValue dstSize).zExt w) .unsigned
      truncWithUpperWrapped res true dstSize
    else some (full dstSize)

/-- Signed to unsigned, for a destination not narrower than the source. -/
def ncS2UInnerExtend (src : ConstantRange w) (dstSize : ℕ) (ov : OverflowStrategy) :
    Option (ConstantRange dstSize) :=
  let extend (r : ConstantRange w) : Option (ConstantRange dstSize) :=
    if h : w = dstSize then some (castWidth h r) else zeroExtend r dstSize
  if src.isEmptySet then some (empty dstSize)
  else do
    let nonNeg ← from' .GE (SInt.zero w) true
    let nonNegRange ← intersectWith src nonNeg .signed
    let negRange ← difference src nonNegRange
    if nonNegRange = src ∨ ov = .THROWING then extend nonNegRange
    else if ov = .SATURATING then do
      let nonNegRange ←
        if negRange.isNotEmptySet then unionWith nonNegRange (single (SInt.uMinValue w))
        else some nonNegRange
      extend nonNegRange
    else do
      let negOverflowRange ←
        make (negRange.sMinValue.sExt dstSize) (negRange.sMaxValue.sExt dstSize + 1)
      let extended ← extend nonNegRange
      unionWith negOverflowRange extended .unsigned

/-- Signed to unsigned. -/
def numericConversionS2U (src : ConstantRange w) (dstSize : ℕ) (ov : OverflowStrategy) :
    Option (ConstantRange dstSize) :=
  if dstSize < w then
    if src.isSignWrappedSet then
      convertParts src false (fun part => ncS2UInnerTrunc part dstSize ov) .unsigned
    else ncS2UInnerTrunc src dstSize ov
  else ncS2UInnerExtend src dstSize ov

/-- The range of the results of a cast of the elements of `src`. -/
def numericConversion (src : ConstantRange w) (dstSize : ℕ) (srcUnsigned dstUnsigned : Bool)
    (ov : OverflowStrategy) : Option (ConstantRange dstSize) :=
  if srcUnsigned = dstUnsigned then numericConversionWithSameSigness src dstSize srcUnsigned ov
  else if srcUnsigned then numericConversionU2S src dstSize ov
  else numericConversionS2U src dstSize ov

/-! ## No assertion fails -/

section Lawful

variable {src : ConstantRange w}

theorem unionWhen_eq (hn : 1 < n) {res : ConstantRange n} (hres : res.Valid) (changed : Bool)
    (v : SInt n) (type : PreferredRangeType) :
    unionWhen changed res v type = some (CHIR.unionWhen changed res v type) := by
  rw [unionWhen, CHIR.unionWhen]
  split_ifs
  · exact unionWith_eq hn hres (valid_single hn v) type
  · rfl

/-- The narrowing of an interval, in terms of its parts. -/
theorem ncSameSignessInner_parts (hw : 1 < w) (src : ConstantRange w) (n : ℕ) (uns : Bool)
    (ov : OverflowStrategy) :
    ncSameSignessInner src n uns ov =
      if src.isFullSet then some (full n)
      else if src.isEmptySet then some (empty n)
      else (do
        let res ← truncate (unchangedPart src n uns) n
        if src = unchangedPart src n uns ∨ ov = .THROWING then some res
        else if ov = .WRAPPING then some (full n)
        else do
          let tooLow ← difference src (higherPart src n uns)
          let res ← unionWhen tooLow.isNotEmptySet res (BitVec.ofInt n (least n uns))
            (preferFromBool uns)
          let tooHigh ← difference (higherPart src n uns) (unchangedPart src n uns)
          unionWhen tooHigh.isNotEmptySet res (BitVec.ofInt n (greatest n uns))
            (preferFromBool uns)) := by
  rw [ncSameSignessInner]
  cases uns with
  | true =>
    simp only [from'_eq hw, intersectWith_eq, if_true]
    rw [← SInt.uMaxValue_eq_ofInt]
    rfl
  | false =>
    simp only [from'_eq hw, intersectWith_eq, Bool.false_eq_true, if_false]
    rw [← SInt.sMinValue_eq_ofInt, ← SInt.sMaxValue_eq_ofInt]
    rfl

theorem ncSameSignessInner_eq (hn : 1 < n) (h : n < w) (hsrc : src.Valid) (uns : Bool)
    (ov : OverflowStrategy) :
    ncSameSignessInner src n uns ov = some (CHIR.ncSameSignessInner src n uns ov) := by
  have hw : 1 < w := by omega
  have hhigher : (higherPart src n uns).Valid := valid_higherPart hw hsrc
  have hunchanged : (unchangedPart src n uns).Valid := valid_unchangedPart hw hsrc
  have hres := valid_truncate hn h hunchanged
  rw [ncSameSignessInner_parts hw, CHIR.ncSameSignessInner_eq, truncate_eq hn h _ hunchanged,
    difference_eq hhigher, difference_eq hunchanged]
  simp only [Option.bind_eq_bind, Option.bind_some, unionWhen_eq hn hres,
    unionWhen_eq hn (valid_unionWhen hn hres _ _ _)]
  split_ifs
  · rfl
  · rfl
  · rfl
  · rfl
  · rfl

/-- Both parts of a wrapped range are converted. -/
theorem convertParts_eq (hw : 1 < w) (hn : 1 < n) (asUnsigned : Bool)
    {convert : ConstantRange w → Option (ConstantRange n)}
    {convert' : ConstantRange w → ConstantRange n} (type : PreferredRangeType)
    (hwrapped : (if asUnsigned then src.isWrappedSet else src.isSignWrappedSet) = true)
    (hvalid : ∀ part : ConstantRange w, part.Valid → (convert' part).Valid)
    (heq : ∀ part : ConstantRange w, part.Valid → part.Unwrapped asUnsigned →
      convert part = some (convert' part)) :
    convertParts src asUnsigned convert type =
      some ((convert' (src.splitWrapping asUnsigned).1).unionWith
        (convert' (src.splitWrapping asUnsigned).2) type) := by
  obtain ⟨hflat₁, hflat₂⟩ := splitWrapping_unwrapped hw src asUnsigned
  obtain ⟨hvalid₁, hvalid₂⟩ := valid_splitWrapping hw src asUnsigned
  rw [convertParts, splitWrapping_eq hw hwrapped, Option.bind_eq_bind, Option.bind_some,
    heq _ hvalid₁ hflat₁, heq _ hvalid₂ hflat₂]
  exact unionWith_eq hn (hvalid _ hvalid₁) (hvalid _ hvalid₂) type

theorem numericConversionWithSameSigness_eq (hw : 1 < w) (hn : 1 < n) (hsrc : src.Valid)
    (uns : Bool) (ov : OverflowStrategy) :
    numericConversionWithSameSigness src n uns ov =
      some (CHIR.numericConversionWithSameSigness src n uns ov) := by
  rw [numericConversionWithSameSigness, CHIR.numericConversionWithSameSigness]
  by_cases hsame : w = n
  · rw [dif_pos hsame, dif_pos hsame]
  rw [dif_neg hsame, dif_neg hsame]
  by_cases hwider : w < n
  · rw [if_pos hwider, if_pos hwider]
    cases uns with
    | true => exact zeroExtend_eq hw hwider hsrc
    | false => exact signExtend_eq hw hwider hsrc
  rw [if_neg hwider, if_neg hwider]
  have hnarrow : n < w := by omega
  by_cases hwrapped : (if uns then src.isWrappedSet else src.isSignWrappedSet) = true
  · rw [if_pos hwrapped, if_pos hwrapped]
    exact convertParts_eq hw hn uns _ hwrapped
      (fun part hpart => valid_ncSameSignessInner hn hnarrow hpart ov)
      (fun part hpart _ => ncSameSignessInner_eq hn hnarrow hpart uns ov)
  · rw [if_neg hwrapped, if_neg hwrapped]
    exact ncSameSignessInner_eq hn hnarrow hsrc uns ov

/-- A range of values that a narrower destination represents does not wrap. -/
theorem not_wrapped_of_bounds (hn : 1 < n) (h : n < w) {dstUns : Bool}
    (hbounds : ∀ v, src.contains v = true → value true v ≤ greatest n dstUns) :
    (if dstUns then !src.isWrappedSet else !src.isSignWrappedSet) = true := by
  have hwpos : 0 < w := by omega
  have hpow := SInt.two_pow_half_le (w := n + 1) (n := w) h
  rw [Nat.add_sub_cancel] at hpow
  have hturn := two_pow_eq hwpos
  have hgreatest := greatest_le_two_pow (show 0 < n by omega) dstUns
  have hflat : src.Unwrapped dstUns := by
    by_contra hwrapped
    obtain ⟨hmin, hmax⟩ := contains_ends_of_not_unwrapped hwpos hwrapped
    cases dstUns with
    | true =>
      have hle := hbounds _ hmax
      rw [← SInt.uMaxValue_eq_ofInt, SInt.value_true_uMaxValue hwpos] at hle
      have hpos : (0 : ℤ) < 2 ^ n := by positivity
      omega
    | false =>
      have hle := hbounds _ hmin
      rw [← SInt.sMinValue_eq_ofInt, SInt.value_true_sMinValue hwpos] at hle
      omega
  rw [unwrapped_iff_not_wrapped hwpos] at hflat
  cases dstUns with
  | true => exact (Bool.not_eq_true' _).mpr (Bool.not_eq_true _ ▸ hflat)
  | false => exact (Bool.not_eq_true' _).mpr (Bool.not_eq_true _ ▸ hflat)

theorem truncWithUpperWrapped_eq (hn : 1 < n) (h : n < w) (hsrc : src.Valid) {dstUns : Bool}
    (hbounds : ∀ v, src.contains v = true → value true v ≤ greatest n dstUns) :
    truncWithUpperWrapped src dstUns n = some (CHIR.truncWithUpperWrapped src dstUns n) := by
  rw [truncWithUpperWrapped, not_wrapped_of_bounds hn h hbounds, decide_eq_true h, require_true,
    CHIR.truncWithUpperWrapped]
  simp only [Option.bind_eq_bind, Option.bind_some]
  generalize (if dstUns then SInt.uMaxValue n else SInt.sMaxValue n) = dstMax
  split_ifs with hupper heq
  · rfl
  · exact make_eq fun hends => absurd hends heq
  · exact truncate_eq hn h src hsrc

/-- A range of values that the destination represents, moved to a type that is not wider. -/
def narrowTo (r : ConstantRange w) (n : ℕ) (dstUns : Bool) : Option (ConstantRange n) :=
  if h : w = n then some (castWidth h r) else truncWithUpperWrapped r dstUns n

/-- A range of non-negative values, moved to a type that is not narrower. -/
def widenTo (r : ConstantRange w) (n : ℕ) : Option (ConstantRange n) :=
  if h : w = n then some (castWidth h r) else zeroExtend r n

theorem narrowTo_eq (hn : 1 < n) (h : n ≤ w) (hsrc : src.Valid) {dstUns : Bool}
    (hbounds : ∀ v, src.contains v = true → value true v ≤ greatest n dstUns) :
    narrowTo src n dstUns = some (CHIR.narrowTo src n dstUns) := by
  rw [narrowTo, CHIR.narrowTo]
  by_cases hsame : w = n
  · rw [dif_pos hsame, dif_pos hsame]
  · rw [dif_neg hsame, dif_neg hsame]
    exact truncWithUpperWrapped_eq hn (by omega) hsrc hbounds

theorem widenTo_eq (hw : 1 < w) (h : w ≤ n) (hsrc : src.Valid) :
    widenTo src n = some (CHIR.widenTo src n) := by
  rw [widenTo, CHIR.widenTo]
  by_cases hsame : w = n
  · rw [dif_pos hsame, dif_pos hsame]
  · rw [dif_neg hsame, dif_neg hsame]
    exact zeroExtend_eq hw (by omega) hsrc

/-! ### Unsigned to signed -/

theorem ncU2SInner_parts (hw : 1 < w) (src : ConstantRange w) (n : ℕ) (ov : OverflowStrategy) :
    ncU2SInner src n ov =
      if src.isEmptySet then some (empty n)
      else if signedPart src n = src ∨ ov = .THROWING then narrowTo (signedPart src n) n false
      else if ov = .SATURATING then
        (unionWith (signedPart src n) (single (signedMaxWord w n)) .signed).bind
          fun ans => narrowTo ans n false
      else if h : w = n then some (castWidth h src)
      else some (full n) := by
  rw [ncU2SInner]
  simp only [from'_eq hw, intersectWith_eq, Option.bind_eq_bind, Option.bind_some]
  rfl

theorem ncU2SInner_eq (hn : 1 < n) (h : n ≤ w) (hsrc : src.Valid) (hflat : src.Unwrapped true)
    (ov : OverflowStrategy) : ncU2SInner src n ov = some (CHIR.ncU2SInner src n ov) := by
  have hw : 1 < w := by omega
  have hpart : (signedPart src n).Valid := valid_signedPart hw hsrc
  have hsingle := valid_single hw (signedMaxWord w n)
  have hkept := narrowTo_eq hn h hpart
    fun v hv => ((contains_signedPart_iff hn h hsrc hflat v).mp hv).1
  have hsaturated := narrowTo_eq hn h (valid_unionWith hw .signed hpart hsingle)
    fun v hv => bounds_signedPart_unionWith hn h hsrc hflat hv
  rw [ncU2SInner_parts hw, CHIR.ncU2SInner_eq, unionWith_eq hw hpart hsingle, Option.bind_some]
  split_ifs
  · rfl
  · exact hkept
  · exact hsaturated
  · rfl
  · rfl

theorem numericConversionU2S_eq (hw : 1 < w) (hn : 1 < n) (hsrc : src.Valid)
    (ov : OverflowStrategy) :
    numericConversionU2S src n ov = some (CHIR.numericConversionU2S src n ov) := by
  rw [numericConversionU2S, CHIR.numericConversionU2S]
  by_cases hwider : w < n
  · rw [if_pos hwider, if_pos hwider]
    exact zeroExtend_eq hw hwider hsrc
  rw [if_neg hwider, if_neg hwider]
  have hnarrow : n ≤ w := by omega
  by_cases hwrapped : src.isWrappedSet = true
  · rw [if_neg (by rw [hwrapped]; simp), if_neg (by rw [hwrapped]; simp)]
    exact convertParts_eq hw hn true _ hwrapped
      (fun part hpart => valid_ncU2SInner_of_le hn hnarrow hpart ov)
      (fun part hpart hflat => ncU2SInner_eq hn hnarrow hpart hflat ov)
  · rw [if_pos (by rw [Bool.not_eq_true', ← Bool.not_eq_true]; exact hwrapped),
      if_pos (by rw [Bool.not_eq_true', ← Bool.not_eq_true]; exact hwrapped)]
    exact ncU2SInner_eq hn hnarrow hsrc ((unwrapped_true_iff src).mpr hwrapped) ov

/-! ### Signed to unsigned -/

theorem ncS2UInnerTrunc_parts (hw : 1 < w) (hsrc : src.Valid) (n : ℕ) (ov : OverflowStrategy) :
    ncS2UInnerTrunc src n ov =
      if src.isEmptySet then some (empty n)
      else if unsignedPart src n = src ∨ ov = .THROWING then
        truncWithUpperWrapped (unsignedPart src n) true n
      else if ov = .SATURATING then
        (unionWhen (src.difference (nonNegPart src)).isNotEmptySet (unsignedPart src n)
          (SInt.zero w) .unsigned).bind fun res =>
            (unionWhen (decide (unsignedPart src n ≠ nonNegPart src)) res
              ((SInt.uMaxValue n).zExt w) .unsigned).bind fun res =>
                truncWithUpperWrapped res true n
      else some (full n) := by
  have hnonNeg := valid_nonNegPart hw hsrc
  rw [ncS2UInnerTrunc]
  simp only [from'_eq hw, intersectWith_eq, Option.bind_eq_bind, Option.bind_some]
  change (if _ then _ else (difference src (nonNegPart src)).bind _) = _
  rw [difference_eq hnonNeg]
  rfl

theorem ncS2UInnerTrunc_eq (hn : 1 < n) (h : n < w) (hsrc : src.Valid)
    (hflat : src.Unwrapped false) (ov : OverflowStrategy) :
    ncS2UInnerTrunc src n ov = some (CHIR.ncS2UInnerTrunc src n ov) := by
  have hw : 1 < w := by omega
  have hpart : (unsignedPart src n).Valid := valid_unsignedPart hw hsrc
  have hlow := fun changed v => valid_unionWhen hw hpart changed v .unsigned
  have hkept := truncWithUpperWrapped_eq hn h hpart
    fun v hv => (bounds_unsignedPart hn h hsrc hflat hv).2
  have hsaturated := fun changed changed' =>
    truncWithUpperWrapped_eq hn h (valid_unionWhen hw (hlow changed _) changed' _ _)
      fun v hv => bounds_saturated hn h hsrc hflat changed changed' hv
  rw [ncS2UInnerTrunc_parts hw hsrc, CHIR.ncS2UInnerTrunc_eq]
  simp only [unionWhen_eq hw hpart, unionWhen_eq hw (hlow _ _), Option.bind_some]
  split_ifs
  · rfl
  · exact hkept
  · exact hsaturated _ _
  · rfl

theorem ncS2UInnerExtend_parts (hw : 1 < w) (hsrc : src.Valid) (n : ℕ) (ov : OverflowStrategy) :
    ncS2UInnerExtend src n ov =
      if src.isEmptySet then some (empty n)
      else if nonNegPart src = src ∨ ov = .THROWING then widenTo (nonNegPart src) n
      else if ov = .SATURATING then
        if (src.difference (nonNegPart src)).isNotEmptySet then
          (unionWith (nonNegPart src) (single (SInt.uMinValue w))).bind fun res => widenTo res n
        else widenTo (nonNegPart src) n
      else
        (make ((src.difference (nonNegPart src)).sMinValue.sExt n)
          ((src.difference (nonNegPart src)).sMaxValue.sExt n + 1)).bind fun negOverflowRange =>
            (widenTo (nonNegPart src) n).bind fun extended =>
              unionWith negOverflowRange extended .unsigned := by
  have hnonNeg := valid_nonNegPart hw hsrc
  rw [ncS2UInnerExtend]
  simp only [from'_eq hw, intersectWith_eq, Option.bind_eq_bind, Option.bind_some]
  change (if _ then _ else (difference src (nonNegPart src)).bind _) = _
  rw [difference_eq hnonNeg]
  rfl

theorem ncS2UInnerExtend_eq (hw : 1 < w) (h : w ≤ n) (hsrc : src.Valid) (ov : OverflowStrategy) :
    ncS2UInnerExtend src n ov = some (CHIR.ncS2UInnerExtend src n ov) := by
  have hn : 1 < n := by omega
  have hpart := valid_nonNegPart hw hsrc
  have hzero := valid_single hw (SInt.uMinValue w)
  have hunion := valid_unionWith hw .smallest hpart hzero
  have hdifference : (src.difference (nonNegPart src)).Valid :=
    valid_intersectWith _ hsrc (valid_inverse hpart)
  have hneg := valid_negOverflowRange hw h hdifference
    fun v hv => neg_of_contains_difference hw hsrc hv
  rw [ncS2UInnerExtend_parts hw hsrc, CHIR.ncS2UInnerExtend_eq, widenTo_eq hw h hpart,
    unionWith_eq hw hpart hzero, make_eq hneg, Option.bind_some, Option.bind_some]
  split_ifs
  · rfl
  · rfl
  · exact widenTo_eq hw h hunion
  · rfl
  · exact unionWith_eq hn hneg (valid_widenTo hw h hpart) .unsigned

theorem numericConversionS2U_eq (hw : 1 < w) (hn : 1 < n) (hsrc : src.Valid)
    (ov : OverflowStrategy) :
    numericConversionS2U src n ov = some (CHIR.numericConversionS2U src n ov) := by
  rw [numericConversionS2U, CHIR.numericConversionS2U]
  by_cases hnarrow : n < w
  · rw [if_pos hnarrow, if_pos hnarrow]
    by_cases hwrapped : src.isSignWrappedSet = true
    · rw [if_pos hwrapped, if_pos hwrapped]
      exact convertParts_eq hw hn false _ hwrapped
        (fun part hpart => valid_ncS2UInnerTrunc hn hnarrow hpart ov)
        (fun part hpart hflat => ncS2UInnerTrunc_eq hn hnarrow hpart hflat ov)
    · rw [if_neg hwrapped, if_neg hwrapped]
      exact ncS2UInnerTrunc_eq hn hnarrow hsrc
        ((unwrapped_false_iff (by omega) src).mpr hwrapped) ov
  · rw [if_neg hnarrow, if_neg hnarrow]
    exact ncS2UInnerExtend_eq hw (by omega) hsrc ov

/-- No assertion fails in the conversion of a legal range. -/
theorem numericConversion_eq (hw : 1 < w) (hn : 1 < n) (hsrc : src.Valid)
    (srcUns dstUns : Bool) (ov : OverflowStrategy) :
    numericConversion src n srcUns dstUns ov =
      some (CHIR.numericConversion src n srcUns dstUns ov) := by
  rw [numericConversion, CHIR.numericConversion]
  split_ifs
  · exact numericConversionWithSameSigness_eq hw hn hsrc srcUns ov
  · exact numericConversionU2S_eq hw hn hsrc ov
  · exact numericConversionS2U_eq hw hn hsrc ov

end Lawful

/-- A conversion of a legal range fails no assertion and holds the results of converting its
elements: the exact value where the destination represents it, and what the strategy makes of the
other values. -/
theorem numericConversion_sound (srcWidth dstWidth : IntWidth) (S : ConstantRange srcWidth.bits)
    (hS : S.Valid) (srcUnsigned dstUnsigned : Bool) (ov : OverflowStrategy) :
    ∃ res, numericConversion S dstWidth.bits srcUnsigned dstUnsigned ov = some res ∧
      ConversionHeld S res srcUnsigned dstUnsigned ov := by
  have hw := srcWidth.two_lt_bits
  have hn := dstWidth.two_lt_bits
  exact ⟨_, numericConversion_eq (by omega) (by omega) hS srcUnsigned dstUnsigned ov,
    conversionHeld_numericConversion (by omega) (by omega) S srcUnsigned dstUnsigned ov⟩

/-- The sixteen-bit values from `-200` to `300`, clamped to unsigned bytes. -/
theorem numericConversion_sound_saturating :
    ∃ res, numericConversion (⟨-200, 301⟩ : ConstantRange IntWidth.I16.bits) IntWidth.I8.bits
      false true .SATURATING = some res ∧
        ConversionHeld (⟨-200, 301⟩ : ConstantRange IntWidth.I16.bits) res false true .SATURATING :=
  numericConversion_sound .I16 .I8 ⟨-200, 301⟩ (by decide) false true .SATURATING

end Cangjie.CHIR.ConstantRange.Asserted
