import CangjieCompiler.CHIR.Analysis.ConstantRange

/-!
# Conversion of ranges between integer types

The numeric bound of an integer cast.  The four combinations of source and destination
signedness are separate functions in the source, each with its own treatment of narrowing,
equal widths and the overflow strategies.
-/

namespace Cangjie.CHIR

open ConstantRange

variable {w : ℕ}

/-- Narrowing without change of signedness, for a range that does not wrap. -/
def ncSameSignessInner (src : ConstantRange w) (dstSize : ℕ) (isUnsigned : Bool)
    (ov : OverflowStrategy) : ConstantRange dstSize :=
  if src.isFullSet then full dstSize
  else if src.isEmptySet then empty dstSize
  else
    let higherPart :=
      (if isUnsigned then from' .GE ((SInt.uMinValue dstSize).zExt w) false
        else from' .GE ((SInt.sMinValue dstSize).sExt w) true).intersectWith src
        (preferFromBool isUnsigned)
    let unchangedPart :=
      (if isUnsigned then from' .LE ((SInt.uMaxValue dstSize).zExt w) false
        else from' .LE ((SInt.sMaxValue dstSize).sExt w) true).intersectWith higherPart
        (preferFromBool isUnsigned)
    let res := unchangedPart.truncate dstSize
    if src = unchangedPart ∨ ov = .THROWING then res
    else if ov = .WRAPPING then full dstSize
    else
      let res :=
        if (src.difference higherPart).isNotEmptySet then
          res.unionWith
            (single (if isUnsigned then SInt.uMinValue dstSize else SInt.sMinValue dstSize))
            (preferFromBool isUnsigned)
        else res
      if (higherPart.difference unchangedPart).isNotEmptySet then
        res.unionWith
          (single (if isUnsigned then SInt.uMaxValue dstSize else SInt.sMaxValue dstSize))
          (preferFromBool isUnsigned)
      else res

/-- Conversion without change of signedness. -/
def numericConversionWithSameSigness (src : ConstantRange w) (dstSize : ℕ) (isUnsigned : Bool)
    (ov : OverflowStrategy) : ConstantRange dstSize :=
  if h : w = dstSize then h ▸ src
  else if w < dstSize then
    if isUnsigned then src.zeroExtend dstSize else src.signExtend dstSize
  else if (if isUnsigned then src.isWrappedSet else src.isSignWrappedSet) then
    let parts := src.splitWrapping isUnsigned
    let l1 := ncSameSignessInner parts.1 dstSize isUnsigned ov
    let r1 := ncSameSignessInner parts.2 dstSize isUnsigned ov
    l1.unionWith r1 (preferFromBool isUnsigned)
  else ncSameSignessInner src dstSize isUnsigned ov

/-- Truncation of a range whose excluded upper bound may just not fit the destination. -/
def truncWithUpperWrapped (src : ConstantRange w) (dstUnsigned : Bool) (dstSize : ℕ) :
    ConstantRange dstSize :=
  let dstMax := if dstUnsigned then SInt.uMaxValue dstSize else SInt.sMaxValue dstSize
  if src.upper = dstMax.zExt w + 1 then
    let lower := src.lower.trunc dstSize
    let upper := SInt.trunc (src.upper - 1) dstSize + 1
    if lower = upper then full dstSize else ⟨lower, upper⟩
  else src.truncate dstSize

/-- A range moved to an equal width. -/
def castWidth {w' : ℕ} (h : w = w') (r : ConstantRange w) : ConstantRange w' := h ▸ r

/-- Unsigned to signed, for a range that does not wrap and a destination not wider than the
source. -/
def ncU2SInner (src : ConstantRange w) (dstSize : ℕ) (ov : OverflowStrategy) :
    ConstantRange dstSize :=
  let dstMax : SInt w :=
    if dstSize < w then (SInt.sMaxValue dstSize).sExt w else (SInt.sMaxValue dstSize).trunc w
  let finish (r : ConstantRange w) : ConstantRange dstSize :=
    if h : w = dstSize then castWidth h r else truncWithUpperWrapped r false dstSize
  if src.isEmptySet then empty dstSize
  else
    let unchangedRange := (from' .LE dstMax false).intersectWith src .unsigned
    if unchangedRange = src ∨ ov = .THROWING then finish unchangedRange
    else if ov = .SATURATING then finish (unchangedRange.unionWith (single dstMax) .signed)
    else if h : w = dstSize then castWidth h src
    else full dstSize

/-- Unsigned to signed. -/
def numericConversionU2S (src : ConstantRange w) (dstSize : ℕ) (ov : OverflowStrategy) :
    ConstantRange dstSize :=
  if w < dstSize then src.zeroExtend dstSize
  else if !src.isWrappedSet then ncU2SInner src dstSize ov
  else
    let parts := src.splitWrapping true
    (ncU2SInner parts.1 dstSize ov).unionWith (ncU2SInner parts.2 dstSize ov) .signed

/-- Unsigned to signed of the same width, keeping only the values that are representable. -/
def numericConversionU2SSameWidth (src : ConstantRange w) : ConstantRange w :=
  numericConversionU2S src w .THROWING

/-- Signed to unsigned, for a range that does not wrap and a narrower destination. -/
def ncS2UInnerTrunc (src : ConstantRange w) (dstSize : ℕ) (ov : OverflowStrategy) :
    ConstantRange dstSize :=
  if src.isEmptySet then empty dstSize
  else
    let nonNegRange := src.intersectWith (from' .GE (SInt.zero w) true) .signed
    let negRange := src.difference nonNegRange
    let unchangedRange :=
      nonNegRange.intersectWith (from' .LE ((SInt.uMaxValue dstSize).zExt w) true)
    if unchangedRange = src ∨ ov = .THROWING then
      truncWithUpperWrapped unchangedRange true dstSize
    else if ov = .SATURATING then
      let res := unchangedRange
      let res :=
        if negRange.isNotEmptySet then res.unionWith (single (SInt.zero w)) .unsigned else res
      let res :=
        if unchangedRange ≠ nonNegRange then
          res.unionWith (single ((SInt.uMaxValue dstSize).zExt w)) .unsigned
        else res
      truncWithUpperWrapped res true dstSize
    else full dstSize

/-- Signed to unsigned, for a destination not narrower than the source. -/
def ncS2UInnerExtend (src : ConstantRange w) (dstSize : ℕ) (ov : OverflowStrategy) :
    ConstantRange dstSize :=
  let extend (r : ConstantRange w) : ConstantRange dstSize :=
    if h : w = dstSize then castWidth h r else r.zeroExtend dstSize
  if src.isEmptySet then empty dstSize
  else
    let nonNegRange := src.intersectWith (from' .GE (SInt.zero w) true) .signed
    let negRange := src.difference nonNegRange
    if nonNegRange = src ∨ ov = .THROWING then extend nonNegRange
    else if ov = .SATURATING then
      let nonNegRange :=
        if negRange.isNotEmptySet then nonNegRange.unionWith (single (SInt.uMinValue w))
        else nonNegRange
      extend nonNegRange
    else
      let negOverflowRange : ConstantRange dstSize :=
        ⟨negRange.sMinValue.sExt dstSize, negRange.sMaxValue.sExt dstSize + 1⟩
      negOverflowRange.unionWith (extend nonNegRange) .unsigned

/-- Signed to unsigned. -/
def numericConversionS2U (src : ConstantRange w) (dstSize : ℕ) (ov : OverflowStrategy) :
    ConstantRange dstSize :=
  if dstSize < w then
    if src.isSignWrappedSet then
      let parts := src.splitWrapping false
      (ncS2UInnerTrunc parts.1 dstSize ov).unionWith (ncS2UInnerTrunc parts.2 dstSize ov)
        .unsigned
    else ncS2UInnerTrunc src dstSize ov
  else ncS2UInnerExtend src dstSize ov

/-- The range of the results of a cast of the elements of `src`. -/
def numericConversion (src : ConstantRange w) (dstSize : ℕ) (srcUnsigned dstUnsigned : Bool)
    (ov : OverflowStrategy) : ConstantRange dstSize :=
  if srcUnsigned = dstUnsigned then numericConversionWithSameSigness src dstSize srcUnsigned ov
  else if srcUnsigned then numericConversionU2S src dstSize ov
  else numericConversionS2U src dstSize ov

end Cangjie.CHIR
