import CangjieCompiler.CHIR.Analysis.SInt

/-!
# Circular ranges of machine integers

A `ConstantRange` is the half-open interval `[lower, upper)` of machine integers of one
width, which may run around the end of the number line.  Equal bounds are legal in two
cases only: `[max, max)` is the full set and `[0, 0)` is the empty set.

The file follows the source function by function.  The membership lemmas live in
`ConstantRange/Membership`, the soundness of the operations in the modules after it.
-/

namespace Cangjie.CHIR

/-- Which of two candidate ranges is preferred when both are possible. -/
inductive PreferredRangeType where
  | smallest
  | unsigned
  | signed
  deriving DecidableEq, Repr

/-- The preference that belongs to a signedness. -/
def preferFromBool (useUnsigned : Bool) : PreferredRangeType :=
  if useUnsigned then .unsigned else .signed

/-- The relational operators. -/
inductive RelationalOperation where
  | LT
  | LE
  | EQ
  | GT
  | GE
  | NE
  deriving DecidableEq, Repr

/-- The relation a relational operator stands for. -/
def RelationalOperation.Holds : RelationalOperation → ℤ → ℤ → Prop
  | .LT, a, b => a < b
  | .LE, a, b => a ≤ b
  | .EQ, a, b => a = b
  | .GT, a, b => b < a
  | .GE, a, b => b ≤ a
  | .NE, a, b => a ≠ b

instance : ∀ (rel : RelationalOperation) (a b : ℤ), Decidable (rel.Holds a b)
  | .LT, a, b => inferInstanceAs (Decidable (a < b))
  | .LE, a, b => inferInstanceAs (Decidable (a ≤ b))
  | .EQ, a, b => inferInstanceAs (Decidable (a = b))
  | .GT, a, b => inferInstanceAs (Decidable (b < a))
  | .GE, a, b => inferInstanceAs (Decidable (b ≤ a))
  | .NE, a, b => inferInstanceAs (Decidable (a ≠ b))

/-- The half-open circular interval `[lower, upper)`. -/
structure ConstantRange (w : ℕ) where
  lower : SInt w
  upper : SInt w
  deriving DecidableEq

namespace ConstantRange

variable {w : ℕ}

/-- What the constructor asserts: equal bounds stand for the full or the empty set only. -/
def Valid (r : ConstantRange w) : Prop :=
  r.lower = r.upper → r.lower.isUMaxValue ∨ r.lower.isUMinValue

instance (r : ConstantRange w) : Decidable r.Valid :=
  inferInstanceAs (Decidable (r.lower = r.upper → r.lower.isUMaxValue ∨ r.lower.isUMinValue))

/-- The full or the empty set of a width. -/
def ofBool (w : ℕ) (full : Bool) : ConstantRange w :=
  let b := if full then SInt.uMaxValue w else SInt.uMinValue w
  ⟨b, b⟩

/-- The empty set. -/
def empty (w : ℕ) : ConstantRange w := ofBool w false

/-- The full set. -/
def full (w : ℕ) : ConstantRange w := ofBool w true

/-- The set of one value. -/
def single (v : SInt w) : ConstantRange w := ⟨v, v + 1⟩

/-- The range with the given bounds, read as the full set when they are equal. -/
def nonEmpty (l r : SInt w) : ConstantRange w := if l = r then full w else ⟨l, r⟩

/-- The values standing in the relation `rel` to `v`, under a signedness. -/
def from' (rel : RelationalOperation) (v : SInt w) (isSigned : Bool) : ConstantRange w :=
  let isMin := (isSigned && v.isSMinValue) || (!isSigned && v.isUMinValue)
  let isMax := (isSigned && v.isSMaxValue) || (!isSigned && v.isUMaxValue)
  if (rel = .LT ∧ isMin) ∨ (rel = .GT ∧ isMax) then empty w
  else if (rel = .LE ∧ isMax) ∨ (rel = .GE ∧ isMin) then full w
  else
    let maxVal := if isSigned then SInt.sMaxValue w else SInt.uMaxValue w
    let minVal := if isSigned then SInt.sMinValue w else SInt.uMinValue w
    match rel with
    | .EQ => single v
    | .NE => ⟨v + 1, v⟩
    | .GE => ⟨v, maxVal + 1⟩
    | .GT => ⟨v + 1, maxVal + 1⟩
    | .LE => ⟨minVal, v + 1⟩
    | .LT => ⟨minVal, v⟩

/-! ## Queries -/

/-- The range is the full set. -/
def isFullSet (r : ConstantRange w) : Bool := r.lower == r.upper && r.lower.isUMaxValue

/-- The range is the empty set. -/
def isEmptySet (r : ConstantRange w) : Bool := r.lower == r.upper && r.lower.isUMinValue

/-- The range has an element. -/
def isNotEmptySet (r : ConstantRange w) : Bool := !r.isEmptySet

/-- The range excludes some value. -/
def isNonTrivial (r : ConstantRange w) : Bool := !r.isFullSet

/-- The range runs past the largest unsigned value and goes on from zero. -/
def isWrappedSet (r : ConstantRange w) : Bool := r.lower.ugt r.upper && !r.upper.isZero

/-- The range reaches the largest unsigned value from below. -/
def isUpperWrapped (r : ConstantRange w) : Bool := r.lower.ugt r.upper

/-- The range runs past the largest signed value and goes on from the smallest. -/
def isSignWrappedSet (r : ConstantRange w) : Bool :=
  r.lower.sgt r.upper && !r.upper.isSMinValue

/-- The range reaches the largest signed value from below. -/
def isUpperSignWrapped (r : ConstantRange w) : Bool := r.lower.sgt r.upper

/-- Membership of a value. -/
def contains (r : ConstantRange w) (v : SInt w) : Bool :=
  if r.lower = r.upper then r.isFullSet
  else if !r.isUpperWrapped then r.lower.ule v && v.ult r.upper
  else r.lower.ule v || v.ult r.upper

/-- The range has exactly one element. -/
def isSingleElement (r : ConstantRange w) : Bool := r.upper == r.lower + 1

/-- The element of a range with one element. -/
def getSingleElement (r : ConstantRange w) : SInt w := r.lower

/-- Comparison of the number of elements. -/
def isSizeStrictlySmallerThan (r rhs : ConstantRange w) : Bool :=
  if r.isFullSet then false
  else if rhs.isFullSet then true
  else SInt.ult (r.upper - r.lower) (rhs.upper - rhs.lower)

/-- The largest element, read as unsigned. -/
def uMaxValue (r : ConstantRange w) : SInt w :=
  if r.isFullSet || r.isUpperWrapped then SInt.uMaxValue w else r.upper - 1

/-- The smallest element, read as unsigned. -/
def uMinValue (r : ConstantRange w) : SInt w :=
  if r.isFullSet || r.isWrappedSet then SInt.uMinValue w else r.lower

/-- The largest element, read as signed. -/
def sMaxValue (r : ConstantRange w) : SInt w :=
  if r.isFullSet || r.isUpperSignWrapped then SInt.sMaxValue w else r.upper - 1

/-- The smallest element, read as signed. -/
def sMinValue (r : ConstantRange w) : SInt w :=
  if r.isFullSet || r.isSignWrappedSet then SInt.sMinValue w else r.lower

/-! ## Set operations -/

/-- The complement. -/
def inverse (r : ConstantRange w) : ConstantRange w :=
  if r.isFullSet then empty w
  else if r.isEmptySet then full w
  else ⟨r.upper, r.lower⟩

/-- The choice between two ranges by a preference. -/
def getPreferredRange (a b : ConstantRange w) (type : PreferredRangeType) : ConstantRange w :=
  let smaller := if a.isSizeStrictlySmallerThan b then a else b
  match type with
  | .unsigned =>
    if !a.isWrappedSet && b.isWrappedSet then a
    else if a.isWrappedSet && !b.isWrappedSet then b
    else smaller
  | .signed =>
    if !a.isSignWrappedSet && b.isSignWrappedSet then a
    else if a.isSignWrappedSet && !b.isSignWrappedSet then b
    else smaller
  | .smallest => smaller

/-- Intersection when both ranges reach the largest unsigned value. -/
def intersectBothWrapped (r rhs : ConstantRange w) (type : PreferredRangeType) :
    ConstantRange w :=
  if rhs.upper.ult r.upper then
    if rhs.lower.ult r.upper then getPreferredRange r rhs type
    else if rhs.lower.ult r.lower then ⟨r.lower, rhs.upper⟩
    else rhs
  else if rhs.upper.ule r.lower then
    if rhs.lower.ult r.lower then r else ⟨rhs.lower, r.upper⟩
  else getPreferredRange r rhs type

/-- Intersection when only the first range reaches the largest unsigned value. -/
def intersectWrappedWithUnwrapped (r rhs : ConstantRange w) (type : PreferredRangeType) :
    ConstantRange w :=
  if rhs.lower.ult r.upper then
    if rhs.upper.ult r.upper then rhs
    else if rhs.upper.ule r.lower then ⟨rhs.lower, r.upper⟩
    else getPreferredRange r rhs type
  else if rhs.lower.ult r.lower then
    if rhs.upper.ule r.lower then empty w else ⟨r.lower, rhs.upper⟩
  else rhs

/-- Intersection when no range reaches the largest unsigned value from below. -/
def intersectBothUnwrapped (r rhs : ConstantRange w) : ConstantRange w :=
  if r.lower.ult rhs.lower then
    if r.upper.ule rhs.lower then empty w
    else if r.upper.ult rhs.upper then ⟨rhs.lower, r.upper⟩
    else rhs
  else if rhs.upper.ule r.lower then empty w
  else if rhs.upper.ult r.upper then ⟨r.lower, rhs.upper⟩
  else r

/-- The intersection, or the preferred of two enclosing ranges when it falls apart. -/
def intersectWith (r rhs : ConstantRange w) (type : optParam PreferredRangeType .smallest) :
    ConstantRange w :=
  if r.isEmptySet || rhs.isFullSet then r
  else if rhs.isEmptySet || r.isFullSet then rhs
  else if !r.isUpperWrapped && rhs.isUpperWrapped then
    intersectWrappedWithUnwrapped rhs r type
  else if !r.isUpperWrapped && !rhs.isUpperWrapped then intersectBothUnwrapped r rhs
  else if r.isUpperWrapped && !rhs.isUpperWrapped then intersectWrappedWithUnwrapped r rhs type
  else intersectBothWrapped r rhs type

/-- The elements of the first range outside the second. -/
def difference (r rhs : ConstantRange w) : ConstantRange w := r.intersectWith rhs.inverse

/-- Union when both ranges reach the largest unsigned value. -/
def unionBothWrapped (r rhs : ConstantRange w) : ConstantRange w :=
  if rhs.lower.ule r.upper || r.lower.ule rhs.upper then full w
  else
    ⟨if rhs.lower.ult r.lower then rhs.lower else r.lower,
      if rhs.upper.ugt r.upper then rhs.upper else r.upper⟩

/-- Union when only the first range reaches the largest unsigned value. -/
def unionWrappedWithUnwrapped (r rhs : ConstantRange w) (type : PreferredRangeType) :
    ConstantRange w :=
  if rhs.lower.ule r.upper then
    if rhs.upper.ult r.upper then r
    else if rhs.upper.ult r.lower then ⟨r.lower, rhs.upper⟩
    else full w
  else if rhs.lower.ult r.lower then
    if rhs.upper.ult r.lower then
      getPreferredRange ⟨r.lower, rhs.upper⟩ ⟨rhs.lower, r.upper⟩ type
    else ⟨rhs.lower, r.upper⟩
  else r

/-- Union when no range reaches the largest unsigned value from below. -/
def unionBothUnwrapped (r rhs : ConstantRange w) (type : PreferredRangeType) :
    ConstantRange w :=
  if rhs.upper.ult r.lower || r.upper.ult rhs.lower then
    getPreferredRange ⟨r.lower, rhs.upper⟩ ⟨rhs.lower, r.upper⟩ type
  else
    let newLower := if rhs.lower.ult r.lower then rhs.lower else r.lower
    let newUpper := if SInt.ugt (rhs.upper - 1) (r.upper - 1) then rhs.upper else r.upper
    if newLower.isZero && newUpper.isZero then full w else ⟨newLower, newUpper⟩

/-- The preferred range that encloses both ranges. -/
def unionWith (r rhs : ConstantRange w) (type : optParam PreferredRangeType .smallest) :
    ConstantRange w :=
  if r.isFullSet || rhs.isEmptySet then r
  else if rhs.isFullSet || r.isEmptySet then rhs
  else if r.isUpperWrapped then
    if rhs.isUpperWrapped then unionBothWrapped r rhs else unionWrappedWithUnwrapped r rhs type
  else if rhs.isUpperWrapped then unionWrappedWithUnwrapped rhs r type
  else unionBothUnwrapped r rhs type

/-- The two unwrapped parts of a wrapped range. -/
def splitWrapping (r : ConstantRange w) (asUnsigned : Bool) :
    ConstantRange w × ConstantRange w :=
  (from' .LT r.upper (!asUnsigned), from' .GE r.lower (!asUnsigned))

/-! ## Changes of width -/

/-- Zero extension of all elements. -/
def zeroExtend (r : ConstantRange w) (w' : ℕ) : ConstantRange w' :=
  if r.isEmptySet then empty w'
  else if r.isFullSet || r.isWrappedSet then ⟨0, SInt.getOneBitSet w' w⟩
  else if r.upper.isUMinValue then ⟨r.lower.zExt w', SInt.getOneBitSet w' w⟩
  else ⟨r.lower.zExt w', r.upper.zExt w'⟩

/-- Sign extension of all elements. -/
def signExtend (r : ConstantRange w) (w' : ℕ) : ConstantRange w' :=
  if r.isEmptySet then empty w'
  else if r.isFullSet || r.isSignWrappedSet then
    ⟨SInt.getHighBitsSet w' ((w' - w) + 1), SInt.getLowBitsSet w' (w - 1) + 1⟩
  else if r.upper.isSMinValue then ⟨r.lower.sExt w', r.upper.zExt w'⟩
  else ⟨r.lower.sExt w', r.upper.sExt w'⟩

/-- The part of `truncate` that works on an unwrapped interval `[lowerDiv, upperDiv)` and adds
the part already found for the wrapped end. -/
def truncateUnwrapped (lowerDiv upperDiv : SInt w) (w' : ℕ) (wrappedPart : ConstantRange w') :
    ConstantRange w' :=
  let adjust := if w' < lowerDiv.activeBits then lowerDiv &&& SInt.getBitsSetFrom w w' else 0
  let lowerDiv := lowerDiv - adjust
  let upperDiv := upperDiv - adjust
  let upperDivWidth := upperDiv.activeBits
  if upperDivWidth ≤ w' then
    unionWith ⟨lowerDiv.trunc w', upperDiv.trunc w'⟩ wrappedPart
  else if upperDivWidth = w' + 1 then
    let upperDiv := SInt.clearBit upperDiv w'
    if upperDiv.ult lowerDiv then
      unionWith ⟨lowerDiv.trunc w', upperDiv.trunc w'⟩ wrappedPart
    else full w'
  else full w'

/-- Truncation of all elements. -/
def truncate (r : ConstantRange w) (w' : ℕ) : ConstantRange w' :=
  if r.isEmptySet then empty w'
  else if r.isFullSet then full w'
  else if r.isUpperWrapped then
    let dstMaxVal := SInt.uMaxValue w'
    if r.upper.uge (dstMaxVal.zExt w) then full w'
    else
      let wrappedPart : ConstantRange w' := ⟨dstMaxVal, r.upper.trunc w'⟩
      if r.lower.isUMaxValue then wrappedPart
      else truncateUnwrapped r.lower (SInt.allOnes w) w' wrappedPart
  else truncateUnwrapped r.lower r.upper w' (empty w')

/-! ## Arithmetic -/

/-- The sums, modulo the width. -/
def add (r rhs : ConstantRange w) : ConstantRange w :=
  if r.isEmptySet || rhs.isEmptySet then empty w
  else if r.isFullSet || rhs.isFullSet then full w
  else
    let newLower := r.lower + rhs.lower
    let newUpper := r.upper + rhs.upper - 1
    if newLower = newUpper then full w
    else
      let res : ConstantRange w := ⟨newLower, newUpper⟩
      if res.isSizeStrictlySmallerThan r || res.isSizeStrictlySmallerThan rhs then full w
      else res

/-- The differences, modulo the width. -/
def sub (r rhs : ConstantRange w) : ConstantRange w :=
  if r.isEmptySet || rhs.isEmptySet then empty w
  else if r.isFullSet || rhs.isFullSet then full w
  else
    let newLower := r.lower - rhs.upper + 1
    let newUpper := r.upper - rhs.lower
    if newLower = newUpper then full w
    else
      let res : ConstantRange w := ⟨newLower, newUpper⟩
      if res.isSizeStrictlySmallerThan r || res.isSizeStrictlySmallerThan rhs then full w
      else res

/-- The unsigned products. -/
def uMul (r rhs : ConstantRange w) : ConstantRange w :=
  if r.isEmptySet || rhs.isEmptySet then empty w
  else
    let lo := SInt.uMulOvf r.uMinValue rhs.uMinValue
    let up := SInt.uMulOvf r.uMaxValue rhs.uMaxValue
    if lo.2 || up.2 then full w else nonEmpty lo.1 (up.1 + 1)

/-- The smaller of two values in the signed order, as `std::min` picks it. -/
def sMinOf (a b : SInt w) : SInt w := if b.slt a then b else a

/-- The larger of two values in the signed order, as `std::max` picks it. -/
def sMaxOf (a b : SInt w) : SInt w := if a.slt b then b else a

/-- The signed products. -/
def sMul (r rhs : ConstantRange w) : ConstantRange w :=
  if r.isEmptySet || rhs.isEmptySet then empty w
  else
    let p1 := SInt.sMulOvf r.sMinValue rhs.sMinValue
    let p2 := SInt.sMulOvf r.sMinValue rhs.sMaxValue
    let p3 := SInt.sMulOvf r.sMaxValue rhs.sMinValue
    let p4 := SInt.sMulOvf r.sMaxValue rhs.sMaxValue
    if p1.2 || p2.2 || p3.2 || p4.2 then full w
    else
      let lo := sMinOf (sMinOf (sMinOf p1.1 p2.1) p3.1) p4.1
      let up := sMaxOf (sMaxOf (sMaxOf p1.1 p2.1) p3.1) p4.1 + 1
      nonEmpty lo up

/-- The unsigned quotients. -/
def uDiv (r rhs : ConstantRange w) : ConstantRange w :=
  if r.isEmptySet || rhs.isEmptySet || rhs.uMaxValue.isZero then empty w
  else
    let newLower := SInt.uDiv r.uMinValue rhs.uMaxValue
    let rhsUMin :=
      if rhs.uMinValue.isZero then (if rhs.upper = 1 then rhs.lower else 1) else rhs.uMinValue
    let newUpper := SInt.uDiv r.uMaxValue rhsUMin + 1
    nonEmpty newLower newUpper

/-- The upper end of the quotients of two negative ranges, without `signedMin / -1`. -/
def sDivNegNegUpper (r rhs negL negR : ConstantRange w) (div : SInt w → SInt w → SInt w) :
    SInt w :=
  let signedMin := SInt.sMinValue w
  let up := div negL.lower (negR.upper - 1) + 1
  if negL.lower.isSMinValue && negR.upper.isZero then
    let up :=
      if !negR.lower.isAllOnes then
        let adjNegRUpper := if rhs.lower.isAllOnes then rhs.upper else negR.upper - 1
        div negL.lower (adjNegRUpper - 1) + 1
      else up
    if negL.upper ≠ signedMin + 1 then
      let adjNegLLower := if r.upper = signedMin + 1 then r.lower else negL.lower + 1
      div adjNegLLower (negR.upper - 1) + 1
    else up
  else up

/-- The positive values. -/
def posFilter (w : ℕ) : ConstantRange w := ⟨1, SInt.sMinValue w⟩

/-- The negative values. -/
def negFilter (w : ℕ) : ConstantRange w := ⟨SInt.sMinValue w, SInt.zero w⟩

/-- The quotients of positive values. -/
def posDivPosRes (posL posR : ConstantRange w) (div : SInt w → SInt w → SInt w) :
    ConstantRange w :=
  if !posL.isEmptySet && !posR.isEmptySet then
    ⟨div posL.lower (posR.upper - 1), div (posL.upper - 1) posR.lower + 1⟩
  else empty w

/-- The quotients of negative values. -/
def negDivNegRes (r rhs negL negR : ConstantRange w) (div : SInt w → SInt w → SInt w) :
    ConstantRange w :=
  if !negL.isEmptySet && !negR.isEmptySet then
    ⟨div (negL.upper - 1) negR.lower, sDivNegNegUpper r rhs negL negR div⟩
  else empty w

/-- The quotients of positive by negative values. -/
def posDivNegRes (posL negR : ConstantRange w) (div : SInt w → SInt w → SInt w) :
    ConstantRange w :=
  if !posL.isEmptySet && !negR.isEmptySet then
    ⟨div (posL.upper - 1) (negR.upper - 1), div posL.lower negR.lower + 1⟩
  else empty w

/-- The quotients of negative by positive values. -/
def negDivPosRes (negL posR : ConstantRange w) (div : SInt w → SInt w → SInt w) :
    ConstantRange w :=
  if !negL.isEmptySet && !posR.isEmptySet then
    ⟨div negL.lower posR.lower, div (negL.upper - 1) (posR.upper - 1) + 1⟩
  else empty w

/-- The quotients of non-zero values, quadrant by quadrant. -/
def sDivQuadrants (r rhs : ConstantRange w) (div : SInt w → SInt w → SInt w) :
    ConstantRange w :=
  let posL := r.intersectWith (posFilter w)
  let negL := r.intersectWith (negFilter w)
  let posR := rhs.intersectWith (posFilter w)
  let negR := rhs.intersectWith (negFilter w)
  let posRes := (posDivPosRes posL posR div).unionWith (negDivNegRes r rhs negL negR div)
  let negRes := (posDivNegRes posL negR div).unionWith (negDivPosRes negL posR div)
  negRes.unionWith posRes .signed

/-- The signed quotients. -/
def sDivImpl (r rhs : ConstantRange w) (div : SInt w → SInt w → SInt w) : ConstantRange w :=
  let zero := SInt.zero w
  let posR := rhs.intersectWith (posFilter w)
  let negR := rhs.intersectWith (negFilter w)
  let res := sDivQuadrants r rhs div
  if r.contains zero && (!posR.isEmptySet || !negR.isEmptySet) then
    res.unionWith (single zero)
  else res

/-- The signed saturating quotients. -/
def sDivSat (r rhs : ConstantRange w) : ConstantRange w := sDivImpl r rhs SInt.sDivSat

/-- The signed quotients. -/
def sDiv (r rhs : ConstantRange w) : ConstantRange w := sDivImpl r rhs SInt.sDiv

/-- The unsigned remainders. -/
def uRem (r rhs : ConstantRange w) : ConstantRange w :=
  if r.isEmptySet || rhs.isEmptySet || rhs.uMaxValue.isZero then empty w
  else if rhs.isSingleElement && rhs.getSingleElement.isZero then empty w
  else if rhs.isSingleElement && r.isSingleElement then
    single (SInt.uRem r.getSingleElement rhs.getSingleElement)
  else if r.uMaxValue.ult rhs.uMinValue then r
  else nonEmpty (SInt.zero w) (SInt.uMin r.uMaxValue (rhs.uMaxValue - 1) + 1)

/-- The absolute values. -/
def abs (r : ConstantRange w) (intMinIsPoison : optParam Bool false) : ConstantRange w :=
  if r.isEmptySet then empty w
  else if r.isSignWrappedSet then
    let lo :=
      if r.upper.isPositive || !r.lower.isPositive then SInt.zero w
      else SInt.uMin r.lower (-r.upper + 1)
    if intMinIsPoison then ⟨lo, SInt.sMinValue w⟩ else ⟨lo, SInt.sMinValue w + 1⟩
  else
    let sMin := r.sMinValue
    let sMax := r.sMaxValue
    if intMinIsPoison && sMin.isSMinValue && sMax.isSMinValue then empty w
    else
      let sMin := if intMinIsPoison && sMin.isSMinValue then sMin + 1 else sMin
      if sMin.isNonNeg then r
      else if sMax.isNeg then ⟨-sMax, -sMin + 1⟩
      else ⟨SInt.zero w, SInt.uMax (-sMin) sMax + 1⟩

/-- The signed remainders. -/
def sRem (r rhs : ConstantRange w) : ConstantRange w :=
  if r.isEmptySet || rhs.isEmptySet then empty w
  else if rhs.isSingleElement && rhs.getSingleElement.isZero then empty w
  else if rhs.isSingleElement && r.isSingleElement then
    single (SInt.sRem r.getSingleElement rhs.getSingleElement)
  else
    let absRhs := rhs.abs
    let maxAbsRhs := absRhs.uMaxValue
    if maxAbsRhs.isZero then empty w
    else
      let minAbsRhs := if absRhs.uMinValue.isZero then absRhs.uMinValue + 1 else absRhs.uMinValue
      let minLhs := r.sMinValue
      let maxLhs := r.sMaxValue
      if minLhs.isNonNeg then
        if maxLhs.ult minAbsRhs then r
        else ⟨SInt.zero w, SInt.uMin maxLhs (maxAbsRhs - 1) + 1⟩
      else if maxLhs.isNeg then
        if minLhs.ugt (-minAbsRhs) then r
        else ⟨SInt.uMax minLhs (-maxAbsRhs + 1), 1⟩
      else ⟨SInt.uMax minLhs (-maxAbsRhs + 1), SInt.uMin maxLhs (maxAbsRhs - 1) + 1⟩

/-- The unsigned saturating sums. -/
def uAddSat (r rhs : ConstantRange w) : ConstantRange w :=
  if r.isEmptySet || rhs.isEmptySet then empty w
  else nonEmpty (SInt.uAddSat r.uMinValue rhs.uMinValue)
    (SInt.uAddSat r.uMaxValue rhs.uMaxValue + 1)

/-- The signed saturating sums. -/
def sAddSat (r rhs : ConstantRange w) : ConstantRange w :=
  if r.isEmptySet || rhs.isEmptySet then empty w
  else nonEmpty (SInt.sAddSat r.sMinValue rhs.sMinValue)
    (SInt.sAddSat r.sMaxValue rhs.sMaxValue + 1)

/-- The unsigned saturating differences. -/
def uSubSat (r rhs : ConstantRange w) : ConstantRange w :=
  if r.isEmptySet || rhs.isEmptySet then empty w
  else nonEmpty (SInt.uSubSat r.uMinValue rhs.uMaxValue)
    (SInt.uSubSat r.uMaxValue rhs.uMinValue + 1)

/-- The signed saturating differences. -/
def sSubSat (r rhs : ConstantRange w) : ConstantRange w :=
  if r.isEmptySet || rhs.isEmptySet then empty w
  else nonEmpty (SInt.sSubSat r.sMinValue rhs.sMaxValue)
    (SInt.sSubSat r.sMaxValue rhs.sMinValue + 1)

/-- The unsigned saturating products. -/
def uMulSat (r rhs : ConstantRange w) : ConstantRange w :=
  if r.isEmptySet || rhs.isEmptySet then empty w
  else nonEmpty (SInt.uMulSat r.uMinValue rhs.uMinValue)
    (SInt.uMulSat r.uMaxValue rhs.uMaxValue + 1)

/-- The signed saturating products. -/
def sMulSat (r rhs : ConstantRange w) : ConstantRange w :=
  if r.isEmptySet || rhs.isEmptySet then empty w
  else
    let p1 := SInt.sMulSat r.sMinValue rhs.sMinValue
    let p2 := SInt.sMulSat r.sMinValue rhs.sMaxValue
    let p3 := SInt.sMulSat r.sMaxValue rhs.sMinValue
    let p4 := SInt.sMulSat r.sMaxValue rhs.sMaxValue
    let lo := sMinOf (sMinOf (sMinOf p1 p2) p3) p4
    let up := sMaxOf (sMaxOf (sMaxOf p1 p2) p3) p4 + 1
    nonEmpty lo up

/-- The negations. -/
def negate (r : ConstantRange w) : ConstantRange w :=
  if r.isEmptySet || r.isFullSet then r
  else
    let lo := -(r.upper - 1)
    let up := if r.lower.isSMinValue then r.lower else -r.lower + 1
    ⟨lo, up⟩

end ConstantRange

end Cangjie.CHIR
