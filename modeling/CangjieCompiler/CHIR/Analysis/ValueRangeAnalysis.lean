import CangjieCompiler.CHIR.Analysis.SIntDomain

/-!
# The value-range analysis

The part of the analysis that casts integers: the abstract values of a state, the domain of a
cast, and casts performed one after the other.
-/

namespace Cangjie.CHIR

open ConstantRange

/-- An abstract value: a range of Booleans or of integers of some width. -/
inductive ValueRange where
  | BOOL (domain : BoolDomain)
  | SINT (width : IntWidth) (domain : SIntDomain width.bits)

/-- The abstract values that are neither top nor bottom. -/
abbrev RangeDomain := PtrSymbol → Option ValueRange

/-- An integer type of the language. -/
structure IntegerType where
  width : IntWidth
  isUnsigned : Bool
  deriving DecidableEq

/-- The number of bits of an integer type. -/
def IntegerType.bits (t : IntegerType) : ℕ := t.width.bits

section Casts

variable {w : ℕ}

/-- The numeric bound of a cast. -/
def computeTypeCastNumericBound (v : SIntDomain w) (dstSize : ℕ) (dstUnsigned : Bool)
    (ov : OverflowStrategy) : ConstantRange dstSize :=
  if v.isBottom then empty dstSize
  else numericConversion v.numeric dstSize v.unsignedFlag dstUnsigned ov

/-- The state knows that a symbol is never negative. -/
def isNonNegSymbol (state : RangeDomain) (symbol : PtrSymbol) : Bool :=
  match state symbol with
  | some (.SINT _ range) => range.numeric.sMinValue.sge 0
  | _ => false

/-- The symbolic bounds that survive a cast of non-negative values. -/
def castSymbolicBounds (state : RangeDomain) (bounds : SymbolicBoundsMap w) (dstSize : ℕ) :
    SymbolicBoundsMap dstSize :=
  bounds.entries.foldl (fun mp entry =>
    if isNonNegSymbol state entry.1 then
      mp.emplace entry.1 (numericConversion entry.2 dstSize false false .THROWING)
    else mp) .empty

/-- The domain of a cast.  Symbolic bounds are kept for non-negative signed values only. -/
def computeTypeCast (state : RangeDomain) (oldSymbol : PtrSymbol) (v : SIntDomain w)
    (dstSize : ℕ) (dstUnsigned : Bool) (ov : OverflowStrategy) : SIntDomain dstSize :=
  let numericRange := computeTypeCastNumericBound v dstSize dstUnsigned ov
  if dstSize < w || v.unsignedFlag || !dstUnsigned || ov = .SATURATING ||
      numericRange.sMinValue.slt 0 then
    .ofNumeric numericRange v.unsignedFlag
  else
    ⟨numericRange, (castSymbolicBounds state v.symbolics dstSize).emplace oldSymbol (single 0),
      v.unsignedFlag⟩

end Casts

/-! ## Chains of casts -/

/-- A cast of an operand to a target type, seen by the analysis in a state. -/
structure NumericCast where
  state : RangeDomain
  operand : PtrSymbol
  target : IntegerType
  ov : OverflowStrategy

/-- The type at the end of a chain of casts. -/
def endType (t : IntegerType) : List NumericCast → IntegerType
  | [] => t
  | cast :: casts => endType cast.target casts

/-- The domains of the results, each computed from the one before. -/
def castDomain {t : IntegerType} (domain : SIntDomain t.bits) :
    (casts : List NumericCast) → SIntDomain (endType t casts).bits
  | [] => domain
  | cast :: casts =>
    castDomain (t := cast.target)
      (computeTypeCast cast.state cast.operand domain cast.target.bits cast.target.isUnsigned
        cast.ov) casts

end Cangjie.CHIR
