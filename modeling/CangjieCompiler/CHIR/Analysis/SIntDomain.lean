import CangjieCompiler.Foundations.OrderedMap
import CangjieCompiler.CHIR.Analysis.BoolDomain
import CangjieCompiler.CHIR.Analysis.NumericConversion

/-!
# The integer domain of the value-range analysis

A domain is a numeric range together with symbolic bounds: a bound `s:[B]` says that the
difference between the described value and the value of the symbol `s` lies in `B`, which is
always read as a signed range.

The file follows the source function by function: the arithmetic of domains, their comparison,
and their union.  The modules below it say when the results are sound.
-/

namespace Cangjie.CHIR

open ConstantRange

/-- The kinds of binary expressions. -/
inductive BinaryExprKind where
  | ADD
  | SUB
  | MUL
  | DIV
  | MOD
  | EXP
  | LSHIFT
  | RSHIFT
  | BITAND
  | BITOR
  | BITXOR
  | LT
  | GT
  | LE
  | GE
  | EQUAL
  | NOTEQUAL
  | AND
  | OR
  deriving DecidableEq, Repr

/-- A symbol is a pointer to a value and is ordered by its address. -/
abbrev PtrSymbol := ℕ

/-- The symbolic bounds of a domain. -/
abbrev SymbolicBoundsMap (w : ℕ) := OrderedMap PtrSymbol (ConstantRange w)

/-- A numeric range with symbolic bounds.  The flag tells how the numeric range is read. -/
structure SIntDomain (w : ℕ) where
  numeric : ConstantRange w
  symbolics : SymbolicBoundsMap w
  unsignedFlag : Bool

namespace SIntDomain

variable {w : ℕ}

/-- A domain without symbolic bounds. -/
def ofNumeric (numeric : ConstantRange w) (isUnsigned : Bool) : SIntDomain w :=
  ⟨numeric, .empty, isUnsigned⟩

/-- A domain with one symbolic bound, which takes its flag from the type of the symbol. -/
def ofSymbolicBound (numeric : ConstantRange w) (symbol : PtrSymbol) (symbolTypeUnsigned : Bool)
    (symbolicBound : ConstantRange w) : SIntDomain w :=
  ⟨numeric, OrderedMap.empty.emplace symbol symbolicBound, symbolTypeUnsigned⟩

/-- The domain describes no value. -/
def isBottom (d : SIntDomain w) : Bool := d.numeric.isEmptySet

/-- The bound against a symbol. -/
def findSymbolicBound (d : SIntDomain w) (symbol : PtrSymbol) : Option (ConstantRange w) :=
  d.symbolics.find? symbol

/-- The change test of the analysis looks at the numeric ranges only. -/
def isSame (d domain : SIntDomain w) : Bool := d.numeric == domain.numeric

/-- The domain without values. -/
def bottom (w : ℕ) (isUnsigned : Bool) : SIntDomain w := ofNumeric (ConstantRange.empty w) isUnsigned

end SIntDomain

/-! ## Arithmetic -/

section Arithmetic

variable {w : ℕ}

/-- The operands of an arithmetic operation, its kind, strategy and signedness.  What the type of
the left symbol says about signedness is read by one constructor of domains. -/
structure CHIRArithmeticBinopArgs (w : ℕ) where
  ld : SIntDomain w
  rd : SIntDomain w
  l : PtrSymbol
  r : PtrSymbol
  op : BinaryExprKind
  ov : OverflowStrategy
  uns : Bool
  lTypeUnsigned : Bool

/-- The operation clamps its result. -/
def isSaturating (ov : OverflowStrategy) : Bool := ov == .SATURATING

/-- A numeric bound turned into a signed symbolic one, discarded if that narrows it. -/
def numericBoundToSignedSymbolicBound (origin : ConstantRange w) (isUnsigned : Bool) :
    Option (ConstantRange w) :=
  if !isUnsigned then some origin
  else
    let res := numericConversionU2SSameWidth origin
    if res = origin then some res else none

/-- The bound of a sum against the symbol of one operand, whose range is `own`: the range of the
other operand, if it says something. -/
def addSymbolicBound (own other : ConstantRange w) (symbol : PtrSymbol) (isUnsigned : Bool)
    (mp : SymbolicBoundsMap w) : SymbolicBoundsMap w :=
  if !own.isSingleElement && other.isNonTrivial then
    match numericBoundToSignedSymbolicBound other isUnsigned with
    | some asSymbolicRange => mp.emplace symbol asSymbolicRange
    | none => mp
  else mp

/-- The domain of a sum. -/
def computeAdd (args : CHIRArithmeticBinopArgs w) : SIntDomain w :=
  let ln := args.ld.numeric
  let rn := args.rd.numeric
  let numeric :=
    if !isSaturating args.ov then ln.add rn
    else if args.uns then ln.uAddSat rn else ln.sAddSat rn
  if numeric.isEmptySet || args.ov != .THROWING then .ofNumeric numeric args.uns
  else
    let mp := addSymbolicBound ln rn args.l args.uns .empty
    let mp := addSymbolicBound rn ln args.r args.uns mp
    ⟨numeric, mp, args.uns⟩

/-- The domain of a difference. -/
def computeSub (args : CHIRArithmeticBinopArgs w) : SIntDomain w :=
  let ln := args.ld.numeric
  let rn := args.rd.numeric
  let numeric :=
    if !isSaturating args.ov then ln.sub rn
    else if args.uns then ln.uSubSat rn else ln.sSubSat rn
  if numeric.isEmptySet || args.ov != .THROWING then .ofNumeric numeric args.uns
  else if !ln.isSingleElement && rn.isNonTrivial then
    if rn ≠ single (SInt.sMinValue w) then
      .ofSymbolicBound numeric args.l args.lTypeUnsigned rn.negate
    else .ofNumeric numeric args.uns
  else .ofNumeric numeric args.uns

/-- The domain of a product. -/
def computeMul (args : CHIRArithmeticBinopArgs w) : SIntDomain w :=
  let ln := args.ld.numeric
  let rn := args.rd.numeric
  let r :=
    if !isSaturating args.ov then (if args.uns then ln.uMul rn else ln.sMul rn)
    else if args.uns then ln.uMulSat rn else ln.sMulSat rn
  .ofNumeric r args.uns

/-- The domain of a quotient. -/
def computeDiv (args : CHIRArithmeticBinopArgs w) : SIntDomain w :=
  let ln := args.ld.numeric
  let rn := args.rd.numeric
  if rn.contains (SInt.zero w) then .ofNumeric (ConstantRange.full w) args.uns
  else
    let r :=
      if args.uns then ln.uDiv rn
      else if isSaturating args.ov then ln.sDivSat rn else ln.sDiv rn
    .ofNumeric r args.uns

/-- The domain of a remainder. -/
def computeMod (args : CHIRArithmeticBinopArgs w) : SIntDomain w :=
  let ln := args.ld.numeric
  let rn := args.rd.numeric
  if args.uns then .ofNumeric (ln.uRem rn) true else .ofNumeric (ln.sRem rn) false

/-- The domain of an arithmetic operation; the other kinds of expressions abort. -/
def computeArithmeticBinop (args : CHIRArithmeticBinopArgs w) : Option (SIntDomain w) :=
  match args.op with
  | .ADD => some (computeAdd args)
  | .SUB => some (computeSub args)
  | .MUL => some (computeMul args)
  | .DIV => some (computeDiv args)
  | .MOD => some (computeMod args)
  | _ => none

end Arithmetic

/-! ## Comparison -/

section Comparison

variable {w : ℕ}

/-- The operands of a relational operation, its kind and signedness. -/
structure CHIRRelIntBinopArgs (w : ℕ) where
  ld : SIntDomain w
  rd : SIntDomain w
  l : PtrSymbol
  r : PtrSymbol
  op : BinaryExprKind
  uns : Bool

/-- The relational operation of an expression; the other kinds abort. -/
def relationalFrom : BinaryExprKind → Option RelationalOperation
  | .EQUAL => some .EQ
  | .LE => some .LE
  | .LT => some .LT
  | .GT => some .GT
  | .GE => some .GE
  | .NOTEQUAL => some .NE
  | _ => none

/-- The relation with its operands exchanged. -/
def symbolicNeg : RelationalOperation → RelationalOperation
  | .LT => .GT
  | .LE => .GE
  | .EQ => .EQ
  | .GE => .LE
  | .GT => .LT
  | .NE => .NE

/-- The result of a comparison that may be undecided. -/
inductive CompareResult where
  | UNO
  | TRUE
  | FALSE
  deriving DecidableEq, Repr

namespace CompareResult

/-- The decision as a Boolean. -/
def toBool (r : CompareResult) : Bool := r == TRUE

/-- The opposite decision. -/
def neg : CompareResult → CompareResult
  | UNO => UNO
  | TRUE => FALSE
  | FALSE => TRUE

/-- Decided positively, or not at all. -/
def unlessExp (exp : Bool) : CompareResult := if exp then TRUE else UNO

/-- The first of two results that is decided. -/
def unlessBothUnordered (a b : CompareResult) : CompareResult := if a ≠ UNO then a else b

end CompareResult

open CompareResult

/-- All elements of the first range lie below those of the second. -/
def rangeLt (a b : ConstantRange w) (isUnsigned : Bool) : CompareResult :=
  unlessExp (if isUnsigned then a.uMaxValue.ult b.uMinValue else a.sMaxValue.slt b.sMinValue)

/-- No element of the first range lies above one of the second. -/
def rangeLe (a b : ConstantRange w) (isUnsigned : Bool) : CompareResult :=
  unlessExp (if isUnsigned then a.uMaxValue.ule b.uMinValue else a.sMaxValue.sle b.sMinValue)

/-- No element of the first range lies below one of the second. -/
def rangeGe (a b : ConstantRange w) (isUnsigned : Bool) : CompareResult :=
  unlessExp (if isUnsigned then a.uMinValue.uge b.uMaxValue else a.sMinValue.sge b.sMaxValue)

/-- All elements of the first range lie above those of the second. -/
def rangeGt (a b : ConstantRange w) (isUnsigned : Bool) : CompareResult :=
  unlessExp (if isUnsigned then a.uMinValue.ugt b.uMaxValue else a.sMinValue.sgt b.sMaxValue)

/-- The relation that holds exactly when the given one does not. -/
def relationalNeg : RelationalOperation → RelationalOperation
  | .LT => .GE
  | .LE => .GT
  | .EQ => .NE
  | .GE => .LT
  | .GT => .LE
  | .NE => .EQ

/-- The positive decision of an order relation between two ranges that do not wrap.  The two
equality relations abort in the source and never get here. -/
def partialCompare (compare : RelationalOperation) (a b : ConstantRange w) (isUnsigned : Bool) :
    CompareResult :=
  if (if isUnsigned then a.isWrappedSet || b.isWrappedSet
      else a.isSignWrappedSet || b.isSignWrappedSet) then UNO
  else
    match compare with
    | .LE => rangeLe a b isUnsigned
    | .LT => rangeLt a b isUnsigned
    | .GT => rangeGt a b isUnsigned
    | .GE => rangeGe a b isUnsigned
    | _ => FALSE

/-- The range is zero alone. -/
def isUnsignedCompareToZero (a : ConstantRange w) : Bool :=
  a.isSingleElement && a.getSingleElement == 0

/-- The decision of an order relation between two ranges. -/
def compareRanges (compare : RelationalOperation) (a b : ConstantRange w) (isUnsigned : Bool) :
    CompareResult :=
  if a.isEmptySet || b.isEmptySet then UNO
  else if (a.isFullSet && !isUnsignedCompareToZero b) ||
      (b.isFullSet && !isUnsignedCompareToZero a) then UNO
  else
    unlessBothUnordered (partialCompare compare a b isUnsigned)
      (neg (partialCompare (relationalNeg compare) a b isUnsigned))

/-- A decision as the answer to a walk. -/
def decided (r : CompareResult) : Option BoolDomain :=
  if r ≠ UNO then some (BoolDomain.fromBool r.toBool) else none

/-- The order relations: the numeric ranges are tried first, then the bounds of the operands
against each other, then their bounds against a common symbol. -/
def computeTotalOrderingIntBinop (args : CHIRRelIntBinopArgs w) (op : RelationalOperation) :
    BoolDomain :=
  let ia := args.ld
  let ib := args.rd
  if ia.isBottom || ib.isBottom then BoolDomain.bottom
  else
    let numeric := decided (compareRanges op ia.numeric ib.numeric args.uns)
    let ibs := (ia.findSymbolicBound args.r).bind fun ibs =>
      decided (compareRanges op ibs (single 0) false)
    let ias := (ib.findSymbolicBound args.l).bind fun ias =>
      decided (compareRanges (symbolicNeg op) ias (single 0) false)
    let common := OrderedMap.firstCommon (fun sa sb => decided (compareRanges op sa sb false))
      ia.symbolics.entries ib.symbolics.entries
    (((numeric.or ibs).or ias).or common).getD BoolDomain.top

/-- What two bounds against a common symbol say about equality. -/
def compareTransitiveBounds (cne : Bool) (sa sb : ConstantRange w) : Option BoolDomain :=
  if sa.isSingleElement && sb.isSingleElement then
    some (BoolDomain.fromBool ((sa.getSingleElement == sb.getSingleElement) != cne))
  else if (sa.intersectWith sb .signed).isEmptySet then some (BoolDomain.fromBool cne)
  else none

/-- Equality decided by bounds against a common symbol. -/
def compareTransitiveEquality (ia ib : SymbolicBoundsMap w) (cne : Bool) : BoolDomain :=
  (OrderedMap.firstCommon (compareTransitiveBounds cne) ia.entries ib.entries).getD
    BoolDomain.top

/-- The equality relations.  The first of the two lookups is made for bounds of one element only,
the second for all. -/
def computeEqualityIntBinop (ia ib : SIntDomain w) (a b : PtrSymbol) (cne : Bool) : BoolDomain :=
  if ia.isBottom || ib.isBottom then BoolDomain.bottom
  else if ia.numeric.isSingleElement && ib.numeric.isSingleElement then
    BoolDomain.fromBool ((ia.numeric.getSingleElement == ib.numeric.getSingleElement) != cne)
  else if (ia.numeric.intersectWith ib.numeric (preferFromBool ia.unsignedFlag)).isEmptySet then
    BoolDomain.fromBool cne
  else
    let ibs := (ia.findSymbolicBound b).bind fun ibs =>
      if ibs.isSingleElement then
        some (BoolDomain.fromBool ((ibs.getSingleElement == 0) != cne))
      else none
    let ias := (ib.findSymbolicBound a).bind fun ias =>
      if ias.isSingleElement then
        some (BoolDomain.fromBool ((ias.getSingleElement == 0) != cne))
      else if !ias.contains (SInt.zero w) then some (BoolDomain.fromBool cne)
      else none
    let transitiveRes := compareTransitiveEquality ia.symbolics ib.symbolics cne
    let transitive := if transitiveRes.isNonTrivial then some transitiveRes else none
    ((ibs.or ias).or transitive).getD BoolDomain.top

/-- The relation holds between a value and itself. -/
def trueOnSameSymbol (op : BinaryExprKind) : Bool := op == .EQUAL || op == .LE || op == .GE

/-- The domain of a comparison; kinds that are no comparison abort. -/
def computeRelIntBinop (args : CHIRRelIntBinopArgs w) : Option BoolDomain :=
  if args.l = args.r then some (BoolDomain.fromBool (trueOnSameSymbol args.op))
  else
    (relationalFrom args.op).map fun op =>
      if op = .EQ ∨ op = .NE then
        computeEqualityIntBinop args.ld args.rd args.l args.r (args.op == .NOTEQUAL)
      else computeTotalOrderingIntBinop args op

end Comparison

/-! ## Union -/

section Union

variable {w : ℕ}

/-- The union of two bounds, where a missing bound says nothing. -/
def disjunctionInternalMergeFun (a b : Option (ConstantRange w)) : ConstantRange w :=
  match a, b with
  | none, _ => ConstantRange.full w
  | some _, none => ConstantRange.full w
  | some a, some b => a.unionWith b

/-- The merged bounds that say something, or `none` if one of them is empty. -/
def collectBounds : List (PtrSymbol × ConstantRange w) → SymbolicBoundsMap w →
    Option (SymbolicBoundsMap w)
  | [], m => some m
  | (symbol, boundOpt) :: mergeTmps, m =>
    if boundOpt.isEmptySet then none
    else if boundOpt.isNonTrivial then collectBounds mergeTmps (m.emplace symbol boundOpt)
    else collectBounds mergeTmps m

/-- The union of two domains. -/
def SIntDomain.unions (a b : SIntDomain w) : SIntDomain w :=
  let n := disjunctionInternalMergeFun (some a.numeric) (some b.numeric)
  if n.isEmptySet then .bottom w a.unsignedFlag
  else
    match collectBounds (OrderedMap.mergeEntries disjunctionInternalMergeFun a.symbolics.entries
      b.symbolics.entries) .empty with
    | none => .bottom w a.unsignedFlag
    | some m => ⟨n, m, a.unsignedFlag⟩

/-- The join of the ranges of a variable: nothing is returned when the change test finds no
change, and the old range is kept. -/
def SIntRange.join (domain rhs : SIntDomain w) : Option (SIntDomain w) :=
  if !domain.isSame rhs || (domain.numeric.isFullSet && !domain.symbolics.entries.isEmpty) then
    some (domain.unions rhs)
  else none

end Union

end Cangjie.CHIR
