import CangjieCompiler.CHIR.Analysis.ConstAnalysis.ArithmeticFolding
import CangjieCompiler.CHIR.Interpreter.IntegerEvaluation

/-!
# Folding and const evaluation

An arithmetic expression on integers is computed twice in the compiler: the constant analysis folds
it, and const evaluation executes its operation code.  Where the analysis records a constant, the
interpreter pushes this constant for all operands that agree with the state, and where it says that
the expression fails, the interpreter raises an exception.
-/

namespace Cangjie.CHIR.ConstAnalysis

open FixedWidth OverflowChecker Interpreter

variable {φ : Type} {state : ConstDomain φ} {expr : IntBinaryExpression}

/-! ## The operation of an expression -/

/-- The kind of the expressions that an operation is for. -/
def exprKindOf : BinaryOp → BinaryExprKind
  | .ADD => .ADD
  | .SUB => .SUB
  | .MUL => .MUL
  | .DIV => .DIV
  | .MOD => .MOD
  | .BITAND => .BITAND
  | .BITOR => .BITOR
  | .BITXOR => .BITXOR

/-- The operations that the interpreter executes for an expression, with the operands read as
integers. -/
inductive IsOperationOf (expr : IntBinaryExpression) : IntOperation → ℤ → ℤ → Prop
  | binary (op : BinaryOp) (x y : BitVec expr.lhsType.bitness)
      (h : expr.opKind = exprKindOf op) :
      IsOperationOf expr (.binary op expr.lhsType x y) (value expr.lhsType.uns x)
        (value expr.lhsType.uns y)
  | exp (x y : BitVec 64) (h : expr.opKind = .EXP) :
      IsOperationOf expr (.exp x y) (value false x) (value true y)

/-! ## The results -/

lemma ofInt_wrappedResult (type : TypeKind) (z : ℤ) :
    IVal.ofInt type (wrappedResult type z) = IVal.ofInt type z := by
  rw [IVal.ofInt, wrappedResult, ofInt_value]
  rfl

/-- Both readings of an exact result give the same value. -/
lemma arithmeticResult_eq {type : TypeKind} {kind : BinaryExprKind} {strat : OverflowStrategy}
    {isQuotient : Bool} {z : ℤ} (hvalid : strat ≠ .CHECKED) (hquot : isQuotient = true ↔ kind = .DIV)
    (hmod : kind = .MOD → type.HasValue z) :
    arithmeticResult type isQuotient strat z =
      (resultUnder type kind strat z).map (IVal.ofInt type) := by
  by_cases hz : type.HasValue z
  · have hclamp : clamp type.bitness type.uns z = z := clamp_eq_self hz
    rw [resultUnder_of_hasValue _ _ hz, Option.map_some]
    cases strat with
    | CHECKED => exact absurd rfl hvalid
    | NA => rw [arithmeticResult, hclamp, ite_self]
    | WRAPPING => rfl
    | SATURATING => rw [arithmeticResult, hclamp]
    | THROWING => exact if_pos hz
  · unfold resultUnder
    rw [if_neg hz]
    cases strat with
    | CHECKED => exact absurd rfl hvalid
    | NA =>
      by_cases hdiv : kind = .DIV
      · rw [arithmeticResult, hquot.mpr hdiv, if_pos rfl]
        dsimp only
        rw [if_pos (Or.inl hdiv), Option.map_some]
      · have hnot : isQuotient ≠ true := fun h => hdiv (hquot.mp h)
        rw [arithmeticResult, if_neg hnot]
        dsimp only
        rw [if_neg fun h => h.elim hdiv fun h => hz (hmod h), Option.map_some, ofInt_wrappedResult]
    | WRAPPING =>
      dsimp only
      rw [Option.map_some, ofInt_wrappedResult]
      rfl
    | SATURATING => rfl
    | THROWING => exact if_neg hz

lemma result_binary (hcheck : CheckBinaryExprBase expr) {op : BinaryOp}
    (h : expr.opKind = exprKindOf op) (x y : BitVec expr.lhsType.bitness) :
    op.result expr.lhsType expr.overflowStrategy (value expr.lhsType.uns x)
        (value expr.lhsType.uns y) =
      (execute expr (value expr.lhsType.uns x) (value expr.lhsType.uns y)).map
        (IVal.ofInt expr.resultType) := by
  have hvalid := hcheck.overflowStrategyMustBeValid
  have hmath := hcheck.isMathematicalOperator
  have hexp : expr.opKind ≠ .EXP := by
    rw [h]
    cases op <;> decide
  rw [execute, (hcheck.checkCalculExpression hexp).2]
  rw [h] at hmath ⊢
  cases op with
  | BITAND | BITOR | BITXOR => exact absurd hmath (by decide)
  | ADD | SUB | MUL => exact arithmeticResult_eq hvalid (by decide) (fun h => by cases h)
  | DIV =>
    rw [BinaryOp.result]
    by_cases hy : value expr.lhsType.uns y = 0
    · rw [if_pos hy, exactResult_of_ne_exp (by decide)]
      rw [hy]
      rfl
    · have hexact : exactResult .DIV (value expr.lhsType.uns x) (value expr.lhsType.uns y) =
          some ((value expr.lhsType.uns x).tdiv (value expr.lhsType.uns y)) := if_neg hy
      rw [if_neg hy]
      dsimp only [exprKindOf]
      rw [hexact]
      exact arithmeticResult_eq hvalid (by decide) (fun h => by cases h)
  | MOD =>
    rw [BinaryOp.result]
    by_cases hy : value expr.lhsType.uns y = 0
    · rw [if_pos hy, exactResult_of_ne_exp (by decide)]
      rw [hy]
      rfl
    · have hexact : exactResult .MOD (value expr.lhsType.uns x) (value expr.lhsType.uns y) =
          some ((value expr.lhsType.uns x).tmod (value expr.lhsType.uns y)) := if_neg hy
      rw [if_neg hy]
      dsimp only [exprKindOf]
      rw [hexact]
      exact arithmeticResult_eq hvalid (by decide) fun _ =>
        rem_representable _ _

/-- The value of the operation is that of the expression. -/
lemma IsOperationOf.result_eq (hcheck : CheckBinaryExprBase expr) {operation : IntOperation}
    {l r : ℤ} (h : IsOperationOf expr operation l r) :
    operation.result expr.overflowStrategy =
      (execute expr l r).map (IVal.ofInt expr.resultType) := by
  cases h with
  | binary op x y h => exact result_binary hcheck h x y
  | exp x y h =>
    have hresult := (hcheck.checkExponentiationExpression h).2.2
    have hexact : exactResult .EXP (value false x) (value true y) =
        some (value false x ^ y.toNat) := by
      rw [exactResult, if_pos rfl, value_true, Int.toNat_natCast]
    rw [execute, h, hexact, hresult]
    exact arithmeticResult_eq hcheck.overflowStrategyMustBeValid (by decide) (fun h => by cases h)

/-! ## The agreement -/

lemma IsOperationOf.evaluatesRight {operation : IntOperation} {l r : ℤ}
    (h : IsOperationOf expr operation l r)
    (hquot : ¬operation.QuotientWithoutStrategy expr.overflowStrategy) :
    operation.EvaluatesRight expr.overflowStrategy := by
  cases h with
  | binary op x y h => exact IntOperation.evaluatesRight_binary hquot
  | exp x y h => exact IntOperation.evaluatesRight_exp x y

/-- The quotient that the analysis folds wrongly is the one that the interpreter evaluates
wrongly. -/
lemma IsOperationOf.quotientWithoutStrategy (hcheck : CheckBinaryExprBase expr)
    {operation : IntOperation} {l r : ℤ} (h : IsOperationOf expr operation l r)
    (hlr : ConsistentOperands state expr l r) (hquot : QuotientWithoutStrategy state expr) :
    operation.QuotientWithoutStrategy expr.overflowStrategy := by
  obtain ⟨hdiv, hna, hsigned, x', y', hx', hy', hleast, hminus⟩ := hquot
  have huns : expr.lhsType.uns = false := by
    rw [TypeKind.uns, hsigned]
    rfl
  cases h with
  | exp x y h => exact absurd (hdiv.symm.trans h) (by decide)
  | binary op x y h =>
    have hx := hlr.lhs_known x' hx'
    have hy := hlr.rhs_known y' hy'
    rw [← (hcheck.checkCalculExpression fun hexp => by cases hdiv.symm.trans hexp).1] at hy
    cases op with
    | DIV =>
      refine ⟨hna, ?_, ?_⟩
      · rw [← hx, huns]
        exact hleast
      · rw [← hy, huns]
        exact hminus
    | _ => exact absurd (hdiv.symm.trans h) (by decide)

/-- Where the analysis folds an expression, the interpreter pushes the same constant, and where it
says that the expression fails, the interpreter raises: for all operands that agree with the state,
but for a zero divided by an unknown operand and a quotient that overflows without a strategy. -/
theorem interpret_of_folded (hcheck : CheckBinaryExprBase expr)
    (hzero : ¬ZeroByUnknown state expr) {operation : IntOperation} {l r : ℤ}
    (hoperation : IsOperationOf expr operation l r)
    (hquot : ¬operation.QuotientWithoutStrategy expr.overflowStrategy)
    (hlr : ConsistentOperands state expr l r) (host : Host) {op : OpCode}
    (hop : op ∈ operation.opCodes) (argStack : List IVal) :
    ((handleMathematicalOp state expr).2 = .SUCCESS →
      ∃ c, (handleMathematicalOp state expr).1.checkAbstractValue expr.result =
          some (makeVal expr.resultType.uns c) ∧
        operation.interpret host op expr.overflowStrategy argStack =
          some ⟨none, .ofInt expr.resultType (value expr.resultType.uns c) :: argStack⟩) ∧
    ((handleMathematicalOp state expr).2 = .FAIL →
      ∃ exceptionName, operation.interpret host op expr.overflowStrategy argStack =
        some ⟨some exceptionName, argStack⟩) := by
  have hfolds : FoldsArithmetic state expr := by
    have hstate : ¬QuotientWithoutStrategy state expr := fun h =>
      hquot (hoperation.quotientWithoutStrategy hcheck hlr h)
    unfold FoldsArithmetic handleMathematicalOp
    split_ifs with hexp
    · exact foldsTo_handleExpOp hcheck hexp hzero
    · exact foldsTo_handleArithmeticOp hcheck hexp hzero hstate
  have hagrees := (hoperation.evaluatesRight hquot).agrees host op argStack hop
  rw [hoperation.result_eq hcheck] at hagrees
  constructor
  · intro hsuccess
    obtain ⟨c, hrecorded, hexec⟩ := hfolds.success hsuccess
    rw [hexec l r hlr] at hagrees
    exact ⟨c, hrecorded, hagrees⟩
  · intro hfail
    rw [hfolds.fail hfail l r hlr] at hagrees
    exact hagrees

/-! ## A sum -/

/-- `a + b` for two variables of type `Int64`. -/
def sampleSum : IntBinaryExpression where
  opKind := .ADD
  lhs := 0
  rhs := 1
  result := 2
  overflowStrategy := .THROWING
  lhsType := .TYPE_INT64
  rhsType := .TYPE_INT64
  resultType := .TYPE_INT64

/-- The first variable is 1 and the second one is 2. -/
def sampleSumState : ConstDomain Unit :=
  ((⟨OrderedMap.empty⟩ : ConstDomain Unit).update 0 (makeVal false 1)).update 1 (makeVal false 2)

lemma checkBinaryExprBase_sampleSum : CheckBinaryExprBase sampleSum where
  isMathematicalOperator := by decide
  checkCalculExpression := by decide
  checkExponentiationExpression := by decide
  overflowStrategyMustBeValid := by decide

lemma consistentOperands_sampleSum : ConsistentOperands sampleSumState sampleSum
    (value false (1 : BitVec 64)) (value false (2 : BitVec 64)) where
  lhs_hasValue := by decide
  rhs_hasValue := by decide
  lhs_known x hx := by
    have hknown : knownInt sampleSumState .TYPE_INT64 0 = some 1 := by decide
    rw [← Option.some.inj (hknown.symm.trans hx)]
    rfl
  rhs_known y hy := by
    have hknown : knownInt sampleSumState .TYPE_INT64 1 = some 2 := by decide
    rw [← Option.some.inj (hknown.symm.trans hy)]
    rfl
  same h := absurd h (by decide)

/-- The sum is folded to what the interpreter pushes. -/
theorem interpret_of_folded_sampleSum :
    ∃ c, (handleMathematicalOp sampleSumState sampleSum).1.checkAbstractValue 2 =
        some (makeVal false c) ∧
      (IntOperation.binary .ADD .TYPE_INT64 1 2).interpret IntOperation.sampleHost .BIN_ADD_EXC
          .THROWING [] =
        some ⟨none, [.ofInt .TYPE_INT64 (value false c)]⟩ := by
  have hzero : ¬ZeroByUnknown sampleSumState sampleSum := fun h => absurd h.1 (by decide)
  have hquot : ¬(IntOperation.binary .ADD .TYPE_INT64 1 2).QuotientWithoutStrategy .THROWING := id
  exact (interpret_of_folded checkBinaryExprBase_sampleSum hzero
    (IsOperationOf.binary .ADD 1 2 rfl) hquot consistentOperands_sampleSum
    IntOperation.sampleHost (by decide) []).1 (by decide)

end Cangjie.CHIR.ConstAnalysis
