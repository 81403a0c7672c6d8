import CangjieCompiler.CHIR.Analysis.ConstAnalysis

/-!
# Folding of arithmetic operations

What the constant analysis says about an arithmetic expression, compared with the executions whose
operands agree with the state.  An execution throws when it divides by zero, and when the exact
result does not fit and the strategy is to throw.

The shortcuts that look at one operand hold for every value of the other one, but for a dividend or
a base that is zero: the divisor or the exponent may be zero as well.
-/

namespace Cangjie.CHIR.ConstAnalysis

open FixedWidth OverflowChecker

variable {φ : Type} {state : ConstDomain φ} {expr : IntBinaryExpression}

/-! ## Executions -/

/-- What the checker of the representation demands: the types of the operands and of the result
go together, and the strategy is not the one that returns an option. -/
structure CheckBinaryExprBase (expr : IntBinaryExpression) : Prop where
  isMathematicalOperator : expr.opKind = .ADD ∨ expr.opKind = .SUB ∨ expr.opKind = .MUL ∨
    expr.opKind = .DIV ∨ expr.opKind = .MOD ∨ expr.opKind = .EXP
  checkCalculExpression : expr.opKind ≠ .EXP →
    expr.lhsType = expr.rhsType ∧ expr.resultType = expr.lhsType
  checkExponentiationExpression : expr.opKind = .EXP →
    expr.lhsType = .TYPE_INT64 ∧ expr.rhsType = .TYPE_UINT64 ∧ expr.resultType = .TYPE_INT64
  overflowStrategyMustBeValid : expr.overflowStrategy ≠ .CHECKED

/-- The exact result of an operation on integers; nothing is divided by zero. -/
def exactResult (kind : BinaryExprKind) (x y : ℤ) : Option ℤ :=
  if kind = .EXP then some (x ^ y.toNat) else mathematicalResult kind.toExprKind x y

/-- The integer that the low bits of an exact result stand for. -/
def wrappedResult (type : TypeKind) (z : ℤ) : ℤ := value type.uns (BitVec.ofInt type.bitness z)

/-- The value of an operation with the exact result `z`; `none` if it throws.  Without a strategy
the code for sums, differences, products and powers is that of the machine, and the code for
quotients is that of saturation. -/
def resultUnder (type : TypeKind) (kind : BinaryExprKind) (strategy : OverflowStrategy) (z : ℤ) :
    Option ℤ :=
  if type.HasValue z then some z
  else
    match strategy with
    | .THROWING => none
    | .WRAPPING => some (wrappedResult type z)
    | .SATURATING => some (clamp type.bitness type.uns z)
    | _ =>
      if kind = .DIV ∨ kind = .MOD then some (clamp type.bitness type.uns z)
      else some (wrappedResult type z)

/-- The execution of an expression on integers. -/
def execute (expr : IntBinaryExpression) (l r : ℤ) : Option ℤ :=
  (exactResult expr.opKind l r).bind (resultUnder expr.resultType expr.opKind expr.overflowStrategy)

/-- The values that the operands can have at run time, as far as the state knows. -/
structure ConsistentOperands (state : ConstDomain φ) (expr : IntBinaryExpression) (l r : ℤ) :
    Prop where
  lhs_hasValue : expr.lhsType.HasValue l
  rhs_hasValue : expr.rhsType.HasValue r
  lhs_known : ∀ x, knownInt state expr.lhsType expr.lhs = some x → value expr.lhsType.uns x = l
  rhs_known : ∀ y, knownInt state expr.rhsType expr.rhs = some y → value expr.rhsType.uns y = r
  same : expr.lhs = expr.rhs → l = r

/-- What a transfer function says holds for all operands: after a success they give the recorded
constant, and after a failure they all throw. -/
structure FoldsTo (expr : IntBinaryExpression) (consistent : ℤ → ℤ → Prop)
    (out : ConstDomain φ × ExceptionKind) : Prop where
  success : out.2 = .SUCCESS → ∃ c, out.1.checkAbstractValue expr.result =
    some (makeVal expr.resultType.uns c) ∧
      ∀ l r, consistent l r → execute expr l r = some (value expr.resultType.uns c)
  fail : out.2 = .FAIL → ∀ l r, consistent l r → execute expr l r = none

/-- The folding of an expression under the knowledge of a state never changes its behaviour. -/
def FoldsArithmetic (state : ConstDomain φ) (expr : IntBinaryExpression) : Prop :=
  FoldsTo expr (ConsistentOperands state expr) (handleMathematicalOp state expr)

/-- A dividend or a base known to be zero, with nothing known about the other operand. -/
def ZeroByUnknown (state : ConstDomain φ) (expr : IntBinaryExpression) : Prop :=
  (expr.opKind = .DIV ∨ expr.opKind = .MOD ∨ expr.opKind = .EXP) ∧
    knownInt state expr.lhsType expr.lhs = some 0 ∧ knownInt state expr.rhsType expr.rhs = none

/-- The quotient of the least value of a signed type by minus one, with known operands and without
a strategy. -/
def QuotientWithoutStrategy (state : ConstDomain φ) (expr : IntBinaryExpression) : Prop :=
  expr.opKind = .DIV ∧ expr.overflowStrategy = .NA ∧ expr.lhsType.isSigned = true ∧
    ∃ x y, knownInt state expr.lhsType expr.lhs = some x ∧
      knownInt state expr.rhsType expr.rhs = some y ∧
      value false x = least expr.lhsType.bitness false ∧ value false y = -1

/-! ## What is recorded -/

section FoldsTo

variable {consistent : ℤ → ℤ → Prop}

lemma foldsTo_of_na (state' : ConstDomain φ) : FoldsTo expr consistent (state', .NA) where
  success h := ExceptionKind.noConfusion h
  fail h := ExceptionKind.noConfusion h

lemma foldsTo_of_fail (state' : ConstDomain φ)
    (h : ∀ l r, consistent l r → execute expr l r = none) :
    FoldsTo expr consistent (state', .FAIL) where
  success h := ExceptionKind.noConfusion h
  fail _ := h

/-- A recorded constant has to be the value of all executions. -/
lemma foldsTo_of_success {uns : Bool} (huns : expr.resultType.uns = uns) (c : BitVec 64)
    (h : ∀ l r, consistent l r → execute expr l r = some (value uns c)) :
    FoldsTo expr consistent (state.update expr.result (makeVal uns c), .SUCCESS) where
  success _ := by
    subst huns
    refine ⟨c, ?_, h⟩
    rw [ConstDomain.checkAbstractValue_update, if_pos rfl]
  fail h := ExceptionKind.noConfusion h

/-- A success that records a constant which some execution does not give. -/
lemma FoldsTo.execute_eq {uns : Bool} (huns : expr.resultType.uns = uns) {c : BitVec 64}
    (h : FoldsTo expr consistent (state.update expr.result (makeVal uns c), .SUCCESS)) {l r : ℤ}
    (hlr : consistent l r) : execute expr l r = some (value uns c) := by
  subst huns
  obtain ⟨c', hc', hall⟩ := h.success rfl
  dsimp only at hc'
  rw [ConstDomain.checkAbstractValue_update, if_pos rfl, Option.some_inj] at hc'
  rw [makeVal_injective hc']
  exact hall l r hlr

end FoldsTo

/-! ## Strategies -/

lemma hasValue_zero (type : TypeKind) : type.HasValue 0 :=
  ⟨least_nonpos type.bitness type.uns, greatest_nonneg type.bitness type.uns⟩

lemma resultUnder_of_hasValue {type : TypeKind} {z : ℤ} (kind : BinaryExprKind)
    (strategy : OverflowStrategy) (h : type.HasValue z) :
    resultUnder type kind strategy z = some z :=
  if_pos h

/-- Without a strategy only quotients and remainders differ from wrapping. -/
lemma resultUnder_na {type : TypeKind} {kind : BinaryExprKind} (z : ℤ)
    (hkind : ¬(kind = .DIV ∨ kind = .MOD)) :
    resultUnder type kind .NA z = resultUnder type kind .WRAPPING z := by
  unfold resultUnder
  dsimp only
  rw [if_neg hkind]

/-- An exact check says what an execution with a strategy does. -/
lemma resultUnder_of_exact {type : TypeKind} {kind : BinaryExprKind} {strategy : OverflowStrategy}
    {z res : ℤ} {isOverflow : Bool}
    (hexact : Exact type.bitness type.uns strategy z isOverflow res)
    (hvalid : strategy ≠ .CHECKED) (hna : strategy = .NA → type.HasValue z) :
    resultUnder type kind strategy z =
      if isOverflow && strategy = .THROWING then none else some res := by
  by_cases hz : type.HasValue z
  · have hflag : isOverflow = false := by
      rw [← Bool.not_eq_true, hexact.overflow_iff, not_not]
      exact hz
    rw [resultUnder_of_hasValue kind strategy hz, hflag, hexact.fits hz]
    rfl
  · have hflag : isOverflow = true := hexact.overflow_iff.mpr hz
    unfold resultUnder
    rw [if_neg hz, hflag]
    cases strategy with
    | NA => exact absurd (hna rfl) hz
    | CHECKED => exact absurd rfl hvalid
    | THROWING => rfl
    | SATURATING =>
      dsimp only
      rw [hexact.saturates rfl]
      rfl
    | WRAPPING =>
      obtain ⟨hrep, hmod⟩ := hexact.wraps rfl
      have hwidth : 0 < type.bitness := Nat.zero_lt_of_lt type.one_lt_bitness
      dsimp only
      rw [wrappedResult, ← ofInt_eq_of_modEq hmod, value_ofInt hwidth hrep]
      rfl

/-! ## Checked operations -/

/-- A check whose strategy is missing is the check with wrapping, but for quotients. -/
lemma isOverflow_na {w : ℕ} {uns : Bool} (x y : BitVec w) {kind : ExprKind} (h : kind ≠ .DIV) :
    isOverflow uns x y kind .NA = isOverflow uns x y kind .WRAPPING := by
  cases kind with
  | DIV => exact absurd rfl h
  | _ => rfl

lemma isOverflowAt_na (w : ℕ) (uns : Bool) {kind : ExprKind} (x y : BitVec 64)
    (h : kind ≠ .DIV) : isOverflowAt w uns kind x y .NA = isOverflowAt w uns kind x y .WRAPPING := by
  rw [isOverflowAt, isOverflowAt, isOverflow_na _ _ h]

lemma isOverflowOfType_na (type : TypeKind) {kind : BinaryExprKind} (x y : BitVec 64)
    (h : kind ≠ .DIV) :
    isOverflowOfType type kind x y .NA = isOverflowOfType type kind x y .WRAPPING := by
  have hkind : kind.toExprKind ≠ .DIV := by
    cases kind with
    | DIV => exact absurd rfl h
    | _ => exact ExprKind.noConfusion
  have hwidth (w : ℕ) (uns : Bool) := isOverflowAt_na w uns x y hkind
  cases type with
  | _ => exact hwidth _ _

variable (strategy : OverflowStrategy) in
/-- The check of operands with values of the type is exact. -/
lemma exact_isOverflowOfType {type : TypeKind} {kind : BinaryExprKind} {x y : BitVec 64} {z : ℤ}
    (hx : type.HasValue (value type.uns x)) (hy : type.HasValue (value type.uns y))
    (hz : mathematicalResult kind.toExprKind (value type.uns x) (value type.uns y) = some z) :
    ∃ c, isOverflowOfType type kind x y strategy = some c ∧
      Exact type.bitness type.uns strategy z c.isOverflow (value type.uns c.res) := by
  unfold isOverflowOfType
  cases hsigned : type.isSigned with
  | true =>
    have huns : type.uns = false := by rw [TypeKind.uns, hsigned]; rfl
    rw [huns] at hx hy hz ⊢
    exact exact_isIntOverflow hsigned hx hy hz
  | false =>
    have huns : type.uns = true := by rw [TypeKind.uns, hsigned]; rfl
    rw [huns] at hx hy hz ⊢
    exact exact_isUIntOverflow hsigned hx hy hz

/-- A remainder is a value of the type of the dividend. -/
lemma hasValue_tmod {type : TypeKind} {x y : ℤ} (hx : type.HasValue x) (hy : type.HasValue y) :
    type.HasValue (x.tmod y) := by
  have hwidth : 0 < type.bitness := Nat.zero_lt_of_lt type.one_lt_bitness
  rw [← value_ofInt hwidth hx, ← value_ofInt hwidth hy]
  exact rem_representable _ _

/-- Recording a checked operation is right if the check says what all executions do. -/
lemma foldsTo_recordChecked {consistent : ℤ → ℤ → Prop} {uns : Bool}
    (huns : expr.resultType.uns = uns) {c : Checked 64}
    (h : ∀ l r, consistent l r → execute expr l r =
      if c.isOverflow && expr.overflowStrategy = .THROWING then none
      else some (value uns c.res)) :
    FoldsTo expr consistent (recordChecked uns state expr c) := by
  unfold recordChecked
  by_cases hthrows : (c.isOverflow && expr.overflowStrategy = .THROWING) = true
  · rw [if_pos hthrows]
    refine foldsTo_of_fail _ fun l r hlr => ?_
    rw [h l r hlr, if_pos hthrows]
  · rw [if_neg hthrows]
    refine foldsTo_of_success huns _ fun l r hlr => ?_
    rw [h l r hlr, if_neg hthrows]

/-! ## Sums, differences, products, quotients and remainders -/

lemma exactResult_of_ne_exp {kind : BinaryExprKind} (h : kind ≠ .EXP) (x y : ℤ) :
    exactResult kind x y = mathematicalResult kind.toExprKind x y :=
  if_neg h

/-- The operation has an exact result unless it divides by zero. -/
lemma exists_exactResult (hcheck : CheckBinaryExprBase expr) (l : ℤ) {r : ℤ}
    (hr : expr.opKind = .DIV ∨ expr.opKind = .MOD → r ≠ 0) :
    ∃ z, exactResult expr.opKind l r = some z := by
  rcases hcheck.isMathematicalOperator with h | h | h | h | h | h
  · rw [h]
    exact ⟨_, rfl⟩
  · rw [h]
    exact ⟨_, rfl⟩
  · rw [h]
    exact ⟨_, rfl⟩
  · have hne := hr (Or.inl h)
    rw [h]
    exact ⟨_, if_neg hne⟩
  · have hne := hr (Or.inr h)
    rw [h]
    exact ⟨_, if_neg hne⟩
  · rw [h]
    exact ⟨_, rfl⟩

lemma execute_of_exactResult {l r z : ℤ} (h : exactResult expr.opKind l r = some z) :
    execute expr l r = resultUnder expr.resultType expr.opKind expr.overflowStrategy z := by
  rw [execute, h]
  rfl

/-- An exact result of zero is the value under every strategy. -/
lemma execute_zero {l r : ℤ} (h : exactResult expr.opKind l r = some 0) (uns : Bool) :
    execute expr l r = some (value uns (0 : BitVec 64)) := by
  have hzero : value uns (0 : BitVec 64) = 0 := value_zero uns
  rw [execute_of_exactResult h, resultUnder_of_hasValue _ _ (hasValue_zero _), hzero]

lemma value_ne_zero {uns : Bool} {y : BitVec 64} (h : y ≠ 0) : value uns y ≠ 0 := by
  intro hy
  exact h (value_injective uns (hy.trans (value_zero uns).symm))

/-- The operations that one operand decides. -/
lemma foldsTo_handleTrivialArithmeticOp (hcheck : CheckBinaryExprBase expr)
    (hexp : expr.opKind ≠ .EXP) (hzero : ¬ZeroByUnknown state expr)
    {out : ConstDomain φ × ExceptionKind}
    (h : handleTrivialArithmeticOp state expr (knownInt state expr.lhsType expr.lhs)
      (knownInt state expr.lhsType expr.rhs) = some out) :
    FoldsTo expr (ConsistentOperands state expr) out := by
  obtain ⟨htypes, hresult⟩ := hcheck.checkCalculExpression hexp
  have huns : expr.resultType.uns = expr.lhsType.uns := by rw [hresult]
  have hright {y : BitVec 64} (hy : knownInt state expr.lhsType expr.rhs = some y) (l r : ℤ)
      (hlr : ConsistentOperands state expr l r) : r = value expr.lhsType.uns y := by
    rw [htypes] at hy ⊢
    exact (hlr.rhs_known y hy).symm
  unfold handleTrivialArithmeticOp at h
  dsimp only at h
  split_ifs at h with hdivZero hmulZero hmodOne hleftZero
  · -- `a / 0` and `a % 0`
    obtain rfl := Option.some.inj h
    refine foldsTo_of_fail _ fun l r hlr => ?_
    have hr : r = 0 := (hright hdivZero.1 l r hlr).trans (value_zero _)
    rw [execute, hr]
    rcases hdivZero.2 with hkind | hkind
    · rw [hkind]
      rfl
    · rw [hkind]
      rfl
  · -- `a * 0`
    obtain rfl := Option.some.inj h
    refine foldsTo_of_success huns _ fun l r hlr => execute_zero ?_ _
    have hr : r = 0 := (hright hmulZero.1 l r hlr).trans (value_zero _)
    rw [hmulZero.2, hr]
    exact congrArg some (mul_zero l)
  · -- `a % 1`
    obtain rfl := Option.some.inj h
    refine foldsTo_of_success huns _ fun l r hlr => execute_zero ?_ _
    have hr : r = 1 := (hright hmodOne.1 l r hlr).trans (value_one (by norm_num) _)
    rw [hmodOne.2, hr]
    exact congrArg some (Int.tmod_one l)
  · -- `0 * a`, `0 / a` and `0 % a`
    obtain rfl := Option.some.inj h
    refine foldsTo_of_success huns _ fun l r hlr => execute_zero ?_ _
    have hl : l = 0 := (hlr.lhs_known 0 hleftZero.1).symm.trans (value_zero _)
    have hne : expr.opKind = .DIV ∨ expr.opKind = .MOD → r ≠ 0 := by
      intro hkind
      cases hknown : knownInt state expr.lhsType expr.rhs with
      | none =>
        rw [htypes] at hknown
        exact absurd ⟨hkind.imp_right Or.inl, hleftZero.1, hknown⟩ hzero
      | some y =>
        rw [hright hknown l r hlr]
        refine value_ne_zero fun hy => hdivZero ⟨?_, hkind⟩
        rw [hknown, hy]
    rw [hl]
    rcases hleftZero.2 with hkind | hkind | hkind
    · rw [hkind]
      exact congrArg some (zero_mul r)
    · rw [exactResult_of_ne_exp hexp, hkind]
      exact (if_neg (hne (Or.inl hkind))).trans (congrArg some (Int.zero_tdiv r))
    · rw [exactResult_of_ne_exp hexp, hkind]
      exact (if_neg (hne (Or.inr hkind))).trans (congrArg some (Int.zero_tmod r))

/-- With both operands known, the check says what the execution does. -/
lemma execute_eq_of_known (hcheck : CheckBinaryExprBase expr) (hexp : expr.opKind ≠ .EXP)
    {x y : BitVec 64} (hx : expr.lhsType.HasValue (value expr.lhsType.uns x))
    (hy : expr.lhsType.HasValue (value expr.lhsType.uns y))
    (hzero : expr.opKind = .DIV ∨ expr.opKind = .MOD → value expr.lhsType.uns y ≠ 0)
    (hquot : expr.opKind = .DIV → expr.overflowStrategy = .NA →
      expr.lhsType.HasValue ((value expr.lhsType.uns x).tdiv (value expr.lhsType.uns y))) :
    ∃ c, isOverflowOfType expr.resultType expr.opKind x y expr.overflowStrategy = some c ∧
      execute expr (value expr.lhsType.uns x) (value expr.lhsType.uns y) =
        if c.isOverflow && expr.overflowStrategy = .THROWING then none
        else some (value expr.lhsType.uns c.res) := by
  obtain ⟨z, hz⟩ := exists_exactResult hcheck (value expr.lhsType.uns x) hzero
  have hresult := (hcheck.checkCalculExpression hexp).2
  rw [execute_of_exactResult hz, hresult]
  rw [exactResult_of_ne_exp hexp] at hz
  by_cases hwraps : expr.overflowStrategy = .NA ∧ ¬(expr.opKind = .DIV ∨ expr.opKind = .MOD)
  · obtain ⟨hna, hkind⟩ := hwraps
    have hdiv : expr.opKind ≠ .DIV := fun h => hkind (Or.inl h)
    obtain ⟨c, hc, hexact⟩ := exact_isOverflowOfType .WRAPPING hx hy hz
    refine ⟨c, ?_, ?_⟩
    · rw [hna, isOverflowOfType_na _ _ _ hdiv]
      exact hc
    · have hvalid : OverflowStrategy.WRAPPING ≠ .CHECKED := by decide
      rw [hna, resultUnder_na z hkind, resultUnder_of_exact hexact hvalid OverflowStrategy.noConfusion]
      rfl
  · obtain ⟨c, hc, hexact⟩ := exact_isOverflowOfType expr.overflowStrategy hx hy hz
    refine ⟨c, hc, resultUnder_of_exact hexact hcheck.overflowStrategyMustBeValid fun hna => ?_⟩
    rcases not_not.mp fun hkind => hwraps ⟨hna, hkind⟩ with hdiv | hmod
    · have hfits := hquot hdiv hna
      rw [hdiv] at hz
      rwa [← Option.some.inj ((if_neg (hzero (Or.inl hdiv))).symm.trans hz)]
    · rw [hmod] at hz
      rw [← Option.some.inj ((if_neg (hzero (Or.inr hmod))).symm.trans hz)]
      exact hasValue_tmod hx hy

/-- Only the quotient of the least value by minus one leaves the type. -/
lemma hasValue_tdiv {type : TypeKind} {x y : BitVec 64}
    (hx : type.HasValue (value type.uns x)) (hy : type.HasValue (value type.uns y))
    (h : type.isSigned = true → value false x = least type.bitness false → value false y ≠ -1) :
    type.HasValue ((value type.uns x).tdiv (value type.uns y)) := by
  have hwidth : 0 < type.bitness := Nat.zero_lt_of_lt type.one_lt_bitness
  rw [← value_ofInt hwidth hx, ← value_ofInt hwidth hy]
  refine tdiv_representable_of_not _ _ ?_
  rw [value_ofInt hwidth hx, value_ofInt hwidth hy]
  rintro ⟨huns, hleast, hminus⟩
  rw [huns] at hleast hminus
  rw [TypeKind.uns, Bool.not_eq_false'] at huns
  exact h huns hleast hminus

/-- Nothing is divided by zero once the trivial operations are handled. -/
lemma ne_zero_of_handleTrivialArithmeticOp {left : Option (BitVec 64)} {right : Option (BitVec 64)}
    {y : BitVec 64} (hy : right = some y) (h : handleTrivialArithmeticOp state expr left right = none)
    (hkind : expr.opKind = .DIV ∨ expr.opKind = .MOD) : y ≠ 0 := by
  rintro rfl
  unfold handleTrivialArithmeticOp at h
  dsimp only at h
  rw [if_pos ⟨hy, hkind⟩] at h
  exact absurd h (Option.some_ne_none _)

theorem foldsTo_handleArithmeticOp (hcheck : CheckBinaryExprBase expr)
    (hexp : expr.opKind ≠ .EXP) (hzero : ¬ZeroByUnknown state expr)
    (hquot : ¬QuotientWithoutStrategy state expr) :
    FoldsTo expr (ConsistentOperands state expr) (handleArithmeticOp state expr) := by
  obtain ⟨htypes, hresult⟩ := hcheck.checkCalculExpression hexp
  have huns : expr.resultType.uns = expr.lhsType.uns := by rw [hresult]
  unfold handleArithmeticOp
  split_ifs
  · exact foldsTo_of_na _
  · unfold handleArithmeticOpOfInt
    split
    · next handled htrivial =>
      exact foldsTo_handleTrivialArithmeticOp hcheck hexp hzero htrivial
    · next htrivial =>
      split_ifs with hsub
      · -- `a - a`
        refine foldsTo_of_success huns _ fun l r hlr => execute_zero ?_ _
        rw [hsub.2, hlr.same hsub.1]
        exact congrArg some (sub_self r)
      · split
        · next x y hx hy =>
          split
          · next c hc =>
            refine foldsTo_recordChecked huns fun l r hlr => ?_
            have hl := hlr.lhs_known x hx
            have hr := hlr.rhs_known y (htypes ▸ hy)
            have hlv := hlr.lhs_hasValue
            have hrv := hlr.rhs_hasValue
            rw [← htypes] at hr hrv
            subst hl hr
            have hne := ne_zero_of_handleTrivialArithmeticOp hy htrivial
            obtain ⟨c', hc', hexec⟩ := execute_eq_of_known hcheck hexp hlv hrv
              (fun hkind => value_ne_zero (hne hkind)) fun hdiv hna =>
              hasValue_tdiv hlv hrv fun hsigned hleast hminus =>
                hquot ⟨hdiv, hna, hsigned, x, y, hx, htypes ▸ hy, hleast, hminus⟩
            obtain rfl := Option.some.inj (hc.symm.trans hc')
            exact hexec
          · exact foldsTo_of_na _
        · exact foldsTo_of_na _

/-! ## Powers -/

/-- The check of a power says what the execution does. -/
lemma resultUnder_isExpOverflow {kind : BinaryExprKind} {strategy : OverflowStrategy}
    (hexp : kind = .EXP) (hvalid : strategy ≠ .CHECKED) (x y : BitVec 64) :
    resultUnder .TYPE_INT64 kind strategy (value false x ^ (value true y).toNat) =
      if (isExpOverflow x y strategy).isOverflow && strategy = .THROWING then none
      else some (value false (isExpOverflow x y strategy).res) := by
  rw [value_true, Int.toNat_natCast]
  by_cases hna : strategy = .NA
  · have hkind : ¬(kind = .DIV ∨ kind = .MOD) := by
      rw [hexp]
      decide
    have hwraps : isExpOverflow x y .NA = isExpOverflow x y .WRAPPING := rfl
    rw [hna, resultUnder_na _ hkind, hwraps]
    exact resultUnder_of_exact (isExact_isExpOverflow x y .WRAPPING) (by decide)
      OverflowStrategy.noConfusion
  · exact resultUnder_of_exact (isExact_isExpOverflow x y strategy) hvalid fun h => absurd h hna

theorem foldsTo_handleExpOp (hcheck : CheckBinaryExprBase expr) (hexp : expr.opKind = .EXP)
    (hzero : ¬ZeroByUnknown state expr) :
    FoldsTo expr (ConsistentOperands state expr) (handleExpOp state expr) := by
  obtain ⟨hlhs, hrhs, hresult⟩ := hcheck.checkExponentiationExpression hexp
  have huns : expr.resultType.uns = false := by rw [hresult]; rfl
  have hleft {x : BitVec 64} (hx : (state.checkAbstractValue expr.lhs).bind (getVal false) = some x)
      {l r : ℤ} (hlr : ConsistentOperands state expr l r) : l = value false x := by
    have hl := hlr.lhs_known x
    rw [hlhs] at hl
    exact (hl hx).symm
  have hright {y : BitVec 64} (hy : (state.checkAbstractValue expr.rhs).bind (getVal true) = some y)
      {l r : ℤ} (hlr : ConsistentOperands state expr l r) : r = value true y := by
    have hr := hlr.rhs_known y
    rw [hrhs] at hr
    exact (hr hy).symm
  have hpower {l r : ℤ} : exactResult expr.opKind l r = some (l ^ r.toNat) := if_pos hexp
  unfold handleExpOp
  dsimp only
  split_ifs with hexpZero
  · -- `a ** 0`
    refine foldsTo_of_success huns _ fun l r hlr => ?_
    have hr : r = 0 := (hright hexpZero hlr).trans (value_zero _)
    have hpow : exactResult expr.opKind l r = some 1 := by
      rw [hpower, hr]
      exact congrArg some (pow_zero l)
    have hone : value false (1 : BitVec 64) = 1 := value_one (by norm_num) false
    rw [execute_of_exactResult hpow, hresult, resultUnder_of_hasValue _ _ (by decide), hone]
  · split
    · next x hx =>
      split_ifs with htrivial
      · -- `0 ** a` and `1 ** a`
        refine foldsTo_of_success huns _ fun l r hlr => ?_
        have hl := hleft hx hlr
        rcases htrivial with rfl | rfl
        · refine execute_zero ?_ false
          have hne : r.toNat ≠ 0 := by
            cases hy : (state.checkAbstractValue expr.rhs).bind (getVal true) with
            | none =>
              refine absurd ⟨Or.inr (Or.inr hexp), ?_, ?_⟩ hzero
              · rw [hlhs]
                exact hx
              · rw [hrhs]
                exact hy
            | some y =>
              have hy0 : y ≠ 0 := fun h => hexpZero (h ▸ hy)
              have hpos : value true y ≠ 0 := value_ne_zero hy0
              have hr := hright hy hlr
              rw [value_true] at hpos hr
              omega
          rw [hpower, hl, show value false (0 : BitVec 64) = 0 from value_zero false]
          exact congrArg some (zero_pow hne)
        · have hone : value false (1 : BitVec 64) = 1 := value_one (by norm_num) false
          have hpow : exactResult expr.opKind l r = some 1 := by
            rw [hpower, hl, hone]
            exact congrArg some (one_pow _)
          rw [execute_of_exactResult hpow, hresult, resultUnder_of_hasValue _ _ (by decide), hone]
      · split
        · next y hy =>
          refine foldsTo_recordChecked huns fun l r hlr => ?_
          rw [execute_of_exactResult hpower, hleft hx hlr, hright hy hlr, hresult]
          exact resultUnder_isExpOverflow hexp hcheck.overflowStrategyMustBeValid x y
        · exact foldsTo_of_na _
    · exact foldsTo_of_na _

/-! ## Where the folding is wrong -/

/-- Zero by an unknown operand is folded to zero. -/
lemma handleMathematicalOp_of_zeroByUnknown (hcheck : CheckBinaryExprBase expr)
    (h : ZeroByUnknown state expr) :
    handleMathematicalOp state expr =
      (state.update expr.result (makeVal expr.lhsType.uns 0), .SUCCESS) := by
  obtain ⟨hkind, hleft, hright⟩ := h
  unfold handleMathematicalOp
  split_ifs with hexp
  · obtain ⟨hlhs, hrhs, -⟩ := hcheck.checkExponentiationExpression hexp
    rw [hlhs] at hleft ⊢
    rw [hrhs] at hright
    have hleft' : (state.checkAbstractValue expr.lhs).bind (getVal false) = some 0 := hleft
    have hright' : (state.checkAbstractValue expr.rhs).bind (getVal true) = none := hright
    unfold handleExpOp
    dsimp only
    rw [hleft', hright', if_neg (Option.some_ne_none _).symm]
    rfl
  · obtain ⟨htypes, -⟩ := hcheck.checkCalculExpression hexp
    rw [← htypes] at hright
    have hknown : state.checkAbstractValue expr.lhs ≠ none := by
      intro hnone
      rw [knownInt, hnone] at hleft
      exact absurd hleft (Option.some_ne_none _).symm
    have hdiv : expr.opKind = .MUL ∨ expr.opKind = .DIV ∨ expr.opKind = .MOD :=
      hkind.imp_right (Or.resolve_right · hexp) |>.elim (Or.inr ∘ Or.inl) (Or.inr ∘ Or.inr)
    have htrivial : handleTrivialArithmeticOp state expr (some 0) none =
        some (state.update expr.result (makeVal expr.lhsType.uns 0), .SUCCESS) := by
      unfold handleTrivialArithmeticOp
      dsimp only
      rw [if_neg fun hnone => absurd hnone.1 (Option.some_ne_none _).symm,
        if_neg fun hnone => absurd hnone.1 (Option.some_ne_none _).symm,
        if_neg fun hnone => absurd hnone.1 (Option.some_ne_none _).symm, if_pos ⟨rfl, hdiv⟩]
    unfold handleArithmeticOp handleArithmeticOpOfInt
    rw [if_neg fun hnone => hknown hnone.1, hleft, hright, htrivial]

lemma not_foldsArithmetic_of_zeroByUnknown (hcheck : CheckBinaryExprBase expr)
    (h : ZeroByUnknown state expr) : ¬FoldsArithmetic state expr := by
  intro hfolds
  rw [FoldsArithmetic, handleMathematicalOp_of_zeroByUnknown hcheck h] at hfolds
  have huns : expr.resultType.uns = expr.lhsType.uns := by
    by_cases hexp : expr.opKind = .EXP
    · obtain ⟨hlhs, -, hresult⟩ := hcheck.checkExponentiationExpression hexp
      rw [hlhs, hresult]
    · rw [(hcheck.checkCalculExpression hexp).2]
  -- the other operand may be zero as well
  have hzero : ConsistentOperands state expr 0 0 := {
    lhs_hasValue := hasValue_zero _
    rhs_hasValue := hasValue_zero _
    lhs_known := fun x hx => by
      rw [← Option.some.inj (h.2.1.symm.trans hx)]
      exact value_zero _
    rhs_known := fun y hy => absurd (h.2.2.symm.trans hy) (Option.some_ne_none _).symm
    same := fun _ => rfl }
  have hvalue := hfolds.execute_eq huns hzero
  rw [show value expr.lhsType.uns (0 : BitVec 64) = 0 from value_zero _] at hvalue
  unfold execute at hvalue
  rcases h.1 with hkind | hkind | hkind
  · rw [hkind] at hvalue
    exact absurd hvalue (Option.some_ne_none _).symm
  · rw [hkind] at hvalue
    exact absurd hvalue (Option.some_ne_none _).symm
  · obtain ⟨-, -, hresult⟩ := hcheck.checkExponentiationExpression hkind
    rw [hkind, hresult, show exactResult .EXP 0 0 = some 1 from rfl, Option.bind_some,
      resultUnder_of_hasValue _ _ (by decide)] at hvalue
    exact absurd (Option.some.inj hvalue) (by decide)

/-- The check leaves the result of an overflowing quotient as it is without a strategy. -/
lemma isOverflowAt_quotient {w : ℕ} (hw : 0 < w) {x y : BitVec 64}
    (hx : value false x = least w false) (hy : value false y = -1) :
    isOverflowAt w false .DIV x y .NA = some ⟨true, 0⟩ := by
  have hends := least_lt_greatest hw false
  have hhi := greatest_nonneg w false
  have hpow : (0 : ℤ) < 2 ^ (w - 1) := by positivity
  have hxw : value false (convert false x w) = -2 ^ (w - 1) :=
    value_convert hw x ⟨hx.ge, by omega⟩ |>.trans hx
  have hyw : value false (convert false y w) = -1 := by
    refine (value_convert hw y ⟨?_, by omega⟩).trans hy
    rw [hy, least_false]
    omega
  have hover := (isMinByMinusOne_iff hw (convert false x w) (convert false y w)).mpr
    ⟨rfl, hxw, hyw⟩
  have hres : convert false (0 : BitVec w) 64 = 0 := by
    rw [convert, show value false (0 : BitVec w) = 0 from value_zero false]
    rfl
  have hdiv : isOverflowAfterDiv false (convert false x w) (convert false y w) .NA 0 =
      ⟨true, 0⟩ := by
    unfold isOverflowAfterDiv
    rw [hover]
    rfl
  rw [isOverflowAt, isOverflow, hdiv, Option.map_some, hres]

lemma isOverflowOfType_quotient {type : TypeKind} (hsigned : type.isSigned = true)
    {x y : BitVec 64} (hx : value false x = least type.bitness false) (hy : value false y = -1) :
    isOverflowOfType type .DIV x y .NA = some ⟨true, 0⟩ := by
  have hquot := isOverflowAt_quotient (Nat.zero_lt_of_lt type.one_lt_bitness) hx hy
  cases type <;> first | exact absurd hsigned (by decide) | exact hquot

/-- The quotient of the least value by minus one is one more than the largest value. -/
lemma clamp_quotient {w : ℕ} :
    ¬Representable w false ((least w false).tdiv (-1)) ∧
      clamp w false ((least w false).tdiv (-1)) = greatest w false := by
  have hquot : (least w false).tdiv (-1) = greatest w false + 1 := by
    rw [Int.tdiv_neg, Int.tdiv_one, least_false, greatest_false]
    ring
  rw [hquot]
  refine ⟨fun h => absurd h.2 (by omega), clamp_eq_greatest (by omega)⟩

/-- The analysis records zero for it. -/
lemma handleMathematicalOp_of_quotient (hcheck : CheckBinaryExprBase expr)
    (h : QuotientWithoutStrategy state expr) :
    handleMathematicalOp state expr =
      (state.update expr.result (makeVal expr.lhsType.uns 0), .SUCCESS) := by
  obtain ⟨hkind, hna, hsigned, x, y, hx, hy, hleast, hminus⟩ := h
  have hexp : expr.opKind ≠ .EXP := by
    rw [hkind]
    decide
  have hsub : expr.opKind ≠ .SUB := by
    rw [hkind]
    decide
  obtain ⟨htypes, hresult⟩ := hcheck.checkCalculExpression hexp
  rw [← htypes] at hy
  have hx0 : x ≠ 0 := by
    rintro rfl
    have hpow : (0 : ℤ) < 2 ^ (expr.lhsType.bitness - 1) := by positivity
    rw [show value false (0 : BitVec 64) = 0 from value_zero false, least_false] at hleast
    omega
  have hy0 : y ≠ 0 := by
    rintro rfl
    exact absurd hminus (by decide)
  have hknown : state.checkAbstractValue expr.lhs ≠ none := by
    intro hnone
    rw [knownInt, hnone] at hx
    exact absurd hx (Option.some_ne_none _).symm
  have htrivial : handleTrivialArithmeticOp state expr (some x) (some y) = none := by
    unfold handleTrivialArithmeticOp
    dsimp only
    rw [hkind, if_neg fun h => hy0 (Option.some.inj h.1),
      if_neg fun h => hy0 (Option.some.inj h.1), if_neg fun h => absurd h.2 (by decide),
      if_neg fun h => hx0 (Option.some.inj h.1)]
  unfold handleMathematicalOp handleArithmeticOp handleArithmeticOpOfInt
  rw [if_neg hexp, if_neg fun hnone => hknown hnone.1, hx, hy, htrivial]
  dsimp only
  rw [if_neg fun h => hsub h.2, hkind, hna, hresult, isOverflowOfType_quotient hsigned hleast hminus]
  dsimp only
  rw [recordChecked, hna]
  rfl

lemma not_foldsArithmetic_of_quotient (hcheck : CheckBinaryExprBase expr)
    (h : QuotientWithoutStrategy state expr) : ¬FoldsArithmetic state expr := by
  intro hfolds
  rw [FoldsArithmetic, handleMathematicalOp_of_quotient hcheck h] at hfolds
  obtain ⟨hkind, hna, hsigned, x, y, hx, hy, hleast, hminus⟩ := h
  have hexp : expr.opKind ≠ .EXP := by
    rw [hkind]
    decide
  obtain ⟨htypes, hresult⟩ := hcheck.checkCalculExpression hexp
  rw [← htypes] at hy
  have huns : expr.lhsType.uns = false := by rw [TypeKind.uns, hsigned]; rfl
  have hhi := greatest_nonneg expr.lhsType.bitness false
  have hpow : (2 : ℤ) ^ 1 ≤ 2 ^ (expr.lhsType.bitness - 1) := by
    have hbits := expr.lhsType.one_lt_bitness
    exact pow_le_pow_right₀ (by norm_num) (by omega)
  have hends : least expr.lhsType.bitness false ≤ -1 := by
    rw [least_false]
    omega
  -- the execution gives the largest value
  have hoperands : ConsistentOperands state expr (least expr.lhsType.bitness false) (-1) := {
    lhs_hasValue := by
      rw [TypeKind.HasValue, huns]
      exact ⟨le_rfl, by omega⟩
    rhs_hasValue := by
      rw [← htypes, TypeKind.HasValue, huns]
      exact ⟨hends, by omega⟩
    lhs_known := fun x' hx' => by
      rw [← Option.some.inj (hx.symm.trans hx'), huns, hleast]
    rhs_known := fun y' hy' => by
      rw [← htypes] at hy' ⊢
      rw [← Option.some.inj (hy.symm.trans hy'), huns, hminus]
    same := fun hsame => by
      rw [hsame] at hx
      rw [← hleast, ← hminus, Option.some.inj (hx.symm.trans hy)] }
  have hvalue := hfolds.execute_eq (by rw [hresult]) hoperands
  have hexact : exactResult expr.opKind (least expr.lhsType.bitness false) (-1) =
      some ((least expr.lhsType.bitness false).tdiv (-1)) := by
    rw [hkind]
    rfl
  obtain ⟨hleaves, hclamp⟩ := clamp_quotient (w := expr.lhsType.bitness)
  rw [execute_of_exactResult hexact, hna, hkind, hresult] at hvalue
  unfold resultUnder at hvalue
  have hover : ¬expr.lhsType.HasValue ((least expr.lhsType.bitness false).tdiv (-1)) := by
    rw [TypeKind.HasValue, huns]
    exact hleaves
  rw [if_neg hover] at hvalue
  dsimp only at hvalue
  rw [if_pos (Or.inl rfl), huns, hclamp] at hvalue
  have hgreatest := Option.some.inj hvalue
  rw [show value false (0 : BitVec 64) = 0 from value_zero false, greatest_false] at hgreatest
  omega

/-! ## Exactness -/

/-- An arithmetic expression is folded without a change of its behaviour if and only if it is not
zero by an unknown operand, nor the quotient that overflows without a strategy. -/
theorem foldsArithmetic_iff (hcheck : CheckBinaryExprBase expr) :
    FoldsArithmetic state expr ↔
      ¬ZeroByUnknown state expr ∧ ¬QuotientWithoutStrategy state expr := by
  constructor
  · intro hfolds
    exact ⟨fun h => not_foldsArithmetic_of_zeroByUnknown hcheck h hfolds,
      fun h => not_foldsArithmetic_of_quotient hcheck h hfolds⟩
  · rintro ⟨hzero, hquot⟩
    unfold FoldsArithmetic handleMathematicalOp
    split_ifs with hexp
    · exact foldsTo_handleExpOp hcheck hexp hzero
    · exact foldsTo_handleArithmeticOp hcheck hexp hzero hquot

/-! ## Terminators with an exception edge -/

/-- `HandleTerminatorEffect` for an arithmetic terminator: the successor that is known to follow,
the first one without an exception and the second one with it. -/
def handleTerminatorEffect (res : ExceptionKind) : Option ℕ :=
  match res with
  | .SUCCESS => some 0
  | .FAIL => some 1
  | .NA => none

/-- The successor that follows an execution. -/
def successorOf (outcome : Option ℤ) : ℕ := if outcome.isSome then 0 else 1

/-- Where the folding is right, the edge that the analysis keeps is the one that is taken. -/
theorem successorOf_execute (h : FoldsArithmetic state expr) {i : ℕ}
    (hi : handleTerminatorEffect (handleMathematicalOp state expr).2 = some i) {l r : ℤ}
    (hlr : ConsistentOperands state expr l r) : successorOf (execute expr l r) = i := by
  cases hstatus : (handleMathematicalOp state expr).2 with
  | SUCCESS =>
    obtain ⟨c, -, hexec⟩ := h.success hstatus
    rw [hstatus] at hi
    rw [hexec l r hlr, ← Option.some.inj hi]
    rfl
  | FAIL =>
    rw [hstatus] at hi
    rw [h.fail hstatus l r hlr, ← Option.some.inj hi]
    rfl
  | NA =>
    rw [hstatus] at hi
    exact absurd hi (Option.some_ne_none i).symm

/-! ## A division by an unknown divisor -/

/-- `0 / a` for two variables of type `Int64`. -/
def sampleQuotient : IntBinaryExpression where
  opKind := .DIV
  lhs := 0
  rhs := 1
  result := 2
  overflowStrategy := .THROWING
  lhsType := .TYPE_INT64
  rhsType := .TYPE_INT64
  resultType := .TYPE_INT64

def sampleQuotientState : ConstDomain Unit :=
  (⟨OrderedMap.empty⟩ : ConstDomain Unit).update 0 (makeVal false 0)

lemma checkBinaryExprBase_sampleQuotient : CheckBinaryExprBase sampleQuotient where
  isMathematicalOperator := by decide
  checkCalculExpression := by decide
  checkExponentiationExpression := by decide
  overflowStrategyMustBeValid := by decide

theorem foldsArithmetic_iff_sampleQuotient :
    CheckBinaryExprBase sampleQuotient ∧
      (FoldsArithmetic sampleQuotientState sampleQuotient ↔
        ¬ZeroByUnknown sampleQuotientState sampleQuotient ∧
          ¬QuotientWithoutStrategy sampleQuotientState sampleQuotient) :=
  ⟨checkBinaryExprBase_sampleQuotient, foldsArithmetic_iff checkBinaryExprBase_sampleQuotient⟩

/-- The quotient is folded to zero with a success, and it throws when the divisor is zero. -/
theorem sampleQuotient_misfolded :
    CheckBinaryExprBase sampleQuotient ∧
      (handleMathematicalOp sampleQuotientState sampleQuotient).2 = .SUCCESS ∧
      (handleMathematicalOp sampleQuotientState sampleQuotient).1.checkAbstractValue 2 =
        some (makeVal false 0) ∧
      ConsistentOperands sampleQuotientState sampleQuotient 0 0 ∧
      execute sampleQuotient 0 0 = none ∧
      ¬FoldsArithmetic sampleQuotientState sampleQuotient := by
  have hoperands : ConsistentOperands sampleQuotientState sampleQuotient 0 0 := {
    lhs_hasValue := by decide
    rhs_hasValue := by decide
    lhs_known := fun x hx => by
      have hknown : knownInt sampleQuotientState .TYPE_INT64 0 = some 0 := by decide
      rw [← Option.some.inj (hknown.symm.trans hx)]
      rfl
    rhs_known := fun y hy => by
      have hknown : knownInt sampleQuotientState .TYPE_INT64 1 = none := by decide
      exact absurd (hknown.symm.trans hy) (Option.some_ne_none _).symm
    same := fun _ => rfl }
  refine ⟨checkBinaryExprBase_sampleQuotient, by decide, by decide, hoperands, by decide, ?_⟩
  exact not_foldsArithmetic_of_zeroByUnknown checkBinaryExprBase_sampleQuotient
    ⟨Or.inl rfl, by decide, by decide⟩

end Cangjie.CHIR.ConstAnalysis
