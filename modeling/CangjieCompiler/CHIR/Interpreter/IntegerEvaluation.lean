import CangjieCompiler.CHIR.Interpreter.IntegerOps

/-!
# Integer operations are evaluated right

The interpreter gives an integer operation the value that the language gives it, and raises where
the language raises, for all types, operands and strategies but two kinds of operations.  The count
of a shift is converted to `int64_t` before it is compared with the width, so that an unsigned count
from `2 ^ 63` on turns negative and passes the comparison.  And the quotient of the least value by
minus one without a strategy is never stored.

The overflow checks that the constant analysis makes of the same operands, in 64-bit carriers, have
the flags of the checks of the interpreter.
-/

namespace Cangjie.CHIR.Interpreter

open FixedWidth OverflowChecker

variable {kind : TypeKind} {strat : OverflowStrategy} {z : ℤ}

/-- A step on operands above `argStack` does what the language says. -/
def Agrees (argStack : List IVal) : Option IVal → Option Step → Prop
  | some v, step => step = some ⟨none, v :: argStack⟩
  | none, step => ∃ exceptionName, step = some ⟨some exceptionName, argStack⟩

/-- A step raises the exception of an overflow. -/
def Step.Overflows (step : Option Step) : Prop :=
  step.bind Step.raised = some "OverflowException"

/-- The flag of the check that the constant analysis makes of constants of a type. -/
def analysisFlag (kind : TypeKind) (exprKind : ExprKind) (x y : BitVec kind.bitness)
    (strat : OverflowStrategy) : Option Bool :=
  let x := convert kind.uns x 64
  let y := convert kind.uns y 64
  (if kind.uns then isUIntOverflow kind exprKind x y strat
    else isIntOverflow kind exprKind x y strat).map Checked.isOverflow

namespace IntOperation

/-- The flag of the check that the constant analysis makes of an operation; `none` where it makes
none. -/
def analysisFlag (strat : OverflowStrategy) : IntOperation → Option Bool
  | unary .NEG kind x => Interpreter.analysisFlag kind .NEG 0 x strat
  | binary .ADD kind x y => Interpreter.analysisFlag kind .ADD x y strat
  | binary .SUB kind x y => Interpreter.analysisFlag kind .SUB x y strat
  | binary .MUL kind x y => Interpreter.analysisFlag kind .MUL x y strat
  | binary .DIV kind x y =>
    if y = 0 then none else Interpreter.analysisFlag kind .DIV x y strat
  | binary .MOD kind x y =>
    if y = 0 then none else Interpreter.analysisFlag kind .MOD x y strat
  | exp x y => some (isExpOverflow x y strat).isOverflow
  | typeCast srcKind x targetKind =>
    some (isTypecastOverflowForInt srcKind.uns (convert srcKind.uns x 64) targetKind.bitness
      targetKind.uns strat).isOverflow
  | _ => none

/-- An operation is evaluated as the language says, and the constant analysis classifies it in the
same way. -/
structure EvaluatesRight (strat : OverflowStrategy) (operation : IntOperation) : Prop where
  agrees : ∀ host op argStack, op ∈ operation.opCodes →
    Agrees argStack (operation.result strat) (operation.interpret host op strat argStack)
  classified : ∀ flag, operation.analysisFlag strat = some flag →
    ∀ host op argStack, op ∈ operation.opCodes →
      (flag = true ↔ Step.Overflows (operation.interpret host op .THROWING argStack))

/-- A shift whose count turns negative as an `int64_t`. -/
def CountTurnsNegative : IntOperation → Prop
  | shift _ _ _ rhsKind count => 2 ^ 63 ≤ value rhsKind.uns count
  | _ => False

/-- A quotient that does not fit, without a strategy. -/
def QuotientWithoutStrategy (strat : OverflowStrategy) : IntOperation → Prop
  | binary .DIV kind x y =>
    strat = .NA ∧ value kind.uns x = least kind.bitness kind.uns ∧ value kind.uns y = -1
  | _ => False

end IntOperation

/-! ## Checked results -/

lemma popInt_self (kind : TypeKind) (x : BitVec kind.bitness) (argStack : List IVal) :
    popInt kind (.IInt kind x :: argStack) = some (x, argStack) := by
  rw [popInt, dif_pos rfl]

lemma bitness_pos (kind : TypeKind) : 0 < kind.bitness := Nat.zero_lt_of_lt kind.one_lt_bitness

section Checked

variable {c : Checked kind.bitness}

lemma res_of_hasValue (hexact : c.IsExact kind.uns strat z) (hz : kind.HasValue z) :
    c.res = BitVec.ofInt kind.bitness z := by
  rw [← hexact.fits hz, ofInt_value]

lemma res_of_wrapping (hexact : c.IsExact kind.uns .WRAPPING z) :
    c.res = BitVec.ofInt kind.bitness z := by
  rw [← ofInt_eq_of_modEq (hexact.wraps rfl).2, ofInt_value]

lemma res_of_saturating (hexact : c.IsExact kind.uns .SATURATING z) :
    c.res = BitVec.ofInt kind.bitness (clamp kind.bitness kind.uns z) := by
  rw [← hexact.saturates rfl, ofInt_value]

/-- A checked result is pushed as the strategy says. -/
lemma agrees_pushIfNotOverflow {isQuotient : Bool} (hexact : c.IsExact kind.uns strat z)
    (hna : strat = .NA →
      c.res = BitVec.ofInt kind.bitness (if isQuotient then clamp kind.bitness kind.uns z else z))
    (argStack : List IVal) :
    Agrees argStack (arithmeticResult kind isQuotient strat z)
      (some (pushIfNotOverflow kind c strat argStack)) := by
  have hflag : c.isOverflow = decide ¬kind.HasValue z :=
    Bool.eq_iff_iff.mpr (hexact.overflow_iff.trans decide_eq_true_iff.symm)
  unfold arithmeticResult pushIfNotOverflow
  rw [hflag]
  cases strat with
  | NA =>
    have hres := hna rfl
    simp [Agrees, pushInt, IVal.ofInt, hres]
  | WRAPPING => simp [Agrees, pushInt, IVal.ofInt, res_of_wrapping hexact]
  | SATURATING => simp [Agrees, pushInt, IVal.ofInt, res_of_saturating hexact]
  | THROWING =>
    by_cases hz : kind.HasValue z
    · simp [Agrees, pushInt, IVal.ofInt, hz, res_of_hasValue hexact hz]
    · simp [Agrees, raiseOverflowException, hz]
  | CHECKED =>
    by_cases hz : kind.HasValue z
    · simp [Agrees, IVal.ofInt, hz, res_of_hasValue hexact hz]
    · simp [Agrees, hz]

/-- With the strategy `THROWING` an overflow is raised. -/
lemma overflows_pushIfNotOverflow_iff (argStack : List IVal) :
    Step.Overflows (some (pushIfNotOverflow kind c .THROWING argStack)) ↔ c.isOverflow = true := by
  unfold pushIfNotOverflow Step.Overflows
  cases hflag : c.isOverflow with
  | true => simp [raiseOverflowException]
  | false => simp [pushInt]

end Checked

/-! ## Checks of the analysis -/

/-- A check of constants in 64-bit carriers is exact. -/
lemma exact_carriers (strat : OverflowStrategy) {exprKind : ExprKind}
    {x y : BitVec kind.bitness}
    (h : mathematicalResult exprKind (value kind.uns x) (value kind.uns y) = some z) :
    ∃ c, (if kind.uns then
        isUIntOverflow kind exprKind (convert kind.uns x 64) (convert kind.uns y 64) strat
      else isIntOverflow kind exprKind (convert kind.uns x 64) (convert kind.uns y 64) strat) =
        some c ∧ Exact kind.bitness kind.uns strat z c.isOverflow (value kind.uns c.res) := by
  have hx : value kind.uns (convert kind.uns x 64) = value kind.uns x :=
    value_convert_carrier kind.bitness_le x
  have hy : value kind.uns (convert kind.uns y 64) = value kind.uns y :=
    value_convert_carrier kind.bitness_le y
  have hxrep : kind.HasValue (value kind.uns (convert kind.uns x 64)) := by
    rw [hx]
    exact value_representable kind.uns x
  have hyrep : kind.HasValue (value kind.uns (convert kind.uns y 64)) := by
    rw [hy]
    exact value_representable kind.uns y
  rw [← hx, ← hy] at h
  cases hsigned : kind.isSigned with
  | true =>
    have huns : kind.uns = false := by rw [TypeKind.uns, hsigned]; rfl
    rw [huns] at h hxrep hyrep ⊢
    exact exact_isIntOverflow hsigned hxrep hyrep h
  | false =>
    have huns : kind.uns = true := by rw [TypeKind.uns, hsigned]; rfl
    rw [huns] at h hxrep hyrep ⊢
    exact exact_isUIntOverflow hsigned hxrep hyrep h

lemma analysisFlag_iff {exprKind : ExprKind} {x y : BitVec kind.bitness}
    (h : mathematicalResult exprKind (value kind.uns x) (value kind.uns y) = some z) {flag : Bool}
    (hflag : analysisFlag kind exprKind x y strat = some flag) :
    flag = true ↔ ¬kind.HasValue z := by
  obtain ⟨c, hc, hexact⟩ := exact_carriers strat h
  rw [analysisFlag, hc] at hflag
  obtain rfl := Option.some.inj hflag
  exact hexact.overflow_iff

/-! ## Operations that are checked -/

namespace IntOperation

variable {operation : IntOperation}

/-- An operation that pushes a checked result unless it overflows. -/
lemma evaluatesRight_of_checked (isQuotient : Bool) (z : ℤ)
    (check : Host → OverflowStrategy → Checked kind.bitness)
    (hinterpret : ∀ host op strat argStack, op ∈ operation.opCodes →
      operation.interpret host op strat argStack =
        some (pushIfNotOverflow kind (check host strat) strat argStack))
    (hexact : ∀ host strat, (check host strat).IsExact kind.uns strat z)
    (hna : ∀ host, strat = .NA → (check host strat).res =
      BitVec.ofInt kind.bitness (if isQuotient then clamp kind.bitness kind.uns z else z))
    (hresult : operation.result strat = arithmeticResult kind isQuotient strat z)
    (hflag : ∀ flag, operation.analysisFlag strat = some flag →
      (flag = true ↔ ¬kind.HasValue z)) : operation.EvaluatesRight strat where
  agrees host op argStack hop := by
    rw [hinterpret host op strat argStack hop, hresult]
    exact agrees_pushIfNotOverflow (hexact host strat) (hna host) argStack
  classified flag hsome host op argStack hop := by
    rw [hinterpret host op .THROWING argStack hop, overflows_pushIfNotOverflow_iff,
      hflag flag hsome]
    exact (hexact host .THROWING).overflow_iff.symm

/-- An operation that is not checked and pushes its result. -/
lemma evaluatesRight_of_pushed (res : BitVec kind.bitness)
    (hinterpret : ∀ host op argStack, op ∈ operation.opCodes →
      operation.interpret host op strat argStack = some (pushInt kind res argStack))
    (hresult : operation.result strat = some (.ofInt kind z))
    (hres : res = BitVec.ofInt kind.bitness z) (hflag : operation.analysisFlag strat = none) :
    operation.EvaluatesRight strat where
  agrees host op argStack hop := by
    rw [hinterpret host op argStack hop, hresult, hres]
    rfl
  classified flag hsome := by
    rw [hflag] at hsome
    exact absurd hsome (Option.some_ne_none flag).symm

attribute [local simp] interpret binOpInt binRegOpInt binExpOpInt

/-! ## Operations with one operand -/

lemma res_isOverflowAfterAdd_na {w : ℕ} (uns : Bool) (x y : BitVec w) :
    (isOverflowAfterAdd uns x y .NA).res = BitVec.ofInt w (value uns x + value uns y) := by
  simp [isOverflowAfterAdd, builtinOverflow]

lemma res_isOverflowAfterSub_na {w : ℕ} (uns : Bool) (x y : BitVec w) :
    (isOverflowAfterSub uns x y .NA).res = BitVec.ofInt w (value uns x - value uns y) := by
  simp [isOverflowAfterSub, builtinOverflow]

lemma res_isOverflowAfterMul_na {w : ℕ} (uns : Bool) (x y : BitVec w) :
    (isOverflowAfterMul uns x y .NA).res = BitVec.ofInt w (value uns x * value uns y) := by
  simp [isOverflowAfterMul, builtinOverflow]

lemma evaluatesRight_unary (op : UnaryOp) (x : BitVec kind.bitness) :
    (unary op kind x).EvaluatesRight strat := by
  have hw := bitness_pos kind
  cases op with
  | NEG =>
    have hzero : -value kind.uns x =
        value kind.uns (0 : BitVec kind.bitness) - value kind.uns x := by
      rw [show (0 : BitVec kind.bitness) = BitVec.ofNat kind.bitness 0 from rfl, value_zero, zero_sub]
    refine evaluatesRight_of_checked false (-value kind.uns x)
      (fun _ strat => isOverflowAfterSub kind.uns 0 x strat) ?_ ?_ ?_ rfl ?_
    · intro host op strat argStack hop
      rcases List.mem_pair.mp hop with rfl | rfl <;>
        simp [interpret, binOpInt, popInt_self]
    · intro _ strat
      rw [hzero]
      exact isExact_isOverflowAfterSub hw 0 x
    · rintro _ rfl
      rw [res_isOverflowAfterSub_na, hzero]
      rfl
    · intro flag hflag
      have hmath : mathematicalResult .NEG (value kind.uns (0 : BitVec kind.bitness))
          (value kind.uns x) = some (-value kind.uns x) := rfl
      exact analysisFlag_iff hmath hflag
  | INC =>
    have hone := value_one kind.one_lt_bitness kind.uns
    refine evaluatesRight_of_checked false (value kind.uns x + 1)
      (fun _ strat => isOverflowAfterAdd kind.uns x 1 strat) ?_ ?_ ?_ rfl ?_
    · intro host op strat argStack hop
      obtain rfl := List.mem_singleton.mp hop
      simp [interpret, binOpInt, popInt_self]
    · intro _ strat
      rw [← hone]
      exact isExact_isOverflowAfterAdd hw x 1
    · rintro _ rfl
      rw [res_isOverflowAfterAdd_na, hone]
      rfl
    · intro flag hflag
      exact absurd hflag (Option.some_ne_none flag).symm
  | DEC =>
    have hone := value_one kind.one_lt_bitness kind.uns
    refine evaluatesRight_of_checked false (value kind.uns x - 1)
      (fun _ strat => isOverflowAfterSub kind.uns x 1 strat) ?_ ?_ ?_ rfl ?_
    · intro host op strat argStack hop
      obtain rfl := List.mem_singleton.mp hop
      simp [interpret, binOpInt, popInt_self]
    · intro _ strat
      rw [← hone]
      exact isExact_isOverflowAfterSub hw x 1
    · rintro _ rfl
      rw [res_isOverflowAfterSub_na, hone]
      rfl
    · intro flag hflag
      exact absurd hflag (Option.some_ne_none flag).symm
  | BITNOT =>
    refine evaluatesRight_of_pushed (~~~x) ?_ rfl ?_ rfl
    · intro host op argStack hop
      obtain rfl := List.mem_singleton.mp hop
      simp [interpret, binOpInt, popInt_self]
    · rw [ofInt_lnot, ofInt_value]

/-! ## Operations with two operands -/

/-- A check with two operands that stores the low bits unless it saturates. -/
lemma evaluatesRight_binary_of_check {op : BinaryOp} {x y : BitVec kind.bitness}
    (exprKind : ExprKind) (z : ℤ)
    (check : OverflowStrategy → Checked kind.bitness)
    (hinterpret : ∀ host code strat argStack, code ∈ (binary op kind x y).opCodes →
      (binary op kind x y).interpret host code strat argStack =
        some (pushIfNotOverflow kind (check strat) strat argStack))
    (hexact : ∀ strat, (check strat).IsExact kind.uns strat z)
    (hna : (check .NA).res = BitVec.ofInt kind.bitness z)
    (hresult : op.result kind strat (value kind.uns x) (value kind.uns y) =
      arithmeticResult kind false strat z)
    (hmath : mathematicalResult exprKind (value kind.uns x) (value kind.uns y) = some z)
    (hflag : (binary op kind x y).analysisFlag strat =
      Interpreter.analysisFlag kind exprKind x y strat) :
    (binary op kind x y).EvaluatesRight strat := by
  refine evaluatesRight_of_checked false z (fun _ => check) hinterpret (fun _ => hexact) ?_
    hresult ?_
  · rintro _ rfl
    exact hna
  · intro flag hsome
    rw [hflag] at hsome
    exact analysisFlag_iff hmath hsome

lemma value_eq_zero_iff {w : ℕ} (uns : Bool) (x : BitVec w) : value uns x = 0 ↔ x = 0 := by
  have hzero : value uns (0 : BitVec w) = 0 := value_zero uns
  rw [← hzero]
  exact ⟨fun h => value_injective uns h, congrArg _⟩

/-- A division by zero raises. -/
lemma evaluatesRight_of_raised
    (hinterpret : ∀ host op argStack, op ∈ operation.opCodes →
      operation.interpret host op strat argStack = some (raiseArithmeticException argStack))
    (hresult : operation.result strat = none) (hflag : operation.analysisFlag strat = none) :
    operation.EvaluatesRight strat where
  agrees host op argStack hop := by
    rw [hinterpret host op argStack hop, hresult]
    exact ⟨_, rfl⟩
  classified flag hsome := by
    rw [hflag] at hsome
    exact absurd hsome (Option.some_ne_none flag).symm

lemma evaluatesRight_div {x y : BitVec kind.bitness}
    (hquotient : ¬(binary .DIV kind x y).QuotientWithoutStrategy strat) :
    (binary .DIV kind x y).EvaluatesRight strat := by
  have hw := bitness_pos kind
  by_cases hy : y = 0
  · refine evaluatesRight_of_raised ?_ (if_pos ((value_eq_zero_iff _ y).mpr hy)) (if_pos hy)
    intro host op argStack hop
    rcases List.mem_pair.mp hop with rfl | rfl <;>
      simp [interpret, binOpInt, binRegOpInt, popInt_self, hy]
  · have hne : ¬y = BitVec.ofNat kind.bitness 0 := hy
    have hvalue : value kind.uns y ≠ 0 := fun h => hy ((value_eq_zero_iff _ y).mp h)
    refine evaluatesRight_of_checked true ((value kind.uns x).tdiv (value kind.uns y))
      (fun host strat => isOverflowAfterDiv kind.uns x y strat (host.uninitialized kind.bitness))
      ?_ (fun _ _ => isExact_isOverflowAfterDiv hw x y _) ?_ (if_neg hvalue) ?_
    · intro host op strat argStack hop
      rcases List.mem_pair.mp hop with rfl | rfl <;>
        simp [interpret, binOpInt, binRegOpInt, popInt_self, hne]
    · -- Without a strategy the quotient fits.
      rintro host rfl
      have hfits : kind.HasValue ((value kind.uns x).tdiv (value kind.uns y)) := by
        refine tdiv_representable_of_not x y fun hover => hquotient ⟨rfl, ?_, hover.2.2⟩
        rw [hover.2.1, hover.1, least_false]
      rw [res_of_hasValue (isExact_isOverflowAfterDiv hw x y _) hfits, if_pos rfl,
        clamp_eq_self hfits]
    · intro flag hflag
      have hmath : mathematicalResult .DIV (value kind.uns x) (value kind.uns y) =
          some ((value kind.uns x).tdiv (value kind.uns y)) := if_neg hvalue
      rw [analysisFlag, if_neg hy] at hflag
      exact analysisFlag_iff hmath hflag

lemma evaluatesRight_mod (x y : BitVec kind.bitness) :
    (binary .MOD kind x y).EvaluatesRight strat := by
  have hw := bitness_pos kind
  by_cases hy : y = 0
  · refine evaluatesRight_of_raised ?_ (if_pos ((value_eq_zero_iff _ y).mpr hy)) (if_pos hy)
    intro host op argStack hop
    rcases List.mem_pair.mp hop with rfl | rfl <;>
      simp [interpret, binOpInt, binRegOpInt, popInt_self, hy]
  · have hne : ¬y = BitVec.ofNat kind.bitness 0 := hy
    have hvalue : value kind.uns y ≠ 0 := fun h => hy ((value_eq_zero_iff _ y).mp h)
    refine evaluatesRight_binary_of_check .MOD ((value kind.uns x).tmod (value kind.uns y))
      (fun _ => isOverflowAfterMod kind.uns x y) ?_ (fun _ => isExact_isOverflowAfterMod hw x y) ?_
      (if_neg hvalue) (if_neg hvalue) (if_neg hy)
    · intro host op strat argStack hop
      rcases List.mem_pair.mp hop with rfl | rfl <;>
        simp [interpret, binOpInt, binRegOpInt, popInt_self, hne]
    · have hexact : (isOverflowAfterMod kind.uns x y).IsExact kind.uns .NA _ :=
        isExact_isOverflowAfterMod hw x y
      exact res_of_hasValue hexact (rem_representable x y)

lemma evaluatesRight_binary {op : BinaryOp} {x y : BitVec kind.bitness}
    (hquotient : ¬(binary op kind x y).QuotientWithoutStrategy strat) :
    (binary op kind x y).EvaluatesRight strat := by
  have hw := bitness_pos kind
  cases op with
  | ADD =>
    refine evaluatesRight_binary_of_check .ADD (value kind.uns x + value kind.uns y)
      (fun strat => isOverflowAfterAdd kind.uns x y strat) ?_
      (fun _ => isExact_isOverflowAfterAdd hw x y) (res_isOverflowAfterAdd_na _ x y) rfl rfl rfl
    intro host op strat argStack hop
    rcases List.mem_pair.mp hop with rfl | rfl <;>
      simp [interpret, binOpInt, binRegOpInt, popInt_self]
  | SUB =>
    refine evaluatesRight_binary_of_check .SUB (value kind.uns x - value kind.uns y)
      (fun strat => isOverflowAfterSub kind.uns x y strat) ?_
      (fun _ => isExact_isOverflowAfterSub hw x y) (res_isOverflowAfterSub_na _ x y) rfl rfl rfl
    intro host op strat argStack hop
    rcases List.mem_pair.mp hop with rfl | rfl <;>
      simp [interpret, binOpInt, binRegOpInt, popInt_self]
  | MUL =>
    refine evaluatesRight_binary_of_check .MUL (value kind.uns x * value kind.uns y)
      (fun strat => isOverflowAfterMul kind.uns x y strat) ?_
      (fun _ => isExact_isOverflowAfterMul hw x y) (res_isOverflowAfterMul_na _ x y) rfl rfl rfl
    intro host op strat argStack hop
    rcases List.mem_pair.mp hop with rfl | rfl <;>
      simp [interpret, binOpInt, binRegOpInt, popInt_self]
  | DIV => exact evaluatesRight_div hquotient
  | MOD => exact evaluatesRight_mod x y
  | BITAND =>
    refine evaluatesRight_of_pushed (x &&& y) ?_ rfl ?_ rfl
    · intro host op argStack hop
      obtain rfl := List.mem_singleton.mp hop
      simp [interpret, binOpInt, binRegOpInt, popInt_self]
    · rw [ofInt_land, ofInt_value, ofInt_value]
  | BITOR =>
    refine evaluatesRight_of_pushed (x ||| y) ?_ rfl ?_ rfl
    · intro host op argStack hop
      obtain rfl := List.mem_singleton.mp hop
      simp [interpret, binOpInt, binRegOpInt, popInt_self]
    · rw [ofInt_lor, ofInt_value, ofInt_value]
  | BITXOR =>
    refine evaluatesRight_of_pushed (x ^^^ y) ?_ rfl ?_ rfl
    · intro host op argStack hop
      obtain rfl := List.mem_singleton.mp hop
      simp [interpret, binOpInt, binRegOpInt, popInt_self]
    · rw [ofInt_xor, ofInt_value, ofInt_value]

lemma evaluatesRight_exp (x y : BitVec 64) : (exp x y).EvaluatesRight strat := by
  have hsat : OverflowStrategy.NA ≠ .SATURATING := by decide
  let check : OverflowStrategy → Checked TypeKind.TYPE_INT64.bitness := isExpOverflow x y
  have hexact (strat : OverflowStrategy) :
      (check strat).IsExact TypeKind.TYPE_INT64.uns strat (value false x ^ y.toNat) :=
    isExact_isExpOverflow x y strat
  refine evaluatesRight_of_checked false (value false x ^ y.toNat) (fun _ => check) ?_
    (fun _ => hexact) ?_ rfl ?_
  · intro host op strat argStack hop
    have hleft := popInt_self .TYPE_INT64 x argStack
    have hright := popInt_self .TYPE_UINT64 y (.IInt .TYPE_INT64 x :: argStack)
    rcases List.mem_pair.mp hop with rfl | rfl <;>
      simp [interpret, binOpInt, binExpOpInt, hleft, hright, check]
  · rintro _ rfl
    exact isExpOverflow_res x y hsat
  · intro flag hflag
    obtain rfl := Option.some.inj hflag
    exact (hexact strat).overflow_iff

/-! ## Shifts -/

section Shift

variable {left : Bool} {x : BitVec kind.bitness} {rhsKind : TypeKind}
  {count : BitVec rhsKind.bitness}

/-- The comparison with zero that is made for signed counts only. -/
lemma isSigned_and_neg_iff :
    (rhsKind.isSigned = true ∧ value false count < 0) ↔ value rhsKind.uns count < 0 := by
  cases hsigned : rhsKind.isSigned with
  | true =>
    have huns : rhsKind.uns = false := by rw [TypeKind.uns, hsigned]; rfl
    rw [huns]
    exact and_iff_right rfl
  | false =>
    have huns : rhsKind.uns = true := by rw [TypeKind.uns, hsigned]; rfl
    have hlow := least_le_value true count
    rw [least_true] at hlow
    rw [huns]
    exact iff_of_false (fun h => Bool.false_ne_true h.1) hlow.not_gt

lemma binShiftOpIntCase_eq (host : Host) (argStack : List IVal) :
    binShiftOpIntCase host left kind rhsKind
        (.IInt rhsKind count :: .IInt kind x :: argStack) =
      if value rhsKind.uns count < 0 then
        some (raiseArithmeticExceptionMsg "Overshift: Value of right operand is less than 0!"
          argStack)
      else if (kind.bitness : ℤ) ≤ value false (convert rhsKind.uns count 64) then
        some (raiseArithmeticExceptionMsg
          "Overshift: Value of right operand is greater than or equal to the width of left operand!"
          argStack)
      else some (pushInt kind
        (shiftBy host left kind.uns x (value false (convert rhsKind.uns count 64))) argStack) := by
  simp only [binShiftOpIntCase, popInt_self, isSigned_and_neg_iff, Option.bind_eq_bind,
    Option.bind_some]

lemma interpret_shift (host : Host) {op : OpCode} (argStack : List IVal)
    (hop : op ∈ (shift left kind x rhsKind count).opCodes) :
    (shift left kind x rhsKind count).interpret host op strat argStack =
      binShiftOpIntCase host left kind rhsKind
        (.IInt rhsKind count :: .IInt kind x :: argStack) := by
  cases left with
  | true => rcases List.mem_pair.mp hop with rfl | rfl <;> rfl
  | false => rcases List.mem_pair.mp hop with rfl | rfl <;> rfl

lemma value_count_bounds :
    -2 ^ 63 ≤ value rhsKind.uns count ∧ value rhsKind.uns count < 2 ^ 64 := by
  have hcount := value_representable rhsKind.uns count
  have hsign : rhsKind.uns = false ∨ rhsKind.uns = true := by cases rhsKind.uns <;> simp
  have hlow : least 64 rhsKind.uns ≤ least rhsKind.bitness rhsKind.uns :=
    least_le_least hsign rhsKind.bitness_le
  have hhigh : greatest rhsKind.bitness rhsKind.uns ≤ greatest 64 rhsKind.uns :=
    greatest_le_greatest hsign rhsKind.bitness_le
  obtain ⟨hleast, hgreatest⟩ := hcount
  have hlow := hlow.trans hleast
  have hhigh := hgreatest.trans hhigh
  cases huns : rhsKind.uns with
  | true =>
    rw [huns, least_true] at hlow
    rw [huns, greatest_true] at hhigh
    omega
  | false =>
    rw [huns, least_false] at hlow
    rw [huns, greatest_false] at hhigh
    omega

/-- A count below `2 ^ 63` is not changed by the conversion. -/
lemma shiftValue_eq (h : value rhsKind.uns count < 2 ^ 63) :
    value false (convert rhsKind.uns count 64) = value rhsKind.uns count := by
  have hbounds : -2 ^ 63 ≤ value rhsKind.uns count ∧ value rhsKind.uns count < 2 ^ 64 :=
    value_count_bounds
  refine value_ofInt (by norm_num) ?_
  rw [Representable, least_false, greatest_false]
  omega

/-- A count from `2 ^ 63` on turns negative. -/
lemma shiftValue_neg (h : 2 ^ 63 ≤ value rhsKind.uns count) :
    value false (convert rhsKind.uns count 64) < 0 := by
  have hbounds : -2 ^ 63 ≤ value rhsKind.uns count ∧ value rhsKind.uns count < 2 ^ 64 :=
    value_count_bounds
  have hturn : value false (convert rhsKind.uns count 64) = value rhsKind.uns count - 2 ^ 64 := by
    rw [convert, ← ofInt_sub_two_pow]
    refine value_ofInt (by norm_num) ?_
    rw [Representable, least_false, greatest_false]
    omega
  omega

lemma shiftBy_eq (host : Host) {n : ℤ} (h : 0 ≤ n) :
    shiftBy host left kind.uns x n = BitVec.ofInt kind.bitness
      (if left then value kind.uns x * 2 ^ n.toNat else value kind.uns x / 2 ^ n.toNat) := by
  rw [shiftBy, if_neg h.not_gt]
  cases left with
  | true => exact shiftLeft_eq_ofInt kind.uns x n.toNat
  | false => exact shiftRight_eq_ofInt kind.uns x n.toNat

lemma evaluatesRight_shift
    (hcount : ¬(shift left kind x rhsKind count).CountTurnsNegative) :
    (shift left kind x rhsKind count).EvaluatesRight strat where
  agrees host op argStack hop := by
    have hlt : value rhsKind.uns count < 2 ^ 63 := not_le.mp hcount
    rw [interpret_shift host argStack hop, binShiftOpIntCase_eq, shiftValue_eq hlt, result,
      shiftResult]
    by_cases hneg : value rhsKind.uns count < 0
    · rw [if_pos hneg, if_neg (fun h => h.1.not_gt hneg)]
      exact ⟨_, rfl⟩
    · rw [if_neg hneg]
      by_cases hover : (kind.bitness : ℤ) ≤ value rhsKind.uns count
      · rw [if_pos hover, if_neg (fun h => h.2.not_ge hover)]
        exact ⟨_, rfl⟩
      · rw [if_neg hover, if_pos ⟨not_lt.mp hneg, not_le.mp hover⟩,
          shiftBy_eq host (not_lt.mp hneg)]
        rfl
  classified flag hsome := absurd hsome (Option.some_ne_none flag).symm

/-- What a host might do. -/
def sampleHost : Host := ⟨fun _ => 0, fun _ x _ => x⟩

/-- A count that turns negative is not noticed. -/
lemma not_evaluatesRight_shift (hcount : (shift left kind x rhsKind count).CountTurnsNegative) :
    ¬(shift left kind x rhsKind count).EvaluatesRight strat := by
  intro h
  have hcount : 2 ^ 63 ≤ value rhsKind.uns count := hcount
  have hvalue := shiftValue_neg hcount
  have hbits := kind.bitness_le
  obtain ⟨op, hop⟩ : ∃ op, op ∈ (shift left kind x rhsKind count).opCodes := by
    cases left with
    | true => exact ⟨_, List.mem_cons_self⟩
    | false => exact ⟨_, List.mem_cons_self⟩
  have hagrees := h.agrees sampleHost op [] hop
  rw [interpret_shift sampleHost [] hop, binShiftOpIntCase_eq, if_neg (by omega),
    if_neg (by omega), result, shiftResult, if_neg (by omega)] at hagrees
  obtain ⟨_, hraised⟩ := hagrees
  exact nomatch congrArg (Option.bind · Step.raised) hraised

end Shift

/-! ## Casts -/

lemma evaluatesRight_typeCast (srcKind : TypeKind) (x : BitVec srcKind.bitness)
    (targetKind : TypeKind) : (typeCast srcKind x targetKind).EvaluatesRight strat := by
  have hexact (strat : OverflowStrategy) :
      (isTypecastOverflowForInt srcKind.uns x targetKind.bitness targetKind.uns strat).IsExact
        targetKind.uns strat (value srcKind.uns x) :=
    isExact_isTypecastOverflowForInt (bitness_pos srcKind) (bitness_pos targetKind) x
  have hinterpret (host : Host) (op : OpCode) (strat : OverflowStrategy) (argStack : List IVal) :
      (typeCast srcKind x targetKind).interpret host op strat argStack =
        let c := isTypecastOverflowForInt srcKind.uns x targetKind.bitness targetKind.uns strat
        if c.isOverflow && strat = .THROWING then some (raiseOverflowException argStack)
        else some (pushInt targetKind c.res argStack) := by
    simp [interpret, interpretTypeCast, popInt_self]
  have hres (strat : OverflowStrategy) (hsat : strat ≠ .SATURATING) :
      (isTypecastOverflowForInt srcKind.uns x targetKind.bitness targetKind.uns strat).res =
        BitVec.ofInt targetKind.bitness (value srcKind.uns x) := by
    simp [isTypecastOverflowForInt, hsat, convert]
  constructor
  · intro host op argStack hop
    rw [hinterpret, result]
    dsimp only
    cases strat with
    | SATURATING => simp [Agrees, castResult, pushInt, IVal.ofInt, res_of_saturating (hexact _)]
    | THROWING =>
      by_cases hz : targetKind.HasValue (value srcKind.uns x)
      · have hflag : (isTypecastOverflowForInt srcKind.uns x targetKind.bitness targetKind.uns
            .THROWING).isOverflow = false :=
          Bool.not_eq_true _ ▸ fun h => (hexact _).overflow_iff.mp h hz
        simp [Agrees, castResult, pushInt, IVal.ofInt, hz, hflag, hres .THROWING (by decide)]
      · have hflag : (isTypecastOverflowForInt srcKind.uns x targetKind.bitness targetKind.uns
            .THROWING).isOverflow = true := (hexact _).overflow_iff.mpr hz
        simp [Agrees, castResult, raiseOverflowException, hz, hflag]
    | WRAPPING => simp [Agrees, castResult, pushInt, IVal.ofInt, hres .WRAPPING (by decide)]
    | CHECKED => simp [Agrees, castResult, pushInt, IVal.ofInt, hres .CHECKED (by decide)]
    | NA => simp [Agrees, castResult, pushInt, IVal.ofInt, hres .NA (by decide)]
  · intro flag hflag host op argStack hop
    obtain rfl := Option.some.inj hflag
    have hcarrier : (isTypecastOverflowForInt srcKind.uns (convert srcKind.uns x 64)
        targetKind.bitness targetKind.uns strat).IsExact targetKind.uns strat
          (value srcKind.uns (convert srcKind.uns x 64)) :=
      isExact_isTypecastOverflowForInt (by norm_num) (bitness_pos targetKind) _
    have hraises : Step.Overflows
        ((typeCast srcKind x targetKind).interpret host op .THROWING argStack) ↔
          (isTypecastOverflowForInt srcKind.uns x targetKind.bitness targetKind.uns
            .THROWING).isOverflow = true := by
      rw [hinterpret, Step.Overflows]
      cases hover : (isTypecastOverflowForInt srcKind.uns x targetKind.bitness targetKind.uns
          .THROWING).isOverflow with
      | true => simp [hover, raiseOverflowException]
      | false => simp [hover, pushInt]
    rw [hraises, hcarrier.overflow_iff, (hexact _).overflow_iff,
      value_convert_carrier srcKind.bitness_le]

/-! ## All operations -/

/-- The quotient that is not stored. -/
lemma not_evaluatesRight_div {x y : BitVec kind.bitness}
    (hquotient : (binary .DIV kind x y).QuotientWithoutStrategy strat) :
    ¬(binary .DIV kind x y).EvaluatesRight strat := by
  intro h
  obtain ⟨rfl, hx, hy⟩ := hquotient
  have hw := bitness_pos kind
  have huns : kind.uns = false := by
    by_contra htrue
    rw [Bool.not_eq_false] at htrue
    have hlow := least_le_value kind.uns y
    rw [htrue, least_true, ← htrue] at hlow
    omega
  have hover : (!kind.uns && (x == numericMin kind.bitness kind.uns &&
      decide (value kind.uns y = -1))) = true := by
    rw [isMinByMinusOne_iff hw]
    refine ⟨huns, ?_, hy⟩
    rw [hx, huns, least_false]
  have hne : ¬y = BitVec.ofNat kind.bitness 0 := by
    intro hzero
    rw [(value_eq_zero_iff kind.uns y).mpr hzero] at hy
    exact absurd hy (by decide)
  have hagrees := h.agrees sampleHost .BIN_DIV [] List.mem_cons_self
  have hcheck : isOverflowAfterDiv kind.uns x y .NA 0 = ⟨true, 0⟩ := by
    rw [isOverflowAfterDiv, hover]
    rfl
  have hinterpret : (binary .DIV kind x y).interpret sampleHost .BIN_DIV .NA [] =
      some (pushIfNotOverflow kind (isOverflowAfterDiv kind.uns x y .NA 0) .NA []) := by
    simp [interpret, binOpInt, binRegOpInt, popInt_self, hne, sampleHost]
  rw [hcheck] at hinterpret
  have hvalue : value kind.uns y ≠ 0 := fun hzero => hne ((value_eq_zero_iff _ y).mp hzero)
  have hquot : (value kind.uns x).tdiv (value kind.uns y) = greatest kind.bitness kind.uns + 1 := by
    rw [hx, hy, huns, Int.tdiv_neg, Int.tdiv_one, greatest_false, least_false]
    ring
  have hresult : (binary .DIV kind x y).result .NA =
      some (.ofInt kind (greatest kind.bitness kind.uns)) := by
    have hclamp : clamp kind.bitness kind.uns (greatest kind.bitness kind.uns + 1) =
        greatest kind.bitness kind.uns := clamp_eq_greatest (lt_add_one _)
    rw [result, BinaryOp.result, if_neg hvalue, arithmeticResult, if_pos rfl, hquot, hclamp]
  rw [hinterpret, hresult] at hagrees
  injection hagrees with hstep
  injection hstep with _ hstack
  injection hstack with hval _
  injection hval with _ hword
  have hgreatest := congrArg (value kind.uns) hword
  have hzero : value kind.uns (0 : BitVec kind.bitness) = 0 := value_zero kind.uns
  rw [hzero, value_ofInt hw ⟨(least_nonpos _ _).trans (greatest_nonneg _ _), le_rfl⟩] at hgreatest
  have hbits := kind.one_lt_bitness
  have hpow : (2 : ℤ) ≤ 2 ^ (kind.bitness - 1) := by
    calc (2 : ℤ) = 2 ^ 1 := by norm_num
      _ ≤ 2 ^ (kind.bitness - 1) := pow_le_pow_right₀ (by norm_num) (by omega)
  rw [huns, greatest_false] at hgreatest
  omega

/-- An operation on integers is evaluated as the language says, and classified alike by the constant
analysis, exactly when it is neither a shift by an unsigned count from `2 ^ 63` on nor the quotient
of the least value by minus one without a strategy. -/
theorem evaluatesRight_iff (strat : OverflowStrategy) (operation : IntOperation) :
    operation.EvaluatesRight strat ↔
      ¬operation.CountTurnsNegative ∧ ¬operation.QuotientWithoutStrategy strat := by
  cases operation with
  | unary op kind x => exact iff_of_true (evaluatesRight_unary op x) ⟨not_false, not_false⟩
  | exp x y => exact iff_of_true (evaluatesRight_exp x y) ⟨not_false, not_false⟩
  | typeCast srcKind x targetKind =>
    exact iff_of_true (evaluatesRight_typeCast srcKind x targetKind) ⟨not_false, not_false⟩
  | shift left kind x rhsKind count =>
    constructor
    · exact fun h => ⟨fun hcount => not_evaluatesRight_shift hcount h, not_false⟩
    · exact fun h => evaluatesRight_shift h.1
  | binary op kind x y =>
    constructor
    · refine fun h => ⟨not_false, fun hquotient => ?_⟩
      cases op with
      | DIV => exact not_evaluatesRight_div hquotient h
      | _ => exact hquotient
    · exact fun h => evaluatesRight_binary h.2

/-- The shift `1 << 0x8000000000000000` of an `Int64` by a `UInt64` is not evaluated right. -/
theorem exists_not_evaluatesRight :
    ¬ ∀ (strat : OverflowStrategy) (operation : IntOperation), operation.EvaluatesRight strat := by
  intro h
  have hcount : (2 : ℤ) ^ 63 ≤ value TypeKind.TYPE_UINT64.uns (2 ^ 63 : BitVec 64) := by
    decide +kernel
  exact not_evaluatesRight_shift hcount (h .THROWING (shift true .TYPE_INT64 1 .TYPE_UINT64 _))

end IntOperation

end Cangjie.CHIR.Interpreter
