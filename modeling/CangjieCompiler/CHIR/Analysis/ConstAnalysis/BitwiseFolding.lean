import CangjieCompiler.CHIR.Analysis.ConstAnalysis

/-!
# Folding of bitwise operations

The folded operations work on 64-bit carriers, in the unsigned type as soon as one carrier is
unsigned, and cut the result to the type of the left operand.  Compared with the operation on words
of that type, this goes wrong for one kind of shift only: a negative 64-bit left operand shifted
right by an unsigned count, which gets zeros instead of copies of its sign.
-/

namespace Cangjie.CHIR.ConstAnalysis

open FixedWidth OverflowChecker

variable {φ : Type} {state : ConstDomain φ} {expr : IntBinaryExpression} {w n : ℕ}

/-! ## The operations at run time -/

/-- The value of a bitwise operation on a word and an integer.  A shift by a negative count or by
at least the width throws, and a right shift of a signed word copies the sign. -/
def bitwiseResult (kind : BinaryExprKind) (uns : Bool) (l : BitVec w) (r : ℤ) :
    Option (BitVec w) :=
  match kind with
  | .LSHIFT => if 0 ≤ r ∧ r < w then some (l <<< r.toNat) else none
  | .RSHIFT =>
    if 0 ≤ r ∧ r < w then some (if uns then l >>> r.toNat else l.sshiftRight r.toNat) else none
  | .BITAND => some (l &&& BitVec.ofInt w r)
  | .BITXOR => some (l ^^^ BitVec.ofInt w r)
  | .BITOR => some (l ||| BitVec.ofInt w r)
  | _ => none

/-- A run-time value agrees with what is known about it. -/
def AgreesInt (known : Option (BitVec 64)) (type : TypeKind) (v : BitVec type.bitness) : Prop :=
  ∀ c, known = some c → value type.uns c = value type.uns v

/-- A bitwise operation is folded as it is executed: a constant recorded with success is the value
of the operation for all operands that agree with the state, and a failure is reported exactly for
the shifts by a count known to be out of range. -/
structure FoldsBitwise (state : ConstDomain φ) (expr : IntBinaryExpression) : Prop where
  success : (handleBitwiseOp state expr).2 = .SUCCESS →
    ∀ c, (handleBitwiseOp state expr).1.checkAbstractValue expr.result = some c →
    ∀ l r, AgreesInt (knownInt state expr.lhsType expr.lhs) expr.lhsType l →
      AgreesInt (knownInt state expr.rhsType expr.rhs) expr.rhsType r →
      ∃ z, bitwiseResult expr.opKind expr.lhsType.uns l (value expr.rhsType.uns r) = some z ∧
        c = makeVal expr.lhsType.uns (convert expr.lhsType.uns z 64)
  fail_iff : (handleBitwiseOp state expr).2 = .FAIL ↔
    isShiftOp expr.opKind = true ∧ ∃ count, knownInt state expr.rhsType expr.rhs = some count ∧
      (value expr.rhsType.uns count < 0 ∨
        (expr.lhsType.bitness : ℤ) ≤ value expr.rhsType.uns count)

/-- A right shift of a negative 64-bit integer by an unsigned count, with known operands and a count
in range that is not zero. -/
def UnsignedShiftOfNegative (state : ConstDomain φ) (expr : IntBinaryExpression) : Prop :=
  expr.opKind = .RSHIFT ∧ expr.lhsType.isSigned = true ∧ expr.lhsType.bitness = 64 ∧
    expr.rhsType.isSigned = false ∧
    ∃ x y, knownInt state expr.lhsType expr.lhs = some x ∧
      knownInt state expr.rhsType expr.rhs = some y ∧ value false x < 0 ∧
      0 < value true y ∧ value true y < 64

/-! ## Carriers -/

/-- The low bits of the word of an integer are its word of the smaller width. -/
lemma setWidth_ofInt (h : w ≤ n) (z : ℤ) : (BitVec.ofInt n z).setWidth w = BitVec.ofInt w z := by
  have hdvd : ((2 ^ w : ℕ) : ℤ) ∣ ((2 ^ n : ℕ) : ℤ) :=
    Int.natCast_dvd_natCast.mpr (Nat.pow_dvd_pow 2 h)
  apply BitVec.eq_of_toNat_eq
  have hpos (k : ℕ) : (0 : ℤ) ≤ z % ((2 ^ k : ℕ) : ℤ) := Int.emod_nonneg _ (by positivity)
  have hmod : ((z % ((2 ^ n : ℕ) : ℤ)).toNat % 2 ^ w : ℤ) = z % ((2 ^ w : ℕ) : ℤ) := by
    rw [Int.toNat_of_nonneg (hpos n)]
    have hemod := Int.emod_emod_of_dvd z hdvd
    push_cast at hemod ⊢
    exact hemod
  rw [BitVec.toNat_setWidth, BitVec.toNat_ofInt, BitVec.toNat_ofInt]
  have hgoal : (((z % ((2 ^ n : ℕ) : ℤ)).toNat % 2 ^ w : ℕ) : ℤ) =
      ((z % ((2 ^ w : ℕ) : ℤ)).toNat : ℤ) := by
    rw [Int.toNat_of_nonneg (hpos w)]
    push_cast at hmod ⊢
    exact hmod
  exact_mod_cast hgoal

/-- A carrier cut to the width of a type, by the integer that it stands for. -/
lemma setWidth_carrier (h : w ≤ 64) {uns : Bool} {x : BitVec 64} {z : ℤ} (hx : value uns x = z) :
    x.setWidth w = BitVec.ofInt w z := by
  rw [← ofInt_value uns x, hx]
  exact setWidth_ofInt h z

lemma toNat_of_value_nonneg {uns : Bool} {x : BitVec w} (h : 0 ≤ value uns x) :
    x.toNat = (value uns x).toNat := by
  cases uns with
  | true => simp
  | false =>
    have hcond := BitVec.toInt_eq_toNat_cond x
    have hlt := x.isLt
    rw [value_false] at h ⊢
    split_ifs at hcond <;> omega

/-! ## Right shifts -/

/-- A carrier of an unsigned word, shifted right. -/
lemma setWidth_ushiftRight {x : BitVec 64} {l : BitVec w} (h : value true x = value true l)
    (k : ℕ) : (x >>> k).setWidth w = l >>> k := by
  have hnat : x.toNat = l.toNat := by
    rw [value_true, value_true] at h
    exact_mod_cast h
  have hlt : l.toNat >>> k < 2 ^ w := (Nat.shiftRight_le _ _).trans_lt l.isLt
  apply BitVec.eq_of_toNat_eq
  rw [BitVec.toNat_setWidth, BitVec.toNat_ushiftRight, BitVec.toNat_ushiftRight, hnat,
    Nat.mod_eq_of_lt hlt]

/-- A carrier of a signed word, shifted right with its sign. -/
lemma setWidth_sshiftRight (hw : w ≤ 64) {x : BitVec 64} {l : BitVec w}
    (h : value false x = value false l) (k : ℕ) :
    (x.sshiftRight k).setWidth w = l.sshiftRight k := by
  have hvalue : value false (x.sshiftRight k) = value false (l.sshiftRight k) := by
    rw [value_false, value_false] at h ⊢
    rw [BitVec.toInt_sshiftRight, BitVec.toInt_sshiftRight, h]
  rw [setWidth_carrier hw hvalue, ofInt_value]

/-- The two right shifts agree on the low bits that the shift reads from inside the carrier. -/
lemma setWidth_ushiftRight_eq {k : ℕ} (h : k + w ≤ 64) (x : BitVec 64) :
    (x >>> k).setWidth w = (x.sshiftRight k).setWidth w := by
  apply BitVec.eq_of_getLsbD_eq
  intro i hi
  have hin : k + i < 64 := by omega
  have hout : ¬64 ≤ i := by omega
  rw [BitVec.getLsbD_setWidth, BitVec.getLsbD_setWidth, BitVec.getLsbD_ushiftRight,
    BitVec.getLsbD_sshiftRight, if_pos hin, decide_eq_false hout]
  rfl

/-- The two right shifts of a negative carrier differ in the sign. -/
lemma ushiftRight_ne_sshiftRight {x : BitVec 64} (h : value false x < 0) {k : ℕ} (hk : 0 < k)
    (hlt : k < 64) : x >>> k ≠ x.sshiftRight k := by
  intro heq
  have hmsb : x.msb = true := by
    rw [value_false] at h
    rwa [BitVec.msb_eq_toInt, decide_eq_true_eq]
  have hbit := congrArg (BitVec.getLsbD · 63) heq
  rw [BitVec.getLsbD_ushiftRight, BitVec.getLsbD_sshiftRight, if_neg (by omega), hmsb,
    BitVec.getLsbD_of_ge x _ (by omega)] at hbit
  exact absurd hbit (by decide)

/-! ## Operations on carriers -/

/-- The right shift of carriers, cut to the width of the left operand. -/
lemma setWidth_rightShift (hw : w ≤ 64) {unsL unsR : Bool} {x : BitVec 64} {l : BitVec w} {k : ℕ}
    (hx : value unsL x = value unsL l)
    (hshift : unsL = false → unsR = true → 0 ≤ value false x ∨ k + w ≤ 64) :
    (if unsL || unsR then x >>> k else x.sshiftRight k).setWidth w =
      if unsL then l >>> k else l.sshiftRight k := by
  cases unsL with
  | true => exact setWidth_ushiftRight hx k
  | false =>
    rw [Bool.false_or, if_neg Bool.false_ne_true]
    have hsigned := setWidth_sshiftRight hw hx k
    cases unsR with
    | false => exact hsigned
    | true =>
      rw [if_pos rfl, ← hsigned]
      rcases hshift rfl rfl with hpos | hsmall
      · have hmsb : x.msb = false := by
          rw [value_false] at hpos
          rw [BitVec.msb_eq_toInt, decide_eq_false_iff_not]
          exact hpos.not_gt
        rw [BitVec.sshiftRight_eq_of_msb_false hmsb]
      · exact setWidth_ushiftRight_eq hsmall x

/-- An operation on carriers, cut to the width of the left operand, is the operation on words. -/
lemma bitwiseResult_eq (hw : w ≤ 64) {kind : BinaryExprKind} {unsL unsR : Bool} {x y : BitVec 64}
    {l : BitVec w} {res : BitVec 64} (hx : value unsL x = value unsL l)
    (hcount : isShiftOp kind = true → 0 ≤ value unsR y ∧ value unsR y < w)
    (hshift : kind = .RSHIFT → unsL = false → unsR = true →
      0 ≤ value false x ∨ y.toNat + w ≤ 64)
    (hres : bitwiseOp kind unsL unsR x y = some res) :
    bitwiseResult kind unsL l (value unsR y) = some (res.setWidth w) := by
  have hl : x.setWidth w = l := (setWidth_carrier hw hx).trans (ofInt_value unsL l)
  have hr : y.setWidth w = BitVec.ofInt w (value unsR y) := setWidth_carrier hw rfl
  cases kind with
  | LSHIFT =>
    obtain rfl := Option.some.inj hres
    rw [bitwiseResult, if_pos (hcount rfl), ← toNat_of_value_nonneg (hcount rfl).1,
      BitVec.setWidth_shiftLeft_of_le hw, hl]
  | RSHIFT =>
    obtain rfl := Option.some.inj hres
    rw [bitwiseResult, if_pos (hcount rfl), ← toNat_of_value_nonneg (hcount rfl).1,
      setWidth_rightShift hw hx (hshift rfl)]
  | BITAND =>
    obtain rfl := Option.some.inj hres
    rw [bitwiseResult, BitVec.setWidth_and, hl, hr]
  | BITOR =>
    obtain rfl := Option.some.inj hres
    rw [bitwiseResult, BitVec.setWidth_or, hl, hr]
  | BITXOR =>
    obtain rfl := Option.some.inj hres
    rw [bitwiseResult, BitVec.setWidth_xor, hl, hr]
  | _ => exact absurd hres (Option.some_ne_none res).symm

/-! ## The folded operation -/

/-- A count that a shift cannot have. -/
def CountOutOfRange (expr : IntBinaryExpression) (count : BitVec 64) : Prop :=
  isShiftOp expr.opKind = true ∧ (value expr.rhsType.uns count < 0 ∨
    (expr.lhsType.bitness : ℤ) ≤ value expr.rhsType.uns count)

lemma countOutOfRange_iff (count : BitVec 64) :
    (!expr.rhsType.uns && isShiftOp expr.opKind && count.slt 0) = true ∨
        (isShiftOp expr.opKind && decide (expr.lhsType.bitness ≤ count.toNat)) = true ↔
      CountOutOfRange expr count := by
  have hle := expr.lhsType.bitness_le
  have hslt : count.slt 0 = true ↔ value false count < 0 := by
    rw [BitVec.slt_iff_toInt_lt, value_false]
    rfl
  rw [CountOutOfRange, Bool.and_eq_true, Bool.and_eq_true, Bool.and_eq_true, hslt,
    decide_eq_true_eq, Bool.not_eq_true']
  cases huns : expr.rhsType.uns with
  | true =>
    rw [value_true]
    have hcast : (expr.lhsType.bitness : ℤ) ≤ count.toNat ↔ expr.lhsType.bitness ≤ count.toNat := by
      exact_mod_cast Iff.rfl
    rw [hcast]
    constructor
    · rintro (⟨⟨hfalse, -⟩, -⟩ | ⟨hshift, hlarge⟩)
      · exact absurd hfalse (by simp)
      · exact ⟨hshift, Or.inr hlarge⟩
    · rintro ⟨hshift, hneg | hlarge⟩
      · omega
      · exact Or.inr ⟨hshift, hlarge⟩
  | false =>
    constructor
    · rintro (⟨⟨-, hshift⟩, hneg⟩ | ⟨hshift, hlarge⟩)
      · exact ⟨hshift, Or.inl hneg⟩
      · refine ⟨hshift, ?_⟩
        rcases lt_or_ge (value false count) 0 with hneg | hpos
        · exact Or.inl hneg
        · have hnat := toNat_of_value_nonneg hpos
          exact Or.inr (by omega)
    · rintro ⟨hshift, hneg | hlarge⟩
      · exact Or.inl ⟨⟨rfl, hshift⟩, hneg⟩
      · have hpos : 0 ≤ value false count := by omega
        have hnat := toNat_of_value_nonneg hpos
        exact Or.inr ⟨hshift, by omega⟩

/-- What the state knows about a result that is folded to the top. -/
lemma checkAbstractValue_top :
    (state.setToBound expr.result true).checkAbstractValue expr.result = none := by
  rw [ConstDomain.checkAbstractValue_setToBound, if_pos rfl]

lemma handleBitwiseOp_of_outOfRange {count : BitVec 64}
    (hr : knownInt state expr.rhsType expr.rhs = some count) (h : CountOutOfRange expr count) :
    handleBitwiseOp state expr = (state.setToBound expr.result true, .FAIL) := by
  rw [← countOutOfRange_iff] at h
  unfold handleBitwiseOp handleBitwiseOpOfType
  rw [hr]
  dsimp only
  by_cases hneg : (!expr.rhsType.uns && isShiftOp expr.opKind && count.slt 0) = true
  · rw [if_pos hneg]
  · rw [if_neg hneg, if_pos (h.resolve_left hneg)]

lemma handleBitwiseOp_of_inRange {count : BitVec 64}
    (hr : knownInt state expr.rhsType expr.rhs = some count) (h : ¬CountOutOfRange expr count) :
    handleBitwiseOp state expr =
      match knownInt state expr.lhsType expr.lhs with
      | none => (state.setToBound expr.result true, .NA)
      | some leftVal =>
        match bitwiseOp expr.opKind expr.lhsType.uns expr.rhsType.uns leftVal count with
        | some res =>
          (state.update expr.result
            (makeVal expr.lhsType.uns (cutOffHighBits res expr.lhsType)), .SUCCESS)
        | none => (state, .NA) := by
  rw [← countOutOfRange_iff, not_or] at h
  unfold handleBitwiseOp handleBitwiseOpOfType
  rw [hr]
  dsimp only
  rw [if_neg h.1, if_neg h.2]
  all_goals rfl

lemma handleBitwiseOp_of_unknown (hr : knownInt state expr.rhsType expr.rhs = none) :
    handleBitwiseOp state expr = (state.setToBound expr.result true, .NA) := by
  unfold handleBitwiseOp handleBitwiseOpOfType
  rw [hr]

/-- A failure is reported for the counts out of range and for nothing else. -/
lemma handleBitwiseOp_fail_iff :
    (handleBitwiseOp state expr).2 = .FAIL ↔
      ∃ count, knownInt state expr.rhsType expr.rhs = some count ∧ CountOutOfRange expr count := by
  constructor
  · intro hfail
    cases hr : knownInt state expr.rhsType expr.rhs with
    | none =>
      rw [handleBitwiseOp_of_unknown hr] at hfail
      exact ExceptionKind.noConfusion hfail
    | some count =>
      refine ⟨count, rfl, ?_⟩
      by_contra hin
      rw [handleBitwiseOp_of_inRange hr hin] at hfail
      split at hfail
      · exact ExceptionKind.noConfusion hfail
      · split at hfail <;> exact ExceptionKind.noConfusion hfail
  · rintro ⟨count, hr, hout⟩
    rw [handleBitwiseOp_of_outOfRange hr hout]

/-- A success has both operands known and a count in range. -/
lemma handleBitwiseOp_success (h : (handleBitwiseOp state expr).2 = .SUCCESS) :
    ∃ x y res, knownInt state expr.lhsType expr.lhs = some x ∧
      knownInt state expr.rhsType expr.rhs = some y ∧ ¬CountOutOfRange expr y ∧
      bitwiseOp expr.opKind expr.lhsType.uns expr.rhsType.uns x y = some res ∧
      (handleBitwiseOp state expr).1.checkAbstractValue expr.result =
        some (makeVal expr.lhsType.uns (cutOffHighBits res expr.lhsType)) := by
  cases hr : knownInt state expr.rhsType expr.rhs with
  | none =>
    rw [handleBitwiseOp_of_unknown hr] at h
    exact ExceptionKind.noConfusion h
  | some y =>
    by_cases hout : CountOutOfRange expr y
    · rw [handleBitwiseOp_of_outOfRange hr hout] at h
      exact ExceptionKind.noConfusion h
    · rw [handleBitwiseOp_of_inRange hr hout] at h ⊢
      cases hl : knownInt state expr.lhsType expr.lhs with
      | none =>
        rw [hl] at h
        exact ExceptionKind.noConfusion h
      | some x =>
        rw [hl] at h
        dsimp only at h ⊢
        cases hop : bitwiseOp expr.opKind expr.lhsType.uns expr.rhsType.uns x y with
        | none =>
          rw [hop] at h
          exact ExceptionKind.noConfusion h
        | some res =>
          refine ⟨x, y, res, rfl, rfl, hout, hop, ?_⟩
          dsimp only
          rw [ConstDomain.checkAbstractValue_update, if_pos rfl]

/-! ## Exactness -/

lemma value_setWidth_of_eq (h : w = 64) {uns : Bool} {x : BitVec 64} :
    value uns (x.setWidth w) = value uns x := by
  subst h
  rw [BitVec.setWidth_eq]

lemma convert_setWidth_of_eq (h : w = 64) (x : BitVec 64) :
    convert false (x.setWidth w) 64 = x := by
  rw [convert, value_setWidth_of_eq h, ofInt_value]

lemma convert_sshiftRight_of_eq (h : w = 64) (x : BitVec 64) (k : ℕ) :
    convert false ((x.setWidth w).sshiftRight k) 64 = x.sshiftRight k := by
  subst h
  rw [BitVec.setWidth_eq, convert, ofInt_value]

/-- Every integer type has the counts that are in range. -/
lemma value_setWidth_of_lt {y : BitVec 64} (h : value true y < 64) (kind : TypeKind) :
    value true (y.setWidth kind.bitness) = value true y := by
  have hpow : 2 ^ 8 ≤ 2 ^ kind.bitness := Nat.pow_le_pow_right (by decide) kind.le_bitness
  rw [value_true] at h
  rw [value_true, value_true, BitVec.toNat_setWidth, Nat.mod_eq_of_lt (by omega)]

/-- A shift of a negative 64-bit carrier is not executed as it is folded. -/
lemma not_foldsBitwise (h : UnsignedShiftOfNegative state expr) : ¬FoldsBitwise state expr := by
  obtain ⟨hkind, hsigned, hbits, hunsigned, x, y, hx, hy, hneg, hpos, hlt⟩ := h
  intro hfolds
  have huns : expr.lhsType.uns = false := by rw [TypeKind.uns, hsigned]; rfl
  have hcountUns : expr.rhsType.uns = true := by rw [TypeKind.uns, hunsigned]; rfl
  have hle : expr.lhsType.bitness ≤ 64 := expr.lhsType.bitness_le
  have hin : ¬CountOutOfRange expr y := by
    rintro ⟨-, hout⟩
    rw [hcountUns] at hout
    omega
  -- the analysis fills the word with zeros
  have hfolded : handleBitwiseOp state expr = (state.update expr.result (makeVal false
      (cutOffHighBits (x >>> y.toNat) expr.lhsType)), .SUCCESS) := by
    rw [handleBitwiseOp_of_inRange hy hin, hx, hkind, huns, hcountUns]
    rfl
  have hsuccess : (handleBitwiseOp state expr).2 = .SUCCESS := by rw [hfolded]
  have hrecorded : (handleBitwiseOp state expr).1.checkAbstractValue expr.result =
      some (makeVal false (cutOffHighBits (x >>> y.toNat) expr.lhsType)) := by
    rw [hfolded, ConstDomain.checkAbstractValue_update, if_pos rfl]
  have hl : AgreesInt (knownInt state expr.lhsType expr.lhs) expr.lhsType
      (x.setWidth expr.lhsType.bitness) := by
    intro c hc
    obtain rfl := Option.some.inj (hx.symm.trans hc)
    rw [value_setWidth_of_eq hbits]
  have hr : AgreesInt (knownInt state expr.rhsType expr.rhs) expr.rhsType
      (y.setWidth expr.rhsType.bitness) := by
    intro c hc
    obtain rfl := Option.some.inj (hy.symm.trans hc)
    rw [hcountUns, value_setWidth_of_lt hlt expr.rhsType]
  -- the execution fills it with ones
  obtain ⟨z, hz, hc⟩ := hfolds.success hsuccess _ hrecorded _ _ hl hr
  rw [hkind, huns, hcountUns, value_setWidth_of_lt hlt expr.rhsType, bitwiseResult,
    if_pos ⟨hpos.le, by omega⟩] at hz
  obtain rfl := Option.some.inj hz
  rw [huns] at hc
  have hwords := makeVal_injective hc
  rw [cutOffHighBits, huns, convert_setWidth_of_eq hbits, if_neg Bool.false_ne_true,
    convert_sshiftRight_of_eq hbits] at hwords
  exact ushiftRight_ne_sshiftRight hneg (by rw [value_true] at hpos; omega)
    (by rw [value_true] at hlt; omega) hwords

/-- A bitwise operation is folded as it is executed if and only if it is not a right shift of a
negative 64-bit integer by an unsigned count. -/
theorem foldsBitwise_iff :
    FoldsBitwise state expr ↔ ¬UnsignedShiftOfNegative state expr := by
  constructor
  · exact fun hfolds hshift => not_foldsBitwise hshift hfolds
  · intro hshift
    refine ⟨fun hsuccess c hc l r hl hr => ?_, ?_⟩
    · obtain ⟨x, y, res, hx, hy, hin, hop, hrecorded⟩ := handleBitwiseOp_success hsuccess
      rw [hrecorded] at hc
      obtain rfl := Option.some.inj hc
      have hxl := hl x hx
      have hyr := hr y hy
      refine ⟨res.setWidth expr.lhsType.bitness, ?_, rfl⟩
      rw [← hyr]
      refine bitwiseResult_eq expr.lhsType.bitness_le hxl (fun hop => ?_) ?_ hop
      · rw [CountOutOfRange, not_and_or] at hin
        have hrange := hin.resolve_left (not_not_intro hop)
        omega
      · intro hkind hsigned hunsigned
        by_contra hneg
        rw [not_or, not_le, not_le] at hneg
        have hrange : value expr.rhsType.uns y < expr.lhsType.bitness := by
          rw [CountOutOfRange, not_and_or, hkind] at hin
          have hrange := hin.resolve_left (not_not_intro rfl)
          omega
        rw [hunsigned, value_true] at hrange
        have hle := expr.lhsType.bitness_le
        have hbits : expr.lhsType.bitness = 64 :=
          expr.lhsType.bitness_eq_or_le.resolve_right (by omega)
        refine hshift ⟨hkind, ?_, hbits, ?_, x, y, hx, hy, hneg.1, ?_, ?_⟩
        · rwa [TypeKind.uns, Bool.not_eq_false'] at hsigned
        · rwa [TypeKind.uns, Bool.not_eq_true'] at hunsigned
        · rw [value_true]
          omega
        · rw [value_true]
          omega
    · rw [handleBitwiseOp_fail_iff]
      exact ⟨fun ⟨y, hy, hout⟩ => ⟨hout.1, y, hy, hout.2⟩,
        fun ⟨hop, y, hy, hout⟩ => ⟨y, hy, hop, hout⟩⟩

/-- `-80 >> 2` with a count of type `UInt64`. -/
def sampleShift : IntBinaryExpression where
  opKind := .RSHIFT
  lhs := 0
  rhs := 1
  result := 2
  overflowStrategy := .NA
  lhsType := .TYPE_INT64
  rhsType := .TYPE_UINT64
  resultType := .TYPE_INT64

def sampleShiftState : ConstDomain Unit :=
  ((⟨OrderedMap.empty⟩ : ConstDomain Unit).update 0 (makeVal false (-80))).update 1 (makeVal true 2)

/-- The shift is folded to `2 ^ 62 - 20`, while the shift of the word gives `-20`. -/
theorem sampleShift_misfolded :
    (handleBitwiseOp sampleShiftState sampleShift).2 = .SUCCESS ∧
      (handleBitwiseOp sampleShiftState sampleShift).1.checkAbstractValue 2 =
        some (makeVal false (BitVec.ofInt 64 (2 ^ 62 - 20))) ∧
      bitwiseResult .RSHIFT false (BitVec.ofInt 64 (-80)) 2 = some (BitVec.ofInt 64 (-20)) ∧
      ¬FoldsBitwise sampleShiftState sampleShift := by
  refine ⟨by decide, by decide, by decide, ?_⟩
  have hshift : UnsignedShiftOfNegative sampleShiftState sampleShift :=
    ⟨rfl, rfl, rfl, rfl, -80, 2, by decide, by decide, by decide, by decide, by decide⟩
  exact not_foldsBitwise hshift

end Cangjie.CHIR.ConstAnalysis
