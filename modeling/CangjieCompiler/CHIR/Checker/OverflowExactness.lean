import CangjieCompiler.CHIR.Analysis.SIntArithmetic
import CangjieCompiler.CHIR.Checker.OverflowChecking

/-!
# Overflow checks are exact

Every check reports an overflow exactly when the mathematical result does not fit the type.  A
result that fits is stored as it is; one that does not is brought back as the strategy says.
-/

namespace Cangjie.CHIR.OverflowChecker

open FixedWidth IntervalArithmetic

variable {w n : ℕ} {uns unsT unsK : Bool} {strategy : OverflowStrategy} {z : ℤ}

/-- A check of an operation with the mathematical result `z` has the right flag and leaves the
right integer in `*res`. -/
structure Exact (w : ℕ) (uns : Bool) (strategy : OverflowStrategy) (z : ℤ) (isOverflow : Bool)
    (res : ℤ) : Prop where
  overflow_iff : isOverflow = true ↔ ¬Representable w uns z
  fits : Representable w uns z → res = z
  wraps : strategy = .WRAPPING → Representable w uns res ∧ res ≡ z [ZMOD 2 ^ w]
  saturates : strategy = .SATURATING → res = clamp w uns z

/-- The check of a type has the right flag and the right word. -/
def Checked.IsExact (c : Checked w) (uns : Bool) (strategy : OverflowStrategy) (z : ℤ) : Prop :=
  Exact w uns strategy z c.isOverflow (value uns c.res)

/-- The mathematical result of an operation; nothing is divided by zero. -/
def mathematicalResult (kind : ExprKind) (x y : ℤ) : Option ℤ :=
  match kind with
  | .NEG => some (-y)
  | .ADD => some (x + y)
  | .SUB => some (x - y)
  | .MUL => some (x * y)
  | .DIV => if y = 0 then none else some (x.tdiv y)
  | .MOD => if y = 0 then none else some (x.tmod y)
  | _ => none

/-! ## Results that fit and results that do not -/

lemma value_ofInt_modEq (uns : Bool) (z : ℤ) :
    value uns (BitVec.ofInt w z) ≡ z [ZMOD 2 ^ w] := by
  obtain ⟨k, hk⟩ := value_ofInt_congr (w := w) uns z
  rw [hk]
  exact Int.modEq_iff_dvd.mpr ⟨-k, by ring⟩

/-- A word depends on the remainder of the integer only. -/
lemma ofInt_eq_of_modEq {y : ℤ} (h : y ≡ z [ZMOD 2 ^ w]) : BitVec.ofInt w y = BitVec.ofInt w z := by
  apply BitVec.eq_of_toNat_eq
  rw [BitVec.toNat_ofInt, BitVec.toNat_ofInt]
  push_cast
  exact congrArg Int.toNat h

lemma exact_of_fits (hz : Representable w uns z) : Exact w uns strategy z false z where
  overflow_iff := iff_of_false Bool.false_ne_true (not_not_intro hz)
  fits _ := rfl
  wraps _ := ⟨hz, Int.ModEq.refl z⟩
  saturates _ := (clamp_eq_self hz).symm

lemma exact_of_overflow {res : ℤ} (hz : ¬Representable w uns z)
    (hwraps : strategy = .WRAPPING → Representable w uns res ∧ res ≡ z [ZMOD 2 ^ w])
    (hsaturates : strategy = .SATURATING → res = clamp w uns z) :
    Exact w uns strategy z true res where
  overflow_iff := iff_of_true rfl hz
  fits h := absurd h hz
  wraps := hwraps
  saturates := hsaturates

/-- The wrapped word is right under every strategy but saturation. -/
lemma isExact_builtinOverflow (hw : 0 < w) (h : Representable w uns z ∨ strategy ≠ .SATURATING) :
    (builtinOverflow w uns z).IsExact uns strategy z := by
  unfold Checked.IsExact builtinOverflow
  dsimp only
  by_cases hz : Representable w uns z
  · rw [decide_eq_false (not_not_intro hz), value_ofInt hw hz]
    exact exact_of_fits hz
  · rw [decide_eq_true hz]
    refine exact_of_overflow hz (fun _ => ?_) fun hsat => absurd hsat (h.resolve_left hz)
    exact ⟨value_representable uns _, value_ofInt_modEq uns z⟩

lemma value_numericMin (hw : 0 < w) (uns : Bool) : value uns (numericMin w uns) = least w uns :=
  value_ofInt hw ⟨le_rfl, (least_nonpos w uns).trans (greatest_nonneg w uns)⟩

lemma value_numericMax (hw : 0 < w) (uns : Bool) : value uns (numericMax w uns) = greatest w uns :=
  value_ofInt hw ⟨(least_nonpos w uns).trans (greatest_nonneg w uns), le_rfl⟩

/-- Saturation stores the end on the side of the mathematical result. -/
lemma exact_of_saturating {res : ℤ} (hz : ¬Representable w uns z) (hsat : strategy = .SATURATING)
    (hlow : z < least w uns → res = least w uns)
    (hhigh : greatest w uns < z → res = greatest w uns) : Exact w uns strategy z true res := by
  refine exact_of_overflow hz (fun hwrap => ?_) fun _ => ?_
  · rw [hsat] at hwrap
    exact OverflowStrategy.noConfusion hwrap
  · rw [Representable, not_and_or, not_le, not_le] at hz
    rcases hz with hlt | hgt
    · rw [hlow hlt, clamp_eq_least hlt]
    · rw [hhigh hgt, clamp_eq_greatest hgt]

/-! ## Sums, differences and products -/

/-- A builtin whose result saturation replaces by the end on the right side. -/
lemma isExact_saturated (hw : 0 < w) {res : BitVec w}
    (hlow : z < least w uns → res = numericMin w uns)
    (hhigh : greatest w uns < z → res = numericMax w uns) :
    (if (builtinOverflow w uns z).isOverflow && strategy = .SATURATING then
      { builtinOverflow w uns z with res := res } else builtinOverflow w uns z).IsExact
      uns strategy z := by
  split_ifs with hcond
  · rw [Bool.and_eq_true, decide_eq_true_eq] at hcond
    obtain ⟨hflag, hsat⟩ := hcond
    unfold Checked.IsExact
    dsimp only
    rw [hflag]
    refine exact_of_saturating (of_decide_eq_true hflag) hsat (fun hlt => ?_) fun hgt => ?_
    · rw [hlow hlt, value_numericMin hw]
    · rw [hhigh hgt, value_numericMax hw]
  · refine isExact_builtinOverflow hw ?_
    rw [Bool.and_eq_true, decide_eq_true_eq, not_and_or] at hcond
    exact hcond.imp_left fun hflag => not_not.mp fun hz => hflag (decide_eq_true hz)

/-- The word of a result one turn off lies on the other side of an operand. -/
lemma isExact_saturated_of_wrap (hw : 0 < w) (x : BitVec w)
    (hlow : z < least w uns → value uns x < value uns (BitVec.ofInt w z))
    (hhigh : greatest w uns < z → value uns (BitVec.ofInt w z) ≤ value uns x) :
    (if (builtinOverflow w uns z).isOverflow && strategy = .SATURATING then
      { builtinOverflow w uns z with
        res :=
          if value uns x < value uns (builtinOverflow w uns z).res then numericMin w uns
          else numericMax w uns }
      else builtinOverflow w uns z).IsExact uns strategy z :=
  isExact_saturated hw (fun hlt => if_pos (hlow hlt)) fun hgt => if_neg (hhigh hgt).not_gt

theorem isExact_isOverflowAfterAdd (hw : 0 < w) (x y : BitVec w) :
    (isOverflowAfterAdd uns x y strategy).IsExact uns strategy (value uns x + value uns y) := by
  have hx := value_representable uns x
  have hy := value_representable uns y
  have hends := greatest_eq hw uns
  have hlo := least_nonpos w uns
  have hhi := greatest_nonneg w uns
  rw [Representable] at hx hy
  have hcases := value_ofInt_cases hw uns (z := value uns x + value uns y) (by omega) (by omega)
  rw [Representable] at hcases
  exact isExact_saturated_of_wrap hw x (fun _ => by omega) fun _ => by omega

theorem isExact_isOverflowAfterSub (hw : 0 < w) (x y : BitVec w) :
    (isOverflowAfterSub uns x y strategy).IsExact uns strategy (value uns x - value uns y) := by
  have hx := value_representable uns x
  have hy := value_representable uns y
  have hends := greatest_eq hw uns
  have hlo := least_nonpos w uns
  have hhi := greatest_nonneg w uns
  rw [Representable] at hx hy
  have hcases := value_ofInt_cases hw uns (z := value uns x - value uns y) (by omega) (by omega)
  rw [Representable] at hcases
  exact isExact_saturated_of_wrap hw x (fun _ => by omega) fun _ => by omega

/-- The sign of an overflowing product is that of the signs of its factors. -/
theorem isExact_isOverflowAfterMul (hw : 0 < w) (x y : BitVec w) :
    (isOverflowAfterMul uns x y strategy).IsExact uns strategy (value uns x * value uns y) := by
  have hlo := least_nonpos w uns
  have hhi := greatest_nonneg w uns
  refine isExact_saturated hw (fun hlt => ?_) fun hgt => ?_
  · have hneg : value uns x * value uns y < 0 := by omega
    rw [if_neg, if_neg]
    · exact fun h => absurd (mul_nonneg h.1 h.2) hneg.not_ge
    · exact fun h => absurd (mul_pos_of_neg_of_neg h.1 h.2) hneg.not_gt
  · have hpos : 0 < value uns x * value uns y := by omega
    split_ifs with hboth hnone
    · rfl
    · rfl
    · rcases mul_pos_iff.mp hpos with ⟨hx, hy⟩ | hxy
      · exact absurd ⟨hx.le, hy.le⟩ hnone
      · exact absurd hxy hboth

/-! ## Quotients and remainders -/

/-- The only signed quotient that does not fit. -/
lemma isMinByMinusOne_iff (hw : 0 < w) (x y : BitVec w) :
    (!uns && (x == numericMin w uns && decide (value uns y = -1))) = true ↔
      uns = false ∧ value uns x = -2 ^ (w - 1) ∧ value uns y = -1 := by
  rw [Bool.and_eq_true, Bool.and_eq_true, beq_iff_eq, decide_eq_true_eq, Bool.not_eq_true']
  refine and_congr_right fun huns => and_congr_left fun _ => ?_
  subst huns
  rw [← least_false, ← value_numericMin hw]
  exact ⟨congrArg _, fun h => value_injective false h⟩

lemma tdiv_representable_of_not (x y : BitVec w)
    (h : ¬(uns = false ∧ value uns x = -2 ^ (w - 1) ∧ value uns y = -1)) :
    Representable w uns ((value uns x).tdiv (value uns y)) := by
  cases uns with
  | false =>
    exact SInt.tdiv_representable (value_representable false x) fun hover => h ⟨rfl, hover⟩
  | true =>
    have hx := value_representable true x
    have hy := value_representable true y
    rw [Representable, least_true] at hx hy
    refine ⟨Int.tdiv_nonneg hx.1 hy.1, ?_⟩
    exact (Int.tdiv_le_self _ hx.1).trans hx.2

theorem isExact_isOverflowAfterDiv (hw : 0 < w) (x y res : BitVec w) :
    (isOverflowAfterDiv uns x y strategy res).IsExact uns strategy
      ((value uns x).tdiv (value uns y)) := by
  unfold Checked.IsExact isOverflowAfterDiv
  dsimp only
  by_cases hover : (!uns && (x == numericMin w uns && decide (value uns y = -1))) = true
  · rw [hover]
    obtain ⟨rfl, hx, hy⟩ := (isMinByMinusOne_iff hw x y).mp hover
    have hquot : (value false x).tdiv (value false y) = greatest w false + 1 := by
      rw [hx, hy, Int.tdiv_neg, Int.tdiv_one, greatest_false]
      ring
    have hends := greatest_eq hw false
    have hz : ¬Representable w false ((value false x).tdiv (value false y)) := by
      rw [hquot, Representable]
      omega
    simp only [Bool.true_and, decide_eq_true_eq, if_true]
    split_ifs with hwrap hsat
    · refine exact_of_overflow hz (fun _ => ?_) fun hsat => ?_
      · rw [value_numericMin hw, hquot]
        refine ⟨⟨le_rfl, (least_nonpos w false).trans (greatest_nonneg w false)⟩, ?_⟩
        exact Int.modEq_iff_dvd.mpr ⟨1, by omega⟩
      · rw [hsat] at hwrap
        exact OverflowStrategy.noConfusion hwrap
    · rw [value_numericMax hw]
      refine exact_of_saturating hz hsat (fun hlt => ?_) fun _ => rfl
      rw [hquot] at hlt
      have hlo := least_nonpos w false
      have hhi := greatest_nonneg w false
      omega
    · exact exact_of_overflow hz (fun h => absurd h hwrap) fun h => absurd h hsat
  · rw [Bool.not_eq_true] at hover
    rw [hover]
    have hz := tdiv_representable_of_not x y fun h =>
      Bool.false_ne_true (hover.symm.trans ((isMinByMinusOne_iff hw x y).mpr h))
    simp only [Bool.false_and, Bool.false_eq_true, if_false]
    rw [value_ofInt hw hz]
    exact exact_of_fits hz

/-- A remainder is always representable. -/
lemma rem_representable (x y : BitVec w) :
    Representable w uns ((value uns x).tmod (value uns y)) := by
  have hx := value_representable uns x
  rw [Representable] at hx ⊢
  have habs := abs_tmod_le (value uns x) (value uns y)
  have hlo := least_nonpos w uns
  have hhi := greatest_nonneg w uns
  rcases le_total 0 (value uns x) with hpos | hneg
  · have hrem := Int.tmod_nonneg (value uns y) hpos
    rw [abs_of_nonneg hrem, abs_of_nonneg hpos] at habs
    omega
  · have hrem := tmod_nonpos (value uns y) hneg
    rw [abs_of_nonpos hrem, abs_of_nonpos hneg] at habs
    omega

theorem isExact_isOverflowAfterMod (hw : 0 < w) (x y : BitVec w) :
    (isOverflowAfterMod uns x y).IsExact uns strategy ((value uns x).tmod (value uns y)) := by
  unfold isOverflowAfterMod
  split_ifs with hover
  · obtain ⟨rfl, -, hy⟩ := (isMinByMinusOne_iff hw x y).mp hover
    have hzero : (value false x).tmod (value false y) = 0 := by
      rw [hy, Int.tmod_neg, Int.tmod_one]
    have hfits : Representable w false 0 := ⟨least_nonpos w false, greatest_nonneg w false⟩
    rw [hzero, Checked.IsExact, show (0 : BitVec w) = 0#w from rfl, value_zero]
    exact exact_of_fits hfits
  · rw [Checked.IsExact, value_ofInt hw (rem_representable x y)]
    exact exact_of_fits (rem_representable x y)

/-! ## All operations -/

variable (strategy) in
theorem isExact_isOverflow (hw : 0 < w) {x y : BitVec w} {kind : ExprKind}
    (h : mathematicalResult kind (value uns x) (value uns y) = some z) :
    ∃ c, isOverflow uns x y kind strategy = some c ∧ c.IsExact uns strategy z := by
  cases kind
  case NEG =>
    obtain rfl := Option.some.inj h
    refine ⟨_, rfl, ?_⟩
    have hzero : -value uns y = value uns (0 : BitVec w) - value uns y := by
      rw [show (0 : BitVec w) = 0#w from rfl, value_zero, zero_sub]
    rw [hzero]
    exact isExact_isOverflowAfterSub hw 0 y
  case ADD =>
    obtain rfl := Option.some.inj h
    exact ⟨_, rfl, isExact_isOverflowAfterAdd hw x y⟩
  case SUB =>
    obtain rfl := Option.some.inj h
    exact ⟨_, rfl, isExact_isOverflowAfterSub hw x y⟩
  case MUL =>
    obtain rfl := Option.some.inj h
    exact ⟨_, rfl, isExact_isOverflowAfterMul hw x y⟩
  case DIV =>
    rw [mathematicalResult] at h
    split_ifs at h
    obtain rfl := Option.some.inj h
    exact ⟨_, rfl, isExact_isOverflowAfterDiv hw x y 0⟩
  case MOD =>
    rw [mathematicalResult] at h
    split_ifs at h
    obtain rfl := Option.some.inj h
    exact ⟨_, rfl, isExact_isOverflowAfterMod hw x y⟩
  all_goals exact absurd h (Option.some_ne_none z).symm

/-! ## Casts -/

/-- The largest value of a type in a larger type. -/
lemma value_convert_numericMax (hw : 0 < w) (hn : 0 < n)
    (h : greatest w unsT ≤ greatest n unsK) :
    value unsK (convert unsT (numericMax w unsT) n) = greatest w unsT := by
  rw [convert, value_numericMax hw]
  exact value_ofInt hn ⟨(least_nonpos n unsK).trans (greatest_nonneg w unsT), h⟩

lemma value_convert_numericMin (hw : 0 < w) (hn : 0 < n) (h : least n unsK ≤ least w unsT) :
    value unsK (convert unsT (numericMin w unsT) n) = least w unsT := by
  rw [convert, value_numericMin hw]
  exact value_ofInt hn ⟨h, (least_nonpos w unsT).trans (greatest_nonneg n unsK)⟩

/-- A type holds the largest value of every type that is no larger, unless it is signed and the
other one is not. -/
lemma greatest_le_greatest (hsign : unsT = false ∨ unsK = true) (h : w ≤ n) :
    greatest w unsT ≤ greatest n unsK := by
  have hhalf : (2 : ℤ) ^ (w - 1) ≤ 2 ^ (n - 1) := pow_le_pow_right₀ (by norm_num) (by omega)
  have hcross : (2 : ℤ) ^ (w - 1) ≤ 2 ^ n := pow_le_pow_right₀ (by norm_num) (by omega)
  have hfull : (2 : ℤ) ^ w ≤ 2 ^ n := pow_le_pow_right₀ (by norm_num) h
  cases unsT <;> cases unsK
  · simpa using hhalf
  · simpa using hcross
  · simp at hsign
  · simpa using hfull

lemma least_le_least (hsign : unsT = false ∨ unsK = true) (h : w ≤ n) :
    least n unsT ≤ least w unsK := by
  have hhalf : (2 : ℤ) ^ (w - 1) ≤ 2 ^ (n - 1) := pow_le_pow_right₀ (by norm_num) (by omega)
  cases unsT <;> cases unsK
  · simpa using hhalf
  · simp
  · simp at hsign
  · simp

/-- The largest signed value, cut to an unsigned type, is the smaller of the two largest values. -/
lemma value_convert_signedMax (hw : 0 < w) (hn : 0 < n) :
    value true (convert false (numericMax n false) w) =
      min (greatest w true) (greatest n false) := by
  rcases le_or_gt (greatest n false) (greatest w true) with hle | hlt
  · rw [min_eq_right hle]
    exact value_convert_numericMax hn hw hle
  · rw [min_eq_left hlt.le]
    have hwide : w ≤ n - 1 := by
      by_contra hnarrow
      have hpow : (2 : ℤ) ^ (n - 1) ≤ 2 ^ w := pow_le_pow_right₀ (by norm_num) (by omega)
      rw [greatest_true, greatest_false] at hlt
      omega
    have hsplit : (2 : ℤ) ^ (n - 1) = 2 ^ w * 2 ^ (n - 1 - w) := by
      rw [← pow_add]
      congr 1
      omega
    rw [convert, value_numericMax hn, greatest_false, hsplit]
    have hcongr : (2 ^ w * 2 ^ (n - 1 - w) - 1 : ℤ) ≡ 2 ^ w - 1 [ZMOD 2 ^ w] :=
      Int.modEq_iff_dvd.mpr ⟨1 - 2 ^ (n - 1 - w), by ring⟩
    rw [ofInt_eq_of_modEq hcongr]
    exact value_ofInt hw ⟨by rw [least_true, ← greatest_true]; exact greatest_nonneg w true, le_rfl⟩

/-- A wider type holds the largest value of every narrower type. -/
lemma greatest_le_greatest_of_lt (unsT unsK : Bool) (h : n < w) :
    greatest n unsK ≤ greatest w unsT := by
  have hcross : (2 : ℤ) ^ n ≤ 2 ^ (w - 1) := pow_le_pow_right₀ (by norm_num) (by omega)
  have hhalf : (2 : ℤ) ^ (n - 1) ≤ 2 ^ n := pow_le_pow_right₀ (by norm_num) (by omega)
  have hfull : (2 : ℤ) ^ (w - 1) ≤ 2 ^ w := pow_le_pow_right₀ (by norm_num) (by omega)
  cases unsT <;> cases unsK <;>
    simp only [greatest_true, greatest_false] <;> omega

/-- The two largest values in the larger of the two types. -/
lemma value_convert_largerType (hw : 0 < w) (hn : 0 < n) (hsign : unsT = false ∨ unsK = true) :
    value (largerType w unsT n unsK).2
        (convert unsT (numericMax w unsT) (largerType w unsT n unsK).1) = greatest w unsT ∧
      value (largerType w unsT n unsK).2
        (convert unsK (numericMax n unsK) (largerType w unsT n unsK).1) = greatest n unsK := by
  by_cases hle : w ≤ n
  · have hlarger : largerType w unsT n unsK = (n, unsK) := if_pos hle
    rw [hlarger]
    exact ⟨value_convert_numericMax hw hn (greatest_le_greatest hsign hle),
      value_convert_numericMax hn hn le_rfl⟩
  · have hlarger : largerType w unsT n unsK = (w, unsT) := if_neg hle
    rw [hlarger]
    exact ⟨value_convert_numericMax hw hw le_rfl,
      value_convert_numericMax hn hw (greatest_le_greatest_of_lt unsT unsK (by omega))⟩

/-- Where the ends of the destination do not decide, every value fits. -/
lemma representable_of_greatest_le (hsign : unsT = false ∨ unsK = true) (x : BitVec w)
    (hneg : unsT = false → unsK = true → 0 ≤ value unsT x)
    (h : greatest w unsT ≤ greatest n unsK) : Representable n unsK (value unsT x) := by
  have hx := value_representable unsT x
  rw [Representable] at hx ⊢
  refine ⟨?_, hx.2.trans h⟩
  cases unsK with
  | true =>
    cases unsT with
    | true => exact hx.1
    | false => exact hneg rfl rfl
  | false =>
    obtain rfl : unsT = false := by simpa using hsign
    rw [greatest_false, greatest_false] at h
    rw [least_false] at hx ⊢
    omega

/-- The flag of a cast is set when the value does not fit the destination. -/
theorem typecastOverflows_iff (hw : 0 < w) (hn : 0 < n) (x : BitVec w) :
    typecastOverflows unsT x n unsK = true ↔ ¬Representable n unsK (value unsT x) := by
  have hx := value_representable unsT x
  unfold typecastOverflows
  dsimp only
  split_ifs with hnegative hcross larger
  · -- A negative value and an unsigned destination.
    rw [Bool.and_eq_true, Bool.and_eq_true, decide_eq_true_eq] at hnegative
    obtain ⟨⟨-, rfl⟩, hlt⟩ := hnegative
    refine iff_of_true rfl fun hfits => ?_
    exact absurd hfits.1 hlt.not_ge
  · -- An unsigned source and a signed destination.
    rw [Bool.and_eq_true, Bool.not_eq_true'] at hcross
    obtain ⟨rfl, rfl⟩ := hcross
    rw [value_convert_signedMax hw hn, decide_eq_true_eq, min_lt_iff]
    rw [Representable] at hx ⊢
    have hlow := least_nonpos n false
    rw [least_true] at hx
    omega
  all_goals
    rw [Bool.and_eq_true, Bool.not_eq_true', not_and_or, Bool.not_eq_true, Bool.not_eq_false]
      at hcross
    rw [Bool.and_eq_true, Bool.and_eq_true, decide_eq_true_eq, Bool.not_eq_true'] at hnegative
    have hneg : unsT = false → unsK = true → 0 ≤ value unsT x := by
      intro hT hK
      exact not_lt.mp fun hlt => hnegative ⟨⟨hT, hK⟩, hlt⟩
    obtain ⟨htmax, hkmax⟩ := value_convert_largerType hw hn hcross
  · -- The destination is narrower, and its ends are values of the source.
    have hgreater : greatest n unsK < greatest w unsT := by rwa [htmax, hkmax] at larger
    have hnarrow : n < w := by
      by_contra hwide
      exact hgreater.not_ge (greatest_le_greatest hcross (not_lt.mp hwide))
    rw [value_convert_numericMax hn hw hgreater.le,
      value_convert_numericMin hn hw (least_le_least hcross hnarrow.le), Bool.or_eq_true,
      decide_eq_true_eq, decide_eq_true_eq, Representable]
    omega
  · -- Every value of the source fits, and the comparisons are made in the destination.
    have hle : greatest w unsT ≤ greatest n unsK := by
      rw [htmax, hkmax] at larger
      exact not_lt.mp larger
    have hconverted := value_representable unsK (convert unsT x n)
    rw [Representable] at hconverted
    refine iff_of_false ?_ (not_not_intro (representable_of_greatest_le hcross x hneg hle))
    rw [value_numericMax hn, value_numericMin hn, Bool.or_eq_true, decide_eq_true_eq,
      decide_eq_true_eq]
    omega

theorem isExact_isTypecastOverflowForInt (hw : 0 < w) (hn : 0 < n) (x : BitVec w) :
    (isTypecastOverflowForInt unsT x n unsK strategy).IsExact unsK strategy (value unsT x) := by
  have hflag : typecastOverflows unsT x n unsK = true ↔ ¬Representable n unsK (value unsT x) :=
    typecastOverflows_iff hw hn x
  unfold isTypecastOverflowForInt Checked.IsExact
  dsimp only
  by_cases hz : Representable n unsK (value unsT x)
  · have hfits : typecastOverflows unsT x n unsK = false :=
      Bool.not_eq_true _ ▸ fun h => hflag.mp h hz
    rw [hfits]
    simp only [Bool.false_and, Bool.false_eq_true, if_false]
    rw [convert, value_ofInt hn hz]
    exact exact_of_fits hz
  · rw [hflag.mpr hz]
    simp only [Bool.true_and, decide_eq_true_eq]
    split_ifs with hsat hneg
    · rw [value_numericMin hn]
      refine exact_of_saturating hz hsat (fun _ => rfl) fun hgt => ?_
      have hhi := greatest_nonneg n unsK
      omega
    · rw [value_numericMax hn]
      refine exact_of_saturating hz hsat (fun hlt => ?_) fun _ => rfl
      have hlo := least_nonpos n unsK
      omega
    · exact exact_of_overflow hz
        (fun _ => ⟨value_representable unsK _, value_ofInt_modEq unsK _⟩)
        fun h => absurd h hsat

/-! ## The checks by the kind of a type -/

/-- A value of a type of `w` bits in a word of 64 bits. -/
lemma value_convert (hw : 0 < w) (x : BitVec 64) (hx : Representable w uns (value uns x)) :
    value uns (convert uns x w) = value uns x :=
  value_ofInt hw hx

lemma value_convert_carrier (hw : w ≤ 64) (x : BitVec w) :
    value uns (convert uns x 64) = value uns x := by
  have hx := value_representable uns x
  have hsign : uns = false ∨ uns = true := by cases uns <;> simp
  exact value_ofInt (by norm_num)
    ⟨(least_le_least hsign hw).trans hx.1, hx.2.trans (greatest_le_greatest hsign hw)⟩

variable (strategy) in
/-- The operands are cut without loss, and the result is brought back without loss. -/
theorem exact_isOverflowAt (hw : 0 < w) (hle : w ≤ 64) {kind : ExprKind} {x y : BitVec 64}
    (hx : Representable w uns (value uns x)) (hy : Representable w uns (value uns y))
    (h : mathematicalResult kind (value uns x) (value uns y) = some z) :
    ∃ c, isOverflowAt w uns kind x y strategy = some c ∧
      Exact w uns strategy z c.isOverflow (value uns c.res) := by
  rw [← value_convert hw x hx, ← value_convert hw y hy] at h
  obtain ⟨c, hc, hexact⟩ := isExact_isOverflow strategy hw h
  refine ⟨⟨c.isOverflow, convert uns c.res 64⟩, ?_, ?_⟩
  · rw [isOverflowAt, hc]
    rfl
  · rw [value_convert_carrier hle]
    exact hexact

theorem exact_isIntOverflow {typeKind : TypeKind} (hsigned : typeKind.isSigned = true)
    {kind : ExprKind} {x y : BitVec 64} (hx : typeKind.HasValue (value false x))
    (hy : typeKind.HasValue (value false y))
    (h : mathematicalResult kind (value false x) (value false y) = some z) :
    ∃ c, isIntOverflow typeKind kind x y strategy = some c ∧
      Exact typeKind.bitness false strategy z c.isOverflow (value false c.res) := by
  have hlt := typeKind.one_lt_bitness
  have hexact := fun hx hy => exact_isOverflowAt strategy
    (show 0 < typeKind.bitness by omega) typeKind.bitness_le hx hy h
  cases typeKind <;> first | exact absurd hsigned (by decide) | exact hexact hx hy

theorem exact_isUIntOverflow {typeKind : TypeKind} (hsigned : typeKind.isSigned = false)
    {kind : ExprKind} {x y : BitVec 64} (hx : typeKind.HasValue (value true x))
    (hy : typeKind.HasValue (value true y))
    (h : mathematicalResult kind (value true x) (value true y) = some z) :
    ∃ c, isUIntOverflow typeKind kind x y strategy = some c ∧
      Exact typeKind.bitness true strategy z c.isOverflow (value true c.res) := by
  have hlt := typeKind.one_lt_bitness
  have hexact := fun hx hy => exact_isOverflowAt strategy
    (show 0 < typeKind.bitness by omega) typeKind.bitness_le hx hy h
  cases typeKind <;> first | exact absurd hsigned (by decide) | exact hexact hx hy

/-- The checks are exact: for the operations of every integer type, for the operations on 64-bit
words that are chosen by the kind of a type, and for the casts between any two integer types. -/
structure IsExactUnder (strategy : OverflowStrategy) : Prop where
  operation : ∀ (typeKind : TypeKind) (x y : BitVec typeKind.bitness) (kind : ExprKind) (z : ℤ),
    mathematicalResult kind (value typeKind.uns x) (value typeKind.uns y) = some z →
      ∃ c, isOverflow typeKind.uns x y kind strategy = some c ∧
        c.IsExact typeKind.uns strategy z
  intOperation : ∀ (typeKind : TypeKind) (x y : BitVec 64) (kind : ExprKind) (z : ℤ),
    typeKind.isSigned = true → typeKind.HasValue (value false x) →
      typeKind.HasValue (value false y) →
      mathematicalResult kind (value false x) (value false y) = some z →
        ∃ c, isIntOverflow typeKind kind x y strategy = some c ∧
          Exact typeKind.bitness false strategy z c.isOverflow (value false c.res)
  uintOperation : ∀ (typeKind : TypeKind) (x y : BitVec 64) (kind : ExprKind) (z : ℤ),
    typeKind.isSigned = false → typeKind.HasValue (value true x) →
      typeKind.HasValue (value true y) →
      mathematicalResult kind (value true x) (value true y) = some z →
        ∃ c, isUIntOverflow typeKind kind x y strategy = some c ∧
          Exact typeKind.bitness true strategy z c.isOverflow (value true c.res)
  typecast : ∀ (source destination : TypeKind) (x : BitVec source.bitness),
    (isTypecastOverflowForInt source.uns x destination.bitness destination.uns strategy).IsExact
      destination.uns strategy (value source.uns x)
  minModMinusOne : ∀ typeKind : TypeKind, typeKind.isSigned = true →
    isOverflow false (numericMin typeKind.bitness false) (BitVec.ofInt typeKind.bitness (-1))
      .MOD strategy = some ⟨false, 0⟩

lemma isOverflow_minModMinusOne (hw : 1 < w) (strategy : OverflowStrategy) :
    isOverflow false (numericMin w false) (BitVec.ofInt w (-1)) .MOD strategy =
      some ⟨false, 0⟩ := by
  have hpow : (0 : ℤ) < 2 ^ (w - 1) := by positivity
  have hminus : value false (BitVec.ofInt w (-1)) = -1 :=
    value_ofInt (by omega) ⟨by rw [least_false]; omega, by rw [greatest_false]; omega⟩
  refine congrArg some (if_pos ?_)
  rw [isMinByMinusOne_iff (by omega)]
  exact ⟨rfl, value_numericMin (by omega) false, hminus⟩

theorem isExactUnder (strategy : OverflowStrategy) : IsExactUnder strategy where
  operation typeKind _ _ _ _ h :=
    isExact_isOverflow strategy (Nat.zero_lt_of_lt typeKind.one_lt_bitness) h
  intOperation _ _ _ _ _ hsigned hx hy h := exact_isIntOverflow hsigned hx hy h
  uintOperation _ _ _ _ _ hsigned hx hy h := exact_isUIntOverflow hsigned hx hy h
  typecast source destination x :=
    isExact_isTypecastOverflowForInt (Nat.zero_lt_of_lt source.one_lt_bitness)
      (Nat.zero_lt_of_lt destination.one_lt_bitness) x
  minModMinusOne typeKind _ := isOverflow_minModMinusOne typeKind.one_lt_bitness strategy

end Cangjie.CHIR.OverflowChecker
