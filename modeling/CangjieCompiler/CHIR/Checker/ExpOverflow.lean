import CangjieCompiler.CHIR.Checker.OverflowExactness

/-!
# Overflow of exponentiations

`Binpow` squares the base once for each bit of the exponent and multiplies the squares of the set
bits.  All products are those of the compiler builtin, which keeps the low 64 bits.

A square that overflows is a factor of the final power, and the other factors do not make the power
smaller, so that the power does not fit either.
-/

namespace Cangjie.CHIR.OverflowChecker

open FixedWidth

/-! ## The checks of the source -/

/-- The variables of `Binpow` other than the exponent. -/
structure BinpowState where
  a : BitVec 64
  res : BitVec 64
  isOverflow : Bool

namespace BinpowState

/-- `*res * a`, stored in `*res` -/
def multiply (s : BinpowState) : BinpowState :=
  let c := builtinOverflow 64 false (value false s.res * value false s.a)
  { s with res := c.res, isOverflow := s.isOverflow || c.isOverflow }

/-- `a * a`, stored in `a` -/
def square (s : BinpowState) : BinpowState :=
  let c := builtinOverflow 64 false (value false s.a * value false s.a)
  { s with a := c.res, isOverflow := s.isOverflow || c.isOverflow }

end BinpowState

/-- The loop of `Binpow` and the multiplication after it. -/
def binpowLoop (s : BinpowState) (b : ℕ) : BinpowState :=
  if 1 < b then
    binpowLoop (if b % 2 = 1 then s.multiply else s).square (b / 2)
  else s.multiply
termination_by b

def binpow (a : BitVec 64) (b : ℕ) : Checked 64 :=
  if b = 0 then ⟨false, 1⟩
  else
    let s := binpowLoop ⟨a, 1, false⟩ b
    ⟨s.isOverflow, s.res⟩

def isExpOverflow (x y : BitVec 64) (strategy : OverflowStrategy) : Checked 64 :=
  let c := binpow x y.toNat
  if c.isOverflow && strategy = .SATURATING then
    { c with
      res :=
        if value false x < 0 ∧ y.toNat % 2 = 0 then numericMax 64 false
        else if value false x < 0 ∧ y.toNat % 2 = 1 then numericMin 64 false
        else numericMax 64 false }
  else c

/-! ## Powers that do not fit -/

variable {w : ℕ} {x : ℤ} {m n : ℕ}

lemma two_pow_le_abs_of_not_representable (h : ¬Representable w false x) : 2 ^ (w - 1) ≤ |x| := by
  rw [Representable, least_false, greatest_false] at h
  rcases le_total 0 x with hpos | hneg
  · rw [abs_of_nonneg hpos]
    omega
  · rw [abs_of_nonpos hneg]
    omega

lemma not_representable_of_lt_abs (h : 2 ^ (w - 1) < |x|) : ¬Representable w false x := by
  rintro ⟨hlo, hhi⟩
  rw [least_false] at hlo
  rw [greatest_false] at hhi
  have habs : |x| ≤ 2 ^ (w - 1) := abs_le.mpr ⟨hlo, by omega⟩
  exact absurd h habs.not_gt

/-- Only the powers of a base of absolute value at least two can leave a type. -/
lemma two_le_abs_of_not_representable (hw : 1 < w) (h : ¬Representable w false (x ^ m)) :
    2 ≤ |x| := by
  by_contra hsmall
  have hle : |x ^ m| ≤ 1 := by
    rw [abs_pow]
    exact pow_le_one₀ (abs_nonneg x) (by omega)
  have hpow : (2 : ℤ) ≤ 2 ^ (w - 1) := by
    calc (2 : ℤ) = 2 ^ 1 := by norm_num
      _ ≤ 2 ^ (w - 1) := pow_le_pow_right₀ (by norm_num) (by omega)
  exact absurd (two_pow_le_abs_of_not_representable h) (by omega)

/-- A power that does not fit makes all later powers of the base not fit. -/
lemma not_representable_pow (hw : 1 < w) (hmn : m ≤ n) (h : ¬Representable w false (x ^ m)) :
    ¬Representable w false (x ^ n) := by
  rcases hmn.eq_or_lt with rfl | hlt
  · exact h
  · have hbase := two_le_abs_of_not_representable hw h
    have hsize := two_pow_le_abs_of_not_representable h
    have hpos : (0 : ℤ) < 2 ^ (w - 1) := by positivity
    refine not_representable_of_lt_abs ?_
    calc (2 : ℤ) ^ (w - 1) < 2 ^ (w - 1) * 2 := by omega
      _ ≤ |x ^ m| * |x| := mul_le_mul hsize hbase (by norm_num) (abs_nonneg _)
      _ = |x ^ (m + 1)| := by rw [pow_succ, abs_mul]
      _ ≤ |x ^ n| := by
          rw [abs_pow, abs_pow]
          exact pow_le_pow_right₀ (by omega) hlt

/-! ## The loop -/

/-- With `b` left of the exponent `y`, the accumulator holds the power `r` of the base and the
square holds the power `p`, up to the low bits.  Both are exact as long as nothing has overflowed,
and an overflow has shown that the final power does not fit. -/
structure Holds (x : ℤ) (y : ℕ) (s : BinpowState) (b r p : ℕ) : Prop where
  exponent : y = r + p * b
  res_eq : s.res = BitVec.ofInt 64 (x ^ r)
  a_eq : s.a = BitVec.ofInt 64 (x ^ p)
  exact_res : s.isOverflow = false → Representable 64 false (x ^ r)
  exact_a : s.isOverflow = false → Representable 64 false (x ^ p)
  overflow : s.isOverflow = true → ¬Representable 64 false (x ^ y)

/-- The builtin product of two words that stand for powers of the base. -/
lemma builtin_mul (u v : BitVec 64) (hu : u = BitVec.ofInt 64 (x ^ m))
    (hv : v = BitVec.ofInt 64 (x ^ n)) :
    (builtinOverflow 64 false (value false u * value false v)).res =
        BitVec.ofInt 64 (x ^ (m + n)) ∧
      (Representable 64 false (x ^ m) → Representable 64 false (x ^ n) →
        (builtinOverflow 64 false (value false u * value false v)).isOverflow =
          decide ¬Representable 64 false (x ^ (m + n))) := by
  constructor
  · rw [builtinOverflow, ← mul_eq_ofInt, hu, hv, ← BitVec.ofInt_mul, pow_add]
  · intro hm hn
    rw [builtinOverflow, hu, hv, value_ofInt (by norm_num) hm, value_ofInt (by norm_num) hn,
      pow_add]

/-- The flag after a product: nothing has overflowed and the product fits, or the final power does
not fit. -/
lemma overflow_or {flag : Bool} {z : ℤ} {y : ℕ} {c : Checked 64}
    (hc : flag = false → c.isOverflow = decide ¬Representable 64 false z)
    (hflag : flag = true → ¬Representable 64 false (x ^ y))
    (hz : ¬Representable 64 false z → ¬Representable 64 false (x ^ y)) :
    ((flag || c.isOverflow) = false → flag = false ∧ Representable 64 false z) ∧
      ((flag || c.isOverflow) = true → ¬Representable 64 false (x ^ y)) := by
  cases flag with
  | true => exact ⟨fun h => absurd h (by simp), fun _ => hflag rfl⟩
  | false =>
    rw [Bool.false_or, hc rfl, decide_eq_false_iff_not, decide_eq_true_eq, not_not]
    exact ⟨fun h => ⟨rfl, h⟩, hz⟩

lemma Holds.multiply {y : ℕ} {s : BinpowState} {b r p : ℕ} (h : Holds x y s (b + 1) r p) :
    Holds x y s.multiply b (r + p) p := by
  obtain ⟨hres, hflag⟩ := builtin_mul s.res s.a h.res_eq h.a_eq
  have hy : r + p ≤ y := by
    rw [h.exponent, mul_add, mul_one]
    omega
  obtain ⟨hfits, hover⟩ := overflow_or (fun hs => hflag (h.exact_res hs) (h.exact_a hs)) h.overflow
    (not_representable_pow (by norm_num) hy)
  exact {
    exponent := by rw [h.exponent]; ring
    res_eq := hres
    a_eq := h.a_eq
    exact_res := fun hs => (hfits hs).2
    exact_a := fun hs => h.exact_a (hfits hs).1
    overflow := hover }

lemma Holds.square {y : ℕ} {s : BinpowState} {b r p : ℕ} (hb : 0 < b)
    (h : Holds x y s (2 * b) r p) : Holds x y s.square b r (p + p) := by
  obtain ⟨hres, hflag⟩ := builtin_mul s.a s.a h.a_eq h.a_eq
  have hy : p + p ≤ y := by
    have hle : p ≤ p * b := Nat.le_mul_of_pos_right p hb
    rw [h.exponent, mul_left_comm]
    omega
  obtain ⟨hfits, hover⟩ := overflow_or (fun hs => hflag (h.exact_a hs) (h.exact_a hs)) h.overflow
    (not_representable_pow (by norm_num) hy)
  exact {
    exponent := by rw [h.exponent]; ring
    res_eq := h.res_eq
    a_eq := hres
    exact_res := fun hs => h.exact_res (hfits hs).1
    exact_a := fun hs => (hfits hs).2
    overflow := hover }

/-- The loop ends with the final power in the accumulator. -/
lemma holds_binpowLoop {y b : ℕ} {s : BinpowState} {r p : ℕ} (hb : 0 < b) (h : Holds x y s b r p) :
    ∃ p', Holds x y (binpowLoop s b) 0 y p' := by
  induction b using Nat.strong_induction_on generalizing s r p with
  | _ b ih =>
    rw [binpowLoop]
    split_ifs with hlarge hodd
    · -- A set bit: the square is multiplied into the accumulator first.
      have hsplit : b = 2 * (b / 2) + 1 := by omega
      rw [hsplit] at h
      exact ih (b / 2) (by omega) (by omega) (h.multiply.square (by omega))
    · have hsplit : b = 2 * (b / 2) := by omega
      rw [hsplit] at h
      exact ih (b / 2) (by omega) (by omega) (h.square (by omega))
    · obtain rfl : b = 0 + 1 := by omega
      have hlast := h.multiply
      obtain rfl : y = r + p := by simpa using hlast.exponent
      exact ⟨p, hlast⟩

theorem binpow_eq (x : BitVec 64) (y : ℕ) :
    binpow x y = builtinOverflow 64 false (value false x ^ y) := by
  have hone : Representable 64 false 1 := by decide
  rw [binpow]
  split_ifs with hzero
  · rw [hzero, pow_zero, builtinOverflow, decide_eq_false (not_not_intro hone)]
    rfl
  · have hstart : Holds (value false x) y ⟨x, 1, false⟩ y 0 1 := {
      exponent := by ring
      res_eq := by rw [pow_zero]; rfl
      a_eq := by rw [pow_one, ofInt_value]
      exact_res := fun _ => by rwa [pow_zero]
      exact_a := fun _ => by rw [pow_one]; exact value_representable false x
      overflow := fun h => absurd h Bool.false_ne_true }
    obtain ⟨p, hend⟩ := holds_binpowLoop (Nat.pos_of_ne_zero hzero) hstart
    rw [builtinOverflow, ← hend.res_eq]
    dsimp only
    congr 1
    cases hflag : (binpowLoop ⟨x, 1, false⟩ y).isOverflow with
    | false => rw [decide_eq_false (not_not_intro (hend.exact_res hflag))]
    | true => rw [decide_eq_true (hend.overflow hflag)]

/-! ## Exactness -/

theorem isExact_isExpOverflow (x y : BitVec 64) (strategy : OverflowStrategy) :
    (isExpOverflow x y strategy).IsExact false strategy (value false x ^ y.toNat) := by
  rw [isExpOverflow, binpow_eq]
  refine isExact_saturated (by norm_num) (fun hlt => ?_) fun hgt => ?_
  · -- Only an odd power of a negative base is negative.
    have hneg : value false x ^ y.toNat < 0 := hlt.trans_le (least_nonpos 64 false)
    have hodd : y.toNat % 2 = 1 := by
      by_contra heven
      have hpar : Even y.toNat := Nat.even_iff.mpr (by omega)
      exact absurd hneg (hpar.pow_nonneg (value false x)).not_gt
    have hbase : value false x < 0 := by
      by_contra hpos
      exact absurd hneg (pow_nonneg (not_lt.mp hpos) _).not_gt
    rw [if_neg (by omega), if_pos ⟨hbase, hodd⟩]
  · have hpos : 0 < value false x ^ y.toNat := (greatest_nonneg 64 false).trans_lt hgt
    split_ifs with heven hodd
    · rfl
    · exact absurd (Odd.pow_neg (Nat.odd_iff.mpr hodd.2) hodd.1) hpos.not_gt
    · rfl

/-- Without saturation the low bits of the power are stored. -/
lemma isExpOverflow_res (x y : BitVec 64) {strategy : OverflowStrategy}
    (hsat : strategy ≠ .SATURATING) :
    (isExpOverflow x y strategy).res = BitVec.ofInt 64 (value false x ^ y.toNat) := by
  rw [isExpOverflow, if_neg (by simp [hsat]), binpow_eq]
  rfl

/-- Exponentiation reports an overflow exactly when the power does not fit.  A power that fits is
stored, one that does not is stored modulo the width, and saturation stores the nearest end. -/
theorem isExpOverflow_exact (x y : BitVec 64) (strategy : OverflowStrategy) :
    ((isExpOverflow x y strategy).isOverflow = true ↔
        ¬Representable 64 false (value false x ^ y.toNat)) ∧
      (Representable 64 false (value false x ^ y.toNat) →
        value false (isExpOverflow x y strategy).res = value false x ^ y.toNat) ∧
      (strategy ≠ .SATURATING →
        value false (isExpOverflow x y strategy).res ≡ value false x ^ y.toNat [ZMOD 2 ^ 64]) ∧
      (strategy = .SATURATING →
        value false (isExpOverflow x y strategy).res =
          clamp 64 false (value false x ^ y.toNat)) := by
  have hexact := isExact_isExpOverflow x y strategy
  refine ⟨hexact.overflow_iff, hexact.fits, fun hsat => ?_, hexact.saturates⟩
  rw [isExpOverflow_res x y hsat]
  exact value_ofInt_modEq false _

end Cangjie.CHIR.OverflowChecker
