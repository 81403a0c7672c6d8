import CangjieCompiler.Foundations.BinaryFormat

/-!
# Converting to half precision

The bits of a single-precision number are cut off to those of a half-precision number.  The number
of places by which the tail of a small number is shifted grows with its exponent, and a shift by as
many places as the operand has, or more, is undefined.
-/

namespace Cangjie.FloatFormat

open BinaryFormats

/-! ## The formats -/

def FLOAT32_SIGN_MASK : BitVec 32 := 0x80000000#32
def FLOAT32_EXP_MASK : BitVec 32 := 0x7F800000#32
def FLOAT32_TAIL_MASK : BitVec 32 := 0x007FFFFF#32
def FLOAT32_EXP_BASE : BitVec 32 := 0b01111111#32
def FLOAT32_TAIL_WIDTH : ℕ := 23
def FLOAT16_SIGN_MASK : BitVec 16 := 0x8000#16
def FLOAT16_EXP_BASE : BitVec 32 := 0b01111#32
def FLOAT16_EXP_MAX : ℤ := 0b11110
def FLOAT16_TAIL_WIDTH : ℕ := 10
def FLOAT16_INF : BitVec 16 := 0b11111#16 <<< FLOAT16_TAIL_WIDTH
def FLOAT32_FLOAT16_TAIL_OFFSET : ℕ := FLOAT32_TAIL_WIDTH - FLOAT16_TAIL_WIDTH

/-- Shifting to the right, which is undefined from the width of the operand on. -/
def shiftRight {w : ℕ} (x : BitVec w) (count : ℕ) : Option (BitVec w) :=
  if count < w then some (x >>> count) else none

/-- The conversion of the bits of a number; `none` stands for undefined behaviour. -/
def float32ToFloat16 (bit32 : BitVec 32) : Option (BitVec 16) := do
  let exp := (((bit32 &&& FLOAT32_EXP_MASK) >>> FLOAT32_TAIL_WIDTH) -
    FLOAT32_EXP_BASE + FLOAT16_EXP_BASE).toInt
  let result ←
    if exp > FLOAT16_EXP_MAX then pure FLOAT16_INF
    else if exp ≤ 0 then do
      let tail ← shiftRight ((bit32 &&& FLOAT32_TAIL_MASK) ||| (1#32 <<< FLOAT32_TAIL_WIDTH))
        (FLOAT32_FLOAT16_TAIL_OFFSET + (1 - exp)).toNat
      pure (tail.setWidth 16)
    else
      pure ((((bit32 &&& FLOAT32_TAIL_MASK) >>> FLOAT32_FLOAT16_TAIL_OFFSET) |||
        (BitVec.ofInt 32 exp <<< FLOAT16_TAIL_WIDTH)).setWidth 16)
  return if bit32 &&& FLOAT32_SIGN_MASK ≠ 0 then result ||| FLOAT16_SIGN_MASK else result

def float32 : BinaryFormat := ⟨8, 23⟩

def float16 : BinaryFormat := ⟨5, 10⟩

/-! ## Bits -/

lemma exponent_lt (bits : ℕ) : float32.exponent bits < 256 := Nat.mod_lt _ (by decide)

lemma tail_lt (bits : ℕ) : float32.tail bits < 2 ^ 23 := Nat.mod_lt _ (by decide)

lemma toInt_exp {e : ℕ} (h : e < 256) :
    (BitVec.ofNat 32 e - FLOAT32_EXP_BASE + FLOAT16_EXP_BASE).toInt = (e : ℤ) - 112 := by
  have hbase : FLOAT32_EXP_BASE.toNat = 127 := rfl
  have hbase' : FLOAT16_EXP_BASE.toNat = 15 := rfl
  rw [BitVec.toInt_eq_toNat_bmod, BitVec.toNat_add, BitVec.toNat_sub, hbase, hbase',
    BitVec.toNat_ofNat]
  rw [Int.bmod_def]
  omega

lemma expBits_eq (bit32 : BitVec 32) : (bit32 &&& FLOAT32_EXP_MASK) >>> FLOAT32_TAIL_WIDTH =
    BitVec.ofNat 32 (float32.exponent bit32.toNat) := by
  apply BitVec.eq_of_toNat_eq
  have hlt := exponent_lt bit32.toNat
  have hmask : FLOAT32_EXP_MASK.toNat / 2 ^ 23 = 2 ^ 8 - 1 := rfl
  rw [BitVec.toNat_ushiftRight, BitVec.toNat_and, Nat.shiftRight_eq_div_pow, FLOAT32_TAIL_WIDTH,
    Nat.and_div_two_pow, hmask, Nat.and_two_pow_sub_one_eq_mod, BitVec.toNat_ofNat,
    Nat.mod_eq_of_lt (b := 2 ^ 32) (hlt.trans (by decide))]
  rfl

lemma tailBits_eq (bit32 : BitVec 32) : bit32 &&& FLOAT32_TAIL_MASK =
    BitVec.ofNat 32 (float32.tail bit32.toNat) := by
  apply BitVec.eq_of_toNat_eq
  have hlt := tail_lt bit32.toNat
  have hmask : FLOAT32_TAIL_MASK.toNat = 2 ^ 23 - 1 := rfl
  rw [BitVec.toNat_and, hmask, Nat.and_two_pow_sub_one_eq_mod, BitVec.toNat_ofNat,
    Nat.mod_eq_of_lt (b := 2 ^ 32) (hlt.trans (by decide))]
  rfl

lemma signBit_iff (bit32 : BitVec 32) :
    bit32 &&& FLOAT32_SIGN_MASK ≠ 0 ↔ float32.negative bit32.toNat = true := by
  have hmask : FLOAT32_SIGN_MASK = BitVec.twoPow 32 31 := rfl
  rw [hmask, BitVec.and_twoPow, BitVec.getLsbD, Nat.testBit_eq_decide_div_mod_eq]
  have hnegative : float32.negative bit32.toNat = decide (bit32.toNat / 2 ^ 31 % 2 = 1) := by
    unfold BinaryFormat.negative
    rw [Nat.div_div_eq_div_mul]
    rfl
  rw [hnegative]
  by_cases h : bit32.toNat / 2 ^ 31 % 2 = 1 <;> simp

/-- The sign is put in front of the other bits. -/
lemma withSign {bit32 : BitVec 32} {r : BitVec 16} {exponent tail : ℕ}
    (he : exponent < 32) (ht : tail < 2 ^ 10) (hr : r.toNat = exponent * 2 ^ 10 + tail) :
    (if bit32 &&& FLOAT32_SIGN_MASK ≠ 0 then r ||| FLOAT16_SIGN_MASK else r).toNat =
      float16.assemble (float32.negative bit32.toNat) exponent tail := by
  rw [BinaryFormat.assemble]
  have hmask : FLOAT16_SIGN_MASK.toNat = 2 ^ 15 := rfl
  by_cases hsign : float32.negative bit32.toNat = true
  · have hor : 2 ^ 15 * 1 + r.toNat = 2 ^ 15 * 1 ||| r.toNat :=
      Nat.two_pow_add_eq_or_of_lt (by omega) 1
    rw [if_pos ((signBit_iff bit32).mpr hsign), BitVec.toNat_or, hmask, Nat.or_comm, hsign, hr]
    rw [Nat.mul_one, hr] at hor
    rw [← hor, float16, Bool.toNat_true]
    ring
  · rw [if_neg (mt (signBit_iff bit32).mp hsign), Bool.eq_false_iff.mpr hsign, hr, float16,
      Bool.toNat_false]
    ring

section Branches

variable {bit32 : BitVec 32}

lemma float32ToFloat16_overflow (h : 142 < float32.exponent bit32.toNat) :
    ∃ r, float32ToFloat16 bit32 = some r ∧
      r.toNat = float16.assemble (float32.negative bit32.toNat) 31 0 := by
  have hlt := exponent_lt bit32.toNat
  refine ⟨_, ?_, withSign (r := FLOAT16_INF) (by decide) (by decide) rfl⟩
  unfold float32ToFloat16
  dsimp only
  rw [expBits_eq, toInt_exp hlt, if_pos (by rw [FLOAT16_EXP_MAX]; omega)]
  rfl

lemma float32ToFloat16_normal (h : 112 < float32.exponent bit32.toNat)
    (h' : float32.exponent bit32.toNat ≤ 142) :
    ∃ r, float32ToFloat16 bit32 = some r ∧
      r.toNat = float16.assemble (float32.negative bit32.toNat)
        (float32.exponent bit32.toNat - 112) (float32.tail bit32.toNat / 2 ^ 13) := by
  have htail := tail_lt bit32.toNat
  have hcut : float32.tail bit32.toNat / 2 ^ 13 < 2 ^ 10 := by omega
  refine ⟨_, ?_, withSign (r := ((BitVec.ofNat 32 (float32.tail bit32.toNat) >>>
    FLOAT32_FLOAT16_TAIL_OFFSET) ||| (BitVec.ofInt 32 ((float32.exponent bit32.toNat : ℤ) - 112) <<<
      FLOAT16_TAIL_WIDTH)).setWidth 16) (by omega) hcut ?_⟩
  · unfold float32ToFloat16
    dsimp only
    rw [expBits_eq, toInt_exp (by omega), if_neg (by rw [FLOAT16_EXP_MAX]; omega),
      if_neg (by omega), tailBits_eq]
    rfl
  · have hexp : (BitVec.ofInt 32 ((float32.exponent bit32.toNat : ℤ) - 112)).toNat =
        float32.exponent bit32.toNat - 112 := by
      rw [BitVec.toNat_ofInt]
      omega
    have hor := Nat.two_pow_add_eq_or_of_lt hcut (float32.exponent bit32.toNat - 112)
    rw [BitVec.toNat_setWidth, BitVec.toNat_or, BitVec.toNat_ushiftRight, BitVec.toNat_shiftLeft,
      hexp, BitVec.toNat_ofNat, Nat.mod_eq_of_lt (b := 2 ^ 32) (by omega),
      FLOAT32_FLOAT16_TAIL_OFFSET, FLOAT32_TAIL_WIDTH, FLOAT16_TAIL_WIDTH,
      Nat.shiftRight_eq_div_pow, Nat.shiftLeft_eq, Nat.mod_eq_of_lt (b := 2 ^ 32) (by omega),
      Nat.or_comm, Nat.mul_comm, ← hor, Nat.mod_eq_of_lt (by omega)]

/-- The tail with the leading one. -/
lemma leadingTail_eq : ((bit32 &&& FLOAT32_TAIL_MASK) ||| (1#32 <<< FLOAT32_TAIL_WIDTH)).toNat =
    2 ^ 23 + float32.tail bit32.toNat := by
  have htail := tail_lt bit32.toNat
  have hone : (1#32 <<< FLOAT32_TAIL_WIDTH).toNat = 2 ^ 23 * 1 := rfl
  rw [tailBits_eq, BitVec.toNat_or, hone, BitVec.toNat_ofNat,
    Nat.mod_eq_of_lt (b := 2 ^ 32) (by omega), Nat.or_comm, ← Nat.two_pow_add_eq_or_of_lt htail,
    Nat.mul_one]

/-- The places by which the tail of a small number is shifted. -/
lemma shiftCount_eq {e : ℕ} (h : e ≤ 112) :
    ((FLOAT32_FLOAT16_TAIL_OFFSET : ℤ) + (1 - ((e : ℤ) - 112))).toNat = 126 - e := by
  rw [FLOAT32_FLOAT16_TAIL_OFFSET, FLOAT32_TAIL_WIDTH, FLOAT16_TAIL_WIDTH]
  omega

lemma cut_lt (bit32 : BitVec 32) (h : float32.exponent bit32.toNat ≤ 112) :
    (2 ^ 23 + float32.tail bit32.toNat) / 2 ^ (126 - float32.exponent bit32.toNat) < 2 ^ 10 := by
  have htail := tail_lt bit32.toNat
  refine (Nat.div_lt_iff_lt_mul (Nat.two_pow_pos _)).mpr ?_
  have hpow : 2 ^ 14 ≤ 2 ^ (126 - float32.exponent bit32.toNat) :=
    Nat.pow_le_pow_right two_pos (by omega)
  calc 2 ^ 23 + float32.tail bit32.toNat < 2 ^ 10 * 2 ^ 14 := by omega
    _ ≤ 2 ^ 10 * 2 ^ (126 - float32.exponent bit32.toNat) := Nat.mul_le_mul_left _ hpow

lemma float32ToFloat16_subnormal (h : 95 ≤ float32.exponent bit32.toNat)
    (h' : float32.exponent bit32.toNat ≤ 112) :
    ∃ r, float32ToFloat16 bit32 = some r ∧
      r.toNat = float16.assemble (float32.negative bit32.toNat) 0
        ((2 ^ 23 + float32.tail bit32.toNat) / 2 ^ (126 - float32.exponent bit32.toNat)) := by
  have hcut := cut_lt bit32 h'
  refine ⟨_, ?_, withSign (r := ((((bit32 &&& FLOAT32_TAIL_MASK) |||
    (1#32 <<< FLOAT32_TAIL_WIDTH)) >>> (126 - float32.exponent bit32.toNat)).setWidth 16))
      (by decide) hcut ?_⟩
  · unfold float32ToFloat16 shiftRight
    dsimp only
    rw [expBits_eq, toInt_exp (by omega), if_neg (by rw [FLOAT16_EXP_MAX]; omega),
      if_pos (by omega), shiftCount_eq h', if_pos (by omega)]
    rfl
  · rw [BitVec.toNat_setWidth, BitVec.toNat_ushiftRight, leadingTail_eq,
      Nat.shiftRight_eq_div_pow, Nat.mod_eq_of_lt (hcut.trans (by decide))]
    omega

/-- Numbers below `2 ^ -32`, zero among them, are shifted too far. -/
lemma float32ToFloat16_undefined (h : float32.exponent bit32.toNat < 95) :
    float32ToFloat16 bit32 = none := by
  unfold float32ToFloat16 shiftRight
  dsimp only
  rw [expBits_eq, toInt_exp (by omega), if_neg (by rw [FLOAT16_EXP_MAX]; omega),
    if_pos (by omega), shiftCount_eq (by omega), if_neg (by omega)]
  rfl

end Branches

/-! ## Truncation -/

/-- A pattern is converted to the truncation of what it denotes, without undefined behaviour. -/
def Converts (bit32 : BitVec 32) : Prop :=
  ∃ result, float32ToFloat16 bit32 = some result ∧
    float16.IsTruncation (float32.decode bit32.toNat) (float16.decode result.toNat)

lemma smallest_float16 : float16.smallest = 2 ^ 125 * float32.smallest := by
  unfold BinaryFormat.smallest BinaryFormat.bias float16 float32
  norm_num

lemma overflowsFrom_le_iff (n : ℕ) :
    float16.overflowsFrom ≤ (n : ℚ) * float32.smallest ↔ 2 ^ 165 ≤ n := by
  have hfrom : float16.overflowsFrom = ((2 ^ 165 : ℕ) : ℚ) * float32.smallest := by
    unfold BinaryFormat.overflowsFrom BinaryFormat.smallest BinaryFormat.bias float16 float32
    norm_num
  rw [hfrom, mul_le_mul_iff_left₀ float32.smallest_pos]
  exact Nat.cast_le

section Cases

variable {bit32 : BitVec 32} {result : BitVec 16}

/-- A number with a leading one. -/
lemma units_float32 (h : 1 ≤ float32.exponent bit32.toNat) :
    float32.units bit32.toNat =
      (2 ^ 23 + float32.tail bit32.toNat) * 2 ^ (float32.exponent bit32.toNat - 1) := by
  rw [BinaryFormat.units, BinaryFormat.significand, if_neg (by omega)]
  rfl

/-- A number below the overflow is converted to the greatest number below. -/
lemma isTruncation_cut {tail exponent s j : ℕ} (hexponent : 95 ≤ float32.exponent bit32.toNat)
    (hsmall : float32.exponent bit32.toNat ≤ 142)
    (hresult : result.toNat =
      float16.assemble (float32.negative bit32.toNat) exponent tail)
    (he : exponent < 31) (ht : tail < 2 ^ 10)
    (hunits : float16.units result.toNat =
      (2 ^ 23 + float32.tail bit32.toNat) / 2 ^ s * 2 ^ j)
    (hplaces : s + (float32.exponent bit32.toNat - 1 - j) = 125)
    (hj : j ≤ float32.exponent bit32.toNat - 1) (hlead : j = 0 ∨ s = 13) :
    float16.IsTruncation (float32.decode bit32.toNat) (float16.decode result.toNat) := by
  have htail := tail_lt bit32.toNat
  have hend : float32.exponentEnd = 255 := rfl
  have hend' : float16.exponentEnd = 31 := rfl
  have hexponent' : float16.exponent result.toNat = exponent := by
    rw [hresult]
    exact BinaryFormat.exponent_assemble (he.trans (by decide)) ht
  have hnegative : float16.negative result.toNat = float32.negative bit32.toNat := by
    rw [hresult]
    exact BinaryFormat.negative_assemble (he.trans (by decide)) ht
  have hsize : float32.units bit32.toNat < 2 ^ 165 := by
    rw [units_float32 (by omega)]
    calc (2 ^ 23 + float32.tail bit32.toNat) * 2 ^ (float32.exponent bit32.toNat - 1)
        < 2 ^ 24 * 2 ^ (float32.exponent bit32.toNat - 1) :=
          Nat.mul_lt_mul_of_pos_right (by omega) (Nat.two_pow_pos _)
      _ ≤ 2 ^ 24 * 2 ^ 141 :=
          Nat.mul_le_mul_left _ (Nat.pow_le_pow_right two_pos (by omega))
      _ = 2 ^ 165 := by norm_num
  have hmagnitude : float32.magnitude bit32.toNat =
      (((2 ^ 23 + float32.tail bit32.toNat) * 2 ^ j : ℕ) : ℚ) *
        (2 ^ (float32.exponent bit32.toNat - 1 - j) * float32.smallest) := by
    have hpow : (2 : ℚ) ^ (float32.exponent bit32.toNat - 1) =
        2 ^ j * 2 ^ (float32.exponent bit32.toNat - 1 - j) := by
      rw [← pow_add]
      congr 1
      omega
    rw [BinaryFormat.magnitude, units_float32 (by omega)]
    push_cast
    rw [hpow]
    ring
  have hunit : float16.smallest =
      2 ^ s * (2 ^ (float32.exponent bit32.toNat - 1 - j) * float32.smallest) := by
    rw [smallest_float16, ← mul_assoc, ← pow_add, hplaces]
  have hgreatest := BinaryFormat.isGreatest_cut hunit (by omega) hunits
    (hlead.imp_right fun hs => by rw [hs]; exact Nat.le_add_right _ _)
  have hdecode : float32.decode bit32.toNat =
      .finite (float32.negative bit32.toNat) (float32.magnitude bit32.toNat) := if_neg (by omega)
  have hdecode' : float16.decode result.toNat =
      .finite (float32.negative bit32.toNat) (float16.magnitude result.toNat) := by
    rw [← hnegative]
    exact if_neg (by omega)
  have hbelow : ¬ float16.overflowsFrom ≤ float32.magnitude bit32.toNat := by
    rw [BinaryFormat.magnitude, overflowsFrom_le_iff]
    omega
  rw [hdecode, hdecode', BinaryFormat.IsTruncation, if_neg hbelow]
  refine ⟨_, rfl, ?_⟩
  rw [hmagnitude]
  exact hgreatest

/-- A number or an infinity with a larger exponent is converted to an infinity. -/
lemma isTruncation_overflow_iff (h : 142 < float32.exponent bit32.toNat)
    (hresult : result.toNat = float16.assemble (float32.negative bit32.toNat) 31 0) :
    float16.IsTruncation (float32.decode bit32.toNat) (float16.decode result.toNat) ↔
      float32.decode bit32.toNat ≠ .nan := by
  have hdecode' : float16.decode result.toNat = .infinity (float32.negative bit32.toNat) := by
    have hexponent : float16.exponent
        (float16.assemble (float32.negative bit32.toNat) 31 0) = 31 :=
      BinaryFormat.exponent_assemble (by decide) (by decide)
    have htail : float16.tail (float16.assemble (float32.negative bit32.toNat) 31 0) = 0 :=
      BinaryFormat.tail_assemble (by decide)
    have hend : float16.exponentEnd = 31 := rfl
    rw [hresult, BinaryFormat.decode, if_pos (hexponent.trans hend.symm), if_pos htail,
      BinaryFormat.negative_assemble (by decide) (by decide)]
  rw [hdecode']
  unfold BinaryFormat.decode
  split_ifs with hend htail
  · exact iff_of_true rfl Datum.noConfusion
  · exact iff_of_false Datum.noConfusion (fun hne => hne rfl)
  · have hlarge : float16.overflowsFrom ≤ float32.magnitude bit32.toNat := by
      rw [BinaryFormat.magnitude, overflowsFrom_le_iff, units_float32 (by omega)]
      calc 2 ^ 165 = 2 ^ 23 * 2 ^ 142 := by norm_num
        _ ≤ (2 ^ 23 + float32.tail bit32.toNat) * 2 ^ (float32.exponent bit32.toNat - 1) :=
          Nat.mul_le_mul (Nat.le_add_right _ _) (Nat.pow_le_pow_right two_pos (by omega))
    refine iff_of_true ?_ Datum.noConfusion
    rw [BinaryFormat.IsTruncation, if_pos hlarge]

lemma converts_iff_of_overflow (h : 142 < float32.exponent bit32.toNat) :
    Converts bit32 ↔ float32.decode bit32.toNat ≠ .nan := by
  obtain ⟨r, hr, hresult⟩ := float32ToFloat16_overflow h
  have hiff := isTruncation_overflow_iff h hresult
  constructor
  · rintro ⟨result, hresult, htruncation⟩
    obtain rfl := Option.some.inj (hr.symm.trans hresult)
    exact hiff.mp htruncation
  · intro hnan
    exact ⟨r, hr, hiff.mpr hnan⟩

lemma not_converts_of_tiny (h : float32.exponent bit32.toNat < 95) : ¬ Converts bit32 := by
  rintro ⟨result, hresult, -⟩
  exact Option.some_ne_none _ (hresult.symm.trans (float32ToFloat16_undefined h))

lemma converts_of_normal (h : 112 < float32.exponent bit32.toNat)
    (h' : float32.exponent bit32.toNat ≤ 142) : Converts bit32 := by
  have htail := tail_lt bit32.toNat
  have hcut : float32.tail bit32.toNat / 2 ^ 13 < 2 ^ 10 := by omega
  obtain ⟨r, hr, hresult⟩ := float32ToFloat16_normal h h'
  refine ⟨r, hr, isTruncation_cut (s := 13) (j := float32.exponent bit32.toNat - 113)
    (by omega) h' hresult (by omega) hcut ?_ (by omega) (by omega) (Or.inr rfl)⟩
  have hexponent : float16.exponent r.toNat = float32.exponent bit32.toNat - 112 := by
    rw [hresult]
    exact BinaryFormat.exponent_assemble (show _ < 2 ^ 5 by omega) hcut
  have htail' : float16.tail r.toNat = float32.tail bit32.toNat / 2 ^ 13 := by
    rw [hresult]
    exact BinaryFormat.tail_assemble hcut
  have hsum : (2 ^ 23 + float32.tail bit32.toNat) / 2 ^ 13 =
      2 ^ float16.tailWidth + float32.tail bit32.toNat / 2 ^ 13 := by
    have hwidth : float16.tailWidth = 10 := rfl
    rw [hwidth]
    omega
  rw [BinaryFormat.units, BinaryFormat.significand, hexponent, htail', if_neg (by omega), hsum]
  congr 2

lemma converts_of_subnormal (h : 95 ≤ float32.exponent bit32.toNat)
    (h' : float32.exponent bit32.toNat ≤ 112) : Converts bit32 := by
  have hcut := cut_lt bit32 h'
  obtain ⟨r, hr, hresult⟩ := float32ToFloat16_subnormal h h'
  refine ⟨r, hr, isTruncation_cut (s := 126 - float32.exponent bit32.toNat) (j := 0) h
    (by omega) hresult (by decide) hcut ?_ (by omega) (Nat.zero_le _) (Or.inl rfl)⟩
  have hexponent : float16.exponent r.toNat = 0 := by
    rw [hresult]
    exact BinaryFormat.exponent_assemble (by decide) hcut
  have htail : float16.tail r.toNat = (2 ^ 23 + float32.tail bit32.toNat) /
      2 ^ (126 - float32.exponent bit32.toNat) := by
    rw [hresult]
    exact BinaryFormat.tail_assemble hcut
  rw [BinaryFormat.units, BinaryFormat.significand, hexponent, htail, if_pos rfl]

lemma converts_of_le (hnan : float32.decode bit32.toNat ≠ .nan)
    (h : 95 ≤ float32.exponent bit32.toNat) : Converts bit32 := by
  rcases Nat.lt_or_ge 142 (float32.exponent bit32.toNat) with hover | hsmall
  · exact (converts_iff_of_overflow hover).mpr hnan
  · rcases Nat.lt_or_ge 112 (float32.exponent bit32.toNat) with hnormal | hsub
    · exact converts_of_normal hnormal hsmall
    · exact converts_of_subnormal h hsub

end Cases

/-- The conversion is right exactly on the patterns of numbers and infinities whose exponent is not
below `-32`. -/
theorem converts_iff (bit32 : BitVec 32) :
    Converts bit32 ↔
      float32.decode bit32.toNat ≠ .nan ∧ 95 ≤ float32.exponent bit32.toNat := by
  rcases Nat.lt_or_ge 142 (float32.exponent bit32.toNat) with hover | hsmall
  · rw [converts_iff_of_overflow hover]
    exact (and_iff_left (by omega)).symm
  · have hfinite : float32.decode bit32.toNat ≠ .nan := by
      have hend : float32.exponentEnd = 255 := rfl
      rw [BinaryFormat.decode, if_neg (by omega)]
      exact Datum.noConfusion
    rcases Nat.lt_or_ge (float32.exponent bit32.toNat) 95 with htiny | hshift
    · exact iff_of_false (not_converts_of_tiny htiny) fun h => absurd h.2 (Nat.not_le.mpr htiny)
    · exact iff_of_true (converts_of_le hfinite hshift) ⟨hfinite, hshift⟩

/-- The quiet pattern that is not a number becomes an infinity, and zero is shifted too far. -/
theorem not_converts_nan : ¬ Converts 0x7FC00000#32 ∧ ¬ Converts 0#32 := by
  refine ⟨fun h => ?_, not_converts_of_tiny (by decide)⟩
  refine (converts_iff_of_overflow (by decide)).mp h ?_
  rw [BinaryFormat.decode, if_pos (by decide), if_neg (by decide)]

/-! ## Order -/

/-- The conversion keeps the order of all numbers and infinities that it is defined for. -/
theorem float32ToFloat16_le (a b : BitVec 32) (ha : 95 ≤ float32.exponent a.toNat)
    (hb : 95 ≤ float32.exponent b.toNat)
    (hle : (float32.decode a.toNat).Le (float32.decode b.toNat)) :
    ∃ r s, float32ToFloat16 a = some r ∧ float32ToFloat16 b = some s ∧
      (float16.decode r.toNat).Le (float16.decode s.toNat) := by
  obtain ⟨r, hr, hra⟩ := converts_of_le hle.left_ne_nan ha
  obtain ⟨s, hs, hsb⟩ := converts_of_le hle.right_ne_nan hb
  refine ⟨r, s, hr, hs, hra.le hsb hle ?_ ?_⟩
  · exact fun negative m => BinaryFormat.nonneg_of_decode
  · exact fun negative m => BinaryFormat.nonneg_of_decode

/-- One is below two after the conversion as well. -/
theorem float32ToFloat16_one_le_two :
    ∃ r s, float32ToFloat16 0x3F800000#32 = some r ∧ float32ToFloat16 0x40000000#32 = some s ∧
      (float16.decode r.toNat).Le (float16.decode s.toNat) := by
  refine float32ToFloat16_le _ _ (by decide) (by decide) ?_
  rw [BinaryFormat.decode, BinaryFormat.decode, if_neg (by decide), if_neg (by decide)]
  have hunits : float32.units 0x3F800000 ≤ float32.units 0x40000000 := by decide +kernel
  exact mul_le_mul_of_nonneg_right (Nat.cast_le.mpr hunits) float32.smallest_pos.le

end Cangjie.FloatFormat
