import Mathlib.Tactic

/-!
# Fixed-width words and the integers they stand for

A word of `w` bits stands for an integer in one of two ways, unsigned or two's complement.
The file treats both readings at once: `value uns v` is the reading, `least` and `greatest`
are its ends, and a word is recovered from its reading by `BitVec.ofInt`.

The lemma `toNat_sub_eq` is the one the circular ranges rest on.  The distance from one word to
another, going upwards, is the same number in both readings, up to one turn of the circle.
-/

namespace FixedWidth

variable {w : ℕ}

/-- The integer a word stands for. -/
def value (uns : Bool) (v : BitVec w) : ℤ := if uns then (v.toNat : ℤ) else v.toInt

/-- The smallest integer a word of `w` bits stands for. -/
def least (w : ℕ) (uns : Bool) : ℤ := if uns then 0 else -2 ^ (w - 1)

/-- The largest integer a word of `w` bits stands for. -/
def greatest (w : ℕ) (uns : Bool) : ℤ := if uns then 2 ^ w - 1 else 2 ^ (w - 1) - 1

/-- The integer is the reading of some word. -/
def Representable (w : ℕ) (uns : Bool) (z : ℤ) : Prop := least w uns ≤ z ∧ z ≤ greatest w uns

instance (w : ℕ) (uns : Bool) (z : ℤ) : Decidable (Representable w uns z) := by
  unfold Representable; infer_instance

/-- The representable integer closest to `z`. -/
def clamp (w : ℕ) (uns : Bool) (z : ℤ) : ℤ := max (least w uns) (min (greatest w uns) z)

/-! ## The two ends -/

theorem two_pow_eq (hw : 0 < w) : (2 : ℤ) ^ w = 2 * 2 ^ (w - 1) := by
  obtain ⟨n, rfl⟩ : ∃ n, w = n + 1 := ⟨w - 1, by omega⟩
  rw [Nat.add_sub_cancel, pow_succ, mul_comm]

theorem greatest_eq (hw : 0 < w) (uns : Bool) : greatest w uns = least w uns + 2 ^ w - 1 := by
  have h := two_pow_eq hw
  cases uns
  · simp only [greatest, least, Bool.false_eq_true, if_false]
    omega
  · simp [greatest, least]

theorem least_nonpos (w : ℕ) (uns : Bool) : least w uns ≤ 0 := by
  have h : (0 : ℤ) < 2 ^ (w - 1) := by positivity
  cases uns
  · simp only [least, Bool.false_eq_true, if_false]
    omega
  · simp [least]

theorem greatest_nonneg (w : ℕ) (uns : Bool) : 0 ≤ greatest w uns := by
  have h : (0 : ℤ) < 2 ^ (w - 1) := by positivity
  have h' : (0 : ℤ) < 2 ^ w := by positivity
  cases uns
  · simp only [greatest, Bool.false_eq_true, if_false]
    omega
  · simp only [greatest, if_true]
    omega

theorem least_lt_greatest (hw : 0 < w) (uns : Bool) : least w uns < greatest w uns := by
  have hends := greatest_eq hw uns
  have hpow : (1 : ℤ) < 2 ^ w := one_lt_pow₀ (by norm_num) (by omega)
  omega

@[simp] theorem least_true (w : ℕ) : least w true = 0 := rfl

@[simp] theorem least_false (w : ℕ) : least w false = -2 ^ (w - 1) := rfl

@[simp] theorem greatest_true (w : ℕ) : greatest w true = 2 ^ w - 1 := rfl

@[simp] theorem greatest_false (w : ℕ) : greatest w false = 2 ^ (w - 1) - 1 := rfl

@[simp] theorem value_true (v : BitVec w) : value true v = v.toNat := rfl

@[simp] theorem value_false (v : BitVec w) : value false v = v.toInt := rfl

/-! ## Words and integers -/

theorem value_representable (uns : Bool) (v : BitVec w) :
    Representable w uns (value uns v) := by
  cases uns
  · have hlo := BitVec.le_toInt v
    have hhi := BitVec.toInt_lt (x := v)
    exact ⟨hlo, Int.le_sub_one_of_lt hhi⟩
  · have hv := v.isLt
    have hpow : ((2 ^ w : ℕ) : ℤ) = 2 ^ w := by push_cast; rfl
    refine ⟨?_, ?_⟩
    · simp
    · rw [value_true, greatest_true, ← hpow]
      omega

theorem least_le_value (uns : Bool) (v : BitVec w) : least w uns ≤ value uns v :=
  (value_representable uns v).1

theorem value_le_greatest (uns : Bool) (v : BitVec w) :
    value uns v ≤ greatest w uns :=
  (value_representable uns v).2

/-- A word is recovered from its reading. -/
@[simp] theorem ofInt_value (uns : Bool) (v : BitVec w) : BitVec.ofInt w (value uns v) = v := by
  cases uns
  · exact BitVec.ofInt_toInt
  · rw [value_true, BitVec.ofInt_natCast, BitVec.ofNat_toNat, BitVec.setWidth_eq]

theorem value_injective (uns : Bool) {a b : BitVec w} (h : value uns a = value uns b) : a = b := by
  rw [← ofInt_value uns a, h, ofInt_value]

/-- A representable integer is recovered from its word. -/
theorem value_ofInt (hw : 0 < w) {uns : Bool} {z : ℤ} (hz : Representable w uns z) :
    value uns (BitVec.ofInt w z) = z := by
  obtain ⟨hlo, hhi⟩ := hz
  cases uns
  · rw [least_false] at hlo
    rw [greatest_false] at hhi
    exact BitVec.toInt_ofInt_eq_self hw hlo (by omega)
  · rw [least_true] at hlo
    rw [greatest_true] at hhi
    have hcast : ((2 ^ w : ℕ) : ℤ) = 2 ^ w := by push_cast; rfl
    rw [value_true, BitVec.toNat_ofInt, hcast, Int.toNat_of_nonneg (Int.emod_nonneg _ (by positivity))]
    exact Int.emod_eq_of_lt hlo (by omega)

/-- Integers one turn apart have the same word. -/
theorem ofInt_add_two_pow (z : ℤ) : BitVec.ofInt w (z + 2 ^ w) = BitVec.ofInt w z := by
  apply BitVec.eq_of_toNat_eq
  rw [BitVec.toNat_ofInt, BitVec.toNat_ofInt]
  push_cast
  rw [Int.add_emod_right]

theorem ofInt_sub_two_pow (z : ℤ) : BitVec.ofInt w (z - 2 ^ w) = BitVec.ofInt w z := by
  rw [← ofInt_add_two_pow (z - 2 ^ w), sub_add_cancel]

theorem ofInt_sub (a b : ℤ) : BitVec.ofInt w (a - b) = BitVec.ofInt w a - BitVec.ofInt w b := by
  rw [sub_eq_add_neg, BitVec.ofInt_add, BitVec.ofInt_neg, BitVec.sub_eq_add_neg]

/-- The reading of the word of an integer differs from the integer by whole turns. -/
theorem value_ofInt_congr (uns : Bool) (z : ℤ) :
    ∃ k : ℤ, value uns (BitVec.ofInt w z) = z + 2 ^ w * k := by
  have hword : BitVec.ofInt w (value uns (BitVec.ofInt w z)) = BitVec.ofInt w z :=
    ofInt_value uns _
  have hmod : value uns (BitVec.ofInt w z) % 2 ^ w = z % 2 ^ w := by
    have hnat := congrArg (fun v : BitVec w => (v.toNat : ℤ)) hword
    simp only [BitVec.toNat_ofInt] at hnat
    push_cast at hnat
    rwa [Int.toNat_of_nonneg (Int.emod_nonneg _ (by positivity)),
      Int.toNat_of_nonneg (Int.emod_nonneg _ (by positivity))] at hnat
  have hcongr : value uns (BitVec.ofInt w z) ≡ z [ZMOD 2 ^ w] := hmod
  obtain ⟨k, hk⟩ := hcongr.symm.dvd
  exact ⟨k, by omega⟩

/-- The reading of the word of an integer at most one turn away from the representable ones. -/
theorem value_ofInt_cases (hw : 0 < w) (uns : Bool) {z : ℤ} (hlo : least w uns - 2 ^ w ≤ z)
    (hhi : z ≤ greatest w uns + 2 ^ w) :
    Representable w uns z ∧ value uns (BitVec.ofInt w z) = z ∨
      greatest w uns < z ∧ value uns (BitVec.ofInt w z) = z - 2 ^ w ∨
      z < least w uns ∧ value uns (BitVec.ofInt w z) = z + 2 ^ w := by
  have hends := greatest_eq hw uns
  rcases lt_or_ge z (least w uns) with hlt | hge
  · right
    right
    rw [← ofInt_add_two_pow]
    exact ⟨hlt, value_ofInt hw ⟨by omega, by omega⟩⟩
  · rcases lt_or_ge (greatest w uns) z with hgt | hle
    · right
      left
      rw [← ofInt_sub_two_pow]
      exact ⟨hgt, value_ofInt hw ⟨by omega, by omega⟩⟩
    · left
      exact ⟨⟨hge, hle⟩, value_ofInt hw ⟨hge, hle⟩⟩

theorem ofInt_one (w : ℕ) : BitVec.ofInt w 1 = 1#w := rfl

theorem ofInt_zero (w : ℕ) : BitVec.ofInt w 0 = 0#w := rfl

theorem add_eq_ofInt (uns : Bool) (a b : BitVec w) :
    a + b = BitVec.ofInt w (value uns a + value uns b) := by
  rw [BitVec.ofInt_add, ofInt_value, ofInt_value]

theorem sub_eq_ofInt (uns : Bool) (a b : BitVec w) :
    a - b = BitVec.ofInt w (value uns a - value uns b) := by
  rw [ofInt_sub, ofInt_value, ofInt_value]

theorem neg_eq_ofInt (uns : Bool) (a : BitVec w) : -a = BitVec.ofInt w (-value uns a) := by
  rw [BitVec.ofInt_neg, ofInt_value]

theorem mul_eq_ofInt (uns : Bool) (a b : BitVec w) :
    a * b = BitVec.ofInt w (value uns a * value uns b) := by
  rw [BitVec.ofInt_mul, ofInt_value, ofInt_value]

/-- The two readings of a word agree, or differ by one turn. -/
theorem value_false_eq (hw : 0 < w) (v : BitVec w) :
    value false v = value true v ∧ value true v < 2 ^ (w - 1) ∨
      value false v = value true v - 2 ^ w ∧ (2 : ℤ) ^ (w - 1) ≤ value true v := by
  have hpow := two_pow_eq hw
  have hcast : ((2 ^ w : ℕ) : ℤ) = 2 ^ w := by push_cast; rfl
  have hcond := BitVec.toInt_eq_toNat_cond v
  rw [value_false, value_true]
  split_ifs at hcond with hlt
  · left
    omega
  · right
    omega

/-- The upward distance between two words, in either reading. -/
theorem toNat_sub_eq (hw : 0 < w) (uns : Bool) (a b : BitVec w) :
    ((b - a).toNat : ℤ) =
      if value uns a ≤ value uns b then value uns b - value uns a
      else value uns b - value uns a + 2 ^ w := by
  have hga := value_representable uns a
  have hgb := value_representable uns b
  have hends := greatest_eq hw uns
  obtain ⟨ha₁, ha₂⟩ := hga
  obtain ⟨hb₁, hb₂⟩ := hgb
  split_ifs with hle
  · rw [sub_eq_ofInt uns b a, ← value_true]
    refine value_ofInt hw ⟨?_, ?_⟩
    · rw [least_true]
      omega
    · rw [greatest_true]
      omega
  · rw [sub_eq_ofInt uns b a, ← ofInt_add_two_pow, ← value_true]
    refine value_ofInt hw ⟨?_, ?_⟩
    · rw [least_true]
      omega
    · rw [greatest_true]
      omega

/-! ## Clamping -/

theorem clamp_representable (w : ℕ) (uns : Bool) (z : ℤ) :
    Representable w uns (clamp w uns z) := by
  have h : least w uns ≤ greatest w uns :=
    (least_nonpos w uns).trans (greatest_nonneg w uns)
  exact ⟨le_max_left _ _, max_le h (min_le_left _ _)⟩

theorem clamp_eq_self {uns : Bool} {z : ℤ} (hz : Representable w uns z) :
    clamp w uns z = z := by
  rw [clamp, min_eq_right hz.2, max_eq_right hz.1]

theorem clamp_eq_least {uns : Bool} {z : ℤ} (hz : z < least w uns) :
    clamp w uns z = least w uns := by
  rw [clamp]
  exact max_eq_left ((min_le_right _ _).trans hz.le)

theorem clamp_eq_greatest {uns : Bool} {z : ℤ} (hz : greatest w uns < z) :
    clamp w uns z = greatest w uns := by
  rw [clamp, min_eq_left hz.le]
  exact max_eq_right ((least_nonpos w uns).trans (greatest_nonneg w uns))

theorem clamp_mono (w : ℕ) (uns : Bool) {y z : ℤ} (h : y ≤ z) :
    clamp w uns y ≤ clamp w uns z :=
  max_le_max le_rfl (min_le_min le_rfl h)

/-! ## The value of a sum, a difference and a negation -/

theorem value_add (hw : 0 < w) {uns : Bool} {a b : BitVec w}
    (h : Representable w uns (value uns a + value uns b)) :
    value uns (a + b) = value uns a + value uns b := by
  rw [add_eq_ofInt uns, value_ofInt hw h]

theorem value_sub (hw : 0 < w) {uns : Bool} {a b : BitVec w}
    (h : Representable w uns (value uns a - value uns b)) :
    value uns (a - b) = value uns a - value uns b := by
  rw [sub_eq_ofInt uns, value_ofInt hw h]

theorem value_neg (hw : 0 < w) {uns : Bool} {a : BitVec w}
    (h : Representable w uns (-value uns a)) : value uns (-a) = -value uns a := by
  rw [neg_eq_ofInt uns, value_ofInt hw h]

theorem value_mul (hw : 0 < w) {uns : Bool} {a b : BitVec w}
    (h : Representable w uns (value uns a * value uns b)) :
    value uns (a * b) = value uns a * value uns b := by
  rw [mul_eq_ofInt uns, value_ofInt hw h]

@[simp] theorem value_zero (uns : Bool) : value uns (0#w) = 0 := by
  cases uns <;> simp

theorem value_one (hw : 1 < w) (uns : Bool) : value uns (1 : BitVec w) = 1 := by
  have hpow : (2 : ℤ) ≤ 2 ^ (w - 1) := by
    calc (2 : ℤ) = 2 ^ 1 := by norm_num
      _ ≤ 2 ^ (w - 1) := pow_le_pow_right₀ (by norm_num) (by omega)
  have hfull := two_pow_eq (show 0 < w by omega)
  rw [show (1 : BitVec w) = BitVec.ofInt w 1 from rfl]
  refine value_ofInt (by omega) ⟨?_, ?_⟩
  · exact (least_nonpos w uns).trans zero_le_one
  · cases uns
    · rw [greatest_false]
      omega
    · rw [greatest_true]
      omega

/-- The value of a sum: exact, or one turn off. -/
theorem value_add_cases (hw : 0 < w) (uns : Bool) (a b : BitVec w) :
    Representable w uns (value uns a + value uns b) ∧
        value uns (a + b) = value uns a + value uns b ∨
      greatest w uns < value uns a + value uns b ∧
        value uns (a + b) = value uns a + value uns b - 2 ^ w ∨
      value uns a + value uns b < least w uns ∧
        value uns (a + b) = value uns a + value uns b + 2 ^ w := by
  obtain ⟨ha₁, ha₂⟩ := value_representable uns a
  obtain ⟨hb₁, hb₂⟩ := value_representable uns b
  have hends := greatest_eq hw uns
  have hlo := least_nonpos w uns
  have hhi := greatest_nonneg w uns
  rw [add_eq_ofInt uns a b]
  exact value_ofInt_cases hw uns (by omega) (by omega)

/-- The value of a difference: exact, or one turn off. -/
theorem value_sub_cases (hw : 0 < w) (uns : Bool) (a b : BitVec w) :
    Representable w uns (value uns a - value uns b) ∧
        value uns (a - b) = value uns a - value uns b ∨
      greatest w uns < value uns a - value uns b ∧
        value uns (a - b) = value uns a - value uns b - 2 ^ w ∨
      value uns a - value uns b < least w uns ∧
        value uns (a - b) = value uns a - value uns b + 2 ^ w := by
  obtain ⟨ha₁, ha₂⟩ := value_representable uns a
  obtain ⟨hb₁, hb₂⟩ := value_representable uns b
  have hends := greatest_eq hw uns
  have hlo := least_nonpos w uns
  have hhi := greatest_nonneg w uns
  rw [sub_eq_ofInt uns a b]
  exact value_ofInt_cases hw uns (by omega) (by omega)

/-- The successor of a word, with the turn from the largest to the smallest. -/
theorem value_add_one_cases (hw : 1 < w) (uns : Bool) (a : BitVec w) :
    value uns a < greatest w uns ∧ value uns (a + 1) = value uns a + 1 ∨
      value uns a = greatest w uns ∧ value uns (a + 1) = least w uns := by
  have hone := value_one hw uns
  have hcases := value_add_cases (show 0 < w by omega) uns a 1
  have hends := greatest_eq (show 0 < w by omega) uns
  obtain ⟨ha₁, ha₂⟩ := value_representable uns a
  rw [hone] at hcases
  rcases hcases with ⟨hrep, hval⟩ | ⟨hover, hval⟩ | ⟨hunder, -⟩
  · exact Or.inl ⟨by have := hrep.2; omega, hval⟩
  · exact Or.inr ⟨by omega, by rw [hval]; omega⟩
  · omega

/-- The predecessor of a word, with the turn from the smallest to the largest. -/
theorem value_sub_one_cases (hw : 1 < w) (uns : Bool) (a : BitVec w) :
    least w uns < value uns a ∧ value uns (a - 1) = value uns a - 1 ∨
      value uns a = least w uns ∧ value uns (a - 1) = greatest w uns := by
  have hone := value_one hw uns
  have hcases := value_sub_cases (show 0 < w by omega) uns a 1
  have hends := greatest_eq (show 0 < w by omega) uns
  obtain ⟨ha₁, ha₂⟩ := value_representable uns a
  rw [hone] at hcases
  rcases hcases with ⟨hrep, hval⟩ | ⟨hover, -⟩ | ⟨hunder, hval⟩
  · exact Or.inl ⟨by have := hrep.1; omega, hval⟩
  · omega
  · exact Or.inr ⟨by omega, by rw [hval]; omega⟩

theorem value_add_one (hw : 1 < w) {uns : Bool} {a : BitVec w}
    (h : value uns a < greatest w uns) : value uns (a + 1) = value uns a + 1 := by
  rcases value_add_one_cases hw uns a with ⟨-, hval⟩ | ⟨htop, -⟩
  · exact hval
  · exact absurd htop h.ne

theorem value_sub_one (hw : 1 < w) {uns : Bool} {a : BitVec w}
    (h : least w uns < value uns a) : value uns (a - 1) = value uns a - 1 := by
  rcases value_sub_one_cases hw uns a with ⟨-, hval⟩ | ⟨hbot, -⟩
  · exact hval
  · exact absurd hbot h.ne'

end FixedWidth
