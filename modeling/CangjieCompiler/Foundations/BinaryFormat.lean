import Mathlib

/-!
# Binary floating-point formats

A pattern of a binary interchange format has a tail, an exponent and a sign.  The largest exponent
stands for the infinities and for what is not a number, the other patterns denote a sign and a
magnitude.  Every finite magnitude is a multiple of the smallest one that is positive, and cutting
numbers off keeps their order.
-/

namespace BinaryFormats

/-- The widths of the exponent and of the tail. -/
structure BinaryFormat where
  exponentWidth : ℕ
  tailWidth : ℕ

/-- What a pattern denotes; the zeros have signs. -/
inductive Datum where
  | nan
  | infinity (negative : Bool)
  | finite (negative : Bool) (magnitude : ℚ)

namespace BinaryFormat

variable (F : BinaryFormat)

/-! ## Patterns -/

def tail (bits : ℕ) : ℕ := bits % 2 ^ F.tailWidth

def exponent (bits : ℕ) : ℕ := bits / 2 ^ F.tailWidth % 2 ^ F.exponentWidth

def negative (bits : ℕ) : Bool := bits / 2 ^ F.tailWidth / 2 ^ F.exponentWidth % 2 = 1

/-- The exponent that stands for no number. -/
def exponentEnd : ℕ := 2 ^ F.exponentWidth - 1

def bias : ℕ := 2 ^ (F.exponentWidth - 1) - 1

/-- The smallest magnitude above zero. -/
def smallest : ℚ := 2 ^ (1 - (F.bias : ℤ) - F.tailWidth)

/-- The tail with the leading one, which the smallest exponent does not have. -/
def significand (bits : ℕ) : ℕ :=
  if F.exponent bits = 0 then F.tail bits else 2 ^ F.tailWidth + F.tail bits

/-- A magnitude as a multiple of the smallest one. -/
def units (bits : ℕ) : ℕ := F.significand bits * 2 ^ (F.exponent bits - 1)

def magnitude (bits : ℕ) : ℚ := F.units bits * F.smallest

/-- What a pattern denotes. -/
def decode (bits : ℕ) : Datum :=
  if F.exponent bits = F.exponentEnd then
    if F.tail bits = 0 then .infinity (F.negative bits) else .nan
  else .finite (F.negative bits) (F.magnitude bits)

/-- The magnitudes that the format has. -/
def IsMagnitude (m : ℚ) : Prop := ∃ bits negative, F.decode bits = .finite negative m

/-- The magnitude from which on the exponent is beyond the range of the format. -/
def overflowsFrom : ℚ := 2 ^ (F.bias + 1)

/-- A datum brought into the format by cutting off what the tail has no place for. -/
def IsTruncation : Datum → Datum → Prop
  | .nan, y => y = .nan
  | .infinity negative, y => y = .infinity negative
  | .finite negative m, y =>
    if F.overflowsFrom ≤ m then y = .infinity negative
    else ∃ m', y = .finite negative m' ∧ IsGreatest { w | F.IsMagnitude w ∧ w ≤ m } m'

/-! ## Assembled patterns -/

variable {F} {negative : Bool} {exponent tail : ℕ}

/-- The pattern with given parts. -/
def assemble (F : BinaryFormat) (negative : Bool) (exponent tail : ℕ) : ℕ :=
  (negative.toNat * 2 ^ F.exponentWidth + exponent) * 2 ^ F.tailWidth + tail

lemma assemble_div (ht : tail < 2 ^ F.tailWidth) :
    F.assemble negative exponent tail / 2 ^ F.tailWidth =
      negative.toNat * 2 ^ F.exponentWidth + exponent := by
  rw [assemble, Nat.add_comm, Nat.add_mul_div_right _ _ (Nat.two_pow_pos _), Nat.div_eq_of_lt ht,
    Nat.zero_add]

lemma tail_assemble (ht : tail < 2 ^ F.tailWidth) :
    F.tail (F.assemble negative exponent tail) = tail := by
  rw [BinaryFormat.tail, assemble, Nat.add_comm, Nat.add_mul_mod_self_right, Nat.mod_eq_of_lt ht]

lemma exponent_assemble (he : exponent < 2 ^ F.exponentWidth) (ht : tail < 2 ^ F.tailWidth) :
    F.exponent (F.assemble negative exponent tail) = exponent := by
  rw [BinaryFormat.exponent, assemble_div ht, Nat.add_comm, Nat.add_mul_mod_self_right,
    Nat.mod_eq_of_lt he]

lemma negative_assemble (he : exponent < 2 ^ F.exponentWidth) (ht : tail < 2 ^ F.tailWidth) :
    F.negative (F.assemble negative exponent tail) = negative := by
  rw [BinaryFormat.negative, assemble_div ht, Nat.add_comm,
    Nat.add_mul_div_right _ _ (Nat.two_pow_pos _), Nat.div_eq_of_lt he, Nat.zero_add]
  cases negative <;> rfl

/-! ## Truncation -/

lemma significand_lt (bits : ℕ) : F.significand bits < 2 ^ (F.tailWidth + 1) := by
  have htail : F.tail bits < 2 ^ F.tailWidth := Nat.mod_lt _ (Nat.two_pow_pos _)
  rw [significand, Nat.pow_succ]
  split_ifs <;> omega

lemma smallest_pos : 0 < F.smallest := zpow_pos two_pos _

/-- Cutting off low digits of a number of units leaves the largest number of units with a short
significand: the digits are all there, or the significand has its leading one. -/
theorem le_cut {t s S j sig k : ℕ} (hlead : j = 0 ∨ 2 ^ (t + s) ≤ S) (hsig : sig < 2 ^ (t + 1))
    (h : sig * 2 ^ k * 2 ^ s ≤ S * 2 ^ j) : sig * 2 ^ k ≤ S / 2 ^ s * 2 ^ j := by
  rcases Nat.lt_or_ge k j with hlt | hge
  · -- The other number has a smaller exponent, so that the leading one decides.
    have hS : 2 ^ (t + s) ≤ S := hlead.resolve_left (by omega)
    have hquotient : 2 ^ t ≤ S / 2 ^ s := by
      rw [Nat.le_div_iff_mul_le (Nat.two_pow_pos _), ← Nat.pow_add]
      exact hS
    calc sig * 2 ^ k ≤ 2 ^ (t + 1) * 2 ^ k := Nat.mul_le_mul_right _ hsig.le
      _ = 2 ^ t * 2 ^ (k + 1) := by rw [Nat.pow_succ, Nat.pow_succ]; ring
      _ ≤ 2 ^ t * 2 ^ j := Nat.mul_le_mul_left _ (Nat.pow_le_pow_right two_pos hlt)
      _ ≤ S / 2 ^ s * 2 ^ j := Nat.mul_le_mul_right _ hquotient
  · -- The other number is a multiple of the unit of the cut.
    obtain ⟨d, rfl⟩ := Nat.exists_eq_add_of_le hge
    have hcancel : sig * 2 ^ d * 2 ^ s ≤ S := by
      refine Nat.le_of_mul_le_mul_right (c := 2 ^ j) ?_ (Nat.two_pow_pos _)
      calc sig * 2 ^ d * 2 ^ s * 2 ^ j = sig * 2 ^ (j + d) * 2 ^ s := by rw [Nat.pow_add]; ring
        _ ≤ S * 2 ^ j := h
    have hquotient : sig * 2 ^ d ≤ S / 2 ^ s :=
      (Nat.le_div_iff_mul_le (Nat.two_pow_pos _)).mpr hcancel
    calc sig * 2 ^ (j + d) = sig * 2 ^ d * 2 ^ j := by rw [Nat.pow_add]; ring
      _ ≤ S / 2 ^ s * 2 ^ j := Nat.mul_le_mul_right _ hquotient

/-- A magnitude of a format is the number of units of one of its patterns. -/
lemma IsMagnitude.units {w : ℚ} (h : F.IsMagnitude w) :
    ∃ sig k, sig < 2 ^ (F.tailWidth + 1) ∧ w = ((sig * 2 ^ k : ℕ) : ℚ) * F.smallest := by
  obtain ⟨bits, negative, hdecode⟩ := h
  unfold decode at hdecode
  split_ifs at hdecode
  cases hdecode
  exact ⟨F.significand bits, F.exponent bits - 1, significand_lt bits, rfl⟩

/-- A pattern whose significand is another one cut off has the greatest magnitude below. -/
theorem isGreatest_cut {bits S s j : ℕ} {unit : ℚ} (hunit : F.smallest = 2 ^ s * unit)
    (hfinite : F.exponent bits ≠ F.exponentEnd) (hunits : F.units bits = S / 2 ^ s * 2 ^ j)
    (hlead : j = 0 ∨ 2 ^ (F.tailWidth + s) ≤ S) :
    IsGreatest { w | F.IsMagnitude w ∧ w ≤ ((S * 2 ^ j : ℕ) : ℚ) * unit } (F.magnitude bits) := by
  have hpos : 0 < unit := by
    have h : 0 < 2 ^ s * unit := hunit ▸ F.smallest_pos
    exact pos_of_mul_pos_right h (by positivity)
  -- Both sides are compared as numbers of the smaller unit.
  have hle (n : ℕ) : (n : ℚ) * F.smallest ≤ ((S * 2 ^ j : ℕ) : ℚ) * unit ↔
      n * 2 ^ s ≤ S * 2 ^ j := by
    have hscale : (n : ℚ) * F.smallest = ((n * 2 ^ s : ℕ) : ℚ) * unit := by
      rw [hunit]
      push_cast
      ring
    rw [hscale, mul_le_mul_iff_left₀ hpos]
    exact Nat.cast_le
  refine ⟨⟨⟨bits, F.negative bits, if_neg hfinite⟩, ?_⟩, ?_⟩
  · rw [magnitude, hle, hunits]
    calc S / 2 ^ s * 2 ^ j * 2 ^ s = S / 2 ^ s * 2 ^ s * 2 ^ j := by ring
      _ ≤ S * 2 ^ j := Nat.mul_le_mul_right _ (Nat.div_mul_le_self _ _)
  · rintro w ⟨hw, hwle⟩
    obtain ⟨sig, k, hsig, rfl⟩ := hw.units
    rw [magnitude, hunits]
    refine mul_le_mul_of_nonneg_right ?_ F.smallest_pos.le
    exact Nat.cast_le.mpr (le_cut hlead hsig ((hle _).mp hwle))

end BinaryFormat

/-! ## Order -/

/-- The number that a sign and a magnitude stand for. -/
def signed (negative : Bool) (m : ℚ) : ℚ := if negative then -m else m

/-- The order of numbers and infinities.  What is not a number is not compared. -/
def Datum.Le : Datum → Datum → Prop
  | .nan, _ => False
  | _, .nan => False
  | .infinity true, _ => True
  | _, .infinity false => True
  | .finite negative m, .finite negative' m' => signed negative m ≤ signed negative' m'
  | _, _ => False

lemma Datum.Le.left_ne_nan {x y : Datum} (h : x.Le y) : x ≠ .nan := by
  rintro rfl
  exact h

lemma Datum.Le.right_ne_nan {x y : Datum} (h : x.Le y) : y ≠ .nan := by
  rintro rfl
  cases x <;> exact h

lemma Datum.infinity_le {y : Datum} (hy : y ≠ .nan) : (infinity true).Le y := by
  cases y with
  | nan => exact absurd rfl hy
  | infinity negative => trivial
  | finite negative m => trivial

lemma Datum.le_infinity {x : Datum} (hx : x ≠ .nan) : x.Le (infinity false) := by
  rcases x with _ | ⟨_ | _⟩ | ⟨negative, m⟩
  · exact absurd rfl hx
  · trivial
  · trivial
  · trivial

namespace BinaryFormat

variable {F : BinaryFormat}

lemma IsMagnitude.nonneg {w : ℚ} (h : F.IsMagnitude w) : 0 ≤ w := by
  obtain ⟨sig, k, -, rfl⟩ := h.units
  exact mul_nonneg (Nat.cast_nonneg _) F.smallest_pos.le

lemma nonneg_of_decode {bits : ℕ} {negative : Bool} {m : ℚ}
    (h : F.decode bits = .finite negative m) : 0 ≤ m :=
  IsMagnitude.nonneg ⟨bits, negative, h⟩

/-- A magnitude is cut off to a datum with the same sign. -/
lemma IsTruncation.sign {negative : Bool} {m : ℚ} {x : Datum}
    (h : F.IsTruncation (.finite negative m) x) :
    x = .infinity negative ∧ 0 < m ∨ ∃ m', x = .finite negative m' ∧ 0 ≤ m' ∧ m' ≤ m := by
  rw [IsTruncation] at h
  split_ifs at h with hover
  · exact Or.inl ⟨h, (pow_pos two_pos _).trans_le hover⟩
  · obtain ⟨m', rfl, ⟨hmagnitude, hle⟩, -⟩ := h
    exact Or.inr ⟨m', rfl, hmagnitude.nonneg, hle⟩

lemma IsTruncation.ne_nan {x x' : Datum} (hx : x ≠ .nan) (h : F.IsTruncation x x') :
    x' ≠ .nan := by
  cases x with
  | nan => exact absurd rfl hx
  | infinity negative =>
    rw [show x' = .infinity negative from h]
    exact Datum.noConfusion
  | finite negative m =>
    obtain ⟨rfl, -⟩ | ⟨m', rfl, -⟩ := h.sign
    · exact Datum.noConfusion
    · exact Datum.noConfusion

/-- A larger magnitude is cut off to a larger one. -/
lemma IsTruncation.mono {negative : Bool} {m₁ m₂ : ℚ} {x y : Datum} (hle : m₁ ≤ m₂)
    (hx : F.IsTruncation (.finite negative m₁) x) (hy : F.IsTruncation (.finite negative m₂) y) :
    y = .infinity negative ∨
      ∃ m₁' m₂', x = .finite negative m₁' ∧ y = .finite negative m₂' ∧ m₁' ≤ m₂' := by
  rw [IsTruncation] at hx hy
  by_cases hover : F.overflowsFrom ≤ m₂
  · rw [if_pos hover] at hy
    exact Or.inl hy
  · have hbelow : ¬F.overflowsFrom ≤ m₁ := fun h => hover (h.trans hle)
    rw [if_neg hover] at hy
    rw [if_neg hbelow] at hx
    obtain ⟨m₁', rfl, ⟨hmagnitude, hle₁⟩, -⟩ := hx
    obtain ⟨m₂', rfl, -, hgreatest⟩ := hy
    exact Or.inr ⟨m₁', m₂', rfl, rfl, hgreatest ⟨hmagnitude, hle₁.trans hle⟩⟩

/-- Truncation keeps the order of numbers. -/
lemma IsTruncation.le_of_finite {negative negative' : Bool} {m m' : ℚ} {x y : Datum} (hm : 0 ≤ m)
    (hm' : 0 ≤ m') (h : signed negative m ≤ signed negative' m')
    (hx : F.IsTruncation (.finite negative m) x) (hy : F.IsTruncation (.finite negative' m') y) :
    x.Le y := by
  have hxnan : x ≠ .nan := hx.ne_nan Datum.noConfusion
  have hynan : y ≠ .nan := hy.ne_nan Datum.noConfusion
  cases negative with
  | false =>
    cases negative' with
    | false =>
      obtain rfl | ⟨m₁, m₂, rfl, rfl, hle⟩ := IsTruncation.mono h hx hy
      · exact Datum.le_infinity hxnan
      · exact hle
    | true =>
      -- Both numbers are zero.
      have hsum : m ≤ -m' := h
      obtain ⟨-, hpos⟩ | ⟨m₁, rfl, -, h₁⟩ := hx.sign
      · linarith
      · obtain ⟨-, hpos⟩ | ⟨m₂, rfl, -, h₂⟩ := hy.sign
        · linarith
        · have hle : m₁ ≤ -m₂ := by linarith
          exact hle
  | true =>
    cases negative' with
    | false =>
      obtain ⟨rfl, -⟩ | ⟨m₁, rfl, h₁, -⟩ := hx.sign
      · exact Datum.infinity_le hynan
      · obtain ⟨rfl, -⟩ | ⟨m₂, rfl, h₂, -⟩ := hy.sign
        · exact Datum.le_infinity hxnan
        · exact (neg_nonpos.mpr h₁).trans h₂
    | true =>
      obtain rfl | ⟨m₂, m₁, rfl, rfl, hle⟩ := IsTruncation.mono (neg_le_neg_iff.mp h) hy hx
      · exact Datum.infinity_le hynan
      · exact neg_le_neg hle

/-- Truncation keeps the order of data. -/
theorem IsTruncation.le {x y x' y' : Datum} (hx : F.IsTruncation x x') (hy : F.IsTruncation y y')
    (h : x.Le y) (hx₀ : ∀ negative m, x = .finite negative m → 0 ≤ m)
    (hy₀ : ∀ negative m, y = .finite negative m → 0 ≤ m) : x'.Le y' := by
  have hx' : x' ≠ .nan := hx.ne_nan h.left_ne_nan
  have hy' : y' ≠ .nan := hy.ne_nan h.right_ne_nan
  rcases x with _ | ⟨_ | _⟩ | ⟨negative, m⟩
  · exact absurd rfl h.left_ne_nan
  · -- The positive infinity is below itself only.
    rcases y with _ | ⟨_ | _⟩ | ⟨negative, m⟩
    · exact absurd rfl h.right_ne_nan
    · rw [show y' = .infinity false from hy]
      exact Datum.le_infinity hx'
    · exact absurd h id
    · exact absurd h id
  · rw [show x' = .infinity true from hx]
    exact Datum.infinity_le hy'
  · rcases y with _ | ⟨_ | _⟩ | ⟨negative', m'⟩
    · exact absurd rfl h.right_ne_nan
    · rw [show y' = .infinity false from hy]
      exact Datum.le_infinity hx'
    · exact absurd h (by cases negative <;> exact id)
    · exact hx.le_of_finite (hx₀ negative m rfl) (hy₀ negative' m' rfl) h hy

end BinaryFormat

end BinaryFormats
