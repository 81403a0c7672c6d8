import CangjieCompiler.CHIR.Analysis.SIntDomain

/-!
# What the operations and the domains mean

The integer operations of the language on machine integers, under each overflow strategy, and the
states that a domain describes: the value of a variable together with the values of all symbols.
-/

namespace Cangjie.CHIR

open FixedWidth

variable {w : ℕ}

/-! ## The operations of the language -/

/-- The result of an operation on integers without any bound.  Nothing can be divided by zero. -/
def exactResult (op : BinaryExprKind) (a b : ℤ) : Option ℤ :=
  match op with
  | .ADD => some (a + b)
  | .SUB => some (a - b)
  | .MUL => some (a * b)
  | .DIV => if b = 0 then none else some (a.tdiv b)
  | .MOD => if b = 0 then none else some (a.tmod b)
  | _ => none

/-- How a strategy brings an exact result back to a type: it wraps around, it is clamped, or only a
representable result is accepted. -/
def bringBack (w : ℕ) (uns : Bool) (ov : OverflowStrategy) (z : ℤ) : Option (SInt w) :=
  match ov with
  | .WRAPPING => some (BitVec.ofInt w z)
  | .SATURATING => some (BitVec.ofInt w (clamp w uns z))
  | _ => if Representable w uns z then some (BitVec.ofInt w z) else none

/-- The result of an operation that completes without throwing. -/
def concreteResult (op : BinaryExprKind) (ov : OverflowStrategy) (uns : Bool) (x y : SInt w) :
    Option (SInt w) :=
  (exactResult op (value uns x) (value uns y)).bind (bringBack w uns ov)

theorem bringBack_of_representable {uns : Bool} {z : ℤ} (hz : Representable w uns z)
    (ov : OverflowStrategy) : bringBack w uns ov z = some (BitVec.ofInt w z) := by
  cases ov with
  | SATURATING => rw [bringBack, clamp_eq_self hz]
  | WRAPPING => rfl
  | NA => exact if_pos hz
  | CHECKED => exact if_pos hz
  | THROWING => exact if_pos hz

/-- Away from the wrapping and saturating strategies only representable results appear. -/
theorem representable_of_bringBack {uns : Bool} {ov : OverflowStrategy} {z : ℤ} {v : SInt w}
    (h : bringBack w uns ov z = some v) (hwrap : ov ≠ .WRAPPING) (hsat : ov ≠ .SATURATING) :
    Representable w uns z ∧ v = BitVec.ofInt w z := by
  by_cases hz : Representable w uns z
  · rw [bringBack_of_representable hz] at h
    exact ⟨hz, (Option.some.inj h).symm⟩
  · cases ov with
    | WRAPPING => exact absurd rfl hwrap
    | SATURATING => exact absurd rfl hsat
    | NA => exact absurd ((if_neg hz).symm.trans h) (by simp)
    | CHECKED => exact absurd ((if_neg hz).symm.trans h) (by simp)
    | THROWING => exact absurd ((if_neg hz).symm.trans h) (by simp)

/-- Without saturation the result is the word of the exact result. -/
theorem eq_ofInt_of_bringBack {uns : Bool} {ov : OverflowStrategy} {z : ℤ} {v : SInt w}
    (h : bringBack w uns ov z = some v) (hsat : ov ≠ .SATURATING) : v = BitVec.ofInt w z := by
  by_cases hwrap : ov = .WRAPPING
  · subst hwrap
    exact (Option.some.inj h).symm
  · exact (representable_of_bringBack h hwrap hsat).2

/-! ## The states a domain describes -/

/-- An integer difference lies in a range read as a signed one. -/
def SignedMember (d : ℤ) (B : ConstantRange w) : Prop :=
  Representable w false d ∧ B.contains (BitVec.ofInt w d) = true

instance (d : ℤ) (B : ConstantRange w) : Decidable (SignedMember d B) :=
  inferInstanceAs (Decidable (_ ∧ _))

theorem signedMember_value (v : SInt w) (B : ConstantRange w) :
    SignedMember (value false v) B ↔ B.contains v = true := by
  rw [SignedMember, ofInt_value]
  exact and_iff_right (value_representable false v)

/-- A signed member is the signed reading of an element. -/
theorem SignedMember.exists_word (hw : 0 < w) {d : ℤ} {B : ConstantRange w}
    (h : SignedMember d B) : ∃ v, value false v = d ∧ B.contains v = true :=
  ⟨BitVec.ofInt w d, value_ofInt hw h.1, h.2⟩

/-- The symbolic bounds hold for a value, under values for all symbols. -/
def SIntDomain.BoundsHold (d : SIntDomain w) (σ : PtrSymbol → ℤ) (value : ℤ) : Prop :=
  ∀ s B, (s, B) ∈ d.symbolics.entries → SignedMember (value - σ s) B

/-- A domain describes a value of its variable, read with a signedness, together with values for
all symbols. -/
def SIntDomain.Describes (uns : Bool) (d : SIntDomain w) (σ : PtrSymbol → ℤ) (x : ℤ) : Prop :=
  (∃ v, d.numeric.contains v = true ∧ value uns v = x) ∧ d.BoundsHold σ x

end Cangjie.CHIR
