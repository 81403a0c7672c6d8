import Mathlib.Data.Finset.Card
import Mathlib.Data.Finset.Lattice.Lemmas

/-!
# The domain of values

An abstract value is unknown, a reference, a value of the analysis, or has not been reached.  The
join of two of them reports whether the left one has changed.

References are shared objects of the source.  Their roots are set when a reference is created and
never afterwards, so that a reference is given here by its identity and its roots, and the cache of
`CanRepresent` is left out.  The identity zero is kept for the top reference.

In a release build `CJC_ABORT` and `CJC_ASSERT` do nothing: the join of a value with a reference
leaves the value as it is.
-/

namespace Cangjie.CHIR

/-! ## References -/

/-- A reference with its identity and the identities of its roots. -/
structure Ref where
  uniqueID : ℕ
  roots : Finset ℕ
  deriving DecidableEq

namespace Ref

/-- The top reference. -/
def topRefInstance : Ref := ⟨0, ∅⟩

def isTopRefInstance (r : Ref) : Bool := r = topRefInstance

/-- What a reference adds to the roots of a reference that is made from it. -/
def addedRoots (r : Ref) : Finset ℕ := if r.roots = ∅ then {r.uniqueID} else r.roots

/-- A new reference with the roots of two others. -/
def addRoots (uniqueID : ℕ) (r₁ r₂ : Ref) : Ref := ⟨uniqueID, r₁.addedRoots ∪ r₂.addedRoots⟩

def isEquivalent (r q : Ref) : Bool := r.roots ≠ ∅ && r.roots = q.roots

def canRepresent (r q : Ref) : Bool :=
  if r.roots = ∅ then false
  else if q.roots = ∅ then q.uniqueID ∈ r.roots
  else q.roots.card ≤ r.roots.card && q.roots ⊆ r.roots

lemma canRepresent_iff (r q : Ref) :
    r.canRepresent q = true ↔ r.roots ≠ ∅ ∧ q.addedRoots ⊆ r.roots := by
  unfold canRepresent addedRoots
  by_cases hr : r.roots = ∅
  · simp [hr]
  · by_cases hq : q.roots = ∅
    · simp [hr, hq]
    · rw [if_neg hr, if_neg hq, if_neg hq, Bool.and_eq_true, decide_eq_true_eq, decide_eq_true_eq]
      exact ⟨fun h => ⟨hr, h.2⟩, fun h => ⟨Finset.card_le_card h.2, h.2⟩⟩

/-- The order of references: the top reference is above all, and a reference with roots is above
every reference whose roots it has. -/
def Absorbs (r q : Ref) : Prop :=
  r = topRefInstance ∨ r = q ∨ r.canRepresent q = true ∧ q ≠ topRefInstance

lemma Absorbs.refl (r : Ref) : r.Absorbs r := Or.inr (Or.inl rfl)

lemma addedRoots_of_ne {r : Ref} (h : r.roots ≠ ∅) : r.addedRoots = r.roots := if_neg h

lemma Absorbs.trans {r q p : Ref} (hrq : r.Absorbs q) (hqp : q.Absorbs p) : r.Absorbs p := by
  rcases hrq with htop | rfl | ⟨hrep, hne⟩
  · exact Or.inl htop
  · exact hqp
  · rcases hqp with htop | rfl | ⟨hrep', hne'⟩
    · exact absurd htop hne
    · exact Or.inr (Or.inr ⟨hrep, hne⟩)
    · rw [canRepresent_iff] at hrep hrep'
      rw [addedRoots_of_ne hrep'.1] at hrep
      refine Or.inr (Or.inr ⟨?_, hne'⟩)
      rw [canRepresent_iff]
      exact ⟨hrep.1, hrep'.2.trans hrep.2⟩

lemma absorbs_of_isEquivalent {r q : Ref} (h : r.isEquivalent q = true)
    (hq : q ≠ topRefInstance) : r.Absorbs q := by
  rw [isEquivalent, Bool.and_eq_true, decide_eq_true_eq, decide_eq_true_eq] at h
  have hne : q.roots ≠ ∅ := h.2 ▸ h.1
  refine Or.inr (Or.inr ⟨?_, hq⟩)
  rw [canRepresent_iff, addedRoots_of_ne hne]
  exact ⟨h.1, h.2.symm.subset⟩

lemma addedRoots_nonempty (r : Ref) : r.addedRoots.Nonempty := by
  unfold addedRoots
  split_ifs with h
  · exact Finset.singleton_nonempty _
  · exact Finset.nonempty_iff_ne_empty.mpr h

/-- A reference made from two others is above both. -/
lemma addRoots_absorbs (n : ℕ) {r q p : Ref} (hp : p = r ∨ p = q) (hne : p ≠ topRefInstance) :
    (addRoots n r q).Absorbs p := by
  refine Or.inr (Or.inr ⟨?_, hne⟩)
  rw [canRepresent_iff]
  refine ⟨(Finset.Nonempty.mono Finset.subset_union_left r.addedRoots_nonempty).ne_empty, ?_⟩
  rcases hp with rfl | rfl
  · exact Finset.subset_union_left
  · exact Finset.subset_union_right

end Ref

/-! ## Values -/

/-- The join of the values of an analysis: `none` for no change, `some none` for no common value. -/
class AbstractValue (V : Type) where
  join : V → V → Option (Option V)

inductive ValueDomain (V : Type) where
  | BOTTOM
  | REF (ref : Ref)
  | VAL (absVal : V)
  | TOP
  deriving DecidableEq

namespace ValueDomain

variable {V : Type}

def isRef : ValueDomain V → Bool
  | REF _ => true
  | _ => false

/-- `TOP_REF_STATE` -/
def topRefState : ValueDomain V := REF Ref.topRefInstance

/-- What clearing a state makes of a value. -/
def clear : ValueDomain V → ValueDomain V
  | VAL _ => TOP
  | d => d

variable [AbstractValue V]

/-- The joined domain and whether it is reported as changed. -/
def join : ValueDomain V → ValueDomain V → ValueDomain V × Bool
  | TOP, _ => (TOP, false)
  | d, BOTTOM => (d, false)
  | _, TOP => (TOP, true)
  | BOTTOM, d => (d, true)
  | REF r, REF q =>
    if r.isTopRefInstance then (REF r, false)
    else if q.isTopRefInstance then (topRefState, true)
    else if r = q then (REF r, false)
    else (topRefState, true)
  | VAL a, VAL b =>
    match AbstractValue.join a b with
    | some none => (TOP, true)
    | some (some c) => (VAL c, true)
    | none => (VAL a, false)
  | d, _ => (d, false)

lemma join_VAL_VAL (a b : V) : (VAL a).join (VAL b) =
    match AbstractValue.join a b with
    | some none => (TOP, true)
    | some (some c) => (VAL c, true)
    | none => (VAL a, false) := rfl

lemma join_REF_REF (r q : Ref) : (REF r : ValueDomain V).join (REF q) =
    if r.isTopRefInstance then (REF r, false)
    else if q.isTopRefInstance then (topRefState, true)
    else if r = q then (REF r, false)
    else (topRefState, true) := rfl

/-- The join with the second domain leaves the first one as it is. -/
def Absorbs (d e : ValueDomain V) : Prop := (d.join e).1 = d

end ValueDomain

/-- A join of values under which a value absorbs itself and every value joined into it, and keeps
absorbing what it absorbed. -/
class LawfulJoin (V : Type) [AbstractValue V] : Prop where
  absorbs_self : ∀ a : V, (ValueDomain.VAL a).Absorbs (.VAL a)
  absorbs_join : ∀ {a b c : V}, AbstractValue.join a b = some (some c) →
    (ValueDomain.VAL c).Absorbs (.VAL b)
  absorbs_mono : ∀ {a b c x : V}, AbstractValue.join a b = some (some c) →
    (ValueDomain.VAL a).Absorbs (.VAL x) → (ValueDomain.VAL c).Absorbs (.VAL x)

namespace ValueDomain

variable {V : Type} [AbstractValue V]

/-! ## The join of values -/

lemma top_absorbs (e : ValueDomain V) : (TOP : ValueDomain V).Absorbs e := rfl

lemma absorbs_bottom (d : ValueDomain V) : d.Absorbs BOTTOM := by
  cases d <;> rfl

lemma topRef_absorbs_ref (q : Ref) : (topRefState : ValueDomain V).Absorbs (REF q) := rfl

/-- A join that reports no change makes none. -/
lemma absorbs_of_not_changed {d e : ValueDomain V} (h : (d.join e).2 = false) : d.Absorbs e := by
  cases d with
  | TOP => rfl
  | BOTTOM =>
    cases e with
    | BOTTOM => rfl
    | REF q => cases h
    | VAL b => cases h
    | TOP => cases h
  | REF r =>
    cases e with
    | BOTTOM => rfl
    | VAL b => rfl
    | TOP => cases h
    | REF q =>
      unfold Absorbs
      dsimp only [join] at h ⊢
      split_ifs at h ⊢ <;> rfl
  | VAL a =>
    cases e with
    | BOTTOM => rfl
    | REF q => rfl
    | TOP => cases h
    | VAL b =>
      unfold Absorbs
      dsimp only [join] at h ⊢
      split at h
      · exact absurd h (by simp)
      · exact absurd h (by simp)
      · rfl

lemma absorbs_clear {d e : ValueDomain V} (h : d.Absorbs e.clear) : d.Absorbs e := by
  cases e with
  | VAL b =>
    cases d with
    | TOP => rfl
    | BOTTOM => cases h
    | REF r => cases h
    | VAL a => cases h
  | BOTTOM => exact h
  | REF q => exact h
  | TOP => exact h

omit [AbstractValue V] in
lemma isRef_clear (d : ValueDomain V) : d.clear.isRef = d.isRef := by
  cases d <;> rfl

/-- The join of two references is the first one or the top reference. -/
lemma join_ref_ref (r q : Ref) :
    ((REF r : ValueDomain V).join (REF q)).1 = topRefState ∨
      ((REF r : ValueDomain V).join (REF q)).1 = REF r ∧ r = q := by
  dsimp only [join]
  split_ifs with hr hq heq
  · have htop : r = Ref.topRefInstance := of_decide_eq_true hr
    rw [htop]
    exact Or.inl rfl
  · exact Or.inl rfl
  · exact Or.inr ⟨rfl, heq⟩
  · exact Or.inl rfl

variable [LawfulJoin V]

lemma absorbs_self (d : ValueDomain V) : d.Absorbs d := by
  cases d with
  | BOTTOM => rfl
  | TOP => rfl
  | VAL a => exact LawfulJoin.absorbs_self a
  | REF r =>
    rcases join_ref_ref (V := V) r r with htop | ⟨hsame, -⟩
    · unfold Absorbs
      dsimp only [join] at htop ⊢
      split_ifs <;> first | rfl | exact absurd rfl ‹_›
    · exact hsame

/-- The joined domain absorbs the operand. -/
lemma join_absorbs (d e : ValueDomain V) : (d.join e).1.Absorbs e := by
  cases d with
  | TOP => rfl
  | BOTTOM =>
    cases e with
    | BOTTOM => rfl
    | TOP => rfl
    | REF q => exact absorbs_self (REF q)
    | VAL b => exact absorbs_self (VAL b)
  | REF r =>
    cases e with
    | BOTTOM => rfl
    | TOP => rfl
    | VAL b => rfl
    | REF q =>
      rcases join_ref_ref (V := V) r q with htop | ⟨hsame, rfl⟩
      · rw [htop]
        rfl
      · rw [hsame]
        exact hsame
  | VAL a =>
    cases e with
    | BOTTOM => rfl
    | TOP => rfl
    | REF q => rfl
    | VAL b =>
      cases hjoin : AbstractValue.join a b with
      | none =>
        have hsame : (join (VAL a) (VAL b)).1 = VAL a := by rw [join_VAL_VAL, hjoin]
        rw [hsame]
        exact hsame
      | some c =>
        cases c with
        | none =>
          have htop : (join (VAL a) (VAL b)).1 = TOP := by rw [join_VAL_VAL, hjoin]
          rw [htop]
          rfl
        | some c =>
          have hval : (join (VAL a) (VAL b)).1 = VAL c := by rw [join_VAL_VAL, hjoin]
          rw [hval]
          exact LawfulJoin.absorbs_join hjoin

/-- What was absorbed before a join is absorbed after it. -/
lemma absorbs_mono {d x : ValueDomain V} (h : d.Absorbs x) (e : ValueDomain V) :
    (d.join e).1.Absorbs x := by
  cases d with
  | TOP => rfl
  | BOTTOM =>
    cases x with
    | BOTTOM => exact absorbs_bottom _
    | TOP => cases h
    | REF q => cases h
    | VAL b => cases h
  | REF r =>
    cases e with
    | BOTTOM => exact h
    | TOP => rfl
    | VAL b => exact h
    | REF q =>
      rcases join_ref_ref (V := V) r q with htop | ⟨hsame, -⟩
      · rw [htop]
        cases x with
        | TOP => cases h
        | BOTTOM => rfl
        | REF p => rfl
        | VAL b => rfl
      · rw [hsame]
        exact h
  | VAL a =>
    cases e with
    | BOTTOM => exact h
    | TOP => rfl
    | REF q => exact h
    | VAL b =>
      cases hjoin : AbstractValue.join a b with
      | none =>
        have hsame : (join (VAL a) (VAL b)).1 = VAL a := by rw [join_VAL_VAL, hjoin]
        rw [hsame]
        exact h
      | some c =>
        cases c with
        | none =>
          have htop : (join (VAL a) (VAL b)).1 = TOP := by rw [join_VAL_VAL, hjoin]
          rw [htop]
          rfl
        | some c =>
          have hval : (join (VAL a) (VAL b)).1 = VAL c := by rw [join_VAL_VAL, hjoin]
          rw [hval]
          cases x with
          | TOP => cases h
          | BOTTOM => rfl
          | REF p => rfl
          | VAL y => exact LawfulJoin.absorbs_mono hjoin h

end ValueDomain

/-! ## Constants -/

/-- The constants of the constant analysis; the double-precision numbers are a parameter. -/
inductive ConstValue (φ : Type) where
  | BOOL (val : Bool)
  | RUNE (val : UInt32)
  | STRING (val : String)
  | UINT (val : UInt64)
  | INT (val : Int64)
  | FLOAT (val : φ)
  deriving DecidableEq

namespace ConstValue

variable {φ : Type} [BEq φ]

/-- The comparison of the `Join` methods. -/
def isSame : ConstValue φ → ConstValue φ → Bool
  | BOOL a, BOOL b => a == b
  | RUNE a, RUNE b => a == b
  | STRING a, STRING b => a == b
  | UINT a, UINT b => a == b
  | INT a, INT b => a == b
  | FLOAT a, FLOAT b => a == b
  | _, _ => false

instance : AbstractValue (ConstValue φ) where
  join a b := if a.isSame b then none else some none

lemma isSame_self [ReflBEq φ] (a : ConstValue φ) : a.isSame a = true := by
  cases a <;> exact beq_self_eq_true _

lemma join_ne_some (a b c : ConstValue φ) : AbstractValue.join a b ≠ some (some c) := by
  dsimp only [AbstractValue.join]
  split_ifs <;> simp

/-- The join of constants is lawful when every number equals itself, which leaves out the value
that is not a number. -/
instance [ReflBEq φ] : LawfulJoin (ConstValue φ) where
  absorbs_self a := by
    simp only [ValueDomain.Absorbs, ValueDomain.join, AbstractValue.join, isSame_self, if_true]
  absorbs_join {a b c} h := absurd h (join_ne_some a b c)
  absorbs_mono {a b c x} h _ := absurd h (join_ne_some a b c)

end ConstValue

end Cangjie.CHIR
