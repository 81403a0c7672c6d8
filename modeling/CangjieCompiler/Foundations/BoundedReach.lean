import Mathlib.Data.Nat.Notation
import Mathlib.Logic.Relation

/-!
# Reaching in a bounded number of steps

What is reached from some starts by following edges any number of times, and in a bounded number of
steps.  If one more step reaches nothing new, then the bounded number of steps reaches everything.
-/

namespace BoundedReach

variable {α : Type} (start : α → Prop) (edge : α → α → Prop)

/-- Reached from a start by any number of steps. -/
def Reached (b : α) : Prop := ∃ a, start a ∧ Relation.ReflTransGen edge a b

/-- Reached from a start by at most some number of steps. -/
def ReachedIn : ℕ → α → Prop
  | 0, b => start b
  | n + 1, b => ReachedIn n b ∨ ∃ a, ReachedIn n a ∧ edge a b

variable {start edge} {a b : α} {n m : ℕ}

lemma Reached.of_start (h : start a) : Reached start edge a :=
  ⟨a, h, Relation.ReflTransGen.refl⟩

lemma Reached.tail (h : Reached start edge a) (hab : edge a b) : Reached start edge b := by
  obtain ⟨c, hc, hca⟩ := h
  exact ⟨c, hc, hca.tail hab⟩

lemma ReachedIn.succ (h : ReachedIn start edge n a) : ReachedIn start edge (n + 1) a := Or.inl h

lemma ReachedIn.tail (h : ReachedIn start edge n a) (hab : edge a b) :
    ReachedIn start edge (n + 1) b :=
  Or.inr ⟨a, h, hab⟩

lemma ReachedIn.mono (h : ReachedIn start edge n a) (hnm : n ≤ m) : ReachedIn start edge m a := by
  induction hnm with
  | refl => exact h
  | step _ ih => exact ih.succ

lemma ReachedIn.reached (h : ReachedIn start edge n a) : Reached start edge a := by
  induction n generalizing a with
  | zero => exact Reached.of_start h
  | succ n ih =>
    rcases h with h | ⟨c, hc, hca⟩
    · exact ih h
    · exact (ih hc).tail hca

/-- More starts and more edges reach more. -/
lemma ReachedIn.imp {start' : α → Prop} {edge' : α → α → Prop} (hstart : ∀ a, start a → start' a)
    (hedge : ∀ a b, edge a b → edge' a b) (h : ReachedIn start edge n a) :
    ReachedIn start' edge' n a := by
  induction n generalizing a with
  | zero => exact hstart a h
  | succ n ih =>
    rcases h with h | ⟨c, hc, hca⟩
    · exact (ih h).succ
    · exact (ih hc).tail (hedge c a hca)

/-- If one more step reaches nothing new, then nothing new is reached at all. -/
theorem reached_iff_of_stable (hstable : ∀ b, ReachedIn start edge (n + 1) b →
    ReachedIn start edge n b) : Reached start edge b ↔ ReachedIn start edge n b := by
  refine ⟨fun h => ?_, ReachedIn.reached⟩
  obtain ⟨a, ha, hab⟩ := h
  induction hab with
  | refl => exact ReachedIn.mono (n := 0) ha n.zero_le
  | tail _ hlast ih => exact hstable _ (ih.tail hlast)

end BoundedReach
