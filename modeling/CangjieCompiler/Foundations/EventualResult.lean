import Mathlib.Order.Filter.AtTopBot.Basic

/-!
# Results that need enough fuel

A recursion that takes fuel fails when the fuel is used up.  It terminates if it returns one and the
same value from some amount of fuel on.  Such values compose: what is computed from values that
settle settles too.
-/

namespace EventualResult

variable {α β : Type}

/-- From some amount of fuel on the value is returned. -/
def Settles (f : ℕ → Option α) (a : α) : Prop := ∀ᶠ fuel in Filter.atTop, f fuel = some a

theorem settles_iff {f : ℕ → Option α} {a : α} :
    Settles f a ↔ ∃ enough, ∀ fuel ≥ enough, f fuel = some a :=
  Filter.eventually_atTop

theorem settles_of_eq {f : ℕ → Option α} {a : α} (h : ∀ fuel, f fuel = some a) : Settles f a :=
  Filter.Eventually.of_forall h

/-- The value that is returned from some amount of fuel on is unique. -/
theorem Settles.unique {f : ℕ → Option α} {a b : α} (ha : Settles f a) (hb : Settles f b) :
    a = b := by
  obtain ⟨fuel, hfa, hfb⟩ := (Filter.Eventually.and ha hb).exists
  exact Option.some.inj (hfa.symm.trans hfb)

theorem Settles.congr {f g : ℕ → Option α} {a : α} (h : Settles f a)
    (heq : ∀ fuel, g fuel = f fuel) : Settles g a :=
  Filter.Eventually.mono h fun fuel hf => (heq fuel).trans hf

theorem Settles.map {f : ℕ → Option α} {a : α} (h : Settles f a) (g : α → β) :
    Settles (fun fuel => (f fuel).map g) (g a) :=
  Filter.Eventually.mono h fun _ hf => congrArg (Option.map g) hf

/-- What follows a value that settles runs on that value. -/
theorem Settles.bind {f : ℕ → Option α} {g : ℕ → α → Option β} {a : α} {b : β} (hf : Settles f a)
    (hg : Settles (fun fuel => g fuel a) b) : Settles (fun fuel => f fuel >>= g fuel) b := by
  filter_upwards [hf, hg] with fuel ha hb
  rw [ha]
  exact hb

/-- A recursion settles if its body does, which runs with one unit of fuel less. -/
theorem settles_of_succ {f g : ℕ → Option α} {a : α} (hsucc : ∀ fuel, f (fuel + 1) = g fuel)
    (hg : Settles g a) : Settles f a := by
  obtain ⟨enough, henough⟩ := settles_iff.mp hg
  refine settles_iff.mpr ⟨enough + 1, fun fuel hfuel => ?_⟩
  obtain ⟨rest, rfl⟩ := Nat.exists_eq_add_of_le' (Nat.le_trans (Nat.le_add_left 1 enough) hfuel)
  rw [hsucc]
  exact henough rest (Nat.le_of_succ_le_succ hfuel)

end EventualResult
