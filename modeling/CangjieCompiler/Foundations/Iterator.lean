import Mathlib.Data.Nat.Notation
import Mathlib.Data.Option.Basic

/-!
# Iterators

An iterator gives its next element and the state to go on from, or ends.  Reading it to its end
takes more steps than elements.

What a state still has to give is a relation between states and lists; it is enough that one step
gives the head of the list and leads to a state of its tail.
-/

namespace Cangjie

variable {σ α : Type}

/-- The elements of an iterator, read in fewer than `fuel` steps. -/
def drain (next : σ → Option (α × σ)) : ℕ → σ → Option (List α)
  | 0, _ => none
  | fuel + 1, s =>
    match next s with
    | none => some []
    | some (a, s') => (drain next fuel s').map (a :: ·)

/-- Every state of `R` gives the elements it is related to, one by one. -/
structure Yields (next : σ → Option (α × σ)) (R : σ → List α → Prop) : Prop where
  nil : ∀ {s}, R s [] → next s = none
  cons : ∀ {s a as}, R s (a :: as) → ∃ s', next s = some (a, s') ∧ R s' as

/-- Reading a state to its end gives the elements it is related to. -/
theorem Yields.drain_eq {next : σ → Option (α × σ)} {R : σ → List α → Prop} (h : Yields next R)
    {s : σ} {as : List α} (hs : R s as) {fuel : ℕ} (hfuel : as.length < fuel) :
    drain next fuel s = some as := by
  induction as generalizing s fuel with
  | nil =>
    obtain ⟨fuel, rfl⟩ := Nat.exists_eq_succ_of_ne_zero (Nat.ne_zero_of_lt hfuel)
    rw [drain, h.nil hs]
  | cons a as ih =>
    obtain ⟨fuel, rfl⟩ := Nat.exists_eq_succ_of_ne_zero (Nat.ne_zero_of_lt hfuel)
    obtain ⟨s', hnext, hs'⟩ := h.cons hs
    have hrest := ih hs' (Nat.lt_of_succ_lt_succ hfuel)
    rw [drain, hnext]
    dsimp only
    rw [hrest, Option.map_some]

end Cangjie
