import Mathlib.Data.Nat.Notation
import Mathlib.Logic.Function.Basic

/-!
# Numbering names

A table gives numbers to names as they are met, each new name the next number.  The numbers in such
a table are below the next one, and distinct names have distinct numbers.
-/

namespace Cangjie

variable {ν : Type} [DecidableEq ν]

/-- The numbers given so far are below the next one and belong to one name each. -/
structure IsNumbering (ids : ν → Option ℕ) (next : ℕ) : Prop where
  lt : ∀ name id, ids name = some id → id < next
  injective : ∀ name name' id, ids name = some id → ids name' = some id → name = name'

namespace IsNumbering

variable {ids : ν → Option ℕ} {next : ℕ}

omit [DecidableEq ν] in
theorem empty (h : ∀ name, ids name = none) : IsNumbering ids next where
  lt := fun name _ hname => absurd ((h name).symm.trans hname) (by simp)
  injective := fun name _ _ hname _ => absurd ((h name).symm.trans hname) (by simp)

/-- A name that has no number yet gets the next one. -/
theorem fresh (h : IsNumbering ids next) {name : ν} (hname : ids name = none) :
    IsNumbering (Function.update ids name (some next)) (next + 1) where
  lt := fun other id hother => by
    by_cases hne : other = name
    · rw [hne, Function.update_self, Option.some.injEq] at hother
      rw [← hother]
      exact Nat.lt_succ_self next
    · rw [Function.update_of_ne hne] at hother
      exact Nat.lt_succ_of_lt (h.lt other id hother)
  injective := fun a b id ha hb => by
    by_cases hane : a = name <;> by_cases hbne : b = name
    · rw [hane, hbne]
    · rw [hane, Function.update_self, Option.some.injEq] at ha
      rw [Function.update_of_ne hbne] at hb
      exact absurd ha (Nat.ne_of_gt (h.lt b id hb))
    · rw [hbne, Function.update_self, Option.some.injEq] at hb
      rw [Function.update_of_ne hane] at ha
      exact absurd hb (Nat.ne_of_gt (h.lt a id ha))
    · rw [Function.update_of_ne hane] at ha
      rw [Function.update_of_ne hbne] at hb
      exact h.injective a b id ha hb

end IsNumbering

end Cangjie
