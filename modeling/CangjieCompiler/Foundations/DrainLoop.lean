import Mathlib

/-!
# Loops that run until nothing is left to do

A loop takes a step as long as its state is not done, and a step may fail.  Such a loop ends when a
measure decreases, keeps what its steps keep, and never ends when its steps keep a property that
excludes the end.
-/

namespace DrainLoop

variable {σ α : Type} {done : σ → Bool} {step : σ → Option σ} {I : σ → Prop}

/-- The loop with a bound on the number of its steps. -/
def drain (done : σ → Bool) (step : σ → Option σ) : ℕ → σ → Option σ
  | 0, _ => none
  | fuel + 1, s => if done s then some s else (step s).bind (drain done step fuel)

lemma drain_succ (fuel : ℕ) (s : σ) :
    drain done step (fuel + 1) s =
      if done s then some s else (step s).bind (drain done step fuel) := rfl

/-- What the steps keep holds at the end. -/
theorem drain_keeps (hstep : ∀ s s', I s → done s = false → step s = some s' → I s') {fuel : ℕ}
    {s s' : σ} (hI : I s) (h : drain done step fuel s = some s') : I s' ∧ done s' = true := by
  induction fuel generalizing s with
  | zero => exact absurd h (Option.some_ne_none _).symm
  | succ fuel ih =>
    rw [drain_succ] at h
    split_ifs at h with hdone
    · rw [← Option.some.inj h]
      exact ⟨hI, hdone⟩
    · obtain ⟨s₁, hs₁, hrest⟩ := Option.bind_eq_some_iff.mp h
      exact ih (hstep s s₁ hI (Bool.eq_false_iff.mpr hdone) hs₁) hrest

/-- A loop that ends within a bound ends in the same way within a larger one. -/
lemma drain_mono {fuel fuel' : ℕ} (hle : fuel ≤ fuel') {s s' : σ}
    (h : drain done step fuel s = some s') : drain done step fuel' s = some s' := by
  induction fuel generalizing fuel' s with
  | zero => exact absurd h (Option.some_ne_none _).symm
  | succ fuel ih =>
    obtain ⟨fuel', rfl⟩ := Nat.exists_eq_add_of_lt (Nat.lt_of_succ_le hle)
    rw [drain_succ] at h ⊢
    split_ifs at h ⊢ with hdone
    · exact h
    · obtain ⟨s₁, hs₁, hrest⟩ := Option.bind_eq_some_iff.mp h
      exact Option.bind_eq_some_iff.mpr ⟨s₁, hs₁, ih (Nat.le_add_right fuel fuel') hrest⟩

/-- The end of a loop does not depend on the bound. -/
theorem drain_inj {fuel fuel' : ℕ} {s s₁ s₂ : σ} (h₁ : drain done step fuel s = some s₁)
    (h₂ : drain done step fuel' s = some s₂) : s₁ = s₂ := by
  have h := (drain_mono (Nat.le_max_left fuel fuel') h₁).symm.trans
    (drain_mono (Nat.le_max_right fuel fuel') h₂)
  exact Option.some.inj h

/-- A loop whose steps keep a property that excludes the end never ends. -/
theorem drain_eq_none (hstep : ∀ s s', I s → step s = some s' → I s')
    (hdone : ∀ s, I s → done s = false) (fuel : ℕ) {s : σ} (hI : I s) :
    drain done step fuel s = none := by
  cases h : drain done step fuel s with
  | none => rfl
  | some s' =>
    obtain ⟨hI', hend⟩ := drain_keeps (fun s s' hs _ hs' => hstep s s' hs hs') hI h
    exact absurd hend (by rw [hdone s' hI']; exact Bool.false_ne_true)

/-- A loop ends when its steps succeed and a measure decreases. -/
theorem exists_drain (measure : σ → ℕ)
    (hstep : ∀ s, I s → done s = false → ∃ s', step s = some s' ∧ I s' ∧ measure s' < measure s)
    {s : σ} (hI : I s) : ∃ fuel s', drain done step fuel s = some s' ∧ I s' ∧ done s' = true := by
  induction hn : measure s using Nat.strong_induction_on generalizing s with
  | _ n ih =>
    by_cases hdone : done s = true
    · exact ⟨1, s, by rw [drain_succ, if_pos hdone], hI, hdone⟩
    · obtain ⟨s₁, hs₁, hI₁, hlt⟩ := hstep s hI (Bool.eq_false_iff.mpr hdone)
      obtain ⟨fuel, s', hdrain, hI', hend⟩ := ih (measure s₁) (by omega) hI₁ rfl
      exact ⟨fuel + 1, s', by rw [drain_succ, if_neg hdone, hs₁]; exact hdrain, hI', hend⟩

/-- Items that are replaced by items of a smaller rank have costs that pay for these. -/
theorem exists_cost (children : α → List α) (rank : α → ℕ)
    (h : ∀ a, ∀ b ∈ children a, rank b < rank a) :
    ∃ cost : α → ℕ, ∀ a, ((children a).map cost).sum < cost a := by
  let cost : α → ℕ := (measure rank).wf.fix fun a costs =>
    ((children a).attach.map fun b => costs b.1 (h a b.1 b.2)).sum + 1
  refine ⟨cost, fun a => ?_⟩
  have hcost : cost a = ((children a).attach.map fun b => cost b.1).sum + 1 :=
    (measure rank).wf.fix_eq _ a
  rw [hcost, List.attach_map_val]
  exact Nat.lt_succ_self _

end DrainLoop
