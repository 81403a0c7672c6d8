import Mathlib.Data.List.Forall2
import Mathlib.Logic.Relation

/-!
# Traces and weak simulations

A system of steps that are silent or show something.  Its traces are what finitely many of its
steps show.  A relation of states that every step of one system can be matched along, by silent
steps and one step that shows the same, carries the traces of that system over to the other.

"The same" is a relation too, so that simulations can change what is shown.
-/

namespace Cangjie

variable {σ σ' α α' α'' : Type}

/-- What the steps from a state show. -/
inductive Traces (step : σ → Option α → σ → Prop) : σ → List α → Prop
  | nil {s} : Traces step s []
  | silent {s t l} : step s none t → Traces step t l → Traces step s l
  | visible {s a t l} : step s (some a) t → Traces step t l → Traces step s (a :: l)

/-- Silent steps from one state to another. -/
def Silent (step : σ → Option α → σ → Prop) : σ → σ → Prop :=
  Relation.ReflTransGen fun s t => step s none t

/-- Every step from a state is matched from the states related to it. -/
structure Simulates (step : σ → Option α → σ → Prop) (step' : σ' → Option α' → σ' → Prop)
    (same : α → α' → Prop) (related : σ → σ' → Prop) : Prop where
  silent : ∀ {s s' t}, related s s' → step s none t → ∃ t', Silent step' s' t' ∧ related t t'
  visible : ∀ {s s' a t}, related s s' → step s (some a) t →
    ∃ u' a' t', Silent step' s' u' ∧ step' u' (some a') t' ∧ same a a' ∧ related t t'

variable {step : σ → Option α → σ → Prop} {step' : σ' → Option α' → σ' → Prop}
  {same : α → α' → Prop} {related : σ → σ' → Prop}

/-- Silent steps come before what is shown. -/
lemma Traces.of_silent {s t : σ} {l : List α} (hsilent : Silent step s t) (h : Traces step t l) :
    Traces step s l := by
  induction hsilent using Relation.ReflTransGen.head_induction_on with
  | refl => exact h
  | head hstep _ ih => exact Traces.silent hstep ih

/-- The traces of a state are matched from the states related to it. -/
theorem Simulates.traces (h : Simulates step step' same related) {s : σ} {s' : σ'} {l : List α}
    (hs : related s s') (htrace : Traces step s l) :
    ∃ l', Traces step' s' l' ∧ List.Forall₂ same l l' := by
  induction htrace generalizing s' with
  | nil => exact ⟨[], Traces.nil, List.Forall₂.nil⟩
  | silent hstep _ ih =>
    obtain ⟨t', hsilent, ht⟩ := h.silent hs hstep
    obtain ⟨l', htrace', hl⟩ := ih ht
    exact ⟨l', htrace'.of_silent hsilent, hl⟩
  | visible hstep _ ih =>
    obtain ⟨u', a', t', hsilent, hstep', ha, ht⟩ := h.visible hs hstep
    obtain ⟨l', htrace', hl⟩ := ih ht
    exact ⟨a' :: l', (Traces.visible hstep' htrace').of_silent hsilent, List.Forall₂.cons ha hl⟩

/-! ## Composition -/

/-- Lists that agree through a third one agree. -/
lemma forall₂_trans {same' : α' → α'' → Prop} {same'' : α → α'' → Prop}
    (hsame : ∀ a b c, same a b → same' b c → same'' a c) {l : List α} {l' : List α'}
    {l'' : List α''} (h : List.Forall₂ same l l') (h' : List.Forall₂ same' l' l'') :
    List.Forall₂ same'' l l'' := by
  induction h generalizing l'' with
  | nil =>
    cases h'
    exact List.Forall₂.nil
  | cons ha _ ih =>
    cases h' with
    | cons hb hl => exact List.Forall₂.cons (hsame _ _ _ ha hb) (ih hl)

end Cangjie
