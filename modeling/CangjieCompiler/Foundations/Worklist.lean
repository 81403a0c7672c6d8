import Mathlib.Logic.Function.Basic
import Mathlib.Tactic.Common

/-!
# Worklist iteration

Every block of a graph has an entry state.  A block is taken off the worklist, its entry state is
passed through the flow of the block, and what comes out is joined into the entry states of the
targets.  A target whose join reports a change is put back on the worklist.

When the worklist is empty, every block is satisfied: the entry states of its targets cover what
the flow of the block makes of its final entry state.  This takes three properties of each join of
the run, `Steady`.
-/

namespace Cangjie

/-- A flow through the blocks and a join of states that reports changes.  Both may use and change
shared data, and a join may fail. -/
structure Dataflow (β σ α : Type) where
  flow : β → α → σ → α × Option (σ × List β)
  join : α → σ → σ → Option (α × σ × Bool)

namespace Dataflow

/-- The worklist, the entry states and the shared data. -/
structure Config (β σ α : Type) where
  worklist : List β
  entry : β → σ
  aux : α

variable {β σ α : Type} [DecidableEq β] (D : Dataflow β σ α)

/-! ## The iteration -/

/-- The join of a state into the entry state of a target. -/
def joinOne (out : σ) (c : Config β σ α) (t : β) : Option (Config β σ α) :=
  (D.join c.aux (c.entry t) out).map fun (aux, s, changed) =>
    { worklist := if changed ∧ t ∉ c.worklist then c.worklist ++ [t] else c.worklist
      entry := Function.update c.entry t s
      aux := aux }

/-- The joins of a state into the entry states of all targets, in order. -/
def joinAll (out : σ) : List β → Config β σ α → Option (Config β σ α)
  | [], c => some c
  | t :: ts, c => (D.joinOne out c t).bind (joinAll out ts)

/-- The visit of a block that was taken off the worklist. -/
def visit (b : β) (c : Config β σ α) : Option (Config β σ α) :=
  match D.flow b c.aux (c.entry b) with
  | (aux, none) => some { c with aux := aux }
  | (aux, some (out, ts)) => D.joinAll out ts { c with aux := aux }

/-- The visits until the worklist is empty. -/
def run : ℕ → Config β σ α → Option (Config β σ α)
  | 0, _ => none
  | n + 1, c =>
    match c.worklist with
    | [] => some c
    | b :: rest => (D.visit b { c with worklist := rest }).bind (run n)

/-! ## The joins of a run -/

/-- The pairs of states joined by `joinAll`. -/
def pairsOfJoins (out : σ) : List β → Config β σ α → List (σ × σ)
  | [], _ => []
  | t :: ts, c => (c.entry t, out) :: ((D.joinOne out c t).map (pairsOfJoins out ts)).getD []

/-- The pairs of states joined in the visit of a block. -/
def pairsOfVisit (b : β) (c : Config β σ α) : List (σ × σ) :=
  match D.flow b c.aux (c.entry b) with
  | (_, none) => []
  | (aux, some (out, ts)) => D.pairsOfJoins out ts { c with aux := aux }

/-- The pairs of states joined in a run. -/
def pairsOfRun : ℕ → Config β σ α → List (σ × σ)
  | 0, _ => []
  | n + 1, c =>
    match c.worklist with
    | [] => []
    | b :: rest =>
      D.pairsOfVisit b { c with worklist := rest } ++
        ((D.visit b { c with worklist := rest }).map (pairsOfRun n)).getD []

/-! ## Satisfied blocks -/

/-- What is asked of the joins of certain pairs of states: a change is reported, the joined state
covers the operand, and it covers what was covered before. -/
structure Steady (Covers : σ → σ → Prop) (Pair : σ → σ → Prop) : Prop where
  reported : ∀ {a a' s e s'}, Pair s e → D.join a s e = some (a', s', false) → s' = s
  covers : ∀ {a a' s e s' changed}, Pair s e → D.join a s e = some (a', s', changed) → Covers s' e
  keeps : ∀ {a a' s e s' changed x}, Pair s e → D.join a s e = some (a', s', changed) →
    Covers s x → Covers s' x

/-- The flow joins into the target of every demand a state that covers the demanded one. -/
def Meets (Covers : σ → σ → Prop) (demand : β → σ → σ → β → Prop) : Prop :=
  ∀ b a s e t, demand b s e t → ∃ a' out ts, D.flow b a s = (a', some (out, ts)) ∧ t ∈ ts ∧
    ∀ x, Covers x out → Covers x e

/-- The demands of a block are covered by the entry states of their targets. -/
def Satisfied (Covers : σ → σ → Prop) (demand : β → σ → σ → β → Prop) (entry : β → σ) (b : β) :
    Prop :=
  ∀ e t, demand b (entry b) e t → Covers (entry t) e

/-- What a number of joins does: a block is on the worklist afterwards or has its entry state from
before, and what was covered stays covered. -/
structure Advances (Covers : σ → σ → Prop) (c c' : Config β σ α) : Prop where
  queued : ∀ b ∈ c.worklist, b ∈ c'.worklist
  same : ∀ b, b ∈ c'.worklist ∨ c'.entry b = c.entry b
  keeps : ∀ b x, Covers (c.entry b) x → Covers (c'.entry b) x

variable {D} {Covers : σ → σ → Prop} {Pair : σ → σ → Prop} {demand : β → σ → σ → β → Prop}

omit [DecidableEq β] in
lemma Advances.refl (c : Config β σ α) : Advances Covers c c :=
  ⟨fun _ hb => hb, fun _ => Or.inr rfl, fun _ _ hx => hx⟩

omit [DecidableEq β] in
lemma Advances.trans {c c₁ c₂ : Config β σ α} (h₁ : Advances Covers c c₁)
    (h₂ : Advances Covers c₁ c₂) : Advances Covers c c₂ := by
  constructor
  · exact fun b hb => h₂.queued b (h₁.queued b hb)
  · intro b
    rcases h₁.same b with hqueued | hsame
    · exact Or.inl (h₂.queued b hqueued)
    · rw [← hsame]
      exact h₂.same b
  · exact fun b x hx => h₂.keeps b x (h₁.keeps b x hx)

lemma joinOne_advances (hD : D.Steady Covers Pair) {out : σ} {c c' : Config β σ α} {t : β}
    (hpair : Pair (c.entry t) out) (h : D.joinOne out c t = some c') :
    Advances Covers c c' ∧ Covers (c'.entry t) out := by
  obtain ⟨⟨aux, s, changed⟩, hjoin, rfl⟩ := Option.map_eq_some_iff.mp h
  refine ⟨⟨?_, ?_, ?_⟩, ?_⟩
  · intro b hb
    dsimp only
    split
    · exact List.mem_append_left _ hb
    · exact hb
  · intro b
    dsimp only
    by_cases hbt : b = t
    · subst hbt
      cases changed with
      | false =>
        refine Or.inr ?_
        rw [Function.update_self]
        exact hD.reported hpair hjoin
      | true =>
        refine Or.inl ?_
        by_cases hmem : b ∈ c.worklist
        · rw [if_neg fun h => h.2 hmem]
          exact hmem
        · rw [if_pos ⟨rfl, hmem⟩]
          exact List.mem_append_right _ List.mem_cons_self
    · exact Or.inr (Function.update_of_ne hbt _ _)
  · intro b x hx
    dsimp only
    by_cases hbt : b = t
    · subst hbt
      rw [Function.update_self]
      exact hD.keeps hpair hjoin hx
    · rw [Function.update_of_ne hbt]
      exact hx
  · dsimp only
    rw [Function.update_self]
    exact hD.covers hpair hjoin

lemma joinAll_advances (hD : D.Steady Covers Pair) {out : σ} {ts : List β} {c c' : Config β σ α}
    (hpairs : ∀ p ∈ D.pairsOfJoins out ts c, Pair p.1 p.2) (h : D.joinAll out ts c = some c') :
    Advances Covers c c' ∧ ∀ t ∈ ts, Covers (c'.entry t) out := by
  induction ts generalizing c with
  | nil =>
    cases h
    exact ⟨Advances.refl _, fun t ht => absurd ht List.not_mem_nil⟩
  | cons t ts ih =>
    obtain ⟨c₁, hone, hrest⟩ := Option.bind_eq_some_iff.mp h
    rw [pairsOfJoins, hone] at hpairs
    obtain ⟨hfirst, hcovers⟩ := joinOne_advances hD (hpairs _ List.mem_cons_self) hone
    obtain ⟨hadv, hall⟩ := ih (fun p hp => hpairs p (List.mem_cons_of_mem _ hp)) hrest
    refine ⟨hfirst.trans hadv, fun t' ht' => ?_⟩
    rcases List.mem_cons.mp ht' with rfl | htail
    · exact hadv.keeps _ _ hcovers
    · exact hall t' htail

/-- A visit satisfies its block, unless the block is on the worklist again. -/
lemma visit_advances (hD : D.Steady Covers Pair) (hmeets : D.Meets Covers demand) {b : β}
    {c c' : Config β σ α} (hpairs : ∀ p ∈ D.pairsOfVisit b c, Pair p.1 p.2)
    (h : D.visit b c = some c') :
    Advances Covers c c' ∧ (b ∈ c'.worklist ∨ Satisfied Covers demand c'.entry b) := by
  unfold visit at h
  unfold pairsOfVisit at hpairs
  rcases hflow : D.flow b c.aux (c.entry b) with ⟨aux, none | ⟨out, ts⟩⟩
  · rw [hflow] at h
    obtain rfl := Option.some.inj h
    refine ⟨⟨fun _ hb => hb, fun _ => Or.inr rfl, fun _ _ hx => hx⟩, Or.inr fun e t hdemand => ?_⟩
    obtain ⟨a', out, ts, hsome, -⟩ := hmeets b _ _ e t hdemand
    exact absurd (hflow.symm.trans hsome) (by simp)
  · rw [hflow] at h hpairs
    obtain ⟨hadv, hall⟩ := joinAll_advances hD hpairs h
    refine ⟨⟨hadv.queued, hadv.same, hadv.keeps⟩, ?_⟩
    rcases hadv.same b with hqueued | hsame
    · exact Or.inl hqueued
    · refine Or.inr fun e t hdemand => ?_
      rw [hsame] at hdemand
      obtain ⟨a', out', ts', hsome, ht, hout⟩ := hmeets b c.aux _ e t hdemand
      rw [hflow] at hsome
      cases hsome
      exact hout _ (hall t ht)

/-- When the worklist is empty, every block is satisfied. -/
theorem satisfied_of_run (hD : D.Steady Covers Pair) (hmeets : D.Meets Covers demand) {n : ℕ}
    {c c' : Config β σ α} (hpairs : ∀ p ∈ D.pairsOfRun n c, Pair p.1 p.2)
    (hinit : ∀ b, b ∈ c.worklist ∨ Satisfied Covers demand c.entry b) (h : D.run n c = some c') :
    ∀ b, Satisfied Covers demand c'.entry b := by
  induction n generalizing c with
  | zero => cases h
  | succ n ih =>
    rw [run] at h
    rw [pairsOfRun] at hpairs
    rcases hlist : c.worklist with _ | ⟨b, rest⟩
    · rw [hlist] at h
      cases h
      intro b
      rcases hinit b with hqueued | hsat
      · rw [hlist] at hqueued
        exact absurd hqueued List.not_mem_nil
      · exact hsat
    · rw [hlist] at h hpairs
      obtain ⟨c₁, hvisit, hrun⟩ := Option.bind_eq_some_iff.mp h
      dsimp only at hpairs
      rw [hvisit] at hpairs
      obtain ⟨hadv, hblock⟩ :=
        visit_advances hD hmeets (fun p hp => hpairs p (List.mem_append_left _ hp)) hvisit
      refine ih (fun p hp => hpairs p (List.mem_append_right _ hp)) (fun b' => ?_) hrun
      by_cases hbb : b' = b
      · subst hbb
        exact hblock
      · rcases hinit b' with hqueued | hsat
        · rw [hlist] at hqueued
          exact Or.inl (hadv.queued b' ((List.mem_cons.mp hqueued).resolve_left hbb))
        · rcases hadv.same b' with hqueued | hsame
          · exact Or.inl hqueued
          · refine Or.inr fun e t hdemand => hadv.keeps t e (hsat e t ?_)
            rw [hsame] at hdemand
            exact hdemand

end Dataflow

end Cangjie
