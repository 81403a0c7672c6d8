import CangjieCompiler.Sema.EliminateRecursiveTypes.GraphOperations

/-!
# The components of the graph

The search here numbers vertices from zero and asks whether a vertex has an index, while the general
one numbers them from one and reads zero for a vertex without index.  Apart from this the two go
together step by step, so what is known of the general search carries over.
-/

namespace Cangjie.EliminateRecursiveTypes

variable {δ : Type} [LinearOrder δ]

namespace Graph

variable {isEnum : δ → Bool} {g : Graph δ}

/-! ## The two searches go together -/

/-- An index that is counted from one, with zero for none. -/
def shifted (i : Option ℕ) : ℕ := i.elim 0 (· + 1)

/-- Two states of the searches that agree. -/
structure Sim (isEnum : δ → Bool) (g : Graph δ) (ctx : TarjanContext δ) (s : Tarjan.State δ) :
    Prop where
  index : s.index = ctx.index
  stack : s.st = ctx.stack
  idx : ∀ v, s.idx v = shifted (ctx.indices.find? v)
  low : ∀ v, s.low v = shifted (ctx.lowlinks.find? v)
  on : ∀ v, s.on v = ctx.onStack.valueD v false
  low_idx : ∀ v, ctx.indices.find? v = none ↔ ctx.lowlinks.find? v = none
  sccs : ctx.sccs = s.components.map (g.subGraph isEnum)

lemma shifted_eq_zero {i : Option ℕ} : shifted i = 0 ↔ i = none := by
  cases i with
  | none => exact iff_of_true rfl rfl
  | some i => exact iff_of_false (Nat.succ_ne_zero i) (by simp)

lemma Sim.start : Sim isEnum g TarjanContext.start (Tarjan.State.start : Tarjan.State δ) where
  index := rfl
  stack := rfl
  idx _ := rfl
  low _ := rfl
  on _ := rfl
  low_idx _ := Iff.rfl
  sccs := rfl

variable {ctx : TarjanContext δ} {s : Tarjan.State δ}

lemma Sim.idx_eq_zero (h : Sim isEnum g ctx s) (v : δ) :
    s.idx v = 0 ↔ ctx.indices.find? v = none := by
  rw [h.idx, shifted_eq_zero]

/-- A visited vertex has the same index but for the shift. -/
lemma Sim.idx_succ (h : Sim isEnum g ctx s) {v : δ} (hv : ctx.indices.find? v ≠ none) :
    s.idx v = ctx.indices.valueD v 0 + 1 := by
  obtain ⟨i, hi⟩ := Option.ne_none_iff_exists'.mp hv
  rw [h.idx, OrderedMap.valueD, hi]
  rfl

lemma Sim.low_succ (h : Sim isEnum g ctx s) {v : δ} (hv : ctx.indices.find? v ≠ none) :
    s.low v = ctx.lowlinks.valueD v 0 + 1 := by
  have hlow : ctx.lowlinks.find? v ≠ none := fun hnone => hv ((h.low_idx v).mpr hnone)
  obtain ⟨i, hi⟩ := Option.ne_none_iff_exists'.mp hlow
  rw [h.low, OrderedMap.valueD, hi]
  rfl

lemma Sim.push (h : Sim isEnum g ctx s) (u : δ) : Sim isEnum g (ctx.push u) (s.push u) where
  index := congrArg (· + 1) h.index
  stack := congrArg (u :: ·) h.stack
  idx v := by
    rw [s.idx_push, TarjanContext.push, OrderedMap.find?_assign]
    split_ifs
    · exact congrArg (· + 1) h.index
    · exact h.idx v
  low v := by
    rw [s.low_push, TarjanContext.push, OrderedMap.find?_assign]
    split_ifs
    · exact congrArg (· + 1) h.index
    · exact h.low v
  on v := by
    rw [s.on_push, TarjanContext.push, OrderedMap.valueD_assign]
    split_ifs
    · rfl
    · exact h.on v
  low_idx v := by
    rw [TarjanContext.push, OrderedMap.find?_assign, OrderedMap.find?_assign]
    split_ifs
    · simp
    · exact h.low_idx v
  sccs := h.sccs

/-- Looking up an index or a mark in the general search makes no difference. -/
lemma Sim.touch (h : Sim isEnum g ctx s) (v : δ) : Sim isEnum g ctx (s.touch v) :=
  ⟨h.index, h.stack, fun w => (s.idx_touch v w).trans (h.idx w), h.low, h.on, h.low_idx, h.sccs⟩

lemma Sim.touchOnStack (h : Sim isEnum g ctx s) (v : δ) : Sim isEnum g ctx (s.touchOnStack v) :=
  ⟨h.index, h.stack, h.idx, h.low, fun w => (s.on_touchOnStack v w).trans (h.on w), h.low_idx,
    h.sccs⟩

lemma Sim.lower (h : Sim isEnum g ctx s) {u : δ} (hu : ctx.indices.find? u ≠ none) (k : ℕ) :
    Sim isEnum g (ctx.lower u k) (s.lower u (k + 1)) where
  index := h.index
  stack := h.stack
  idx := h.idx
  low v := by
    rw [s.low_lower, TarjanContext.lower, OrderedMap.find?_assign, h.low_succ hu]
    split_ifs
    · exact Nat.add_min_add_right _ _ _
    · exact h.low v
  on := h.on
  low_idx v := by
    rw [TarjanContext.lower, OrderedMap.find?_assign]
    split_ifs with heq
    · exact iff_of_false (heq ▸ hu) (by simp)
    · exact h.low_idx v
  sccs := h.sccs

/-- The marks that are cleared depend on the marks there were only through their values. -/
lemma popTo_congr (u : δ) (st : List δ) (marks marks' : OrderedMap δ Bool)
    (h : ∀ v, marks.valueD v false = marks'.valueD v false) :
    (Tarjan.State.popTo u st marks).1 = (Tarjan.State.popTo u st marks').1 ∧
      (Tarjan.State.popTo u st marks).2.2 = (Tarjan.State.popTo u st marks').2.2 ∧
      ∀ v, (Tarjan.State.popTo u st marks).2.1.valueD v false =
        (Tarjan.State.popTo u st marks').2.1.valueD v false := by
  induction st generalizing marks marks' with
  | nil => exact ⟨rfl, rfl, h⟩
  | cons x st ih =>
    have hnext : ∀ v, (marks.assign x false).valueD v false =
        (marks'.assign x false).valueD v false := by
      intro v
      rw [OrderedMap.valueD_assign, OrderedMap.valueD_assign, h v]
    rw [Tarjan.State.popTo, Tarjan.State.popTo]
    split_ifs
    · exact ⟨rfl, rfl, hnext⟩
    · obtain ⟨hinfos, hst, hmarks⟩ := ih _ _ hnext
      exact ⟨congrArg (x :: ·) hinfos, hst, hmarks⟩

lemma Sim.popComponent (h : Sim isEnum g ctx s) (u : δ) :
    Sim isEnum g (g.popComponent isEnum u ctx) (s.popComponent u) := by
  obtain ⟨hinfos, hst, hmarks⟩ := popTo_congr u ctx.stack s.onStack ctx.onStack h.on
  rw [← h.stack] at hinfos hst hmarks
  refine ⟨h.index, ?_, h.idx, h.low, ?_, h.low_idx, ?_⟩
  · rw [Graph.popComponent, ← h.stack]
    exact hst
  · rw [Graph.popComponent, ← h.stack]
    exact hmarks
  · rw [Graph.popComponent, ← h.stack, Tarjan.State.popComponent]
    dsimp only
    rw [h.sccs, hinfos, List.map_append, List.map_singleton]

/-- A visit of the general search is one of this search. -/
def VisitSim (isEnum : δ → Bool) (g : Graph δ) (n : ℕ) : Prop :=
  ∀ u ctx s s', Sim isEnum g ctx s → Tarjan.visit g.out n u s = some s' →
    ∃ ctx', g.tarjanSCC isEnum n u ctx = some ctx' ∧ Sim isEnum g ctx' s'

lemma sim_visitTarget {n : ℕ} (hvisit : VisitSim isEnum g n) {u v : δ} {s' : Tarjan.State δ}
    (h : Sim isEnum g ctx s) (hu : s.idx u ≠ 0)
    (hrun : Tarjan.visitDep (Tarjan.visit g.out n) u v s = some s') :
    ∃ ctx', visitTarget (g.tarjanSCC isEnum n) u v ctx = some ctx' ∧ Sim isEnum g ctx' s' := by
  rw [Tarjan.visitDep] at hrun
  dsimp only at hrun
  rw [Tarjan.State.idx_touch] at hrun
  rw [visitTarget]
  by_cases hv : s.idx v = 0
  · rw [if_pos hv] at hrun
    rw [if_pos ((h.idx_eq_zero v).mp hv)]
    obtain ⟨t, ht, rfl⟩ := Option.map_eq_some_iff.mp hrun
    obtain ⟨ctx', hctx', hsim⟩ := hvisit v ctx _ t (h.touch v) ht
    obtain ⟨hkeeps, hvisited⟩ := Tarjan.keeps_visit ht
    have hv' : ctx'.indices.find? v ≠ none := (hsim.idx_eq_zero v).not.mp hvisited
    have hu' : ctx'.indices.find? u ≠ none := by
      refine (hsim.idx_eq_zero u).not.mp (hkeeps u ?_)
      rw [Tarjan.State.idx_touch]
      exact hu
    rw [hctx', Option.map_some, hsim.low_succ hv']
    exact ⟨_, rfl, hsim.lower hu' _⟩
  · rw [if_neg hv] at hrun
    have hv' : ctx.indices.find? v ≠ none := (h.idx_eq_zero v).not.mp hv
    have hu' : ctx.indices.find? u ≠ none := (h.idx_eq_zero u).not.mp hu
    have hsim := (h.touch v).touchOnStack v
    rw [if_neg hv']
    obtain rfl := Option.some.inj hrun
    rw [hsim.on]
    split_ifs
    · rw [hsim.idx_succ hv']
      exact ⟨_, rfl, hsim.lower hu' _⟩
    · exact ⟨ctx, rfl, hsim⟩

lemma sim_visitTargets {n : ℕ} (hvisit : VisitSim isEnum g n) {u : δ} {vs : List δ}
    {ctx : TarjanContext δ} {s s' : Tarjan.State δ} (h : Sim isEnum g ctx s) (hu : s.idx u ≠ 0)
    (hrun : Tarjan.visitDeps (Tarjan.visit g.out n) u vs s = some s') :
    ∃ ctx', visitTargets (g.tarjanSCC isEnum n) u vs ctx = some ctx' ∧ Sim isEnum g ctx' s' := by
  induction vs generalizing ctx s with
  | nil =>
    obtain rfl := Option.some.inj hrun
    exact ⟨ctx, rfl, h⟩
  | cons v vs ih =>
    rw [Tarjan.visitDeps] at hrun
    obtain ⟨t, hfirst, hrest⟩ := Option.bind_eq_some_iff.mp hrun
    obtain ⟨ctx', hctx', hsim⟩ := sim_visitTarget hvisit h hu hfirst
    have hkeeps := Tarjan.keeps_visitDep (fun v s s' hv => (Tarjan.keeps_visit hv).1) hfirst
    obtain ⟨ctx'', hctx'', hsim'⟩ := ih hsim (hkeeps u hu) hrest
    refine ⟨ctx'', ?_, hsim'⟩
    rw [visitTargets, hctx', Option.bind_some, hctx'']

theorem sim_tarjanSCC (n : ℕ) : VisitSim isEnum g n := by
  induction n with
  | zero =>
    intro u ctx s s' _ hrun
    exact absurd hrun (by simp [Tarjan.visit])
  | succ n ih =>
    intro u ctx s s' h hrun
    rw [Tarjan.visit] at hrun
    obtain ⟨t, hloop, rfl⟩ := Option.map_eq_some_iff.mp hrun
    have hroot := (Tarjan.keeps_push u s).2
    obtain ⟨ctx', hctx', hsim⟩ := sim_visitTargets ih (h.push u) hroot hloop
    have hvisited : t.idx u ≠ 0 :=
      Tarjan.keeps_visitDeps (fun v s s' hv => (Tarjan.keeps_visit hv).1) hloop u hroot
    have hu : ctx'.indices.find? u ≠ none := (hsim.idx_eq_zero u).not.mp hvisited
    rw [tarjanSCC, hctx', Option.map_some]
    refine ⟨_, rfl, ?_⟩
    rw [hsim.low_succ hu, hsim.idx_succ hu]
    by_cases heq : ctx'.lowlinks.valueD u 0 = ctx'.indices.valueD u 0
    · rw [if_pos heq, if_pos (congrArg (· + 1) heq)]
      exact hsim.popComponent u
    · rw [if_neg heq, if_neg fun h' => heq (Nat.succ.inj h')]
      exact hsim

/-! ## All vertices -/

/-- The two searches between two visits from the top. -/
structure Ready (isEnum : δ → Bool) (g : Graph δ) (ctx : TarjanContext δ) (s : Tarjan.State δ) :
    Prop where
  sim : Sim isEnum g ctx s
  inv : Tarjan.Inv g.out s
  keysIn : Tarjan.KeysIn g.vertices.elems s
  st_eq : s.st = []

lemma visitVertices_spec (hwf : OutWF g) {us : List δ} (hus : ∀ u ∈ us, u ∈ g.vertices)
    {ctx : TarjanContext δ} {s : Tarjan.State δ} (h : Ready isEnum g ctx s) :
    ∃ ctx' s', g.visitVertices isEnum us ctx = some ctx' ∧ Ready isEnum g ctx' s' ∧
      (∀ u, s.idx u ≠ 0 → s'.idx u ≠ 0) ∧ ∀ u ∈ us, s'.idx u ≠ 0 := by
  induction us generalizing ctx s with
  | nil => exact ⟨ctx, s, rfl, h, fun _ hu => hu, fun _ hu => absurd hu List.not_mem_nil⟩
  | cons u us ih =>
    have hu : u ∈ g.vertices := hus u List.mem_cons_self
    have hrest : ∀ v ∈ us, v ∈ g.vertices := fun v hv => hus v (List.mem_cons_of_mem _ hv)
    have hnext : ∃ ctx₁ s₁, (if ctx.indices.find? u = none then
        g.tarjanSCC isEnum g.vertices.elems.length u ctx else some ctx) = some ctx₁ ∧
          Ready isEnum g ctx₁ s₁ ∧ (∀ v, s.idx v ≠ 0 → s₁.idx v ≠ 0) ∧ s₁.idx u ≠ 0 := by
      by_cases hidx : s.idx u = 0
      · rw [if_pos ((h.sim.idx_eq_zero u).mp hidx)]
        have hV : ∀ v ∈ g.vertices.elems, ∀ w ∈ g.out v, w ∈ g.vertices.elems :=
          fun v _ w hw => hwf.target v w hw
        have hkeys : Tarjan.KeysInBut g.vertices.elems u s :=
          fun v i hv => ⟨fun _ => (h.keysIn v i hv).1, (h.keysIn v i hv).2⟩
        obtain ⟨s₁, hrun, hinv, hkeys', hst, hvisited, hold⟩ := Tarjan.visit_of_empty hV hu h.inv
          hidx hkeys h.st_eq (List.countP_le_length)
        obtain ⟨ctx₁, hctx₁, hsim⟩ := sim_tarjanSCC _ u ctx s s₁ h.sim hrun
        exact ⟨ctx₁, s₁, hctx₁, ⟨hsim, hinv, hkeys', hst⟩, hold, hvisited⟩
      · rw [if_neg ((h.sim.idx_eq_zero u).not.mp hidx)]
        exact ⟨ctx, s, rfl, h, fun _ hv => hv, hidx⟩
    obtain ⟨ctx₁, s₁, hrun, hready, hold, hvisited⟩ := hnext
    obtain ⟨ctx', s', hrun', hready', hold', hvisited'⟩ := ih hrest hready
    refine ⟨ctx', s', ?_, hready', fun v hv => hold' v (hold v hv), fun v hv => ?_⟩
    · rw [visitVertices, hrun, Option.bind_some, hrun']
    · rcases List.mem_cons.mp hv with rfl | hv
      · exact hold' v hvisited
      · exact hvisited' v hv

/-- The components of a graph: the parts induced by the classes of vertices that reach each
other. -/
structure IsComponents (isEnum : δ → Bool) (g : Graph δ) (parts : List (List δ))
    (sccs : List (Graph δ)) : Prop where
  sccs_eq : sccs = parts.map (g.subGraph isEnum)
  nonempty : ∀ c ∈ parts, c ≠ []
  scc : ∀ c ∈ parts, ∀ u ∈ c, ∀ v,
    v ∈ c ↔ Tarjan.Reach g.out u v ∧ Tarjan.Reach g.out v u
  perm : parts.flatten.Perm g.vertices.elems

/-- The search for components ends, and finds them. -/
theorem stronglyConnectedComponents_spec (isEnum : δ → Bool) (hwf : OutWF g) :
    ∃ parts sccs, g.stronglyConnectedComponents isEnum = some sccs ∧
      IsComponents isEnum g parts sccs := by
  have hstart : Ready isEnum g TarjanContext.start Tarjan.State.start :=
    ⟨Sim.start, Tarjan.Inv.start, fun v i hv => absurd hv (by simp [Tarjan.State.start]), rfl⟩
  obtain ⟨ctx, s, hrun, hready, -, hall⟩ := visitVertices_spec hwf (fun _ hu => hu) hstart
  refine ⟨s.components, ctx.sccs, ?_, hready.sim.sccs, fun c hc => (hready.inv.scc c hc).1,
    fun c hc => (hready.inv.scc c hc).2, ?_⟩
  · rw [stronglyConnectedComponents, hrun, Option.map_some]
  · have hnodup := (List.nodup_append.mp hready.inv.nodup).2.1
    refine (List.perm_ext_iff_of_nodup hnodup g.vertices.nodup).mpr fun u => ⟨fun hu => ?_, ?_⟩
    · have hvisited := (hready.inv.visited_iff u).mpr (Or.inr hu)
      rw [Tarjan.State.idx, OrderedMap.valueD] at hvisited
      cases hfind : s.indices.find? u with
      | none => exact absurd (by rw [hfind]; rfl) hvisited
      | some i => exact (hready.keysIn u i hfind).2
    · intro hu
      have hor := (hready.inv.visited_iff u).mp (hall u hu)
      rw [hready.st_eq] at hor
      exact hor.resolve_left List.not_mem_nil

end Graph

end Cangjie.EliminateRecursiveTypes
