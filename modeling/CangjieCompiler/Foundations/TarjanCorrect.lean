import CangjieCompiler.Foundations.Tarjan
import Mathlib.Data.List.Count

/-!
# Correctness of the search for components

The visit of a vertex ends when the bound on its depth is at least the number of unvisited
vertices, and keeps the invariant.  While the successors of a vertex are visited, its low link is
the least index among those on the stack below it that the new part of the stack has edges to, or
its own index when there are none.  In the latter case the new part cannot reach the rest of the
stack, and is a strongly connected component.
-/

namespace Cangjie

namespace Tarjan

variable {α : Type} [LinearOrder α] {deps : α → List α}

/-! ## Starting a visit -/

lemma Inv.push {s : State α} (h : Inv deps s) {u : α} (hu : s.idx u = 0) :
    Inv deps (s.push u) where
  on_iff v := by
    rw [s.on_push]
    by_cases huv : u = v
    · exact iff_of_true (if_pos huv) (huv ▸ List.mem_cons_self)
    · rw [if_neg huv, h.on_iff]
      exact (List.mem_cons.trans (or_iff_right (Ne.symm huv))).symm
  visited_iff v := by
    rw [s.idx_push]
    by_cases huv : u = v
    · rw [if_pos huv]
      exact iff_of_true (Nat.succ_ne_zero _) (Or.inl (huv ▸ List.mem_cons_self))
    · rw [if_neg huv, h.visited_iff]
      exact or_congr (List.mem_cons.trans (or_iff_right (Ne.symm huv))).symm Iff.rfl
  nodup := by
    refine List.nodup_cons.mpr ⟨fun hmem => ?_, h.nodup⟩
    rcases List.mem_append.mp hmem with hst | hcomponents
    · exact (h.not_visited hu).1 hst
    · exact (h.not_visited hu).2 hcomponents
  sorted := by
    refine List.pairwise_cons.mpr ⟨fun v hv => ?_, ?_⟩
    · rw [s.idx_push, s.idx_push, if_pos rfl]
      have hne : u ≠ v := fun heq => (h.not_visited hu).1 (heq ▸ hv)
      rw [if_neg hne]
      exact Nat.lt_succ_of_le (h.idx_le v)
    · refine h.sorted.imp_of_mem fun {a b} ha hb hab => ?_
      have hua : u ≠ a := fun heq => (h.not_visited hu).1 (heq ▸ ha)
      have hub : u ≠ b := fun heq => (h.not_visited hu).1 (heq ▸ hb)
      rw [s.idx_push, s.idx_push, if_neg hua, if_neg hub]
      exact hab
  idx_le v := by
    rw [s.idx_push]
    split_ifs
    · exact le_rfl
    · exact (h.idx_le v).trans (Nat.le_succ _)
  closed := h.closed
  scc := h.scc
  ordered := h.ordered

/-- A vertex that is pushed is all that is new. -/
lemma loopPost_push {s : State α} (h : Inv deps s) {u : α} (hu : s.idx u = 0) :
    LoopPost deps u s (s.push u) [] [] := by
  have hold : ∀ v, s.idx v ≠ 0 → u ≠ v := fun v hv heq => hv (heq ▸ hu)
  have hnew : ∀ v, s.idx v = 0 → (s.push u).idx v ≠ 0 → v = u := by
    intro v hv hvisited
    by_contra hne
    rw [s.idx_push, if_neg (Ne.symm hne)] at hvisited
    exact hvisited hv
  have hroot : (s.push u).idx u = s.index + 1 := by rw [s.idx_push, if_pos rfl]
  have hlow : (s.push u).low u = (s.push u).idx u := by rw [s.low_push, hroot, if_pos rfl]
  refine ⟨⟨h.push hu, rfl, Nat.le_succ _, ?_, ?_, ?_, ?_⟩, hroot, ?_, ?_, ?_, ?_, ?_, hlow.le,
    Or.inl hlow⟩
  · exact fun v hv => by rw [s.idx_push, if_neg (hold v hv)]
  · exact fun v hv => by rw [s.low_push, if_neg (hold v hv)]
  · intro v hv hvisited
    obtain rfl := hnew v hv hvisited
    exact ⟨.refl, by rw [hroot]; exact Nat.lt_succ_self _⟩
  · intro v hv
    rw [List.nil_append] at hv
    exact List.mem_singleton.mp hv ▸ hu
  · exact fun v hne hv hvisited => absurd (hnew v hv hvisited) hne
  all_goals exact fun _ hmem => absurd hmem List.not_mem_nil

/-! ## Growing -/

/-- A visit from a vertex that can be reached continues another one. -/
lemma Grown.trans {u v : α} {s s' s'' : State α} {new new' : List α}
    (h : Grown deps u s s' new) (h' : Grown deps v s' s'' new') (hreach : Reach deps u v) :
    Grown deps u s s'' (new' ++ new) where
  inv := h'.inv
  st_eq := by rw [h'.st_eq, h.st_eq, List.append_assoc]
  index_le := h.index_le.trans h'.index_le
  idx_old w hw := by
    have hmid : s'.idx w ≠ 0 := by rw [h.idx_old w hw]; exact hw
    rw [h'.idx_old w hmid, h.idx_old w hw]
  low_old w hw := by
    have hmid : s'.idx w ≠ 0 := by rw [h.idx_old w hw]; exact hw
    rw [h'.low_old w hmid, h.low_old w hw]
  reach_new w hw hvisited := by
    by_cases hmid : s'.idx w = 0
    · obtain ⟨hvw, hlt⟩ := h'.reach_new w hmid hvisited
      exact ⟨hreach.trans hvw, lt_of_le_of_lt h.index_le hlt⟩
    · rw [h'.idx_old w hmid]
      exact h.reach_new w hw hmid
  new_fresh w hw := by
    rcases List.mem_append.mp hw with hw' | hw
    · by_contra hvisited
      have hmid : s'.idx w ≠ 0 := by rw [h.idx_old w hvisited]; exact hvisited
      exact hmid (h'.new_fresh w hw')
    · exact h.new_fresh w hw

/-- Only maps read by a visit are filled, and the low link of a new vertex is lowered. -/
lemma Grown.congr {u : α} {s s' s'' : State α} {new : List α} (h : Grown deps u s s' new)
    (hidx : ∀ v, s''.idx v = s'.idx v) (hon : ∀ v, s''.on v = s'.on v) (hst : s''.st = s'.st)
    (hindex : s''.index = s'.index) (hcomponents : s''.components = s'.components)
    (hlow : ∀ v, s.idx v ≠ 0 → s''.low v = s'.low v) : Grown deps u s s'' new where
  inv := h.inv.congr hidx hon hst hindex hcomponents
  st_eq := by rw [hst, h.st_eq]
  index_le := by rw [hindex]; exact h.index_le
  idx_old v hv := by rw [hidx, h.idx_old v hv]
  low_old v hv := by rw [hlow v hv, h.low_old v hv]
  reach_new v hv hvisited := by
    rw [hidx] at hvisited ⊢
    exact h.reach_new v hv hvisited
  new_fresh := h.new_fresh

/-- A vertex above another one on the stack has a greater index. -/
lemma Grown.lt_of_mem {u : α} {s s' : State α} {new : List α} (h : Grown deps u s s' new) {x y : α}
    (hx : x ∈ new) (hy : y ∈ s.st) : s'.idx y < s'.idx x := by
  have hsorted := h.inv.sorted
  rw [h.st_eq] at hsorted
  exact (List.pairwise_append.mp hsorted).2.2 x hx y hy

namespace LoopPost

variable {u : α} {s s' : State α} {new done : List α}

lemma st_eq_cons (h : LoopPost deps u s s' new done) : s'.st = new ++ u :: s.st := by
  rw [h.st_eq, List.append_assoc, List.singleton_append]

lemma mem_st (h : LoopPost deps u s s' new done) {y : α} :
    y ∈ s'.st ↔ y ∈ new ∨ y = u ∨ y ∈ s.st := by
  rw [h.st_eq_cons, List.mem_append, List.mem_cons]

/-- The root and everything above it have indices no smaller than the low link of the root. -/
lemma low_le_idx (h : LoopPost deps u s s' new done) {y : α} (hy : y ∈ new ∨ y = u) :
    s'.low u ≤ s'.idx y := by
  rcases hy with hnew | rfl
  · have hsorted := h.inv.sorted
    rw [h.st_eq_cons] at hsorted
    have hlt := (List.pairwise_append.mp hsorted).2.2 y hnew u List.mem_cons_self
    exact h.low_le.trans hlt.le
  · exact h.low_le

lemma idx_st (h : LoopPost deps u s s' new done) (hs : Inv deps s) {y : α} (hy : y ∈ s.st) :
    s'.idx y = s.idx y :=
  h.idx_old y (hs.idx_ne_zero hy)

/-- Lowering the low link of the root to the index of something on the stack that it reaches. -/
lemma lower_top (h : LoopPost deps u s s' new done) (hs : Inv deps s) {v y : α} {k : ℕ}
    (hreach : Reach deps u v) (hk : (k = s'.idx y ∧ y ∈ s'.st ∧ Reach deps v y) ∨ s'.low u ≤ k) :
    min (s'.low u) k = s'.idx u ∨
      ∃ y ∈ s.st, min (s'.low u) k = s.idx y ∧ Reach deps u y := by
  by_cases hle : s'.low u ≤ k
  · rw [min_eq_left hle]
    exact h.top
  · obtain ⟨rfl, hy, hvy⟩ := hk.resolve_right hle
    rw [min_eq_right (not_le.mp hle).le]
    rcases h.mem_st.mp hy with hnew | rfl | hold
    · exact absurd (h.low_le_idx (Or.inl hnew)) hle
    · exact absurd (h.low_le_idx (Or.inr rfl)) hle
    · exact Or.inr ⟨y, hold, h.idx_st hs hold, hreach.trans hvy⟩

end LoopPost

/-! ## One successor -/

section Successor

variable {u v : α} {s s' : State α} {new done : List α}

/-- A successor that was visited before is done once the low link of the root is lowered to its
index if it was on the stack before the root. -/
lemma LoopPost.lowered (h : LoopPost deps u s s' new done) (hu : s.idx u = 0)
    (hv : s'.idx v ≠ 0) {s'' : State α} (hidx : ∀ w, s''.idx w = s'.idx w)
    (hon : ∀ w, s''.on w = s'.on w) (hst : s''.st = s'.st) (hindex : s''.index = s'.index)
    (hcomponents : s''.components = s'.components) (hlow : ∀ w, w ≠ u → s''.low w = s'.low w)
    (hle : s''.low u ≤ s'.low u) (hcross : v ∈ s.st → s''.low u ≤ s.idx v)
    (htop : s''.low u = s'.idx u ∨ ∃ y ∈ s.st, s''.low u = s.idx y ∧ Reach deps u y) :
    LoopPost deps u s s'' new (done ++ [v]) where
  toGrown := h.toGrown.congr hidx hon hst hindex hcomponents
    fun w hw => hlow w fun heq => hw (heq ▸ hu)
  idx_root := by rw [hidx, h.idx_root]
  no_white w hne hw hvisited x hx := by
    rw [hidx] at hvisited ⊢
    exact h.no_white w hne hw hvisited x hx
  done_visited w hw := by
    rw [hidx]
    rcases List.mem_append.mp hw with hdone | hlast
    · exact h.done_visited w hdone
    · exact List.mem_singleton.mp hlast ▸ hv
  back x hx := by
    obtain ⟨y, hy, hlt, hxy⟩ := h.back x hx
    exact ⟨y, hst ▸ hy, by rw [hidx, hidx]; exact hlt, hxy⟩
  cross x hx y hy hxy := hle.trans (h.cross x hx y hy hxy)
  cross_root w hw hwst := by
    rcases List.mem_append.mp hw with hdone | hlast
    · exact hle.trans (h.cross_root w hdone hwst)
    · obtain rfl := List.mem_singleton.mp hlast
      exact hcross hwst
  low_le := by
    rw [hidx]
    exact hle.trans h.low_le
  top := by
    rw [hidx]
    exact htop

/-- A successor that was visited before: the low link is lowered when it is on the stack. -/
lemma loopPost_visited (hs : Inv deps s) (hu : s.idx u = 0) (h : LoopPost deps u s s' new done)
    (huv : v ∈ deps u) (hv : s'.idx v ≠ 0) :
    LoopPost deps u s
      (if s'.on v then ((s'.touch v).touchOnStack v).lower u (s'.idx v)
        else (s'.touch v).touchOnStack v) new (done ++ [v]) := by
  have hidx : ∀ w, (s'.touch v).idx w = s'.idx w := s'.idx_touch v
  have hon : ∀ w, ((s'.touch v).touchOnStack v).on w = s'.on w := (s'.touch v).on_touchOnStack v
  split_ifs with honv
  · have hst : v ∈ s'.st := (h.inv.on_iff v).mp honv
    have hlow : ∀ w, (((s'.touch v).touchOnStack v).lower u (s'.idx v)).low w =
        if u = w then min (s'.low u) (s'.idx v) else s'.low w :=
      fun w => ((s'.touch v).touchOnStack v).low_lower u w (s'.idx v)
    have hroot : (((s'.touch v).touchOnStack v).lower u (s'.idx v)).low u =
        min (s'.low u) (s'.idx v) := by rw [hlow, if_pos rfl]
    refine h.lowered hu hv hidx hon rfl rfl rfl ?_ ?_ ?_ ?_
    · exact fun w hw => by rw [hlow, if_neg hw.symm]
    · rw [hroot]
      exact min_le_left _ _
    · intro hvst
      rw [hroot]
      exact (min_le_right _ _).trans (h.idx_st hs hvst).le
    · rw [hroot]
      exact h.lower_top hs (.single huv) (Or.inl ⟨rfl, hst, .refl⟩)
  · have hst : v ∉ s'.st := fun hmem => honv ((h.inv.on_iff v).mpr hmem)
    refine h.lowered hu hv hidx hon rfl rfl rfl (fun _ _ => rfl) le_rfl ?_ h.top
    exact fun hvst => absurd (h.mem_st.mpr (Or.inr (Or.inr hvst))) hst

/-- A successor visited from the root: the low link is lowered to that of the successor. -/
lemma loopPost_child (hs : Inv deps s) (hu : s.idx u = 0) (h : LoopPost deps u s s' new done)
    (huv : v ∈ deps u) {s'' : State α} {new' : List α} (hv : s'.idx v = 0)
    (h' : VisitPost deps v s' s'' new') :
    LoopPost deps u s (s''.lower u (s''.low v)) (new' ++ new) (done ++ [v]) := by
  have hroot' : s'.idx u ≠ 0 := by rw [h.idx_root]; exact Nat.succ_ne_zero _
  have hidxu : s''.idx u = s'.idx u := h'.idx_old u hroot'
  have hlowu : s''.low u = s'.low u := h'.low_old u hroot'
  have hmid : ∀ w, s'.idx w ≠ 0 → s''.idx w ≠ 0 := fun w hw => by rw [h'.idx_old w hw]; exact hw
  have hst : ∀ {y}, y ∈ s.st → y ∈ s'.st := fun hy => h.mem_st.mpr (Or.inr (Or.inr hy))
  have hlow : ∀ w, (s''.lower u (s''.low v)).low w =
      if u = w then min (s'.low u) (s''.low v) else s''.low w := by
    intro w
    rw [State.low_lower, hlowu]
  have hroot : (s''.lower u (s''.low v)).low u = min (s'.low u) (s''.low v) := by
    rw [hlow, if_pos rfl]
  have hgrown : Grown deps u s (s''.lower u (s''.low v)) (new' ++ new ++ [u]) := by
    have htrans := h.toGrown.trans h'.toGrown (.single huv)
    rw [← List.append_assoc] at htrans
    refine htrans.congr (fun _ => rfl) (fun _ => rfl) rfl rfl rfl fun w hw => ?_
    have hne : u ≠ w := fun heq => hw (heq ▸ hu)
    rw [hlow, if_neg hne]
  refine ⟨hgrown, ?_, ?_, ?_, ?_, ?_, ?_, ?_, ?_⟩
  · exact hidxu.trans h.idx_root
  · intro w hne hw hvisited x hx
    by_cases hwmid : s'.idx w = 0
    · exact h'.no_white w hwmid hvisited x hx
    · exact hmid x (h.no_white w hne hw hwmid x hx)
  · intro w hw
    rcases List.mem_append.mp hw with hdone | hlast
    · exact hmid w (h.done_visited w hdone)
    · exact List.mem_singleton.mp hlast ▸ h'.visited
  · intro x hx
    rcases List.mem_append.mp hx with hx' | hx
    · exact h'.back x hx'
    · obtain ⟨y, hy, hlt, hxy⟩ := h.back x hx
      have hxst : x ∈ s'.st := h.mem_st.mpr (Or.inl hx)
      refine ⟨y, ?_, ?_, hxy⟩
      · change y ∈ s''.st
        rw [h'.st_eq]
        exact List.mem_append_right _ hy
      · change s''.idx y < s''.idx x
        rw [h'.idx_old y (h.inv.idx_ne_zero hy), h'.idx_old x (h.inv.idx_ne_zero hxst)]
        exact hlt
  · intro x hx y hy hxy
    rw [hroot]
    rcases List.mem_append.mp hx with hx' | hx
    · have hcross := h'.cross x hx' y (hst hy) hxy
      rw [h.idx_st hs hy] at hcross
      exact (min_le_right _ _).trans hcross
    · exact (min_le_left _ _).trans (h.cross x hx y hy hxy)
  · intro w hw hwst
    rw [hroot]
    rcases List.mem_append.mp hw with hdone | hlast
    · exact (min_le_left _ _).trans (h.cross_root w hdone hwst)
    · obtain rfl := List.mem_singleton.mp hlast
      exact absurd hv (h.inv.idx_ne_zero (hst hwst))
  · rw [hroot]
    change _ ≤ s''.idx u
    rw [hidxu]
    exact (min_le_left _ _).trans h.low_le
  · rw [hroot]
    change _ = s''.idx u ∨ _
    rw [hidxu]
    rcases h'.top with ⟨-, hpopped⟩ | ⟨y, hy, hlowy, hvy⟩
    · -- the successor was taken off the stack, and its index is greater than that of the root
      refine h.lower_top (y := u) hs (.single huv) (Or.inr ?_)
      rw [hpopped]
      have hlt := (h'.reach_new v hv h'.visited).2
      exact h.low_le.trans ((h.inv.idx_le u).trans hlt.le)
    · exact h.lower_top hs (.single huv) (Or.inl ⟨hlowy, hy, hvy⟩)

end Successor

/-! ## The end of a visit -/

section Finish

variable {u : α} {s s' : State α} {new : List α}

/-- Everything that was newly visited has its successors visited. -/
lemma LoopPost.all_visited (h : LoopPost deps u s s' new (deps u)) {v : α} (hv : s.idx v = 0)
    (hvisited : s'.idx v ≠ 0) : ∀ w ∈ deps v, s'.idx w ≠ 0 := by
  by_cases hvu : v = u
  · rw [hvu]
    exact h.done_visited
  · exact h.no_white v hvu hv hvisited

/-- A vertex whose low link is below its index stays on the stack. -/
lemma visitPost_stay
    (h : LoopPost deps u s s' new (deps u)) (hne : s'.low u ≠ s'.idx u) :
    VisitPost deps u s s' (new ++ [u]) := by
  have htop := h.top.resolve_left hne
  refine ⟨h.toGrown, ?_, fun v hv hvisited => h.all_visited hv hvisited, ?_, ?_, Or.inr htop⟩
  · rw [h.idx_root]
    exact Nat.succ_ne_zero _
  · intro x hx
    rcases List.mem_append.mp hx with hnew | hroot
    · exact h.back x hnew
    · obtain rfl := List.mem_singleton.mp hroot
      obtain ⟨y, hy, -, hreach⟩ := htop
      exact ⟨y, h.mem_st.mpr (Or.inr (Or.inr hy)), h.toGrown.lt_of_mem hx hy, hreach⟩
  · intro x hx y hy hxy
    rcases List.mem_append.mp hx with hnew | hroot
    · exact h.cross x hnew y hy hxy
    · obtain rfl := List.mem_singleton.mp hroot
      exact h.cross_root y hxy hy

/-- When the low link of the root is its index, no edge leads from the new part to the rest of the
stack, and so the new part and the components are closed under edges. -/
lemma LoopPost.closed_new (hs : Inv deps s) (h : LoopPost deps u s s' new (deps u))
    (heq : s'.low u = s'.idx u) {v w : α}
    (hv : v ∈ new ++ [u] ∨ v ∈ s'.components.flatten) (hvw : Reach deps v w) :
    w ∈ new ++ [u] ∨ w ∈ s'.components.flatten := by
  induction hvw with
  | refl => exact hv
  | @tail x y _ hedge ih =>
    rcases ih with hx | hx
    · have hxst : x ∈ s'.st := by
        rw [h.st_eq]
        exact List.mem_append_left _ hx
      have hvisited : s'.idx y ≠ 0 :=
        h.all_visited (h.new_fresh x hx) (h.inv.idx_ne_zero hxst) y hedge
      rcases (h.inv.visited_iff y).mp hvisited with hst | hcomponents
      · rw [h.st_eq] at hst
        rcases List.mem_append.mp hst with hnew | hold
        · exact Or.inl hnew
        · -- an edge to the rest of the stack would have lowered the low link
          have hle : s'.low u ≤ s.idx y := by
            rcases List.mem_append.mp hx with hxnew | hroot
            · exact h.cross x hxnew y hold hedge
            · obtain rfl := List.mem_singleton.mp hroot
              exact h.cross_root y hedge hold
          have hlt : s'.idx y < s'.idx u :=
            h.toGrown.lt_of_mem (List.mem_append_right _ (List.mem_singleton.mpr rfl)) hold
          rw [heq, ← h.idx_st hs hold] at hle
          exact absurd hlt hle.not_gt
      · exact Or.inr hcomponents
    · exact Or.inr (h.inv.closed x hx y hedge)

/-- Everything new reaches the root when its low link is its index. -/
lemma LoopPost.reach_root (hs : Inv deps s) (h : LoopPost deps u s s' new (deps u))
    (heq : s'.low u = s'.idx u) {x : α} (hx : x ∈ new ++ [u]) : Reach deps x u := by
  induction hi : s'.idx x using Nat.strong_induction_on generalizing x with
  | _ i ih =>
    rcases List.mem_append.mp hx with hnew | hroot
    · obtain ⟨y, hy, hlt, hxy⟩ := h.back x hnew
      rcases h.closed_new hs heq (Or.inl hx) hxy with hynew | hycomponents
      · exact hxy.trans (ih _ (hi ▸ hlt) hynew rfl)
      · exact absurd hycomponents
          fun hmem => (List.nodup_append.mp h.inv.nodup).2.2 y hy y hmem rfl
    · exact List.mem_singleton.mp hroot ▸ .refl

lemma LoopPost.notMem_new (h : LoopPost deps u s s' new (deps u)) : u ∉ new := by
  have hnodup := (List.nodup_append.mp h.inv.nodup).1
  rw [h.st_eq_cons] at hnodup
  exact fun hmem => (List.nodup_append.mp hnodup).2.2 u hmem u List.mem_cons_self rfl

/-- A vertex whose low link is its index is taken off the stack with everything above it. -/
lemma visitPost_pop (hs : Inv deps s)
    (h : LoopPost deps u s s' new (deps u)) (heq : s'.low u = s'.idx u) :
    VisitPost deps u s (s'.popComponent u) [] := by
  obtain ⟨hinfos, hst, hmarks⟩ :=
    @State.popTo_eq α _ u new s.st s'.onStack h.notMem_new
  rw [← h.st_eq_cons] at hinfos hst hmarks
  have hst' : (s'.popComponent u).st = s.st := hst
  have hcomponents : (s'.popComponent u).components = s'.components ++ [new ++ [u]] :=
    congrArg (fun c => s'.components ++ [c]) hinfos
  have hon : ∀ v, (s'.popComponent u).on v = if v ∈ new ++ [u] then false else s'.on v := hmarks
  have hflatten : (s'.popComponent u).components.flatten =
      s'.components.flatten ++ (new ++ [u]) := by
    rw [hcomponents, List.flatten_append, List.flatten_singleton]
  have hnodup := h.inv.nodup
  rw [h.st_eq, List.append_assoc] at hnodup
  have hdisjoint : ∀ v ∈ new ++ [u], v ∉ s.st := fun v hv hold =>
    (List.nodup_append.mp hnodup).2.2 v hv v (List.mem_append_left _ hold) rfl
  have hclosed : ∀ v ∈ (s'.popComponent u).components.flatten, ∀ w ∈ deps v,
      w ∈ (s'.popComponent u).components.flatten := by
    intro v hv w hw
    rw [hflatten] at hv ⊢
    have hor := h.closed_new hs heq (List.mem_append.mp hv).symm (.single hw)
    exact List.mem_append.mpr hor.symm
  have houtside : ∀ v ∈ new ++ [u], v ∉ s'.components.flatten := fun v hv hold =>
    (List.nodup_append.mp hnodup).2.2 v hv v (List.mem_append_right _ hold) rfl
  have hreached : ∀ v ∈ new ++ [u], Reach deps u v := by
    intro v hv
    have hvst : v ∈ s'.st := by
      rw [h.st_eq]
      exact List.mem_append_left _ hv
    exact (h.reach_new v (h.new_fresh v hv) (h.inv.idx_ne_zero hvst)).1
  have hstays : ∀ {v w}, v ∈ s'.components.flatten → Reach deps v w →
      w ∈ s'.components.flatten := by
    intro v w hv hvw
    induction hvw with
    | refl => exact hv
    | tail _ hedge ih => exact h.inv.closed _ ih _ hedge
  have hinv : Inv deps (s'.popComponent u) := by
    refine ⟨?_, ?_, ?_, ?_, h.inv.idx_le, hclosed, ?_, ?_⟩
    · intro v
      rw [hon, hst']
      by_cases hv : v ∈ new ++ [u]
      · rw [if_pos hv]
        exact iff_of_false Bool.false_ne_true (hdisjoint v hv)
      · rw [if_neg hv, h.inv.on_iff, h.st_eq]
        exact List.mem_append.trans (or_iff_right hv)
    · intro v
      refine (h.inv.visited_iff v).trans ?_
      rw [hst', hflatten, h.st_eq]
      simp only [List.mem_append]
      tauto
    · rw [hst', hflatten, ← List.append_assoc]
      exact List.perm_append_comm.nodup_iff.mp hnodup
    · rw [hst']
      have hsorted := h.inv.sorted
      rw [h.st_eq] at hsorted
      exact (List.pairwise_append.mp hsorted).2.1
    · intro c hc
      rw [hcomponents] at hc
      rcases List.mem_append.mp hc with hold | hlast
      · exact h.inv.scc c hold
      · obtain rfl := List.mem_singleton.mp hlast
        refine ⟨by simp, fun v hv w => ⟨fun hw => ?_, fun hvw => ?_⟩⟩
        · exact ⟨(h.reach_root hs heq hv).trans (hreached w hw),
            (h.reach_root hs heq hw).trans (hreached v hv)⟩
        · rcases h.closed_new hs heq (Or.inl hv) hvw.1 with hnew | hold
          · exact hnew
          · exact absurd (hstays hold hvw.2) (houtside v hv)
    · rw [hcomponents]
      refine List.pairwise_append.mpr ⟨h.inv.ordered, List.pairwise_singleton _ _, ?_⟩
      intro c hc d hd v hv w hw hvw
      obtain rfl := List.mem_singleton.mp hd
      have hvcomponents : v ∈ s'.components.flatten := List.mem_flatten.mpr ⟨c, hc, hv⟩
      exact houtside w hw (h.inv.closed v hvcomponents w hvw)
  refine ⟨⟨hinv, hst', h.index_le, h.idx_old, h.low_old, h.reach_new, ?_⟩, ?_, ?_, ?_, ?_,
    Or.inl ⟨rfl, heq⟩⟩
  · exact fun v hv => absurd hv List.not_mem_nil
  · change s'.idx u ≠ 0
    rw [h.idx_root]
    exact Nat.succ_ne_zero _
  · exact fun v hv hvisited => h.all_visited hv hvisited
  · exact fun x hx => absurd hx List.not_mem_nil
  · exact fun x hx => absurd hx List.not_mem_nil

end Finish

/-! ## The visit ends -/

section Termination

variable (V : List α)

/-- The number of vertices that have not been visited. -/
def unvisited (s : State α) : ℕ := V.countP fun v => s.idx v = 0

/-- The keys of the indices are vertices, and none of them has index zero. -/
def KeysIn (s : State α) : Prop := ∀ v i, s.indices.find? v = some i → i ≠ 0 ∧ v ∈ V

/-- The same, but for the index of `u`. -/
def KeysInBut (u : α) (s : State α) : Prop :=
  ∀ v i, s.indices.find? v = some i → (v ≠ u → i ≠ 0) ∧ v ∈ V

variable {V}

lemma unvisited_le {s s' : State α} (h : ∀ v, s.idx v ≠ 0 → s'.idx v ≠ 0) :
    unvisited V s' ≤ unvisited V s := by
  refine List.countP_mono_left fun v _ hv => ?_
  rw [decide_eq_true_eq] at hv ⊢
  by_contra hne
  exact h v hne hv

lemma unvisited_lt {s s' : State α} (h : ∀ v, s.idx v ≠ 0 → s'.idx v ≠ 0) {u : α} (hu : u ∈ V)
    (hold : s.idx u = 0) (hnew : s'.idx u ≠ 0) : unvisited V s' < unvisited V s := by
  obtain ⟨pre, post, rfl⟩ := List.append_of_mem hu
  have hpre : unvisited pre s' ≤ unvisited pre s := unvisited_le h
  have hpost : unvisited post s' ≤ unvisited post s := unvisited_le h
  simp only [unvisited, List.countP_append, List.countP_cons] at hpre hpost ⊢
  simp only [hold, hnew, decide_true, decide_false, if_true, if_false, Bool.false_eq_true]
  omega

lemma keysInBut_touch {s : State α} (h : KeysIn V s) {v : α} (hv : v ∈ V) :
    KeysInBut V v (s.touch v) := by
  intro w i hw
  rw [State.touch, OrderedMap.find?_emplace] at hw
  split_ifs at hw with heq
  · exact ⟨fun hne => absurd heq.symm hne, heq ▸ hv⟩
  · exact ⟨fun _ => (h w i hw).1, (h w i hw).2⟩

lemma keysIn_touch {s : State α} (h : KeysIn V s) {v : α} (hv : s.idx v ≠ 0) :
    KeysIn V (s.touch v) := by
  intro w i hw
  rw [State.touch, OrderedMap.find?_emplace] at hw
  split_ifs at hw with heq
  · obtain rfl := Option.some.inj hw
    refine ⟨hv, ?_⟩
    cases hfind : s.indices.find? v with
    | none => exact absurd (by rw [State.idx, OrderedMap.valueD, hfind]; rfl) hv
    | some j => exact heq ▸ (h v j hfind).2
  · exact h w i hw

lemma keysIn_push {s : State α} {u : α} (h : KeysInBut V u s) (hu : u ∈ V) :
    KeysIn V (s.push u) := by
  intro w i hw
  rw [State.push, OrderedMap.find?_assign] at hw
  split_ifs at hw with heq
  · obtain rfl := Option.some.inj hw
    exact ⟨Nat.succ_ne_zero _, heq ▸ hu⟩
  · exact ⟨(h w i hw).1 fun heq' => heq heq'.symm, (h w i hw).2⟩

lemma keysIn_popComponent {s : State α} (h : KeysIn V s) (u : α) :
    KeysIn V (s.popComponent u) := h

/-- Looking up the index of a vertex before its visit makes no difference. -/
lemma VisitPost.of_touch {u w : α} {s s' : State α} {new : List α}
    (h : VisitPost deps u (s.touch w) s' new) : VisitPost deps u s s' new := by
  have hi : ∀ v, (s.touch w).idx v = s.idx v := s.idx_touch w
  refine ⟨⟨h.inv, h.st_eq, h.index_le, ?_, ?_, ?_, ?_⟩, h.visited, ?_, h.back, ?_, ?_⟩
  · exact fun v hv => by rw [← hi v] at hv ⊢; exact h.idx_old v hv
  · exact fun v hv => h.low_old v (by rw [hi]; exact hv)
  · exact fun v hv => h.reach_new v (by rw [hi]; exact hv)
  · exact fun v hv => by rw [← hi v]; exact h.new_fresh v hv
  · exact fun v hv => h.no_white v (by rw [hi]; exact hv)
  · exact fun x hx y hy hxy => by rw [← hi y]; exact h.cross x hx y hy hxy
  · refine h.top.imp_right fun ⟨y, hy, hlow, hreach⟩ => ⟨y, hy, ?_, hreach⟩
    rw [← hi y]
    exact hlow

/-- What the visits up to a depth do. -/
def VisitSpec (deps : α → List α) (V : List α) (n : ℕ) : Prop :=
  ∀ u s, u ∈ V → Inv deps s → s.idx u = 0 → KeysInBut V u s → unvisited V s ≤ n →
    ∃ s' new, visit deps n u s = some s' ∧ VisitPost deps u s s' new ∧ KeysIn V s'

/-- The successors of a vertex are visited one after the other. -/
lemma visitDeps_spec {n : ℕ} (hvisit : VisitSpec deps V n) (hV : ∀ v ∈ V, ∀ w ∈ deps v, w ∈ V)
    {u : α} {s : State α} (huV : u ∈ V) (hs : Inv deps s) (hu : s.idx u = 0) {vs : List α}
    (hvs : ∀ v ∈ vs, v ∈ deps u) {s' : State α} {new done : List α}
    (h : LoopPost deps u s s' new done) (hkeys : KeysIn V s') (hn : unvisited V s' ≤ n) :
    ∃ s'' new', visitDeps (visit deps n) u vs s' = some s'' ∧
      LoopPost deps u s s'' new' (done ++ vs) ∧ KeysIn V s'' := by
  induction vs generalizing s' new done with
  | nil => exact ⟨s', new, rfl, by rw [List.append_nil]; exact h, hkeys⟩
  | cons v vs ih =>
    have huv : v ∈ deps u := hvs v List.mem_cons_self
    have hrest : ∀ w ∈ vs, w ∈ deps u := fun w hw => hvs w (List.mem_cons_of_mem _ hw)
    have hvV : v ∈ V := hV u huV v huv
    rw [visitDeps, visitDep]
    dsimp only
    rw [State.idx_touch]
    by_cases hv : s'.idx v = 0
    · rw [if_pos hv]
      have htouched : Inv deps (s'.touch v) :=
        h.inv.congr (s'.idx_touch v) (fun _ => rfl) rfl rfl rfl
      have hcount : unvisited V (s'.touch v) ≤ n :=
        (unvisited_le fun w hw => by rw [State.idx_touch]; exact hw).trans hn
      obtain ⟨s'', new', hrun, hpost, hkeys'⟩ := hvisit v (s'.touch v) hvV htouched
        (by rw [State.idx_touch]; exact hv) (keysInBut_touch hkeys hvV) hcount
      have hchild := loopPost_child hs hu h huv hv hpost.of_touch
      have hcount' : unvisited V (s''.lower u (s''.low v)) ≤ n := by
        refine le_trans (unvisited_le fun w hw => ?_) hn
        have hold : s''.idx w = s'.idx w := hpost.of_touch.idx_old w hw
        exact fun hzero => hw (hold.symm.trans hzero)
      obtain ⟨r, new'', hrun', hloop, hkeys''⟩ := ih hrest hchild hkeys' hcount'
      refine ⟨r, new'', ?_, ?_, hkeys''⟩
      · rw [hrun, Option.map_some, Option.bind_some, hrun']
      · rw [List.append_assoc, List.singleton_append] at hloop
        exact hloop
    · rw [if_neg hv]
      rw [Option.bind_some, State.on_touchOnStack]
      have hkeys' : KeysIn V (if s'.on v then ((s'.touch v).touchOnStack v).lower u (s'.idx v)
          else (s'.touch v).touchOnStack v) := by
        split_ifs <;> exact keysIn_touch hkeys hv
      have hcount' : unvisited V (if s'.on v then
          ((s'.touch v).touchOnStack v).lower u (s'.idx v)
            else (s'.touch v).touchOnStack v) ≤ n := by
        refine le_trans (unvisited_le fun w hw => ?_) hn
        split_ifs
        · exact fun hzero => hw ((s'.idx_touch v w).symm.trans hzero)
        · exact fun hzero => hw ((s'.idx_touch v w).symm.trans hzero)
      obtain ⟨r, new'', hrun', hloop, hkeys''⟩ :=
        ih hrest (loopPost_visited hs hu h huv hv) hkeys' hcount'
      refine ⟨r, new'', ?_, ?_, hkeys''⟩
      · have hidx : ((s'.touch v).touchOnStack v).idx v = s'.idx v := s'.idx_touch v v
        rw [hidx]
        exact hrun'
      · rw [List.append_assoc, List.singleton_append] at hloop
        exact hloop

/-- The visit of a vertex ends when its depth may be the number of unvisited vertices. -/
theorem visit_spec (hV : ∀ v ∈ V, ∀ w ∈ deps v, w ∈ V) (n : ℕ) : VisitSpec deps V n := by
  induction n with
  | zero =>
    intro u s huV _ hu _ hn
    have hnone : ∀ v ∈ V, ¬ (s.idx v = 0) := by
      have hcount : V.countP (fun v => s.idx v = 0) = 0 := Nat.le_zero.mp hn
      simpa using List.countP_eq_zero.mp hcount
    exact absurd hu (hnone u huV)
  | succ n ih =>
    intro u s huV hs hu hkeys hn
    have hroot : (s.push u).idx u ≠ 0 := by
      rw [State.idx_push, if_pos rfl]
      exact Nat.succ_ne_zero _
    have hcount : unvisited V (s.push u) ≤ n := by
      have hlt : unvisited V (s.push u) < unvisited V s := by
        refine unvisited_lt (fun v hv => ?_) huV hu hroot
        have hne : u ≠ v := fun heq => hv (heq ▸ hu)
        rw [State.idx_push, if_neg hne]
        exact hv
      exact Nat.le_of_lt_succ (hlt.trans_le hn)
    obtain ⟨s', new, hrun, hloop, hkeys'⟩ := visitDeps_spec ih hV huV hs hu (fun _ hv => hv)
      (loopPost_push hs hu) (keysIn_push hkeys huV) hcount
    rw [List.nil_append] at hloop
    rw [visit, hrun, Option.map_some]
    by_cases heq : s'.low u = s'.idx u
    · rw [if_pos heq]
      exact ⟨_, [], rfl, visitPost_pop hs hloop heq, keysIn_popComponent hkeys' u⟩
    · rw [if_neg heq]
      exact ⟨_, new ++ [u], rfl, visitPost_stay hloop heq, hkeys'⟩

/-- A visit that starts with an empty stack ends with one. -/
theorem visit_of_empty (hV : ∀ v ∈ V, ∀ w ∈ deps v, w ∈ V) {u : α} {s : State α} (hu : u ∈ V)
    (hs : Inv deps s) (hidx : s.idx u = 0) (hkeys : KeysInBut V u s) (hst : s.st = []) {n : ℕ}
    (hn : unvisited V s ≤ n) :
    ∃ s', visit deps n u s = some s' ∧ Inv deps s' ∧ KeysIn V s' ∧ s'.st = [] ∧ s'.idx u ≠ 0 ∧
      ∀ v, s.idx v ≠ 0 → s'.idx v ≠ 0 := by
  obtain ⟨s', new, hrun, hpost, hkeys'⟩ := visit_spec hV n u s hu hs hidx hkeys hn
  have hnew : new = [] := by
    rcases hpost.top with ⟨hnew, -⟩ | ⟨y, hy, -⟩
    · exact hnew
    · rw [hst] at hy
      exact absurd hy List.not_mem_nil
  refine ⟨s', hrun, hpost.inv, hkeys', ?_, hpost.visited, fun v hv => ?_⟩
  · rw [hpost.st_eq, hnew, hst]
    rfl
  · rw [hpost.idx_old v hv]
    exact hv

end Termination

end Tarjan

end Cangjie
