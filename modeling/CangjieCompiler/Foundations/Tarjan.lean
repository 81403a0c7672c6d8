import CangjieCompiler.Foundations.OrderedMap
import Mathlib.Data.List.Infix
import Mathlib.Logic.Relation

/-!
# Strongly connected components by depth-first search

Every vertex gets an index when it is visited and is put on a stack.  Its low link is lowered to
that of each successor visited from it and to the index of each successor found on the stack.  A
vertex whose low link is still its index when all its successors are done is taken off the stack
with everything above it, as one component.

Indices, low links and marks are kept in maps; an absent vertex has index zero, and looking it up
inserts it.
-/

namespace Cangjie

namespace Tarjan

variable {α : Type} [LinearOrder α]

/-- The counter, the three maps, the stack with its top first, and the components so far. -/
structure State (α : Type) [LinearOrder α] where
  index : ℕ
  indices : OrderedMap α ℕ
  lowlinks : OrderedMap α ℕ
  onStack : OrderedMap α Bool
  st : List α
  components : List (List α)

namespace State

/-- The state before the first visit. -/
def start : State α := ⟨0, OrderedMap.empty, OrderedMap.empty, OrderedMap.empty, [], []⟩

/-- The index of a vertex, zero when it has not been visited. -/
def idx (s : State α) (v : α) : ℕ := s.indices.valueD v 0

/-- The low link of a vertex. -/
def low (s : State α) (v : α) : ℕ := s.lowlinks.valueD v 0

/-- The mark of a vertex on the stack. -/
def on (s : State α) (v : α) : Bool := s.onStack.valueD v false

/-- The vertex visited: the next index for it, and on the stack. -/
def push (u : α) (s : State α) : State α :=
  { s with
    index := s.index + 1
    indices := s.indices.assign u (s.index + 1)
    lowlinks := s.lowlinks.assign u (s.index + 1)
    st := u :: s.st
    onStack := s.onStack.assign u true }

/-- The index of a vertex looked up. -/
def touch (v : α) (s : State α) : State α := { s with indices := s.indices.emplace v 0 }

/-- The mark of a vertex looked up. -/
def touchOnStack (v : α) (s : State α) : State α :=
  { s with onStack := s.onStack.emplace v false }

/-- The low link of a vertex lowered to a bound. -/
def lower (u : α) (k : ℕ) (s : State α) : State α :=
  { s with lowlinks := s.lowlinks.assign u (min (s.low u) k) }

/-- The vertices taken off the stack down to `u`, in that order, with their marks cleared, and the
rest of the stack. -/
def popTo (u : α) : List α → OrderedMap α Bool → List α × OrderedMap α Bool × List α
  | [], marks => ([], marks, [])
  | v :: st, marks =>
    if v = u then ([v], marks.assign v false, st)
    else
      let (infos, marks, st) := popTo u st (marks.assign v false)
      (v :: infos, marks, st)

/-- The component of `u` taken off the stack. -/
def popComponent (u : α) (s : State α) : State α :=
  match popTo u s.st s.onStack with
  | (infos, marks, st) =>
    { s with st := st, onStack := marks, components := s.components ++ [infos] }

end State

variable (deps : α → List α)

/-- What is done with one successor of `u`. -/
def visitDep (visit : α → State α → Option (State α)) (u v : α) (s : State α) :
    Option (State α) :=
  let s := s.touch v
  if s.idx v = 0 then (visit v s).map fun s => s.lower u (s.low v)
  else
    let s := s.touchOnStack v
    some (if s.on v then s.lower u (s.idx v) else s)

/-- What is done with all successors of `u`, in order. -/
def visitDeps (visit : α → State α → Option (State α)) (u : α) :
    List α → State α → Option (State α)
  | [], s => some s
  | v :: vs, s => (visitDep visit u v s).bind (visitDeps visit u vs)

/-- The visit of a vertex, with a bound on how deep visits may nest. -/
def visit : ℕ → α → State α → Option (State α)
  | 0, _, _ => none
  | n + 1, u, s =>
    (visitDeps (visit n) u (deps u) (s.push u)).map fun s =>
      if s.low u = s.idx u then s.popComponent u else s

/-! ## What the steps change -/

namespace State

variable (s : State α) (u v w : α) (k : ℕ)

lemma idx_push : (s.push u).idx v = if u = v then s.index + 1 else s.idx v :=
  OrderedMap.valueD_assign _ _ _ _ _

lemma low_push : (s.push u).low v = if u = v then s.index + 1 else s.low v :=
  OrderedMap.valueD_assign _ _ _ _ _

lemma on_push : (s.push u).on v = if u = v then true else s.on v :=
  OrderedMap.valueD_assign _ _ _ _ _

@[simp]
lemma idx_touch : (s.touch v).idx w = s.idx w := OrderedMap.valueD_emplace _ _ _ _

@[simp]
lemma on_touchOnStack : (s.touchOnStack v).on w = s.on w := OrderedMap.valueD_emplace _ _ _ _

lemma low_lower : (s.lower u k).low v = if u = v then min (s.low u) k else s.low v :=
  OrderedMap.valueD_assign _ _ _ _ _

/-- Popping down to a vertex takes it and what is above it off the stack. -/
lemma popTo_eq {new st : List α} (marks : OrderedMap α Bool) (h : u ∉ new) :
    (popTo u (new ++ u :: st) marks).1 = new ++ [u] ∧
      (popTo u (new ++ u :: st) marks).2.2 = st ∧
      ∀ v, (popTo u (new ++ u :: st) marks).2.1.valueD v false =
        if v ∈ new ++ [u] then false else marks.valueD v false := by
  induction new generalizing marks with
  | nil =>
    rw [List.nil_append, popTo, if_pos rfl]
    refine ⟨rfl, rfl, fun v => ?_⟩
    rw [OrderedMap.valueD_assign]
    simp [eq_comm]
  | cons x new ih =>
    have hx : x ≠ u := fun heq => h (heq ▸ List.mem_cons_self)
    have hnew : u ∉ new := fun hmem => h (List.mem_cons_of_mem _ hmem)
    obtain ⟨hinfos, hst, hmarks⟩ := ih (marks.assign x false) hnew
    rw [List.cons_append, popTo, if_neg hx]
    refine ⟨congrArg (x :: ·) hinfos, hst, fun v => ?_⟩
    dsimp only
    rw [hmarks v, OrderedMap.valueD_assign, List.cons_append]
    by_cases hv : x = v
    · simp [hv]
    · simp [hv, Ne.symm hv]

end State

/-- What was visited stays visited. -/
def Keeps (s s' : State α) : Prop := ∀ v, s.idx v ≠ 0 → s'.idx v ≠ 0

variable {deps}

lemma keeps_push (u : α) (s : State α) : Keeps s (s.push u) ∧ (s.push u).idx u ≠ 0 := by
  constructor
  · intro v hv
    rw [State.idx_push]
    split_ifs
    · exact Nat.succ_ne_zero _
    · exact hv
  · rw [State.idx_push, if_pos rfl]
    exact Nat.succ_ne_zero _

lemma keeps_visitDep {visit : α → State α → Option (State α)}
    (hvisit : ∀ v s s', visit v s = some s' → Keeps s s') {u v : α} {s s' : State α}
    (h : visitDep visit u v s = some s') : Keeps s s' := by
  rw [visitDep] at h
  dsimp only at h
  split_ifs at h with hidx hon
  · obtain ⟨t, ht, rfl⟩ := Option.map_eq_some_iff.mp h
    intro w hw
    have htouched : (s.touch v).idx w ≠ 0 := by rw [State.idx_touch]; exact hw
    exact hvisit v _ t ht w htouched
  · obtain rfl := Option.some.inj h
    intro w hw hzero
    exact hw ((s.idx_touch v w).symm.trans hzero)
  · obtain rfl := Option.some.inj h
    intro w hw hzero
    exact hw ((s.idx_touch v w).symm.trans hzero)

lemma keeps_visitDeps {visit : α → State α → Option (State α)}
    (hvisit : ∀ v s s', visit v s = some s' → Keeps s s') {u : α} {vs : List α} {s s' : State α}
    (h : visitDeps visit u vs s = some s') : Keeps s s' := by
  induction vs generalizing s with
  | nil =>
    obtain rfl := Option.some.inj h
    exact fun _ hv => hv
  | cons v vs ih =>
    rw [visitDeps] at h
    obtain ⟨t, hfirst, hrest⟩ := Option.bind_eq_some_iff.mp h
    exact fun w hw => ih hrest w (keeps_visitDep hvisit hfirst w hw)

/-- A visit marks its vertex as visited, and forgets none. -/
lemma keeps_visit {n : ℕ} {u : α} {s s' : State α} (h : visit deps n u s = some s') :
    Keeps s s' ∧ s'.idx u ≠ 0 := by
  induction n generalizing u s s' with
  | zero => exact absurd h (by simp [visit])
  | succ n ih =>
    rw [visit] at h
    obtain ⟨t, hrun, rfl⟩ := Option.map_eq_some_iff.mp h
    have hloop : Keeps (s.push u) t := keeps_visitDeps (fun v s s' hv => (ih hv).1) hrun
    have hlast : ∀ v, (if t.low u = t.idx u then t.popComponent u else t).idx v = t.idx v := by
      intro v
      split_ifs <;> rfl
    obtain ⟨hpush, hroot⟩ := keeps_push u s
    constructor
    · intro v hv
      rw [hlast]
      exact hloop v (hpush v hv)
    · rw [hlast]
      exact hloop u hroot

variable (deps)

/-! ## The invariant -/

/-- A vertex can be reached from another one. -/
abbrev Reach : α → α → Prop := Relation.ReflTransGen fun v w => w ∈ deps v

/-- What holds whenever a visit begins or ends: the visited vertices are those on the stack and
those in components, the stack has decreasing indices, and the components are strongly connected
components with edges into themselves and earlier ones only. -/
structure Inv (s : State α) : Prop where
  on_iff : ∀ v, s.on v = true ↔ v ∈ s.st
  visited_iff : ∀ v, s.idx v ≠ 0 ↔ v ∈ s.st ∨ v ∈ s.components.flatten
  nodup : (s.st ++ s.components.flatten).Nodup
  sorted : s.st.Pairwise fun a b => s.idx b < s.idx a
  idx_le : ∀ v, s.idx v ≤ s.index
  closed : ∀ v ∈ s.components.flatten, ∀ w ∈ deps v, w ∈ s.components.flatten
  scc : ∀ c ∈ s.components, c ≠ [] ∧ ∀ v ∈ c, ∀ w, w ∈ c ↔ Reach deps v w ∧ Reach deps w v
  ordered : s.components.Pairwise fun c d => ∀ v ∈ c, ∀ w ∈ d, w ∉ deps v

/-- What a visit from `s` on has done: `new` is what it has left on the stack, and everything it
has visited can be reached from `u`. -/
structure Grown (u : α) (s s' : State α) (new : List α) : Prop where
  inv : Inv deps s'
  st_eq : s'.st = new ++ s.st
  index_le : s.index ≤ s'.index
  idx_old : ∀ v, s.idx v ≠ 0 → s'.idx v = s.idx v
  low_old : ∀ v, s.idx v ≠ 0 → s'.low v = s.low v
  reach_new : ∀ v, s.idx v = 0 → s'.idx v ≠ 0 → Reach deps u v ∧ s.index < s'.idx v
  new_fresh : ∀ v ∈ new, s.idx v = 0

/-- What the visit of `u` has done when it ends: either `u` was taken off the stack with all that
was new, or its low link is the index of a vertex that was on the stack before and can be
reached. -/
structure VisitPost (u : α) (s s' : State α) (new : List α) : Prop extends
    Grown deps u s s' new where
  visited : s'.idx u ≠ 0
  no_white : ∀ v, s.idx v = 0 → s'.idx v ≠ 0 → ∀ w ∈ deps v, s'.idx w ≠ 0
  back : ∀ x ∈ new, ∃ y ∈ s'.st, s'.idx y < s'.idx x ∧ Reach deps x y
  cross : ∀ x ∈ new, ∀ y ∈ s.st, y ∈ deps x → s'.low u ≤ s.idx y
  top : (new = [] ∧ s'.low u = s'.idx u) ∨ ∃ y ∈ s.st, s'.low u = s.idx y ∧ Reach deps u y

/-- What the visit of `u` has done when the successors `done` are done: `new` is on the stack
above `u`. -/
structure LoopPost (u : α) (s s' : State α) (new done : List α) : Prop extends
    Grown deps u s s' (new ++ [u]) where
  idx_root : s'.idx u = s.index + 1
  no_white : ∀ v, v ≠ u → s.idx v = 0 → s'.idx v ≠ 0 → ∀ w ∈ deps v, s'.idx w ≠ 0
  done_visited : ∀ w ∈ done, s'.idx w ≠ 0
  back : ∀ x ∈ new, ∃ y ∈ s'.st, s'.idx y < s'.idx x ∧ Reach deps x y
  cross : ∀ x ∈ new, ∀ y ∈ s.st, y ∈ deps x → s'.low u ≤ s.idx y
  cross_root : ∀ w ∈ done, w ∈ s.st → s'.low u ≤ s.idx w
  low_le : s'.low u ≤ s'.idx u
  top : s'.low u = s'.idx u ∨ ∃ y ∈ s.st, s'.low u = s.idx y ∧ Reach deps u y

variable {deps}

/-- The invariant does not mention the low links. -/
lemma Inv.congr {s s' : State α} (h : Inv deps s) (hidx : ∀ v, s'.idx v = s.idx v)
    (hon : ∀ v, s'.on v = s.on v) (hst : s'.st = s.st) (hindex : s'.index = s.index)
    (hcomponents : s'.components = s.components) : Inv deps s' where
  on_iff v := by rw [hon, hst, h.on_iff]
  visited_iff v := by rw [hidx, hst, hcomponents, h.visited_iff]
  nodup := by rw [hst, hcomponents]; exact h.nodup
  sorted := by
    rw [hst]
    exact h.sorted.imp fun hab => by rw [hidx, hidx]; exact hab
  idx_le v := by rw [hidx, hindex]; exact h.idx_le v
  closed := by rw [hcomponents]; exact h.closed
  scc := by rw [hcomponents]; exact h.scc
  ordered := by rw [hcomponents]; exact h.ordered

lemma Inv.not_visited {s : State α} (h : Inv deps s) {v : α} (hv : s.idx v = 0) :
    v ∉ s.st ∧ v ∉ s.components.flatten := by
  have hnot := (h.visited_iff v).not.mp (not_not_intro hv)
  exact not_or.mp hnot

lemma Inv.idx_ne_zero {s : State α} (h : Inv deps s) {v : α} (hv : v ∈ s.st) : s.idx v ≠ 0 :=
  (h.visited_iff v).mpr (Or.inl hv)

lemma Inv.start : Inv deps (State.start : State α) where
  on_iff v := iff_of_false Bool.false_ne_true List.not_mem_nil
  visited_iff v := iff_of_false (not_not_intro rfl) (by simp [State.start])
  nodup := List.nodup_nil
  sorted := List.Pairwise.nil
  idx_le _ := le_rfl
  closed _ h := absurd h List.not_mem_nil
  scc _ h := absurd h List.not_mem_nil
  ordered := List.Pairwise.nil

end Tarjan

end Cangjie
