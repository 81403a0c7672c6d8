import CangjieCompiler.Foundations.OrderedSet
import Mathlib.Algebra.Order.Group.Nat
import Mathlib.Data.Nat.Notation
import Mathlib.Logic.Relation

/-!
# Collecting what is reachable

A depth-first search with a stack of vertices.  A vertex that was collected before is dropped when
it is taken off the stack; any other one is collected and its successors are put on the stack.

In a graph with finitely many edges the search ends, and it has then collected exactly the
vertices that can be reached from the initial stack.
-/

namespace Cangjie

variable {α : Type} [LinearOrder α]

/-- A graph with finitely many edges: the successors of a vertex in order, and the vertices that
have any. -/
structure FiniteGraph (α : Type) where
  succs : α → List α
  sources : List α
  nodup : sources.Nodup
  succs_eq_nil : ∀ a, a ∉ sources → succs a = []

namespace FiniteGraph

variable (G : FiniteGraph α)

/-- There is an edge from the first vertex to the second. -/
def Edge (a b : α) : Prop := b ∈ G.succs a

/-- The search with the vertices on the stack, the last one first, and those collected. -/
def collect : ℕ → List α → OrderedSet α → Option (OrderedSet α)
  | _, [], c => some c
  | 0, _ :: _, _ => none
  | n + 1, a :: stack, c =>
    if a ∈ c then collect n stack c
    else collect n ((G.succs a).reverse ++ stack) (c.insert a)

/-! ## Termination -/

/-- The number of edges from vertices that are not collected. -/
def pendingEdges (c : OrderedSet α) : List α → ℕ
  | [] => 0
  | a :: as => (if a ∈ c then 0 else (G.succs a).length) + pendingEdges c as

attribute [local simp] collect pendingEdges

lemma pendingEdges_insert_of_notMem {c : OrderedSet α} {a : α} {vs : List α} (h : a ∉ vs) :
    G.pendingEdges (c.insert a) vs = G.pendingEdges c vs := by
  induction vs with
  | nil => rfl
  | cons b vs ih =>
    have hne : b ≠ a := fun heq => h (heq ▸ List.mem_cons_self)
    have hmem : b ∈ c.insert a ↔ b ∈ c := OrderedSet.mem_insert.trans (or_iff_right hne)
    rw [pendingEdges, pendingEdges, ih fun htail => h (List.mem_cons_of_mem _ htail)]
    simp only [hmem]

/-- Collecting a source takes its edges out of the pending ones. -/
lemma pendingEdges_insert {c : OrderedSet α} {a : α} {vs : List α} (hvs : vs.Nodup)
    (ha : a ∈ vs) (hc : a ∉ c) :
    G.pendingEdges (c.insert a) vs + (G.succs a).length = G.pendingEdges c vs := by
  induction vs with
  | nil => exact absurd ha List.not_mem_nil
  | cons b vs ih =>
    obtain ⟨hb, hvs⟩ := List.nodup_cons.mp hvs
    rw [pendingEdges, pendingEdges]
    rcases List.mem_cons.mp ha with rfl | htail
    · rw [G.pendingEdges_insert_of_notMem hb, if_pos (OrderedSet.mem_insert.mpr (Or.inl rfl)),
        if_neg hc, Nat.zero_add, Nat.add_comm]
    · have hne : b ≠ a := fun heq => hb (heq ▸ htail)
      have hmem : b ∈ c.insert a ↔ b ∈ c := OrderedSet.mem_insert.trans (or_iff_right hne)
      rw [Nat.add_assoc, ih hvs htail]
      simp only [hmem]

/-- The search ends after one step for each vertex on the stack and each pending edge. -/
theorem collect_isSome {n : ℕ} {stack : List α} {c : OrderedSet α}
    (hn : stack.length + G.pendingEdges c G.sources ≤ n) : (G.collect n stack c).isSome := by
  induction n generalizing stack c with
  | zero =>
    cases stack with
    | nil => rfl
    | cons a stack => exact absurd hn (by simp)
  | succ n ih =>
    cases stack with
    | nil => rfl
    | cons a stack =>
      rw [collect]
      rw [List.length_cons] at hn
      split_ifs with hmem
      · exact ih (by omega)
      · refine ih ?_
        rw [List.length_append, List.length_reverse]
        by_cases hsource : a ∈ G.sources
        · have hpending := G.pendingEdges_insert G.nodup hsource hmem
          omega
        · rw [G.pendingEdges_insert_of_notMem hsource, G.succs_eq_nil a hsource]
          exact (by omega : 0 + stack.length + G.pendingEdges c G.sources ≤ n)

/-! ## What is collected -/

/-- A property that edges keep holds of everything collected. -/
theorem forall_of_collect {P : α → Prop} (hP : ∀ a b, P a → G.Edge a b → P b) {n : ℕ}
    {stack : List α} {c r : OrderedSet α} (hstack : ∀ a ∈ stack, P a) (hc : ∀ a ∈ c, P a)
    (h : G.collect n stack c = some r) : ∀ a ∈ r, P a := by
  induction n generalizing stack c with
  | zero =>
    cases stack with
    | nil => exact Option.some.inj h ▸ hc
    | cons a stack => exact absurd h (by simp [collect])
  | succ n ih =>
    cases stack with
    | nil => exact Option.some.inj h ▸ hc
    | cons a stack =>
      have ha : P a := hstack a List.mem_cons_self
      have hrest : ∀ b ∈ stack, P b := fun b hb => hstack b (List.mem_cons_of_mem _ hb)
      rw [collect] at h
      split_ifs at h with hmem
      · exact ih hrest hc h
      · refine ih ?_ ?_ h
        · intro b hb
          rcases List.mem_append.mp hb with hedge | htail
          · exact hP a b ha (List.mem_reverse.mp hedge)
          · exact hrest b htail
        · intro b hb
          rcases OrderedSet.mem_insert.mp hb with rfl | hold
          · exact ha
          · exact hc b hold

/-- The stack and what was collected before are collected. -/
theorem mem_of_collect {n : ℕ} {stack : List α} {c r : OrderedSet α}
    (h : G.collect n stack c = some r) : ∀ a, a ∈ stack ∨ a ∈ c → a ∈ r := by
  induction n generalizing stack c with
  | zero =>
    cases stack with
    | nil => exact Option.some.inj h ▸ fun a ha => ha.resolve_left List.not_mem_nil
    | cons a stack => exact absurd h (by simp [collect])
  | succ n ih =>
    cases stack with
    | nil => exact Option.some.inj h ▸ fun a ha => ha.resolve_left List.not_mem_nil
    | cons b stack =>
      intro a ha
      rw [collect] at h
      split_ifs at h with hmem
      · refine ih h a ?_
        rcases ha with hstack | hold
        · rcases List.mem_cons.mp hstack with rfl | htail
          · exact Or.inr hmem
          · exact Or.inl htail
        · exact Or.inr hold
      · refine ih h a ?_
        rcases ha with hstack | hold
        · rcases List.mem_cons.mp hstack with rfl | htail
          · exact Or.inr (OrderedSet.mem_insert.mpr (Or.inl rfl))
          · exact Or.inl (List.mem_append_right _ htail)
        · exact Or.inr (OrderedSet.mem_insert.mpr (Or.inr hold))

/-- What is collected is closed under edges once everything that was collected before has its
successors collected or on the stack. -/
theorem closed_of_collect {n : ℕ} {stack : List α} {c r : OrderedSet α}
    (hc : ∀ a b, a ∈ c → G.Edge a b → b ∈ c ∨ b ∈ stack) (h : G.collect n stack c = some r) :
    ∀ a b, a ∈ r → G.Edge a b → b ∈ r := by
  induction n generalizing stack c with
  | zero =>
    cases stack with
    | nil =>
      obtain rfl := Option.some.inj h
      exact fun a b ha hab => (hc a b ha hab).resolve_right List.not_mem_nil
    | cons a stack => exact absurd h (by simp [collect])
  | succ n ih =>
    cases stack with
    | nil =>
      obtain rfl := Option.some.inj h
      exact fun a b ha hab => (hc a b ha hab).resolve_right List.not_mem_nil
    | cons s stack =>
      rw [collect] at h
      split_ifs at h with hmem
      · refine ih ?_ h
        intro a b ha hab
        rcases hc a b ha hab with hold | hstack
        · exact Or.inl hold
        · rcases List.mem_cons.mp hstack with rfl | htail
          · exact Or.inl hmem
          · exact Or.inr htail
      · refine ih ?_ h
        intro a b ha hab
        rcases OrderedSet.mem_insert.mp ha with rfl | hold
        · exact Or.inr (List.mem_append_left _ (List.mem_reverse.mpr hab))
        · rcases hc a b hold hab with hbc | hstack
          · exact Or.inl (OrderedSet.mem_insert.mpr (Or.inr hbc))
          · rcases List.mem_cons.mp hstack with rfl | htail
            · exact Or.inl (OrderedSet.mem_insert.mpr (Or.inl rfl))
            · exact Or.inr (List.mem_append_right _ htail)

/-! ## The vertices behind a root -/

/-- The steps that collecting the successors of a root may take. -/
def stepBound (a : α) : ℕ := (G.succs a).length + G.pendingEdges OrderedSet.empty G.sources

/-- The vertices reached from a root over at least one edge. -/
def reachable (a : α) : OrderedSet α :=
  (G.collect (G.stepBound a) (G.succs a).reverse OrderedSet.empty).get
    (G.collect_isSome (by rw [List.length_reverse, stepBound]))

theorem mem_reachable {a b : α} : b ∈ G.reachable a ↔ Relation.TransGen G.Edge a b := by
  have h : G.collect (G.stepBound a) (G.succs a).reverse OrderedSet.empty =
      some (G.reachable a) := (Option.some_get _).symm
  constructor
  · refine G.forall_of_collect (fun _ _ hx hxy => hx.tail hxy) ?_ ?_ h b
    · exact fun x hx => Relation.TransGen.single (List.mem_reverse.mp hx)
    · exact fun x hx => absurd hx (OrderedSet.not_mem_empty x)
  · intro hpath
    induction hpath with
    | single hedge => exact G.mem_of_collect h _ (Or.inl (List.mem_reverse.mpr hedge))
    | tail _ hedge ih =>
      refine G.closed_of_collect ?_ h _ _ ih hedge
      exact fun x _ hx _ => absurd hx (OrderedSet.not_mem_empty x)

end FiniteGraph

end Cangjie
