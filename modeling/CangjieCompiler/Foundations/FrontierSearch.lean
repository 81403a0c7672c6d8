import Mathlib.Data.Finset.Union
import Mathlib.Data.Fintype.Card
import Mathlib.Data.Set.Finite.Basic
import Mathlib.Data.Nat.Notation
import Mathlib.Logic.Relation

/-!
# Searches that replace their frontier

A search that keeps what it has collected, and whose next frontier is made of all successors of the
frontier.  What was collected before is not consulted, so a vertex on a cycle comes back to the
frontier again and again: the search ends exactly when it comes to no cycle.  When it ends it has
collected everything that can be reached.
-/

namespace FrontierSearch

variable {α : Type} [DecidableEq α] (next : α → Finset α)

/-- There is an edge from the first vertex to the second. -/
def Edge (a b : α) : Prop := b ∈ next a

/-- The search with what is collected and the frontier. -/
def collect : ℕ → Finset α → Finset α → Option (Finset α)
  | 0, collected, frontier => if frontier = ∅ then some collected else none
  | fuel + 1, collected, frontier =>
    if frontier = ∅ then some collected
    else collect fuel (collected ∪ frontier.biUnion next) (frontier.biUnion next)

/-- The frontier after some rounds. -/
def layer (frontier : Finset α) : ℕ → Finset α
  | 0 => frontier
  | n + 1 => layer (frontier.biUnion next) n

variable {next}

attribute [local simp] collect layer

/-! ## Layers -/

lemma layer_empty (n : ℕ) : layer next ∅ n = ∅ := by
  induction n with
  | zero => rfl
  | succ n ih =>
    rw [layer, Finset.biUnion_empty]
    exact ih

/-- Once a frontier is empty, so are all the later ones. -/
lemma layer_eq_empty_of_le {frontier : Finset α} {m n : ℕ} (hmn : m ≤ n)
    (h : layer next frontier m = ∅) : layer next frontier n = ∅ := by
  induction m generalizing frontier n with
  | zero =>
    rw [show frontier = ∅ from h]
    exact layer_empty n
  | succ m ih =>
    obtain ⟨n, rfl⟩ := Nat.exists_eq_add_of_le' (Nat.le_trans (Nat.le_add_left 1 m) hmn)
    rw [layer] at h ⊢
    exact ih (Nat.le_of_add_le_add_right hmn) h

/-- A layer is made of the layers of the vertices of the frontier. -/
lemma layer_eq_empty_iff {frontier : Finset α} {n : ℕ} :
    layer next frontier n = ∅ ↔ ∀ a ∈ frontier, layer next {a} n = ∅ := by
  induction n generalizing frontier with
  | zero =>
    refine ⟨fun h a ha => ?_, fun h => Finset.eq_empty_of_forall_notMem fun a ha => ?_⟩
    · rw [show frontier = ∅ from h] at ha
      exact absurd ha (Finset.notMem_empty a)
    · exact Finset.singleton_ne_empty a (h a ha)
  | succ n ih =>
    have hsingle : ∀ a, layer next {a} (n + 1) = layer next (next a) n := fun a => by
      rw [layer, Finset.singleton_biUnion]
    rw [layer, ih]
    constructor
    · intro h a ha
      rw [hsingle, ih]
      exact fun b hb => h b (Finset.mem_biUnion.mpr ⟨a, ha, hb⟩)
    · intro h b hb
      obtain ⟨a, ha, hab⟩ := Finset.mem_biUnion.mp hb
      have hlayer := h a ha
      rw [hsingle, ih] at hlayer
      exact hlayer b hab

/-- If every vertex of the frontier has an empty layer, one layer is empty for all of them. -/
lemma exists_layer_eq_empty_of_forall {frontier : Finset α}
    (h : ∀ a ∈ frontier, ∃ n, layer next {a} n = ∅) : ∃ n, layer next frontier n = ∅ := by
  classical
  have hbound : ∃ n, ∀ a ∈ frontier, layer next {a} n = ∅ := by
    induction frontier using Finset.induction_on with
    | empty => exact ⟨0, fun a ha => absurd ha (Finset.notMem_empty a)⟩
    | insert a frontier _ ih =>
      obtain ⟨m, hm⟩ := h a (Finset.mem_insert_self a frontier)
      obtain ⟨n, hn⟩ := ih fun b hb => h b (Finset.mem_insert_of_mem hb)
      refine ⟨max m n, fun b hb => ?_⟩
      rcases Finset.mem_insert.mp hb with rfl | hb
      · exact layer_eq_empty_of_le (Nat.le_max_left m n) hm
      · exact layer_eq_empty_of_le (Nat.le_max_right m n) (hn b hb)
  exact hbound.imp fun n hn => layer_eq_empty_iff.mpr hn

/-- From a vertex that comes to a cycle every frontier has such a vertex. -/
lemma layer_ne_empty_of_cycle {frontier : Finset α} {a b : α} (ha : a ∈ frontier)
    (hab : Relation.ReflTransGen (Edge next) a b) (hb : Relation.TransGen (Edge next) b b)
    (n : ℕ) : layer next frontier n ≠ ∅ := by
  induction n generalizing frontier a with
  | zero => exact Finset.ne_empty_of_mem ha
  | succ n ih =>
    have hstep : Relation.TransGen (Edge next) a b := Relation.TransGen.trans_right hab hb
    obtain ⟨c, hac, hcb⟩ := Relation.TransGen.head'_iff.mp hstep
    exact ih (Finset.mem_biUnion.mpr ⟨a, ha, hac⟩) hcb

/-- In a finite graph some frontier is empty if no vertex of the first comes to a cycle. -/
lemma exists_layer_eq_empty {vertices : Finset α} (hclosed : ∀ a ∈ vertices, next a ⊆ vertices)
    {frontier : Finset α} (hfrontier : frontier ⊆ vertices)
    (hacyclic : ∀ a ∈ frontier, ∀ b, Relation.ReflTransGen (Edge next) a b →
      ¬ Relation.TransGen (Edge next) b b) : ∃ n, layer next frontier n = ∅ := by
  -- the vertices that come to no cycle, ordered by what they reach
  let Good : Type := {a : α // a ∈ vertices ∧
    ∀ b, Relation.ReflTransGen (Edge next) a b → ¬ Relation.TransGen (Edge next) b b}
  let Below : Good → Good → Prop := fun a b => Relation.TransGen (Edge next) b.1 a.1
  have hfinite : Finite Good := Set.Finite.subset vertices.finite_toSet fun a ha => ha.1
  have htrans : IsTrans Good Below := ⟨fun a b c hab hbc => hbc.trans hab⟩
  have hirrefl : Std.Irrefl Below := ⟨fun a => a.2.2 a.1 Relation.ReflTransGen.refl⟩
  have hwf : WellFounded Below := Finite.wellFounded_of_trans_of_irrefl Below
  have hgood : ∀ a : Good, ∃ n, layer next {a.1} n = ∅ := by
    intro a
    induction a using hwf.induction with
    | _ a ih =>
      have hsuccs : ∀ b ∈ next a.1, ∃ n, layer next {b} n = ∅ := by
        intro b hab
        have hb : b ∈ vertices := hclosed a.1 a.2.1 hab
        exact ih ⟨b, hb, fun c hbc => a.2.2 c (Relation.ReflTransGen.head hab hbc)⟩
          (Relation.TransGen.single hab)
      obtain ⟨n, hn⟩ := exists_layer_eq_empty_of_forall hsuccs
      refine ⟨n + 1, ?_⟩
      rw [layer, Finset.singleton_biUnion]
      exact hn
  exact exists_layer_eq_empty_of_forall fun a ha => hgood ⟨a, hfrontier ha, hacyclic a ha⟩

/-! ## The search -/

/-- With enough fuel the search ends if some frontier is empty, and only then. -/
lemma collect_isSome_iff {n : ℕ} {collected frontier : Finset α} :
    (collect next n collected frontier).isSome ↔ layer next frontier n = ∅ := by
  induction n generalizing collected frontier with
  | zero =>
    rw [collect]
    split_ifs with h
    · exact ⟨fun _ => h, fun _ => rfl⟩
    · exact ⟨nofun, fun hlayer => absurd hlayer h⟩
  | succ n ih =>
    rw [collect]
    split_ifs with h
    · refine ⟨fun _ => ?_, fun _ => rfl⟩
      rw [h]
      exact layer_empty (n + 1)
    · exact ih

omit [DecidableEq α] in
/-- From no vertex nothing is reached. -/
lemma mem_or_reached_of_empty {collected frontier : Finset α} {b : α} (hempty : frontier = ∅) :
    b ∈ collected ↔ b ∈ collected ∨ ∃ a ∈ frontier, Relation.TransGen (Edge next) a b := by
  rw [hempty]
  exact ⟨Or.inl, fun h => h.resolve_right fun ⟨a, ha, _⟩ => Finset.notMem_empty a ha⟩

/-- What is collected: what was, and what can be reached from the frontier. -/
theorem mem_of_collect {n : ℕ} {collected frontier r : Finset α}
    (h : collect next n collected frontier = some r) {b : α} :
    b ∈ r ↔ b ∈ collected ∨ ∃ a ∈ frontier, Relation.TransGen (Edge next) a b := by
  induction n generalizing collected frontier with
  | zero =>
    rw [collect] at h
    split_ifs at h with hempty
    obtain rfl := Option.some.inj h
    exact mem_or_reached_of_empty hempty
  | succ n ih =>
    rw [collect] at h
    split_ifs at h with hempty
    · obtain rfl := Option.some.inj h
      exact mem_or_reached_of_empty hempty
    · rw [ih h, Finset.mem_union, or_assoc]
      refine or_congr_right ⟨?_, ?_⟩
      · rintro (hnew | ⟨c, hc, hcb⟩)
        · obtain ⟨a, ha, hab⟩ := Finset.mem_biUnion.mp hnew
          exact ⟨a, ha, Relation.TransGen.single hab⟩
        · obtain ⟨a, ha, hac⟩ := Finset.mem_biUnion.mp hc
          exact ⟨a, ha, Relation.TransGen.head hac hcb⟩
      · rintro ⟨a, ha, hab⟩
        obtain ⟨c, hac, hcb⟩ := Relation.TransGen.head'_iff.mp hab
        have hc : c ∈ frontier.biUnion next := Finset.mem_biUnion.mpr ⟨a, ha, hac⟩
        rcases Relation.reflTransGen_iff_eq_or_transGen.mp hcb with rfl | hcb
        · exact Or.inl hc
        · exact Or.inr ⟨c, hc, hcb⟩

/-- In a finite graph the search ends exactly when it comes to no cycle. -/
theorem exists_collect_iff {vertices : Finset α} (hclosed : ∀ a ∈ vertices, next a ⊆ vertices)
    {collected frontier : Finset α} (hfrontier : frontier ⊆ vertices) :
    (∃ n r, collect next n collected frontier = some r) ↔
      ∀ a ∈ frontier, ∀ b, Relation.ReflTransGen (Edge next) a b →
        ¬ Relation.TransGen (Edge next) b b := by
  constructor
  · rintro ⟨n, r, h⟩ a ha b hab hb
    have hempty : layer next frontier n = ∅ :=
      collect_isSome_iff.mp (Option.isSome_iff_exists.mpr ⟨r, h⟩)
    exact layer_ne_empty_of_cycle ha hab hb n hempty
  · intro hacyclic
    obtain ⟨n, hn⟩ := exists_layer_eq_empty hclosed hfrontier hacyclic
    exact ⟨n, Option.isSome_iff_exists.mp (collect_isSome_iff.mpr hn)⟩

end FrontierSearch
