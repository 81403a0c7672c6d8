import Mathlib.Data.List.Basic

/-!
# Hash consing

Nodes lie in a heap and are found again by their keys in a hash table, where an entry keeps the hash
that its node had when it was inserted.  A node is only made when none of its key is found, so nodes
of one key are one node, as long as no key is overwritten.
-/

namespace Cangjie

/-- An entry of the hash table: the place of a node in the heap, and its hash at insertion. -/
structure PoolEntry where
  hash : ℕ
  place : ℕ
  deriving DecidableEq, Repr

/-- The heap and the hash table. -/
structure Pool (ν : Type) where
  nodes : List ν
  entries : List PoolEntry

namespace Pool

variable {ν κ : Type} (key : ν → κ) (hash : κ → ℕ)

/-- Nothing was made yet. -/
def empty : Pool ν := ⟨[], []⟩

/-- The key of the node at a place. -/
def keyAt (pool : Pool ν) (place : ℕ) : Option κ := (pool.nodes[place]?).map key

/-- Overwriting the node at a place.  The hash table is left as it is. -/
def overwrite (pool : Pool ν) (place : ℕ) (node : ν) : Pool ν :=
  { pool with nodes := pool.nodes.set place node }

section KeyAt

variable {key}

lemma keyAt_append {pool : Pool ν} {node : ν} {entries : List PoolEntry} (i : ℕ) :
    (⟨pool.nodes ++ [node], entries⟩ : Pool ν).keyAt key i =
      if i = pool.nodes.length then some (key node) else pool.keyAt key i := by
  unfold keyAt
  dsimp only
  split_ifs with hi
  · rw [hi, List.getElem?_append_right (Nat.le_refl _), Nat.sub_self]
    rfl
  · rcases Nat.lt_or_gt_of_ne hi with hlt | hgt
    · rw [List.getElem?_append_left hlt]
    · rw [List.getElem?_eq_none_iff.mpr (Nat.le_of_lt hgt), List.getElem?_eq_none_iff.mpr]
      rw [List.length_append, List.length_singleton]
      exact hgt

end KeyAt

variable [DecidableEq κ]

/-- The place of a node with a key. -/
def find (pool : Pool ν) (k : κ) : Option ℕ :=
  (pool.entries.find? fun e => decide (e.hash = hash k ∧ pool.keyAt key e.place = some k)).map
    PoolEntry.place

/-- The place of the node with the key of a new one, which is inserted if there is none. -/
def intern (pool : Pool ν) (node : ν) : ℕ × Pool ν :=
  match pool.find key hash (key node) with
  | some place => (place, pool)
  | none =>
    (pool.nodes.length,
      { nodes := pool.nodes ++ [node]
        entries := ⟨hash (key node), pool.nodes.length⟩ :: pool.entries })

/-- Nodes of the table with one key are one node, and every node is found by its key. -/
structure Interned (pool : Pool ν) : Prop where
  unique : ∀ e ∈ pool.entries, ∀ e' ∈ pool.entries,
    pool.keyAt key e.place = pool.keyAt key e'.place → e.place = e'.place
  found : ∀ e ∈ pool.entries, ∀ k, pool.keyAt key e.place = some k →
    pool.find key hash k = some e.place

/-- The invariant: an entry has the hash of the key of its node, no two nodes have one key, and
every node has an entry. -/
structure Consed (pool : Pool ν) : Prop where
  stored : ∀ e ∈ pool.entries, ∃ k, pool.keyAt key e.place = some k ∧ e.hash = hash k
  injective : ∀ i j k, pool.keyAt key i = some k → pool.keyAt key j = some k → i = j
  listed : ∀ i < pool.nodes.length, ∃ e ∈ pool.entries, e.place = i

variable {key hash}

omit [DecidableEq κ] in
lemma consed_empty : Consed key hash (empty : Pool ν) := by
  refine ⟨fun e he => ?_, fun i j k hi => ?_, fun i hi => ?_⟩
  · exact absurd he List.not_mem_nil
  · simp [keyAt, empty] at hi
  · exact absurd hi (Nat.not_lt_zero i)

/-- A node that is found has the key. -/
lemma keyAt_of_find {pool : Pool ν} {k : κ} {place : ℕ} (h : pool.find key hash k = some place) :
    pool.keyAt key place = some k := by
  obtain ⟨e, he, rfl⟩ := Option.map_eq_some_iff.mp h
  have hcond := List.find?_some he
  exact (of_decide_eq_true hcond).2

/-- The invariant finds the node of every key. -/
lemma Consed.find_eq {pool : Pool ν} (h : Consed key hash pool) {i : ℕ} {k : κ}
    (hi : pool.keyAt key i = some k) : pool.find key hash k = some i := by
  obtain ⟨node, hnode, -⟩ := Option.map_eq_some_iff.mp hi
  obtain ⟨hlt, -⟩ := List.getElem?_eq_some_iff.mp hnode
  obtain ⟨e, he, hplace⟩ := h.listed i hlt
  obtain ⟨k', hk', hhash⟩ := h.stored e he
  have hkey : k' = k := by
    rw [hplace, hi] at hk'
    exact (Option.some.inj hk').symm
  rw [hkey] at hk' hhash
  have hsome : (pool.entries.find? fun e =>
      decide (e.hash = hash k ∧ pool.keyAt key e.place = some k)).isSome := by
    rw [List.find?_isSome]
    exact ⟨e, he, decide_eq_true ⟨hhash, hk'⟩⟩
  obtain ⟨e', he'⟩ := Option.isSome_iff_exists.mp hsome
  have hfind : pool.find key hash k = some e'.place := by
    unfold find
    rw [he']
    rfl
  rw [hfind, h.injective e'.place i k (keyAt_of_find hfind) hi]

lemma Consed.interned {pool : Pool ν} (h : Consed key hash pool) : Interned key hash pool where
  unique := by
    intro e he e' _ heq
    obtain ⟨k, hk, -⟩ := h.stored e he
    exact h.injective _ _ k hk (heq ▸ hk)
  found := fun _ _ _ hk => h.find_eq hk

/-- Inserting nodes keeps the invariant. -/
theorem Consed.intern {pool : Pool ν} (h : Consed key hash pool) (node : ν) :
    Consed key hash (pool.intern key hash node).2 := by
  unfold Pool.intern
  cases hfind : pool.find key hash (key node) with
  | some place => exact h
  | none =>
    have hnew : ∀ i, pool.keyAt key i ≠ some (key node) := by
      intro i hi
      exact absurd ((h.find_eq hi).symm.trans hfind) (by simp)
    have hlt : ∀ i k, pool.keyAt key i = some k → i ≠ pool.nodes.length := by
      intro i k hi heq
      obtain ⟨node', hnode', -⟩ := Option.map_eq_some_iff.mp hi
      obtain ⟨hlt, -⟩ := List.getElem?_eq_some_iff.mp hnode'
      exact absurd hlt (heq ▸ Nat.lt_irrefl _)
    refine ⟨fun e he => ?_, fun i j k hi hj => ?_, fun i hi => ?_⟩
    · dsimp only at he
      rw [keyAt_append]
      rcases List.mem_cons.mp he with rfl | he
      · exact ⟨key node, if_pos rfl, rfl⟩
      · obtain ⟨k, hk, hhash⟩ := h.stored e he
        exact ⟨k, (if_neg (hlt _ k hk)).trans hk, hhash⟩
    · rw [keyAt_append] at hi hj
      split_ifs at hi hj with hilast hjlast hjlast
      · rw [hilast, hjlast]
      · exact absurd (hj.trans hi.symm) (hnew j)
      · exact absurd (hi.trans hj.symm) (hnew i)
      · exact h.injective i j k hi hj
    · dsimp only at hi ⊢
      rw [List.length_append, List.length_singleton] at hi
      rcases Nat.lt_or_eq_of_le (Nat.le_of_lt_succ hi) with hlt | heq
      · obtain ⟨e, he, hplace⟩ := h.listed i hlt
        exact ⟨e, List.mem_cons_of_mem _ he, hplace⟩
      · exact ⟨_, List.mem_cons_self, heq.symm⟩

end Pool

end Cangjie
