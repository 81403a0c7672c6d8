import Mathlib.Data.List.Basic
import Mathlib.Data.List.Induction
import Mathlib.Data.List.Nodup
import Mathlib.Logic.Function.Basic
import Mathlib.Tactic.Common

/-!
# Doubly linked lists in a heap

A heap gives addresses their nodes, and a node links to the node before it and to the node after
it.  A chain lists the values and the addresses of the nodes that are linked to each other.  A part
of a chain is described together with what stands before it and after it, so that chains can be
taken apart anywhere.

An address is never allocated twice, so that a link to a freed node leads nowhere.
-/

namespace LinkedChain

variable {κ : Type*}

/-- A node of a doubly linked list. -/
structure Node (κ : Type*) where
  prev : Option ℕ
  next : Option ℕ
  value : κ

/-- The allocated nodes, and the first address that has not been used. -/
structure Heap (κ : Type*) where
  nodes : ℕ → Option (Node κ)
  nextAddress : ℕ

namespace Heap

def empty : Heap κ := ⟨fun _ => none, 0⟩

def write (h : Heap κ) (a : ℕ) (n : Node κ) : Heap κ :=
  { h with nodes := Function.update h.nodes a (some n) }

def free (h : Heap κ) (a : ℕ) : Heap κ :=
  { h with nodes := Function.update h.nodes a none }

/-- The heap with a new node, which is at the address `nextAddress` of the old heap. -/
def alloc (h : Heap κ) (n : Node κ) : Heap κ :=
  ⟨Function.update h.nodes h.nextAddress (some n), h.nextAddress + 1⟩

/-- The heap without the nodes at some addresses. -/
def freeAll (h : Heap κ) (as : List ℕ) : Heap κ := as.foldl free h

@[simp] lemma nextAddress_write (h : Heap κ) (a : ℕ) (n : Node κ) :
    (h.write a n).nextAddress = h.nextAddress := rfl

@[simp] lemma nextAddress_free (h : Heap κ) (a : ℕ) : (h.free a).nextAddress = h.nextAddress := rfl

@[simp] lemma nextAddress_alloc (h : Heap κ) (n : Node κ) :
    (h.alloc n).nextAddress = h.nextAddress + 1 := rfl

lemma nodes_write (h : Heap κ) (a b : ℕ) (n : Node κ) :
    (h.write a n).nodes b = if b = a then some n else h.nodes b := by
  dsimp only [write]
  rw [Function.update_apply]

lemma nodes_free (h : Heap κ) (a b : ℕ) :
    (h.free a).nodes b = if b = a then none else h.nodes b := by
  dsimp only [free]
  rw [Function.update_apply]

lemma nodes_alloc (h : Heap κ) (n : Node κ) (b : ℕ) :
    (h.alloc n).nodes b = if b = h.nextAddress then some n else h.nodes b := by
  dsimp only [alloc]
  rw [Function.update_apply]

@[simp] lemma nextAddress_freeAll (h : Heap κ) (as : List ℕ) :
    (h.freeAll as).nextAddress = h.nextAddress := by
  induction as generalizing h with
  | nil => rfl
  | cons a as ih => exact ih (h.free a)

lemma nodes_freeAll_of_notMem (h : Heap κ) {as : List ℕ} {b : ℕ} (hb : b ∉ as) :
    (h.freeAll as).nodes b = h.nodes b := by
  induction as generalizing h with
  | nil => rfl
  | cons a as ih =>
    rw [List.mem_cons, not_or] at hb
    refine (ih (h.free a) hb.2).trans ?_
    rw [nodes_free, if_neg hb.1]

end Heap

/-! ## Chains -/

/-- The address where a chain starts, or what stands after the chain if it is empty. -/
def firstAddress (chain : List (κ × ℕ)) (next : Option ℕ) : Option ℕ :=
  match chain with
  | [] => next
  | e :: _ => some e.2

/-- The address where a chain ends, or what stands before the chain if it is empty. -/
def lastAddress (prev : Option ℕ) : List (κ × ℕ) → Option ℕ
  | [] => prev
  | e :: chain => lastAddress (some e.2) chain

/-- The nodes of a chain are linked to each other, to `prev` before them and to `next` after
them. -/
def Segment (nodes : ℕ → Option (Node κ)) (prev : Option ℕ) : List (κ × ℕ) → Option ℕ → Prop
  | [], _ => True
  | (k, a) :: chain, next =>
    nodes a = some ⟨prev, firstAddress chain next, k⟩ ∧ Segment nodes (some a) chain next

variable {nodes nodes' : ℕ → Option (Node κ)} {prev next : Option ℕ} {chain xs ys : List (κ × ℕ)}

@[simp] lemma firstAddress_append (xs ys : List (κ × ℕ)) (next : Option ℕ) :
    firstAddress (xs ++ ys) next = firstAddress xs (firstAddress ys next) := by
  cases xs <;> rfl

@[simp] lemma lastAddress_append (prev : Option ℕ) (xs ys : List (κ × ℕ)) :
    lastAddress prev (xs ++ ys) = lastAddress (lastAddress prev xs) ys := by
  induction xs generalizing prev with
  | nil => rfl
  | cons e xs ih => exact ih (some e.2)

lemma lastAddress_eq (chain : List (κ × ℕ)) :
    lastAddress none chain = chain.getLast?.map Prod.snd := by
  induction chain using List.reverseRecOn with
  | nil => rfl
  | append_singleton chain e _ =>
    rw [lastAddress_append, List.getLast?_concat]
    rfl

/-- A chain that is not empty ends at one of its nodes. -/
lemma exists_lastAddress (prev : Option ℕ) (e : κ × ℕ) (chain : List (κ × ℕ)) :
    ∃ e' ∈ e :: chain, lastAddress prev (e :: chain) = some e'.2 := by
  induction chain generalizing prev e with
  | nil => exact ⟨e, List.mem_cons_self, rfl⟩
  | cons e₁ chain ih =>
    obtain ⟨e', he', hlast⟩ := ih (some e.2) e₁
    exact ⟨e', List.mem_cons_of_mem _ he', hlast⟩

/-- A chain is taken apart into two parts that stand next to each other. -/
lemma segment_append :
    Segment nodes prev (xs ++ ys) next ↔
      Segment nodes prev xs (firstAddress ys next) ∧
        Segment nodes (lastAddress prev xs) ys next := by
  induction xs generalizing prev with
  | nil => exact (and_iff_right trivial).symm
  | cons e xs ih =>
    rw [List.cons_append, Segment, Segment, ih, firstAddress_append, and_assoc]
    rfl

/-- A chain depends on its own nodes only. -/
lemma Segment.congr (h : Segment nodes prev chain next)
    (hsame : ∀ a ∈ chain.map Prod.snd, nodes' a = nodes a) : Segment nodes' prev chain next := by
  induction chain generalizing prev with
  | nil => trivial
  | cons e chain ih =>
    obtain ⟨hhead, htail⟩ := h
    refine ⟨?_, ih htail fun a ha => hsame a (List.mem_cons_of_mem _ ha)⟩
    rw [hsame e.2 List.mem_cons_self]
    exact hhead

/-- The node at an address of a chain has the value that the chain lists, and links into the chain
or to what stands around it. -/
lemma Segment.node (h : Segment nodes prev chain next) {e : κ × ℕ} (he : e ∈ chain) :
    ∃ n, nodes e.2 = some n ∧ n.value = e.1 ∧
      (n.prev = prev ∨ ∃ e' ∈ chain, n.prev = some e'.2) ∧
      (n.next = next ∨ ∃ e' ∈ chain, n.next = some e'.2) := by
  induction chain generalizing prev with
  | nil => exact absurd he List.not_mem_nil
  | cons e₀ chain ih =>
    obtain ⟨hhead, htail⟩ := h
    rcases List.mem_cons.mp he with rfl | hmem
    · refine ⟨_, hhead, rfl, Or.inl rfl, ?_⟩
      cases chain with
      | nil => exact Or.inl rfl
      | cons e' chain => exact Or.inr ⟨e', by simp, rfl⟩
    · obtain ⟨n, hn, hvalue, hprev, hnext⟩ := ih htail hmem
      refine ⟨n, hn, hvalue, Or.inr ?_, hnext.imp_right ?_⟩
      · rcases hprev with hprev | ⟨e', he', hprev⟩
        · exact ⟨e₀, List.mem_cons_self, hprev⟩
        · exact ⟨e', List.mem_cons_of_mem _ he', hprev⟩
      · rintro ⟨e', he', hnext'⟩
        exact ⟨e', List.mem_cons_of_mem _ he', hnext'⟩

/-- Nodes with different values are at different addresses. -/
lemma Segment.nodup_addresses (h : Segment nodes prev chain next)
    (hkeys : (chain.map Prod.fst).Nodup) : (chain.map Prod.snd).Nodup := by
  refine List.Nodup.map_on ?_ hkeys.of_map
  intro e he e' he' haddr
  obtain ⟨n, hn, hvalue, -⟩ := h.node he
  obtain ⟨n', hn', hvalue', -⟩ := h.node he'
  rw [haddr, hn', Option.some_inj] at hn
  refine Prod.ext ?_ haddr
  rw [← hvalue, ← hvalue', hn]

/-! ## Walks -/

/-- The nodes that are visited by following links of one kind, if the links end after at most the
given number of nodes. -/
def walk (nodes : ℕ → Option (Node κ)) (link : Node κ → Option ℕ) :
    ℕ → Option ℕ → Option (List (κ × ℕ))
  | _, none => some []
  | 0, some _ => none
  | fuel + 1, some a => do
    let n ← nodes a
    let rest ← walk nodes link fuel (link n)
    return (n.value, a) :: rest

/-- The walk from the start of a chain visits the chain. -/
lemma Segment.walk_next (h : Segment nodes prev chain none) :
    walk nodes Node.next chain.length (firstAddress chain none) = some chain := by
  induction chain generalizing prev with
  | nil => rfl
  | cons e chain ih =>
    obtain ⟨hhead, htail⟩ := h
    have hrest := ih htail
    rw [List.length_cons, firstAddress, walk, hhead, Option.bind_eq_bind, Option.bind_some, hrest]
    rfl

/-- The walk back from the end of a chain visits the chain in reverse. -/
lemma Segment.walk_prev (h : Segment nodes none chain next) :
    walk nodes Node.prev chain.length (lastAddress none chain) = some chain.reverse := by
  induction chain using List.reverseRecOn generalizing next with
  | nil => rfl
  | append_singleton chain e ih =>
    rw [segment_append] at h
    obtain ⟨hfront, hlast, -⟩ := h
    have hrest := ih hfront
    rw [List.length_append, List.length_singleton, lastAddress_append, lastAddress, lastAddress,
      walk, hlast, Option.bind_eq_bind, Option.bind_some, hrest, List.reverse_append]
    rfl

/-! ## Changes of chains -/

/-- A node appended at the end: the old last node links to it. -/
lemma Segment.append_last {k k' : κ} {a b : ℕ}
    (hseg : Segment nodes none (chain ++ [(k, a)]) none)
    (hlast : nodes' a = some ⟨lastAddress none chain, some b, k⟩)
    (hnew : nodes' b = some ⟨some a, none, k'⟩)
    (hsame : ∀ c ∈ chain.map Prod.snd, nodes' c = nodes c) :
    Segment nodes' none (chain ++ [(k, a)] ++ [(k', b)]) none := by
  rw [segment_append, segment_append]
  rw [segment_append] at hseg
  refine ⟨⟨hseg.1.congr hsame, hlast, trivial⟩, ?_, trivial⟩
  rw [lastAddress_append]
  exact hnew

/-- The first node taken away: nothing stands before the second one any more. -/
lemma Segment.drop_first {e : κ × ℕ} {k : κ} {a : ℕ} {n : Node κ}
    (hseg : Segment nodes prev (e :: (k, a) :: chain) next) (hn : nodes a = some n)
    (hfirst : nodes' a = some { n with prev := none })
    (hsame : ∀ c ∈ chain.map Prod.snd, nodes' c = nodes c) :
    Segment nodes' none ((k, a) :: chain) next := by
  obtain ⟨-, hsecond, hrest⟩ := hseg
  obtain rfl := Option.some.inj (hsecond.symm.trans hn)
  exact ⟨hfirst, hrest.congr hsame⟩

lemma firstAddress_map (f : ℕ → ℕ) (chain : List (κ × ℕ)) (next : Option ℕ) :
    firstAddress (chain.map fun e => (e.1, f e.2)) (next.map f) =
      (firstAddress chain next).map f := by
  cases chain <;> rfl

lemma lastAddress_map (f : ℕ → ℕ) (prev : Option ℕ) (chain : List (κ × ℕ)) :
    lastAddress (prev.map f) (chain.map fun e => (e.1, f e.2)) =
      (lastAddress prev chain).map f := by
  induction chain generalizing prev with
  | nil => rfl
  | cons e chain ih => exact ih (some e.2)

/-- A node with its links changed by a function. -/
def Node.retarget (f : ℕ → ℕ) (n : Node κ) : Node κ := ⟨n.prev.map f, n.next.map f, n.value⟩

/-- A copy of a chain at other addresses, with the links of the copies changed accordingly. -/
lemma Segment.retarget {f : ℕ → ℕ} (h : Segment nodes prev chain next)
    (hcopy : ∀ e ∈ chain, nodes' (f e.2) = (nodes e.2).map (Node.retarget f)) :
    Segment nodes' (prev.map f) (chain.map fun e => (e.1, f e.2)) (next.map f) := by
  induction chain generalizing prev with
  | nil => trivial
  | cons e chain ih =>
    obtain ⟨hhead, htail⟩ := h
    refine ⟨?_, ih htail fun e' he' => hcopy e' (List.mem_cons_of_mem _ he')⟩
    rw [hcopy e List.mem_cons_self, hhead, firstAddress_map]
    rfl

end LinkedChain
