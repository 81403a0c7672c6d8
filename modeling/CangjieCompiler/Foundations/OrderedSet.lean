import Mathlib.Data.List.Sort
import Mathlib.Order.Basic
import Mathlib.Tactic.Common

/-!
# Ordered finite sets

A finite set kept as a list of increasing elements, which is also the order in which it is run
over.
-/

/-- A list of strictly increasing elements. -/
@[ext]
structure OrderedSet (α : Type*) [LinearOrder α] where
  elems : List α
  sorted : elems.Pairwise (· < ·)

namespace OrderedSet

variable {α : Type*} [LinearOrder α]

instance : Membership α (OrderedSet α) := ⟨fun s a => a ∈ s.elems⟩

instance (a : α) (s : OrderedSet α) : Decidable (a ∈ s) := inferInstanceAs (Decidable (a ∈ s.elems))

theorem mem_elems {s : OrderedSet α} {a : α} : a ∈ s.elems ↔ a ∈ s := Iff.rfl

theorem nodup (s : OrderedSet α) : s.elems.Nodup := s.sorted.imp fun h => h.ne

/-- Two sets with the same elements keep the same list. -/
theorem ext_mem {s t : OrderedSet α} (h : ∀ a, a ∈ s ↔ a ∈ t) : s = t :=
  OrderedSet.ext (s.sorted.eq_of_mem_iff t.sorted h)

/-! ## Operations -/

/-- Insertion into an increasing list. -/
def insertElem (a : α) : List α → List α
  | [] => [a]
  | b :: bs => if a < b then a :: b :: bs else if b < a then b :: insertElem a bs else b :: bs

lemma mem_insertElem {a c : α} {bs : List α} : c ∈ insertElem a bs ↔ c = a ∨ c ∈ bs := by
  induction bs with
  | nil => simp [insertElem]
  | cons b bs ih =>
    rw [insertElem]
    split_ifs with hlt hgt
    · exact List.mem_cons
    · rw [List.mem_cons, ih, List.mem_cons]
      exact or_left_comm
    · have hab : a = b := le_antisymm (not_lt.mp hgt) (not_lt.mp hlt)
      rw [hab, List.mem_cons]
      exact ⟨Or.inr, fun h => h.elim Or.inl id⟩

lemma sorted_insertElem {a : α} {bs : List α} (hs : bs.Pairwise (· < ·)) :
    (insertElem a bs).Pairwise (· < ·) := by
  induction bs with
  | nil => exact List.pairwise_singleton _ _
  | cons b bs ih =>
    obtain ⟨hb, hs'⟩ := List.pairwise_cons.mp hs
    rw [insertElem]
    split_ifs with hlt hgt
    · refine List.pairwise_cons.mpr ⟨fun c hc => ?_, hs⟩
      rcases List.mem_cons.mp hc with rfl | htail
      · exact hlt
      · exact hlt.trans (hb c htail)
    · refine List.pairwise_cons.mpr ⟨fun c hc => ?_, ih hs'⟩
      rcases mem_insertElem.mp hc with rfl | htail
      · exact hgt
      · exact hb c htail
    · exact hs

/-- The set without elements. -/
def empty : OrderedSet α := ⟨[], List.Pairwise.nil⟩

/-- The set with one more element. -/
def insert (s : OrderedSet α) (a : α) : OrderedSet α :=
  ⟨insertElem a s.elems, sorted_insertElem s.sorted⟩

/-- The elements with a property. -/
def filter (p : α → Bool) (s : OrderedSet α) : OrderedSet α :=
  ⟨s.elems.filter p, s.sorted.filter p⟩

@[simp]
theorem not_mem_empty (a : α) : a ∉ (empty : OrderedSet α) := List.not_mem_nil

@[simp]
theorem mem_insert {s : OrderedSet α} {a c : α} : c ∈ s.insert a ↔ c = a ∨ c ∈ s :=
  mem_insertElem

@[simp]
theorem mem_filter {p : α → Bool} {s : OrderedSet α} {a : α} :
    a ∈ s.filter p ↔ a ∈ s ∧ p a = true :=
  List.mem_filter

end OrderedSet
