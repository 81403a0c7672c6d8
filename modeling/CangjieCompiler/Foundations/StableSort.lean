import Mathlib.Data.List.Sort
import Mathlib.Data.Nat.Notation

/-!
# Stable sorting by a key

A list sorted by a key keeps elements of one key in their order.  So neighbours of different keys
may change places before the list is sorted.
-/

namespace Cangjie

variable {α β : Type} (key : α → ℕ)

/-- The elements in the order of their keys, those of one key in their order. -/
def stableSort (l : List α) : List α := l.insertionSort fun a b => key a ≤ key b

lemma stableSort_eq_self {l : List α} (h : l.Pairwise fun a b => key a ≤ key b) :
    stableSort key l = l :=
  h.insertionSort_eq

lemma mem_stableSort {l : List α} {a : α} : a ∈ stableSort key l ↔ a ∈ l :=
  List.mem_insertionSort _

lemma pairwise_stableSort (l : List α) :
    (stableSort key l).Pairwise fun a b => key a ≤ key b := by
  have : Std.Total fun a b : α => key a ≤ key b := ⟨fun a b => le_total (key a) (key b)⟩
  have : IsTrans α fun a b => key a ≤ key b := ⟨fun _ _ _ => le_trans⟩
  exact List.pairwise_insertionSort _ l

/-- Sorting pairs by their first components, which are the keys of the second ones. -/
lemma map_stableSort_fst {l : List (ℕ × α)} (h : ∀ e ∈ l, e.1 = key e.2) :
    (stableSort Prod.fst l).map Prod.snd = stableSort key (l.map Prod.snd) :=
  List.map_insertionSort _ _ _ l fun a ha b hb => by rw [h a ha, h b hb]

variable {key}

/-- Elements of different keys may be inserted in any order. -/
lemma orderedInsert_comm {a c : α} (h : key a ≠ key c) (l : List α) :
    (l.orderedInsert (fun x y => key x ≤ key y) c).orderedInsert (fun x y => key x ≤ key y) a =
      (l.orderedInsert (fun x y => key x ≤ key y) a).orderedInsert (fun x y => key x ≤ key y) c := by
  induction l with
  | nil =>
    rcases lt_or_gt_of_ne h with hlt | hgt
    · simp [List.orderedInsert, hlt.le, hlt.not_ge]
    · simp [List.orderedInsert, hgt.le, hgt.not_ge]
  | cons b l ih =>
    simp only [List.orderedInsert_cons]
    by_cases ha : key a ≤ key b
    · by_cases hc : key c ≤ key b
      · rcases lt_or_gt_of_ne h with hlt | hgt
        · simp [ha, hc, hlt.le, hlt.not_ge]
        · simp [ha, hc, hgt.le, hgt.not_ge]
      · have hac : key a ≤ key c := ha.trans (not_le.mp hc).le
        have hca : ¬ key c ≤ key a := fun hle => hc (hle.trans ha)
        simp [ha, hc, hca]
    · by_cases hc : key c ≤ key b
      · have hac : ¬ key a ≤ key c := fun hle => ha (hle.trans hc)
        simp [ha, hc, hac]
      · simp [ha, hc, ih]

/-- Neighbours of different keys may change places before sorting. -/
lemma stableSort_swap {a c : α} (h : key a ≠ key c) (p q : List α) :
    stableSort key (p ++ a :: c :: q) = stableSort key (p ++ c :: a :: q) := by
  induction p with
  | nil => exact orderedInsert_comm h _
  | cons x p ih =>
    rw [List.cons_append, List.cons_append, stableSort, stableSort, List.insertionSort_cons,
      List.insertionSort_cons]
    exact congrArg (List.orderedInsert _ x) ih

/-! ## Sorting by exchanges -/

section Exchanges

variable {P : α → Prop} {R : List α → List α → Prop} (hrefl : ∀ l, R l l)
  (htrans : ∀ {l l' l''}, R l l' → R l' l'' → R l l'')
  (hcons : ∀ x {l l'}, R l l' → R (x :: l) (x :: l'))
  (hswap : ∀ a b l, P a → P b → key b < key a → R (a :: b :: l) (b :: a :: l))

include hrefl htrans hcons hswap

lemma rel_orderedInsert {x : α} {l : List α} (hx : P x) (hl : ∀ a ∈ l, P a) :
    R (x :: l) (l.orderedInsert (fun a b => key a ≤ key b) x) := by
  induction l with
  | nil => exact hrefl [x]
  | cons b l ih =>
    rw [List.orderedInsert_cons]
    split_ifs with hle
    · exact hrefl _
    · have hfirst := hswap x b l hx (hl b List.mem_cons_self) (not_le.mp hle)
      exact htrans hfirst (hcons b (ih fun a ha => hl a (List.mem_cons_of_mem b ha)))

/-- Exchanges of neighbours in the wrong order lead from a list to the sorted one. -/
theorem rel_stableSort {l : List α} (hl : ∀ a ∈ l, P a) : R l (stableSort key l) := by
  induction l with
  | nil => exact hrefl []
  | cons x l ih =>
    have htail : ∀ a ∈ l, P a := fun a ha => hl a (List.mem_cons_of_mem x ha)
    have hsorted : ∀ a ∈ stableSort key l, P a := fun a ha => htail a ((mem_stableSort key).mp ha)
    rw [stableSort, List.insertionSort_cons]
    exact htrans (hcons x (ih htail))
      (rel_orderedInsert hrefl htrans hcons hswap (hl x List.mem_cons_self) hsorted)

end Exchanges

end Cangjie
