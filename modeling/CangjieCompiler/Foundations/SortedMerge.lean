import Mathlib.Algebra.BigOperators.Group.List.Basic
import Mathlib.Algebra.BigOperators.Group.Multiset.Basic
import Mathlib.Data.List.Sort
import Mathlib.Tactic.Abel

/-!
# Walking over two sorted lists

Two lists with increasing keys are run over side by side.  An element whose key the other list
does not have is handed to one function, a pair of elements with the same key to another, and a
state is passed along.

When each of these adds something to a quantity of the state, the walk adds the sum over all
elements, whatever their order: the elements found on one side only, and the pairs.
-/

namespace Cangjie

variable {τ κ σ M : Type} [LinearOrder κ]

/-- What is done with an element of the first list, of the second, and with a pair. -/
structure MergeActions (τ σ : Type) where
  onlyLeft : τ → σ → σ
  onlyRight : τ → σ → σ
  both : τ → τ → σ → σ

namespace MergeActions

variable (A : MergeActions τ σ) (key : τ → κ)

/-- The walk over two lists. -/
def merge : List τ → List τ → σ → σ
  | [], ys, s => ys.foldl (fun s y => A.onlyRight y s) s
  | x :: xs, ys, s => mergeFrom x (merge xs) ys s
where
  /-- The walk over the second list while the first one stands at `x`. -/
  mergeFrom (x : τ) (next : List τ → σ → σ) : List τ → σ → σ
    | [], s => next [] (A.onlyLeft x s)
    | y :: ys, s =>
      if key x < key y then next (y :: ys) (A.onlyLeft x s)
      else if key y < key x then mergeFrom x next ys (A.onlyRight y s)
      else next ys (A.both x y s)

end MergeActions

/-! ## Partners -/

section Partner

variable (key : τ → κ)

/-- The element with the key of `x`. -/
def partner (ys : List τ) (x : τ) : Option τ := ys.find? fun y => key y = key x

/-- The lists have distinct keys. -/
def DistinctKeys (xs : List τ) : Prop := (xs.map key).Nodup

variable {key}

lemma partner_eq_none {ys : List τ} {x : τ} : partner key ys x = none ↔ ∀ y ∈ ys, key y ≠ key x := by
  simp [partner]

lemma partner_eq_none_of_lt {ys : List τ} {x : τ} (h : ∀ y ∈ ys, key x < key y) :
    partner key ys x = none :=
  partner_eq_none.mpr fun y hy => (h y hy).ne'

lemma partner_cons_of_ne {y x : τ} (ys : List τ) (h : key y ≠ key x) :
    partner key (y :: ys) x = partner key ys x :=
  List.find?_cons_of_neg (by simpa using h)

lemma partner_cons_of_eq {y x : τ} (ys : List τ) (h : key y = key x) :
    partner key (y :: ys) x = some y :=
  List.find?_cons_of_pos (by simpa using h)

lemma mem_of_partner {ys : List τ} {x y : τ} (h : partner key ys x = some y) : y ∈ ys :=
  List.mem_of_find?_eq_some h

lemma key_of_partner {ys : List τ} {x y : τ} (h : partner key ys x = some y) : key y = key x := by
  simpa using List.find?_some h

omit [LinearOrder κ] in
lemma DistinctKeys.tail {x : τ} {xs : List τ} (h : DistinctKeys key (x :: xs)) :
    DistinctKeys key xs :=
  (List.nodup_cons.mp h).2

omit [LinearOrder κ] in
lemma DistinctKeys.head_ne {x : τ} {xs : List τ} (h : DistinctKeys key (x :: xs)) :
    ∀ y ∈ xs, key y ≠ key x :=
  fun y hy heq => (List.nodup_cons.mp h).1 (List.mem_map.mpr ⟨y, hy, heq⟩)

omit [LinearOrder κ] in
lemma DistinctKeys.perm {xs ys : List τ} (h : DistinctKeys key xs) (hp : xs.Perm ys) :
    DistinctKeys key ys :=
  (hp.map key).nodup_iff.mp h

lemma partner_of_mem {ys : List τ} (hys : DistinctKeys key ys) {y x : τ} (hy : y ∈ ys)
    (h : key y = key x) : partner key ys x = some y := by
  induction ys with
  | nil => exact absurd hy List.not_mem_nil
  | cons z ys ih =>
    rcases List.mem_cons.mp hy with rfl | htail
    · exact partner_cons_of_eq ys h
    · rw [partner_cons_of_ne ys fun heq => hys.head_ne y htail (h.trans heq.symm)]
      exact ih hys.tail htail

lemma partner_perm {ys zs : List τ} (hys : DistinctKeys key ys) (hp : ys.Perm zs) (x : τ) :
    partner key ys x = partner key zs x := by
  cases h : partner key ys x with
  | some y =>
    exact (partner_of_mem (hys.perm hp) (hp.mem_iff.mp (mem_of_partner h)) (key_of_partner h)).symm
  | none =>
    rw [partner_eq_none] at h
    exact (partner_eq_none.mpr fun z hz => h z (hp.mem_iff.mpr hz)).symm

/-! ## Sums over the elements and the pairs -/

variable [AddCommMonoid M]

/-- The sum of `f` over the pairs of elements with the same key. -/
def pairSum (key : τ → κ) (f : τ → τ → M) (xs ys : List τ) : M :=
  (xs.map fun x => ((partner key ys x).map (f x)).getD 0).sum

/-- The sum of `f` over the elements of the first list whose key the second does not have. -/
def loneSum (key : τ → κ) (f : τ → M) (xs ys : List τ) : M :=
  (xs.map fun x => if (partner key ys x).isNone then f x else 0).sum

/-- For distinct keys the sum over the pairs is a double sum. -/
lemma pairSum_eq_sum {f : τ → τ → M} {xs ys : List τ} (hys : DistinctKeys key ys) :
    pairSum key f xs ys =
      (xs.map fun x => (ys.map fun y => if key y = key x then f x y else 0).sum).sum := by
  refine congrArg List.sum (List.map_congr_left fun x _ => ?_)
  induction ys with
  | nil => rfl
  | cons y ys ih =>
    rw [List.map_cons, List.sum_cons]
    by_cases h : key y = key x
    · have hrest : (ys.map fun y => if key y = key x then f x y else 0).sum = 0 := by
        refine List.sum_eq_zero fun v hv => ?_
        obtain ⟨z, hz, rfl⟩ := List.mem_map.mp hv
        exact if_neg fun heq => hys.head_ne z hz (heq.trans h.symm)
      rw [partner_cons_of_eq ys h, if_pos h, hrest, add_zero]
      rfl
    · rw [partner_cons_of_ne ys h, if_neg h, zero_add]
      exact ih hys.tail

/-- The pairs can be summed from either side. -/
theorem pairSum_comm {f : τ → τ → M} {xs ys : List τ} (hxs : DistinctKeys key xs)
    (hys : DistinctKeys key ys) :
    pairSum key f xs ys = pairSum key (fun y x => f x y) ys xs := by
  rw [pairSum_eq_sum hys, pairSum_eq_sum hxs]
  have hswap := Multiset.sum_map_sum_map (xs : Multiset τ) (ys : Multiset τ)
    (f := fun x y => if key y = key x then f x y else 0)
  simp only [Multiset.map_coe, Multiset.sum_coe] at hswap
  rw [hswap]
  simp only [eq_comm]

lemma pairSum_perm {f : τ → τ → M} {xs xs' ys ys' : List τ} (hys : DistinctKeys key ys)
    (hx : xs.Perm xs') (hy : ys.Perm ys') : pairSum key f xs ys = pairSum key f xs' ys' := by
  rw [pairSum, (hx.map _).sum_eq]
  simp only [partner_perm hys hy, pairSum]

lemma loneSum_perm {f : τ → M} {xs xs' ys ys' : List τ} (hys : DistinctKeys key ys)
    (hx : xs.Perm xs') (hy : ys.Perm ys') : loneSum key f xs ys = loneSum key f xs' ys' := by
  rw [loneSum, (hx.map _).sum_eq]
  simp only [partner_perm hys hy, loneSum]

lemma pairSum_congr {f g : τ → τ → M} {xs ys : List τ}
    (h : ∀ x ∈ xs, ∀ y ∈ ys, key y = key x → f x y = g x y) :
    pairSum key f xs ys = pairSum key g xs ys := by
  refine congrArg List.sum (List.map_congr_left fun x hx => ?_)
  cases hp : partner key ys x with
  | none => rfl
  | some y => exact h x hx y (mem_of_partner hp) (key_of_partner hp)

lemma pairSum_add {f g : τ → τ → M} (xs ys : List τ) :
    pairSum key (fun x y => f x y + g x y) xs ys = pairSum key f xs ys + pairSum key g xs ys := by
  rw [pairSum, pairSum, pairSum, ← List.sum_map_add]
  refine congrArg List.sum (List.map_congr_left fun x _ => ?_)
  cases partner key ys x with
  | none => exact (add_zero 0).symm
  | some y => rfl

lemma pairSum_cons_of_ne {f : τ → τ → M} (xs ys : List τ) {y : τ}
    (h : ∀ x ∈ xs, key y ≠ key x) : pairSum key f xs (y :: ys) = pairSum key f xs ys := by
  refine congrArg List.sum (List.map_congr_left fun x hx => ?_)
  rw [partner_cons_of_ne ys (h x hx)]

lemma loneSum_cons_of_ne {f : τ → M} (xs ys : List τ) {y : τ}
    (h : ∀ x ∈ xs, key y ≠ key x) : loneSum key f xs (y :: ys) = loneSum key f xs ys := by
  refine congrArg List.sum (List.map_congr_left fun x hx => ?_)
  rw [partner_cons_of_ne ys (h x hx)]

lemma loneSum_cons {f : τ → M} {x : τ} (xs ys : List τ) :
    loneSum key f (x :: xs) ys =
      (if (partner key ys x).isNone then f x else 0) + loneSum key f xs ys := by
  rw [loneSum, List.map_cons, List.sum_cons, loneSum]

lemma pairSum_cons {f : τ → τ → M} {x : τ} (xs ys : List τ) :
    pairSum key f (x :: xs) ys =
      ((partner key ys x).map (f x)).getD 0 + pairSum key f xs ys := by
  rw [pairSum, List.map_cons, List.sum_cons, pairSum]

lemma loneSum_nil_right {f : τ → M} (xs : List τ) : loneSum key f xs [] = (xs.map f).sum :=
  congrArg List.sum (List.map_congr_left fun _ _ => rfl)

lemma pairSum_nil_right {f : τ → τ → M} (xs : List τ) : pairSum key f xs [] = 0 := by
  refine List.sum_eq_zero fun v hv => ?_
  obtain ⟨x, -, rfl⟩ := List.mem_map.mp hv
  rfl

end Partner

/-! ## What the walk adds -/

namespace MergeActions

variable [AddCommMonoid M] {A : MergeActions τ σ} {key : τ → κ}

lemma total_foldl {total : σ → M} {f : τ → σ → σ} {r : τ → M}
    (hr : ∀ y s, total (f y s) = total s + r y) (ys : List τ) (s : σ) :
    total (ys.foldl (fun s y => f y s) s) = total s + (ys.map r).sum := by
  induction ys generalizing s with
  | nil => exact (add_zero _).symm
  | cons y ys ih => rw [List.foldl_cons, ih, hr, List.map_cons, List.sum_cons, add_assoc]

/-- A quantity to which each action adds something is increased by the sum over the elements
found on one side only and over the pairs. -/
theorem total_merge {total : σ → M} {l r : τ → M} {b : τ → τ → M}
    (hl : ∀ x s, total (A.onlyLeft x s) = total s + l x)
    (hr : ∀ y s, total (A.onlyRight y s) = total s + r y) {xs ys : List τ}
    (hxs : xs.Pairwise fun a b => key a < key b) (hys : ys.Pairwise fun a b => key a < key b)
    (hb : ∀ x ∈ xs, ∀ y ∈ ys, ∀ s, total (A.both x y s) = total s + b x y) (s : σ) :
    total (A.merge key xs ys s) =
      total s + (loneSum key l xs ys + loneSum key r ys xs + pairSum key b xs ys) := by
  induction xs generalizing ys s with
  | nil =>
    rw [merge, total_foldl hr, loneSum_nil_right]
    simp [loneSum, pairSum]
  | cons x xs ih =>
    obtain ⟨hx, hxs'⟩ := List.pairwise_cons.mp hxs
    rw [merge]
    induction ys generalizing s with
    | nil =>
      rw [merge.mergeFrom, ih hxs' List.Pairwise.nil fun _ _ _ h => absurd h List.not_mem_nil, hl,
        loneSum_nil_right, loneSum_nil_right, pairSum_nil_right, pairSum_nil_right, List.map_cons,
        List.sum_cons]
      simp only [loneSum, List.map_nil, List.sum_nil]
      abel
    | cons y ys ihy =>
      obtain ⟨hy, hys'⟩ := List.pairwise_cons.mp hys
      rw [merge.mergeFrom]
      split_ifs with hlt hgt
      · -- the key of `x` comes before all keys of the second list
        have hne : ∀ z ∈ y :: ys, key x < key z := by
          intro z hz
          rcases List.mem_cons.mp hz with rfl | htail
          · exact hlt
          · exact hlt.trans (hy z htail)
        rw [ih hxs' hys fun x' hx' => hb x' (List.mem_cons_of_mem _ hx'), hl,
          loneSum_cons (x := x), pairSum_cons (x := x), partner_eq_none_of_lt hne,
          loneSum_cons_of_ne (y :: ys) xs fun z hz => (hne z hz).ne]
        simp only [Option.isNone_none, if_true, Option.map_none, Option.getD_none]
        abel
      · -- the key of `y` comes before all keys of the first list
        have hne : ∀ z ∈ x :: xs, key y < key z := by
          intro z hz
          rcases List.mem_cons.mp hz with rfl | htail
          · exact hgt
          · exact hgt.trans (hx z htail)
        rw [ihy hys' fun x' hx' y' hy' => hb x' hx' y' (List.mem_cons_of_mem _ hy'), hr,
          loneSum_cons_of_ne (x :: xs) ys fun z hz => (hne z hz).ne,
          pairSum_cons_of_ne (x :: xs) ys fun z hz => (hne z hz).ne, loneSum_cons (x := y),
          partner_eq_none_of_lt hne]
        simp only [Option.isNone_none, if_true]
        abel
      · have heq : key y = key x := le_antisymm (not_lt.mp hlt) (not_lt.mp hgt)
        have hxs_ne : ∀ z ∈ xs, key y ≠ key z := fun z hz => heq ▸ (hx z hz).ne
        have hys_ne : ∀ z ∈ ys, key x ≠ key z := fun z hz => heq ▸ (hy z hz).ne
        rw [ih hxs' hys' fun x' hx' y' hy' =>
            hb x' (List.mem_cons_of_mem _ hx') y' (List.mem_cons_of_mem _ hy'),
          hb x List.mem_cons_self y List.mem_cons_self, loneSum_cons (x := x), pairSum_cons,
          loneSum_cons (x := y), partner_cons_of_eq ys heq, partner_cons_of_eq xs heq.symm,
          loneSum_cons_of_ne xs ys hxs_ne, pairSum_cons_of_ne xs ys hxs_ne,
          loneSum_cons_of_ne ys xs hys_ne]
        simp only [Option.isNone_some, Bool.false_eq_true, if_false, Option.map_some,
          Option.getD_some]
        abel

end MergeActions

end Cangjie
