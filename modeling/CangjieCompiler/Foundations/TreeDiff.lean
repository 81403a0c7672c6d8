import CangjieCompiler.Foundations.SortedMerge
import Mathlib.Data.Nat.Notation

/-!
# Differences of named trees

A place in a list of named trees is a path of names from the top.  Two lists differ in the places
that only one of them has and in those that both have with different labels.

The places are found by running over the first list and looking up in the second; a tree whose
name the second list does not have is missing there as a whole.
-/

namespace Cangjie

/-- A tree with a name and a label at each node. -/
inductive NamedTree (ν η : Type) where
  | node (name : ν) (label : η) (children : List (NamedTree ν η))

namespace NamedTree

variable {ν η : Type}

def name : NamedTree ν η → ν
  | node n _ _ => n

def label : NamedTree ν η → η
  | node _ l _ => l

def children : NamedTree ν η → List (NamedTree ν η)
  | node _ _ cs => cs

/-! ## Places -/

mutual

/-- The places of a tree, from its own name on, with the trees found there. -/
def placesOf : NamedTree ν η → List (List ν × NamedTree ν η)
  | node n l cs => ([n], node n l cs) :: (placesIn cs).map fun q => (n :: q.1, q.2)

/-- The places in a list of trees. -/
def placesIn : List (NamedTree ν η) → List (List ν × NamedTree ν η)
  | [] => []
  | t :: ts => placesOf t ++ placesIn ts

end

/-- The names at all places of a tree. -/
def namesOf (t : NamedTree ν η) : List ν := (placesOf t).map fun q => q.2.name

/-- The names of a tree and of its children. -/
def shallowNames (t : NamedTree ν η) : List ν := t.name :: t.children.map name

/-- The names at all places of a tree below its children. -/
def deepNames (t : NamedTree ν η) : List ν :=
  t.children.flatMap fun c => c.children.flatMap namesOf

/-- What is read off the trees at all places of a list. -/
lemma map_placesIn {β : Type} (g : NamedTree ν η → β) (ts : List (NamedTree ν η)) :
    (placesIn ts).map (fun q => g q.2) = ts.flatMap fun t => (placesOf t).map fun q => g q.2 := by
  induction ts with
  | nil => rfl
  | cons t ts ih => rw [placesIn, List.map_append, ih, List.flatMap_cons]

/-- What is read off the trees at all places of a tree. -/
lemma map_placesOf {β : Type} (g : NamedTree ν η → β) (t : NamedTree ν η) :
    (placesOf t).map (fun q => g q.2) =
      g t :: t.children.flatMap fun c => (placesOf c).map fun q => g q.2 := by
  cases t
  rw [placesOf, List.map_cons, List.map_map, ← map_placesIn]
  rfl

lemma names_placesIn (ts : List (NamedTree ν η)) :
    (placesIn ts).map (fun q => q.2.name) = ts.flatMap namesOf :=
  map_placesIn name ts

lemma namesOf_eq (t : NamedTree ν η) :
    namesOf t = t.name :: (placesIn t.children).map fun q => q.2.name := by
  rw [names_placesIn]
  exact map_placesOf name t

lemma flatMap_namesOf_eq_nil {ts : List (NamedTree ν η)} :
    ts.flatMap namesOf = [] ↔ ts = [] := by
  constructor
  · intro h
    cases ts with
    | nil => rfl
    | cons t ts => exact absurd h (by simp [namesOf_eq])
  · rintro rfl
    rfl

lemma deepNames_eq_nil {t : NamedTree ν η} :
    deepNames t = [] ↔ ∀ c ∈ t.children, c.children = [] := by
  simp only [deepNames, List.flatMap_eq_nil_iff, ← flatMap_namesOf_eq_nil]

/-- The names in a list of trees are those at the top and those below. -/
lemma perm_flatMap_namesOf (ts : List (NamedTree ν η)) :
    (ts.flatMap namesOf).Perm (ts.map name ++ ts.flatMap fun t => t.children.flatMap namesOf) := by
  induction ts with
  | nil => exact List.Perm.refl _
  | cons t ts ih =>
    rw [List.flatMap_cons, namesOf_eq, names_placesIn, List.flatMap_cons, List.map_cons,
      List.cons_append, List.cons_append]
    refine List.Perm.cons _ ((ih.append_left _).trans ?_)
    rw [← List.append_assoc, ← List.append_assoc]
    exact List.perm_append_comm.append_right _

/-- The names of a tree are those of the tree and its children and those further down. -/
lemma perm_namesOf (t : NamedTree ν η) : (namesOf t).Perm (shallowNames t ++ deepNames t) := by
  rw [namesOf_eq, names_placesIn]
  exact (perm_flatMap_namesOf t.children).cons _

mutual

/-- The height of a tree. -/
def height : NamedTree ν η → ℕ
  | node _ _ cs => heightIn cs + 1

/-- The greatest height in a list of trees. -/
def heightIn : List (NamedTree ν η) → ℕ
  | [] => 0
  | t :: ts => max (height t) (heightIn ts)

end

mutual

/-- No two children of a node have the same name. -/
def Distinct : NamedTree ν η → Prop
  | node _ _ cs => DistinctKeys name cs ∧ DistinctIn cs

/-- No node in a list of trees has two children with the same name. -/
def DistinctIn : List (NamedTree ν η) → Prop
  | [] => True
  | t :: ts => Distinct t ∧ DistinctIn ts

end

/-- Names are distinct within the list and within each list of children. -/
def DistinctNames (ts : List (NamedTree ν η)) : Prop := DistinctKeys name ts ∧ DistinctIn ts

lemma distinctNames_children {t : NamedTree ν η} {ts : List (NamedTree ν η)}
    (h : DistinctNames ts) (ht : t ∈ ts) : DistinctNames t.children := by
  obtain ⟨-, hin⟩ := h
  induction ts with
  | nil => exact absurd ht List.not_mem_nil
  | cons s ts ih =>
    obtain ⟨hs, hin⟩ := hin
    rcases List.mem_cons.mp ht with rfl | htail
    · cases t
      exact hs
    · exact ih htail hin

lemma height_children_lt {t : NamedTree ν η} {ts : List (NamedTree ν η)} (ht : t ∈ ts) :
    heightIn t.children < heightIn ts := by
  induction ts with
  | nil => exact absurd ht List.not_mem_nil
  | cons s ts ih =>
    rw [heightIn]
    rcases List.mem_cons.mp ht with rfl | htail
    · cases t
      exact lt_max_of_lt_left (Nat.lt_succ_self _)
    · exact lt_max_of_lt_right (ih htail)

lemma namesOf_node (n : ν) (l : η) (cs : List (NamedTree ν η)) :
    namesOf (node n l cs) = n :: cs.flatMap namesOf := by
  rw [namesOf_eq, ← names_placesIn]
  rfl

/-- Names that are distinct everywhere are distinct within each list. -/
lemma distinctNames_of_nodup : ∀ {ts : List (NamedTree ν η)}, (ts.flatMap namesOf).Nodup →
    DistinctNames ts
  | [], _ => ⟨List.nodup_nil, trivial⟩
  | node n l cs :: ts, h => by
    rw [List.flatMap_cons, namesOf_node] at h
    obtain ⟨htree, hrest, hdisjoint⟩ := List.nodup_append'.mp h
    have hcs := distinctNames_of_nodup (List.nodup_cons.mp htree).2
    have hts := distinctNames_of_nodup hrest
    refine ⟨List.nodup_cons.mpr ⟨fun hmem => ?_, hts.1⟩, hcs, hts.2⟩
    obtain ⟨t, ht, hname⟩ := List.mem_map.mp hmem
    refine hdisjoint List.mem_cons_self (List.mem_flatMap.mpr ⟨t, ht, ?_⟩)
    rw [namesOf_eq, ← show t.name = n from hname]
    exact List.mem_cons_self

/-! ## Relabelled trees -/

section Relabelled

variable {θ : Type} (f : η → θ)

mutual

/-- A tree with other labels. -/
def mapLabel : NamedTree ν η → NamedTree ν θ
  | node n l cs => node n (f l) (mapLabels cs)

/-- A list of trees with other labels. -/
def mapLabels : List (NamedTree ν η) → List (NamedTree ν θ)
  | [] => []
  | t :: ts => mapLabel t :: mapLabels ts

end

lemma mapLabels_eq_map (ts : List (NamedTree ν η)) : mapLabels f ts = ts.map (mapLabel f) := by
  induction ts with
  | nil => rfl
  | cons t ts ih => rw [mapLabels, ih, List.map_cons]

lemma namesOf_mapLabel : ∀ t : NamedTree ν η, namesOf (mapLabel f t) = namesOf t
  | node n l cs => by
    rw [mapLabel, namesOf_node, namesOf_node, mapLabels_eq_map, List.flatMap_map]
    exact congrArg (n :: ·) (List.flatMap_congr fun c _ => namesOf_mapLabel c)

end Relabelled

lemma ne_nil_of_mem_placesIn {q : List ν × NamedTree ν η} {ts : List (NamedTree ν η)}
    (h : q ∈ placesIn ts) : q.1 ≠ [] := by
  induction ts with
  | nil => exact absurd h List.not_mem_nil
  | cons t ts ih =>
    rw [placesIn] at h
    rcases List.mem_append.mp h with hhead | htail
    · cases t with
      | node n l cs =>
        rw [placesOf] at hhead
        rcases List.mem_cons.mp hhead with rfl | hbelow
        · exact List.cons_ne_nil _ _
        · obtain ⟨q', -, rfl⟩ := List.mem_map.mp hbelow
          exact List.cons_ne_nil _ _
    · exact ih htail

variable [LinearOrder ν]

/-- The tree with a given name. -/
def find? (n : ν) (ts : List (NamedTree ν η)) : Option (NamedTree ν η) :=
  ts.find? fun t => t.name = n

lemma partner_name (ts : List (NamedTree ν η)) (t : NamedTree ν η) :
    partner name ts t = find? t.name ts := rfl

/-- The tree at a place. -/
def at? : List ν → List (NamedTree ν η) → Option (NamedTree ν η)
  | [], _ => none
  | [n], ts => find? n ts
  | n :: m :: p, ts => (find? n ts).bind fun t => at? (m :: p) t.children

lemma at?_cons {n : ν} {p : List ν} (ts : List (NamedTree ν η)) (hp : p ≠ []) :
    at? (n :: p) ts = (find? n ts).bind fun t => at? p t.children := by
  cases p with
  | nil => exact absurd rfl hp
  | cons m p => rfl

/-! ## Differences -/

/-- The names at the places that the second list does not have. -/
def deletedNames (xs ys : List (NamedTree ν η)) : List ν :=
  ((placesIn xs).filter fun q => (at? q.1 ys).isNone).map fun q => q.2.name

/-- The names at the places of the second list that the first does not have, while it has the
place above or there is none. -/
def addedNames (xs ys : List (NamedTree ν η)) : List ν :=
  ((placesIn ys).filter fun q =>
    (at? q.1 xs).isNone && (q.1.dropLast.isEmpty || (at? q.1.dropLast xs).isSome)).map
      fun q => q.2.name

/-- The names at the places that both lists have with different labels. -/
def changedNames [DecidableEq η] (xs ys : List (NamedTree ν η)) : List ν :=
  ((placesIn xs).filter fun q => (at? q.1 ys).any fun y => q.2.label ≠ y.label).map
    fun q => q.2.name

mutual

/-- The topmost trees within a tree that a list does not have at their place. -/
def missingFrom : NamedTree ν η → List (NamedTree ν η) → List (NamedTree ν η)
  | node n l cs, ys =>
    match find? n ys with
    | none => [node n l cs]
    | some y => missingIn cs y.children

/-- The topmost trees within a list that another list does not have at their place. -/
def missingIn : List (NamedTree ν η) → List (NamedTree ν η) → List (NamedTree ν η)
  | [], _ => []
  | x :: xs, ys => missingFrom x ys ++ missingIn xs ys

end

mutual

/-- The names of the nodes of a tree that a list has with a different label. -/
def changedFrom [DecidableEq η] : NamedTree ν η → List (NamedTree ν η) → List ν
  | node n l cs, ys =>
    match find? n ys with
    | none => []
    | some y => (if l ≠ y.label then [n] else []) ++ changedIn cs y.children

/-- The names of the nodes of a list of trees that another list has with a different label. -/
def changedIn [DecidableEq η] : List (NamedTree ν η) → List (NamedTree ν η) → List ν
  | [], _ => []
  | x :: xs, ys => changedFrom x ys ++ changedIn xs ys

end

omit [LinearOrder ν] in
/-- What a filter on places selects in a tree. -/
lemma filter_placesOf (p : List ν × NamedTree ν η → Bool) (n : ν) (l : η)
    (cs : List (NamedTree ν η)) :
    ((placesOf (node n l cs)).filter p).map (fun q => q.2.name) =
      (if p ([n], node n l cs) then [n] else []) ++
        ((placesIn cs).filter fun q => p (n :: q.1, q.2)).map (fun q => q.2.name) := by
  rw [placesOf, List.filter_cons, List.filter_map]
  split_ifs
  · rw [List.map_cons, List.map_map]
    rfl
  · rw [List.map_map]
    rfl

mutual

theorem deletedNames_of : ∀ (x : NamedTree ν η) (ys : List (NamedTree ν η)),
    ((placesOf x).filter fun q => (at? q.1 ys).isNone).map (fun q => q.2.name) =
      (missingFrom x ys).flatMap namesOf
  | node n l cs, ys => by
    rw [missingFrom]
    cases hfind : find? n ys with
    | none =>
      have hall : ∀ q ∈ placesOf (node n l cs), (at? q.1 ys).isNone = true := by
        intro q hq
        rw [placesOf] at hq
        rcases List.mem_cons.mp hq with rfl | hbelow
        · rw [at?, hfind]
          rfl
        · obtain ⟨q', hq', rfl⟩ := List.mem_map.mp hbelow
          rw [at?_cons ys (ne_nil_of_mem_placesIn hq'), hfind]
          rfl
      rw [List.filter_eq_self.mpr hall, List.flatMap_singleton]
      rfl
    | some y =>
      rw [filter_placesOf, at?, hfind, if_neg (by simp), List.nil_append]
      refine Eq.trans (congrArg _ (List.filter_congr fun q hq => ?_))
        (deletedNames_eq cs y.children)
      rw [at?_cons ys (ne_nil_of_mem_placesIn hq), hfind, Option.bind_some]

/-- The deleted names are all names of the topmost missing trees. -/
theorem deletedNames_eq : ∀ xs ys : List (NamedTree ν η),
    deletedNames xs ys = (missingIn xs ys).flatMap namesOf
  | [], _ => rfl
  | x :: xs, ys => by
    have htail := deletedNames_eq xs ys
    rw [deletedNames] at htail ⊢
    rw [placesIn, List.filter_append, List.map_append, deletedNames_of x ys, htail, missingIn,
      List.flatMap_append]

end

/-- The place above a place below `n`, in the tree that `n` has. -/
lemma parent_cons {n : ν} {p : List ν} {ts : List (NamedTree ν η)} {t : NamedTree ν η}
    (hp : p ≠ []) (ht : find? n ts = some t) :
    ((n :: p).dropLast.isEmpty || (at? (n :: p).dropLast ts).isSome) =
      (p.dropLast.isEmpty || (at? p.dropLast t.children).isSome) := by
  rw [List.dropLast_cons_of_ne_nil hp]
  by_cases hlast : p.dropLast = []
  · have hroot : at? [n] ts = some t := ht
    rw [hlast, hroot]
    rfl
  · rw [at?_cons ts hlast, ht, Option.bind_some]
    simp [hlast]

mutual

theorem addedNames_of : ∀ (y : NamedTree ν η) (xs : List (NamedTree ν η)),
    ((placesOf y).filter fun q =>
      (at? q.1 xs).isNone && (q.1.dropLast.isEmpty || (at? q.1.dropLast xs).isSome)).map
        (fun q => q.2.name) = (missingFrom y xs).map name
  | node n l cs, xs => by
    rw [missingFrom, filter_placesOf, at?]
    cases hfind : find? n xs with
    | none =>
      have hbelow : ((placesIn cs).filter fun q => (at? (n :: q.1) xs).isNone &&
          ((n :: q.1).dropLast.isEmpty || (at? (n :: q.1).dropLast xs).isSome)) = [] := by
        refine List.filter_eq_nil_iff.mpr fun q hq => ?_
        rw [List.dropLast_cons_of_ne_nil (ne_nil_of_mem_placesIn hq)]
        by_cases hlast : q.1.dropLast = []
        · rw [hlast, at?, hfind]
          simp
        · rw [at?_cons xs hlast, hfind]
          simp
      rw [hbelow]
      rfl
    | some x =>
      rw [if_neg (by simp), List.nil_append]
      refine Eq.trans (congrArg _ (List.filter_congr fun q hq => ?_))
        (addedNames_eq x.children cs)
      have hq := ne_nil_of_mem_placesIn hq
      rw [at?_cons xs hq, hfind, Option.bind_some, parent_cons hq hfind]

/-- The added names are those of the topmost missing trees. -/
theorem addedNames_eq : ∀ xs ys : List (NamedTree ν η),
    addedNames xs ys = (missingIn ys xs).map name
  | _, [] => rfl
  | xs, y :: ys => by
    have htail := addedNames_eq xs ys
    rw [addedNames] at htail ⊢
    rw [placesIn, List.filter_append, List.map_append, addedNames_of y xs, htail, missingIn,
      List.map_append]

end

mutual

theorem changedNames_of [DecidableEq η] : ∀ (x : NamedTree ν η) (ys : List (NamedTree ν η)),
    ((placesOf x).filter fun q => (at? q.1 ys).any fun y => q.2.label ≠ y.label).map
      (fun q => q.2.name) = changedFrom x ys
  | node n l cs, ys => by
    rw [changedFrom, filter_placesOf, at?]
    cases hfind : find? n ys with
    | none =>
      have hbelow : ((placesIn cs).filter fun q =>
          (at? (n :: q.1) ys).any fun y => q.2.label ≠ y.label) = [] := by
        refine List.filter_eq_nil_iff.mpr fun q hq => ?_
        rw [at?_cons ys (ne_nil_of_mem_placesIn hq), hfind]
        simp
      rw [hbelow]
      rfl
    | some y =>
      have hbelow := changedNames_eq cs y.children
      rw [changedNames] at hbelow
      dsimp only
      rw [← hbelow]
      refine congrArg₂ _ (if_congr decide_eq_true_iff rfl rfl) (congrArg _ (List.filter_congr fun q hq => ?_))
      rw [at?_cons ys (ne_nil_of_mem_placesIn hq), hfind, Option.bind_some]

theorem changedNames_eq [DecidableEq η] : ∀ xs ys : List (NamedTree ν η),
    changedNames xs ys = changedIn xs ys
  | [], _ => rfl
  | x :: xs, ys => by
    have htail := changedNames_eq xs ys
    rw [changedNames] at htail ⊢
    rw [placesIn, List.filter_append, List.map_append, changedNames_of x ys, htail, changedIn]

end

/-! ## Differences as sums -/

/-- A sum over the topmost missing trees: those missing at once, and those below the pairs. -/
theorem sum_missingIn {M : Type} [AddCommMonoid M] (g : NamedTree ν η → M)
    (xs ys : List (NamedTree ν η)) :
    ((missingIn xs ys).map g).sum =
      loneSum name g xs ys +
        pairSum name (fun x y => ((missingIn x.children y.children).map g).sum) xs ys := by
  induction xs with
  | nil => exact (add_zero _).symm
  | cons x xs ih =>
    rw [missingIn, List.map_append, List.sum_append, ih, loneSum_cons, pairSum_cons, partner_name]
    cases x with
    | node n l cs =>
      rw [missingFrom]
      cases hfind : find? n ys with
      | none =>
        simp only [name, hfind, Option.isNone_none, if_true, Option.map_none, Option.getD_none,
          List.map_cons, List.map_nil, List.sum_cons, List.sum_nil]
        abel
      | some y =>
        simp only [name, children, hfind, Option.isNone_some, Bool.false_eq_true, if_false,
          Option.map_some, Option.getD_some]
        abel

/-- A sum over the changed names: those of the pairs, and those below the pairs. -/
theorem sum_changedIn {M : Type} [AddCommMonoid M] [DecidableEq η] (g : ν → M)
    (xs ys : List (NamedTree ν η)) :
    ((changedIn xs ys).map g).sum =
      pairSum name (fun x y => (if x.label ≠ y.label then g x.name else 0) +
        ((changedIn x.children y.children).map g).sum) xs ys := by
  induction xs with
  | nil => rfl
  | cons x xs ih =>
    rw [changedIn, List.map_append, List.sum_append, ih, pairSum_cons, partner_name]
    refine congrArg₂ _ ?_ rfl
    cases x with
    | node n l cs =>
      rw [changedFrom]
      cases hfind : find? n ys with
      | none =>
        simp only [name, hfind, Option.map_none, Option.getD_none]
        rfl
      | some y =>
        have hlabel : ((if l ≠ y.label then [n] else []).map g).sum =
            if l ≠ y.label then g n else 0 := by
          split_ifs <;> simp
        simp only [name, hfind, Option.map_some, Option.getD_some]
        rw [List.map_append, List.sum_append, hlabel]
        rfl

end NamedTree

end Cangjie
