import Mathlib.Algebra.BigOperators.Group.List.Basic
import Mathlib.Data.List.Basic
import Mathlib.Data.List.Perm.Basic
import Mathlib.Data.List.Sort
import Mathlib.Order.Basic
import Mathlib.Tactic.Common

/-!
# Ordered finite maps

A finite map kept as a list of entries with increasing keys, together with the two ways of
running over a pair of such maps at once: looking for the first common key whose values decide a
question, and merging the entries key by key.

The walks are defined on lists by structural recursion, so that they can be evaluated; what they
compute is stated through lookups.
-/

variable {κ β γ δ : Type*}

/-- A list of entries with strictly increasing keys. -/
structure OrderedMap (κ β : Type*) [LinearOrder κ] where
  entries : List (κ × β)
  sorted : entries.Pairwise (fun a b => a.1 < b.1)

namespace OrderedMap

section Entries

variable [LinearOrder κ]

/-- Insertion of an entry whose key keeps its value when it is present already. -/
def emplaceEntry (k : κ) (v : β) : List (κ × β) → List (κ × β)
  | [] => [(k, v)]
  | e :: es =>
    if k < e.1 then (k, v) :: e :: es
    else if e.1 < k then e :: emplaceEntry k v es
    else e :: es

/-- The value of a key replaced by what a function makes of it. -/
def modifyEntries (k : κ) (f : β → β) (es : List (κ × β)) : List (κ × β) :=
  es.map fun e => if e.1 = k then (e.1, f e.2) else e

/-- The value of a key. -/
def lookup (k : κ) : List (κ × β) → Option β
  | [] => none
  | e :: es => if e.1 = k then some e.2 else lookup k es

/-- The first decision made on the values of a common key. -/
def firstCommon (decide : β → β → Option γ) : List (κ × β) → List (κ × β) → Option γ
  | [], _ => none
  | x :: xs, ys => walkFrom x (firstCommon decide xs) ys
where
  /-- The walk over the second list while the first one stands at `x`. -/
  walkFrom (x : κ × β) (next : List (κ × β) → Option γ) : List (κ × β) → Option γ
    | [] => none
    | y :: ys =>
      if x.1 < y.1 then next (y :: ys)
      else if y.1 < x.1 then walkFrom x next ys
      else
        match decide x.2 y.2 with
        | some g => some g
        | none => next ys

/-- The entries of two maps merged key by key; a missing value is passed on as `none`. -/
def mergeEntries (f : Option β → Option β → β) : List (κ × β) → List (κ × β) → List (κ × β)
  | [], ys => ys.map fun y => (y.1, f none (some y.2))
  | x :: xs, ys => mergeFrom x (mergeEntries f xs) ys
where
  /-- The merge with the second list while the first one stands at `x`. -/
  mergeFrom (x : κ × β) (next : List (κ × β) → List (κ × β)) : List (κ × β) → List (κ × β)
    | [] => (x.1, f (some x.2) none) :: next []
    | y :: ys =>
      if x.1 < y.1 then (x.1, f (some x.2) none) :: next (y :: ys)
      else if y.1 < x.1 then (y.1, f none (some y.2)) :: mergeFrom x next ys
      else (x.1, f (some x.2) (some y.2)) :: next ys

attribute [local simp] emplaceEntry lookup mergeEntries firstCommon

/-! ## Lookups -/

theorem lookup_eq_none_of_lt {k : κ} {es : List (κ × β)} (h : ∀ e ∈ es, k < e.1) :
    lookup k es = none := by
  induction es with
  | nil => rfl
  | cons e es ih =>
    rw [lookup, if_neg (h e List.mem_cons_self).ne']
    exact ih fun e' he' => h e' (List.mem_cons_of_mem _ he')

theorem mem_of_lookup {k : κ} {v : β} {es : List (κ × β)} (h : lookup k es = some v) :
    (k, v) ∈ es := by
  induction es with
  | nil => exact absurd h (by simp [lookup])
  | cons e es ih =>
    rw [lookup] at h
    split_ifs at h with hkey
    · obtain rfl := Option.some.inj h
      rw [← hkey]
      exact List.mem_cons_self
    · exact List.mem_cons_of_mem _ (ih h)

/-- In a sorted list of entries a key has one value. -/
theorem lookup_eq_some_iff {k : κ} {v : β} {es : List (κ × β)}
    (hs : es.Pairwise (fun a b => a.1 < b.1)) : lookup k es = some v ↔ (k, v) ∈ es := by
  refine ⟨mem_of_lookup, ?_⟩
  induction es with
  | nil => exact fun h => absurd h List.not_mem_nil
  | cons e es ih =>
    obtain ⟨hlt, hs⟩ := List.pairwise_cons.mp hs
    intro hmem
    rw [lookup]
    rcases List.mem_cons.mp hmem with rfl | htail
    · rw [if_pos rfl]
    · rw [if_neg (hlt _ htail).ne]
      exact ih hs htail

/-! ## Insertion -/

theorem mem_emplaceEntry {k : κ} {v : β} {e : κ × β} {es : List (κ × β)}
    (h : e ∈ emplaceEntry k v es) : e = (k, v) ∨ e ∈ es := by
  induction es with
  | nil => exact Or.inl (List.mem_singleton.mp h)
  | cons e' es ih =>
    rw [emplaceEntry] at h
    split_ifs at h
    · exact List.mem_cons.mp h
    · rcases List.mem_cons.mp h with rfl | htail
      · exact Or.inr List.mem_cons_self
      · exact (ih htail).imp_right (List.mem_cons_of_mem _)
    · exact Or.inr h

theorem sorted_emplaceEntry (k : κ) (v : β) {es : List (κ × β)}
    (hs : es.Pairwise (fun a b => a.1 < b.1)) :
    (emplaceEntry k v es).Pairwise (fun a b => a.1 < b.1) := by
  induction es with
  | nil => exact List.pairwise_singleton _ _
  | cons e es ih =>
    obtain ⟨hlt, hs'⟩ := List.pairwise_cons.mp hs
    rw [emplaceEntry]
    split_ifs with hbefore hafter
    · refine List.pairwise_cons.mpr ⟨fun e' he' => ?_, hs⟩
      rcases List.mem_cons.mp he' with rfl | htail
      · exact hbefore
      · exact hbefore.trans (hlt _ htail)
    · refine List.pairwise_cons.mpr ⟨fun e' he' => ?_, ih hs'⟩
      rcases mem_emplaceEntry he' with rfl | htail
      · exact hafter
      · exact hlt _ htail
    · exact hs

/-- A key that was absent has the inserted value, every other key keeps its own. -/
theorem lookup_emplaceEntry (k k' : κ) (v : β) {es : List (κ × β)}
    (hs : es.Pairwise (fun a b => a.1 < b.1)) :
    lookup k' (emplaceEntry k v es) =
      if k = k' then some ((lookup k es).getD v) else lookup k' es := by
  induction es with
  | nil =>
    simp only [emplaceEntry, lookup, Option.getD_none]
  | cons e es ih =>
    obtain ⟨hlt, hs'⟩ := List.pairwise_cons.mp hs
    rw [emplaceEntry]
    split_ifs with hbefore hkey hafter hkey hkey
    · subst hkey
      rw [lookup, if_pos rfl, lookup_eq_none_of_lt, Option.getD_none]
      intro e' he'
      rcases List.mem_cons.mp he' with rfl | htail
      · exact hbefore
      · exact hbefore.trans (hlt _ htail)
    · rw [lookup, if_neg hkey]
    · subst hkey
      rw [lookup, if_neg hafter.ne, ih hs', if_pos rfl, lookup, if_neg hafter.ne]
    · rw [lookup, ih hs', if_neg hkey, lookup]
    · subst hkey
      have heq : e.1 = k := le_antisymm (not_lt.mp hbefore) (not_lt.mp hafter)
      rw [lookup, if_pos heq, Option.getD_some]
    · rfl

theorem emplaceEntry_eq_self {k : κ} {v w : β} {es : List (κ × β)}
    (hs : es.Pairwise (fun a b => a.1 < b.1)) (h : lookup k es = some w) :
    emplaceEntry k v es = es := by
  induction es with
  | nil => exact absurd h (by simp [lookup])
  | cons e es ih =>
    obtain ⟨hlt, hs'⟩ := List.pairwise_cons.mp hs
    rw [emplaceEntry]
    split_ifs with hbefore hafter
    · have hnone : lookup k (e :: es) = none := by
        refine lookup_eq_none_of_lt fun e' he' => ?_
        rcases List.mem_cons.mp he' with rfl | htail
        · exact hbefore
        · exact hbefore.trans (hlt _ htail)
      exact absurd (hnone.symm.trans h) (by simp)
    · rw [lookup, if_neg hafter.ne] at h
      rw [ih hs' h]
    · rfl

/-- A new key joins the keys of the entries. -/
theorem keys_emplaceEntry {k : κ} {v : β} {es : List (κ × β)} (h : lookup k es = none) :
    ((emplaceEntry k v es).map Prod.fst).Perm (k :: es.map Prod.fst) := by
  induction es with
  | nil => exact List.Perm.refl _
  | cons e es ih =>
    rw [lookup] at h
    split_ifs at h with hkey
    rw [emplaceEntry]
    split_ifs with hbefore hafter
    · exact List.Perm.refl _
    · exact ((ih h).cons e.1).trans (List.Perm.swap _ _ _)
    · exact absurd (le_antisymm (not_lt.mp hbefore) (not_lt.mp hafter)) hkey

/-! ## Changed values -/

theorem map_fst_modifyEntries (k : κ) (f : β → β) (es : List (κ × β)) :
    (modifyEntries k f es).map Prod.fst = es.map Prod.fst := by
  rw [modifyEntries, List.map_map]
  refine List.map_congr_left fun e _ => ?_
  dsimp only [Function.comp]
  split_ifs <;> rfl

theorem sorted_of_map_fst {es fs : List (κ × β)} (h : fs.map Prod.fst = es.map Prod.fst)
    (hs : es.Pairwise (fun a b => a.1 < b.1)) : fs.Pairwise (fun a b => a.1 < b.1) := by
  have hkeys : (es.map Prod.fst).Pairwise (· < ·) := List.pairwise_map.mpr hs
  rw [← h] at hkeys
  exact List.pairwise_map.mp hkeys

theorem lookup_map (f : κ → β → β) (k : κ) (es : List (κ × β)) :
    lookup k (es.map fun e => (e.1, f e.1 e.2)) = (lookup k es).map (f k) := by
  induction es with
  | nil => rfl
  | cons e es ih =>
    rw [List.map_cons, lookup, lookup]
    by_cases hkey : e.1 = k
    · rw [if_pos hkey, if_pos hkey, hkey, Option.map_some]
    · rw [if_neg hkey, if_neg hkey, ih]

theorem modifyEntries_eq_map (k : κ) (f : β → β) (es : List (κ × β)) :
    modifyEntries k f es = es.map fun e => (e.1, if e.1 = k then f e.2 else e.2) := by
  refine List.map_congr_left fun e _ => ?_
  split_ifs <;> rfl

/-! ## The two walks -/

/-- A decision of the walk was made on the values of a common key. -/
theorem firstCommon_eq_some {decide : β → β → Option γ} {xs ys : List (κ × β)} {g : γ}
    (h : firstCommon decide xs ys = some g) :
    ∃ k a b, (k, a) ∈ xs ∧ (k, b) ∈ ys ∧ decide a b = some g := by
  induction xs generalizing ys with
  | nil => exact absurd h (by simp [firstCommon])
  | cons x xs ih =>
    rw [firstCommon] at h
    induction ys with
    | nil => exact absurd h (by simp [firstCommon.walkFrom])
    | cons y ys ihy =>
      rw [firstCommon.walkFrom] at h
      split_ifs at h with hlt hgt
      · obtain ⟨k, a, b, ha, hb, hg⟩ := ih h
        exact ⟨k, a, b, List.mem_cons_of_mem _ ha, hb, hg⟩
      · obtain ⟨k, a, b, ha, hb, hg⟩ := ihy h
        exact ⟨k, a, b, ha, List.mem_cons_of_mem _ hb, hg⟩
      · have hkey : x.1 = y.1 := le_antisymm (not_lt.mp hgt) (not_lt.mp hlt)
        split at h
        · next g' hdec =>
          obtain rfl := Option.some.inj h
          refine ⟨x.1, x.2, y.2, List.mem_cons_self, ?_, hdec⟩
          rw [hkey]
          exact List.mem_cons_self
        · obtain ⟨k, a, b, ha, hb, hg⟩ := ih h
          exact ⟨k, a, b, List.mem_cons_of_mem _ ha, List.mem_cons_of_mem _ hb, hg⟩

theorem mem_mergeEntries_iff (f : Option β → Option β → β) {xs ys : List (κ × β)}
    (hx : xs.Pairwise (fun a b => a.1 < b.1)) (hy : ys.Pairwise (fun a b => a.1 < b.1)) (k : κ)
    (v : β) :
    (k, v) ∈ mergeEntries f xs ys ↔
      (lookup k xs ≠ none ∨ lookup k ys ≠ none) ∧ v = f (lookup k xs) (lookup k ys) := by
  induction xs generalizing ys with
  | nil =>
    simp only [mergeEntries, List.mem_map, Prod.mk.injEq, lookup, ne_eq, not_true_eq_false,
      false_or]
    constructor
    · rintro ⟨⟨k', b⟩, hmem, rfl, rfl⟩
      rw [(lookup_eq_some_iff hy).mpr hmem]
      simp
    · rintro ⟨hsome, rfl⟩
      obtain ⟨b, hb⟩ := Option.ne_none_iff_exists'.mp hsome
      exact ⟨(k, b), mem_of_lookup hb, rfl, by rw [hb]⟩
  | cons x xs ih =>
    obtain ⟨hltx, hx'⟩ := List.pairwise_cons.mp hx
    rw [mergeEntries]
    induction ys with
    | nil =>
      rw [mergeEntries.mergeFrom, List.mem_cons, ih hx' List.Pairwise.nil]
      by_cases hkey : x.1 = k
      · subst hkey
        rw [lookup_eq_none_of_lt hltx]
        simp [lookup]
      · simp [lookup, hkey, Ne.symm hkey]
    | cons y ys ihy =>
      obtain ⟨hlty, hy'⟩ := List.pairwise_cons.mp hy
      rw [mergeEntries.mergeFrom]
      split_ifs with hlt hgt
      · rw [List.mem_cons, ih hx' hy]
        by_cases hkey : x.1 = k
        · subst hkey
          have hnone : lookup x.1 (y :: ys) = none := by
            refine lookup_eq_none_of_lt fun e he => ?_
            rcases List.mem_cons.mp he with rfl | htail
            · exact hlt
            · exact hlt.trans (hlty _ htail)
          rw [hnone, lookup_eq_none_of_lt hltx, lookup, if_pos rfl]
          simp
        · simp [lookup, hkey, Ne.symm hkey]
      · rw [List.mem_cons, ihy hy']
        by_cases hkey : y.1 = k
        · subst hkey
          have hnone : lookup y.1 (x :: xs) = none := by
            refine lookup_eq_none_of_lt fun e he => ?_
            rcases List.mem_cons.mp he with rfl | htail
            · exact hgt
            · exact hgt.trans (hltx _ htail)
          rw [hnone, lookup_eq_none_of_lt hlty, lookup, if_pos rfl]
          simp
        · simp [lookup, hkey, Ne.symm hkey]
      · have heq : x.1 = y.1 := le_antisymm (not_lt.mp hgt) (not_lt.mp hlt)
        rw [List.mem_cons, ih hx' hy']
        by_cases hkey : x.1 = k
        · subst hkey
          have hnone : lookup x.1 ys = none := lookup_eq_none_of_lt (by rw [heq]; exact hlty)
          rw [hnone, lookup_eq_none_of_lt hltx]
          simp [lookup, heq]
        · have hkey' : y.1 ≠ k := fun h => hkey (heq.trans h)
          simp [lookup, hkey, hkey', Ne.symm hkey]

end Entries

variable [LinearOrder κ]

/-- The map without entries. -/
def empty : OrderedMap κ β := ⟨[], List.Pairwise.nil⟩

/-- Insertion that keeps the value of a key that is present. -/
def emplace (m : OrderedMap κ β) (k : κ) (v : β) : OrderedMap κ β :=
  ⟨emplaceEntry k v m.entries, sorted_emplaceEntry k v m.sorted⟩

/-- The value of a key. -/
def find? (m : OrderedMap κ β) (k : κ) : Option β := lookup k m.entries

@[simp]
theorem find?_empty (k : κ) : (empty : OrderedMap κ β).find? k = none := rfl

theorem find?_eq_some_iff (m : OrderedMap κ β) {k : κ} {v : β} :
    m.find? k = some v ↔ (k, v) ∈ m.entries :=
  lookup_eq_some_iff m.sorted

theorem mem_emplace {m : OrderedMap κ β} {k : κ} {v : β} {e : κ × β}
    (h : e ∈ (m.emplace k v).entries) : e = (k, v) ∨ e ∈ m.entries :=
  mem_emplaceEntry h

theorem find?_emplace (m : OrderedMap κ β) (k k' : κ) (v : β) :
    (m.emplace k v).find? k' = if k = k' then some ((m.find? k).getD v) else m.find? k' :=
  lookup_emplaceEntry k k' v m.sorted

theorem nodup_keys (m : OrderedMap κ β) : (m.entries.map Prod.fst).Nodup := by
  have h : (m.entries.map Prod.fst).Pairwise (· < ·) := List.pairwise_map.mpr m.sorted
  exact h.imp fun hlt => hlt.ne

theorem mem_keys_iff (m : OrderedMap κ β) {k : κ} :
    k ∈ m.entries.map Prod.fst ↔ ∃ v, m.find? k = some v := by
  constructor
  · intro h
    obtain ⟨e, he, rfl⟩ := List.mem_map.mp h
    exact ⟨e.2, (m.find?_eq_some_iff).mpr he⟩
  · rintro ⟨v, hv⟩
    exact List.mem_map.mpr ⟨(k, v), (m.find?_eq_some_iff).mp hv, rfl⟩

/-- The number of entries. -/
def size (m : OrderedMap κ β) : ℕ := m.entries.length

/-- The value of a present key replaced by what a function makes of it. -/
def modify (m : OrderedMap κ β) (k : κ) (f : β → β) : OrderedMap κ β :=
  ⟨modifyEntries k f m.entries, sorted_of_map_fst (map_fst_modifyEntries k f m.entries) m.sorted⟩

/-- All values replaced by what a function makes of them. -/
def mapValues (m : OrderedMap κ β) (f : β → β) : OrderedMap κ β :=
  ⟨m.entries.map fun e => (e.1, f e.2),
    sorted_of_map_fst (by rw [List.map_map]; rfl) m.sorted⟩

/-- The map of what a function makes of the values. -/
def mapTo (m : OrderedMap κ β) (f : β → γ) : OrderedMap κ γ :=
  ⟨m.entries.map fun e => (e.1, f e.2), by
    refine List.pairwise_map.mpr (m.sorted.imp fun h => ?_)
    exact h⟩

/-- The map without a key. -/
def erase (m : OrderedMap κ β) (k : κ) : OrderedMap κ β :=
  ⟨m.entries.filter fun e => e.1 ≠ k, m.sorted.sublist List.filter_sublist⟩

theorem ext_entries {m m' : OrderedMap κ β} (h : m.entries = m'.entries) : m = m' := by
  cases m
  cases m'
  cases h
  rfl

theorem emplace_eq_self {m : OrderedMap κ β} {k : κ} {v w : β} (h : m.find? k = some w) :
    m.emplace k v = m :=
  ext_entries (emplaceEntry_eq_self m.sorted h)

theorem size_emplace {m : OrderedMap κ β} {k : κ} {v : β} (h : m.find? k = none) :
    (m.emplace k v).size = m.size + 1 := by
  have hlength := (keys_emplaceEntry (v := v) h).length_eq
  rw [List.length_map, List.length_cons, List.length_map] at hlength
  exact hlength

theorem size_modify (m : OrderedMap κ β) (k : κ) (f : β → β) : (m.modify k f).size = m.size :=
  List.length_map _

theorem size_mapValues (m : OrderedMap κ β) (f : β → β) : (m.mapValues f).size = m.size :=
  List.length_map _

theorem map_fst_mapValues (m : OrderedMap κ β) (f : β → β) :
    (m.mapValues f).entries.map Prod.fst = m.entries.map Prod.fst := by
  dsimp only [mapValues]
  rw [List.map_map]
  rfl

theorem find?_mapValues (m : OrderedMap κ β) (f : β → β) (k : κ) :
    (m.mapValues f).find? k = (m.find? k).map f :=
  lookup_map (fun _ => f) k m.entries

theorem find?_mapTo (m : OrderedMap κ β) (f : β → γ) (k : κ) :
    (m.mapTo f).find? k = (m.find? k).map f := by
  refine Option.ext fun v => ?_
  rw [find?_eq_some_iff, mapTo, Option.map_eq_some_iff, List.mem_map]
  constructor
  · rintro ⟨e, he, heq⟩
    obtain ⟨rfl, rfl⟩ := Prod.mk.inj heq
    exact ⟨e.2, (m.find?_eq_some_iff).mpr he, rfl⟩
  · rintro ⟨w, hw, rfl⟩
    exact ⟨(k, w), (m.find?_eq_some_iff).mp hw, rfl⟩

theorem find?_modify (m : OrderedMap κ β) (k : κ) (f : β → β) (k' : κ) :
    (m.modify k f).find? k' = if k' = k then (m.find? k').map f else m.find? k' := by
  have h : lookup k' (modifyEntries k f m.entries) =
      (lookup k' m.entries).map fun v => if k' = k then f v else v := by
    rw [modifyEntries_eq_map]
    exact lookup_map (fun key v => if key = k then f v else v) k' m.entries
  refine h.trans ?_
  split_ifs
  · rfl
  · exact congrFun Option.map_id _

theorem mapValues_eq_self {m : OrderedMap κ β} {f : β → β}
    (h : ∀ k v, m.find? k = some v → f v = v) : m.mapValues f = m := by
  refine ext_entries ?_
  refine (List.map_congr_left fun e he => ?_).trans (List.map_id _)
  exact Prod.ext rfl (h e.1 e.2 ((m.find?_eq_some_iff).mpr he))

theorem modify_eq_self {m : OrderedMap κ β} {k : κ} {f : β → β}
    (h : ∀ v, m.find? k = some v → f v = v) : m.modify k f = m := by
  refine ext_entries ?_
  refine (List.map_congr_left fun e he => ?_).trans (List.map_id _)
  split_ifs with hkey
  · have hfind : m.find? k = some e.2 := by
      rw [← hkey]
      exact (m.find?_eq_some_iff).mpr he
    exact Prod.ext rfl (h e.2 hfind)
  · rfl

/-! ## Assignment and lookup with a default -/

/-- The value of a key set, whether it is present or not. -/
def assign (m : OrderedMap κ β) (k : κ) (v : β) : OrderedMap κ β :=
  (m.emplace k v).modify k fun _ => v

/-- The value of a key, or a default. -/
def valueD (m : OrderedMap κ β) (k : κ) (d : β) : β := (m.find? k).getD d

theorem find?_assign (m : OrderedMap κ β) (k k' : κ) (v : β) :
    (m.assign k v).find? k' = if k = k' then some v else m.find? k' := by
  rw [assign, find?_modify, find?_emplace]
  by_cases h : k = k'
  · rw [if_pos h.symm, if_pos h, if_pos h]
    rfl
  · rw [if_neg fun h' => h h'.symm, if_neg h, if_neg h]

theorem valueD_assign (m : OrderedMap κ β) (k k' : κ) (v d : β) :
    (m.assign k v).valueD k' d = if k = k' then v else m.valueD k' d := by
  rw [valueD, find?_assign]
  split_ifs <;> rfl

theorem valueD_modify (m : OrderedMap κ β) (k k' : κ) (f : β → β) (d : β) :
    (m.modify k f).valueD k' d =
      if k' = k then ((m.find? k').map f).getD d else m.valueD k' d := by
  rw [valueD, find?_modify]
  split_ifs <;> rfl

theorem find?_erase (m : OrderedMap κ β) (k k' : κ) :
    (m.erase k).find? k' = if k' = k then none else m.find? k' := by
  have hiff : ∀ v, (m.erase k).find? k' = some v ↔ k' ≠ k ∧ m.find? k' = some v := by
    intro v
    rw [find?_eq_some_iff, find?_eq_some_iff, erase, List.mem_filter, and_comm]
    exact and_congr_left' decide_eq_true_iff
  refine Option.ext fun v => (hiff v).trans ?_
  split_ifs with heq
  · exact iff_of_false (fun h => h.1 heq) (by simp)
  · exact and_iff_right heq

/-- Making a key present with the default changes no value. -/
theorem valueD_emplace (m : OrderedMap κ β) (k k' : κ) (d : β) :
    (m.emplace k d).valueD k' d = m.valueD k' d := by
  rw [valueD, find?_emplace, valueD]
  split_ifs with h
  · rw [h]
    rfl
  · rfl

/-! ## Maps with the same values -/

/-- Maps with the same values are the same. -/
theorem ext_find? {m m' : OrderedMap κ β} (h : ∀ k, m.find? k = m'.find? k) : m = m' := by
  have : Std.Irrefl fun a b : κ × β => a.1 < b.1 := ⟨fun a => lt_irrefl a.1⟩
  have : Std.Antisymm fun a b : κ × β => a.1 < b.1 := ⟨fun _ _ hlt hgt => absurd hlt hgt.asymm⟩
  refine ext_entries (m.sorted.eq_of_mem_iff m'.sorted fun e => ?_)
  rw [← Prod.mk.eta (p := e), ← find?_eq_some_iff, ← find?_eq_some_iff, h]

theorem mapTo_modify {m : OrderedMap κ β} {k : κ} {f : β → β} {F : β → γ} {h : γ → γ}
    (hf : ∀ v, F (f v) = h (F v)) : (m.modify k f).mapTo F = (m.mapTo F).modify k h := by
  refine ext_find? fun k' => ?_
  rw [find?_mapTo, find?_modify, find?_modify, find?_mapTo]
  split_ifs
  · cases m.find? k' with
    | none => rfl
    | some v => exact congrArg some (hf v)
  · rfl

/-! ## Sums over the values -/

section Total

variable {M : Type*} [AddCommMonoid M]

/-- The sum of a measure over the values. -/
def total (f : β → M) (m : OrderedMap κ β) : M := (m.entries.map fun e => f e.2).sum

lemma perm_erase {m : OrderedMap κ β} {k : κ} {v : β} (h : m.find? k = some v) :
    m.entries.Perm ((k, v) :: (m.erase k).entries) := by
  have hnodup : ((k, v) :: (m.erase k).entries).Nodup := by
    refine List.nodup_cons.mpr ⟨fun hmem => ?_, ((m.erase k).nodup_keys).of_map _⟩
    have hfind := (m.erase k).find?_eq_some_iff.mpr hmem
    rw [find?_erase, if_pos rfl] at hfind
    exact absurd hfind (Option.some_ne_none v).symm
  refine (List.perm_ext_iff_of_nodup (m.nodup_keys.of_map _) hnodup).mpr fun e => ?_
  rw [List.mem_cons, ← Prod.mk.eta (p := e), ← find?_eq_some_iff, ← find?_eq_some_iff,
    find?_erase]
  constructor
  · intro he
    by_cases hkey : e.1 = k
    · rw [hkey, h] at he
      exact Or.inl (Prod.ext hkey (Option.some.inj he).symm)
    · exact Or.inr (by rwa [if_neg hkey])
  · rintro (heq | he)
    · obtain ⟨rfl, rfl⟩ := Prod.mk.inj heq
      exact h
    · split_ifs at he
      exact he

/-- A new key joins the entries. -/
lemma perm_emplace {m : OrderedMap κ β} {k : κ} (v : β) (h : m.find? k = none) :
    (m.emplace k v).entries.Perm ((k, v) :: m.entries) := by
  have hfind : (m.emplace k v).find? k = some v := by
    rw [find?_emplace, if_pos rfl, h]
    rfl
  have herase : (m.emplace k v).erase k = m := by
    refine ext_find? fun k' => ?_
    rw [find?_erase, find?_emplace]
    by_cases hkey : k' = k
    · rw [if_pos hkey, hkey, h]
    · rw [if_neg hkey, if_neg fun h' => hkey h'.symm]
  have hperm := perm_erase hfind
  rwa [herase] at hperm

lemma find?_eq_none_iff (m : OrderedMap κ β) {k : κ} :
    m.find? k = none ↔ k ∉ m.entries.map Prod.fst := by
  rw [mem_keys_iff, not_exists, Option.eq_none_iff_forall_ne_some]

/-- New keys, put in one after the other, join the entries. -/
lemma perm_foldl_emplace {ts : List (κ × β)} {m : OrderedMap κ β}
    (h : (m.entries.map Prod.fst ++ ts.map Prod.fst).Nodup) :
    (ts.foldl (fun m t => m.emplace t.1 t.2) m).entries.Perm (m.entries ++ ts) := by
  induction ts generalizing m with
  | nil =>
    rw [List.append_nil]
    exact List.Perm.refl _
  | cons t ts ih =>
    rw [List.map_cons] at h
    have hmiddle := List.nodup_cons.mp (List.perm_middle.nodup_iff.mp h)
    have hfresh : m.find? t.1 = none :=
      (m.find?_eq_none_iff).mpr fun hmem => hmiddle.1 (List.mem_append_left _ hmem)
    have hentries := perm_emplace t.2 hfresh
    have hkeys : ((m.emplace t.1 t.2).entries.map Prod.fst ++ ts.map Prod.fst).Nodup := by
      refine ((hentries.map Prod.fst).append_right _).nodup_iff.mpr ?_
      exact List.perm_middle.nodup_iff.mp h
    exact ((ih hkeys).trans (hentries.append_right ts)).trans List.perm_middle.symm

theorem total_erase (f : β → M) {m : OrderedMap κ β} {k : κ} {v : β} (h : m.find? k = some v) :
    total f m = f v + total f (m.erase k) := by
  have hsum := ((perm_erase h).map fun e => f e.2).sum_eq
  rwa [List.map_cons, List.sum_cons] at hsum

theorem total_modify (f : β → M) {m : OrderedMap κ β} {k : κ} {v : β} (h : m.find? k = some v)
    (g : β → β) : total f (m.modify k g) + f v = total f m + f (g v) := by
  have hfind : (m.modify k g).find? k = some (g v) := by
    rw [find?_modify, if_pos rfl, h]
    rfl
  have herase : (m.modify k g).erase k = m.erase k := by
    refine ext_find? fun k' => ?_
    rw [find?_erase, find?_erase, find?_modify]
    split_ifs <;> rfl
  rw [total_erase f hfind, total_erase f h, herase, add_comm (f (g v)), add_comm (f v),
    add_right_comm]

theorem total_emplace (f : β → M) {m : OrderedMap κ β} {k : κ} (v : β) (h : m.find? k = none) :
    total f (m.emplace k v) = f v + total f m := by
  have hsum := ((perm_emplace v h).map fun e => f e.2).sum_eq
  rwa [List.map_cons, List.sum_cons] at hsum

theorem total_mapValues {f : β → M} {g : β → β} (h : ∀ v, f (g v) = f v) (m : OrderedMap κ β) :
    total f (m.mapValues g) = total f m := by
  rw [total, mapValues, List.map_map, total]
  exact congrArg List.sum (List.map_congr_left fun e _ => h e.2)

end Total

/-! ## Grouped values -/

section Grouped

lemma erase_eq_self {m : OrderedMap κ β} {k : κ} (h : m.find? k = none) : m.erase k = m := by
  refine ext_find? fun k' => ?_
  rw [find?_erase]
  split_ifs with hkey
  · rw [hkey, h]
  · rfl

/-- The entries after a key was set: that of the key and those of the other keys. -/
lemma perm_assign (m : OrderedMap κ β) (k : κ) (v : β) :
    (m.assign k v).entries.Perm ((k, v) :: (m.erase k).entries) := by
  have hfind : (m.assign k v).find? k = some v := by rw [find?_assign, if_pos rfl]
  have herase : (m.assign k v).erase k = m.erase k := by
    refine ext_find? fun k' => ?_
    rw [find?_erase, find?_erase, find?_assign]
    split_ifs with hkey hkey'
    · rfl
    · exact absurd hkey'.symm hkey
    · rfl
  have hperm := perm_erase hfind
  rwa [herase] at hperm

/-- The keys after a key was set: a new key joins them. -/
lemma perm_keys_assign (m : OrderedMap κ β) (k : κ) (v : β) :
    ((m.assign k v).entries.map Prod.fst).Perm
      (m.entries.map Prod.fst ++ if m.find? k = none then [k] else []) := by
  have hassign := (perm_assign m k v).map Prod.fst
  refine hassign.trans ?_
  cases hfind : m.find? k with
  | some w =>
    rw [if_neg (Option.some_ne_none w), List.append_nil]
    exact ((perm_erase hfind).map Prod.fst).symm
  | none =>
    rw [if_pos rfl, erase_eq_self hfind]
    exact (List.perm_append_singleton _ _).symm

/-- What is gathered from the members of all groups grows by what the new member gives. -/
lemma perm_flatMap_assign (g : γ → List δ) (m : OrderedMap κ (List γ)) (k : κ) (x : γ) :
    ((m.assign k (m.valueD k [] ++ [x])).entries.flatMap fun e => e.2.flatMap g).Perm
      ((m.entries.flatMap fun e => e.2.flatMap g) ++ g x) := by
  have hentries : (m.entries.flatMap fun e => e.2.flatMap g).Perm
      ((m.valueD k []).flatMap g ++ (m.erase k).entries.flatMap fun e => e.2.flatMap g) := by
    cases hfind : m.find? k with
    | some l =>
      have hperm := (perm_erase hfind).flatMap_right fun e => e.2.flatMap g
      rwa [valueD, hfind]
    | none =>
      rw [valueD, hfind, erase_eq_self hfind]
      exact List.Perm.refl _
  have hassign := (perm_assign m k (m.valueD k [] ++ [x])).flatMap_right fun e => e.2.flatMap g
  rw [List.flatMap_cons, List.flatMap_append, List.flatMap_cons, List.flatMap_nil,
    List.append_nil] at hassign
  refine hassign.trans (List.Perm.trans ?_ (hentries.symm.append_right (g x)))
  rw [List.append_assoc, List.append_assoc]
  exact List.perm_append_comm.append_left _

end Grouped

end OrderedMap
