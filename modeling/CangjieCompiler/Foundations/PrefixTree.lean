import CangjieCompiler.Foundations.OrderedMap
import Mathlib

/-!
# Prefix trees that collect labels

A tree whose edges carry letters. A labelled word is inserted along its letters and leaves its
label at every node on the way, so that the labels of a node are those of the words with that
prefix (`passes_build`).

A query word is followed as deep as the tree goes (`commonRoot`); climbing back to a stop depth
and collecting, at every node, the children on one side of the query's letter is a search by
order: `mem_climb` says which labels it returns, for any visit of one node that meets `Visits`.
-/

open OrderedMap

/-- A node of a prefix tree: its labels and its children by increasing letter. -/
structure PrefixTree (κ σ : Type) where
  ids : Finset σ
  next : List (κ × PrefixTree κ σ)

namespace PrefixTree

variable {κ σ : Type} [LinearOrder κ]

/-! ## Descent -/

/-- A node without labels and children. -/
def leaf : PrefixTree κ σ := ⟨∅, []⟩

/-- The child along a letter. -/
def child? (n : PrefixTree κ σ) (c : κ) : Option (PrefixTree κ σ) := lookup c n.next

/-- The node below a prefix. -/
def descend : List κ → PrefixTree κ σ → Option (PrefixTree κ σ)
  | [], n => some n
  | c :: p, n => (n.child? c).bind (descend p)

attribute [local simp] descend

/-- The node below a prefix exists and has the label. -/
def Passes (p : List κ) (id : σ) (n : PrefixTree κ σ) : Prop :=
  ∃ m, descend p n = some m ∧ id ∈ m.ids

/-- Every node below has its children in order. -/
def Ordered (n : PrefixTree κ σ) : Prop :=
  ∀ p m, descend p n = some m → m.next.Pairwise (fun a b => a.1 < b.1)

@[simp]
theorem descend_nil (n : PrefixTree κ σ) : descend [] n = some n := rfl

@[simp]
theorem child?_leaf (c : κ) : (leaf : PrefixTree κ σ).child? c = none := rfl

theorem descend_append (p r : List κ) (n : PrefixTree κ σ) :
    descend (p ++ r) n = (descend p n).bind (descend r) := by
  induction p generalizing n with
  | nil => rfl
  | cons c p ih =>
    rw [List.cons_append, descend, descend, Option.bind_assoc]
    exact congrArg _ (funext fun m => ih m)

theorem descend_singleton (c : κ) (n : PrefixTree κ σ) : descend [c] n = n.child? c := by
  rw [descend]
  cases n.child? c <;> rfl

/-- A label below a letter is a label of the child, an absent child having none. -/
theorem passes_cons (c : κ) (p : List κ) (id : σ) (n : PrefixTree κ σ) :
    Passes (c :: p) id n ↔ Passes p id ((n.child? c).getD leaf) := by
  rw [Passes, descend]
  cases n.child? c with
  | some k => rfl
  | none =>
    refine iff_of_false (fun h => by obtain ⟨m, hm, -⟩ := h; cases hm) ?_
    rintro ⟨m, hm, hid⟩
    cases p with
    | nil =>
      cases hm
      exact Finset.notMem_empty id hid
    | cons d p => cases hm

/-- A node is ordered when its children are and come in order. -/
theorem ordered_iff {n : PrefixTree κ σ} :
    n.Ordered ↔ n.next.Pairwise (fun a b => a.1 < b.1) ∧
      ∀ c m, n.child? c = some m → m.Ordered := by
  constructor
  · intro hn
    refine ⟨hn [] n rfl, fun c m hm p k hk => hn (c :: p) k ?_⟩
    rw [descend, hm]
    exact hk
  · rintro ⟨hnext, hchild⟩ p k hk
    cases p with
    | nil =>
      cases hk
      exact hnext
    | cons c p =>
      obtain ⟨m, hm, hmk⟩ := Option.bind_eq_some_iff.mp hk
      exact hchild c m hm p k hmk

theorem ordered_leaf : (leaf : PrefixTree κ σ).Ordered :=
  ordered_iff.mpr ⟨List.Pairwise.nil, fun _ _ h => by cases h⟩

/-- The child along a letter is ordered, and so is the empty node in its place. -/
theorem Ordered.getD_child? {n : PrefixTree κ σ} (hn : n.Ordered) (c : κ) :
    ((n.child? c).getD leaf).Ordered := by
  cases hc : n.child? c with
  | none => exact ordered_leaf
  | some k => exact (ordered_iff.mp hn).2 c k hc

/-! ## Insertion -/

section Insertion

variable [DecidableEq σ]

/-- A node with one more label. -/
def mark (id : σ) (n : PrefixTree κ σ) : PrefixTree κ σ := ⟨insert id n.ids, n.next⟩

/-- Insertion of a word: every node on its way, the start excepted, gets the label. -/
def insertWord : List κ → σ → PrefixTree κ σ → PrefixTree κ σ
  | [], _, n => n
  | c :: word, id, n =>
    ⟨n.ids, modifyEntries c (fun m => insertWord word id (m.mark id)) (emplaceEntry c leaf n.next)⟩

/-- The tree of a list of labelled words. -/
def build (entries : List (List κ × σ)) : PrefixTree κ σ :=
  entries.foldl (fun n e => insertWord e.1 e.2 n) leaf

omit [LinearOrder κ] in
theorem mem_ids_mark {id s : σ} {n : PrefixTree κ σ} : s ∈ (n.mark id).ids ↔ s = id ∨ s ∈ n.ids :=
  Finset.mem_insert

theorem ids_insertWord (word : List κ) (id : σ) (n : PrefixTree κ σ) :
    (insertWord word id n).ids = n.ids := by
  cases word <;> rfl

theorem Ordered.mark {n : PrefixTree κ σ} (hn : n.Ordered) (id : σ) : (n.mark id).Ordered :=
  ordered_iff.mpr (ordered_iff.mp hn : _ ∧ _)

/-- Only the child along the word's first letter changes. -/
theorem child?_insertWord {n : PrefixTree κ σ} (hn : n.Ordered) (c : κ) (word : List κ) (id : σ)
    (d : κ) :
    (insertWord (c :: word) id n).child? d =
      if d = c then some (insertWord word id (((n.child? c).getD leaf).mark id))
      else n.child? d := by
  let m : OrderedMap κ (PrefixTree κ σ) := ⟨n.next, (ordered_iff.mp hn).1⟩
  have hmodify := find?_modify (m.emplace c leaf) c (fun k => insertWord word id (k.mark id)) d
  refine hmodify.trans ?_
  by_cases hd : d = c
  · rw [if_pos hd, if_pos hd, find?_emplace, if_pos hd.symm, Option.map_some]
    rfl
  · rw [if_neg hd, if_neg hd, find?_emplace, if_neg (Ne.symm hd)]
    rfl

theorem Ordered.insertWord (word : List κ) (id : σ) {n : PrefixTree κ σ} (hn : n.Ordered) :
    (insertWord word id n).Ordered := by
  induction word generalizing n with
  | nil => exact hn
  | cons c word ih =>
    refine ordered_iff.mpr ⟨?_, fun d m hm => ?_⟩
    · exact sorted_of_map_fst
        (map_fst_modifyEntries c (fun m => PrefixTree.insertWord word id (m.mark id)) _)
        (sorted_emplaceEntry c leaf (ordered_iff.mp hn).1)
    · rw [child?_insertWord hn] at hm
      by_cases hd : d = c
      · rw [if_pos hd] at hm
        cases hm
        exact ih ((hn.getD_child? c).mark id)
      · rw [if_neg hd] at hm
        exact (ordered_iff.mp hn).2 d m hm

/-- Insertion adds the label to the word's prefixes and to no others. -/
theorem passes_insertWord (word : List κ) (id : σ) {n : PrefixTree κ σ} (hn : n.Ordered)
    {p : List κ} (hp : p ≠ []) (s : σ) :
    Passes p s (insertWord word id n) ↔ Passes p s n ∨ (p <+: word ∧ s = id) := by
  induction word generalizing n p with
  | nil => simp [insertWord, hp]
  | cons c word ih =>
    cases p with
    | nil => exact absurd rfl hp
    | cons d p =>
      rw [passes_cons, child?_insertWord hn, List.cons_prefix_cons]
      by_cases hd : d = c
      · subst hd
        rw [if_pos rfl, Option.getD_some, passes_cons]
        cases p with
        | nil => simp [Passes, ids_insertWord, mem_ids_mark, or_comm]
        | cons e p =>
          rw [ih ((hn.getD_child? d).mark id) (List.cons_ne_nil e p)]
          simp [passes_cons, mark, child?]
      · rw [if_neg hd, passes_cons]
        simp [hd]

/-- Insertion creates the nodes of the word's prefixes and no others. -/
theorem isSome_descend_insertWord (word : List κ) (id : σ) {n : PrefixTree κ σ} (hn : n.Ordered)
    (p : List κ) :
    (descend p (insertWord word id n)).isSome ↔ (descend p n).isSome ∨ p <+: word := by
  induction word generalizing n p with
  | nil => cases p <;> simp [insertWord]
  | cons c word ih =>
    cases p with
    | nil => simp
    | cons d p =>
      rw [descend, descend, child?_insertWord hn, List.cons_prefix_cons]
      by_cases hd : d = c
      · subst hd
        rw [if_pos rfl, Option.bind_some, ih ((hn.getD_child? d).mark id)]
        cases p with
        | nil => simp
        | cons e p => cases hc : n.child? d <;> simp [descend, mark, child?, leaf, lookup]
      · rw [if_neg hd]
        simp [hd]

theorem ordered_build (entries : List (List κ × σ)) : (build entries).Ordered := by
  induction entries using List.reverseRecOn with
  | nil => exact ordered_leaf
  | append_singleton entries e ih =>
    rw [build, List.foldl_append]
    exact ih.insertWord e.1 e.2

/-- The labels of a nonempty prefix are those of the words that start with it. -/
theorem passes_build (entries : List (List κ × σ)) {p : List κ} (hp : p ≠ []) (s : σ) :
    Passes p s (build entries) ↔ ∃ w, (w, s) ∈ entries ∧ p <+: w := by
  induction entries using List.reverseRecOn with
  | nil =>
    refine iff_of_false ?_ (by simp)
    rintro ⟨m, hm, hs⟩
    cases p with
    | nil => exact hp rfl
    | cons c p => cases hm
  | append_singleton entries e ih =>
    have hlast : build (entries ++ [e]) = insertWord e.1 e.2 (build entries) :=
      List.foldl_append
    rw [hlast, passes_insertWord _ _ (ordered_build entries) hp, ih]
    constructor
    · rintro (⟨w, hw, hpw⟩ | ⟨hpw, rfl⟩)
      · exact ⟨w, List.mem_append_left _ hw, hpw⟩
      · exact ⟨e.1, List.mem_append_right _ List.mem_cons_self, hpw⟩
    · rintro ⟨w, hw, hpw⟩
      rcases List.mem_append.mp hw with hw | hw
      · exact Or.inl ⟨w, hw, hpw⟩
      · obtain rfl := List.mem_singleton.mp hw
        exact Or.inr ⟨hpw, rfl⟩

/-- The nodes are those of the words' prefixes. -/
theorem isSome_descend_build (entries : List (List κ × σ)) {p : List κ} (hp : p ≠ []) :
    (descend p (build entries)).isSome ↔ ∃ e ∈ entries, p <+: e.1 := by
  induction entries using List.reverseRecOn with
  | nil =>
    cases p with
    | nil => exact absurd rfl hp
    | cons c p => simp [build, descend]
  | append_singleton entries e ih =>
    have hlast : build (entries ++ [e]) = insertWord e.1 e.2 (build entries) :=
      List.foldl_append
    rw [hlast, isSome_descend_insertWord _ _ (ordered_build entries), ih]
    simp [or_and_right, exists_or]

end Insertion

/-! ## Walking down along a query -/

/-- The nodes along a query as deep as the tree goes, the deepest first. -/
def commonRoot : List κ → PrefixTree κ σ → List (PrefixTree κ σ) → List (PrefixTree κ σ)
  | [], n, ancestors => n :: ancestors
  | c :: q, n, ancestors =>
    match n.child? c with
    | none => n :: ancestors
    | some m => commonRoot q m (n :: ancestors)

/-- The nodes stand one below the other along the query, down from the root. -/
def Along (root : PrefixTree κ σ) (q : List κ) : List (PrefixTree κ σ) → Prop
  | [] => True
  | n :: ancestors => descend (q.take ancestors.length) root = some n ∧ Along root q ancestors

/-- The walk stays along the query and ends where the tree or the query does. -/
theorem commonRoot_spec (root : PrefixTree κ σ) (p q : List κ) {n : PrefixTree κ σ}
    {ancestors : List (PrefixTree κ σ)} (halong : Along root (p ++ q) (n :: ancestors))
    (hlen : ancestors.length = p.length) :
    Along root (p ++ q) (commonRoot q n ancestors) ∧
      (commonRoot q n ancestors).length ≤ (p ++ q).length + 1 ∧
      ((commonRoot q n ancestors).length ≤ (p ++ q).length →
        descend ((p ++ q).take (commonRoot q n ancestors).length) root = none) := by
  induction q generalizing p n ancestors with
  | nil =>
    rw [List.append_nil] at halong ⊢
    refine ⟨halong, by simp [commonRoot, hlen], fun h => ?_⟩
    simp only [commonRoot, List.length_cons] at h
    omega
  | cons c q ih =>
    have htake : (p ++ c :: q).take (ancestors.length + 1) = p ++ [c] := by
      simp [hlen, List.take_append]
    have hnode : descend p root = some n := by
      have h := halong.1
      rwa [hlen, List.take_left] at h
    have hchild : descend (p ++ [c]) root = n.child? c := by
      rw [descend_append, hnode, Option.bind_some, descend_singleton]
    rw [commonRoot]
    cases hc : n.child? c with
    | none =>
      refine ⟨halong, by simp [hlen], fun _ => ?_⟩
      rw [List.length_cons, htake, hchild, hc]
    | some m =>
      have hassoc : p ++ c :: q = (p ++ [c]) ++ q := by simp
      have hdeeper : Along root ((p ++ [c]) ++ q) (m :: n :: ancestors) := by
        rw [← hassoc]
        refine ⟨?_, halong⟩
        rw [List.length_cons, htake, hchild, hc]
      rw [hassoc]
      exact ih (p ++ [c]) hdeeper (by simp [hlen])

/-- The walk from the root. -/
theorem commonRoot_root (root : PrefixTree κ σ) (q : List κ) :
    Along root q (commonRoot q root []) ∧
      (commonRoot q root []).length ≤ q.length + 1 ∧
      ((commonRoot q root []).length ≤ q.length →
        descend (q.take (commonRoot q root []).length) root = none) :=
  commonRoot_spec root [] q (show Along root ([] ++ q) [root] from ⟨rfl, trivial⟩) rfl

/-! ## Collecting on the way up -/

section Climb

variable (visit : ℕ → PrefixTree κ σ → Finset σ → Bool → Finset σ × Bool) (stop full : ℕ)

/-- The climb from the deepest node down to the stop depth: a node at the full depth is passed
over, any other one is visited with the labels so far and the flag of the closed bound. -/
def climb : List (PrefixTree κ σ) → Finset σ → Bool → Finset σ
  | [], ids, _ => ids
  | n :: ancestors, ids, isClose =>
    if stop < ancestors.length then
      if ancestors.length = full then climb ancestors ids isClose
      else climb ancestors (visit ancestors.length n ids isClose).1
        (visit ancestors.length n ids isClose).2
    else ids

/-- A visit adds the labels of the children on one side of the query's letter, and of the letter
itself while the flag is set; it leaves the flag set only when all children are on that side. -/
structure Visits (side : κ → κ → Prop) (q : List κ) : Prop where
  mem_fst : ∀ {depth n ids b c}, n.next.Pairwise (fun a b => a.1 < b.1) → q[depth]? = some c →
    ∀ s, s ∈ (visit depth n ids b).1 ↔ s ∈ ids ∨
      ∃ d m, n.child? d = some m ∧ s ∈ m.ids ∧ (side d c ∨ (b = true ∧ d = c))
  snd : ∀ {depth n ids b c}, n.next.Pairwise (fun a b => a.1 < b.1) → q[depth]? = some c →
    (visit depth n ids b).2 = true → b = true ∧ ∀ d m, n.child? d = some m → side d c

/-- A word leaves the query at a letter on the asked side of it. -/
def Beyond (side : κ → κ → Prop) (q w : List κ) : Prop :=
  ∃ p c d, p ++ [c] <+: q ∧ p ++ [d] <+: w ∧ side d c

/-- The labels of the words that share the query's first letters and then lie on the asked side
of it, or are the query itself when the bound is closed. -/
def Answers (entries : List (List κ × σ)) (side : κ → κ → Prop) (q : List κ) (isClose : Bool)
    (s : σ) : Prop :=
  ∃ w, (w, s) ∈ entries ∧ q.take (stop + 1) <+: w ∧
    (Beyond side q w ∨ (isClose = true ∧ w = q.take full))

variable {visit stop full} [DecidableEq σ] {entries : List (List κ × σ)} {side : κ → κ → Prop}
  {q : List κ}

omit [LinearOrder κ] in
theorem take_append_letter {d : ℕ} {c : κ} (hc : q[d]? = some c) :
    q.take d ++ [c] = q.take (d + 1) := by
  rw [List.take_add_one, hc]
  rfl

/-- The labels of a child of a node along the query are those of the words through it. -/
theorem mem_child_iff {d : ℕ} {n : PrefixTree κ σ}
    (hn : descend (q.take d) (build entries) = some n) (l : κ) (s : σ) :
    (∃ m, n.child? l = some m ∧ s ∈ m.ids) ↔ ∃ w, (w, s) ∈ entries ∧ q.take d ++ [l] <+: w := by
  have hdesc : descend (q.take d ++ [l]) (build entries) = n.child? l := by
    rw [descend_append, hn, Option.bind_some, descend_singleton]
  rw [← passes_build entries (by simp) s, Passes, hdesc]

/-- A word that goes through a node along the query goes on through one of its children. -/
theorem exists_child {d : ℕ} {n : PrefixTree κ σ}
    (hn : descend (q.take d) (build entries) = some n) {e : List κ × σ} (he : e ∈ entries)
    (hd : (q.take d).length < e.1.length) (hpre : q.take d <+: e.1) :
    ∃ l m, n.child? l = some m ∧ q.take d ++ [l] <+: e.1 := by
  obtain ⟨r, hr⟩ := hpre
  cases r with
  | nil =>
    rw [List.append_nil] at hr
    exact absurd hd (by rw [hr]; exact lt_irrefl _)
  | cons l r =>
    have hthrough : q.take d ++ [l] <+: e.1 := ⟨r, by rw [List.append_assoc]; exact hr⟩
    have hsome := (isSome_descend_build entries (by simp)).mpr ⟨e, he, hthrough⟩
    rw [descend_append, hn, Option.bind_some, descend_singleton] at hsome
    obtain ⟨m, hm⟩ := Option.isSome_iff_exists.mp hsome
    exact ⟨l, m, hm, hthrough⟩

/-- Everything collected answers the query. -/
theorem answers_of_mem_climb (hv : Visits visit side q) (hq : full ≤ q.length)
    (hlen : ∀ e ∈ entries, e.1.length = full) {isClose : Bool} (stack : List (PrefixTree κ σ))
    {ids : Finset σ} {b : Bool} (halong : Along (build entries) q stack)
    (hstack : stack.length ≤ full + 1) (hb : b = true → isClose = true)
    (hflag : b = true → ∀ e ∈ entries, q.take stack.length <+: e.1 →
      Beyond side q e.1 ∨ e.1 = q.take full)
    (hids : ∀ s ∈ ids, Answers stop full entries side q isClose s) :
    ∀ s ∈ climb visit stop full stack ids b, Answers stop full entries side q isClose s := by
  induction stack generalizing ids b with
  | nil => exact hids
  | cons n ancestors ih =>
    rw [List.length_cons] at hstack hflag
    rw [climb]
    by_cases hstop : stop < ancestors.length
    swap
    · rw [if_neg hstop]
      exact hids
    rw [if_pos hstop]
    by_cases hfull : ancestors.length = full
    · rw [if_pos hfull]
      refine ih halong.2 (by omega) hb (fun _ e he hpre => Or.inr ?_) hids
      have htake : (q.take ancestors.length).length = e.1.length := by
        rw [List.length_take, hlen e he]
        omega
      rw [← hfull]
      exact (hpre.eq_of_length htake).symm
    · rw [if_neg hfull]
      have hroom : ancestors.length < q.length := by omega
      obtain ⟨c, hc⟩ : ∃ c, q[ancestors.length]? = some c :=
        ⟨q[ancestors.length], List.getElem?_eq_getElem hroom⟩
      have hletter := take_append_letter hc
      have hnext : n.next.Pairwise (fun a b => a.1 < b.1) := ordered_build entries _ n halong.1
      -- what lies under a child on the asked side leaves the query at this node
      have hbeyond : ∀ {l : κ} {w : List κ}, side l c → q.take ancestors.length ++ [l] <+: w →
          Beyond side q w := fun hside hpre =>
        ⟨q.take ancestors.length, c, _, hletter ▸ List.take_prefix _ _, hpre, hside⟩
      refine ih halong.2 (by omega) (fun h => hb (hv.snd hnext hc h).1) (fun h e he hpre => ?_)
        fun s hs => ?_
      · obtain ⟨l, m, hm, hthrough⟩ := exists_child halong.1 he
          (by rw [List.length_take, hlen e he]; omega) hpre
        exact Or.inl (hbeyond ((hv.snd hnext hc h).2 l m hm) hthrough)
      · rcases (hv.mem_fst hnext hc s).mp hs with hs | ⟨l, m, hm, hsm, hl⟩
        · exact hids s hs
        obtain ⟨w, hw, hpre⟩ := (mem_child_iff halong.1 l s).mp ⟨m, hm, hsm⟩
        have hshare : q.take (stop + 1) <+: w :=
          ((List.take_prefix_take_left hstop).trans (List.prefix_append _ [l])).trans hpre
        rcases hl with hside | ⟨hbt, rfl⟩
        · exact ⟨w, hw, hshare, Or.inl (hbeyond hside hpre)⟩
        · rw [hletter] at hpre
          exact ⟨w, hw, hshare, (hflag hbt (w, s) hw hpre).imp_right fun h => ⟨hb hbt, h⟩⟩

/-- What has been collected stays. -/
theorem subset_climb (hv : Visits visit side q) (hq : full ≤ q.length)
    (stack : List (PrefixTree κ σ)) {ids : Finset σ} {b : Bool}
    (halong : Along (build entries) q stack) (hstack : stack.length ≤ full + 1) :
    ids ⊆ climb visit stop full stack ids b := by
  induction stack generalizing ids b with
  | nil => exact Finset.Subset.refl ids
  | cons n ancestors ih =>
    rw [List.length_cons] at hstack
    rw [climb]
    split_ifs with hstop hfull
    · exact ih halong.2 (by omega)
    · have hc := List.getElem?_eq_getElem (show ancestors.length < q.length by omega)
      refine Finset.Subset.trans (fun s hs => ?_) (ih halong.2 (by omega))
      exact (hv.mem_fst (ordered_build entries _ n halong.1) hc s).mpr (Or.inl hs)
    · exact Finset.Subset.refl ids

/-- The words that leave the query on the asked side at a node of the climb are collected. -/
theorem mem_climb_of_beyond (hv : Visits visit side q) (hq : full ≤ q.length)
    (stack : List (PrefixTree κ σ)) {ids : Finset σ} {b : Bool}
    (halong : Along (build entries) q stack) (hstack : stack.length ≤ full + 1) {i : ℕ}
    (hstop : stop < i) (hi : i < stack.length) (hfull : i < full) {c d : κ} (hc : q[i]? = some c)
    (hside : side d c) {w : List κ} {s : σ} (hw : (w, s) ∈ entries)
    (hpre : q.take i ++ [d] <+: w) : s ∈ climb visit stop full stack ids b := by
  induction stack generalizing ids b with
  | nil => exact absurd hi (Nat.not_lt_zero i)
  | cons n ancestors ih =>
    rw [List.length_cons] at hstack hi
    have hlt : stop < ancestors.length := by omega
    rw [climb, if_pos hlt]
    by_cases hhere : i = ancestors.length
    · subst hhere
      rw [if_neg hfull.ne]
      refine subset_climb hv hq ancestors halong.2 (by omega) ?_
      obtain ⟨m, hm, hsm⟩ := (mem_child_iff halong.1 d s).mpr ⟨w, hw, hpre⟩
      exact (hv.mem_fst (ordered_build entries _ n halong.1) hc s).mpr
        (Or.inr ⟨d, m, hm, hsm, Or.inl hside⟩)
    · have hi' : i < ancestors.length := by omega
      split_ifs
      · exact ih halong.2 (by omega) hi'
      · exact ih halong.2 (by omega) hi'

/-- With the closed bound the query itself is collected. -/
theorem mem_climb_of_eq (hv : Visits visit side q) (hq : full ≤ q.length) (hstop : stop + 1 < full)
    {stack : List (PrefixTree κ σ)} {ids : Finset σ} (halong : Along (build entries) q stack)
    (hstack : stack.length = full + 1) {s : σ} (hw : (q.take full, s) ∈ entries) :
    s ∈ climb visit stop full stack ids true := by
  obtain ⟨n, parent, ancestors, rfl⟩ : ∃ n parent ancestors, stack = n :: parent :: ancestors := by
    match stack, hstack with
    | [], h => simp at h
    | [n], h => simp at h; omega
    | n :: parent :: ancestors, _ => exact ⟨n, parent, ancestors, rfl⟩
  simp only [List.length_cons, Nat.add_right_cancel_iff] at hstack
  have hroom : ancestors.length < q.length := by omega
  have hc := List.getElem?_eq_getElem hroom
  have hletter := take_append_letter hc
  rw [climb, if_pos (by simp; omega), List.length_cons, if_pos hstack, climb, if_pos (by omega),
    if_neg (by omega)]
  refine subset_climb hv hq ancestors halong.2.2 (by omega) ?_
  obtain ⟨m, hm, hsm⟩ := (mem_child_iff halong.2.1 q[ancestors.length] s).mpr
    ⟨q.take full, hw, by rw [hletter, hstack]⟩
  exact (hv.mem_fst (ordered_build entries _ parent halong.2.1) hc s).mpr
    (Or.inr ⟨_, m, hm, hsm, Or.inr ⟨rfl, rfl⟩⟩)

/-- Every node along the query that begins some word is found. -/
theorem lt_length_commonRoot {e : List κ × σ} (he : e ∈ entries) {i : ℕ} (hi : i ≤ q.length)
    (hpre : q.take i <+: e.1) : i < (commonRoot q (build entries) []).length := by
  obtain ⟨-, -, hend⟩ := commonRoot_root (build entries) q
  by_contra hle
  have hnone := hend (by omega)
  have hsome : (descend (q.take (commonRoot q (build entries) []).length)
      (build entries)).isSome := by
    by_cases hnil : q.take (commonRoot q (build entries) []).length = []
    · rw [hnil]
      rfl
    · exact (isSome_descend_build entries hnil).mpr
        ⟨e, he, (List.take_prefix_take_left (not_lt.mp hle)).trans hpre⟩
  rw [hnone] at hsome
  cases hsome

/-- No node found lies deeper than the words reach. -/
theorem length_commonRoot_le (hlen : ∀ e ∈ entries, e.1.length = full) :
    (commonRoot q (build entries) []).length ≤ full + 1 := by
  obtain ⟨halong, hbound, -⟩ := commonRoot_root (build entries) q
  cases hstack : commonRoot q (build entries) [] with
  | nil => exact Nat.zero_le _
  | cons n ancestors =>
    rw [hstack, List.length_cons] at hbound
    rw [hstack] at halong
    by_contra hdeep
    rw [List.length_cons] at hdeep
    have htake : (q.take ancestors.length).length = ancestors.length := by
      rw [List.length_take]
      omega
    have hnil : q.take ancestors.length ≠ [] := by
      intro h
      rw [h, List.length_nil] at htake
      omega
    have hsome : (descend (q.take ancestors.length) (build entries)).isSome := by
      rw [halong.1]
      rfl
    obtain ⟨e, he, hpre⟩ := (isSome_descend_build entries hnil).mp hsome
    have hle := hpre.length_le
    rw [hlen e he, htake] at hle
    omega

/-- What the climb collects is exactly the answer below the stop depth. -/
theorem mem_climb (hv : Visits visit side q) (hside : ∀ c, ¬ side c c) (hq : full ≤ q.length)
    (hlen : ∀ e ∈ entries, e.1.length = full) (hstop : stop + 1 < full) (isClose : Bool) (s : σ) :
    s ∈ climb visit stop full (commonRoot q (build entries) []) ∅ isClose ↔
      Answers stop full entries side q isClose s := by
  obtain ⟨halong, -, -⟩ := commonRoot_root (build entries) q
  have hshort := length_commonRoot_le (q := q) hlen
  constructor
  · refine answers_of_mem_climb hv hq hlen _ halong hshort id (fun _ e he hpre => Or.inr ?_)
      (fun s hs => absurd hs (Finset.notMem_empty s)) s
    have hlong : q.length < (commonRoot q (build entries) []).length := by
      by_contra hle
      exact lt_irrefl _ (lt_length_commonRoot he (not_lt.mp hle) hpre)
    rw [List.take_of_length_le hlong.le] at hpre
    have hwhole : q = e.1 := hpre.eq_of_length_le (by rw [hlen e he]; exact hq)
    rw [← hwhole, List.take_of_length_le]
    rw [hwhole, hlen e he]
  · rintro ⟨w, hw, hshare, ⟨p, c, d, hpq, hpw, hcd⟩ | ⟨rfl, rfl⟩⟩
    · have htake : q.take p.length = p :=
        List.prefix_iff_eq_take.mp ((List.prefix_append p [c]).trans hpq) |>.symm
      have hc : q[p.length]? = some c := by
        obtain ⟨r, rfl⟩ := hpq
        simp
      have hfull : p.length < full := by
        have hle := hpw.length_le
        rw [hlen (w, s) hw, List.length_append, List.length_singleton] at hle
        omega
      -- a word that shares the first letters leaves the query only behind them
      have hbehind : stop < p.length := by
        by_contra hle
        have hpc : p ++ [c] <+: q.take (stop + 1) := by
          rw [List.prefix_take_iff]
          exact ⟨hpq, by rw [List.length_append, List.length_singleton]; omega⟩
        have hsame : p ++ [c] = p ++ [d] :=
          (List.prefix_of_prefix_length_le (hpc.trans hshare) hpw (by simp)).eq_of_length (by simp)
        have hletters : c = d := by simpa using hsame
        exact hside c (hletters ▸ hcd)
      refine mem_climb_of_beyond hv hq _ halong hshort hbehind ?_ hfull hc hcd hw
        (by rw [htake]; exact hpw)
      refine lt_length_commonRoot hw (by omega) ?_
      rw [htake]
      exact (List.prefix_append p [d]).trans hpw
    · have hdeep := lt_length_commonRoot hw hq (List.prefix_refl _)
      exact mem_climb_of_eq hv hq hstop halong (by omega) hw

/-! ## The sides of the order -/

/-- Of two words of one length the smaller one leaves the larger one at a smaller letter. -/
theorem lt_iff_leaves {a b : List κ} (h : a.length = b.length) :
    a < b ↔ ∃ p c d, p ++ [c] <+: a ∧ p ++ [d] <+: b ∧ c < d := by
  induction a generalizing b with
  | nil =>
    obtain rfl := List.length_eq_zero_iff.mp h.symm
    simp
  | cons x a ih =>
    cases b with
    | nil => cases h
    | cons y b =>
      rw [List.cons_lt_cons_iff, ih (Nat.succ.inj h)]
      constructor
      · rintro (hxy | ⟨rfl, p, c, d, ha, hb, hcd⟩)
        · exact ⟨[], x, y, ⟨a, rfl⟩, ⟨b, rfl⟩, hxy⟩
        · exact ⟨x :: p, c, d, List.cons_prefix_cons.mpr ⟨rfl, ha⟩,
            List.cons_prefix_cons.mpr ⟨rfl, hb⟩, hcd⟩
      · rintro ⟨p, c, d, ha, hb, hcd⟩
        cases p with
        | nil =>
          obtain ⟨rfl, -⟩ := List.cons_prefix_cons.mp ha
          obtain ⟨rfl, -⟩ := List.cons_prefix_cons.mp hb
          exact Or.inl hcd
        | cons z p =>
          obtain ⟨rfl, hpa⟩ := List.cons_prefix_cons.mp ha
          obtain ⟨rfl, hpb⟩ := List.cons_prefix_cons.mp hb
          exact Or.inr ⟨rfl, p, c, d, hpa, hpb, hcd⟩

omit [LinearOrder κ] in
/-- What follows the word's length in the query does not matter. -/
theorem beyond_take (q w : List κ) :
    Beyond side q w ↔ Beyond side (q.take w.length) w := by
  constructor
  · rintro ⟨p, c, d, hpq, hpw, hcd⟩
    refine ⟨p, c, d, List.prefix_take_iff.mpr ⟨hpq, ?_⟩, hpw, hcd⟩
    have hle := hpw.length_le
    rw [List.length_append, List.length_singleton] at hle ⊢
    exact hle
  · rintro ⟨p, c, d, hpq, hpw, hcd⟩
    exact ⟨p, c, d, hpq.trans (List.take_prefix _ _), hpw, hcd⟩

theorem beyond_greater_iff {w : List κ} (h : w.length ≤ q.length) :
    Beyond (fun d c => c < d) q w ↔ q.take w.length < w := by
  rw [beyond_take, lt_iff_leaves (by rw [List.length_take]; omega)]
  rfl

theorem beyond_less_iff {w : List κ} (h : w.length ≤ q.length) :
    Beyond (fun d c => d < c) q w ↔ w < q.take w.length := by
  rw [beyond_take, lt_iff_leaves (by rw [List.length_take]; omega)]
  constructor
  · rintro ⟨p, c, d, hpq, hpw, hcd⟩
    exact ⟨p, d, c, hpw, hpq, hcd⟩
  · rintro ⟨p, c, d, hpw, hpq, hcd⟩
    exact ⟨p, d, c, hpq, hpw, hcd⟩

end Climb

/-! ## Ranges of children -/

section Ranges

variable {β : Type} {p : κ → Bool} {es : List (κ × β)}

/-- The entries passed over while a condition on the key that only low keys meet holds. -/
theorem mem_takeWhile_iff (hs : es.Pairwise (fun a b => a.1 < b.1))
    (hp : ∀ a b, a < b → p b = true → p a = true) (e : κ × β) :
    e ∈ es.takeWhile (fun e => p e.1) ↔ e ∈ es ∧ p e.1 = true := by
  induction es with
  | nil => simp
  | cons e' es ih =>
    obtain ⟨hlt, hs⟩ := List.pairwise_cons.mp hs
    rw [List.takeWhile_cons]
    by_cases hhead : p e'.1 = true
    · rw [if_pos hhead, List.mem_cons, List.mem_cons, ih hs]
      constructor
      · rintro (rfl | ⟨he, hpe⟩)
        · exact ⟨Or.inl rfl, hhead⟩
        · exact ⟨Or.inr he, hpe⟩
      · rintro ⟨rfl | he, hpe⟩
        · exact Or.inl rfl
        · exact Or.inr ⟨he, hpe⟩
    · rw [if_neg hhead]
      refine iff_of_false List.not_mem_nil ?_
      rintro ⟨he, hpe⟩
      rcases List.mem_cons.mp he with rfl | he
      · exact hhead hpe
      · exact hhead (hp _ _ (hlt e he) hpe)

/-- The entries from the first one on that does not meet the condition. -/
theorem mem_dropWhile_iff (hs : es.Pairwise (fun a b => a.1 < b.1))
    (hp : ∀ a b, a < b → p b = true → p a = true) (e : κ × β) :
    e ∈ es.dropWhile (fun e => p e.1) ↔ e ∈ es ∧ p e.1 = false := by
  induction es with
  | nil => simp
  | cons e' es ih =>
    obtain ⟨hlt, hs⟩ := List.pairwise_cons.mp hs
    rw [List.dropWhile_cons]
    by_cases hhead : p e'.1 = true
    · rw [if_pos hhead, List.mem_cons, ih hs]
      constructor
      · rintro ⟨he, hpe⟩
        exact ⟨Or.inr he, hpe⟩
      · rintro ⟨rfl | he, hpe⟩
        · exact absurd (hpe.symm.trans hhead) (by decide)
        · exact ⟨he, hpe⟩
    · rw [if_neg hhead]
      refine ⟨fun he => ⟨he, ?_⟩, fun h => h.1⟩
      rcases List.mem_cons.mp he with rfl | htail
      · exact Bool.eq_false_iff.mpr hhead
      · exact Bool.eq_false_iff.mpr fun hpe => hhead (hp _ _ (hlt e htail) hpe)

end Ranges

end PrefixTree
