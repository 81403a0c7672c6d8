import CangjieCompiler.IncrementalCompilation.MemberDiff
import CangjieCompiler.IncrementalCompilation.OrderDiff

/-!
# Differences of equal caches

Two caches with the same hashes have no difference, in whatever order the members stand.  Two lists
of a file have no difference if the old one is sorted by the indices of the new one and has all its
names.
-/

namespace Cangjie.IncrementalCompilation

open NamedTree

/-! ## Members -/

namespace ASTDiffImpl

lemma toSorted_congr {cached cur : List MemberDeclCache} (hdistinct : DistinctKeys name cur)
    (hperm : cached.Perm cur) : toSorted cached = toSorted cur := by
  have hp : (toSorted cached).Perm (toSorted cur) :=
    ((perm_toSorted cached).trans hperm).trans (perm_toSorted cur).symm
  have hcached := sorted_toSorted (hdistinct.perm hperm.symm)
  refine hp.eq_of_pairwise (fun a b _ _ hab hba => ?_) hcached (sorted_toSorted hdistinct)
  exact absurd hab hba.asymm

variable (mangled2Decl : RawMangled2DeclMap)

/-- The walk over two copies of one list only meets pairs of equal members. -/
lemma merge_self {A : MergeActions MemberDeclCache TypeChange} {xs : List MemberDeclCache}
    (h : ∀ x ∈ xs, ∀ tc, A.both x x tc = tc) (tc : TypeChange) : A.merge name xs xs tc = tc := by
  induction xs with
  | nil => rfl
  | cons x xs ih =>
    rw [MergeActions.merge, MergeActions.merge.mergeFrom, if_neg (lt_irrefl _),
      if_neg (lt_irrefl _), h x List.mem_cons_self]
    exact ih fun y hy => h y (List.mem_cons_of_mem _ hy)

lemma recordChange_self (x : MemberDeclCache) (tc : TypeChange) :
    recordChange (memberChange mangled2Decl x x) tc = tc := by
  have hno : ¬ (memberChange mangled2Decl x x).isChange = true := fun h =>
    (isChange_memberChange mangled2Decl x x).mp h rfl
  rw [recordChange, if_neg hno]

lemma compareMembersTo_of_perm (depth : ℕ) {cached cur : List MemberDeclCache}
    (hdistinct : DistinctNames cur) (hperm : cached.Perm cur) (tc : TypeChange) :
    compareMembersTo mangled2Decl depth cached cur tc = tc := by
  induction depth generalizing cached cur tc with
  | zero => rfl
  | succ depth ih =>
    rw [compareMembersTo, toSorted_congr hdistinct.1 hperm]
    refine merge_self (fun x hx tc => ?_) tc
    have hx' : x ∈ cur := (perm_toSorted cur).mem_iff.mp hx
    change compareMembersTo mangled2Decl depth x.children x.children
      (recordChange (memberChange mangled2Decl x x) tc) = tc
    rw [recordChange_self]
    exact ih (distinctNames_children hdistinct hx') (List.Perm.refl _) tc

/-! ## Top-level declarations -/

/-- Two caches that differ at most in the order of their members. -/
structure SameCache (cached cur : TopLevelDeclCache) : Prop where
  hashes : cached.hashes = cur.hashes
  instVarHash : cached.instVarHash = cur.instVarHash
  virtHash : cached.virtHash = cur.virtHash
  members : cached.members.Perm cur.members
  distinct : DistinctNames cur.members

lemma compareTypeDecl_of_same {cached cur : TopLevelDeclCache} (h : SameCache cached cur) :
    compareTypeDecl mangled2Decl cached cur = {} := by
  rw [compareTypeDecl, h.hashes, h.instVarHash, h.virtHash, compareMembers,
    compareMembersTo_of_perm mangled2Decl _ h.distinct h.members]
  simp only [ne_eq, not_true_eq_false, decide_false]

lemma compareTopLevelDecl_of_same {cached cur : TopLevelDeclCache} (h : SameCache cached cur)
    (mangled : RawMangledName) (ret : ModifiedDecls) :
    compareTopLevelDecl mangled2Decl cached cur mangled ret = ret := by
  have hcommon : (commonCompare cached cur (mangled2Decl.get mangled)).isChange = false := by
    rw [commonCompare, h.hashes]
    simp only [CommonChange.isChange, ne_eq, not_true_eq_false, decide_false, Bool.or_false]
  have htype : (compareTypeDecl mangled2Decl cached cur).isChange = false := by
    rw [compareTypeDecl_of_same mangled2Decl h]
    rfl
  have hsig : ¬ cached.hashes.sigHash ≠ cur.hashes.sigHash := by
    rw [h.hashes]
    exact not_not_intro rfl
  rw [compareTopLevelDecl]
  dsimp only
  rw [if_neg hsig, hcommon, htype]
  split <;> rfl

/-- A cache whose entries are the same as those of another one has no difference to it. -/
theorem compareCommonDecls_of_same {cached cur : ASTCache}
    (hcached : ∀ e ∈ cached.entries, ∃ d, cur.find? e.1 = some d ∧ SameCache e.2 d)
    (hcur : ∀ e ∈ cur.entries, cached.find? e.1 ≠ none) (ret : ModifiedDecls) :
    compareCommonDecls mangled2Decl cached cur ret = ret := by
  have hcompared : ∀ es : List (RawMangledName × TopLevelDeclCache),
      (∀ e ∈ es, ∃ d, cur.find? e.1 = some d ∧ SameCache e.2 d) →
      es.foldl (fun ret e => compareCached mangled2Decl cur e ret) ret = ret := by
    intro es hes
    induction es with
    | nil => rfl
    | cons e es ih =>
      obtain ⟨d, hd, hsame⟩ := hes e List.mem_cons_self
      rw [List.foldl_cons, compareCached, hd]
      dsimp only
      rw [compareTopLevelDecl_of_same mangled2Decl hsame]
      exact ih fun e' he' => hes e' (List.mem_cons_of_mem _ he')
  have hadded : ∀ es : List (RawMangledName × TopLevelDeclCache),
      (∀ e ∈ es, cached.find? e.1 ≠ none) →
      es.foldl (fun ret e => collectIfAdded mangled2Decl cached e ret) ret = ret := by
    intro es hes
    induction es with
    | nil => rfl
    | cons e es ih =>
      obtain ⟨d, hd⟩ := Option.ne_none_iff_exists'.mp (hes e List.mem_cons_self)
      rw [List.foldl_cons, collectIfAdded, hd]
      exact ih fun e' he' => hes e' (List.mem_cons_of_mem _ he')
  rw [compareCommonDecls, hcompared _ hcached, hadded _ hcur]

end ASTDiffImpl

/-! ## The lists of a file -/

namespace OrderDiffCompare

lemma find?_foldl_buildGvidMap (cur : List FileDecl) (h : OrderedMap RawMangledName ℤ)
    {n : RawMangledName} {id : ℤ}
    (hfind : (cur.foldl (fun h d => h.assign d.decl.rawMangleName d.gvid) h).find? n = some id) :
    h.find? n = some id ∨ ∃ d ∈ cur, d.decl.rawMangleName = n ∧ d.gvid = id := by
  induction cur generalizing h with
  | nil => exact Or.inl hfind
  | cons d cur ih =>
    rcases ih _ hfind with hold | ⟨e, he, hname, hid⟩
    · rw [OrderedMap.find?_assign] at hold
      split_ifs at hold with hname
      · exact Or.inr ⟨d, List.mem_cons_self, hname, Option.some.inj hold⟩
      · exact Or.inl hold
    · exact Or.inr ⟨e, List.mem_cons_of_mem _ he, hname, hid⟩

/-- Every index comes from a declaration of the list. -/
lemma exists_of_find?_buildGvidMap {cur : List FileDecl} {n : RawMangledName} {id : ℤ}
    (hfind : (buildGvidMap cur).find? n = some id) :
    ∃ d ∈ cur, d.decl.rawMangleName = n ∧ d.gvid = id :=
  (find?_foldl_buildGvidMap cur .empty hfind).resolve_left (Option.some_ne_none id).symm

section Order

variable {gvidMap : OrderedMap RawMangledName ℤ} {md : RawMangledName → Option DeclView}

/-- The indices of the names that are still in the file. -/
def foundIds (gvidMap : OrderedMap RawMangledName ℤ) (old : List RawMangledName) : List ℤ :=
  old.filterMap gvidMap.find?

/-- The names that are found have indices that do not decrease and are at least `last`. -/
def InOrder (gvidMap : OrderedMap RawMangledName ℤ) (last : ℤ) (old : List RawMangledName) : Prop :=
  (∀ id ∈ foundIds gvidMap old, last ≤ id) ∧ (foundIds gvidMap old).Pairwise (· ≤ ·)

/-- In a list in order the largest index up to a name is its own. -/
lemma buildMaxidsFrom_of_inOrder {last : ℤ} {old : List RawMangledName}
    (hmd : ∀ n ∈ old, (gvidMap.find? n).isSome → (md n).isSome)
    (h : InOrder gvidMap last old) :
    buildMaxidsFrom gvidMap md last old = some (foundIds gvidMap old) := by
  induction old generalizing last with
  | nil => rfl
  | cons n old ih =>
    have hmd' : ∀ m ∈ old, (gvidMap.find? m).isSome → (md m).isSome :=
      fun m hm => hmd m (List.mem_cons_of_mem _ hm)
    rw [InOrder, foundIds, List.filterMap_cons] at h
    rw [buildMaxidsFrom, foundIds, List.filterMap_cons]
    cases hfind : gvidMap.find? n with
    | none =>
      rw [hfind] at h
      exact ih hmd' h
    | some id =>
      rw [hfind] at h
      obtain ⟨hlast, hsorted⟩ := h
      obtain ⟨hhead, htail⟩ := List.pairwise_cons.mp hsorted
      have hle : last ≤ id := hlast id List.mem_cons_self
      obtain ⟨decl, hdecl⟩ := Option.isSome_iff_exists.mp
        (hmd n List.mem_cons_self (by rw [hfind]; rfl))
      have hrest : buildMaxidsFrom gvidMap md (if isGV decl then id else last) old =
          some (foundIds gvidMap old) := by
        refine ih hmd' ⟨fun id' hid' => ?_, htail⟩
        split_ifs
        · exact hhead id' hid'
        · exact hle.trans (hhead id' hid')
      dsimp only
      rw [max_eq_left hle, hdecl, Option.bind_eq_bind, Option.bind_some, hrest]
      rfl

/-- No name has a smaller index than itself. -/
lemma findRecompileDeclsFrom_foundIds {maxids : List ℤ} {rid : ℕ} {old : List RawMangledName}
    (hmaxids : maxids.drop (rid + 1) = foundIds gvidMap old) (result : List DeclView) :
    findRecompileDeclsFrom gvidMap md maxids rid result old = some result := by
  induction old generalizing rid with
  | nil => rfl
  | cons n old ih =>
    rw [foundIds, List.filterMap_cons] at hmaxids
    rw [findRecompileDeclsFrom]
    cases hfind : gvidMap.find? n with
    | none =>
      rw [hfind] at hmaxids
      exact ih hmaxids
    | some id =>
      rw [hfind] at hmaxids
      have hget : maxids[rid + 1]? = some id := by
        have hhead := congrArg List.head? hmaxids
        rwa [List.head?_drop, List.head?_cons] at hhead
      have hdrop : maxids.drop (rid + 1 + 1) = foundIds gvidMap old := by
        have htail := congrArg List.tail hmaxids
        rwa [List.tail_drop, List.tail_cons] at htail
      dsimp only
      rw [hget, Option.bind_eq_bind, Option.bind_some, if_neg (lt_irrefl id)]
      exact ih hdrop

end Order

lemma findRecompileDeclsFromFileMove_of_mem {oldNames exclude : List RawMangledName}
    {cur : List FileDecl} (h : ∀ d ∈ cur, d.decl.rawMangleName ∈ oldNames)
    (result : List DeclView) :
    findRecompileDeclsFromFileMove oldNames exclude cur result = result := by
  induction cur with
  | nil => rfl
  | cons d cur ih =>
    have hrest := ih fun e he => h e (List.mem_cons_of_mem _ he)
    rw [findRecompileDeclsFromFileMove, if_pos (h d List.mem_cons_self), hrest, ite_self]

/-- A list in order that has all names of the current list gives nothing to compile again. -/
theorem compareOrders_of_inOrder {md : RawMangledName → Option DeclView}
    {exc old : List RawMangledName} {cur : List FileDecl}
    (hmd : ∀ d ∈ cur, (md d.decl.rawMangleName).isSome)
    (horder : InOrder (buildGvidMap cur) 0 old)
    (hnames : ∀ d ∈ cur, d.decl.rawMangleName ∈ old) :
    compareOrders md exc old cur = some [] := by
  have hmd' : ∀ n ∈ old, ((buildGvidMap cur).find? n).isSome → (md n).isSome := by
    intro n _ hsome
    obtain ⟨id, hid⟩ := Option.isSome_iff_exists.mp hsome
    obtain ⟨d, hd, rfl, -⟩ := exists_of_find?_buildGvidMap hid
    exact hmd d hd
  have hmaxids : buildMaxids (buildGvidMap cur) md old =
      some (0 :: foundIds (buildGvidMap cur) old) := by
    rw [buildMaxids, buildMaxidsFrom_of_inOrder hmd' horder]
    rfl
  have hfound : findRecompileDeclsFromOrder (buildGvidMap cur) md old
      (0 :: foundIds (buildGvidMap cur) old) [] = some [] :=
    findRecompileDeclsFrom_foundIds rfl []
  have hmoved : findRecompileDeclsFromFileMove old exc cur.reverse [] = [] :=
    findRecompileDeclsFromFileMove_of_mem (fun d hd => hnames d (List.mem_reverse.mp hd)) []
  rw [compareOrders, hmaxids, Option.bind_eq_bind, Option.bind_some, hfound]
  exact congrArg some hmoved

end OrderDiffCompare

end Cangjie.IncrementalCompilation
