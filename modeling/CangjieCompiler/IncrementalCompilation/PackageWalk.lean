import CangjieCompiler.IncrementalCompilation.TopLevelWalk

/-!
# The walk of a package

Whatever has been walked so far, the reader will find everything on the lists in the caches that
are kept and in those that the gathered extends will get.  This needs names that are distinct, as
a cache with a name that is present already is dropped.
-/

namespace Cangjie.IncrementalCompilation

open NamedTree HashedASTLoader WalkState

namespace ASTCacheCalculatorImpl

/-! ## Extends without an interface -/

/-- A part of the walk that visits members of an extend: the index does not change, and what is
put on the list is found in the given caches. -/
structure Previsits (s s' : WalkState) (caches : List MemberCache)
    (names : List RawMangledName) : Prop extends VisitsMembers s s' caches names where
  gid : s'.gid = s.gid

lemma Previsits.refl (s : WalkState) : Previsits s s [] [] :=
  { VisitsMembers.refl s with gid := rfl }

lemma Previsits.trans {s s₁ s₂ : WalkState} {caches caches' : List MemberCache}
    {names names' : List RawMangledName} (h₁ : Previsits s s₁ caches names)
    (h₂ : Previsits s₁ s₂ caches' names') :
    Previsits s s₂ (caches ++ caches') (names ++ names') :=
  { h₁.toVisitsMembers.trans h₂.toVisitsMembers with gid := h₂.gid.trans h₁.gid }

lemma emits_previsitDecl (decl : DeclView) (s : WalkState) :
    Emits s (previsitDecl s decl) s.gid
      { decls := if decl.isOOEAffectedDecl then [⟨decl, s.gid⟩] else []
        collected := [decl.rawMangleName] } := by
  have hpush := (s.collectDecl decl).emits_pushIfOOEAffected decl
  have hall := (s.emits_collectDecl decl).trans hpush
  exact hall

lemma isListed_revisitDecl {decl : DeclView} (hdecl : decl.Listable)
    (hparam : decl.isMemberParam = false) (hlisted : decl.isOOEAffectedDecl = true)
    (members : List MemberCache) (gvid : GlobalVarIndex) :
    isOOEAffectedMember (revisitDecl decl members gvid).label = true := by
  rw [revisitDecl, isOOEAffectedMember, decide_eq_true_iff]
  rcases (hdecl hlisted).resolve_left (by rw [hparam]; exact Bool.false_ne_true) with
    hkind | hkind | hkind
  · exact Or.inl (by rw [NamedTree.label, hkind])
  · exact Or.inr (Or.inl (by rw [NamedTree.label, hkind]))
  · exact Or.inr (Or.inr (by rw [NamedTree.label, hkind]))

/-- A declaration within an extend whose own members have been visited; these have no members. -/
lemma previsits_previsitDecl {decl : DeclView} (hdecl : decl.Listable)
    (hparam : decl.isMemberParam = false) {s s₁ : WalkState} {members : List MemberCache}
    {names : List RawMangledName} (hleaves : ∀ m ∈ members, m.children = [])
    (h : Previsits s s₁ members names) :
    Previsits s (previsitDecl s₁ decl) [revisitDecl decl members ⟨s.curFile, s.gid⟩]
      (names ++ [decl.rawMangleName]) := by
  obtain ⟨ds, hemits, hrecorded⟩ := h.emits
  have hemits' := emits_previsitDecl decl s₁
  refine ⟨⟨⟨_, hemits.trans hemits', fun d hd => ?_⟩, ?_⟩, ?_⟩
  · rw [List.flatMap_singleton]
    rcases List.mem_append.mp hd with hd | hd
    · obtain ⟨m, hm, hload⟩ := List.mem_flatMap.mp (hrecorded d hd)
      rw [eq_own_of_mem_memberLoads (hleaves m hm) hload]
      exact own_child_mem_memberLoads hm
    · split_ifs at hd with hlisted
      · rw [List.mem_singleton.mp hd, h.gid]
        exact own_mem_memberLoads
          (Or.inr (isListed_revisitDecl hdecl hparam hlisted members ⟨s.curFile, s.gid⟩))
      · exact absurd hd List.not_mem_nil
  · rw [List.flatMap_singleton, revisitDecl, namesOf_node]
    exact (List.perm_append_singleton _ _).symm.trans (h.names.append_right _)
  · exact (((s₁.collectDecl decl).gid_pushIfOOEAffected decl).trans rfl).trans h.gid

lemma previsits_accessors (fs : List FuncDecl) (s : WalkState) :
    Previsits s ((fs.map FuncDecl.view).foldl previsitDecl s)
      (fs.map fun d => revisitDecl d.view [] ⟨s.curFile, s.gid⟩)
      (fs.map fun d => d.view.rawMangleName) := by
  induction fs generalizing s with
  | nil => exact Previsits.refl s
  | cons f fs ih =>
    have hhead := previsits_previsitDecl f.listable rfl
      (fun _ hm => absurd hm List.not_mem_nil) (Previsits.refl s)
    have htail := ih (previsitDecl s f.view)
    obtain ⟨ds, hemits, -⟩ := hhead.emits
    rw [hhead.gid, hemits.curFile] at htail
    exact hhead.trans htail

lemma previsits_member (m : MemberDecl) (s : WalkState) :
    Previsits s (previsitDirectExtendMember s m)
      [revisitDirectExtendMember m ⟨s.curFile, s.gid⟩] m.ownNames := by
  have hparam : m.view.isMemberParam = false := by cases m <;> rfl
  refine previsits_previsitDecl m.listable hparam (fun c hc => ?_) (previsits_accessors _ s)
  obtain ⟨f, -, rfl⟩ := List.mem_map.mp hc
  rfl

lemma previsits_members (ms : List MemberDecl) (s : WalkState) :
    Previsits s (ms.foldl previsitDirectExtendMember s)
      (ms.map fun m => revisitDirectExtendMember m ⟨s.curFile, s.gid⟩)
      (ms.flatMap MemberDecl.ownNames) := by
  induction ms generalizing s with
  | nil => exact Previsits.refl s
  | cons m ms ih =>
    have hhead := previsits_member m s
    have htail := ih (previsitDirectExtendMember s m)
    obtain ⟨ds, hemits, -⟩ := hhead.emits
    rw [hhead.gid, hemits.curFile] at htail
    exact hhead.trans htail

/-- The names in the caches that the members of an extend will get. -/
def extendNames (c : CollectedExtend) : List RawMangledName := (revisitExtend c).flatMap namesOf

/-- What the reader will find in these caches. -/
def extendLoads (c : CollectedExtend) : List IndexedName := (revisitExtend c).flatMap memberLoads

end ASTCacheCalculatorImpl

open ASTCacheCalculatorImpl

/-! ## What holds during the walk -/

namespace WalkState

/-- The names in the caches that are kept and in those that are still to be made. -/
def names (s : WalkState) : List RawMangledName :=
  s.ret.entries.flatMap cacheNames ++
    s.directExtends.entries.flatMap fun e => e.2.flatMap extendNames

/-- What the reader will find in these caches. -/
def loads (s : WalkState) : List IndexedName :=
  s.ret.entries.flatMap topLoads ++
    s.directExtends.entries.flatMap fun e => e.2.flatMap extendLoads

/-- The names under which extends are gathered. -/
def extendKeys (s : WalkState) : List RawMangledName := s.directExtends.entries.map Prod.fst

/-- What is on the lists will be found by the reader, and what is to be written has a cache or will
get one. -/
structure Consistent (s : WalkState) : Prop where
  invp : s.invp = false
  covered : ∀ file, ∀ d ∈ s.declsOf file, d.indexed file ∈ s.loads
  order : s.order.Perm (s.ret.entries.map Prod.fst ++ s.extendKeys)
  known : ∀ file, ∀ d ∈ s.declsOf file, s.Known d.decl.rawMangleName
  nonneg : ∀ file, ∀ d ∈ s.declsOf file, 0 ≤ d.gvid
  groups : ∀ e ∈ s.directExtends.entries, e.2 ≠ []

lemma consistent_start : Consistent {} where
  invp := rfl
  covered _ _ h := absurd h List.not_mem_nil
  order := List.Perm.refl _
  known _ _ h := absurd h List.not_mem_nil
  nonneg _ _ h := absurd h List.not_mem_nil
  groups _ h := absurd h List.not_mem_nil

/-- A part of the walk that puts the given names into the caches. -/
structure Advances (s s' : WalkState) (lo : ℤ) (names extendKeys : List RawMangledName) :
    Prop where
  lists : ∃ ds, Lists s s' lo ds
  names : s'.names.Perm (s.names ++ names)
  extendKeys : ∀ n ∈ s'.extendKeys, n ∈ s.extendKeys ∨ n ∈ extendKeys

lemma Advances.trans {s s₁ s₂ : WalkState} {lo : ℤ}
    {names names' extendKeys extendKeys' : List RawMangledName}
    (h₁ : Advances s s₁ lo names extendKeys) (h₂ : Advances s₁ s₂ s₁.gid names' extendKeys') :
    Advances s s₂ lo (names ++ names') (extendKeys ++ extendKeys') := by
  obtain ⟨ds, hlists⟩ := h₁.lists
  obtain ⟨ds', hlists'⟩ := h₂.lists
  refine ⟨⟨ds ++ ds', hlists.trans hlists'⟩, ?_, fun n hn => ?_⟩
  · rw [← List.append_assoc]
    exact h₂.names.trans (h₁.names.append_right _)
  · rw [List.mem_append, ← or_assoc]
    exact (h₂.extendKeys n hn).imp_left (h₁.extendKeys n)

end WalkState

lemma sublist_map_fst (ts : List StoredTopDecl) :
    (ts.map Prod.fst).Sublist (ts.flatMap cacheNames) := by
  induction ts with
  | nil => exact List.Sublist.refl _
  | cons t ts ih =>
    rw [List.map_cons, List.flatMap_cons, cacheNames, List.cons_append]
    exact (ih.trans (List.sublist_append_right _ _)).cons_cons t.1

/-- After a complete part of the walk the caches have joined those that are kept. -/
lemma perm_ret_of_emits {s s' : WalkState} {lo : ℤ} {o : Output}
    (hemits : Emits s s' lo o) (hnodup : (s.names ++ o.ret.flatMap cacheNames).Nodup) :
    s'.ret.entries.Perm (s.ret.entries ++ o.ret) := by
  rw [hemits.ret]
  refine OrderedMap.perm_foldl_emplace (hnodup.sublist ?_)
  refine ((sublist_map_fst _).append (sublist_map_fst _)).trans ?_
  exact (List.sublist_append_left _ _).append_right _

lemma advances_of_walks {s s' : WalkState} {lo : ℤ} {names : List RawMangledName} (hlo : 0 ≤ lo)
    (hs : Consistent s) (hwalks : Walks s s' lo names) (hnodup : (s.names ++ names).Nodup) :
    Consistent s' ∧ Advances s s' lo names [] := by
  obtain ⟨o, hemits, hcovers, hnames⟩ := hwalks
  have hret := perm_ret_of_emits hemits ((hnames.append_left _).nodup_iff.mpr hnodup)
  have hextends : s'.extendKeys = s.extendKeys := by
    rw [WalkState.extendKeys, hemits.directExtends]
    rfl
  have hloads : ∀ x, x ∈ s'.loads ↔ x ∈ s.loads ∨ x ∈ o.ret.flatMap topLoads := by
    intro x
    rw [WalkState.loads, WalkState.loads, hemits.directExtends, List.mem_append, List.mem_append,
      (hret.flatMap_right _).mem_iff, List.flatMap_append, List.mem_append]
    tauto
  have hrecorded : ∀ d ∈ o.decls, d.indexed s.curFile ∈ o.ret.flatMap topLoads := by
    intro d hd
    have hmem := hcovers.recorded d hd
    rwa [List.append_nil] at hmem
  have hcollected : ∀ d ∈ o.decls, d.decl.rawMangleName ∈ o.collected := by
    intro d hd
    obtain ⟨t, ht, hload⟩ := List.mem_flatMap.mp (hrecorded d hd)
    refine hcovers.collected.mem_iff.mpr (List.mem_append_left _ ?_)
    exact List.mem_flatMap.mpr ⟨t, ht, fst_mem_cacheNames_of_mem_topLoads hload⟩
  have hdecls : ∀ file, ∀ d ∈ s'.declsOf file,
      d ∈ s.declsOf file ∨ (file = s.curFile ∧ d ∈ o.decls) := by
    intro file d hd
    rw [hemits.declsOf] at hd
    refine (List.mem_append.mp hd).imp_right fun hnew => ?_
    split_ifs at hnew with hfile
    · exact ⟨hfile, hnew⟩
    · exact absurd hnew List.not_mem_nil
  constructor
  · constructor
    · exact hemits.invp.trans hs.invp
    · intro file d hd
      refine (hloads _).mpr ?_
      rcases hdecls file d hd with hold | ⟨rfl, hnew⟩
      · exact Or.inl (hs.covered file d hold)
      · exact Or.inr (hrecorded d hnew)
    · rw [hemits.order, hextends]
      refine (hs.order.append hcovers.order).trans ?_
      refine List.Perm.trans ?_ ((hret.map Prod.fst).append_right _).symm
      rw [List.map_append, List.append_assoc, List.append_assoc]
      exact List.perm_append_comm.append_left _
    · intro file d hd
      refine (hemits.known _).mpr ?_
      rcases hdecls file d hd with hold | ⟨-, hnew⟩
      · exact Or.inl (hs.known file d hold)
      · exact Or.inr (hcollected d hnew)
    · intro file d hd
      rcases hdecls file d hd with hold | ⟨-, hnew⟩
      · exact hs.nonneg file d hold
      · exact hlo.trans (hemits.bounds d hnew).1
    · rw [hemits.directExtends]
      exact hs.groups
  · refine ⟨⟨o.decls, hemits.toLists⟩, ?_, fun n hn => Or.inl (by rwa [hextends] at hn)⟩
    rw [WalkState.names, WalkState.names, hemits.directExtends, List.append_assoc]
    refine ((hret.flatMap_right cacheNames).append_right _).trans ?_
    rw [List.flatMap_append, List.append_assoc]
    exact (List.perm_append_comm.trans (hnames.append_left _)).append_left _

/-! ## The steps of the walk -/

/-- The state in which the members of an extend are visited. -/
def WalkState.gather (s : WalkState) (d : ExtendDecl) : WalkState :=
  { s with
    order := s.order ++
      if (s.directExtends.valueD d.info.rawMangleName []).isEmpty then [d.info.rawMangleName] else []
    directExtends := s.directExtends.assign d.info.rawMangleName
      (s.directExtends.valueD d.info.rawMangleName [] ++ [⟨d, s.curFile, s.gid⟩]) }

lemma walkDirectExtend_eq (d : ExtendDecl) (s : WalkState) :
    walkDirectExtend d s = d.members.foldl previsitDirectExtendMember (s.gather d) := by
  rw [walkDirectExtend, WalkState.gather]
  split_ifs
  · rfl
  · rw [List.append_nil]

/-- No group is empty, so an extend is the first of its name if its group is not there. -/
lemma isEmpty_valueD_iff {s : WalkState} (hs : Consistent s) (n : RawMangledName) :
    (s.directExtends.valueD n []).isEmpty = true ↔ s.directExtends.find? n = none := by
  rw [OrderedMap.valueD]
  cases hfind : s.directExtends.find? n with
  | none => exact iff_of_true rfl rfl
  | some l =>
    have hne : l ≠ [] := hs.groups (n, l) ((OrderedMap.find?_eq_some_iff _).mp hfind)
    refine iff_of_false (fun h => hne ?_) (Option.some_ne_none l)
    exact List.isEmpty_iff.mp h

theorem advances_walkDirectExtend (d : ExtendDecl) {s : WalkState} (hgid : 0 ≤ s.gid)
    (hs : Consistent s) :
    Consistent (walkDirectExtend d s) ∧ Advances s (walkDirectExtend d s) s.gid
      (d.members.flatMap MemberDecl.ownNames) [d.info.rawMangleName] := by
  rw [walkDirectExtend_eq]
  let c : CollectedExtend := ⟨d, s.curFile, s.gid⟩
  let s₀ := s.gather d
  have hvisits : Previsits s₀ (d.members.foldl previsitDirectExtendMember s₀) (revisitExtend c)
      (d.members.flatMap MemberDecl.ownNames) := previsits_members d.members s₀
  obtain ⟨ds, hemits, hrecorded⟩ := hvisits.emits
  generalize d.members.foldl previsitDirectExtendMember s₀ = s' at hvisits hemits ⊢
  have hret : s'.ret = s.ret := hemits.ret
  have hextends : s'.directExtends = s.directExtends.assign d.info.rawMangleName
      (s.directExtends.valueD d.info.rawMangleName [] ++ [c]) := hemits.directExtends
  have hlists : Lists s s' s.gid ds :=
    { declsOf := hemits.declsOf
      lo_le := hemits.lo_le
      bounds := hemits.bounds
      sorted := hemits.sorted
      curFile := hemits.curFile }
  have hloads : ∀ x, x ∈ s'.loads ↔ x ∈ s.loads ∨ x ∈ extendLoads c := by
    intro x
    have hgroups := OrderedMap.perm_flatMap_assign extendLoads s.directExtends
      d.info.rawMangleName c
    rw [WalkState.loads, WalkState.loads, hextends, hret, List.mem_append, List.mem_append,
      hgroups.mem_iff, List.mem_append, or_assoc]
  have hkeys : s'.extendKeys.Perm (s.extendKeys ++
      if s.directExtends.find? d.info.rawMangleName = none then [d.info.rawMangleName] else []) := by
    rw [WalkState.extendKeys, hextends]
    exact OrderedMap.perm_keys_assign _ _ _
  have hdecls : ∀ file, ∀ e ∈ s'.declsOf file,
      e ∈ s.declsOf file ∨ (file = s.curFile ∧ e ∈ ds) := by
    intro file e he
    rw [hlists.declsOf] at he
    refine (List.mem_append.mp he).imp_right fun hnew => ?_
    split_ifs at hnew with hfile
    · exact ⟨hfile, hnew⟩
    · exact absurd hnew List.not_mem_nil
  constructor
  · constructor
    · exact hemits.invp.trans hs.invp
    · intro file e he
      refine (hloads _).mpr ?_
      rcases hdecls file e he with hold | ⟨rfl, hnew⟩
      · exact Or.inl (hs.covered file e hold)
      · exact Or.inr (hrecorded e hnew)
    · rw [hemits.order, hret]
      have horder : s₀.order.Perm (s.ret.entries.map Prod.fst ++ s'.extendKeys) := by
        change (s.order ++ if (s.directExtends.valueD d.info.rawMangleName []).isEmpty then
          [d.info.rawMangleName] else []).Perm _
        rw [if_congr (isEmpty_valueD_iff hs d.info.rawMangleName) rfl rfl]
        refine (hs.order.append_right _).trans ?_
        rw [List.append_assoc]
        exact hkeys.symm.append_left _
      rw [List.append_nil]
      exact horder
    · intro file e he
      refine (hemits.known _).mpr ?_
      rcases hdecls file e he with hold | ⟨-, hnew⟩
      · exact Or.inl (hs.known file e hold)
      · right
        obtain ⟨m, hm, hload⟩ := List.mem_flatMap.mp (hrecorded e hnew)
        refine hvisits.names.mem_iff.mp (List.mem_flatMap.mpr ⟨m, hm, ?_⟩)
        exact fst_mem_namesOf_of_mem_memberLoads hload
    · intro file e he
      rcases hdecls file e he with hold | ⟨-, hnew⟩
      · exact hs.nonneg file e hold
      · exact hgid.trans (hemits.bounds e hnew).1
    · intro e he
      rw [hextends] at he
      rcases List.mem_cons.mp ((OrderedMap.perm_assign _ _ _).mem_iff.mp he) with rfl | hold
      · exact List.append_ne_nil_of_right_ne_nil _ (List.cons_ne_nil _ _)
      · exact hs.groups e (List.mem_filter.mp hold).1
  · refine ⟨⟨ds, hlists⟩, ?_, fun n hn => ?_⟩
    · have hgroups := OrderedMap.perm_flatMap_assign extendNames s.directExtends
        d.info.rawMangleName c
      rw [WalkState.names, WalkState.names, hextends, hret, List.append_assoc]
      exact (hgroups.trans (hvisits.names.append_left _)).append_left _
    · refine (List.mem_append.mp (hkeys.mem_iff.mp hn)).imp_right fun hnew => ?_
      split_ifs at hnew
      · exact hnew
      · exact absurd hnew List.not_mem_nil

end Cangjie.IncrementalCompilation
