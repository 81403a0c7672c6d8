import CangjieCompiler.IncrementalCompilation.PackageWalk

/-!
# The walked package

After the walk of a package with distinct names, every declaration on the list of a file is found
by the reader in the caches; the names in the caches are distinct; the declarations to be written
are those that have a cache.
-/

namespace Cangjie.IncrementalCompilation

open NamedTree HashedASTLoader WalkState ASTCacheCalculatorImpl

/-! ## Names of a package -/

namespace TopDecl

/-- The name that a declaration shares with others. -/
def extendKeys : TopDecl → List RawMangledName
  | directExtend d => [d.info.rawMangleName]
  | _ => []

end TopDecl

namespace File

def names (file : File) : List RawMangledName := file.decls.flatMap TopDecl.names

def extendKeys (file : File) : List RawMangledName := file.decls.flatMap TopDecl.extendKeys

end File

namespace Package

def names (p : Package) : List RawMangledName := p.files.flatMap File.names

def extendKeys (p : Package) : List RawMangledName := p.files.flatMap File.extendKeys

/-- No two declarations have the same raw mangled name, except for extends without an interface,
which only differ from the other declarations. -/
structure DistinctNames (p : Package) : Prop where
  nodup : p.names.Nodup
  notMem : ∀ n ∈ p.extendKeys, n ∉ p.names

end Package

/-! ## The run within a file -/

theorem advances_walkDecl (decl : TopDecl) {s : WalkState} (hgid : 0 ≤ s.gid + decl.bump)
    (hs : Consistent s) (hnodup : (s.names ++ decl.names).Nodup) :
    Consistent (walkDecl decl s) ∧
      Advances s (walkDecl decl s) (s.gid + decl.bump) decl.names decl.extendKeys := by
  by_cases hextend : ∃ d, decl = .directExtend d
  · obtain ⟨d, rfl⟩ := hextend
    have hbump : s.gid + (TopDecl.directExtend d).bump = s.gid := add_zero _
    rw [hbump] at hgid ⊢
    exact advances_walkDirectExtend d hgid hs
  · have hdecl : ∀ d, decl ≠ .directExtend d := fun d h => hextend ⟨d, h⟩
    have hkeys : decl.extendKeys = [] := by
      cases decl with
      | directExtend d => exact absurd rfl (hdecl d)
      | _ => rfl
    rw [hkeys]
    exact advances_of_walks hgid hs (walks_walkDecl hdecl hs.invp) hnodup

lemma TopDecl.bump_nonneg (decl : TopDecl) : 0 ≤ decl.bump := by
  rw [bump]
  split_ifs
  · exact zero_le_one
  · exact le_rfl

lemma advances_foldl (decls : List TopDecl) {s : WalkState} (hgid : 0 ≤ s.gid)
    (hs : Consistent s) (hnodup : (s.names ++ decls.flatMap TopDecl.names).Nodup) :
    Consistent (decls.foldl (fun s decl => walkDecl decl s) s) ∧
      Advances s (decls.foldl (fun s decl => walkDecl decl s) s) s.gid
        (decls.flatMap TopDecl.names) (decls.flatMap TopDecl.extendKeys) := by
  induction decls generalizing s with
  | nil =>
    refine ⟨hs, ⟨[], Lists.refl s⟩, ?_, fun n hn => Or.inl hn⟩
    rw [List.flatMap_nil, List.append_nil]
    exact List.Perm.refl _
  | cons decl decls ih =>
    rw [List.flatMap_cons, ← List.append_assoc] at hnodup
    have hle : s.gid ≤ s.gid + decl.bump := le_add_of_nonneg_right decl.bump_nonneg
    obtain ⟨hs', hstep⟩ :=
      advances_walkDecl decl (hgid.trans hle) hs (List.Nodup.of_append_left hnodup)
    obtain ⟨ds, hlists⟩ := hstep.lists
    have hnodup' : ((walkDecl decl s).names ++ decls.flatMap TopDecl.names).Nodup :=
      (hstep.names.append_right _).nodup_iff.mpr hnodup
    obtain ⟨hs'', hrest⟩ := ih ((hgid.trans hle).trans hlists.lo_le) hs' hnodup'
    rw [List.flatMap_cons, List.flatMap_cons]
    have hstep' : Advances s (walkDecl decl s) s.gid decl.names decl.extendKeys :=
      { hstep with lists := ⟨ds, hlists.mono hle⟩ }
    exact ⟨hs'', hstep'.trans hrest⟩

/-- The state in which the declarations of a file are walked. -/
def WalkState.enter (s : WalkState) (file : File) : WalkState :=
  { s with
    gid := 0
    invp := false
    curFile := file.trimmedPath
    fileMap := s.fileMap.emplace file.trimmedPath [] }

lemma declsOf_enter (s : WalkState) (file : File) (path : String) :
    (s.enter file).declsOf path = s.declsOf path :=
  OrderedMap.valueD_emplace _ _ _ _

lemma WalkState.Consistent.enter {s : WalkState} (hs : Consistent s) (file : File) :
    Consistent (s.enter file) where
  invp := rfl
  covered path d hd := hs.covered path d (by rwa [declsOf_enter] at hd)
  order := hs.order
  known path d hd := hs.known path d (by rwa [declsOf_enter] at hd)
  nonneg path d hd := hs.nonneg path d (by rwa [declsOf_enter] at hd)
  groups := hs.groups

/-- The walk of a file; the indices start at zero. -/
theorem advances_walkFile (file : File) {s : WalkState} (hs : Consistent s)
    (hnodup : (s.names ++ file.names).Nodup) :
    Consistent (walkFile s file) ∧
      Advances (s.enter file) (walkFile s file) 0 file.names file.extendKeys := by
  obtain ⟨path, decls⟩ := file
  cases decls with
  | nil => exact advances_foldl [] le_rfl (hs.enter ⟨path, []⟩) hnodup
  | cons first rest =>
    let s₀ := s.enter ⟨path, first :: rest⟩
    let s₁ : WalkState := if first.isVarDeclAbstract then { s₀ with gid := s₀.gid - 1 } else s₀
    have hs₁ : Consistent s₁ ∧ s₁.names = s.names ∧ s₁.extendKeys = s₀.extendKeys ∧
        s₁.gid + first.bump = 0 ∧ Lists s₀ s₁ (s₁.gid) [] := by
      have hs₀ := hs.enter ⟨path, first :: rest⟩
      have hrefl := Lists.refl s₀
      dsimp only [s₁, TopDecl.bump]
      split_ifs
      · refine ⟨⟨hs₀.invp, hs₀.covered, hs₀.order, hs₀.known, hs₀.nonneg, hs₀.groups⟩, rfl, rfl, rfl,
          ⟨hrefl.declsOf, le_rfl, fun _ h => absurd h List.not_mem_nil, hrefl.sorted, rfl⟩⟩
      · exact ⟨hs₀, rfl, rfl, rfl, hrefl⟩
    obtain ⟨hconsistent, hnames, hkeys, hgid, hlists⟩ := hs₁
    rw [File.names, List.flatMap_cons, ← List.append_assoc, ← hnames] at hnodup
    obtain ⟨hs', hstep⟩ :=
      advances_walkDecl first hgid.ge hconsistent (List.Nodup.of_append_left hnodup)
    rw [hgid] at hstep
    have hnodup' : ((walkDecl first s₁).names ++ rest.flatMap TopDecl.names).Nodup :=
      (hstep.names.append_right _).nodup_iff.mpr hnodup
    obtain ⟨ds, hfirst⟩ := hstep.lists
    obtain ⟨hs'', hrest⟩ := advances_foldl rest hfirst.lo_le hs' hnodup'
    have hall := hstep.trans hrest
    obtain ⟨ds', hlists'⟩ := hall.lists
    refine ⟨hs'', ⟨ds', hlists.nil_trans hlists'⟩, ?_, ?_⟩
    · have hperm := hall.names
      rw [hnames] at hperm
      exact hperm
    · intro n hn
      have hmem := hall.extendKeys n hn
      rwa [hkeys] at hmem

/-! ## The run over the files -/

/-- The lists of all files are in the order of the indices. -/
def WalkState.Sorted (s : WalkState) : Prop :=
  ∀ file, (s.declsOf file).Pairwise fun a b => a.gvid ≤ b.gvid

/-- What is put on the list of a file whose path is new is in order. -/
lemma sorted_of_lists {s s' : WalkState} {file : File} {ds : List FileDecl} (hs : s.Sorted)
    (hempty : s.declsOf file.trimmedPath = []) (h : Lists (s.enter file) s' 0 ds) : s'.Sorted := by
  intro path
  rw [h.declsOf, declsOf_enter]
  change (s.declsOf path ++ if path = file.trimmedPath then ds else []).Pairwise _
  split_ifs with hpath
  · rw [hpath, hempty]
    exact h.sorted
  · rw [List.append_nil]
    exact hs path

lemma declsOf_eq_of_lists {s s' : WalkState} {file : File} {ds : List FileDecl}
    (h : Lists (s.enter file) s' 0 ds) {path : String} (hpath : path ≠ file.trimmedPath) :
    s'.declsOf path = s.declsOf path := by
  rw [h.declsOf, declsOf_enter, if_neg (show path ≠ (s.enter file).curFile from hpath),
    List.append_nil]

theorem consistent_foldl (files : List File) {s : WalkState} (hs : Consistent s)
    (hnodup : (s.names ++ files.flatMap File.names).Nodup) :
    Consistent (files.foldl walkFile s) ∧
      (files.foldl walkFile s).names.Perm (s.names ++ files.flatMap File.names) ∧
      ∀ n ∈ (files.foldl walkFile s).extendKeys,
        n ∈ s.extendKeys ∨ n ∈ files.flatMap File.extendKeys := by
  induction files generalizing s with
  | nil =>
    refine ⟨hs, ?_, fun n hn => Or.inl hn⟩
    rw [List.flatMap_nil, List.append_nil]
    exact List.Perm.refl _
  | cons file files ih =>
    rw [List.flatMap_cons, ← List.append_assoc] at hnodup
    obtain ⟨hs', hstep⟩ := advances_walkFile file hs (List.Nodup.of_append_left hnodup)
    have hnodup' : ((walkFile s file).names ++ files.flatMap File.names).Nodup :=
      (hstep.names.append_right _).nodup_iff.mpr hnodup
    obtain ⟨hs'', hnames, hkeys⟩ := ih hs' hnodup'
    refine ⟨hs'', ?_, fun n hn => ?_⟩
    · rw [List.flatMap_cons, ← List.append_assoc]
      exact hnames.trans (hstep.names.append_right _)
    · rw [List.flatMap_cons, List.mem_append, ← or_assoc]
      exact (hkeys n hn).imp_left (hstep.extendKeys n)

theorem sorted_foldl (files : List File) {s : WalkState} (hs : Consistent s)
    (hnodup : (s.names ++ files.flatMap File.names).Nodup) (hsorted : s.Sorted)
    (hpaths : (files.map File.trimmedPath).Nodup)
    (hempty : ∀ file ∈ files, s.declsOf file.trimmedPath = []) :
    (files.foldl walkFile s).Sorted := by
  induction files generalizing s with
  | nil => exact hsorted
  | cons file files ih =>
    rw [List.flatMap_cons, ← List.append_assoc] at hnodup
    rw [List.map_cons, List.nodup_cons] at hpaths
    obtain ⟨hs', hstep⟩ := advances_walkFile file hs (List.Nodup.of_append_left hnodup)
    have hnodup' : ((walkFile s file).names ++ files.flatMap File.names).Nodup :=
      (hstep.names.append_right _).nodup_iff.mpr hnodup
    obtain ⟨ds, hlists⟩ := hstep.lists
    refine ih hs' hnodup' (sorted_of_lists hsorted (hempty file List.mem_cons_self) hlists)
      hpaths.2 fun other hother => ?_
    have hne : other.trimmedPath ≠ file.trimmedPath := fun heq =>
      hpaths.1 (heq ▸ List.mem_map_of_mem hother)
    rw [declsOf_eq_of_lists hlists hne]
    exact hempty other (List.mem_cons_of_mem _ hother)

/-! ## The end of the walk -/

section Finish

variable (hashMemberAPIs : List MemberDecl → UInt64)

/-- The cache of a group of extends. -/
def groupCaches (e : RawMangledName × List CollectedExtend) : List StoredTopDecl :=
  match e.2 with
  | [] => []
  | first :: rest => [(e.1, computeDirectExtend hashMemberAPIs first (first :: rest))]

lemma map_fst_groupCaches {e : RawMangledName × List CollectedExtend} (h : e.2 ≠ []) :
    (groupCaches hashMemberAPIs e).map Prod.fst = [e.1] := by
  obtain ⟨n, _ | ⟨first, rest⟩⟩ := e
  · exact absurd rfl h
  · rfl

lemma names_groupCaches {e : RawMangledName × List CollectedExtend} (h : e.2 ≠ []) :
    (groupCaches hashMemberAPIs e).flatMap cacheNames = e.1 :: e.2.flatMap extendNames := by
  obtain ⟨n, _ | ⟨first, rest⟩⟩ := e
  · exact absurd rfl h
  · rw [groupCaches, List.flatMap_singleton]
    exact congrArg (n :: ·) List.flatMap_assoc

lemma mem_loads_groupCaches {e : RawMangledName × List CollectedExtend} {x : IndexedName}
    (hx : x ∈ e.2.flatMap extendLoads) :
    x ∈ (groupCaches hashMemberAPIs e).flatMap topLoads := by
  obtain ⟨n, _ | ⟨first, rest⟩⟩ := e
  · exact absurd hx List.not_mem_nil
  · rw [groupCaches, List.flatMap_singleton]
    refine List.mem_append_left _ ?_
    have hassoc : ((first :: rest).flatMap revisitExtend).flatMap memberLoads =
        (first :: rest).flatMap extendLoads := List.flatMap_assoc
    exact hassoc.symm ▸ hx

lemma finish_spec (es : List (RawMangledName × List CollectedExtend)) (s : WalkState) :
    (es.foldl (finishDirectExtend hashMemberAPIs) s).ret =
        emplaceAll s.ret (es.flatMap (groupCaches hashMemberAPIs)) ∧
      (es.foldl (finishDirectExtend hashMemberAPIs) s).order = s.order ∧
      (es.foldl (finishDirectExtend hashMemberAPIs) s).fileMap = s.fileMap ∧
      ∀ n, s.Known n → (es.foldl (finishDirectExtend hashMemberAPIs) s).Known n := by
  induction es generalizing s with
  | nil => exact ⟨rfl, rfl, rfl, fun _ h => h⟩
  | cons e es ih =>
    obtain ⟨hret, horder, hfileMap, hknown⟩ := ih (finishDirectExtend hashMemberAPIs s e)
    have happend : emplaceAll s.ret ((e :: es).flatMap (groupCaches hashMemberAPIs)) =
        emplaceAll (emplaceAll s.ret (groupCaches hashMemberAPIs e))
          (es.flatMap (groupCaches hashMemberAPIs)) := by
      rw [List.flatMap_cons]
      exact List.foldl_append
    rw [List.foldl_cons, hret, horder, hfileMap, happend]
    obtain ⟨n, _ | ⟨first, rest⟩⟩ := e
    · exact ⟨rfl, rfl, rfl, hknown⟩
    · refine ⟨rfl, rfl, rfl, fun m hm => hknown m ?_⟩
      rw [Known, finishDirectExtend, OrderedMap.find?_assign]
      split_ifs
      · rfl
      · exact hm

/-- What holds of the result of a walk. -/
structure WellWalked (s : WalkState) : Prop where
  covered : ∀ file, ∀ d ∈ s.declsOf file, d.indexed file ∈ s.ret.entries.flatMap topLoads
  names : (s.ret.entries.flatMap cacheNames).Nodup
  order : s.order.Perm (s.ret.entries.map Prod.fst)
  known : ∀ file, ∀ d ∈ s.declsOf file, s.Known d.decl.rawMangleName
  nonneg : ∀ file, ∀ d ∈ s.declsOf file, 0 ≤ d.gvid

/-- The caches of the gathered extends join the others. -/
theorem wellWalked_finish {s : WalkState} (hs : Consistent s) (hnodup : s.names.Nodup)
    (hkeys : ∀ n ∈ s.extendKeys, n ∉ s.names) :
    WellWalked (s.directExtends.entries.foldl (finishDirectExtend hashMemberAPIs) s) := by
  have hfinish := finish_spec hashMemberAPIs s.directExtends.entries s
  generalize s.directExtends.entries.foldl (finishDirectExtend hashMemberAPIs) s = s' at hfinish ⊢
  obtain ⟨hret, horder, hfileMap, hknown⟩ := hfinish
  let groups := s.directExtends.entries.flatMap (groupCaches hashMemberAPIs)
  have hgroupKeys : groups.map Prod.fst = s.extendKeys := by
    rw [List.map_flatMap, WalkState.extendKeys, List.map_eq_flatMap]
    exact List.flatMap_congr fun e he => map_fst_groupCaches hashMemberAPIs (hs.groups e he)
  have hgroupNames : (groups.flatMap cacheNames).Perm
      (s.extendKeys ++ s.directExtends.entries.flatMap fun e => e.2.flatMap extendNames) := by
    rw [List.flatMap_assoc, List.flatMap_congr fun e he =>
      names_groupCaches hashMemberAPIs (hs.groups e he)]
    exact (List.map_append_flatMap_perm _ _ _).symm
  have hall : (s.ret.entries.flatMap cacheNames ++ groups.flatMap cacheNames).Nodup := by
    have hperm : (s.ret.entries.flatMap cacheNames ++ groups.flatMap cacheNames).Perm
        (s.extendKeys ++ s.names) := by
      refine (hgroupNames.append_left _).trans ?_
      rw [← List.append_assoc, WalkState.names, ← List.append_assoc]
      exact List.perm_append_comm.append_right _
    refine hperm.nodup_iff.mpr (List.nodup_append'.mpr ⟨s.directExtends.nodup_keys, hnodup, ?_⟩)
    exact fun n hn => hkeys n hn
  have hentries : s'.ret.entries.Perm (s.ret.entries ++ groups) := by
    rw [hret]
    exact OrderedMap.perm_foldl_emplace
      (hall.sublist ((sublist_map_fst _).append (sublist_map_fst _)))
  have hdecls : ∀ file, s'.declsOf file = s.declsOf file := fun file => by
    rw [declsOf, hfileMap, declsOf]
  constructor
  · intro file d hd
    rw [hdecls] at hd
    rw [(hentries.flatMap_right _).mem_iff, List.flatMap_append, List.mem_append]
    refine (List.mem_append.mp (hs.covered file d hd)).imp_right fun hload => ?_
    obtain ⟨e, he, hload⟩ := List.mem_flatMap.mp hload
    rw [List.flatMap_assoc]
    exact List.mem_flatMap.mpr ⟨e, he, mem_loads_groupCaches hashMemberAPIs hload⟩
  · rw [(hentries.flatMap_right _).nodup_iff, List.flatMap_append]
    exact hall
  · rw [horder]
    refine hs.order.trans ?_
    rw [← hgroupKeys, ← List.map_append]
    exact (hentries.map Prod.fst).symm
  · intro file d hd
    rw [hdecls] at hd
    exact hknown _ (hs.known file d hd)
  · intro file d hd
    rw [hdecls] at hd
    exact hs.nonneg file d hd

/-- What holds of the result of the walk of a package. -/
theorem wellWalked_walk {p : Package} (hp : p.DistinctNames) :
    WellWalked (walk hashMemberAPIs p) := by
  have hnodup : (WalkState.names {} ++ p.files.flatMap File.names).Nodup := hp.nodup
  obtain ⟨hs, hnames, hkeys⟩ := consistent_foldl p.files consistent_start hnodup
  refine wellWalked_finish hashMemberAPIs hs (hnames.nodup_iff.mpr hnodup) fun n hn hmem => ?_
  have hextend : n ∈ p.extendKeys := (hkeys n hn).resolve_left List.not_mem_nil
  exact hp.notMem n hextend (hnames.mem_iff.mp hmem)

/-- With one file for each path the lists are in the order of the indices. -/
theorem sorted_walk {p : Package} (hp : p.DistinctNames)
    (hpaths : (p.files.map File.trimmedPath).Nodup) : (walk hashMemberAPIs p).Sorted := by
  have hnodup : (WalkState.names {} ++ p.files.flatMap File.names).Nodup := hp.nodup
  have hsorted := sorted_foldl p.files consistent_start hnodup
    (fun _ => List.Pairwise.nil) hpaths fun _ _ => rfl
  intro file
  have hfileMap := (finish_spec hashMemberAPIs (p.files.foldl walkFile {}).directExtends.entries
    (p.files.foldl walkFile {})).2.2.1
  have hdecls : (walk hashMemberAPIs p).declsOf file = (p.files.foldl walkFile {}).declsOf file := by
    rw [declsOf, declsOf, ← hfileMap]
    rfl
  rw [hdecls]
  exact hsorted file

end Finish

end Cangjie.IncrementalCompilation
