import CangjieCompiler.IncrementalCompilation.LoadedCache
import CangjieCompiler.IncrementalCompilation.UnchangedDiff
import CangjieCompiler.IncrementalCompilation.WalkedPackage

/-!
# An unchanged package

The cache of a package is written, loaded and compared with the cache of the same package.  With
distinct raw mangled names nothing has changed: no declaration is added, deleted or changed, and no
declaration is to be compiled again because of its order.
-/

namespace Cangjie.IncrementalCompilation

open NamedTree HashedASTLoader WalkState ASTCacheCalculatorImpl

/-! ## Indices are determined by names -/

namespace HashedASTLoader

/-- The names in the cache of a member with their indices. -/
def memberIndices (member : MemberCache) : List IndexedName :=
  (placesOf member).map fun q => own q.2

/-- The names in the cache of a top-level declaration with their indices. -/
def cacheIndices (t : StoredTopDecl) : List IndexedName :=
  (t.1, t.2.gvid) :: t.2.members.flatMap memberIndices

lemma map_fst_cacheIndices (t : StoredTopDecl) :
    (cacheIndices t).map Prod.fst = cacheNames t := by
  rw [cacheIndices, List.map_cons, List.map_flatMap, cacheNames]
  refine congrArg (t.1 :: ·) (List.flatMap_congr fun member _ => ?_)
  rw [memberIndices, List.map_map]
  rfl

lemma memberIndices_eq (member : MemberCache) :
    memberIndices member = own member :: member.children.flatMap memberIndices :=
  map_placesOf own member

lemma own_mem_memberIndices (member : MemberCache) : own member ∈ memberIndices member := by
  rw [memberIndices_eq]
  exact List.mem_cons_self

lemma memberLoads_subset (member : MemberCache) : memberLoads member ⊆ memberIndices member := by
  intro x hx
  rcases List.mem_append.mp hx with hstatic | hother
  · rw [staticLoads] at hstatic
    split_ifs at hstatic
    · rw [List.mem_singleton.mp hstatic]
      exact own_mem_memberIndices member
    · exact absurd hstatic List.not_mem_nil
  · rcases List.mem_append.mp hother with hchild | hself
    · obtain ⟨c, hc, rfl⟩ := List.mem_map.mp hchild
      rw [memberIndices_eq]
      exact List.mem_cons_of_mem _ (List.mem_flatMap.mpr ⟨c, hc, own_mem_memberIndices c⟩)
    · split_ifs at hself
      · rw [List.mem_singleton.mp hself]
        exact own_mem_memberIndices member
      · exact absurd hself List.not_mem_nil

lemma topLoads_subset (t : StoredTopDecl) : topLoads t ⊆ cacheIndices t := by
  intro x hx
  rcases List.mem_append.mp hx with hmember | hown
  · obtain ⟨member, hm, hx⟩ := List.mem_flatMap.mp hmember
    exact List.mem_cons_of_mem _ (List.mem_flatMap.mpr ⟨member, hm, memberLoads_subset member hx⟩)
  · rw [ownLoads] at hown
    split_ifs at hown
    · rw [List.mem_singleton.mp hown]
      exact List.mem_cons_self
    · exact absurd hown List.not_mem_nil

/-- With distinct names in the caches, a name is loaded with one index only. -/
lemma eq_of_mem_topLoads {ts : List StoredTopDecl} (hnames : (ts.flatMap cacheNames).Nodup)
    {x y : IndexedName} (hx : x ∈ ts.flatMap topLoads) (hy : y ∈ ts.flatMap topLoads)
    (h : x.1 = y.1) : x = y := by
  have hmap : (ts.flatMap cacheIndices).map Prod.fst = ts.flatMap cacheNames := by
    rw [List.map_flatMap]
    exact List.flatMap_congr fun t _ => map_fst_cacheIndices t
  have hsubset : ∀ z ∈ ts.flatMap topLoads, z ∈ ts.flatMap cacheIndices := by
    intro z hz
    obtain ⟨t, ht, hz⟩ := List.mem_flatMap.mp hz
    exact List.mem_flatMap.mpr ⟨t, ht, topLoads_subset t hz⟩
  rw [← hmap] at hnames
  exact List.inj_on_of_nodup_map hnames (hsubset x hx) (hsubset y hy) h

end HashedASTLoader

/-! ## The stored package -/

/-- What was written of a walked package. -/
structure Stores (s : WalkState) (topDecls : List StoredTopDecl) : Prop where
  walked : WellWalked s
  written : ∃ es : List StoredTopDecl, es.Perm s.ret.entries ∧
    topDecls = es.map fun e => HashedASTWriter.write e.1 e.2

namespace Stores

variable {s : WalkState} {topDecls : List StoredTopDecl} (h : Stores s topDecls)

include h

lemma mem_loads (x : IndexedName) :
    x ∈ topDecls.flatMap topLoads ↔ x ∈ s.ret.entries.flatMap topLoads := by
  obtain ⟨es, hperm, rfl⟩ := h.written
  rw [← (hperm.flatMap_right topLoads).mem_iff, List.flatMap_map, List.mem_flatMap,
    List.mem_flatMap]
  simp only [HashedASTWriter.mem_topLoads_write]

/-- The entries of the loaded map are the entries that were written. -/
lemma mem_loaded {t : StoredTopDecl} :
    t ∈ (loadCachedAST topDecls).1.entries ↔
      ∃ e ∈ s.ret.entries, t = HashedASTWriter.write e.1 e.2 := by
  obtain ⟨es, hperm, rfl⟩ := h.written
  have hkeys : ((es.map fun e => HashedASTWriter.write e.1 e.2).map Prod.fst).Nodup := by
    rw [List.map_map]
    exact (hperm.map Prod.fst).nodup_iff.mpr s.ret.nodup_keys
  rw [(perm_loaded hkeys).mem_iff, List.mem_map]
  constructor
  · rintro ⟨e, he, rfl⟩
    exact ⟨e, hperm.mem_iff.mp he, rfl⟩
  · rintro ⟨e, he, rfl⟩
    exact ⟨e, hperm.mem_iff.mpr he, rfl⟩

/-- A name on the list of a file has its index there, and no other. -/
theorem listed_iff_of_mem (std : IndexSort) {file : String} {d : FileDecl}
    (hd : d ∈ s.declsOf file) (id : ℤ) :
    (d.decl.rawMangleName, id) ∈ (sortedFileMap std topDecls).valueD file [] ↔ id = d.gvid := by
  have hcovered := h.walked.covered file d hd
  rw [(perm_sortedFileMap std topDecls file).mem_iff]
  refine (listed_iff topDecls file d.decl.rawMangleName id).trans ?_
  rw [h.mem_loads]
  constructor
  · intro hload
    have heq := eq_of_mem_topLoads h.walked.names hload hcovered rfl
    exact congrArg (fun x : IndexedName => x.2.id) heq
  · rintro rfl
    exact hcovered

/-- The old list of a file is in the order of the new indices. -/
lemma inOrder (std : IndexSort) (file : String) :
    OrderDiffCompare.InOrder (OrderDiffCompare.buildGvidMap (s.declsOf file)) 0
      (((sortedFileMap std topDecls).valueD file []).map Prod.fst) := by
  have hid : ∀ x ∈ (sortedFileMap std topDecls).valueD file [], ∀ id,
      (OrderDiffCompare.buildGvidMap (s.declsOf file)).find? x.1 = some id → id = x.2 := by
    intro x hx id hfind
    obtain ⟨d, hd, hname, rfl⟩ := OrderDiffCompare.exists_of_find?_buildGvidMap hfind
    rw [← Prod.mk.eta (p := x), ← hname] at hx
    exact ((h.listed_iff_of_mem std hd x.2).mp hx).symm
  constructor
  · intro id hmem
    obtain ⟨n, -, hfind⟩ := List.mem_filterMap.mp hmem
    obtain ⟨d, hd, -, rfl⟩ := OrderDiffCompare.exists_of_find?_buildGvidMap hfind
    exact h.walked.nonneg file d hd
  · rw [OrderDiffCompare.foundIds, List.filterMap_map, List.pairwise_filterMap]
    refine (sorted_sortedFileMap std topDecls file).imp_of_mem fun {a b} ha hb hle id hfind id' hfind' => ?_
    rw [hid a ha id hfind, hid b hb id' hfind']
    exact hle

lemma names_mem (std : IndexSort) {file : String} {d : FileDecl} (hd : d ∈ s.declsOf file) :
    d.decl.rawMangleName ∈ ((sortedFileMap std topDecls).valueD file []).map Prod.fst :=
  List.mem_map_of_mem ((h.listed_iff_of_mem std hd d.gvid).mpr rfl)

/-! ## No change -/

variable {md : RawMangledName → Option DeclView}

omit h in
/-- An entry of a map is found in the cache that the diff reads. -/
lemma find?_toASTCache {m : OrderedMap RawMangledName TopLevelCache} {t : StoredTopDecl}
    (ht : t ∈ m.entries) : (toASTCache m).find? t.1 = some t.2.toDiff := by
  have hmem : (t.1, t.2.toDiff) ∈ (toASTCache m).entries := List.mem_map.mpr ⟨t, ht, rfl⟩
  rw [ASTCache.find?]
  cases hfind : (toASTCache m).entries.find? fun e => e.1 = t.1 with
  | none => exact absurd (decide_eq_true rfl) (List.find?_eq_none.mp hfind _ hmem)
  | some e =>
    have hname : e.1 = t.1 := by simpa using List.find?_some hfind
    have heq := List.inj_on_of_nodup_map (toASTCache m).nodup (List.mem_of_find?_eq_some hfind) hmem
      hname
    rw [heq]
    rfl

/-- A cache that was written has the hashes of the current one. -/
lemma sameCache_write {e : StoredTopDecl} (he : e ∈ s.ret.entries) :
    ASTDiffImpl.SameCache (HashedASTWriter.write e.1 e.2).2.toDiff e.2.toDiff where
  hashes := rfl
  instVarHash := rfl
  virtHash := rfl
  members := by
    rw [TopLevelCache.toDiff, TopLevelCache.toDiff, mapLabels_eq_map, mapLabels_eq_map]
    exact (HashedASTWriter.perm_members_write e).map _
  distinct := by
    refine distinctNames_of_nodup ?_
    have hnames : (e.2.members.flatMap namesOf).Nodup := by
      have hcache : (cacheNames e).Nodup := (List.nodup_flatMap.mp h.walked.names).1 e he
      exact (List.nodup_cons.mp hcache).2
    rw [TopLevelCache.toDiff, mapLabels_eq_map, List.flatMap_map,
      List.flatMap_congr fun c _ => namesOf_mapLabel DeclCacheBase.hashes c]
    exact hnames

/-- The loaded caches have no difference to the current ones. -/
theorem compareCommonDecls_eq (std : IndexSort) (mangled2Decl : RawMangled2DeclMap) :
    ASTDiffImpl.compareCommonDecls mangled2Decl (toASTCache (deserializeData std topDecls).1)
      (toASTCache s.ret) {} = {} := by
  refine ASTDiffImpl.compareCommonDecls_of_same mangled2Decl (fun e he => ?_) (fun e he => ?_) {}
  · obtain ⟨t, ht, rfl⟩ := List.mem_map.mp he
    obtain ⟨e, hentry, rfl⟩ := h.mem_loaded.mp ht
    exact ⟨e.2.toDiff, find?_toASTCache hentry, h.sameCache_write hentry⟩
  · obtain ⟨t, ht, rfl⟩ := List.mem_map.mp he
    have hloaded := find?_toASTCache (h.mem_loaded.mpr ⟨t, ht, rfl⟩)
    exact fun hnone => Option.some_ne_none _ (hloaded.symm.trans hnone)

/-- No declaration is to be compiled again because of its order. -/
theorem orderChanges_eq (std : IndexSort) {md : RawMangledName → Option DeclView}
    (exc : List RawMangledName) (hmd : ∀ n, s.Known n → (md n).isSome) :
    OrderDiffCompare.orderChanges md exc (deserializeData std topDecls).2 s.fileMap =
      some [] := by
  have hlist : ∀ file old, (deserializeData std topDecls).2.find? file = some old →
      old = ((sortedFileMap std topDecls).valueD file []).map Prod.fst := by
    intro file old hfind
    rw [deserializeData, OrderedMap.find?_mapTo] at hfind
    obtain ⟨l, hl, rfl⟩ := Option.map_eq_some_iff.mp hfind
    rw [OrderedMap.valueD, hl]
    rfl
  have hdecls : ∀ file cur, s.fileMap.find? file = some cur → s.declsOf file = cur := by
    intro file cur hfind
    rw [declsOf, OrderedMap.valueD, hfind]
    rfl
  have hcached : ∀ e ∈ (deserializeData std topDecls).2.entries,
      OrderDiffCompare.compareCachedFile md exc s.fileMap e = some [] := by
    intro e he
    rw [OrderDiffCompare.compareCachedFile]
    cases hfind : s.fileMap.find? e.1 with
    | none => rfl
    | some cur =>
      have hold := hlist e.1 e.2 ((OrderedMap.find?_eq_some_iff _).mpr he)
      have hcur := hdecls e.1 cur hfind
      have hno : OrderDiffCompare.compareOrders md exc e.2 (s.declsOf e.1) = some [] := by
        rw [hold]
        exact OrderDiffCompare.compareOrders_of_inOrder
          (fun d hd => hmd _ (h.walked.known e.1 d hd)) (h.inOrder std e.1)
          fun d hd => h.names_mem std hd
      rwa [hcur] at hno
  have hnew : ∀ e ∈ s.fileMap.entries,
      OrderDiffCompare.compareNewFile md exc (deserializeData std topDecls).2 e = some [] := by
    intro e he
    rw [OrderDiffCompare.compareNewFile]
    cases hfind : (deserializeData std topDecls).2.find? e.1 with
    | some old => rfl
    | none =>
      have hcur := hdecls e.1 e.2 ((OrderedMap.find?_eq_some_iff _).mpr he)
      have hempty : (sortedFileMap std topDecls).valueD e.1 [] = [] := by
        rw [deserializeData, OrderedMap.find?_mapTo, Option.map_eq_none_iff] at hfind
        rw [OrderedMap.valueD, hfind]
        rfl
      have hnil : e.2 = [] := by
        refine List.eq_nil_iff_forall_not_mem.mpr fun d hd => ?_
        have hmem := h.names_mem std (hcur.symm ▸ hd)
        rw [hempty] at hmem
        exact absurd hmem List.not_mem_nil
      rw [hnil]
      rfl
  rw [OrderDiffCompare.orderChanges, PartialLoop.mapM_eq_some_map hcached,
    PartialLoop.mapM_eq_some_map hnew]
  refine congrArg some ?_
  rw [List.append_eq_nil_iff, List.flatten_eq_nil_iff, List.flatten_eq_nil_iff]
  constructor
  · intro l hl
    exact (List.mem_map.mp hl).choose_spec.2.symm
  · intro l hl
    exact (List.mem_map.mp hl).choose_spec.2.symm

end Stores

/-- A public declaration whose hashes are all zero. -/
def plainInfo (n : RawMangledName) : SourceInfo :=
  { rawMangleName := n, hashes := { sigHash := 0, srcUse := 0, bodyHash := 0 }, isPublic := true }

def plainVar (n : RawMangledName) (isStatic hasInitializer : Bool) : VarDecl :=
  { info := plainInfo n, isStatic := isStatic, isGlobal := !isStatic
    hasInitializer := hasInitializer }

def plainFunc (n : RawMangledName) : FuncDecl :=
  { info := plainInfo n, isStatic := false, isGlobal := false, hasBody := true }

/-- A class with a static variable behind a property, a pattern, and two extends with one name. -/
def mixedPackage : Package :=
  { files :=
      [{ trimmedPath := "a.cj"
         decls :=
          [.var (plainVar "v" false true),
           .type .classDecl (plainInfo "C") 1 2
            [.prop (plainInfo "p") false [plainFunc "get"] [plainFunc "set"],
             .primaryCtor (plainInfo "init")
              [{ info := plainInfo "m", isMemberParam := true, hasInitializer := false }],
             .var (plainVar "s" true true)],
           .directExtend { info := plainInfo "E", members := [.func (plainFunc "e")] },
           .varWithPattern (plainInfo "w") [plainVar "x" false false, plainVar "y" false false],
           .main (plainInfo "main")] },
       { trimmedPath := "b.cj"
         decls :=
          [.directExtend { info := plainInfo "E", members := [.func (plainFunc "f")] },
           .func (plainFunc "g")] }] }

/-- The static variable is listed before the property, and the extends where they stand. -/
example : ((walk (fun _ => 0) mixedPackage).declsOf "a.cj").map
    (fun d => (d.decl.rawMangleName, d.gvid)) =
      [("v", 0), ("s", 1), ("get", 1), ("set", 1), ("init", 1), ("e", 1), ("w", 2), ("main", 2)] := by
  decide +kernel

lemma distinctNames_mixedPackage : mixedPackage.DistinctNames where
  nodup := by decide +kernel
  notMem := by decide +kernel

/-- A class without members for each name. -/
def plainDecls : RawMangled2DeclMap where
  get n := .mk
    { astKind := .CLASS_DECL
      rawMangleName := n
      hash := { instVar := 0, virt := 0, sig := 0, srcUse := 0 }
      isConst := false
      hasInitializer := false
      hasBody := false
      hasDefaultParamBody := false
      importedDeclBodyHash := 0 } []
  rawMangleName_get _ := rfl

end Cangjie.IncrementalCompilation
