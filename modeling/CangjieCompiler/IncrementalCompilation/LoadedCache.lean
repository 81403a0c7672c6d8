import CangjieCompiler.Foundations.PartialLoop
import CangjieCompiler.IncrementalCompilation.CacheWalk

/-!
# What is loaded

The reader puts a name on the list of a file exactly when the stored caches say so, and the caches
that it keeps are those that were written, with their members in another order.
-/

namespace Cangjie.IncrementalCompilation

open NamedTree HashedASTLoader

/-! ## Writing -/

namespace HashedASTWriter

/-- The declarations of a map are written if the order has exactly their names. -/
theorem exists_writeCachedAST {ast : OrderedMap RawMangledName TopLevelCache}
    {order : List RawMangledName} (h : order.Perm (ast.entries.map Prod.fst)) :
    ∃ es : List StoredTopDecl, es.Perm ast.entries ∧
      writeCachedAST ast order = some (es.map fun e => write e.1 e.2) := by
  obtain ⟨es, hes, hperm⟩ : ∃ es : List StoredTopDecl, order = es.map Prod.fst ∧
      es.Perm ast.entries := by
    have hrel : List.Forall₂ (fun n (e : StoredTopDecl) => n = e.1) (ast.entries.map Prod.fst)
        ast.entries := by
      rw [List.forall₂_map_left_iff]
      exact List.forall₂_same.mpr fun e _ => rfl
    obtain ⟨es, hes, hperm⟩ := List.perm_comp_forall₂ h hrel
    rw [← List.forall₂_map_right_iff, List.forall₂_eq_eq_eq] at hes
    exact ⟨es, hes, hperm⟩
  refine ⟨es, hperm, ?_⟩
  rw [writeCachedAST]
  split_ifs with hempty
  · have hnil : es = [] := by
      rw [List.isEmpty_iff.mp hempty] at hperm
      exact hperm.eq_nil
    rw [hnil]
    rfl
  · rw [hes, List.mapM_map]
    refine PartialLoop.mapM_eq_some_map fun e he => ?_
    have hsome : ast.find? e.1 = some e.2 := (ast.find?_eq_some_iff).mpr (hperm.mem_iff.mp he)
    rw [Function.comp, hsome, Option.map_some]

lemma perm_members_write (e : StoredTopDecl) :
    (write e.1 e.2).2.members.Perm e.2.members :=
  List.filter_append_perm (fun m : MemberCache => m.label.isGV) e.2.members

lemma mem_topLoads_write (e : StoredTopDecl) (x : IndexedName) :
    x ∈ topLoads (write e.1 e.2) ↔ x ∈ topLoads e := by
  have hperm := perm_members_write e
  rw [topLoads, topLoads, List.mem_append, List.mem_append, (hperm.flatMap_right _).mem_iff]
  rfl

end HashedASTWriter

/-! ## Loading -/

namespace HashedASTLoader

/-- A name with an index is on the list of a file. -/
def Listed (fileMap : IndexedFileMap) (file : String) (n : RawMangledName) (id : ℤ) : Prop :=
  (n, id) ∈ fileMap.valueD file []

/-- A part of the loading puts exactly the given names on the lists. -/
def ListsExactly (fileMap fileMap' : IndexedFileMap) (loads : List IndexedName) : Prop :=
  ∀ file n id, Listed fileMap' file n id ↔ Listed fileMap file n id ∨ (n, ⟨file, id⟩) ∈ loads

lemma ListsExactly.refl (fileMap : IndexedFileMap) : ListsExactly fileMap fileMap [] :=
  fun _ _ _ => (or_iff_left List.not_mem_nil).symm

lemma ListsExactly.trans {m m₁ m₂ : IndexedFileMap} {loads loads' : List IndexedName}
    (h₁ : ListsExactly m m₁ loads) (h₂ : ListsExactly m₁ m₂ loads') :
    ListsExactly m m₂ (loads ++ loads') := by
  intro file n id
  rw [h₂ file n id, h₁ file n id, List.mem_append, or_assoc]

lemma ListsExactly.congr {m m' : IndexedFileMap} {loads loads' : List IndexedName}
    (h : ListsExactly m m' loads) (hloads : ∀ x, x ∈ loads ↔ x ∈ loads') :
    ListsExactly m m' loads' := by
  intro file n id
  rw [h file n id, hloads]

lemma listsExactly_foldl {α : Type} {push : IndexedFileMap → α → IndexedFileMap}
    {loads : α → List IndexedName} (h : ∀ m a, ListsExactly m (push m a) (loads a)) (as : List α)
    (m : IndexedFileMap) : ListsExactly m (as.foldl push m) (as.flatMap loads) := by
  induction as generalizing m with
  | nil => exact ListsExactly.refl m
  | cons a as ih =>
    rw [List.flatMap_cons]
    exact (h m a).trans (ih (push m a))

lemma listsExactly_emplaceBack (mangle : RawMangledName) (decl : DeclCacheBase)
    (m : IndexedFileMap) :
    ListsExactly m (emplaceBack mangle decl m) [(mangle, decl.gvid)] := by
  intro file n id
  rw [Listed, emplaceBack, OrderedMap.valueD_assign, List.mem_singleton, Listed]
  split_ifs with hfile
  · rw [List.mem_append, List.mem_singleton, ← hfile]
    refine or_congr_right ?_
    rw [Prod.mk.injEq, Prod.mk.injEq]
    refine and_congr_right fun _ => ⟨fun h => ?_, fun h => ?_⟩
    · rw [h]
    · rw [← h]
  · refine (or_iff_left fun h => hfile ?_).symm
    rw [← (Prod.mk.inj h).2]

lemma listsExactly_pushMember (m : IndexedFileMap) (member : MemberCache) :
    ListsExactly m (pushMember m member) [own member] :=
  listsExactly_emplaceBack member.name member.label m

lemma listsExactly_pushStaticVar (m : IndexedFileMap) (member : MemberCache) :
    ListsExactly m (pushStaticVar m member) (staticLoads member) := by
  rw [pushStaticVar, staticLoads]
  split_ifs
  · exact listsExactly_pushMember m member
  · exact ListsExactly.refl m

lemma listsExactly_pushOther (m : IndexedFileMap) (member : MemberCache) :
    ListsExactly m (pushOther m member) (otherLoads member) := by
  have hchildren := listsExactly_foldl listsExactly_pushMember member.children m
  rw [← List.map_eq_flatMap] at hchildren
  rw [pushOther, otherLoads]
  split_ifs
  · exact hchildren.trans (listsExactly_pushMember _ member)
  · exact hchildren.trans (ListsExactly.refl _)

lemma listsExactly_load (decl : TopLevelCache) (m : IndexedFileMap) :
    ListsExactly m (load decl m) (decl.members.flatMap memberLoads) := by
  have hstatics := listsExactly_foldl listsExactly_pushStaticVar decl.members m
  have hothers := listsExactly_foldl listsExactly_pushOther decl.members
    (decl.members.foldl pushStaticVar m)
  refine (hstatics.trans hothers).congr fun x => ?_
  simp only [memberLoads, List.mem_append, List.mem_flatMap]
  constructor
  · rintro (⟨member, hmember, hx⟩ | ⟨member, hmember, hx⟩)
    · exact ⟨member, hmember, Or.inl hx⟩
    · exact ⟨member, hmember, Or.inr hx⟩
  · rintro ⟨member, hmember, hx | hx⟩
    · exact Or.inl ⟨member, hmember, hx⟩
    · exact Or.inr ⟨member, hmember, hx⟩

lemma listsExactly_loadTopDecl
    (state : OrderedMap RawMangledName TopLevelCache × IndexedFileMap) (t : StoredTopDecl) :
    ListsExactly state.2 (loadTopDecl state t).2 (topLoads t) := by
  have hload := listsExactly_load t.2 state.2
  rw [loadTopDecl, topLoads, ownLoads]
  dsimp only
  split_ifs
  · exact hload.trans (listsExactly_emplaceBack t.1 t.2.toDeclCacheBase _)
  · exact hload.trans (ListsExactly.refl _)

lemma loadCachedAST_spec (topDecls : List StoredTopDecl)
    (state : OrderedMap RawMangledName TopLevelCache × IndexedFileMap) :
    (topDecls.foldl loadTopDecl state).1 = topDecls.foldl (fun m t => m.emplace t.1 t.2) state.1 ∧
      ListsExactly state.2 (topDecls.foldl loadTopDecl state).2 (topDecls.flatMap topLoads) := by
  induction topDecls generalizing state with
  | nil => exact ⟨rfl, ListsExactly.refl _⟩
  | cons t ts ih =>
    obtain ⟨hret, hlists⟩ := ih (loadTopDecl state t)
    rw [List.foldl_cons, List.foldl_cons, List.flatMap_cons]
    exact ⟨hret, (listsExactly_loadTopDecl state t).trans hlists⟩

/-- The names on the list of a file are those that the stored caches give for it. -/
theorem listed_iff (topDecls : List StoredTopDecl) (file : String) (n : RawMangledName) (id : ℤ) :
    Listed (loadCachedAST topDecls).2 file n id ↔ (n, ⟨file, id⟩) ∈ topDecls.flatMap topLoads := by
  have hlists := (loadCachedAST_spec topDecls (.empty, .empty)).2 file n id
  exact hlists.trans (or_iff_right List.not_mem_nil)

/-- Caches with distinct names are all kept. -/
theorem perm_loaded {topDecls : List StoredTopDecl} (h : (topDecls.map Prod.fst).Nodup) :
    (loadCachedAST topDecls).1.entries.Perm topDecls := by
  rw [loadCachedAST, (loadCachedAST_spec topDecls (.empty, .empty)).1]
  exact OrderedMap.perm_foldl_emplace (m := .empty) h

/-- The sort keeps the names on the list of a file. -/
lemma perm_sortedFileMap (std : IndexSort) (topDecls : List StoredTopDecl) (file : String) :
    ((sortedFileMap std topDecls).valueD file []).Perm
      ((loadCachedAST topDecls).2.valueD file []) := by
  rw [OrderedMap.valueD, sortedFileMap, OrderedMap.find?_mapValues, OrderedMap.valueD]
  cases (loadCachedAST topDecls).2.find? file with
  | none => exact List.Perm.refl _
  | some l => exact std.perm_sort l

lemma sorted_sortedFileMap (std : IndexSort) (topDecls : List StoredTopDecl) (file : String) :
    ((sortedFileMap std topDecls).valueD file []).Pairwise fun a b => a.2 ≤ b.2 := by
  rw [OrderedMap.valueD, sortedFileMap, OrderedMap.find?_mapValues]
  cases (loadCachedAST topDecls).2.find? file with
  | none => exact List.Pairwise.nil
  | some l => exact std.sorted_sort l

end HashedASTLoader

end Cangjie.IncrementalCompilation
