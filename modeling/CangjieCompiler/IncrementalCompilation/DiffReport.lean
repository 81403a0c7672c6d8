import CangjieCompiler.IncrementalCompilation.DiffExactness
import Mathlib.Algebra.Order.BigOperators.Group.List
import Mathlib.Algebra.Order.Monoid.Prod
import Mathlib.Data.Multiset.OrderedMonoid

/-!
# Exactness of the diff

The comparison of a cache with the current one reports exactly what changed if and only if nothing
of it is left out.  When an alias was deleted or changed and reported, the pollution analysis gives
up and compilation rolls back.
-/

namespace Cangjie.IncrementalCompilation

open NamedTree

/-! ## Rolling back -/

inductive IncreKind where
  | ROLLBACK
  | INCR
  | NO_CHANGE
  deriving DecidableEq

/-- The parts of the pollution analysis that its entry point calls: the propagation for each kind
of change, the reasons to fall back other than a removed declaration, and what follows when there
is none. -/
structure PollutionAnalyzer (σ : Type) where
  start : σ
  pollutionForAddedDecl : Decl → σ → σ
  pollutionForDeletedDecl : RawMangledName → σ → σ
  pollutionForChangedNonTypeDecl : CommonChange → σ → σ
  pollutionForChangedTypeDecl : Decl → TypeChange → σ → σ
  fallBackForOtherReason : σ → Bool
  finish : σ → IncreKind

namespace PollutionAnalyzer

variable {σ : Type} (analyzer : PollutionAnalyzer σ)

def fallBack (s : σ) (removedNotSupported : List RawMangledName) : Bool :=
  analyzer.fallBackForOtherReason s || !removedNotSupported.isEmpty

def get (rawModified : ModifiedDecls) : IncreKind :=
  if !rawModified.aliases.isEmpty then .ROLLBACK
  else
    let s := rawModified.added.foldl (fun s decl => analyzer.pollutionForAddedDecl decl s)
      analyzer.start
    if analyzer.fallBack s [] then .ROLLBACK
    else
      let s := rawModified.deletes.foldl (fun s decl => analyzer.pollutionForDeletedDecl decl s) s
      if analyzer.fallBack s [] then .ROLLBACK
      else
        let removedNotSupported := rawModified.deletedTypeAlias
        if analyzer.fallBack s removedNotSupported then .ROLLBACK
        else
          let s := rawModified.commons.foldl
            (fun s change => analyzer.pollutionForChangedNonTypeDecl change.2 s) s
          if analyzer.fallBack s removedNotSupported then .ROLLBACK
          else
            let s := rawModified.types.foldl
              (fun s change => analyzer.pollutionForChangedTypeDecl change.1 change.2 s) s
            if analyzer.fallBack s removedNotSupported then .ROLLBACK else analyzer.finish s

/-- A reported alias makes the analysis give up. -/
theorem get_eq_rollback {rawModified : ModifiedDecls}
    (h : rawModified.aliases ≠ [] ∨ rawModified.deletedTypeAlias ≠ []) :
    analyzer.get rawModified = .ROLLBACK := by
  have hempty : ∀ {α : Type} {l : List α}, l ≠ [] → l.isEmpty = false :=
    fun hl => Bool.eq_false_iff.mpr fun he => hl (List.isEmpty_iff.mp he)
  rw [get]
  rcases h with halias | hdeleted
  · rw [hempty halias]
    rfl
  · have hfall : ∀ s, analyzer.fallBack s rawModified.deletedTypeAlias = true := fun s => by
      rw [fallBack, hempty hdeleted]
      exact Bool.or_true _
    simp only [hfall, if_true]
    split_ifs <;> rfl

end PollutionAnalyzer

/-! ## The report of a whole cache -/

namespace ASTCache

lemma mem_of_find? {cache : ASTCache} {n : RawMangledName} {t : TopLevelDeclCache}
    (h : cache.find? n = some t) : (n, t) ∈ cache.entries := by
  obtain ⟨e, hfind, rfl⟩ := Option.map_eq_some_iff.mp h
  have hname : e.1 = n := by simpa using List.find?_some hfind
  rw [← hname]
  exact List.mem_of_find?_eq_some hfind

end ASTCache

/-- Where the declarations of a cache come from. -/
inductive CacheOrigin where
  | source
  | imported

/-- The number a cache has for the kind of a declaration. -/
def CacheOrigin.recordedKind : CacheOrigin → ASTKind → UInt8
  | source, k => k.toUInt8
  | imported, _ => 0

/-- The caches of imported packages record no kind. -/
theorem ImportPackageWalker.recordedKind_get (decls : List Decl)
    (prevKind : RawMangledName → ASTKind) :
    ∀ e ∈ (ImportPackageWalker.get decls).entries,
      e.2.astKind = CacheOrigin.imported.recordedKind (prevKind e.1) :=
  fun _ he => ImportPackageWalker.astKind_of_mem_get he

namespace ASTDiffImpl

variable {mangled2Decl : RawMangled2DeclMap} {prevKind : RawMangledName → ASTKind}

lemma hasEntry_emplace {β : Type} (decl : Decl) (change : β) (m : List (Decl × β))
    {n : RawMangledName} (h : decl.rawMangleName ≠ n) :
    hasEntry (emplace decl change m) n = hasEntry m n := by
  rw [emplace]
  split_ifs
  · rfl
  · simp [hasEntry, h]

/-- The comparison of a declaration makes no entry for another one. -/
lemma hasEntry_compareCached {cur : ASTCache} {e : RawMangledName × TopLevelDeclCache}
    {ret : ModifiedDecls} {n : RawMangledName} (h : e.1 ≠ n) :
    hasEntry (compareCached mangled2Decl cur e ret).types n = hasEntry ret.types n ∧
      hasEntry (compareCached mangled2Decl cur e ret).commons n = hasEntry ret.commons n := by
  have hname : (mangled2Decl.get e.1).rawMangleName ≠ n := by
    rw [mangled2Decl.rawMangleName_get]
    exact h
  rw [compareCached]
  cases cur.find? e.1 with
  | none =>
    dsimp only
    rw [collectDeletedTopLevelDecl]
    split_ifs <;> exact ⟨rfl, rfl⟩
  | some c =>
    dsimp only
    rw [compareTopLevelDecl]
    cases (mangled2Decl.get e.1).astKind <;> dsimp only <;> split_ifs <;>
      simp only [hasEntry_emplace _ _ _ hname, and_self]

lemma omissionsAt_congr {cur : ASTCache} {e : RawMangledName × TopLevelDeclCache}
    {ret ret' : ModifiedDecls} (htypes : hasEntry ret.types e.1 = hasEntry ret'.types e.1)
    (hcommons : hasEntry ret.commons e.1 = hasEntry ret'.commons e.1) :
    omissionsAt mangled2Decl prevKind cur ret e = omissionsAt mangled2Decl prevKind cur ret' e := by
  rw [omissionsAt, omissionsAt, htypes, hcommons]

/-- What the diff reports of all cached declarations and what it leaves out is what changed. -/
lemma report_foldl_compareCached {cur : ASTCache}
    (hcur : ∀ n c, cur.find? n = some c → DistinctNames c.members)
    {es : List (RawMangledName × TopLevelDeclCache)} (hnodup : (es.map Prod.fst).Nodup)
    (hkind : ∀ e ∈ es, e.2.astKind = ASTKind.TYPE_ALIAS_DECL.toUInt8 →
      prevKind e.1 = .TYPE_ALIAS_DECL)
    (hes : ∀ e ∈ es, DistinctNames e.2.members) (ret : ModifiedDecls) :
    report (es.foldl (fun ret e => compareCached mangled2Decl cur e ret) ret) +
        (es.map (omissionsAt mangled2Decl prevKind cur ret)).sum =
      report ret + (es.map (changesAt mangled2Decl prevKind cur)).sum := by
  induction es generalizing ret with
  | nil => rfl
  | cons e es ih =>
    obtain ⟨hfresh, hnodup⟩ := List.nodup_cons.mp hnodup
    have hstep : report (compareCached mangled2Decl cur e ret) +
        omissionsAt mangled2Decl prevKind cur ret e =
          report ret + changesAt mangled2Decl prevKind cur e :=
      report_compareCached (hkind e List.mem_cons_self) (hes e List.mem_cons_self) (hcur e.1) ret
    have hrest := ih hnodup (fun x hx => hkind x (List.mem_cons_of_mem _ hx))
      (fun x hx => hes x (List.mem_cons_of_mem _ hx)) (compareCached mangled2Decl cur e ret)
    have homit : es.map (omissionsAt mangled2Decl prevKind cur
        (compareCached mangled2Decl cur e ret)) =
          es.map (omissionsAt mangled2Decl prevKind cur ret) := by
      refine List.map_congr_left fun x hx => ?_
      have hne : e.1 ≠ x.1 := fun heq => hfresh (List.mem_map.mpr ⟨x, hx, heq.symm⟩)
      exact omissionsAt_congr (hasEntry_compareCached hne).1 (hasEntry_compareCached hne).2
    rw [homit] at hrest
    rw [List.foldl_cons, List.map_cons, List.sum_cons, List.map_cons, List.sum_cons,
      add_left_comm, hrest, ← add_assoc, add_comm (omissionsAt _ _ _ _ _), hstep, add_assoc]

lemma report_foldl_collectIfAdded {cached : ASTCache}
    (es : List (RawMangledName × TopLevelDeclCache)) (ret : ModifiedDecls) :
    report (es.foldl (fun ret e => collectIfAdded mangled2Decl cached e ret) ret) =
      report ret + (es.map (additionAt mangled2Decl cached)).sum := by
  refine MergeActions.total_foldl (fun e ret => ?_) es ret
  rw [collectIfAdded, additionAt]
  cases cached.find? e.1 with
  | none => exact report_added _ _
  | some _ => exact (add_zero _).symm

/-- What the comparison of two caches reports and what it leaves out is what changed. -/
theorem report_compareCommonDecls {cached cur : ASTCache}
    (hcur : ∀ e ∈ cur.entries, DistinctNames e.2.members)
    (hcached : ∀ e ∈ cached.entries, DistinctNames e.2.members)
    (hkind : ∀ e ∈ cached.entries, e.2.astKind = ASTKind.TYPE_ALIAS_DECL.toUInt8 →
      prevKind e.1 = .TYPE_ALIAS_DECL) (ret : ModifiedDecls) :
    report (compareCommonDecls mangled2Decl cached cur ret) +
        (cached.entries.map (omissionsAt mangled2Decl prevKind cur ret)).sum =
      report ret + (cached.entries.map (changesAt mangled2Decl prevKind cur)).sum +
        (cur.entries.map (additionAt mangled2Decl cached)).sum := by
  have hcommon : ∀ n c, cur.find? n = some c → DistinctNames c.members :=
    fun n c h => hcur (n, c) (ASTCache.mem_of_find? h)
  rw [compareCommonDecls, report_foldl_collectIfAdded, add_right_comm,
    report_foldl_compareCached hcommon cached.nodup hkind hcached ret]

/-! ## When nothing is left out -/

/-- The members of a common declaration are the same at every level. -/
structure SameMembers (cached cur : TopLevelDeclCache) : Prop where
  deleted : deletedNames cached.members cur.members = []
  added : addedNames cached.members cur.members = []
  changed : changedNames cached.members cur.members = []

/-- Nothing at a cached declaration and below it is left out of the report. -/
structure NothingOmittedAt (mangled2Decl : RawMangled2DeclMap)
    (prevKind : RawMangledName → ASTKind) (origin : CacheOrigin) (cur : ASTCache)
    (ret : ModifiedDecls) (e : RawMangledName × TopLevelDeclCache) : Prop where
  /-- A deleted declaration has no members of members, and is no alias of an imported package. -/
  deletedDecl : cur.find? e.1 = none → (∀ m ∈ e.2.members, m.children = []) ∧
    (prevKind e.1 = .TYPE_ALIAS_DECL → origin = .source)
  /-- A common alias has the same members, and no other hash differs unless its signature does. -/
  commonAlias : ∀ c, cur.find? e.1 = some c → (mangled2Decl.get e.1).astKind = .TYPE_ALIAS_DECL →
    SameMembers e.2 c ∧ (HashesDiffer e.2 c → e.2.hashes.sigHash ≠ c.hashes.sigHash)
  /-- A common function or variable has the same members, and no layout hash differs alone. -/
  commonValue : ∀ c, cur.find? e.1 = some c → (mangled2Decl.get e.1).astKind.isCommon = true →
    SameMembers e.2 c ∧
      (HashesDiffer e.2 c → e.2.hashes ≠ c.hashes ∧ hasEntry ret.commons e.1 = false)
  /-- A common type that has an entry already is the same; below one that has none, no deleted
  member has members of members. -/
  commonType : ∀ c, cur.find? e.1 = some c → (mangled2Decl.get e.1).astKind ≠ .TYPE_ALIAS_DECL →
    (mangled2Decl.get e.1).astKind.isCommon = false →
      (hasEntry ret.types e.1 = true → SameMembers e.2 c ∧ ¬ HashesDiffer e.2 c) ∧
      (hasEntry ret.types e.1 = false → ∀ x ∈ missingIn e.2.members c.members,
        ∀ m ∈ x.children, m.children = [])

lemma ofList_eq_zero {α : Type} {l : List α} : Multiset.ofList l = 0 ↔ l = [] :=
  Multiset.coe_eq_zero l

lemma ite_singleton_eq_zero {α : Type} {p : Prop} [Decidable p] {a : α} :
    (if p then ({a} : Multiset α) else 0) = 0 ↔ ¬ p := by
  split_ifs with h
  · simp [h]
  · simp [h]

lemma recordedKind_eq_iff (origin : CacheOrigin) (k : ASTKind) :
    origin.recordedKind k = ASTKind.TYPE_ALIAS_DECL.toUInt8 ↔
      k = .TYPE_ALIAS_DECL ∧ origin = .source := by
  cases origin with
  | source => exact (toUInt8_eq_iff k).trans (by simp)
  | imported =>
    have hne : (0 : UInt8) ≠ ASTKind.TYPE_ALIAS_DECL.toUInt8 := by decide
    exact iff_of_false hne (by simp)

lemma sameMembers_iff {cached cur : TopLevelDeclCache} :
    SameMembers cached cur ↔ deletedNames cached.members cur.members = [] ∧
      addedNames cached.members cur.members = [] ∧ changedNames cached.members cur.members = [] :=
  ⟨fun h => ⟨h.deleted, h.added, h.changed⟩, fun h => ⟨h.1, h.2.1, h.2.2⟩⟩

section Common

variable {mangled : RawMangledName} {cached cur : TopLevelDeclCache} {typeEntry commonEntry : Bool}

lemma omissionsOfCommon_alias (halias : (mangled2Decl.get mangled).astKind = .TYPE_ALIAS_DECL) :
    omissionsOfCommon mangled2Decl typeEntry commonEntry mangled cached cur = 0 ↔
      SameMembers cached cur ∧
        (HashesDiffer cached cur → cached.hashes.sigHash ≠ cur.hashes.sigHash) := by
  rw [omissionsOfCommon, sameMembers_iff]
  simp only [halias, if_true, Prod.mk_eq_zero, add_eq_zero, ite_singleton_eq_zero,
    ofList_eq_zero, List.map_eq_nil_iff, decide_eq_true_eq, not_and, true_and]
  tauto

lemma omissionsOfCommon_value (halias : (mangled2Decl.get mangled).astKind ≠ .TYPE_ALIAS_DECL)
    (hcommon : (mangled2Decl.get mangled).astKind.isCommon = true) :
    omissionsOfCommon mangled2Decl typeEntry commonEntry mangled cached cur = 0 ↔
      SameMembers cached cur ∧
        (HashesDiffer cached cur → cached.hashes ≠ cur.hashes ∧ commonEntry = false) := by
  rw [omissionsOfCommon, sameMembers_iff]
  simp only [halias, hcommon, if_true, if_false, Prod.mk_eq_zero, add_eq_zero,
    ite_singleton_eq_zero, ofList_eq_zero, List.map_eq_nil_iff, Bool.or_eq_true,
    decide_eq_true_eq, not_and, not_or, Bool.not_eq_true]
  tauto

lemma omissionsOfCommon_type (halias : (mangled2Decl.get mangled).astKind ≠ .TYPE_ALIAS_DECL)
    (hcommon : (mangled2Decl.get mangled).astKind.isCommon = false) :
    omissionsOfCommon mangled2Decl typeEntry commonEntry mangled cached cur = 0 ↔
      (typeEntry = true → SameMembers cached cur ∧ ¬ HashesDiffer cached cur) ∧
        (typeEntry = false → ∀ x ∈ missingIn cached.members cur.members,
          ∀ m ∈ x.children, m.children = []) := by
  rw [omissionsOfCommon, sameMembers_iff]
  simp only [halias, hcommon, if_false, Bool.false_eq_true]
  cases typeEntry with
  | true =>
    simp only [if_true, Prod.mk_eq_zero, add_eq_zero, ite_singleton_eq_zero, ofList_eq_zero,
      List.map_eq_nil_iff, and_true, true_implies, Bool.true_eq_false, false_implies]
    tauto
  | false =>
    simp only [if_false, Bool.false_eq_true, Prod.mk_eq_zero, ofList_eq_zero,
      List.flatMap_eq_nil_iff, deepNames_eq_nil, and_true, false_implies, true_implies, true_and]

end Common

/-- The report leaves out nothing at a declaration exactly when the condition holds there. -/
theorem omissionsAt_eq_zero_iff {origin : CacheOrigin} {cur : ASTCache} {ret : ModifiedDecls}
    {e : RawMangledName × TopLevelDeclCache}
    (hkind : e.2.astKind = origin.recordedKind (prevKind e.1)) :
    omissionsAt mangled2Decl prevKind cur ret e = 0 ↔
      NothingOmittedAt mangled2Decl prevKind origin cur ret e := by
  rw [omissionsAt]
  cases hfind : cur.find? e.1 with
  | none =>
    have hiff : NothingOmittedAt mangled2Decl prevKind origin cur ret e ↔
        (∀ m ∈ e.2.members, m.children = []) ∧
          (prevKind e.1 = .TYPE_ALIAS_DECL → origin = .source) := by
      refine ⟨fun h => h.deletedDecl hfind, fun h => ⟨fun _ => h, ?_, ?_, ?_⟩⟩
      all_goals
        intro c hc
        rw [hfind] at hc
        exact absurd hc (by simp)
    have hmembers : (e.2.members.flatMap fun m => m.children.flatMap namesOf) = [] ↔
        ∀ m ∈ e.2.members, m.children = [] :=
      List.flatMap_eq_nil_iff.trans (forall₂_congr fun m _ => flatMap_namesOf_eq_nil)
    rw [hiff, hkind]
    simp only [Prod.mk_eq_zero, ofList_eq_zero, ite_singleton_eq_zero, ne_eq, recordedKind_eq_iff,
      hmembers]
    tauto
  | some c =>
    have hnone : cur.find? e.1 ≠ none := by
      rw [hfind]
      simp
    have hsome : ∀ {c'}, cur.find? e.1 = some c' → c' = c := fun h =>
      Option.some.inj (h.symm.trans hfind)
    dsimp only
    by_cases halias : (mangled2Decl.get e.1).astKind = .TYPE_ALIAS_DECL
    · have hcommon : (mangled2Decl.get e.1).astKind.isCommon = false := by rw [halias]; rfl
      rw [omissionsOfCommon_alias halias]
      constructor
      · intro h
        refine ⟨fun hn => absurd hn hnone, fun c' hc' _ => hsome hc' ▸ h, ?_, ?_⟩
        · intro c' hc' hvalue
          exact absurd (hcommon.symm.trans hvalue) (by simp)
        · exact fun c' hc' hne => absurd halias hne
      · exact fun h => h.commonAlias c hfind halias
    · cases hcommon : (mangled2Decl.get e.1).astKind.isCommon with
      | true =>
        rw [omissionsOfCommon_value halias hcommon]
        constructor
        · intro h
          refine ⟨fun hn => absurd hn hnone, fun c' hc' ha => absurd ha halias,
            fun c' hc' _ => hsome hc' ▸ h, ?_⟩
          intro c' hc' _ hvalue
          exact absurd (hcommon.symm.trans hvalue) (by simp)
        · exact fun h => h.commonValue c hfind hcommon
      | false =>
        rw [omissionsOfCommon_type halias hcommon]
        constructor
        · intro h
          refine ⟨fun hn => absurd hn hnone, fun c' hc' ha => absurd ha halias, ?_,
            fun c' hc' _ _ => hsome hc' ▸ h⟩
          intro c' hc' hvalue
          exact absurd (hcommon.symm.trans hvalue) (by simp)
        · exact fun h => h.commonType c hfind halias hcommon

end ASTDiffImpl

/-! ## Exactness -/

open ASTDiffImpl

/-- An alias was deleted, or it is common and some hash differs. -/
def AliasLost (mangled2Decl : RawMangled2DeclMap) (prevKind : RawMangledName → ASTKind)
    (cur : ASTCache) (e : RawMangledName × TopLevelDeclCache) : Prop :=
  match cur.find? e.1 with
  | none => prevKind e.1 = .TYPE_ALIAS_DECL
  | some c => (mangled2Decl.get e.1).astKind = .TYPE_ALIAS_DECL ∧ HashesDiffer e.2 c

/-- The report grows by exactly what changed, and a lost alias makes compilation roll back. -/
structure ExactDiff (mangled2Decl : RawMangled2DeclMap) (prevKind : RawMangledName → ASTKind)
    (cached cur : ASTCache) (ret ret' : ModifiedDecls) : Prop where
  report_eq : report ret' =
    report ret + (cached.entries.map (changesAt mangled2Decl prevKind cur)).sum +
      (cur.entries.map (additionAt mangled2Decl cached)).sum
  rollsBack : (∃ e ∈ cached.entries, AliasLost mangled2Decl prevKind cur e) →
    ∀ {σ : Type} (analyzer : PollutionAnalyzer σ), analyzer.get ret' = .ROLLBACK

section Exact

variable {mangled2Decl : RawMangled2DeclMap} {prevKind : RawMangledName → ASTKind}
  {cached cur : ASTCache} {ret ret' : ModifiedDecls}

/-- A report that grows by what changed has every lost alias. -/
lemma alias_reported {e : RawMangledName × TopLevelDeclCache} (he : e ∈ cached.entries)
    (hlost : AliasLost mangled2Decl prevKind cur e)
    (h : report ret' = report ret + (cached.entries.map (changesAt mangled2Decl prevKind cur)).sum +
      (cur.entries.map (additionAt mangled2Decl cached)).sum) :
    ret'.aliases ≠ [] ∨ ret'.deletedTypeAlias ≠ [] := by
  have hle : changesAt mangled2Decl prevKind cur e ≤ report ret' := by
    rw [h]
    exact (List.single_le_sum (fun _ _ => zero_le) _ (List.mem_map_of_mem he)).trans
      ((le_add_self).trans le_self_add)
  rw [AliasLost] at hlost
  rw [changesAt] at hle
  cases hfind : cur.find? e.1 with
  | none =>
    rw [hfind] at hlost hle
    refine Or.inr fun hempty => ?_
    have hcomponent : (if prevKind e.1 = .TYPE_ALIAS_DECL then ({e.1} : Multiset _) else 0) ≤
        Multiset.ofList ret'.deletedTypeAlias := hle.2.2.2.1
    rw [if_pos hlost, hempty] at hcomponent
    exact absurd hcomponent (by simp)
  | some c =>
    rw [hfind] at hlost hle
    refine Or.inl fun hempty => ?_
    have hcomponent : (if (mangled2Decl.get e.1).astKind = .TYPE_ALIAS_DECL ∧ HashesDiffer e.2 c
        then ({mangled2Decl.get e.1} : Multiset _) else 0) ≤ Multiset.ofList ret'.aliases :=
      hle.2.2.2.2
    rw [if_pos hlost, hempty] at hcomponent
    exact absurd hcomponent (by simp)

/-- The diff of two caches is exact if and only if nothing is left out at any cached
declaration. -/
theorem exactDiff_iff (origin : CacheOrigin)
    (hkind : ∀ e ∈ cached.entries, e.2.astKind = origin.recordedKind (prevKind e.1))
    (hcached : ∀ e ∈ cached.entries, DistinctNames e.2.members)
    (hcur : ∀ e ∈ cur.entries, DistinctNames e.2.members) :
    ExactDiff mangled2Decl prevKind cached cur ret
        (compareCommonDecls mangled2Decl cached cur ret) ↔
      ∀ e ∈ cached.entries, NothingOmittedAt mangled2Decl prevKind origin cur ret e := by
  have hkind' : ∀ e ∈ cached.entries, e.2.astKind = ASTKind.TYPE_ALIAS_DECL.toUInt8 →
      prevKind e.1 = .TYPE_ALIAS_DECL := fun e he hcode =>
    ((recordedKind_eq_iff origin _).mp ((hkind e he).symm.trans hcode)).1
  have hreport : report (compareCommonDecls mangled2Decl cached cur ret) +
      (cached.entries.map (omissionsAt mangled2Decl prevKind cur ret)).sum =
        report ret + (cached.entries.map (changesAt mangled2Decl prevKind cur)).sum +
          (cur.entries.map (additionAt mangled2Decl cached)).sum :=
    report_compareCommonDecls hcur hcached hkind' ret
  have homitted : (cached.entries.map (omissionsAt mangled2Decl prevKind cur ret)).sum = 0 ↔
      ∀ e ∈ cached.entries, NothingOmittedAt mangled2Decl prevKind origin cur ret e := by
    rw [List.sum_eq_zero_iff, List.forall_mem_map]
    exact forall₂_congr fun e he => omissionsAt_eq_zero_iff (hkind e he)
  rw [← homitted]
  constructor
  · intro h
    rw [h.report_eq] at hreport
    exact add_eq_left.mp hreport
  · intro hzero
    rw [hzero, add_zero] at hreport
    refine ⟨hreport, fun ⟨e, he, hlost⟩ _ analyzer => ?_⟩
    exact analyzer.get_eq_rollback (alias_reported he hlost hreport)

end Exact

/-- A declaration map with a declaration of one kind for each name. -/
def declsOfKind (kind : ASTKind) : RawMangled2DeclMap where
  get mangled :=
    .mk
      { astKind := kind
        rawMangleName := mangled
        hash := ⟨0, 0, 0, 0⟩
        isConst := false
        hasInitializer := false
        hasBody := false
        hasDefaultParamBody := false
        importedDeclBodyHash := 0 } []
  rawMangleName_get _ := rfl

def emptyCache : ASTCache := ⟨[], List.nodup_nil⟩

/-- A cache with one declaration of a kind. -/
def singleCache (mangled : RawMangledName) (kind : ASTKind) (members : List MemberDeclCache) :
    ASTCache where
  entries := [(mangled, ⟨⟨1, 2, 3⟩, kind.toUInt8, members, 0, 0⟩)]
  nodup := List.nodup_singleton _

/-- The diff is exact when an alias of the source package is deleted. -/
theorem exactDiff_deletedAlias :
    ExactDiff (declsOfKind .TYPE_ALIAS_DECL) (fun _ => .TYPE_ALIAS_DECL)
      (singleCache "A" .TYPE_ALIAS_DECL []) emptyCache {}
      (compareCommonDecls (declsOfKind .TYPE_ALIAS_DECL) (singleCache "A" .TYPE_ALIAS_DECL [])
        emptyCache {}) := by
  refine (exactDiff_iff .source ?_ ?_ ?_).mpr ?_
  · intro e he
    rw [List.mem_singleton.mp he]
    rfl
  · intro e he
    rw [List.mem_singleton.mp he]
    exact ⟨List.nodup_nil, trivial⟩
  · exact fun e he => absurd he List.not_mem_nil
  · intro e he
    rw [List.mem_singleton.mp he]
    refine ⟨fun _ => ⟨fun m hm => absurd hm List.not_mem_nil, fun _ => rfl⟩, ?_, ?_, ?_⟩
    all_goals exact fun c hc => absurd hc (by simp [emptyCache, ASTCache.find?])

/-- A property with a getter, as a member of a class. -/
def propWithGetter : MemberDeclCache := .node "P" ⟨1, 2, 3⟩ [.node "G" ⟨1, 2, 3⟩ []]

/-- When a class with a property is deleted, the getter of the property is not reported. -/
theorem not_exactDiff_deletedClass :
    ¬ ExactDiff (declsOfKind .CLASS_DECL) (fun _ => .CLASS_DECL)
      (singleCache "C" .CLASS_DECL [propWithGetter]) emptyCache {}
      (compareCommonDecls (declsOfKind .CLASS_DECL) (singleCache "C" .CLASS_DECL [propWithGetter])
        emptyCache {}) := by
  intro h
  have hcard := congrArg (fun r => Multiset.card r.1) h.report_eq
  exact absurd hcard (by decide)

end Cangjie.IncrementalCompilation
