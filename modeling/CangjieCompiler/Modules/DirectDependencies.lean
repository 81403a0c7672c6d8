import CangjieCompiler.Foundations.DrainLoop
import CangjieCompiler.Modules.DependencyGraph

/-!
# Direct dependencies through macro packages

The direct dependencies of a package are the packages it imports, and what these re-export if they
are macro packages.  A queue starts with the imported packages.  A macro package that is re-exported
is put into the queue without a look at what was collected, and is marked as collected before it is
taken out again, so that it is not added to the answer any more.

So the answer is right, and there is one, exactly when every macro package that an imported macro
package re-exports is imported too and has a smaller name.
-/

namespace Cangjie.Modules

variable {ν : Type} [LinearOrder ν]

/-- The declaration of a loaded package. -/
structure PackageDecl (ν : Type) where
  fullPackageName : ν
  isMacroPackage : Bool
  deriving DecidableEq

/-- The import graph with the re-exports.  The loaded packages are kept by their names, and only
re-exports of loaded packages are recorded. -/
structure ReExportGraph (ν : Type) [LinearOrder ν] extends DependencyGraph ν (PackageDecl ν) where
  pkgReExportMap : ν → List ν
  named : ∀ p d, cjoManager.getPackageDecl p = some d → d.fullPackageName = p
  loaded : ∀ p, ∀ q ∈ pkgReExportMap p, (cjoManager.getPackageDecl q).isSome

namespace ReExportGraph

/-! ## The search -/

/-- The answer so far, the packages marked as collected, and the queue. -/
structure Search (ν : Type) where
  packageDecls : List (PackageDecl ν)
  collected : Finset (PackageDecl ν)
  tmpQueue : List (PackageDecl ν)

variable (g : ReExportGraph ν)

/-- One round of the inner loop, for a package that is re-exported. -/
def visitDecl (s : Search ν) (reExportPkgDecl : PackageDecl ν) : Search ν :=
  if reExportPkgDecl.isMacroPackage = false ∧ reExportPkgDecl ∉ s.collected then
    { s with
      packageDecls := s.packageDecls ++ [reExportPkgDecl]
      collected := insert reExportPkgDecl s.collected }
  else if reExportPkgDecl.isMacroPackage = true then
    { s with
      tmpQueue := s.tmpQueue ++ [reExportPkgDecl]
      collected := insert reExportPkgDecl s.collected }
  else s

/-- The inner loop; a package without a declaration stops the compiler. -/
def visitReExports (s : Search ν) : List ν → Option (Search ν)
  | [] => some s
  | reExportPackageName :: names => do
    let reExportPkgDecl ← g.cjoManager.getPackageDecl reExportPackageName
    visitReExports (visitDecl s reExportPkgDecl) names

/-- Adding a package taken out of the queue, unless it is marked already. -/
def collect (s : Search ν) (pkgDecl : PackageDecl ν) : Search ν :=
  if pkgDecl ∈ s.collected then s
  else
    { s with
      packageDecls := s.packageDecls ++ [pkgDecl]
      collected := insert pkgDecl s.collected }

/-- One round of the outer loop. -/
def searchStep (s : Search ν) : Option (Search ν) :=
  match s.tmpQueue with
  | [] => some s
  | pkgDecl :: rest =>
    let s := collect { s with tmpQueue := rest } pkgDecl
    if pkgDecl.isMacroPackage = false then some s
    else g.visitReExports s (g.pkgReExportMap pkgDecl.fullPackageName)

/-- The imported packages that are loaded, by their names. -/
def importedDecls (fullPackageName : ν) : List (PackageDecl ν) :=
  (g.getEdges fullPackageName).filterMap g.cjoManager.getPackageDecl

/-- The search for the direct dependencies, with a bound on the rounds. -/
def collectDirectDecls (fuel : ℕ) (fullPackageName : ν) : Option (List (PackageDecl ν)) :=
  (DrainLoop.drain (fun s => s.tmpQueue.isEmpty) g.searchStep fuel
    ⟨[], ∅, g.importedDecls fullPackageName⟩).map Search.packageDecls

/-- The cache of the answers, which holds what searches found. -/
structure DirectCache where
  cacheDirectDependencyPackageDecls : OrderedMap ν (List (PackageDecl ν))
  found : ∀ p decls, cacheDirectDependencyPackageDecls.find? p = some decls →
    ∃ fuel, g.collectDirectDecls fuel p = some decls

/-- The cache before the first query. -/
def DirectCache.empty : DirectCache g where
  cacheDirectDependencyPackageDecls := OrderedMap.empty
  found p decls h := by
    rw [OrderedMap.find?_empty] at h
    exact absurd h (Option.some_ne_none decls).symm

variable {g} in
/-- The cache with the answer of a search. -/
def DirectCache.emplace (cache : DirectCache g) (p : ν) (decls : List (PackageDecl ν))
    (h : ∃ fuel, g.collectDirectDecls fuel p = some decls) : DirectCache g where
  cacheDirectDependencyPackageDecls := cache.cacheDirectDependencyPackageDecls.emplace p decls
  found p' decls' hfind := by
    rcases OrderedMap.mem_emplace ((OrderedMap.find?_eq_some_iff _).mp hfind) with heq | hold
    · obtain ⟨rfl, rfl⟩ := Prod.mk.inj heq
      exact h
    · exact cache.found p' decls' ((OrderedMap.find?_eq_some_iff _).mpr hold)

/-- The query, with the cache of earlier answers. -/
def getDirectDependencyPackageDecls (fuel : ℕ) (fullPackageName : ν) (cache : DirectCache g) :
    Option (List (PackageDecl ν) × DirectCache g) :=
  match cache.cacheDirectDependencyPackageDecls.find? fullPackageName with
  | some packageDecls => some (packageDecls, cache)
  | none =>
    match h : g.collectDirectDecls fuel fullPackageName with
    | some packageDecls => some (packageDecls, cache.emplace fullPackageName packageDecls ⟨fuel, h⟩)
    | none => none

/-! ## What is asked for -/

/-- The declarations of the packages that a macro package re-exports. -/
def reExportedDecls (d : PackageDecl ν) : List (PackageDecl ν) :=
  if d.isMacroPackage = false then []
  else (g.pkgReExportMap d.fullPackageName).filterMap g.cjoManager.getPackageDecl

/-- A package is imported, or is reached from an imported one by re-exports of macro packages. -/
def IsDirect (fullPackageName : ν) (d : PackageDecl ν) : Prop :=
  ∃ e ∈ g.importedDecls fullPackageName,
    Relation.ReflTransGen (fun u v => v ∈ g.reExportedDecls u) e d

/-- The search ends with the packages asked for, each of them once. -/
def AnswersDirect (fullPackageName : ν) : Prop :=
  ∃ fuel decls, g.collectDirectDecls fuel fullPackageName = some decls ∧ decls.Nodup ∧
    ∀ d, d ∈ decls ↔ g.IsDirect fullPackageName d

/-- The query ends with the packages asked for, each of them once. -/
def AnswersQuery (cache : DirectCache g) (fullPackageName : ν) : Prop :=
  ∃ fuel decls cache',
    g.getDirectDependencyPackageDecls fuel fullPackageName cache = some (decls, cache') ∧
      decls.Nodup ∧ ∀ d, d ∈ decls ↔ g.IsDirect fullPackageName d

/-- The macro packages that an imported package re-exports are imported under smaller names. -/
def ReExportsImported (fullPackageName : ν) : Prop :=
  ∀ d ∈ g.importedDecls fullPackageName, ∀ q ∈ g.reExportedDecls d, q.isMacroPackage = true →
    q ∈ g.importedDecls fullPackageName ∧ q.fullPackageName < d.fullPackageName

variable {g} in
/-- A search has one answer. -/
lemma collectDirectDecls_inj {fuel fuel' : ℕ} {p : ν} {decls decls' : List (PackageDecl ν)}
    (h : g.collectDirectDecls fuel p = some decls)
    (h' : g.collectDirectDecls fuel' p = some decls') : decls = decls' := by
  obtain ⟨s, hs, rfl⟩ := Option.map_eq_some_iff.mp h
  obtain ⟨s', hs', rfl⟩ := Option.map_eq_some_iff.mp h'
  rw [DrainLoop.drain_inj hs hs']

/-! ## One round -/

variable {g}

/-- The inner loop on the declarations of the packages. -/
lemma visitReExports_eq {names : List ν} (s : Search ν)
    (h : ∀ q ∈ names, (g.cjoManager.getPackageDecl q).isSome) :
    g.visitReExports s names =
      some ((names.filterMap g.cjoManager.getPackageDecl).foldl visitDecl s) := by
  induction names generalizing s with
  | nil => rfl
  | cons q names ih =>
    obtain ⟨d, hd⟩ := Option.isSome_iff_exists.mp (h q List.mem_cons_self)
    rw [visitReExports, hd, Option.bind_eq_bind, Option.bind_some,
      ih _ fun q' hq' => h q' (List.mem_cons_of_mem q hq'), List.filterMap_cons_some hd]
    rfl

/-- A round takes the first package out of the queue and visits what it re-exports. -/
lemma searchStep_cons {s : Search ν} {d : PackageDecl ν} {rest : List (PackageDecl ν)}
    (h : s.tmpQueue = d :: rest) :
    g.searchStep s =
      some ((g.reExportedDecls d).foldl visitDecl (collect { s with tmpQueue := rest } d)) := by
  rw [searchStep, h, reExportedDecls]
  dsimp only
  split_ifs with hmac
  · rfl
  · exact visitReExports_eq _ (g.loaded _)

/-- What the inner loop does to the queue, the marks and the answer. -/
lemma foldl_visitDecl (qs : List (PackageDecl ν)) (s : Search ν) :
    (qs.foldl visitDecl s).tmpQueue = s.tmpQueue ++ qs.filter PackageDecl.isMacroPackage ∧
      (∀ x, x ∈ (qs.foldl visitDecl s).collected ↔ x ∈ s.collected ∨ x ∈ qs) ∧
      (∀ x, x ∈ (qs.foldl visitDecl s).packageDecls ↔
        x ∈ s.packageDecls ∨ x ∈ qs ∧ x.isMacroPackage = false ∧ x ∉ s.collected) := by
  induction qs generalizing s with
  | nil => simp
  | cons q qs ih =>
    obtain ⟨hqueue, hcollected, hdecls⟩ := ih (visitDecl s q)
    rw [List.foldl_cons]
    by_cases hnew : q.isMacroPackage = false ∧ q ∉ s.collected
    · have hvisit : visitDecl s q = { s with
          packageDecls := s.packageDecls ++ [q]
          collected := insert q s.collected } := if_pos hnew
      rw [hvisit] at hqueue hcollected hdecls ⊢
      refine ⟨?_, fun x => ?_, fun x => ?_⟩
      · rw [hqueue, List.filter_cons_of_neg (by simp [hnew.1])]
      · rw [hcollected, Finset.mem_insert, List.mem_cons]
        tauto
      · rw [hdecls, List.mem_append, List.mem_singleton, Finset.mem_insert, List.mem_cons]
        by_cases hx : x = q
        · subst hx
          simp [hnew]
        · simp [hx]
    · by_cases hmac : q.isMacroPackage = true
      · have hvisit : visitDecl s q = { s with
            tmpQueue := s.tmpQueue ++ [q]
            collected := insert q s.collected } := by
          rw [visitDecl, if_neg hnew, if_pos hmac]
        rw [hvisit] at hqueue hcollected hdecls ⊢
        refine ⟨?_, fun x => ?_, fun x => ?_⟩
        · rw [hqueue, List.filter_cons_of_pos hmac, List.append_assoc, List.singleton_append]
        · rw [hcollected, Finset.mem_insert, List.mem_cons]
          tauto
        · rw [hdecls, Finset.mem_insert, List.mem_cons]
          by_cases hx : x = q
          · subst hx
            simp [hmac]
          · simp [hx]
      · have hold : q ∈ s.collected := by
          by_contra hq
          exact hnew ⟨Bool.eq_false_iff.mpr hmac, hq⟩
        have hvisit : visitDecl s q = s := by rw [visitDecl, if_neg hnew, if_neg hmac]
        rw [hvisit] at hqueue hcollected hdecls ⊢
        refine ⟨?_, fun x => ?_, fun x => ?_⟩
        · rw [hqueue, List.filter_cons_of_neg hmac]
        · rw [hcollected, List.mem_cons]
          by_cases hx : x = q
          · subst hx
            simp [hold]
          · simp [hx]
        · rw [hdecls, List.mem_cons]
          by_cases hx : x = q
          · subst hx
            simp [hold]
          · simp [hx]

/-- The answer has no duplicates, and all of it is marked. -/
structure Search.Sane (s : Search ν) : Prop where
  nodup : s.packageDecls.Nodup
  marked : ∀ x ∈ s.packageDecls, x ∈ s.collected

lemma Search.Sane.add {s : Search ν} (h : s.Sane) {d : PackageDecl ν} (hd : d ∉ s.collected)
    (queue : List (PackageDecl ν)) :
    Search.Sane ⟨s.packageDecls ++ [d], insert d s.collected, queue⟩ where
  nodup := by
    refine List.nodup_append.mpr ⟨h.nodup, List.nodup_singleton d, fun x hx y hy => ?_⟩
    rw [List.mem_singleton.mp hy]
    exact ne_of_mem_of_not_mem (h.marked x hx) hd
  marked x hx := by
    rcases List.mem_append.mp hx with hx | hx
    · exact Finset.mem_insert_of_mem (h.marked x hx)
    · exact Finset.mem_insert.mpr (Or.inl (List.mem_singleton.mp hx))

lemma Search.Sane.foldl {s : Search ν} (h : s.Sane) (qs : List (PackageDecl ν)) :
    (qs.foldl visitDecl s).Sane := by
  induction qs generalizing s with
  | nil => exact h
  | cons q qs ih =>
    refine ih ?_
    rw [visitDecl]
    split_ifs with hnew
    · exact h.add hnew.2 _
    · exact ⟨h.nodup, fun x hx => Finset.mem_insert_of_mem (h.marked x hx)⟩
    · exact h

lemma Search.Sane.collect {s : Search ν} (h : s.Sane) (d : PackageDecl ν) :
    (collect s d).Sane := by
  rw [ReExportGraph.collect]
  split_ifs with hd
  · exact h
  · exact h.add hd _

lemma mem_collected_collect {s : Search ν} {d x : PackageDecl ν} :
    x ∈ (collect s d).collected ↔ x = d ∨ x ∈ s.collected := by
  rw [collect]
  split_ifs with hd
  · exact ⟨Or.inr, fun h => h.elim (fun hx => hx ▸ hd) id⟩
  · exact Finset.mem_insert

lemma mem_packageDecls_collect {s : Search ν} {d x : PackageDecl ν} :
    x ∈ (collect s d).packageDecls ↔ x ∈ s.packageDecls ∨ x = d ∧ d ∉ s.collected := by
  rw [collect]
  split_ifs with hd
  · exact ⟨Or.inl, fun h => h.elim id fun h => absurd hd h.2⟩
  · rw [List.mem_append, List.mem_singleton, and_iff_left hd]

lemma tmpQueue_collect (s : Search ν) (d : PackageDecl ν) :
    (collect s d).tmpQueue = s.tmpQueue := by
  rw [collect]
  split_ifs <;> rfl

/-- What a round does to the queue, the marks and the answer. -/
lemma searchStep_spec {s s' : Search ν} {d : PackageDecl ν} {rest : List (PackageDecl ν)}
    (h : s.tmpQueue = d :: rest) (hs' : g.searchStep s = some s') :
    s'.tmpQueue = rest ++ (g.reExportedDecls d).filter PackageDecl.isMacroPackage ∧
      (∀ x, x ∈ s'.collected ↔ (x = d ∨ x ∈ s.collected) ∨ x ∈ g.reExportedDecls d) ∧
      (∀ x, x ∈ s'.packageDecls ↔ (x ∈ s.packageDecls ∨ x = d ∧ d ∉ s.collected) ∨
        x ∈ g.reExportedDecls d ∧ x.isMacroPackage = false ∧ ¬(x = d ∨ x ∈ s.collected)) ∧
      (s.Sane → s'.Sane) := by
  obtain rfl := Option.some.inj ((searchStep_cons h).symm.trans hs')
  obtain ⟨hqueue, hcollected, hdecls⟩ := foldl_visitDecl (g.reExportedDecls d)
    (collect { s with tmpQueue := rest } d)
  refine ⟨?_, fun x => ?_, fun x => ?_, fun hsane => ?_⟩
  · rw [hqueue, tmpQueue_collect]
  · rw [hcollected, mem_collected_collect]
  · rw [hdecls, mem_packageDecls_collect, mem_collected_collect]
  · have hrest : Search.Sane { s with tmpQueue := rest } := ⟨hsane.nodup, hsane.marked⟩
    exact (hrest.collect d).foldl _

/-! ## Imported packages -/

variable {p : ν}

/-- The imported packages come in the order of their names. -/
lemma pairwise_importedDecls :
    (g.importedDecls p).Pairwise fun d e => d.fullPackageName < e.fullPackageName := by
  have hedges : (g.getEdges p).Pairwise (· < ·) := by
    unfold DependencyGraph.getEdges
    split
    · exact OrderedSet.sorted _
    · exact List.Pairwise.nil
  refine List.pairwise_filterMap.mpr (hedges.imp ?_)
  intro q q' hlt d hd e he
  rw [g.named q d hd, g.named q' e he]
  exact hlt

/-- The packages with smaller names come before. -/
lemma mem_before_iff {pre post : List (PackageDecl ν)} {d q : PackageDecl ν}
    (h : g.importedDecls p = pre ++ d :: post) :
    q ∈ g.importedDecls p ∧ q.fullPackageName < d.fullPackageName ↔ q ∈ pre := by
  have hpairwise : (g.importedDecls p).Pairwise fun d e => d.fullPackageName < e.fullPackageName :=
    pairwise_importedDecls
  rw [h] at hpairwise ⊢
  obtain ⟨-, hrest, hbefore⟩ := List.pairwise_append.mp hpairwise
  obtain ⟨hafter, -⟩ := List.pairwise_cons.mp hrest
  constructor
  · rintro ⟨hq, hlt⟩
    rcases List.mem_append.mp hq with hq | hq
    · exact hq
    · rcases List.mem_cons.mp hq with rfl | hq
      · exact absurd hlt (lt_irrefl _)
      · exact absurd hlt (hafter q hq).not_gt
  · intro hq
    exact ⟨List.mem_append_left _ hq, hbefore q hq d List.mem_cons_self⟩

/-! ## When the macro packages are imported -/

/-- The state of a search after the packages `pre` were taken out of the queue, whose other
packages were taken out before. -/
structure Progress (g : ReExportGraph ν) (p : ν) (pre : List (PackageDecl ν)) (s : Search ν) :
    Prop where
  queue : ∃ post extra, g.importedDecls p = pre ++ post ∧ s.tmpQueue = post ++ extra ∧
    ∀ e ∈ extra, e ∈ pre
  sane : s.Sane
  answered : ∀ x ∈ s.collected, x ∈ s.packageDecls
  visited : ∀ x ∈ pre, x ∈ s.collected
  macros : ∀ x ∈ s.collected, x.isMacroPackage = true → x ∈ pre
  closed : ∀ d ∈ pre, ∀ q ∈ g.reExportedDecls d, q ∈ s.collected
  direct : ∀ x ∈ s.collected, g.IsDirect p x

lemma Progress.start : Progress g p [] ⟨[], ∅, g.importedDecls p⟩ where
  queue := ⟨g.importedDecls p, [], rfl, (List.append_nil _).symm, fun _ h => h⟩
  sane := ⟨List.nodup_nil, fun _ h => absurd h List.not_mem_nil⟩
  answered _ h := absurd h (Finset.notMem_empty _)
  visited _ h := absurd h List.not_mem_nil
  macros _ h := absurd h (Finset.notMem_empty _)
  closed _ h := absurd h List.not_mem_nil
  direct _ h := absurd h (Finset.notMem_empty _)

/-- The macro packages that a package before an end of the imported packages re-exports come before
it. -/
lemma ReExportsImported.mem {pre post : List (PackageDecl ν)} (h : g.ReExportsImported p)
    (hpre : g.importedDecls p = pre ++ post) {d q : PackageDecl ν} (hd : d ∈ pre)
    (hq : q ∈ g.reExportedDecls d) (hmac : q.isMacroPackage = true) : q ∈ pre := by
  obtain ⟨first, second, rfl⟩ := List.append_of_mem hd
  have hsplit : g.importedDecls p = first ++ d :: (second ++ post) := by
    rw [hpre, List.append_assoc, List.cons_append]
  have hmem : d ∈ g.importedDecls p := by
    rw [hpre]
    exact List.mem_append_left _ hd
  exact List.mem_append_left _ ((mem_before_iff hsplit).mp (h d hmem q hq hmac))

/-- What a macro package that was taken out re-exports is asked for if the package is. -/
lemma IsDirect.tail {d q : PackageDecl ν} (h : g.IsDirect p d) (hq : q ∈ g.reExportedDecls d) :
    g.IsDirect p q := by
  obtain ⟨e, he, hreach⟩ := h
  exact ⟨e, he, hreach.tail hq⟩

/-- The packages in the queue are imported ones. -/
lemma Progress.queue_imported {pre : List (PackageDecl ν)} {s : Search ν} (hs : Progress g p pre s) :
    ∀ d ∈ s.tmpQueue, d ∈ g.importedDecls p := by
  obtain ⟨post, extra, himported, hqueue, hextra⟩ := hs.queue
  intro d hd
  rw [hqueue] at hd
  rw [himported]
  rcases List.mem_append.mp hd with hd | hd
  · exact List.mem_append_right _ hd
  · exact List.mem_append_left _ (hextra d hd)

/-- A round when the package that it takes out is an imported one. -/
lemma Progress.round (h : g.ReExportsImported p) {pre pre' post' extra' rest : List (PackageDecl ν)}
    {s s' : Search ν} {d : PackageDecl ν} (hs : Progress g p pre s)
    (hcons : s.tmpQueue = d :: rest) (hs' : g.searchStep s = some s')
    (hpre : ∀ x, x ∈ pre' ↔ x ∈ pre ∨ x = d) (himported : g.importedDecls p = pre' ++ post')
    (hrest : rest = post' ++ extra') (hextra : ∀ e ∈ extra', e ∈ pre) : Progress g p pre' s' := by
  obtain ⟨hqueue, hcollected, hdecls, hsane⟩ := searchStep_spec hcons hs'
  have hd : d ∈ pre' := (hpre d).mpr (Or.inr rfl)
  have hnewMacros : ∀ q ∈ g.reExportedDecls d, q.isMacroPackage = true → q ∈ pre' :=
    fun q hq hmac => h.mem himported hd hq hmac
  have hdirect : g.IsDirect p d := by
    refine ⟨d, ?_, Relation.ReflTransGen.refl⟩
    rw [himported]
    exact List.mem_append_left _ hd
  constructor
  · refine ⟨post', extra' ++ (g.reExportedDecls d).filter PackageDecl.isMacroPackage, himported,
      ?_, fun e he => ?_⟩
    · rw [hqueue, hrest, List.append_assoc]
    · rcases List.mem_append.mp he with he | he
      · exact (hpre e).mpr (Or.inl (hextra e he))
      · obtain ⟨he, hmac⟩ := List.mem_filter.mp he
        exact hnewMacros e he hmac
  · exact hsane hs.sane
  · intro x hx
    rw [hdecls]
    rcases (hcollected x).mp hx with (rfl | hx) | hx
    · by_cases hold : x ∈ s.collected
      · exact Or.inl (Or.inl (hs.answered x hold))
      · exact Or.inl (Or.inr ⟨rfl, hold⟩)
    · exact Or.inl (Or.inl (hs.answered x hx))
    · by_cases hold : x = d ∨ x ∈ s.collected
      · rcases hold with rfl | hold
        · by_cases hold : x ∈ s.collected
          · exact Or.inl (Or.inl (hs.answered x hold))
          · exact Or.inl (Or.inr ⟨rfl, hold⟩)
        · exact Or.inl (Or.inl (hs.answered x hold))
      · -- A macro package among the new ones was taken out before.
        refine Or.inr ⟨hx, Bool.eq_false_iff.mpr fun hmac => hold ?_, hold⟩
        rcases (hpre x).mp (hnewMacros x hx hmac) with hx | hx
        · exact Or.inr (hs.visited x hx)
        · exact Or.inl hx
  · intro x hx
    rw [hcollected]
    rcases (hpre x).mp hx with hx | hx
    · exact Or.inl (Or.inr (hs.visited x hx))
    · exact Or.inl (Or.inl hx)
  · intro x hx hmac
    rcases (hcollected x).mp hx with (rfl | hx) | hx
    · exact hd
    · exact (hpre x).mpr (Or.inl (hs.macros x hx hmac))
    · exact hnewMacros x hx hmac
  · intro e he q hq
    rw [hcollected]
    rcases (hpre e).mp he with he | rfl
    · exact Or.inl (Or.inr (hs.closed e he q hq))
    · exact Or.inr hq
  · intro x hx
    rcases (hcollected x).mp hx with (rfl | hx) | hx
    · exact hdirect
    · exact hs.direct x hx
    · exact hdirect.tail hx

/-- A round takes the next imported package out, or one that was taken out before. -/
lemma Progress.step (h : g.ReExportsImported p) {pre : List (PackageDecl ν)} {s s' : Search ν}
    (hs : Progress g p pre s) {d : PackageDecl ν} {rest : List (PackageDecl ν)}
    (hcons : s.tmpQueue = d :: rest) (hs' : g.searchStep s = some s') :
    ∃ pre', Progress g p pre' s' := by
  obtain ⟨post, extra, himported, hqueue, hextra⟩ := hs.queue
  rw [hcons] at hqueue
  cases post with
  | nil =>
    rw [List.nil_append] at hqueue
    have hd : d ∈ pre := hextra d (hqueue ▸ List.mem_cons_self)
    refine ⟨pre, hs.round h hcons hs' (fun x => ?_) himported
      (List.nil_append _).symm fun e he => hextra e (hqueue ▸ List.mem_cons_of_mem d he)⟩
    exact ⟨Or.inl, fun hx => hx.elim id fun hx => hx ▸ hd⟩
  | cons d' post =>
    obtain ⟨rfl, rfl⟩ := List.cons.inj hqueue
    refine ⟨pre ++ [d], hs.round h hcons hs' (fun x => ?_) ?_ rfl hextra⟩
    · rw [List.mem_append, List.mem_singleton]
    · rw [himported, List.append_assoc, List.singleton_append]

/-- A search that ends has the right answer. -/
lemma Progress.answer {pre : List (PackageDecl ν)} {s : Search ν} (hs : Progress g p pre s)
    (hdone : s.tmpQueue = []) (x : PackageDecl ν) : x ∈ s.packageDecls ↔ g.IsDirect p x := by
  obtain ⟨post, extra, himported, hqueue, -⟩ := hs.queue
  rw [hdone] at hqueue
  obtain ⟨rfl, -⟩ := List.append_eq_nil_iff.mp hqueue.symm
  rw [List.append_nil] at himported
  refine ⟨fun hx => hs.direct x (hs.sane.marked x hx), fun hx => hs.answered x ?_⟩
  obtain ⟨e, he, hreach⟩ := hx
  rw [himported] at he
  -- Along the re-exports, the packages that are marked are closed.
  have hreached : x ∈ s.collected ∧ (x ∈ pre ∨ x.isMacroPackage = false) := by
    induction hreach with
    | refl => exact ⟨hs.visited e he, Or.inl he⟩
    | tail _ hstep ih =>
      obtain ⟨hcollected, hpre | hmac⟩ := ih
      · refine ⟨hs.closed _ hpre _ hstep, ?_⟩
        exact Classical.or_iff_not_imp_right.mpr fun hmac =>
          hs.macros _ (hs.closed _ hpre _ hstep) (Bool.not_eq_false _ ▸ hmac)
      · rw [reExportedDecls, if_pos hmac] at hstep
        exact absurd hstep List.not_mem_nil
  exact hreached.1

/-- The macro packages that an imported package re-exports have smaller places. -/
lemma ReExportsImported.idxOf_lt (h : g.ReExportsImported p) {d q : PackageDecl ν}
    (hd : d ∈ g.importedDecls p) (hq : q ∈ g.reExportedDecls d) (hmac : q.isMacroPackage = true) :
    (g.importedDecls p).idxOf q < (g.importedDecls p).idxOf d := by
  obtain ⟨pre, post, hsplit⟩ := List.append_of_mem hd
  have hbefore : q ∈ pre := (mem_before_iff hsplit).mp (h d hd q hq hmac)
  have hnotMem : d ∉ pre := fun hpre =>
    absurd ((mem_before_iff hsplit).mpr hpre).2 (lt_irrefl _)
  rw [hsplit, List.idxOf_append_of_mem hbefore, List.idxOf_append_of_notMem hnotMem,
    List.idxOf_cons_self, Nat.add_zero]
  exact List.idxOf_lt_length_of_mem hbefore

/-- The search ends when the macro packages are imported. -/
lemma exists_search (h : g.ReExportsImported p) :
    ∃ fuel s pre, DrainLoop.drain (fun s => s.tmpQueue.isEmpty) g.searchStep fuel
      ⟨[], ∅, g.importedDecls p⟩ = some s ∧ Progress g p pre s ∧ s.tmpQueue = [] := by
  -- Each package pays for the macro packages that it puts into the queue.
  obtain ⟨cost, hcost⟩ := DrainLoop.exists_cost
    (fun d => if d ∈ g.importedDecls p then
      (g.reExportedDecls d).filter PackageDecl.isMacroPackage else [])
    (fun d => (g.importedDecls p).idxOf d) (by
      intro d q hq
      split_ifs at hq with hd
      · obtain ⟨hq, hmac⟩ := List.mem_filter.mp hq
        exact h.idxOf_lt hd hq hmac
      · exact absurd hq List.not_mem_nil)
  have hends : ∃ fuel s, DrainLoop.drain (fun s => s.tmpQueue.isEmpty) g.searchStep fuel
      ⟨[], ∅, g.importedDecls p⟩ = some s ∧ (∃ pre, Progress g p pre s) ∧ s.tmpQueue.isEmpty :=
    DrainLoop.exists_drain (I := fun s => ∃ pre, Progress g p pre s)
      (fun s => (s.tmpQueue.map cost).sum)
      (by
        rintro s ⟨pre, hs⟩ hdone
        obtain ⟨d, rest, hcons⟩ := List.exists_cons_of_ne_nil fun hnil =>
          Bool.false_ne_true (hdone.symm.trans (List.isEmpty_iff.mpr hnil))
        have hstep := searchStep_cons (g := g) hcons
        refine ⟨_, hstep, hs.step h hcons hstep, ?_⟩
        have hd : d ∈ g.importedDecls p := hs.queue_imported d (hcons ▸ List.mem_cons_self)
        have hpay := hcost d
        rw [if_pos hd] at hpay
        rw [(searchStep_spec hcons hstep).1, hcons, List.map_append, List.sum_append, List.map_cons,
          List.sum_cons]
        omega)
      ⟨[], Progress.start⟩
  obtain ⟨fuel, s, hdrain, ⟨pre, hprogress⟩, hdone⟩ := hends
  exact ⟨fuel, s, pre, hdrain, hprogress, List.isEmpty_iff.mp hdone⟩

/-! ## When a macro package is not imported before -/

/-- A macro package that re-exports itself stays in the queue, and so the search never ends. -/
lemma drain_eq_none_of_self {d : PackageDecl ν} (hself : d ∈ g.reExportedDecls d)
    (hmac : d.isMacroPackage = true) (fuel : ℕ) {s : Search ν} (hs : d ∈ s.tmpQueue) :
    DrainLoop.drain (fun s => s.tmpQueue.isEmpty) g.searchStep fuel s = none := by
  refine DrainLoop.drain_eq_none (I := fun s => d ∈ s.tmpQueue) ?_ ?_ fuel hs
  · intro s s' hd hs'
    obtain ⟨e, rest, hcons⟩ := List.exists_cons_of_ne_nil (List.ne_nil_of_mem hd)
    rw [(searchStep_spec hcons hs').1]
    rw [hcons] at hd
    rcases List.mem_cons.mp hd with rfl | hd
    · exact List.mem_append_right _ (List.mem_filter.mpr ⟨hself, hmac⟩)
    · exact List.mem_append_left _ hd
  · intro s hd
    rw [List.isEmpty_eq_false_iff]
    exact List.ne_nil_of_mem hd

/-- The macro package `q` will not be added: it is marked, or `d` marks it before it is taken out
of the queue. -/
structure Skipped (q d : PackageDecl ν) (s : Search ν) : Prop where
  missing : q ∉ s.packageDecls
  skipped : q ∈ s.collected ∨ ∃ pre rest, s.tmpQueue = pre ++ d :: rest ∧ q ∉ pre

lemma Skipped.step {q d : PackageDecl ν} (hq : q ∈ g.reExportedDecls d)
    (hmac : q.isMacroPackage = true) (hne : q ≠ d) {s s' : Search ν} (hs : Skipped q d s)
    {e : PackageDecl ν} {queue : List (PackageDecl ν)} (hcons : s.tmpQueue = e :: queue)
    (hs' : g.searchStep s = some s') : Skipped q d s' := by
  obtain ⟨hqueue, hcollected, hdecls, -⟩ := searchStep_spec hcons hs'
  -- Only the package taken out can be a new macro package of the answer.
  have hmissing : ¬(q = e ∧ e ∉ s.collected) → q ∉ s'.packageDecls := by
    intro hnew hmem
    rcases (hdecls q).mp hmem with (hold | hold) | ⟨-, hplain, -⟩
    · exact hs.missing hold
    · exact hnew hold
    · exact Bool.false_ne_true (hplain.symm.trans hmac)
  rcases hs.skipped with hmarked | ⟨pre, rest, hsplit, hnotMem⟩
  · refine ⟨hmissing fun h => h.2 (h.1 ▸ hmarked), Or.inl ?_⟩
    exact (hcollected q).mpr (Or.inl (Or.inr hmarked))
  · rw [hcons] at hsplit
    cases pre with
    | nil =>
      obtain ⟨rfl, rfl⟩ := List.cons.inj hsplit
      exact ⟨hmissing fun h => hne h.1, Or.inl ((hcollected q).mpr (Or.inr hq))⟩
    | cons e' pre =>
      obtain ⟨rfl, rfl⟩ := List.cons.inj hsplit
      refine ⟨hmissing fun h => hnotMem (h.1 ▸ List.mem_cons_self), Or.inr ⟨pre, rest ++
        (g.reExportedDecls e).filter PackageDecl.isMacroPackage, ?_, fun hpre =>
          hnotMem (List.mem_cons_of_mem e hpre)⟩⟩
      rw [hqueue, List.append_eq, List.append_assoc, List.cons_append]

/-- The macro packages that an imported package re-exports come before it when the answer is
right. -/
lemma reExportsImported_of_answersDirect (h : g.AnswersDirect p) : g.ReExportsImported p := by
  intro d hd q hq hmac
  obtain ⟨fuel, decls, hsearch, -, hdecls⟩ := h
  obtain ⟨s, hdrain, rfl⟩ := Option.map_eq_some_iff.mp hsearch
  obtain ⟨pre, post, hsplit⟩ := List.append_of_mem hd
  refine (mem_before_iff hsplit).mpr ?_
  by_contra hpre
  by_cases hself : q = d
  · subst hself
    rw [drain_eq_none_of_self hq hmac fuel hd] at hdrain
    exact absurd hdrain (Option.some_ne_none s).symm
  · have hstart : Skipped q d ⟨[], ∅, g.importedDecls p⟩ :=
      ⟨List.not_mem_nil, Or.inr ⟨pre, post, hsplit, hpre⟩⟩
    obtain ⟨hskipped, -⟩ := DrainLoop.drain_keeps (I := Skipped q d) (by
      intro s s' hs hdone hs'
      obtain ⟨e, rest, hcons⟩ := List.exists_cons_of_ne_nil fun hnil =>
        Bool.false_ne_true (hdone.symm.trans (List.isEmpty_iff.mpr hnil))
      exact hs.step hq hmac hself hcons hs') hstart hdrain
    have hdirect : g.IsDirect p q := ⟨d, hd, Relation.ReflTransGen.single hq⟩
    exact hskipped.missing ((hdecls q).mpr hdirect)

/-! ## The query -/

variable (g p) in
/-- The search ends with the packages asked for exactly when each macro package that an imported
macro package re-exports is imported too and comes before it. -/
theorem answersDirect_iff : g.AnswersDirect p ↔ g.ReExportsImported p := by
  refine ⟨reExportsImported_of_answersDirect, fun h => ?_⟩
  obtain ⟨fuel, s, pre, hdrain, hprogress, hdone⟩ := exists_search h
  refine ⟨fuel, s.packageDecls, ?_, hprogress.sane.nodup, hprogress.answer hdone⟩
  rw [collectDirectDecls, hdrain, Option.map_some]

/-- A query answers with what a search finds. -/
lemma getDirectDependencyPackageDecls_spec (cache : DirectCache g) (decls : List (PackageDecl ν)) :
    (∃ fuel cache', g.getDirectDependencyPackageDecls fuel p cache = some (decls, cache')) ↔
      ∃ fuel, g.collectDirectDecls fuel p = some decls := by
  cases hfind : cache.cacheDirectDependencyPackageDecls.find? p with
  | some cached =>
    have hquery (fuel : ℕ) :
        g.getDirectDependencyPackageDecls fuel p cache = some (cached, cache) := by
      rw [getDirectDependencyPackageDecls, hfind]
    obtain ⟨fuel, hcached⟩ := cache.found p cached hfind
    constructor
    · rintro ⟨fuel', cache', h⟩
      rw [hquery] at h
      obtain ⟨rfl, -⟩ := Prod.mk.inj (Option.some.inj h)
      exact ⟨fuel, hcached⟩
    · rintro ⟨fuel', h⟩
      obtain rfl := collectDirectDecls_inj hcached h
      exact ⟨fuel, cache, hquery fuel⟩
  | none =>
    constructor
    · rintro ⟨fuel, cache', h⟩
      refine ⟨fuel, ?_⟩
      rw [getDirectDependencyPackageDecls, hfind] at h
      dsimp only at h
      split at h
      case h_1 found hfound =>
        rw [hfound, (Prod.mk.inj (Option.some.inj h)).1]
      case h_2 => exact absurd h (Option.some_ne_none _).symm
    · rintro ⟨fuel, h⟩
      refine ⟨fuel, cache.emplace p decls ⟨fuel, h⟩, ?_⟩
      rw [getDirectDependencyPackageDecls, hfind]
      dsimp only
      split
      case h_1 found hfound =>
        obtain rfl := Option.some.inj (hfound.symm.trans h)
        rfl
      case h_2 hnone => exact absurd (hnone.symm.trans h) (Option.some_ne_none _).symm

variable (g p) in
/-- A query ends with the packages asked for, after any other queries, exactly when each macro
package that an imported macro package re-exports is imported too and comes before it. -/
theorem answersQuery_iff (cache : DirectCache g) :
    g.AnswersQuery cache p ↔ g.ReExportsImported p := by
  rw [← answersDirect_iff]
  constructor
  · rintro ⟨fuel, decls, cache', hquery, hanswer⟩
    obtain ⟨fuel', hsearch⟩ :=
      (getDirectDependencyPackageDecls_spec cache decls).mp ⟨fuel, cache', hquery⟩
    exact ⟨fuel', decls, hsearch, hanswer⟩
  · rintro ⟨fuel, decls, hsearch, hanswer⟩
    obtain ⟨fuel', cache', hquery⟩ :=
      (getDirectDependencyPackageDecls_spec cache decls).mpr ⟨fuel, hsearch⟩
    exact ⟨fuel', decls, cache', hquery, hanswer⟩

/-- The declarations of three packages; the second and the third are macro packages. -/
def macroChainInfo (p : ℕ) : Option (PackageInfo (PackageDecl ℕ)) :=
  if p ≤ 2 then some ⟨false, some ⟨p, decide (1 ≤ p)⟩⟩ else none

/-- A package that imports a macro package, which re-exports another one. -/
def macroChain : ReExportGraph ℕ where
  cjoManager := ⟨macroChainInfo⟩
  dependencyMap := OrderedMap.empty.emplace 0 (OrderedSet.empty.insert 1)
  pkgReExportMap p := if p = 1 then [2] else []
  named p d h := by
    by_cases hp : p ≤ 2
    · have hinfo : macroChainInfo p = some ⟨false, some ⟨p, decide (1 ≤ p)⟩⟩ := if_pos hp
      simp only [CjoManager.getPackageDecl, hinfo] at h
      rw [← Option.some.inj h]
    · have hinfo : macroChainInfo p = none := if_neg hp
      simp only [CjoManager.getPackageDecl, hinfo] at h
      exact absurd h (Option.some_ne_none d).symm
  loaded p q hq := by
    by_cases hp : p = 1
    · rw [if_pos hp, List.mem_singleton] at hq
      rw [hq]
      rfl
    · rw [if_neg hp] at hq
      exact absurd hq List.not_mem_nil

/-- The re-exported macro package is missing from the answer. -/
theorem not_answersQuery_macroChain :
    ¬macroChain.AnswersQuery (DirectCache.empty macroChain) 0 := by
  rintro ⟨fuel, decls, cache', hquery, hanswer⟩
  obtain ⟨fuel', hsearch⟩ :=
    (getDirectDependencyPackageDecls_spec (DirectCache.empty macroChain) decls).mp
      ⟨fuel, cache', hquery⟩
  have himported : ReExportsImported macroChain 0 :=
    reExportsImported_of_answersDirect ⟨fuel', decls, hsearch, hanswer⟩
  have hmissing : (⟨2, true⟩ : PackageDecl ℕ) ∈ macroChain.importedDecls 0 :=
    (himported ⟨1, true⟩ (by decide) ⟨2, true⟩ (by decide) rfl).1
  exact absurd hmissing (by decide)

end ReExportGraph

end Cangjie.Modules
