import CangjieCompiler.Foundations.OrderedSet
import CangjieCompiler.Foundations.StateInvariant
import CangjieCompiler.Foundations.TarjanCorrect
import Mathlib.Data.String.Basic

/-!
# The build order of packages

The imports of the packages to be compiled are collected into a graph, its strongly connected
components are found by depth-first search, and the packages are put into the order of the
components.

The graph is kept in hash containers.  In which order they are run over is unspecified, and is a
parameter here.
-/

namespace Cangjie.Modules

variable {ν ι : Type} [LinearOrder ν]

/-- A package that was found for an import; `toolAdd` is its attribute `TOOL_ADD`. -/
structure SrcPackage (ν : Type) where
  fullPackageName : ν
  toolAdd : Bool

/-- The package found for an import, if there is one. -/
structure ImportManager (ι ν : Type) where
  getSrcPackage : ι → Option (SrcPackage ν)

/-- A package with the imports of its files. -/
structure Package (ι ν : Type) where
  fullPackageName : ν
  files : List (List ι)

/-- The orders in which the map of packages and the set of dependencies of each package are run
over. -/
structure IterationOrder (ν : Type) where
  packages : List ν → List ν
  deps : ν → List ν → List ν
  perm_packages : ∀ l, (packages l).Perm l
  perm_deps : ∀ u l, (deps u l).Perm l

/-- The dependencies of the packages to be compiled, and of these on other packages. -/
structure PackageMaps (ν : Type) [LinearOrder ν] where
  packageInfoMap : OrderedMap ν (List ν)
  packageToOtherSccMap : OrderedMap ν (OrderedSet ν)

namespace PackageManager

/-! ## Collecting the dependencies -/

variable (importManager : ImportManager ι ν)

/-- A dependency put into a set. -/
def insertDep (v : ν) (deps : List ν) : List ν := if v ∈ deps then deps else deps ++ [v]

/-- What is done with one import of a package. -/
def collectDep (pkg : ν) (m : PackageMaps ν) (it : ι) : PackageMaps ν :=
  match importManager.getSrcPackage it with
  | none => m
  | some importPkg =>
    if importPkg.toolAdd then m
    else
      match m.packageInfoMap.find? importPkg.fullPackageName with
      | some _ =>
        { m with
          packageInfoMap := m.packageInfoMap.modify pkg (insertDep importPkg.fullPackageName) }
      | none =>
        { m with
          packageToOtherSccMap :=
            (m.packageToOtherSccMap.emplace pkg OrderedSet.empty).modify pkg
              fun s => s.insert importPkg.fullPackageName }

def collectDepsInFile (pkg : ν) (m : PackageMaps ν) (imports : List ι) : PackageMaps ν :=
  imports.foldl (collectDep importManager pkg) m

def collectDeps (pkgs : List (Package ι ν)) : PackageMaps ν :=
  let packageInfoMap := pkgs.foldl (fun m pkg => m.emplace pkg.fullPackageName []) OrderedMap.empty
  pkgs.foldl (fun m pkg => pkg.files.foldl (collectDepsInFile importManager pkg.fullPackageName) m)
    ⟨packageInfoMap, OrderedMap.empty⟩

/-! ## The order of the components -/

/-- The dependencies of a package in the order of its set. -/
def depsOf (order : IterationOrder ν) (m : PackageMaps ν) (u : ν) : List ν :=
  order.deps u (m.packageInfoMap.valueD u [])

/-- One run over the map of packages: each package that was not visited before is visited. -/
def visitUnvisited (deps : ν → List ν) (depth : ℕ) :
    List ν → Tarjan.State ν → Option (Tarjan.State ν)
  | [], s => some s
  | u :: us, s =>
    let s := s.touch u
    (if s.idx u = 0 then Tarjan.visit deps depth u s else some s).bind (visitUnvisited deps depth us)

/-- The loop until every package has an index. -/
def visitAll (deps : ν → List ν) (names : List ν) (depth : ℕ) :
    ℕ → Tarjan.State ν → Option (Tarjan.State ν)
  | 0, _ => none
  | n + 1, s =>
    if s.indices.size < names.length then
      (if s.indices.entries.isEmpty then
        names.head?.bind fun u => Tarjan.visit deps depth u s
      else visitUnvisited deps depth names s).bind (visitAll deps names depth n)
    else some s

/-- What `ResolveDependence` leaves behind: its result, the packages in their new order, and the
data of the manager.  A package that is not found is null. -/
structure Resolved (ι ν : Type) [LinearOrder ν] where
  ret : Bool
  pkgs : List (Option (Package ι ν))
  orderedPackageInfos : List (List ν)
  maps : PackageMaps ν

def resolveDependence (order : IterationOrder ν) (pkgs : List (Package ι ν)) :
    Option (Resolved ι ν) :=
  let m := collectDeps importManager pkgs
  let names := order.packages (m.packageInfoMap.entries.map Prod.fst)
  (visitAll (depsOf order m) names pkgs.length (pkgs.length + 2) Tarjan.State.start).map fun s =>
    let sortPackageMap := pkgs.foldl (fun h pkg => h.assign pkg.fullPackageName pkg) OrderedMap.empty
    { ret := s.components.all fun c => c.length = 1
      pkgs := s.components.flatten.map sortPackageMap.find? ++
        (pkgs.drop s.components.flatten.length).map some
      orderedPackageInfos := s.components
      maps := m }

/-! ## What the dependencies are -/

/-- An import of a package names another one of those to be compiled. -/
def ImportsAny (pkgs : List (Package ι ν)) (p q : ν) : Prop :=
  ∃ pkg ∈ pkgs, pkg.fullPackageName = p ∧ ∃ file ∈ pkg.files, ∃ it ∈ file,
    ∃ importPkg, importManager.getSrcPackage it = some importPkg ∧
      importPkg.fullPackageName = q ∧ q ∈ pkgs.map Package.fullPackageName

/-- An import of a package names another one of those to be compiled, and one that was not added by
a tool. -/
def Imports (pkgs : List (Package ι ν)) (p q : ν) : Prop :=
  ∃ pkg ∈ pkgs, pkg.fullPackageName = p ∧ ∃ file ∈ pkg.files, ∃ it ∈ file,
    ∃ importPkg, importManager.getSrcPackage it = some importPkg ∧ importPkg.toolAdd = false ∧
      importPkg.fullPackageName = q ∧ q ∈ pkgs.map Package.fullPackageName

section Collected

/-- The map has exactly the given packages. -/
def HasKeys (keys : List ν) (m : PackageMaps ν) : Prop :=
  ∀ p, (∃ deps, m.packageInfoMap.find? p = some deps) ↔ p ∈ keys

/-- A package depends on another one. -/
def Dep (p q : ν) (m : PackageMaps ν) : Prop := q ∈ m.packageInfoMap.valueD p []

/-- An import resolves to one of the given packages. -/
def ResolvesTo (importManager : ImportManager ι ν) (keys : List ν) (it : ι) (q : ν) : Prop :=
  ∃ importPkg, importManager.getSrcPackage it = some importPkg ∧ importPkg.toolAdd = false ∧
    importPkg.fullPackageName = q ∧ q ∈ keys

lemma mem_insertDep {v w : ν} {deps : List ν} : w ∈ insertDep v deps ↔ w ∈ deps ∨ w = v := by
  rw [insertDep]
  split_ifs with h
  · exact ⟨Or.inl, fun hor => hor.elim id fun heq => heq ▸ h⟩
  · rw [List.mem_append, List.mem_singleton]

lemma collectDep_spec {keys : List ν} {pkg : ν} (hpkg : pkg ∈ keys) (p q : ν) (m : PackageMaps ν)
    (it : ι) (hm : HasKeys keys m) :
    HasKeys keys (collectDep importManager pkg m it) ∧
      (Dep p q (collectDep importManager pkg m it) ↔
        Dep p q m ∨ (pkg = p ∧ ResolvesTo importManager keys it q)) := by
  have hnone : ∀ {importPkg}, importManager.getSrcPackage it = some importPkg →
      (importPkg.toolAdd = true ∨ importPkg.fullPackageName ∉ keys) →
      ¬ ResolvesTo importManager keys it q := by
    rintro importPkg hsome hbad ⟨importPkg', hsome', htool, rfl, hkey⟩
    obtain rfl := Option.some.inj (hsome.symm.trans hsome')
    rcases hbad with htrue | hnot
    · exact absurd (htool.symm.trans htrue) (by simp)
    · exact hnot hkey
  rw [collectDep]
  cases hsome : importManager.getSrcPackage it with
  | none =>
    refine ⟨hm, (or_iff_left ?_).symm⟩
    rintro ⟨-, importPkg, hsome', -⟩
    exact absurd (hsome.symm.trans hsome') (by simp)
  | some importPkg =>
    dsimp only
    split_ifs with htool
    · exact ⟨hm, (or_iff_left fun h => hnone hsome (Or.inl htool) h.2).symm⟩
    · cases hfind : m.packageInfoMap.find? importPkg.fullPackageName with
      | none =>
        have hkey : importPkg.fullPackageName ∉ keys := fun hmem => by
          obtain ⟨deps, hdeps⟩ := (hm _).mpr hmem
          exact absurd (hfind.symm.trans hdeps) (by simp)
        exact ⟨hm, (or_iff_left fun h => hnone hsome (Or.inr hkey) h.2).symm⟩
      | some _ =>
        have hkey : importPkg.fullPackageName ∈ keys := (hm _).mp ⟨_, hfind⟩
        have hres : ResolvesTo importManager keys it q ↔ q = importPkg.fullPackageName := by
          constructor
          · rintro ⟨importPkg', hsome', -, rfl, -⟩
            rw [Option.some.inj (hsome.symm.trans hsome')]
          · rintro rfl
            exact ⟨importPkg, hsome, Bool.eq_false_iff.mpr htool, rfl, hkey⟩
        rw [hres]
        refine ⟨fun r => ?_, ?_⟩
        · refine Iff.trans ?_ (hm r)
          dsimp only
          rw [OrderedMap.find?_modify]
          split_ifs <;> simp
        · rw [Dep, Dep, OrderedMap.valueD, OrderedMap.valueD, OrderedMap.find?_modify]
          by_cases hp : p = pkg
          · obtain ⟨deps, hdeps⟩ := (hm pkg).mpr hpkg
            rw [if_pos hp, hp, hdeps, Option.map_some, Option.getD_some, Option.getD_some,
              mem_insertDep]
            simp
          · rw [if_neg hp]
            exact (or_iff_left fun h => hp h.1.symm).symm

lemma collectDepsInFile_spec {keys : List ν} {pkg : ν} (hpkg : pkg ∈ keys) (p q : ν)
    (m : PackageMaps ν) (imports : List ι) (hm : HasKeys keys m) :
    HasKeys keys (collectDepsInFile importManager pkg m imports) ∧
      (Dep p q (collectDepsInFile importManager pkg m imports) ↔
        Dep p q m ∨ ∃ it ∈ imports, pkg = p ∧ ResolvesTo importManager keys it q) :=
  foldl_iff (fun m it _ hm => collectDep_spec importManager hpkg p q m it hm) hm

lemma collectDepsInPackage_spec {keys : List ν} {pkg : ν} (hpkg : pkg ∈ keys) (p q : ν)
    (m : PackageMaps ν) (files : List (List ι)) (hm : HasKeys keys m) :
    HasKeys keys (files.foldl (collectDepsInFile importManager pkg) m) ∧
      (Dep p q (files.foldl (collectDepsInFile importManager pkg) m) ↔
        Dep p q m ∨
          ∃ file ∈ files, ∃ it ∈ file, pkg = p ∧ ResolvesTo importManager keys it q) :=
  foldl_iff (fun m file _ hm => collectDepsInFile_spec importManager hpkg p q m file hm) hm

/-- Before any import is collected, the packages are there without dependencies. -/
lemma find?_foldl_emplace (pkgs : List (Package ι ν)) (p : ν) :
    let m : OrderedMap ν (List ν) :=
      pkgs.foldl (fun m pkg => m.emplace pkg.fullPackageName []) OrderedMap.empty
    (∀ deps, m.find? p = some deps → deps = []) ∧
      ((∃ deps, m.find? p = some deps) ↔ p ∈ pkgs.map Package.fullPackageName) := by
  have hstep : ∀ m : OrderedMap ν (List ν), ∀ pkg ∈ pkgs,
      (∀ deps, m.find? p = some deps → deps = []) →
      (∀ deps, (m.emplace pkg.fullPackageName []).find? p = some deps → deps = []) ∧
        ((∃ deps, (m.emplace pkg.fullPackageName []).find? p = some deps) ↔
          (∃ deps, m.find? p = some deps) ∨ pkg.fullPackageName = p) := by
    intro m pkg _ hm
    rw [OrderedMap.find?_emplace]
    by_cases heq : pkg.fullPackageName = p
    · rw [if_pos heq, heq]
      refine ⟨fun deps hdeps => ?_, iff_of_true ⟨_, rfl⟩ (Or.inr rfl)⟩
      obtain rfl := Option.some.inj hdeps
      cases hfind : m.find? p with
      | none => rfl
      | some deps => exact hm deps hfind
    · rw [if_neg heq]
      exact ⟨hm, (or_iff_left heq).symm⟩
  have hempty : (OrderedMap.empty : OrderedMap ν (List ν)).find? p = none := rfl
  obtain ⟨hdeps, hkeys⟩ :=
    foldl_iff (I := fun m : OrderedMap ν (List ν) => ∀ deps, m.find? p = some deps → deps = [])
      (Q := fun m => ∃ deps, m.find? p = some deps)
      (A := fun pkg : Package ι ν => pkg.fullPackageName = p)
      hstep (s := OrderedMap.empty)
      (fun deps h => absurd (hempty.symm.trans h) (by simp))
  refine ⟨hdeps, hkeys.trans ?_⟩
  rw [hempty, List.mem_map, or_iff_right (by simp)]

/-- The packages are those to be compiled, and their dependencies are the imports. -/
lemma collectDeps_spec (pkgs : List (Package ι ν)) (p q : ν) :
    HasKeys (pkgs.map Package.fullPackageName) (collectDeps importManager pkgs) ∧
      (Dep p q (collectDeps importManager pkgs) ↔ Imports importManager pkgs p q) := by
  obtain ⟨hdeps, -⟩ := find?_foldl_emplace pkgs p
  have hkeys : HasKeys (pkgs.map Package.fullPackageName) (⟨pkgs.foldl
      (fun m pkg => m.emplace pkg.fullPackageName []) OrderedMap.empty, OrderedMap.empty⟩ :
        PackageMaps ν) := fun r => (find?_foldl_emplace pkgs r).2
  have hnone : ¬ Dep p q (⟨pkgs.foldl
      (fun m pkg => m.emplace pkg.fullPackageName []) OrderedMap.empty, OrderedMap.empty⟩ :
        PackageMaps ν) := by
    intro hmem
    rw [Dep, OrderedMap.valueD] at hmem
    cases hfind : OrderedMap.find? _ p with
    | none => exact absurd (hfind ▸ hmem) List.not_mem_nil
    | some deps =>
      rw [hfind] at hmem
      exact absurd (hdeps deps hfind ▸ hmem) List.not_mem_nil
  obtain ⟨hI, hQ⟩ := foldl_iff (fun m pkg hpkg hm => collectDepsInPackage_spec importManager
    (List.mem_map_of_mem (f := Package.fullPackageName) hpkg) p q m pkg.files hm) hkeys
  refine ⟨hI, hQ.trans ?_⟩
  rw [or_iff_right hnone]
  constructor
  · rintro ⟨pkg, hpkg, file, hfile, it, hit, hname, hres⟩
    exact ⟨pkg, hpkg, hname, file, hfile, it, hit, hres⟩
  · rintro ⟨pkg, hpkg, hname, file, hfile, it, hit, hres⟩
    exact ⟨pkg, hpkg, file, hfile, it, hit, hname, hres⟩

/-- Starting from packages without dependencies, those collected are the imports. -/
theorem dep_collectDeps {pkgs : List (Package ι ν)} (p q : ν) :
    q ∈ (collectDeps importManager pkgs).packageInfoMap.valueD p [] ↔
      Imports importManager pkgs p q :=
  (collectDeps_spec importManager pkgs p q).2

end Collected

end PackageManager

end Cangjie.Modules
