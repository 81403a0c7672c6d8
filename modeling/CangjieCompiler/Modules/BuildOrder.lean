import CangjieCompiler.Modules.PackageManager
import Mathlib.Data.List.Perm.Subperm

/-!
# Correctness of the build order

The search is started from the first package and then from every package that is still unvisited.
Each start begins and ends with an empty stack, and after them all packages are in components.
The components come in an order in which no package imports one of a later component.
-/

namespace Cangjie.Modules

namespace PackageManager

variable {ν ι : Type} [LinearOrder ν]

/-! ## Starting the search -/

section Search

variable {deps : ν → List ν} {names : List ν} {depth : ℕ}

/-- What holds between two starts of the search. -/
structure Ready (deps : ν → List ν) (names : List ν) (s : Tarjan.State ν) : Prop where
  inv : Tarjan.Inv deps s
  keysIn : Tarjan.KeysIn names s
  st_eq : s.st = []

lemma Ready.start : Ready deps names (Tarjan.State.start : Tarjan.State ν) where
  inv := Tarjan.Inv.start
  keysIn _ _ h := absurd h (by simp [Tarjan.State.start, OrderedMap.find?, OrderedMap.empty,
    OrderedMap.lookup])
  st_eq := rfl

lemma unvisited_le_length (s : Tarjan.State ν) :
    Tarjan.unvisited names s ≤ names.length :=
  List.countP_le_length

/-- A run over packages visits them all and forgets no visit. -/
lemma visitUnvisited_spec (hV : ∀ u ∈ names, ∀ w ∈ deps u, w ∈ names)
    (hdepth : names.length ≤ depth) {us : List ν} (hus : ∀ u ∈ us, u ∈ names)
    {s : Tarjan.State ν} (hs : Ready deps names s) :
    ∃ s', visitUnvisited deps depth us s = some s' ∧ Ready deps names s' ∧
      (∀ u, s.idx u ≠ 0 → s'.idx u ≠ 0) ∧ ∀ u ∈ us, s'.idx u ≠ 0 := by
  induction us generalizing s with
  | nil => exact ⟨s, rfl, hs, fun _ hu => hu, fun _ hu => absurd hu List.not_mem_nil⟩
  | cons u us ih =>
    have hu : u ∈ names := hus u List.mem_cons_self
    have hrest : ∀ v ∈ us, v ∈ names := fun v hv => hus v (List.mem_cons_of_mem _ hv)
    have htouched : Tarjan.Inv deps (s.touch u) :=
      hs.inv.congr (s.idx_touch u) (fun _ => rfl) rfl rfl rfl
    have hnext : ∃ t, (if (s.touch u).idx u = 0 then Tarjan.visit deps depth u (s.touch u)
        else some (s.touch u)) = some t ∧ Ready deps names t ∧
          (∀ v, s.idx v ≠ 0 → t.idx v ≠ 0) ∧ t.idx u ≠ 0 := by
      by_cases hidx : s.idx u = 0
      · rw [if_pos ((s.idx_touch u u).trans hidx)]
        obtain ⟨t, hrun, hinv, hkeys, hst, hvisited, hold⟩ := Tarjan.visit_of_empty hV hu htouched
          ((s.idx_touch u u).trans hidx) (Tarjan.keysInBut_touch hs.keysIn hu) hs.st_eq
          ((unvisited_le_length _).trans hdepth)
        refine ⟨t, hrun, ⟨hinv, hkeys, hst⟩, fun v hv => hold v ?_, hvisited⟩
        rw [s.idx_touch]
        exact hv
      · have hidx' : (s.touch u).idx u ≠ 0 := by rw [s.idx_touch]; exact hidx
        rw [if_neg hidx']
        refine ⟨s.touch u, rfl, ⟨htouched, Tarjan.keysIn_touch hs.keysIn hidx, hs.st_eq⟩, ?_, hidx'⟩
        intro v hv
        rw [s.idx_touch]
        exact hv
    obtain ⟨t, ht, hready, hold, hvisited⟩ := hnext
    obtain ⟨s', hrun, hready', hold', hvisited'⟩ := ih hrest hready
    refine ⟨s', ?_, hready', fun v hv => hold' v (hold v hv), fun v hv => ?_⟩
    · rw [visitUnvisited, ht, Option.bind_some, hrun]
    · rcases List.mem_cons.mp hv with rfl | hv
      · exact hold' v hvisited
      · exact hvisited' v hv

lemma exists_find?_of_idx {s : Tarjan.State ν} {u : ν} (h : s.idx u ≠ 0) :
    ∃ i, s.indices.find? u = some i := by
  rw [Tarjan.State.idx, OrderedMap.valueD] at h
  cases hfind : s.indices.find? u with
  | none => exact absurd (by rw [hfind]; rfl) h
  | some i => exact ⟨i, rfl⟩

/-- The loop ends when all packages are visited. -/
lemma visitAll_of_visited (hnodup : names.Nodup) {s : Tarjan.State ν}
    (hall : ∀ u ∈ names, s.idx u ≠ 0) (n : ℕ) : visitAll deps names depth (n + 1) s = some s := by
  have hle : names.length ≤ s.indices.size := by
    have hkeys : names ⊆ s.indices.entries.map Prod.fst :=
      fun u hu => s.indices.mem_keys_iff.mpr (exists_find?_of_idx (hall u hu))
    have hlength := hnodup.length_le_of_subset hkeys
    rw [List.length_map] at hlength
    exact hlength
  rw [visitAll, if_neg hle.not_gt]

/-- When there are as many indices as packages, all packages are visited. -/
lemma visited_of_size {s : Tarjan.State ν} (hs : Ready deps names s)
    (hsize : names.length ≤ s.indices.size) : ∀ u ∈ names, s.idx u ≠ 0 := by
  have hkeys : s.indices.entries.map Prod.fst ⊆ names := by
    intro u hu
    obtain ⟨i, hi⟩ := s.indices.mem_keys_iff.mp hu
    exact (hs.keysIn u i hi).2
  have hlength : names.length ≤ (s.indices.entries.map Prod.fst).length := by
    rw [List.length_map]
    exact hsize
  have hperm := (List.Nodup.subperm s.indices.nodup_keys hkeys).perm_of_length_le hlength
  intro u hu
  obtain ⟨i, hi⟩ := s.indices.mem_keys_iff.mp (hperm.mem_iff.mpr hu)
  rw [Tarjan.State.idx, OrderedMap.valueD, hi]
  exact (hs.keysIn u i hi).1

/-- Once a package has been visited, one run over all packages is enough. -/
lemma visitAll_of_nonempty (hV : ∀ u ∈ names, ∀ w ∈ deps u, w ∈ names) (hnodup : names.Nodup)
    (hdepth : names.length ≤ depth) {s : Tarjan.State ν} (hs : Ready deps names s)
    (hne : s.indices.entries.isEmpty = false) (n : ℕ) :
    ∃ s', visitAll deps names depth (n + 2) s = some s' ∧ Ready deps names s' ∧
      ∀ u ∈ names, s'.idx u ≠ 0 := by
  by_cases hsize : s.indices.size < names.length
  · obtain ⟨s', hrun, hs', -, hall⟩ := visitUnvisited_spec hV hdepth (fun _ hu => hu) hs
    refine ⟨s', ?_, hs', hall⟩
    rw [visitAll, if_pos hsize, hne, if_neg Bool.false_ne_true, hrun, Option.bind_some]
    exact visitAll_of_visited hnodup hall n
  · have hall := visited_of_size hs (not_lt.mp hsize)
    exact ⟨s, visitAll_of_visited hnodup hall (n + 1), hs, hall⟩

/-- Every package is visited: the first one, and then those that are left. -/
theorem visitAll_spec (hV : ∀ u ∈ names, ∀ w ∈ deps u, w ∈ names) (hnodup : names.Nodup)
    (hdepth : names.length ≤ depth) (n : ℕ) (hn : names.length ≤ n) :
    ∃ s', visitAll deps names depth (n + 2) Tarjan.State.start = some s' ∧
      Ready deps names s' ∧ ∀ u ∈ names, s'.idx u ≠ 0 := by
  cases hnames : names with
  | nil =>
    refine ⟨Tarjan.State.start, ?_, Ready.start, fun _ hu => absurd hu List.not_mem_nil⟩
    exact visitAll_of_visited List.nodup_nil (fun _ hu => absurd hu List.not_mem_nil) (n + 1)
  | cons u us =>
    have hu : u ∈ names := hnames ▸ List.mem_cons_self
    have hlength : 0 < names.length := List.length_pos_of_mem hu
    obtain ⟨k, rfl⟩ := Nat.exists_eq_add_of_lt (hlength.trans_le hn)
    have hkeys : Tarjan.KeysInBut names u (Tarjan.State.start : Tarjan.State ν) :=
      fun v i h => absurd h (by simp [Tarjan.State.start, OrderedMap.find?, OrderedMap.empty,
        OrderedMap.lookup])
    obtain ⟨t, hrun, hinv, hkeys', hst, hvisited, -⟩ := Tarjan.visit_of_empty hV hu
      Tarjan.Inv.start rfl hkeys rfl ((unvisited_le_length _).trans hdepth)
    have hne : t.indices.entries.isEmpty = false := by
      obtain ⟨i, hi⟩ := exists_find?_of_idx hvisited
      have hmem := t.indices.find?_eq_some_iff.mp hi
      cases hentries : t.indices.entries with
      | nil => exact absurd (hentries ▸ hmem) List.not_mem_nil
      | cons _ _ => rfl
    obtain ⟨s', hrest, hs', hall⟩ :=
      visitAll_of_nonempty hV hnodup hdepth ⟨hinv, hkeys', hst⟩ hne (0 + k)
    rw [← hnames]
    refine ⟨s', ?_, hs', hall⟩
    have hstart : (Tarjan.State.start : Tarjan.State ν).indices.size < names.length := hlength
    have hempty : (Tarjan.State.start : Tarjan.State ν).indices.entries.isEmpty = true := rfl
    have hhead : names.head? = some u := by
      rw [hnames]
      rfl
    rw [visitAll, if_pos hstart, hempty, if_pos rfl, hhead, Option.bind_some, hrun,
      Option.bind_some]
    exact hrest

end Search

/-! ## The new order of the packages -/

section Permuted

variable {pkgs : List (Package ι ν)}

/-- The map from the names of packages to the packages. -/
def sortPackageMap (pkgs : List (Package ι ν)) : OrderedMap ν (Package ι ν) :=
  pkgs.foldl (fun h pkg => h.assign pkg.fullPackageName pkg) OrderedMap.empty

lemma find?_foldl_assign_of_notMem {p : ν} (h : p ∉ pkgs.map Package.fullPackageName)
    (m : OrderedMap ν (Package ι ν)) :
    (pkgs.foldl (fun h pkg => h.assign pkg.fullPackageName pkg) m).find? p = m.find? p := by
  induction pkgs generalizing m with
  | nil => rfl
  | cons pkg pkgs ih =>
    rw [List.map_cons, List.mem_cons, not_or] at h
    rw [List.foldl_cons, ih h.2, OrderedMap.find?_assign, if_neg (Ne.symm h.1)]

lemma find?_foldl_assign (hnodup : (pkgs.map Package.fullPackageName).Nodup)
    {pkg : Package ι ν} (hpkg : pkg ∈ pkgs) (m : OrderedMap ν (Package ι ν)) :
    (pkgs.foldl (fun h pkg => h.assign pkg.fullPackageName pkg) m).find? pkg.fullPackageName =
      some pkg := by
  induction pkgs generalizing m with
  | nil => exact absurd hpkg List.not_mem_nil
  | cons pkg' pkgs ih =>
    obtain ⟨hnot, hnodup'⟩ := List.nodup_cons.mp hnodup
    rw [List.foldl_cons]
    rcases List.mem_cons.mp hpkg with rfl | htail
    · rw [find?_foldl_assign_of_notMem hnot, OrderedMap.find?_assign, if_pos rfl]
    · exact ih hnodup' htail _

/-- Packages with distinct names are found by their names. -/
lemma map_find?_sortPackageMap (hnodup : (pkgs.map Package.fullPackageName).Nodup) :
    (pkgs.map Package.fullPackageName).map (sortPackageMap pkgs).find? = pkgs.map some := by
  rw [List.map_map]
  exact List.map_congr_left fun pkg hpkg => find?_foldl_assign hnodup hpkg _

/-- Names in a new order are those of the packages in this order. -/
lemma exists_perm_of_names (hnodup : (pkgs.map Package.fullPackageName).Nodup) {names : List ν}
    (h : names.Perm (pkgs.map Package.fullPackageName)) :
    ∃ qs : List (Package ι ν), names.map (sortPackageMap pkgs).find? = qs.map some ∧
      qs.Perm pkgs ∧ qs.map Package.fullPackageName = names := by
  have hfind : ∀ p ∈ names, ∃ pkg, (sortPackageMap pkgs).find? p = some pkg ∧
      pkg.fullPackageName = p := by
    intro p hp
    obtain ⟨pkg, hpkg, rfl⟩ := List.mem_map.mp (h.mem_iff.mp hp)
    exact ⟨pkg, find?_foldl_assign hnodup hpkg _, rfl⟩
  have hlist : ∃ qs : List (Package ι ν), names.map (sortPackageMap pkgs).find? = qs.map some ∧
      qs.map Package.fullPackageName = names := by
    clear h
    induction names with
    | nil => exact ⟨[], rfl, rfl⟩
    | cons p names ih =>
      obtain ⟨pkg, hpkg, hname⟩ := hfind p List.mem_cons_self
      obtain ⟨qs, hqs, hnames⟩ := ih fun r hr => hfind r (List.mem_cons_of_mem _ hr)
      exact ⟨pkg :: qs, by rw [List.map_cons, hpkg, hqs, List.map_cons],
        by rw [List.map_cons, hname, hnames]⟩
  obtain ⟨qs, hqs, hnames⟩ := hlist
  refine ⟨qs, hqs, ?_, hnames⟩
  have hperm := h.map (sortPackageMap pkgs).find?
  rw [hqs, map_find?_sortPackageMap hnodup] at hperm
  exact (List.map_perm_map_iff (Option.some_injective _)).mp hperm

end Permuted

/-! ## The build order -/

/-- What is asked of a build order for an import relation: the components partition the packages
and are the classes of packages that import each other, none imports from a later one, the packages
are put into the same order, and the result says that no two different packages import each
other. -/
structure BuildOrder (imports : ν → ν → Prop) (pkgs : List (Package ι ν)) (r : Resolved ι ν) :
    Prop where
  partition : r.orderedPackageInfos.flatten.Perm (pkgs.map Package.fullPackageName)
  nonempty : ∀ c ∈ r.orderedPackageInfos, c ≠ []
  components : ∀ c ∈ r.orderedPackageInfos, ∀ p ∈ c, ∀ q,
    q ∈ c ↔ Relation.ReflTransGen imports p q ∧ Relation.ReflTransGen imports q p
  ordered : r.orderedPackageInfos.Pairwise fun c d => ∀ p ∈ c, ∀ q ∈ d, ¬ imports p q
  permuted : ∃ qs : List (Package ι ν), r.pkgs = qs.map some ∧ qs.Perm pkgs ∧
    qs.map Package.fullPackageName = r.orderedPackageInfos.flatten
  ret_iff : r.ret = true ↔ ∀ p ∈ pkgs.map Package.fullPackageName,
    ∀ q ∈ pkgs.map Package.fullPackageName,
      Relation.TransGen imports p q → Relation.TransGen imports q p → p = q

variable {importManager : ImportManager ι ν} {pkgs : List (Package ι ν)}

lemma mem_depsOf (order : IterationOrder ν) {u w : ν} :
    w ∈ depsOf order (collectDeps importManager pkgs) u ↔ Imports importManager pkgs u w :=
  (order.perm_deps u _).mem_iff.trans (dep_collectDeps importManager u w)

lemma reach_depsOf (order : IterationOrder ν) :
    Tarjan.Reach (depsOf order (collectDeps importManager pkgs)) =
      Relation.ReflTransGen (Imports importManager pkgs) := by
  have hedge : (fun v w => w ∈ depsOf order (collectDeps importManager pkgs) v) =
      Imports importManager pkgs := by
    funext v w
    exact propext (mem_depsOf order)
  rw [Tarjan.Reach, hedge]

lemma names_perm (order : IterationOrder ν) (hnodup : (pkgs.map Package.fullPackageName).Nodup) :
    (order.packages ((collectDeps importManager pkgs).packageInfoMap.entries.map Prod.fst)).Perm
      (pkgs.map Package.fullPackageName) := by
  refine (order.perm_packages _).trans ?_
  refine (List.perm_ext_iff_of_nodup (OrderedMap.nodup_keys _) hnodup).mpr fun p => ?_
  rw [OrderedMap.mem_keys_iff]
  exact (collectDeps_spec importManager pkgs p p).1 p

omit [LinearOrder ν] in
/-- All components have one package iff no two different packages import each other. -/
lemma all_singleton_iff {infos : List (List ν)} {names : List ν}
    (hperm : infos.flatten.Perm names) (hnodup : names.Nodup) (hne : ∀ c ∈ infos, c ≠ [])
    {R : ν → ν → Prop} (hscc : ∀ c ∈ infos, ∀ p ∈ c, ∀ q, q ∈ c ↔
      Relation.ReflTransGen R p q ∧ Relation.ReflTransGen R q p) :
    (infos.all fun c => c.length = 1) = true ↔
      ∀ p ∈ names, ∀ q ∈ names, Relation.TransGen R p q → Relation.TransGen R q p → p = q := by
  rw [List.all_eq_true]
  constructor
  · intro hall p hp q _ hpq hqp
    obtain ⟨c, hc, hpc⟩ := List.mem_flatten.mp (hperm.mem_iff.mpr hp)
    have hqc : q ∈ c := (hscc c hc p hpc q).mpr ⟨hpq.to_reflTransGen, hqp.to_reflTransGen⟩
    obtain ⟨x, rfl⟩ := List.length_eq_one_iff.mp (of_decide_eq_true (hall c hc))
    rw [List.mem_singleton.mp hpc, List.mem_singleton.mp hqc]
  · intro hdistinct c hc
    have hcnodup : c.Nodup :=
      (List.nodup_flatten.mp (hperm.nodup_iff.mpr hnodup)).1 c hc
    cases c with
    | nil => exact absurd rfl (hne [] hc)
    | cons p c =>
      cases c with
      | nil => rfl
      | cons q c =>
        have hpq : p ≠ q := fun heq =>
          (List.nodup_cons.mp hcnodup).1 (heq ▸ List.mem_cons_self)
        have hq : q ∈ p :: q :: c := List.mem_cons_of_mem _ List.mem_cons_self
        obtain ⟨hto, hfrom⟩ := (hscc _ hc p List.mem_cons_self q).mp hq
        have hname : ∀ x ∈ p :: q :: c, x ∈ names :=
          fun x hx => hperm.mem_iff.mp (List.mem_flatten.mpr ⟨_, hc, hx⟩)
        refine absurd (hdistinct p (hname p List.mem_cons_self) q (hname q hq) ?_ ?_) hpq
        · exact (Relation.reflTransGen_iff_eq_or_transGen.mp hto).resolve_left hpq.symm
        · exact (Relation.reflTransGen_iff_eq_or_transGen.mp hfrom).resolve_left hpq

/-- The dependencies of packages with distinct names are resolved to a build order, whatever the
order of the containers. -/
theorem resolveDependence_spec (importManager : ImportManager ι ν) (order : IterationOrder ν)
    (pkgs : List (Package ι ν)) (hnodup : (pkgs.map Package.fullPackageName).Nodup) :
    ∃ r, resolveDependence importManager order pkgs = some r ∧
      BuildOrder (Imports importManager pkgs) pkgs r := by
  have hperm := @names_perm ν ι _ importManager pkgs order hnodup
  have hlength := hperm.length_eq
  rw [List.length_map] at hlength
  have hV : ∀ u ∈ order.packages
      ((collectDeps importManager pkgs).packageInfoMap.entries.map Prod.fst),
      ∀ w ∈ depsOf order (collectDeps importManager pkgs) u, w ∈ order.packages
        ((collectDeps importManager pkgs).packageInfoMap.entries.map Prod.fst) := by
    intro u _ w hw
    obtain ⟨_, _, _, _, _, _, _, _, _, _, _, hkey⟩ := (mem_depsOf order).mp hw
    exact hperm.mem_iff.mpr hkey
  obtain ⟨s, hrun, hs, hall⟩ :=
    visitAll_spec hV (hperm.nodup_iff.mpr hnodup) hlength.le pkgs.length hlength.le
  have hflatten : s.components.flatten.Perm (pkgs.map Package.fullPackageName) := by
    refine List.Perm.trans ?_ hperm
    refine (List.perm_ext_iff_of_nodup ?_ (hperm.nodup_iff.mpr hnodup)).mpr fun u => ?_
    · exact (List.nodup_append.mp hs.inv.nodup).2.1
    · constructor
      · intro hu
        have hvisited := (hs.inv.visited_iff u).mpr (Or.inr hu)
        obtain ⟨i, hi⟩ := exists_find?_of_idx hvisited
        exact (hs.keysIn u i hi).2
      · intro hu
        have hor := (hs.inv.visited_iff u).mp (hall u hu)
        rw [hs.st_eq] at hor
        exact hor.resolve_left List.not_mem_nil
  have hscc : ∀ c ∈ s.components, ∀ p ∈ c, ∀ q, q ∈ c ↔
      Relation.ReflTransGen (Imports importManager pkgs) p q ∧
        Relation.ReflTransGen (Imports importManager pkgs) q p := by
    intro c hc p hp q
    rw [← reach_depsOf order]
    exact (hs.inv.scc c hc).2 p hp q
  have hne : ∀ c ∈ s.components, c ≠ [] := fun c hc => (hs.inv.scc c hc).1
  obtain ⟨qs, hqs, hqsperm, hnames⟩ := exists_perm_of_names hnodup hflatten
  have hdrop : pkgs.drop s.components.flatten.length = [] := by
    rw [List.drop_eq_nil_iff, hflatten.length_eq, List.length_map]
  rw [resolveDependence]
  dsimp only
  rw [hrun, Option.map_some]
  refine ⟨_, rfl, hflatten, hne, hscc, ?_, ⟨qs, ?_, hqsperm, hnames⟩, ?_⟩
  · exact hs.inv.ordered.imp fun h p hp q hq himports =>
      h p hp q hq ((mem_depsOf order).mpr himports)
  · dsimp only
    rw [hdrop, List.map_nil, List.append_nil]
    exact hqs
  · exact all_singleton_iff hflatten hnodup hne hscc

/-! ## Imports of foreign packages -/

/-- The containers run over in the order of their names. -/
def inNameOrder : IterationOrder String where
  packages l := l
  deps _ l := l
  perm_packages := List.Perm.refl
  perm_deps _ := List.Perm.refl

/-- A program and a library that it imports. -/
def appAndLib : List (Package String String) := [⟨"app", [["lib"]]⟩, ⟨"lib", [[]]⟩]

/-- The package found for the import of the library, which may be a foreign one. -/
def libManager (toolAdd : Bool) : ImportManager String String where
  getSrcPackage it := if it = "lib" then some ⟨"lib", toolAdd⟩ else none

/-- The library is built before the program. -/
theorem resolveDependence_appAndLib :
    (resolveDependence (libManager false) inNameOrder appAndLib).map
        (fun r => r.orderedPackageInfos) = some [["lib"], ["app"]] ∧
      ∃ r, resolveDependence (libManager false) inNameOrder appAndLib = some r ∧
        BuildOrder (Imports (libManager false) appAndLib) appAndLib r :=
  ⟨by decide, resolveDependence_spec (libManager false) inNameOrder appAndLib (by decide)⟩

/-- An import of a foreign library does not make it come first. -/
theorem not_buildOrder_foreign :
    ¬ ∃ r, resolveDependence (libManager true) inNameOrder appAndLib = some r ∧
      BuildOrder (ImportsAny (libManager true) appAndLib) appAndLib r := by
  rintro ⟨r, hrun, hbuild⟩
  have hinfos : (resolveDependence (libManager true) inNameOrder appAndLib).map
      (fun r => r.orderedPackageInfos) = some [["app"], ["lib"]] := by decide
  rw [hrun, Option.map_some] at hinfos
  have hordered := hbuild.ordered
  rw [Option.some.inj hinfos] at hordered
  have himports : ImportsAny (libManager true) appAndLib "app" "lib" :=
    ⟨_, List.mem_cons_self, rfl, _, List.mem_cons_self, _, List.mem_cons_self, _, rfl, rfl,
      by decide⟩
  have hnot := (List.pairwise_cons.mp hordered).1 ["lib"] List.mem_cons_self
  exact hnot "app" List.mem_cons_self "lib" List.mem_cons_self himports

end PackageManager

end Cangjie.Modules
