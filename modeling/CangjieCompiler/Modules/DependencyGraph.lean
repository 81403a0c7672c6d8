import CangjieCompiler.Foundations.OrderedMap
import CangjieCompiler.Foundations.Reachability
import Mathlib.Data.Prod.Lex
import Mathlib.Data.String.Basic

/-!
# Dependency queries

The dependency graph answers which packages a package depends on, directly or through others, and
keeps every answer in a cache.  The names are cached under the package alone, after the packages
that only macros use were left out or not; the declarations are cached under the package and the
flag, but are computed from the names.

So the flag of the first query about a package decides all later answers about it.  An answer is
right exactly when that flag is the flag of the query, or when no package that makes a difference
can be reached.

The positions of the imports, which label the edges in the source, are left out.
-/

namespace Cangjie.Modules

variable {ν δ : Type} [LinearOrder ν]

/-- What the manager of the loaded packages knows about one of them. -/
structure PackageInfo (δ : Type) where
  onlyUsedByMacro : Bool
  pkgDecl : Option δ

/-- The manager of the loaded packages, by `GetPackageInfo`. -/
structure CjoManager (ν δ : Type) where
  getPackageInfo : ν → Option (PackageInfo δ)

namespace CjoManager

variable (cjoManager : CjoManager ν δ)

def isMacroRelatedPackageName (fullPackageName : ν) : Bool :=
  match cjoManager.getPackageInfo fullPackageName with
  | some info => info.onlyUsedByMacro
  | none => false

def getPackageDecl (fullPackageName : ν) : Option δ :=
  match cjoManager.getPackageInfo fullPackageName with
  | some info => info.pkgDecl
  | none => none

end CjoManager

/-- The import graph and the manager it asks about packages; no query changes them. -/
structure DependencyGraph (ν δ : Type) [LinearOrder ν] where
  cjoManager : CjoManager ν δ
  dependencyMap : OrderedMap ν (OrderedSet ν)

/-- The caches of the two queries. -/
structure QueryCaches (ν δ : Type) [LinearOrder ν] where
  cacheDependencyPackageDecls : OrderedMap (ν ×ₗ Bool) (List δ)
  cacheDependencyPackageNames : OrderedMap ν (OrderedSet ν)

/-- The caches before the first query. -/
def QueryCaches.empty : QueryCaches ν δ := ⟨OrderedMap.empty, OrderedMap.empty⟩

namespace DependencyGraph

/-! ## The queries -/

/-- The packages that a package imports. -/
def getEdges (g : DependencyGraph ν δ) (fullPackageName : ν) : List ν :=
  match g.dependencyMap.find? fullPackageName with
  | some edges => edges.elems
  | none => []

lemma getEdges_eq_nil (g : DependencyGraph ν δ) {p : ν}
    (h : p ∉ g.dependencyMap.entries.map Prod.fst) : g.getEdges p = [] := by
  rw [getEdges]
  cases hfind : g.dependencyMap.find? p with
  | none => rfl
  | some edges =>
    have hentry := (g.dependencyMap.find?_eq_some_iff).mp hfind
    exact absurd (List.mem_map.mpr ⟨_, hentry, rfl⟩) h

/-- The import graph, with edges from the packages that the map has. -/
def importGraph (g : DependencyGraph ν δ) : FiniteGraph ν where
  succs := g.getEdges
  sources := g.dependencyMap.entries.map Prod.fst
  nodup := g.dependencyMap.nodup_keys
  succs_eq_nil _ h := g.getEdges_eq_nil h

/-- The dependencies found by the depth-first search, less those left out by the flag. -/
def collectDependencyNames (g : DependencyGraph ν δ) (fullPackageName : ν)
    (includeMacroPkg : Bool) : OrderedSet ν :=
  (g.importGraph.reachable fullPackageName).filter fun it =>
    !(!includeMacroPkg && g.cjoManager.isMacroRelatedPackageName it)

def getAllDependencyPackageNames (g : DependencyGraph ν δ) (fullPackageName : ν)
    (includeMacroPkg : Bool) (caches : QueryCaches ν δ) : OrderedSet ν × QueryCaches ν δ :=
  match caches.cacheDependencyPackageNames.find? fullPackageName with
  | some packageNames => (packageNames, caches)
  | none =>
    let packageNames := g.collectDependencyNames fullPackageName includeMacroPkg
    (packageNames,
      { caches with
        cacheDependencyPackageNames :=
          caches.cacheDependencyPackageNames.emplace fullPackageName packageNames })

/-- The declarations of the named packages that have one, in the order of the names. -/
def packageDecls (g : DependencyGraph ν δ) (packageNames : OrderedSet ν) : List δ :=
  packageNames.elems.filterMap g.cjoManager.getPackageDecl

def getAllDependencyPackageDecls (g : DependencyGraph ν δ) (fullPackageName : ν)
    (includeMacroPkg : Bool) (caches : QueryCaches ν δ) : List δ × QueryCaches ν δ :=
  match caches.cacheDependencyPackageDecls.find? (toLex (fullPackageName, includeMacroPkg)) with
  | some packageDecls => (packageDecls, caches)
  | none =>
    let (packageNames, caches) :=
      g.getAllDependencyPackageNames fullPackageName includeMacroPkg caches
    let packageDecls := g.packageDecls packageNames
    (packageDecls,
      { caches with
        cacheDependencyPackageDecls :=
          caches.cacheDependencyPackageDecls.emplace (toLex (fullPackageName, includeMacroPkg))
            packageDecls })

/-! ## Sequences of queries -/

/-- A query about all dependencies of a package. -/
inductive Query (ν : Type) where
  | packageNames (fullPackageName : ν) (includeMacroPkg : Bool)
  | packageDecls (fullPackageName : ν) (includeMacroPkg : Bool)

namespace Query

def fullPackageName : Query ν → ν
  | packageNames p _ => p
  | packageDecls p _ => p

def includeMacroPkg : Query ν → Bool
  | packageNames _ b => b
  | packageDecls _ b => b

end Query

inductive Answer (ν δ : Type) [LinearOrder ν] where
  | packageNames (names : OrderedSet ν)
  | packageDecls (decls : List δ)

/-- The answer to a query and the caches afterwards. -/
def ask (g : DependencyGraph ν δ) (caches : QueryCaches ν δ) :
    Query ν → Answer ν δ × QueryCaches ν δ
  | .packageNames p b =>
    let (names, caches') := g.getAllDependencyPackageNames p b caches
    (.packageNames names, caches')
  | .packageDecls p b =>
    let (decls, caches') := g.getAllDependencyPackageDecls p b caches
    (.packageDecls decls, caches')

/-- The answers to a sequence of queries. -/
def answers (g : DependencyGraph ν δ) (caches : QueryCaches ν δ) :
    List (Query ν) → List (Answer ν δ)
  | [] => []
  | q :: qs => (g.ask caches q).1 :: answers g (g.ask caches q).2 qs

/-- The flag of the first query about a package. -/
def firstFlag (p : ν) : List (Query ν) → Option Bool
  | [] => none
  | q :: qs => if q.fullPackageName = p then some q.includeMacroPkg else firstFlag p qs

/-! ## Right answers -/

/-- A package is a dependency of another one, directly or through others. -/
def DependsOn (g : DependencyGraph ν δ) : ν → ν → Prop :=
  Relation.TransGen fun u v => v ∈ g.getEdges u

/-- The packages a query asks for. -/
def AsksFor (g : DependencyGraph ν δ) (q : Query ν) (m : ν) : Prop :=
  g.DependsOn q.fullPackageName m ∧
    (q.includeMacroPkg = false → g.cjoManager.isMacroRelatedPackageName m = false)

/-- A right answer names the packages asked for, or has their declarations. -/
inductive IsRight (g : DependencyGraph ν δ) : Query ν → Answer ν δ → Prop
  | packageNames {p : ν} {b : Bool} {names : OrderedSet ν}
      (h : ∀ m, m ∈ names ↔ g.AsksFor (.packageNames p b) m) :
      IsRight g (.packageNames p b) (.packageNames names)
  | packageDecls {p : ν} {b : Bool} {names : OrderedSet ν}
      (h : ∀ m, m ∈ names ↔ g.AsksFor (.packageDecls p b) m) :
      IsRight g (.packageDecls p b) (.packageDecls (g.packageDecls names))

/-- The answer to a query depends on whether a package is left out. -/
def Shows (g : DependencyGraph ν δ) (m : ν) : Query ν → Prop
  | .packageNames _ _ => g.cjoManager.isMacroRelatedPackageName m = true
  | .packageDecls _ _ =>
    g.cjoManager.isMacroRelatedPackageName m = true ∧ (g.cjoManager.getPackageDecl m).isSome

/-- A query has the flag of the first query about its package, or asks about a package whose
dependencies the flag makes no difference for. -/
def Agrees (g : DependencyGraph ν δ) (earlier : List (Query ν)) (q : Query ν) : Prop :=
  (firstFlag q.fullPackageName earlier).getD q.includeMacroPkg = q.includeMacroPkg ∨
    ∀ m, g.DependsOn q.fullPackageName m → ¬ g.Shows m q

theorem mem_collectDependencyNames (g : DependencyGraph ν δ) {p m : ν} {b : Bool} :
    m ∈ g.collectDependencyNames p b ↔
      g.DependsOn p m ∧ (b = false → g.cjoManager.isMacroRelatedPackageName m = false) := by
  rw [collectDependencyNames, OrderedSet.mem_filter, FiniteGraph.mem_reachable]
  refine and_congr Iff.rfl ?_
  cases b <;> simp

/-- The answer computed from the names collected with a given flag. -/
def answerWith (g : DependencyGraph ν δ) (b : Bool) : Query ν → Answer ν δ
  | .packageNames p _ => .packageNames (g.collectDependencyNames p b)
  | .packageDecls p _ => .packageDecls (g.packageDecls (g.collectDependencyNames p b))

/-- Leaving out elements keeps the images when the ones left out have none. -/
lemma filterMap_filter_eq_iff {α β : Type} (f : α → Option β) (p : α → Bool) (l : List α) :
    (l.filter p).filterMap f = l.filterMap f ↔ ∀ x ∈ l, p x = false → f x = none := by
  induction l with
  | nil => simp
  | cons a l ih =>
    have hle : ((l.filter p).filterMap f).length ≤ (l.filterMap f).length :=
      (List.filter_sublist.filterMap f).length_le
    cases hp : p a with
    | true =>
      cases hf : f a <;> simp [hp, hf, ih]
    | false =>
      cases hf : f a with
      | none => simp [hp, hf, ih]
      | some b =>
        refine iff_of_false (fun heq => ?_) (fun h => ?_)
        · rw [List.filter_cons_of_neg (by simp [hp]), List.filterMap_cons_some hf] at heq
          have hlength := congrArg List.length heq
          rw [List.length_cons] at hlength
          omega
        · exact absurd (h a List.mem_cons_self hp) (by simp [hf])

/-- The declarations found with the two flags are the same exactly when every package that only
macros use has none. -/
lemma packageDecls_collect_iff (g : DependencyGraph ν δ) (p : ν) (b : Bool) :
    g.packageDecls (g.collectDependencyNames p false) =
        g.packageDecls (g.collectDependencyNames p true) ↔
      ∀ m, g.DependsOn p m → ¬ g.Shows m (.packageDecls p b) := by
  have hall : (g.collectDependencyNames p true).elems = (g.importGraph.reachable p).elems :=
    List.filter_eq_self.mpr fun _ _ => rfl
  rw [packageDecls, packageDecls, hall]
  refine (filterMap_filter_eq_iff _ _ _).trans (forall_congr' fun m => ?_)
  rw [OrderedSet.mem_elems, FiniteGraph.mem_reachable]
  refine imp_congr Iff.rfl ?_
  rw [Shows, not_and, Option.not_isSome_iff_eq_none]
  simp

/-- An answer computed with a given flag is right when it is the flag of the query, or when no
package shows the difference. -/
theorem isRight_answerWith_iff (g : DependencyGraph ν δ) (f : Bool) (q : Query ν) :
    g.IsRight q (g.answerWith f q) ↔
      f = q.includeMacroPkg ∨ ∀ m, g.DependsOn q.fullPackageName m → ¬ g.Shows m q := by
  cases q with
  | packageNames p b =>
    constructor
    · intro hright
      obtain ⟨hnames⟩ := hright
      refine or_iff_not_imp_left.mpr fun hne m hdep hrelated => hne ?_
      have hleft : (f = false → g.cjoManager.isMacroRelatedPackageName m = false) ↔
          (b = false → g.cjoManager.isMacroRelatedPackageName m = false) :=
        and_congr_right_iff.mp (g.mem_collectDependencyNames.symm.trans (hnames m)) hdep
      rw [Shows] at hrelated
      rw [hrelated] at hleft
      cases f <;> cases b <;> simp [Query.includeMacroPkg] at hleft ⊢
    · intro h
      refine IsRight.packageNames fun m => ?_
      rw [g.mem_collectDependencyNames, AsksFor]
      refine and_congr_right fun hdep => ?_
      rcases h with rfl | hsame
      · exact Iff.rfl
      · have hno : g.cjoManager.isMacroRelatedPackageName m = false :=
          Bool.eq_false_iff.mpr (hsame m hdep)
        exact iff_of_true (fun _ => hno) fun _ => hno
  | packageDecls p b =>
    have hspec : ∀ names : OrderedSet ν, (∀ m, m ∈ names ↔ g.AsksFor (.packageDecls p b) m) ↔
        names = g.collectDependencyNames p b := by
      intro names
      constructor
      · exact fun h => OrderedSet.ext_mem fun m => (h m).trans g.mem_collectDependencyNames.symm
      · rintro rfl
        exact fun m => g.mem_collectDependencyNames
    have hiff : g.IsRight (.packageDecls p b) (g.answerWith f (.packageDecls p b)) ↔
        g.packageDecls (g.collectDependencyNames p b) =
          g.packageDecls (g.collectDependencyNames p f) := by
      constructor
      · intro hright
        generalize hans : g.answerWith f (.packageDecls p b) = ans at hright
        cases hright with
        | packageDecls h =>
          rw [(hspec _).mp h] at hans
          exact (Answer.packageDecls.inj hans).symm
      · intro heq
        rw [answerWith, ← heq]
        exact IsRight.packageDecls ((hspec _).mpr rfl)
    rw [hiff]
    cases b <;> cases f
    · simp [Query.includeMacroPkg]
    · rw [g.packageDecls_collect_iff p false]
      simp [Query.includeMacroPkg, Query.fullPackageName]
    · rw [eq_comm, g.packageDecls_collect_iff p true]
      simp [Query.includeMacroPkg, Query.fullPackageName]
    · simp [Query.includeMacroPkg]

/-! ## The caches -/

lemma firstFlag_append (p : ν) (earlier : List (Query ν)) (q : Query ν) :
    firstFlag p (earlier ++ [q]) = (firstFlag p earlier).or (firstFlag p [q]) := by
  induction earlier with
  | nil => rfl
  | cons q' earlier ih =>
    rw [List.cons_append, firstFlag, firstFlag, ih]
    split_ifs <;> rfl

/-- The caches after a sequence of queries: the names kept for a package were collected with the
flag of the first query about it, and the declarations are those of these names. -/
structure Coherent (g : DependencyGraph ν δ) (earlier : List (Query ν))
    (caches : QueryCaches ν δ) : Prop where
  names : ∀ p, caches.cacheDependencyPackageNames.find? p =
    (firstFlag p earlier).map (g.collectDependencyNames p)
  decls : ∀ p b ds, caches.cacheDependencyPackageDecls.find? (toLex (p, b)) = some ds →
    ∃ f, firstFlag p earlier = some f ∧ ds = g.packageDecls (g.collectDependencyNames p f)

theorem coherent_empty (g : DependencyGraph ν δ) : Coherent g [] QueryCaches.empty where
  names _ := rfl
  decls _ _ _ h := absurd h (by simp [QueryCaches.empty, OrderedMap.find?, OrderedMap.empty,
    OrderedMap.lookup])

variable {g : DependencyGraph ν δ} {earlier : List (Query ν)} {caches : QueryCaches ν δ}

/-- A further query about a package asked about before leaves coherent caches coherent. -/
lemma Coherent.of_known (hc : Coherent g earlier caches) {q : Query ν} {f : Bool}
    (hf : firstFlag q.fullPackageName earlier = some f) : Coherent g (earlier ++ [q]) caches where
  names p := by
    rw [hc.names p, firstFlag_append, firstFlag]
    split_ifs with hp
    · rw [← hp, hf]
      rfl
    · rw [firstFlag, Option.or_none]
  decls p b ds h := by
    obtain ⟨f', hf', hds⟩ := hc.decls p b ds h
    exact ⟨f', by rw [firstFlag_append, hf', Option.some_or], hds⟩

/-- The flag that decides the answer to a query. -/
def decidingFlag (earlier : List (Query ν)) (q : Query ν) : Bool :=
  (firstFlag q.fullPackageName earlier).getD q.includeMacroPkg

lemma firstFlag_append_self (earlier : List (Query ν)) (q : Query ν) :
    firstFlag q.fullPackageName (earlier ++ [q]) = some (decidingFlag earlier q) := by
  rw [firstFlag_append, decidingFlag, firstFlag, if_pos rfl]
  cases firstFlag q.fullPackageName earlier <;> rfl

theorem getAllDependencyPackageNames_spec (hc : Coherent g earlier caches) (q : Query ν) :
    (g.getAllDependencyPackageNames q.fullPackageName q.includeMacroPkg caches).1 =
        g.collectDependencyNames q.fullPackageName (decidingFlag earlier q) ∧
      Coherent g (earlier ++ [q])
        (g.getAllDependencyPackageNames q.fullPackageName q.includeMacroPkg caches).2 := by
  have hnames := hc.names q.fullPackageName
  rw [getAllDependencyPackageNames, decidingFlag]
  cases hflag : firstFlag q.fullPackageName earlier with
  | some f =>
    rw [hflag] at hnames
    rw [hnames]
    exact ⟨rfl, hc.of_known hflag⟩
  | none =>
    rw [hflag, Option.map_none] at hnames
    rw [hnames]
    refine ⟨rfl, ⟨fun p => ?_, fun p b ds h => ?_⟩⟩
    · dsimp only
      rw [OrderedMap.find?_emplace, hnames, hc.names p, firstFlag_append, firstFlag]
      split_ifs with hp
      · rw [← hp, hflag]
        rfl
      · rw [firstFlag, Option.or_none]
    · obtain ⟨f, hf, hds⟩ := hc.decls p b ds h
      exact ⟨f, by rw [firstFlag_append, hf, Option.some_or], hds⟩

theorem getAllDependencyPackageDecls_spec (hc : Coherent g earlier caches) (q : Query ν) :
    (g.getAllDependencyPackageDecls q.fullPackageName q.includeMacroPkg caches).1 =
        g.packageDecls
          (g.collectDependencyNames q.fullPackageName (decidingFlag earlier q)) ∧
      Coherent g (earlier ++ [q])
        (g.getAllDependencyPackageDecls q.fullPackageName q.includeMacroPkg caches).2 := by
  rw [getAllDependencyPackageDecls]
  cases hfind : caches.cacheDependencyPackageDecls.find?
      (toLex (q.fullPackageName, q.includeMacroPkg)) with
  | some ds =>
    obtain ⟨f, hf, hds⟩ := hc.decls _ _ ds hfind
    rw [decidingFlag, hf]
    exact ⟨hds, hc.of_known hf⟩
  | none =>
    obtain ⟨hvalue, hcoherent⟩ := getAllDependencyPackageNames_spec hc q
    refine ⟨congrArg g.packageDecls hvalue, ⟨hcoherent.names, fun p b ds h => ?_⟩⟩
    dsimp only at h
    rw [OrderedMap.find?_emplace] at h
    split_ifs at h with hkey
    · obtain ⟨rfl, rfl⟩ := Prod.mk.inj (toLex.injective hkey)
      refine ⟨_, firstFlag_append_self earlier q, ?_⟩
      cases hold : (g.getAllDependencyPackageNames q.fullPackageName q.includeMacroPkg
          caches).2.cacheDependencyPackageDecls.find?
            (toLex (q.fullPackageName, q.includeMacroPkg)) with
      | none =>
        rw [hold, Option.getD_none, hvalue] at h
        exact (Option.some.inj h).symm
      | some ds' =>
        obtain ⟨f, hf, hds⟩ := hcoherent.decls _ _ ds' hold
        rw [firstFlag_append_self] at hf
        rw [hold, Option.getD_some, hds] at h
        rw [← Option.some.inj h, ← Option.some.inj hf]
    · exact hcoherent.decls p b ds h

/-- A query is answered from the names collected with the deciding flag. -/
theorem ask_spec (hc : Coherent g earlier caches) (q : Query ν) :
    (g.ask caches q).1 = g.answerWith (decidingFlag earlier q) q ∧
      Coherent g (earlier ++ [q]) (g.ask caches q).2 := by
  cases q with
  | packageNames p b =>
    have h := getAllDependencyPackageNames_spec hc (.packageNames p b)
    exact ⟨congrArg Answer.packageNames h.1, h.2⟩
  | packageDecls p b =>
    have h := getAllDependencyPackageDecls_spec hc (.packageDecls p b)
    exact ⟨congrArg Answer.packageDecls h.1, h.2⟩

/-- Queries that follow others are all answered rightly when each of them agrees with those
before it. -/
lemma answersRight_iff_of_coherent (hc : Coherent g earlier caches) (qs : List (Query ν)) :
    List.Forall₂ g.IsRight qs (g.answers caches qs) ↔
      ∀ pre q post, qs = pre ++ q :: post → g.Agrees (earlier ++ pre) q := by
  induction qs generalizing earlier caches with
  | nil =>
    refine iff_of_true List.Forall₂.nil fun pre q post h => ?_
    exact absurd h (by simp)
  | cons q qs ih =>
    obtain ⟨hanswer, hnext⟩ := ask_spec hc q
    rw [answers, List.forall₂_cons, hanswer, isRight_answerWith_iff, ih hnext]
    constructor
    · rintro ⟨hhead, htail⟩ pre q' post heq
      cases pre with
      | nil =>
        obtain ⟨rfl, rfl⟩ := List.cons.inj heq
        rw [List.append_nil]
        exact hhead
      | cons q'' pre =>
        obtain ⟨rfl, rfl⟩ := List.cons.inj heq
        have h := htail pre q' post rfl
        rwa [List.append_assoc, List.singleton_append] at h
    · intro h
      refine ⟨?_, fun pre q' post heq => ?_⟩
      · have hhead := h [] q qs rfl
        rwa [List.append_nil] at hhead
      · have htail := h (q :: pre) q' post (by rw [heq, List.cons_append])
        rwa [List.append_assoc, List.singleton_append]

/-- From empty caches, every query of a sequence is answered rightly exactly when each of them
agrees with the queries before it. -/
theorem answersRight_iff (g : DependencyGraph ν δ) (qs : List (Query ν)) :
    List.Forall₂ g.IsRight qs (g.answers QueryCaches.empty qs) ↔
      ∀ pre q post, qs = pre ++ q :: post → g.Agrees pre q := by
  have h := answersRight_iff_of_coherent g.coherent_empty qs
  simpa only [List.nil_append] using h

/-- A package that imports one which only macros use. -/
def importsMacros : DependencyGraph String Unit where
  cjoManager := ⟨fun fullPackageName => some ⟨fullPackageName == "macros", some ()⟩⟩
  dependencyMap := OrderedMap.empty.emplace "app" (OrderedSet.empty.insert "macros")

/-- After a query that leaves it out, the package that macros use is missing from the answer to
one that includes it. -/
theorem importsMacros_not_right :
    ¬ List.Forall₂ importsMacros.IsRight
      [.packageNames "app" false, .packageNames "app" true]
      (importsMacros.answers QueryCaches.empty
        [.packageNames "app" false, .packageNames "app" true]) := by
  have hanswers : importsMacros.answers QueryCaches.empty
      [.packageNames "app" false, .packageNames "app" true] =
        [.packageNames OrderedSet.empty, .packageNames OrderedSet.empty] := rfl
  rw [hanswers]
  intro hright
  obtain ⟨-, hsecond⟩ := List.forall₂_cons.mp hright
  obtain ⟨⟨hnames⟩, -⟩ := List.forall₂_cons.mp hsecond
  have hedge : "macros" ∈ importsMacros.getEdges "app" := by decide
  have hasked : importsMacros.AsksFor (.packageNames "app" true) "macros" :=
    ⟨Relation.TransGen.single hedge, fun h => absurd h (by decide)⟩
  exact absurd ((hnames "macros").mpr hasked) (OrderedSet.not_mem_empty _)

end DependencyGraph

end Cangjie.Modules
