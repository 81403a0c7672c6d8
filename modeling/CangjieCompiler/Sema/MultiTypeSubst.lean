import CangjieCompiler.Foundations.BoundedReach
import CangjieCompiler.Sema.ResolvedSubstitution

/-!
# Substitutions of sets of types

A multi-substitution maps type variables to sets of types.  Before it is expanded to substitutions,
the mappings that are not used in some types are removed.  What is used directly is put on a
worklist, and what is used by the variables on the worklist is collected, but not put on the
worklist in turn.  So a mapping is kept if its variable is used directly or in one step.
-/

namespace Cangjie.AST.TyTree

open BoundedReach

/-- `MultiTypeSubst` -/
abbrev MultiTypeSubst (α : Type) := List (α × List (TyTree α))

/-- Instance variables of universal variables, and what the instance variables are substituted by.
-/
structure SubstPack (α : Type) where
  u2i : List (α × α)
  inst : MultiTypeSubst α

/-! ## Filtering -/

/-- The type variables of a type that are not in an intersection or a union. -/
def getAllGenericTys {α : Type} : TyTree α → List α
  | builtin _ => []
  | generics tv => [tv]
  | node shape parts => if shape.isSet then [] else parts.flatMap getAllGenericTys

variable {α : Type} [DecidableEq α]

def getGenericTyArgs (candidates : List α) : TyTree α → List α
  | builtin _ => []
  | generics tv => if tv ∈ candidates then [tv] else []
  | node shape parts =>
    if shape.isSet then []
    else parts.flatMap fun part => if part.hasGeneric then getGenericTyArgs candidates part else []

attribute [local simp] getAllGenericTys getGenericTyArgs

/-- What a variable is substituted by. -/
def targets (mapping : MultiTypeSubst α) (tv : α) : List (TyTree α) := (mapping.lookup tv).getD []

/-- The loop of `FilterUnusedMapping`, with the worklist and the variables that are reached. -/
def collectUsed (candidates : List α) (mapping : MultiTypeSubst α) : List α → List α → List α
  | [], reachable => reachable
  | tv :: worklist, reachable =>
    collectUsed candidates mapping worklist
      (reachable ++ (targets mapping tv).flatMap (getGenericTyArgs candidates))

/-- `FilterUnusedMapping` -/
def filterUnusedMapping (mapping : MultiTypeSubst α) (tys : List (TyTree α)) : MultiTypeSubst α :=
  let all := mapping.map Prod.fst
  let reachable := tys.flatMap (getGenericTyArgs all)
  let reachable := collectUsed all mapping reachable reachable
  mapping.filter fun entry => decide (entry.1 ∈ reachable)

/-- `FilterUnusedMapping` of a pack. -/
def SubstPack.filterUnusedMapping (mapping : SubstPack α) (tys : List (TyTree α)) : SubstPack α :=
  let allu := mapping.u2i.map Prod.fst
  let alli := mapping.u2i.map Prod.snd
  let reachable := (tys.flatMap (getGenericTyArgs allu)).filterMap fun tvu => mapping.u2i.lookup tvu
  let reachable := collectUsed alli mapping.inst reachable reachable
  { u2i := mapping.u2i.filter fun entry => decide (entry.2 ∈ reachable)
    inst := mapping.inst.filter fun entry => decide (entry.1 ∈ reachable) }

/-! ## Expanding -/

/-- `expand`, with the mapping so far and the keys that are left. -/
def expand : TypeSubst α → MultiTypeSubst α → List (TypeSubst α)
  | mapping, [] => [mapping]
  | mapping, (key, tys) :: keys => tys.flatMap fun it => expand (mapping ++ [(key, it)]) keys

def expandFilteredMultiTypeSubst (mts : MultiTypeSubst α) : List (TypeSubst α) := expand [] mts

def expandMultiTypeSubst (mts : MultiTypeSubst α) (usefulTys : List (TyTree α)) :
    List (TypeSubst α) :=
  expandFilteredMultiTypeSubst (filterUnusedMapping mts usefulTys)

/-- The packs of the substitutions that a pack is expanded to. -/
def SubstPack.expandFiltered (filtered : SubstPack α) : List (SubstPack α) :=
  (expandFilteredMultiTypeSubst filtered.inst).map fun m =>
    { u2i := filtered.u2i, inst := m.map fun it => (it.1, [it.2]) }

/-- `ExpandMultiTypeSubst` of a pack. -/
def SubstPack.expandMultiTypeSubst (maps : SubstPack α) (usefulTys : List (TyTree α)) :
    List (SubstPack α) :=
  (maps.filterUnusedMapping usefulTys).expandFiltered

/-! ## Occurrences -/

/-- A variable occurs in some types. -/
def OccursIn (tys : List (TyTree α)) (v : α) : Prop := ∃ ty ∈ tys, v ∈ ty.vars

/-- A variable occurs in some types, other than in intersections and unions. -/
def FoundIn (tys : List (TyTree α)) (v : α) : Prop := ∃ ty ∈ tys, v ∈ ty.getAllGenericTys

/-- A variable occurs in what another one is substituted by. -/
def Occurs (mapping : MultiTypeSubst α) (u v : α) : Prop :=
  ∃ tys, (u, tys) ∈ mapping ∧ OccursIn tys v

/-- A variable is found in what another one is substituted by. -/
def Found (mapping : MultiTypeSubst α) (u v : α) : Prop := FoundIn (targets mapping u) v

/-- A variable is the instance variable of another one, or occurs in what the other one is
substituted by. -/
def SubstPack.Occurs (mapping : SubstPack α) (u v : α) : Prop :=
  (u, v) ∈ mapping.u2i ∨ TyTree.Occurs mapping.inst u v

/-- A variable is the instance variable of one that is found in some types. -/
def SubstPack.FoundIn (mapping : SubstPack α) (tys : List (TyTree α)) (v : α) : Prop :=
  ∃ u, TyTree.FoundIn tys u ∧ mapping.u2i.lookup u = some v

/-- An instance variable is found in what another one is substituted by. -/
def SubstPack.Found (mapping : SubstPack α) (u v : α) : Prop :=
  (∃ w, (w, v) ∈ mapping.u2i) ∧ TyTree.Found mapping.inst u v

variable {mapping : MultiTypeSubst α} {pack : SubstPack α} {tys : List (TyTree α)}
  {candidates worklist reachable : List α} {ty : TyTree α} {u v : α}

section

omit [DecidableEq α]

lemma getAllGenericTys_node (shape : Shape) (parts : List (TyTree α)) :
    (node shape parts).getAllGenericTys =
      if shape.isSet then [] else parts.flatMap getAllGenericTys := by
  rw [getAllGenericTys]

lemma mem_vars_of_mem_getAllGenericTys (h : v ∈ ty.getAllGenericTys) : v ∈ ty.vars := by
  induction ty using induction_parts with
  | hbuiltin kind =>
    rw [getAllGenericTys] at h
    exact absurd h List.not_mem_nil
  | hgenerics tv =>
    rw [getAllGenericTys] at h
    rwa [vars_generics]
  | hnode shape parts ih =>
    rw [getAllGenericTys_node] at h
    split_ifs at h
    · exact absurd h List.not_mem_nil
    · obtain ⟨t, ht, hv⟩ := List.mem_flatMap.mp h
      exact mem_vars_node.mpr ⟨t, ht, ih t ht hv⟩

lemma FoundIn.occursIn (h : FoundIn tys v) : OccursIn tys v := by
  obtain ⟨ty, hty, hv⟩ := h
  exact ⟨ty, hty, mem_vars_of_mem_getAllGenericTys hv⟩

/-- A type that is not marked as generic has no variables outside of intersections and unions. -/
lemma getAllGenericTys_of_not_hasGeneric (h : ty.hasGeneric = false) : ty.getAllGenericTys = [] := by
  induction ty using induction_parts with
  | hbuiltin kind => rw [getAllGenericTys]
  | hgenerics tv =>
    rw [hasGeneric] at h
    exact Bool.noConfusion h
  | hnode shape parts ih =>
    rw [getAllGenericTys_node]
    split_ifs with hset
    · rfl
    · rw [hasGeneric, Bool.eq_false_iff.mpr hset, Bool.not_false, Bool.true_and,
        List.any_eq_false] at h
      refine List.flatMap_eq_nil_iff.mpr fun t ht => ih t ht ?_
      exact Bool.eq_false_iff.mpr (h _ (List.mem_map_of_mem ht))

end

lemma mem_getGenericTyArgs :
    v ∈ ty.getGenericTyArgs candidates ↔ v ∈ candidates ∧ v ∈ ty.getAllGenericTys := by
  induction ty using induction_parts with
  | hbuiltin kind => simp [getGenericTyArgs, getAllGenericTys]
  | hgenerics tv =>
    rw [getGenericTyArgs, getAllGenericTys]
    split_ifs with htv
    · exact ⟨fun h => ⟨List.mem_singleton.mp h ▸ htv, h⟩, fun h => h.2⟩
    · refine iff_of_false List.not_mem_nil fun h => htv ?_
      exact List.mem_singleton.mp h.2 ▸ h.1
  | hnode shape parts ih =>
    rw [getGenericTyArgs, getAllGenericTys_node]
    split_ifs with hset
    · simp
    · rw [List.mem_flatMap, List.mem_flatMap]
      constructor
      · rintro ⟨t, ht, hv⟩
        split_ifs at hv
        · exact ⟨((ih t ht).mp hv).1, t, ht, ((ih t ht).mp hv).2⟩
        · exact absurd hv List.not_mem_nil
      · rintro ⟨hcandidate, t, ht, hv⟩
        have hgeneric : t.hasGeneric = true := by
          by_contra hnot
          rw [getAllGenericTys_of_not_hasGeneric (Bool.eq_false_iff.mpr hnot)] at hv
          exact absurd hv List.not_mem_nil
        exact ⟨t, ht, by rw [if_pos hgeneric]; exact (ih t ht).mpr ⟨hcandidate, hv⟩⟩

/-! ## What is kept -/

lemma mem_flatMap_getGenericTyArgs :
    v ∈ tys.flatMap (getGenericTyArgs candidates) ↔ v ∈ candidates ∧ FoundIn tys v := by
  rw [List.mem_flatMap]
  constructor
  · rintro ⟨ty, hty, hv⟩
    obtain ⟨hcandidate, hv⟩ := mem_getGenericTyArgs.mp hv
    exact ⟨hcandidate, ty, hty, hv⟩
  · rintro ⟨hcandidate, ty, hty, hv⟩
    exact ⟨ty, hty, mem_getGenericTyArgs.mpr ⟨hcandidate, hv⟩⟩

/-- The loop adds what is found in one step from the worklist. -/
lemma mem_collectUsed :
    v ∈ collectUsed candidates mapping worklist reachable ↔
      v ∈ reachable ∨ v ∈ candidates ∧ ∃ u ∈ worklist, Found mapping u v := by
  induction worklist generalizing reachable with
  | nil => simp [collectUsed]
  | cons tv worklist ih =>
    rw [collectUsed, ih, List.mem_append, mem_flatMap_getGenericTyArgs, List.exists_mem_cons_iff]
    unfold Found
    tauto

lemma mem_of_mem_targets (h : ty ∈ targets mapping u) : ∃ tys, (u, tys) ∈ mapping ∧ ty ∈ tys := by
  unfold targets at h
  cases hlookup : mapping.lookup u with
  | none =>
    rw [hlookup] at h
    exact absurd h List.not_mem_nil
  | some tys =>
    rw [hlookup] at h
    exact ⟨tys, mem_of_lookup hlookup, h⟩

lemma Found.occurs (h : Found mapping u v) : Occurs mapping u v := by
  obtain ⟨ty, hty, hv⟩ := h
  obtain ⟨tys, hmem, hty⟩ := mem_of_mem_targets hty
  exact ⟨tys, hmem, ty, hty, mem_vars_of_mem_getAllGenericTys hv⟩

/-- A mapping is kept if its variable is found in the types or in one step. -/
lemma mem_filterUnusedMapping {entry : α × List (TyTree α)} (h : entry ∈ mapping) :
    entry ∈ filterUnusedMapping mapping tys ↔
      ReachedIn (FoundIn tys) (Found mapping) 1 entry.1 := by
  have hkey : entry.1 ∈ mapping.map Prod.fst := List.mem_map_of_mem h
  unfold filterUnusedMapping
  dsimp only
  rw [List.mem_filter, decide_eq_true_iff, mem_collectUsed, mem_flatMap_getGenericTyArgs]
  constructor
  · rintro ⟨-, ⟨-, hfound⟩ | ⟨-, u, hu, hfound⟩⟩
    · exact Or.inl hfound
    · exact Or.inr ⟨u, (mem_flatMap_getGenericTyArgs.mp hu).2, hfound⟩
  · rintro (hfound | ⟨u, hu, hfound⟩)
    · exact ⟨h, Or.inl ⟨hkey, hfound⟩⟩
    · refine ⟨h, Or.inr ⟨hkey, u, mem_flatMap_getGenericTyArgs.mpr ⟨?_, hu⟩, hfound⟩⟩
      obtain ⟨tys, hmem, -⟩ := hfound.occurs
      exact List.mem_map_of_mem hmem

lemma SubstPack.mem_direct :
    v ∈ (tys.flatMap (getGenericTyArgs (pack.u2i.map Prod.fst))).filterMap
        (fun tvu => pack.u2i.lookup tvu) ↔ pack.FoundIn tys v := by
  rw [List.mem_filterMap]
  constructor
  · rintro ⟨u, hu, hv⟩
    exact ⟨u, (mem_flatMap_getGenericTyArgs.mp hu).2, hv⟩
  · rintro ⟨u, hu, hv⟩
    refine ⟨u, mem_flatMap_getGenericTyArgs.mpr ⟨?_, hu⟩, hv⟩
    exact List.mem_map_of_mem (mem_of_lookup hv)

/-- The instance variables that are used directly or in one step. -/
lemma SubstPack.mem_reachable :
    v ∈ collectUsed (pack.u2i.map Prod.snd) pack.inst
        ((tys.flatMap (getGenericTyArgs (pack.u2i.map Prod.fst))).filterMap
          (fun tvu => pack.u2i.lookup tvu))
        ((tys.flatMap (getGenericTyArgs (pack.u2i.map Prod.fst))).filterMap
          (fun tvu => pack.u2i.lookup tvu)) ↔
      ReachedIn (pack.FoundIn tys) pack.Found 1 v := by
  rw [mem_collectUsed, mem_direct]
  constructor
  · rintro (hfound | ⟨hinst, u, hu, hfound⟩)
    · exact Or.inl hfound
    · obtain ⟨⟨w, _⟩, hw, rfl⟩ := List.mem_map.mp hinst
      exact Or.inr ⟨u, mem_direct.mp hu, ⟨w, hw⟩, hfound⟩
  · rintro (hfound | ⟨u, hu, ⟨w, hw⟩, hfound⟩)
    · exact Or.inl hfound
    · exact Or.inr ⟨List.mem_map_of_mem hw, u, mem_direct.mpr hu, hfound⟩

/-- An instance variable is kept if it is used directly or in one step. -/
lemma SubstPack.mem_filterUnusedMapping_u2i {entry : α × α} (h : entry ∈ pack.u2i) :
    entry ∈ (pack.filterUnusedMapping tys).u2i ↔
      ReachedIn (pack.FoundIn tys) pack.Found 1 entry.2 := by
  rw [← SubstPack.mem_reachable]
  unfold SubstPack.filterUnusedMapping
  dsimp only
  rw [List.mem_filter, decide_eq_true_iff]
  exact and_iff_right h

lemma SubstPack.mem_filterUnusedMapping_inst {entry : α × List (TyTree α)} (h : entry ∈ pack.inst) :
    entry ∈ (pack.filterUnusedMapping tys).inst ↔
      ReachedIn (pack.FoundIn tys) pack.Found 1 entry.1 := by
  rw [← SubstPack.mem_reachable]
  unfold SubstPack.filterUnusedMapping
  dsimp only
  rw [List.mem_filter, decide_eq_true_iff]
  exact and_iff_right h

/-! ## Everything that is used -/

/-- A variable is used in some types if it is reached by following occurrences. -/
def Used (mapping : MultiTypeSubst α) (tys : List (TyTree α)) : α → Prop :=
  Reached (OccursIn tys) (Occurs mapping)

def SubstPack.Used (pack : SubstPack α) (tys : List (TyTree α)) : α → Prop :=
  Reached (OccursIn tys) pack.Occurs

/-- Each mapped variable that is reached in two steps is found in one step. -/
def FoundSoon (mapping : MultiTypeSubst α) (tys : List (TyTree α)) : Prop :=
  ∀ entry ∈ mapping, ReachedIn (OccursIn tys) (Occurs mapping) 2 entry.1 →
    ReachedIn (FoundIn tys) (Found mapping) 1 entry.1

/-- Each instance variable that is reached in three steps is found in one step, and a universal
variable is reached in three steps if and only if its instance variable is found in one step. -/
structure SubstPack.FoundSoon (pack : SubstPack α) (tys : List (TyTree α)) : Prop where
  u2i : ∀ entry ∈ pack.u2i, ReachedIn (pack.FoundIn tys) pack.Found 1 entry.2 ↔
    ReachedIn (OccursIn tys) pack.Occurs 3 entry.1
  inst : ∀ entry ∈ pack.inst, ReachedIn (OccursIn tys) pack.Occurs 3 entry.1 →
    ReachedIn (pack.FoundIn tys) pack.Found 1 entry.1

lemma reachedIn_of_found {n : ℕ} (h : ReachedIn (FoundIn tys) (Found mapping) n v) :
    ReachedIn (OccursIn tys) (Occurs mapping) n v :=
  h.imp (fun _ h => h.occursIn) fun _ _ h => h.occurs

/-- A mapping is kept if and only if its variable is used, provided that no variable is used in two
steps only. -/
theorem kept_iff_used :
    (∀ entry ∈ mapping, entry ∈ filterUnusedMapping mapping tys ↔ Used mapping tys entry.1) ↔
      FoundSoon mapping tys := by
  constructor
  · intro h entry hentry hreached
    exact (mem_filterUnusedMapping hentry).mp ((h entry hentry).mpr hreached.reached)
  · intro h
    have hstable : ∀ v, ReachedIn (OccursIn tys) (Occurs mapping) 3 v →
        ReachedIn (OccursIn tys) (Occurs mapping) 2 v := by
      rintro v (hv | ⟨u, hu, huv⟩)
      · exact hv
      · obtain ⟨_, hmem, -⟩ := id huv
        exact (reachedIn_of_found (h _ hmem hu)).tail huv
    intro entry hentry
    rw [mem_filterUnusedMapping hentry, Used, reached_iff_of_stable hstable]
    exact ⟨fun hfound => (reachedIn_of_found hfound).succ, h entry hentry⟩

lemma SubstPack.reachedIn_of_found (h : ReachedIn (pack.FoundIn tys) pack.Found 1 v) :
    ReachedIn (OccursIn tys) pack.Occurs 2 v := by
  have hdirect : ∀ v, pack.FoundIn tys v → ReachedIn (OccursIn tys) pack.Occurs 1 v := by
    rintro v ⟨u, hu, huv⟩
    exact Or.inr ⟨u, hu.occursIn, Or.inl (mem_of_lookup huv)⟩
  rcases h with h | ⟨u, hu, -, huv⟩
  · exact (hdirect v h).succ
  · exact (hdirect u hu).tail (Or.inr huv.occurs)

/-- Where the variables of the mappings that are reached in three steps are found in one step,
nothing new is reached in a fourth step. -/
lemma SubstPack.stable_of_found
    (hu2i : ∀ entry ∈ pack.u2i, ReachedIn (OccursIn tys) pack.Occurs 3 entry.1 →
      ReachedIn (pack.FoundIn tys) pack.Found 1 entry.2)
    (hinst : ∀ entry ∈ pack.inst, ReachedIn (OccursIn tys) pack.Occurs 3 entry.1 →
      ReachedIn (pack.FoundIn tys) pack.Found 1 entry.1) (v : α)
    (h : ReachedIn (OccursIn tys) pack.Occurs 4 v) :
    ReachedIn (OccursIn tys) pack.Occurs 3 v := by
  rcases h with h | ⟨u, hu, huv | huv⟩
  · exact h
  · exact (SubstPack.reachedIn_of_found (hu2i _ huv hu)).succ
  · obtain ⟨_, hmem, -⟩ := id huv
    exact (SubstPack.reachedIn_of_found (hinst _ hmem hu)).tail (Or.inr huv)

theorem SubstPack.kept_iff_used :
    ((∀ entry ∈ pack.u2i, entry ∈ (pack.filterUnusedMapping tys).u2i ↔ pack.Used tys entry.1) ∧
        ∀ entry ∈ pack.inst, entry ∈ (pack.filterUnusedMapping tys).inst ↔
          pack.Used tys entry.1) ↔
      pack.FoundSoon tys := by
  constructor
  · rintro ⟨hu2i, hinst⟩
    have hu2i' : ∀ entry ∈ pack.u2i, ReachedIn (pack.FoundIn tys) pack.Found 1 entry.2 ↔
        pack.Used tys entry.1 :=
      fun entry hentry => (mem_filterUnusedMapping_u2i hentry).symm.trans (hu2i entry hentry)
    have hinst' : ∀ entry ∈ pack.inst, ReachedIn (pack.FoundIn tys) pack.Found 1 entry.1 ↔
        pack.Used tys entry.1 :=
      fun entry hentry => (mem_filterUnusedMapping_inst hentry).symm.trans (hinst entry hentry)
    have hused : ∀ v, pack.Used tys v ↔ ReachedIn (OccursIn tys) pack.Occurs 3 v := fun v =>
      reached_iff_of_stable (pack.stable_of_found
        (fun entry hentry hreached => (hu2i' entry hentry).mpr hreached.reached)
        fun entry hentry hreached => (hinst' entry hentry).mpr hreached.reached)
    exact ⟨fun entry hentry => (hu2i' entry hentry).trans (hused entry.1),
      fun entry hentry hreached => (hinst' entry hentry).mpr hreached.reached⟩
  · intro h
    have hused : ∀ v, pack.Used tys v ↔ ReachedIn (OccursIn tys) pack.Occurs 3 v := fun v =>
      reached_iff_of_stable (pack.stable_of_found
        (fun entry hentry => (h.u2i entry hentry).mpr) h.inst)
    refine ⟨fun entry hentry => ?_, fun entry hentry => ?_⟩
    · rw [mem_filterUnusedMapping_u2i hentry, hused]
      exact h.u2i entry hentry
    · rw [mem_filterUnusedMapping_inst hentry, hused]
      exact ⟨fun hfound => (SubstPack.reachedIn_of_found hfound).succ, h.inst entry hentry⟩

end Cangjie.AST.TyTree
