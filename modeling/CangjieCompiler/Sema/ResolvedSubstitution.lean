import CangjieCompiler.Foundations.FrontierSearch
import CangjieCompiler.Sema.TypeTree

/-!
# Substitutions without cycles

A substitution maps type variables to types in which type variables occur again.  Where no variable
reaches itself in this way, the substitution comes down to a simultaneous one: that it is applied to
its own right-hand sides until nothing changes.
-/

namespace Cangjie.AST.TyTree

variable {α : Type} [DecidableEq α]

/-- `TypeSubst` -/
abbrev TypeSubst (α : Type) := List (α × TyTree α)

/-- The variables of what a variable is substituted by. -/
def used (mapping : TypeSubst α) (tv : α) : Finset α :=
  match mapping.lookup tv with
  | some ty => ty.vars.toFinset
  | none => ∅

/-- Reachability of variables through what they are substituted by. -/
def Reaches (mapping : TypeSubst α) : α → α → Prop :=
  Relation.ReflTransGen (FrontierSearch.Edge (used mapping))

/-- No variable reaches itself through what the variables are substituted by. -/
def Acyclic (mapping : TypeSubst α) : Prop :=
  ∀ tv, ¬ Relation.TransGen (FrontierSearch.Edge (used mapping)) tv tv

/-- What a substitution comes down to when it is applied to its own right-hand sides, where `apply`
says how substitutions are applied to types. -/
def IsResolved (apply : (α → TyTree α) → TyTree α → TyTree α) (mapping : TypeSubst α)
    (f : α → TyTree α) : Prop :=
  ∀ tv, f tv =
    match mapping.lookup tv with
    | some ty => apply f ty
    | none => generics tv

/-- No variable that is substituted occurs in a type. -/
def Closed (mapping : TypeSubst α) (ty : TyTree α) : Prop :=
  ∀ tv ∈ ty.vars, mapping.lookup tv = none

/-- What is applied to a type depends on the variables of the type only. -/
def IsLocal (apply : (α → TyTree α) → TyTree α → TyTree α) : Prop :=
  ∀ f g ty, (∀ v ∈ ty.vars, f v = g v) → apply f ty = apply g ty

variable {mapping : TypeSubst α} {tv : α} {ty : TyTree α}

lemma mem_of_lookup {β : Type} {mapping : List (α × β)} {b : β} (h : mapping.lookup tv = some b) :
    (tv, b) ∈ mapping := by
  obtain ⟨l, r, rfl, -⟩ := List.lookup_eq_some_iff.mp h
  exact List.mem_append_right l List.mem_cons_self

lemma edge_iff (h : mapping.lookup tv = some ty) {v : α} :
    FrontierSearch.Edge (used mapping) tv v ↔ v ∈ ty.vars := by
  rw [FrontierSearch.Edge, used, h]
  exact List.mem_toFinset

lemma exists_of_edge {v : α} (h : FrontierSearch.Edge (used mapping) tv v) :
    ∃ ty, mapping.lookup tv = some ty ∧ v ∈ ty.vars := by
  cases hlookup : mapping.lookup tv with
  | none =>
    rw [FrontierSearch.Edge, used, hlookup] at h
    exact absurd h (Finset.notMem_empty v)
  | some ty => exact ⟨ty, rfl, (edge_iff hlookup).mp h⟩

lemma Reaches.refl (mapping : TypeSubst α) (tv : α) : Reaches mapping tv tv :=
  Relation.ReflTransGen.refl

/-- What a variable of a right-hand side reaches is reached by the variable that is substituted. -/
lemma Reaches.head (h : mapping.lookup tv = some ty) {v u : α} (hv : v ∈ ty.vars)
    (hu : Reaches mapping v u) : Reaches mapping tv u :=
  Relation.ReflTransGen.head ((edge_iff h).mpr hv) hu

/-- A variable is not reached from what it is substituted by. -/
lemma Acyclic.ne_of_reaches (hacyclic : Acyclic mapping) (h : mapping.lookup tv = some ty) {v u : α}
    (hv : v ∈ ty.vars) (hu : Reaches mapping v u) : u ≠ tv := by
  rintro rfl
  exact hacyclic u (Relation.TransGen.head' ((edge_iff h).mpr hv) hu)

/-- A substitution whose right-hand sides have variables of lower rank only is without cycles. -/
lemma acyclic_of_rank (rank : α → ℕ)
    (h : ∀ entry ∈ mapping, ∀ v ∈ entry.2.vars, rank v < rank entry.1) : Acyclic mapping := by
  have hedge : ∀ v u, FrontierSearch.Edge (used mapping) v u → rank u < rank v := by
    intro v u hvu
    obtain ⟨ty, hlookup, hu⟩ := exists_of_edge hvu
    exact h _ (mem_of_lookup hlookup) u hu
  have hpath : ∀ v u, Relation.TransGen (FrontierSearch.Edge (used mapping)) v u →
      rank u < rank v := by
    intro v u hvu
    induction hvu with
    | single hvu => exact hedge _ _ hvu
    | tail _ hlast ih => exact (hedge _ _ hlast).trans ih
  exact fun tv htv => lt_irrefl _ (hpath tv tv htv)

/-! ## Depth -/

/-- In a substitution without cycles no chain of variables is longer than some bound. -/
lemma Acyclic.exists_depth (h : Acyclic mapping) :
    ∃ n, ∀ tv, FrontierSearch.layer (used mapping) {tv} n = ∅ := by
  let vertices : Finset α :=
    (mapping.map Prod.fst).toFinset ∪ (mapping.flatMap fun entry => entry.2.vars).toFinset
  have hclosed : ∀ a ∈ vertices, used mapping a ⊆ vertices := by
    intro a _ b hb
    cases hlookup : mapping.lookup a with
    | none =>
      rw [used, hlookup] at hb
      exact absurd hb (Finset.notMem_empty b)
    | some ty =>
      refine Finset.mem_union_right _ (List.mem_toFinset.mpr (List.mem_flatMap.mpr ?_))
      exact ⟨(a, ty), mem_of_lookup hlookup, (edge_iff hlookup).mp hb⟩
  obtain ⟨n, hn⟩ := FrontierSearch.exists_layer_eq_empty hclosed Finset.Subset.rfl
    fun _ _ b _ => h b
  refine ⟨n + 1, fun tv => ?_⟩
  by_cases htv : tv ∈ vertices
  · exact FrontierSearch.layer_eq_empty_of_le n.le_succ
      (FrontierSearch.layer_eq_empty_iff.mp hn tv htv)
  · have hnone : mapping.lookup tv = none := by
      by_contra hsome
      obtain ⟨ty, hlookup⟩ := Option.ne_none_iff_exists'.mp hsome
      refine htv (Finset.mem_union_left _ (List.mem_toFinset.mpr ?_))
      exact List.mem_map_of_mem (mem_of_lookup hlookup)
    rw [FrontierSearch.layer, Finset.singleton_biUnion, used, hnone]
    exact FrontierSearch.layer_empty n

/-- The chains from the variables of a right-hand side are shorter. -/
lemma layer_of_lookup {n : ℕ} (h : FrontierSearch.layer (used mapping) {tv} (n + 1) = ∅)
    (hlookup : mapping.lookup tv = some ty) {v : α} (hv : v ∈ ty.vars) :
    FrontierSearch.layer (used mapping) {v} n = ∅ := by
  rw [FrontierSearch.layer, Finset.singleton_biUnion] at h
  exact FrontierSearch.layer_eq_empty_iff.mp h v ((edge_iff hlookup).mpr hv)

/-- The induction over the variables from what they are substituted by. -/
theorem Acyclic.induction (h : Acyclic mapping) {P : α → Prop}
    (hstep : ∀ tv, (∀ ty, mapping.lookup tv = some ty → ∀ v ∈ ty.vars, P v) → P tv) (tv : α) :
    P tv := by
  obtain ⟨n, hn⟩ := h.exists_depth
  have hlayer := hn tv
  clear hn
  induction n generalizing tv with
  | zero => exact absurd hlayer (Finset.singleton_ne_empty tv)
  | succ n ih =>
    exact hstep tv fun ty hlookup v hv => ih v (layer_of_lookup hlayer hlookup hv)

/-! ## Resolving -/

section Resolve

variable {apply : (α → TyTree α) → TyTree α → TyTree α}

/-- A substitution applied to its own right-hand sides a number of times. -/
def resolve (apply : (α → TyTree α) → TyTree α → TyTree α) (mapping : TypeSubst α) :
    ℕ → α → TyTree α
  | 0, tv => generics tv
  | n + 1, tv =>
    match mapping.lookup tv with
    | some ty => apply (resolve apply mapping n) ty
    | none => generics tv

lemma resolve_succ (hlocal : IsLocal apply) {n : ℕ}
    (h : FrontierSearch.layer (used mapping) {tv} n = ∅) :
    resolve apply mapping (n + 1) tv = resolve apply mapping n tv := by
  induction n generalizing tv with
  | zero => exact absurd h (Finset.singleton_ne_empty tv)
  | succ n ih =>
    rw [resolve, resolve]
    cases hlookup : mapping.lookup tv with
    | none => rfl
    | some ty => exact hlocal _ _ ty fun v hv => ih (layer_of_lookup h hlookup hv)

/-- A substitution without cycles comes down to a simultaneous one. -/
theorem Acyclic.exists_isResolved (h : Acyclic mapping) (hlocal : IsLocal apply) :
    ∃ f, IsResolved apply mapping f := by
  obtain ⟨n, hn⟩ := h.exists_depth
  refine ⟨resolve apply mapping (n + 1), fun tv => ?_⟩
  rw [resolve]
  cases hlookup : mapping.lookup tv with
  | none => rfl
  | some ty => exact hlocal _ _ ty fun v _ => (resolve_succ hlocal (hn v)).symm

lemma IsResolved.of_none {f : α → TyTree α} (hf : IsResolved apply mapping f)
    (h : mapping.lookup tv = none) : f tv = generics tv := by
  rw [hf tv, h]

lemma IsResolved.of_some {f : α → TyTree α} (hf : IsResolved apply mapping f)
    (h : mapping.lookup tv = some ty) : f tv = apply f ty := by
  rw [hf tv, h]

/-- What holds of the variables that are not substituted, and is kept by the application to a
right-hand side, holds of all that the variables come down to. -/
lemma Acyclic.forall_of_isResolved {P : TyTree α → Prop} (h : Acyclic mapping)
    {f : α → TyTree α} (hf : IsResolved apply mapping f)
    (hnone : ∀ tv, mapping.lookup tv = none → P (generics tv))
    (hsome : ∀ entry ∈ mapping, (∀ v ∈ entry.2.vars, P (f v)) → P (apply f entry.2)) (tv : α) :
    P (f tv) := by
  induction tv using h.induction with
  | hstep tv ih =>
    cases hlookup : mapping.lookup tv with
    | none =>
      rw [hf.of_none hlookup]
      exact hnone tv hlookup
    | some ty =>
      rw [hf.of_some hlookup]
      exact hsome _ (mem_of_lookup hlookup) (ih ty hlookup)

end Resolve

omit [DecidableEq α] in
lemma isLocal_subst : IsLocal (α := α) subst := fun _ _ _ h => subst_congr h

/-- Nothing that is substituted is left by a resolved substitution. -/
lemma Acyclic.closed (h : Acyclic mapping) {f : α → TyTree α} (hf : IsResolved subst mapping f)
    (tv : α) : Closed mapping (f tv) := by
  refine h.forall_of_isResolved hf (fun tv hnone v hv => ?_) (fun entry _ ih v hv => ?_) tv
  · rw [vars_generics] at hv
    rw [List.mem_singleton.mp hv]
    exact hnone
  · obtain ⟨u, hu, hv⟩ := exists_of_mem_vars_subst hv
    exact ih u hu v hv

lemma Acyclic.closed_subst (h : Acyclic mapping) {f : α → TyTree α}
    (hf : IsResolved subst mapping f) (ty : TyTree α) : Closed mapping (ty.subst f) := by
  intro v hv
  obtain ⟨u, -, hv⟩ := exists_of_mem_vars_subst hv
  exact h.closed hf u v hv

end Cangjie.AST.TyTree
