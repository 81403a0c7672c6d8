import CangjieCompiler.Foundations.FrontierSearch
import CangjieCompiler.Sema.TypeManager

/-!
# Upper bounds of type parameters

A type parameter keeps its direct upper bounds, some of which may be type parameters again.  All of
its upper bounds are collected by going on with the type parameters among the bounds of the previous
round.  A bound that was collected before is followed once more, so the collection does not end when
it comes to type parameters that bound each other.
-/

namespace Cangjie.TypeManager

open AST

/-- Whether a type is a type parameter. -/
def isGeneric (tm : TypeManager) (ty : TyPtr) : Bool := tm.kind ty = some .TYPE_GENERICS

section GetAllUpperBounds

variable (tm : TypeManager) (upperBounds : TyPtr → Finset TyPtr)

/-- The type parameters among the direct upper bounds. -/
def genericUpperBounds (ty : TyPtr) : Finset TyPtr := (upperBounds ty).filter fun ub => tm.isGeneric ub

/-- All upper bounds of a type parameter: the direct ones, and the type parameters that bound the
type parameters of the previous round. -/
def getAllUpperBounds (fuel : ℕ) (gty : TyPtr) : Option (Finset TyPtr) :=
  FrontierSearch.collect (tm.genericUpperBounds upperBounds) fuel (upperBounds gty)
    (tm.genericUpperBounds upperBounds gty)

/-! ## What the collection is for -/

/-- A type parameter is a direct upper bound of another type. -/
def BoundedBy (ty ub : TyPtr) : Prop := ub ∈ upperBounds ty ∧ tm.isGeneric ub = true

/-- The collection ends with the direct upper bounds and every type parameter that is reached
through bounds that are type parameters. -/
def CollectsUpperBounds (gty : TyPtr) : Prop :=
  ∃ fuel ubs, tm.getAllUpperBounds upperBounds fuel gty = some ubs ∧
    ∀ ty, ty ∈ ubs ↔ ty ∈ upperBounds gty ∨
      Relation.TransGen (tm.BoundedBy upperBounds) gty ty

/-! ## What it does -/

variable {tm} {upperBounds}

lemma mem_genericUpperBounds {ty ub : TyPtr} :
    ub ∈ tm.genericUpperBounds upperBounds ty ↔ tm.BoundedBy upperBounds ty ub :=
  Finset.mem_filter

lemma edge_genericUpperBounds :
    FrontierSearch.Edge (tm.genericUpperBounds upperBounds) = tm.BoundedBy upperBounds :=
  funext fun _ => funext fun _ => propext mem_genericUpperBounds

/-- There are finitely many type parameters, since there are finitely many types. -/
lemma finite_generics (tm : TypeManager) : {ty | tm.isGeneric ty = true}.Finite := by
  have hbound : ∀ ty, tm.isGeneric ty = true → ty.address < 37 + tm.nodes.length := by
    intro ty hty
    have hkind : tm.kind ty = some .TYPE_GENERICS := of_decide_eq_true hty
    cases ty with
    | static kind => cases kind <;> exact Nat.lt_add_right _ (by decide)
    | allocated place =>
      rw [kind, Option.map_eq_some_iff] at hkind
      obtain ⟨ty, hty, _⟩ := hkind
      exact Nat.add_lt_add_left (List.getElem?_eq_some_iff.mp hty).1 37
  refine Set.Finite.of_finite_image (f := TyPtr.address) ?_ TyPtr.address_injective.injOn
  refine (Set.finite_lt_nat (37 + tm.nodes.length)).subset ?_
  rintro _ ⟨ty, hty, rfl⟩
  exact hbound ty hty

/-- What is collected if the collection ends. -/
lemma mem_of_getAllUpperBounds {fuel : ℕ} {gty ty : TyPtr} {ubs : Finset TyPtr}
    (h : tm.getAllUpperBounds upperBounds fuel gty = some ubs) :
    ty ∈ ubs ↔ ty ∈ upperBounds gty ∨ Relation.TransGen (tm.BoundedBy upperBounds) gty ty := by
  have hmem := FrontierSearch.mem_of_collect h (b := ty)
  rw [edge_genericUpperBounds] at hmem
  rw [hmem]
  constructor
  · rintro (hub | ⟨a, ha, hty⟩)
    · exact Or.inl hub
    · exact Or.inr (Relation.TransGen.head (mem_genericUpperBounds.mp ha) hty)
  · rintro (hub | hty)
    · exact Or.inl hub
    · obtain ⟨a, ha, hty⟩ := Relation.TransGen.head'_iff.mp hty
      rcases Relation.reflTransGen_iff_eq_or_transGen.mp hty with rfl | hty
      · exact Or.inl ha.1
      · exact Or.inr ⟨a, mem_genericUpperBounds.mpr ha, hty⟩

/-- The collection ends exactly when it comes to no type parameter that bounds itself. -/
lemma exists_getAllUpperBounds_iff {gty : TyPtr} :
    (∃ fuel ubs, tm.getAllUpperBounds upperBounds fuel gty = some ubs) ↔
      ∀ ty, Relation.TransGen (tm.BoundedBy upperBounds) gty ty →
        ¬ Relation.TransGen (tm.BoundedBy upperBounds) ty ty := by
  have hsubset : ∀ ty, tm.genericUpperBounds upperBounds ty ⊆ (finite_generics tm).toFinset :=
    fun ty ub hub => (finite_generics tm).mem_toFinset.mpr (mem_genericUpperBounds.mp hub).2
  have hends : (∃ fuel ubs, tm.getAllUpperBounds upperBounds fuel gty = some ubs) ↔ _ :=
    FrontierSearch.exists_collect_iff (fun ty _ => hsubset ty) (hsubset gty)
  rw [edge_genericUpperBounds] at hends
  refine hends.trans ⟨fun h ty hty => ?_, fun h a ha ty hty => ?_⟩
  · obtain ⟨a, ha, hty⟩ := Relation.TransGen.head'_iff.mp hty
    exact h a (mem_genericUpperBounds.mpr ha) ty hty
  · exact h ty (Relation.TransGen.head' (mem_genericUpperBounds.mp ha) hty)

/-- All upper bounds are collected exactly when no type parameter that is reached through bounds
bounds itself. -/
theorem collectsUpperBounds_iff (tm : TypeManager) (upperBounds : TyPtr → Finset TyPtr)
    (gty : TyPtr) :
    tm.CollectsUpperBounds upperBounds gty ↔
      ∀ ty, Relation.TransGen (tm.BoundedBy upperBounds) gty ty →
        ¬ Relation.TransGen (tm.BoundedBy upperBounds) ty ty := by
  rw [← exists_getAllUpperBounds_iff]
  constructor
  · rintro ⟨fuel, ubs, h, _⟩
    exact ⟨fuel, ubs, h⟩
  · rintro ⟨fuel, ubs, h⟩
    exact ⟨fuel, ubs, h, fun ty => mem_of_getAllUpperBounds h⟩

/-- Two type parameters that bound each other, as in `func f<T, U>() where T <: U, U <: T`. -/
def mutualBounds : TypeManager × (TyPtr → Finset TyPtr) :=
  (⟨[⟨.generics 0, false, true⟩, ⟨.generics 1, false, true⟩], []⟩,
    fun ty => if ty = .allocated 0 then {.allocated 1}
      else if ty = .allocated 1 then {.allocated 0} else ∅)

/-- The upper bounds of a type parameter are not always collected. -/
theorem exists_not_collectsUpperBounds :
    ¬ ∀ (tm : TypeManager) (upperBounds : TyPtr → Finset TyPtr) (gty : TyPtr),
      tm.isGeneric gty = true → tm.CollectsUpperBounds upperBounds gty := by
  intro h
  obtain ⟨fuel, ubs, hubs, _⟩ := h mutualBounds.1 mutualBounds.2 (.allocated 0) (by decide)
  have hfirst : mutualBounds.1.BoundedBy mutualBounds.2 (.allocated 0) (.allocated 1) :=
    ⟨by decide, by decide⟩
  have hsecond : mutualBounds.1.BoundedBy mutualBounds.2 (.allocated 1) (.allocated 0) :=
    ⟨by decide, by decide⟩
  exact exists_getAllUpperBounds_iff.mp ⟨fuel, ubs, hubs⟩ (.allocated 1)
    (Relation.TransGen.single hfirst)
    ((Relation.TransGen.single hsecond).tail hfirst)

end GetAllUpperBounds

end Cangjie.TypeManager
