import CangjieCompiler.Sema.ApplySubstPack

/-!
# Mappings that are not used

Removing unused mappings keeps exactly the mappings of the variables that are used in some types, and
then the expansions give the same types, if no variable is used in two or three steps only.  Besides,
a variable that is mapped to no type leaves no expansion, so that one of these has to be kept; and a
pack without instances leaves incorrect types as they are.
-/

namespace Cangjie.AST.TyTree

open BoundedReach

variable {α : Type} [DecidableEq α]

/-- Two lists of substitutions give the same types when they are applied to some types. -/
def SameResults {σ : Type} (apply : TyTree α → σ → TyTree α) (tys : List (TyTree α))
    (ms ms' : List σ) : Prop :=
  ∀ res, (∃ m ∈ ms, tys.map (fun ty => apply ty m) = res) ↔
    ∃ m ∈ ms', tys.map (fun ty => apply ty m) = res

/-- The mappings that are kept are those that are used, and their expansions give the same types as
those of all mappings. -/
structure KeepsUsed (generic : ℕ → Bool) (mapping : MultiTypeSubst α) (tys : List (TyTree α)) :
    Prop where
  kept : ∀ entry ∈ mapping, entry ∈ filterUnusedMapping mapping tys ↔ Used mapping tys entry.1
  same : SameResults (fun ty m => instantiate generic m ty) tys (expandMultiTypeSubst mapping tys)
    (expandFilteredMultiTypeSubst mapping)

structure SubstPack.KeepsUsed (generic : ℕ → Bool) (address : TyTree α → ℕ) (ignoreUnsolved : Bool)
    (pack : SubstPack α) (tys : List (TyTree α)) : Prop where
  u2i : ∀ entry ∈ pack.u2i, entry ∈ (pack.filterUnusedMapping tys).u2i ↔ pack.Used tys entry.1
  inst : ∀ entry ∈ pack.inst, entry ∈ (pack.filterUnusedMapping tys).inst ↔ pack.Used tys entry.1
  same : SameResults (applySubstPack generic address ignoreUnsolved) tys
    (pack.expandMultiTypeSubst tys) pack.expandFiltered

/-- If a variable is mapped to no type, then one that is found in one step is. -/
def EmptyFound (mapping : MultiTypeSubst α) (tys : List (TyTree α)) : Prop :=
  (∃ entry ∈ mapping, entry.2 = []) →
    ∃ entry ∈ mapping, ReachedIn (FoundIn tys) (Found mapping) 1 entry.1 ∧ entry.2 = []

def SubstPack.EmptyFound (pack : SubstPack α) (tys : List (TyTree α)) : Prop :=
  (∃ entry ∈ pack.inst, entry.2 = []) →
    ∃ entry ∈ pack.inst, ReachedIn (pack.FoundIn tys) pack.Found 1 entry.1 ∧ entry.2 = []

/-- If there are instance variables, but none is found in one step, then the types are correct or
invalid as a whole. -/
def SubstPack.CorrectUnlessFound (pack : SubstPack α) (tys : List (TyTree α)) : Prop :=
  pack.inst ≠ [] → (∀ entry ∈ pack.inst, ¬ ReachedIn (pack.FoundIn tys) pack.Found 1 entry.1) →
    ∀ ty ∈ tys, ty.isTyCorrect = true ∨ ty = builtin .TYPE_INVALID

variable {mapping : MultiTypeSubst α} {pack : SubstPack α} {tys : List (TyTree α)}
  {generic : ℕ → Bool} {address : TyTree α → ℕ} {ignoreUnsolved : Bool}

/-! ## The variables that are used -/

section Used

omit [DecidableEq α]

lemma allClosedUnder_used : AllClosedUnder (Used mapping tys) mapping :=
  fun _ hentry hused ty hty _ hv => hused.tail ⟨_, hentry, ty, hty, hv⟩

lemma isOver_used {ty : TyTree α} (hty : ty ∈ tys) : IsOver (Used mapping tys) ty :=
  fun _ hv => Reached.of_start ⟨ty, hty, hv⟩

lemma SubstPack.closedUnder_used : pack.ClosedUnder (pack.Used tys) where
  u2i _ hentry hused := hused.tail (Or.inl hentry)
  inst _ hentry hused ty hty _ hv := hused.tail (Or.inr ⟨_, hentry, ty, hty, hv⟩)

lemma SubstPack.isOver_used {ty : TyTree α} (hty : ty ∈ tys) : IsOver (pack.Used tys) ty :=
  fun _ hv => Reached.of_start ⟨ty, hty, hv⟩

lemma filter_eq_within {β : Type} {S : α → Prop} [DecidablePred S] {p : α × β → Bool}
    {l : List (α × β)} (h : ∀ entry ∈ l, entry ∈ l.filter p ↔ S entry.1) :
    l.filter p = within S l := by
  refine List.filter_congr fun entry hentry => ?_
  have hiff := h entry hentry
  rw [List.mem_filter, and_iff_right hentry] at hiff
  rw [Bool.eq_iff_iff, hiff, decide_eq_true_iff]

/-- A choice for the part within a set can be completed, unless a variable outside of the set is
mapped to no type and none in the set is. -/
lemma exists_isChoice_of_within_of_empty {S : α → Prop} [DecidablePred S] {m' : TypeSubst α}
    (hempty : (∃ entry ∈ mapping, entry.2 = []) → ∃ entry ∈ mapping, S entry.1 ∧ entry.2 = [])
    (h : IsChoice m' (within S mapping)) : ∃ m, IsChoice m mapping ∧ within S m = m' := by
  refine exists_isChoice_of_within (fun choices hchoices _ hnil => ?_) h
  obtain ⟨entry, hentry, hS, hnil⟩ := hempty ⟨choices, hchoices, hnil⟩
  exact exists_isChoice_iff.mp ⟨m', h⟩ entry (mem_within.mpr ⟨hentry, hS⟩) hnil

end Used

/-! ## Substitutions -/

/-- The part within the variables that are used is expanded to the same types, unless a variable is
mapped to no type. -/
lemma sameResults_within_iff (S : α → Prop) [DecidablePred S] (hclosed : AllClosedUnder S mapping)
    (htys : ∀ ty ∈ tys, IsOver S ty ∧ ty.Made)
    (hrhs : ∀ entry ∈ mapping, ∀ ty ∈ entry.2, ty.Made) :
    SameResults (fun ty m => instantiate generic m ty) tys
        (expandFilteredMultiTypeSubst (within S mapping)) (expandFilteredMultiTypeSubst mapping) ↔
      ((∃ entry ∈ mapping, entry.2 = []) → ∃ entry ∈ mapping, S entry.1 ∧ entry.2 = []) := by
  constructor
  · rintro hsame ⟨entry, hentry, hnil⟩
    by_contra hnone
    obtain ⟨m', hm'⟩ : ∃ m', IsChoice m' (within S mapping) := by
      refine exists_isChoice_iff.mpr fun choices hchoices hempty => hnone ?_
      obtain ⟨hmem, hS⟩ := mem_within.mp hchoices
      exact ⟨choices, hmem, hS, hempty⟩
    obtain ⟨m, hm, -⟩ := (hsame _).mp ⟨m', mem_expandFiltered.mpr hm', rfl⟩
    exact exists_isChoice_iff.mp ⟨m, mem_expandFiltered.mp hm⟩ entry hentry hnil
  · intro hempty res
    have happly : ∀ m, IsChoice m mapping →
        tys.map (fun ty => instantiate generic (within S m) ty) =
          tys.map fun ty => instantiate generic m ty := by
      intro m hm
      have hclosed' : ClosedUnder S m :=
        hm.forall_mem (P := fun v ty => S v → IsOver S ty) fun choices h ty hty hS =>
          hclosed choices h hS ty hty
      have hrhs' : ∀ entry ∈ m, entry.2.Made := hm.forall_mem (P := fun _ ty => ty.Made) hrhs
      refine List.map_congr_left fun ty hty => ?_
      exact instantiate_within hclosed' hrhs' (htys ty hty).1 (htys ty hty).2
    constructor
    · rintro ⟨m', hm', rfl⟩
      obtain ⟨m, hm, rfl⟩ :=
        exists_isChoice_of_within_of_empty hempty (mem_expandFiltered.mp hm')
      exact ⟨m, mem_expandFiltered.mpr hm, (happly m hm).symm⟩
    · rintro ⟨m, hm, rfl⟩
      have hchoice := mem_expandFiltered.mp hm
      exact ⟨within S m, mem_expandFiltered.mpr hchoice.within, happly m hchoice⟩

lemma keepsUsed_iff (htys : ∀ ty ∈ tys, ty.Made)
    (hrhs : ∀ entry ∈ mapping, ∀ ty ∈ entry.2, ty.Made) :
    KeepsUsed generic mapping tys ↔ FoundSoon mapping tys ∧ EmptyFound mapping tys := by
  classical
  have hsame : (∀ entry ∈ mapping, entry ∈ filterUnusedMapping mapping tys ↔
      Used mapping tys entry.1) →
      (SameResults (fun ty m => instantiate generic m ty) tys (expandMultiTypeSubst mapping tys)
        (expandFilteredMultiTypeSubst mapping) ↔ EmptyFound mapping tys) := by
    intro hkept
    have hwithin : filterUnusedMapping mapping tys = within (Used mapping tys) mapping :=
      filter_eq_within hkept
    rw [expandMultiTypeSubst, hwithin, sameResults_within_iff (Used mapping tys) allClosedUnder_used
      (fun ty hty => ⟨isOver_used hty, htys ty hty⟩) hrhs]
    refine imp_congr_right fun _ => exists_congr fun entry => and_congr_right fun hentry => ?_
    rw [← hkept entry hentry, mem_filterUnusedMapping hentry]
  constructor
  · intro h
    exact ⟨kept_iff_used.mp h.kept, (hsame h.kept).mp h.same⟩
  · rintro ⟨hsoon, hempty⟩
    have hkept := kept_iff_used.mpr hsoon
    exact ⟨hkept, (hsame hkept).mpr hempty⟩

/-! ## Packs -/

/-- The pack of a choice. -/
def SubstPack.chosen (pack : SubstPack α) (m : TypeSubst α) : SubstPack α :=
  { u2i := pack.u2i, inst := m.map fun it => (it.1, [it.2]) }

omit [DecidableEq α] in
lemma SubstPack.mem_expandFiltered {chosen : SubstPack α} :
    chosen ∈ pack.expandFiltered ↔ ∃ m, IsChoice m pack.inst ∧ chosen = pack.chosen m := by
  unfold SubstPack.expandFiltered SubstPack.chosen
  rw [List.mem_map]
  constructor
  · rintro ⟨m, hm, rfl⟩
    exact ⟨m, TyTree.mem_expandFiltered.mp hm, rfl⟩
  · rintro ⟨m, hm, rfl⟩
    exact ⟨m, TyTree.mem_expandFiltered.mpr hm, rfl⟩

omit [DecidableEq α] in
lemma SubstPack.chosen_within (S : α → Prop) [DecidablePred S] (m : TypeSubst α) :
    (pack.within S).chosen (TyTree.within S m) = (pack.chosen m).within S := by
  unfold SubstPack.chosen SubstPack.within TyTree.within
  rw [List.filter_map]
  rfl

omit [DecidableEq α] in
lemma SubstPack.ClosedUnder.chosen {S : α → Prop} (hclosed : pack.ClosedUnder S) {m : TypeSubst α}
    (hm : IsChoice m pack.inst) : (pack.chosen m).ClosedUnder S where
  u2i := hclosed.u2i
  inst := by
    rintro entry hentry hS ty hty
    obtain ⟨e, he, rfl⟩ := List.mem_map.mp hentry
    obtain rfl := List.mem_singleton.mp hty
    exact hm.forall_mem (P := fun v ty => S v → IsOver S ty)
      (fun choices h ty hty hS => hclosed.inst choices h hS ty hty) e he hS

omit [DecidableEq α] in
lemma SubstPack.chosen_inst_eq_nil {m : TypeSubst α} (hm : IsChoice m pack.inst) :
    (pack.chosen m).inst = [] ↔ pack.inst = [] := by
  unfold SubstPack.chosen
  rw [List.map_eq_nil_iff, ← List.length_eq_zero_iff, ← List.length_eq_zero_iff, hm.length_eq]

/-- A type is left as it is, or becomes invalid, when instances are left out. -/
def SubstPack.Agrees (S : α → Prop) [DecidablePred S] (pack : SubstPack α) (ty : TyTree α) : Prop :=
  ty.isTyCorrect = true ∨ ty = builtin .TYPE_INVALID ∨
    ((pack.within S).inst = [] ↔ pack.inst = [])

/-- The part within the variables that are used is applied like the whole pack to the types that
are correct, and to others if both have instances or neither has. -/
lemma applySubstPack_within_iff {S : α → Prop} [DecidablePred S] (hclosed : pack.ClosedUnder S)
    {ty : TyTree α} (hty : IsOver S ty) (hmade : ty.Made) :
    applySubstPack generic address ignoreUnsolved ty (pack.within S) =
        applySubstPack generic address ignoreUnsolved ty pack ↔ pack.Agrees S ty := by
  unfold SubstPack.Agrees
  cases hcorrect : ty.isTyCorrect with
  | true => exact iff_of_true (applySubstPack_within hclosed hty hmade hcorrect) (Or.inl rfl)
  | false =>
    rw [applySubstPack_of_not_isTyCorrect hcorrect, applySubstPack_of_not_isTyCorrect hcorrect,
      or_iff_right Bool.false_ne_true]
    by_cases hwhole : pack.inst = []
    · have hpart : (pack.within S).inst = [] := by
        unfold SubstPack.within TyTree.within
        rw [hwhole]
        rfl
      rw [if_pos hwhole, if_pos hpart]
      exact iff_of_true rfl (Or.inr (iff_of_true hpart hwhole))
    · rw [if_neg hwhole]
      split_ifs with hpart
      · refine ⟨Or.inl, fun h => h.resolve_right fun hiff => hwhole (hiff.mp hpart)⟩
      · exact iff_of_true rfl (Or.inr (iff_of_false hpart hwhole))

omit [DecidableEq α] in
lemma SubstPack.agrees_chosen {S : α → Prop} [DecidablePred S] {m : TypeSubst α}
    (hm : IsChoice m pack.inst) {ty : TyTree α} :
    (pack.chosen m).Agrees S ty ↔ pack.Agrees S ty := by
  have hpart : IsChoice (TyTree.within S m) (pack.within S).inst := hm.within
  unfold SubstPack.Agrees
  rw [← SubstPack.chosen_within, SubstPack.chosen_inst_eq_nil hm,
    SubstPack.chosen_inst_eq_nil hpart]

/-- The part within the variables that are used is expanded to the same types, unless a variable is
mapped to no type or the types that are not correct are left as they are. -/
lemma SubstPack.sameResults_within_iff (S : α → Prop) [DecidablePred S]
    (hclosed : pack.ClosedUnder S) (htys : ∀ ty ∈ tys, IsOver S ty ∧ ty.Made) :
    SameResults (applySubstPack generic address ignoreUnsolved) tys (pack.within S).expandFiltered
        pack.expandFiltered ↔
      ((∃ entry ∈ pack.inst, entry.2 = []) → ∃ entry ∈ pack.inst, S entry.1 ∧ entry.2 = []) ∧
        ∀ ty ∈ tys, pack.Agrees S ty := by
  have happly : ∀ m, IsChoice m pack.inst → ∀ ty ∈ tys,
      (applySubstPack generic address ignoreUnsolved ty
          ((pack.within S).chosen (TyTree.within S m)) =
        applySubstPack generic address ignoreUnsolved ty (pack.chosen m) ↔ pack.Agrees S ty) := by
    intro m hm ty hty
    rw [SubstPack.chosen_within, applySubstPack_within_iff (hclosed.chosen hm) (htys ty hty).1
      (htys ty hty).2, SubstPack.agrees_chosen hm]
  constructor
  · intro hsame
    have hempty : (∃ entry ∈ pack.inst, entry.2 = []) →
        ∃ entry ∈ pack.inst, S entry.1 ∧ entry.2 = [] := by
      rintro ⟨entry, hentry, hnil⟩
      by_contra hnone
      obtain ⟨m', hm'⟩ : ∃ m', IsChoice m' (pack.within S).inst := by
        refine exists_isChoice_iff.mpr fun choices hchoices hempty => hnone ?_
        obtain ⟨hmem, hS⟩ := mem_within.mp hchoices
        exact ⟨choices, hmem, hS, hempty⟩
      obtain ⟨chosen, hchosen, -⟩ :=
        (hsame _).mp ⟨_, SubstPack.mem_expandFiltered.mpr ⟨m', hm', rfl⟩, rfl⟩
      obtain ⟨m, hm, -⟩ := SubstPack.mem_expandFiltered.mp hchosen
      exact exists_isChoice_iff.mp ⟨m, hm⟩ entry hentry hnil
    refine ⟨hempty, fun ty hty => ?_⟩
    by_cases hpart : (pack.within S).inst = []
    · -- The only choice is the empty one, so that both packs give the same types.
      have hnil : IsChoice [] (pack.within S).inst := by
        rw [hpart]
        exact List.Forall₂.nil
      obtain ⟨chosen, hchosen, heq⟩ :=
        (hsame _).mp ⟨_, SubstPack.mem_expandFiltered.mpr ⟨[], hnil, rfl⟩, rfl⟩
      obtain ⟨m, hm, rfl⟩ := SubstPack.mem_expandFiltered.mp hchosen
      have hm' : IsChoice (TyTree.within S m) (pack.within S).inst := hm.within
      rw [hpart] at hm'
      have hone := happly m hm ty hty
      rw [List.forall₂_nil_right_iff.mp hm'] at hone
      exact hone.mp (List.map_inj_left.mp heq.symm ty hty)
    · refine Or.inr (Or.inr (iff_of_false hpart fun hwhole => hpart ?_))
      unfold SubstPack.within TyTree.within
      rw [hwhole]
      rfl
  · rintro ⟨hempty, hagrees⟩ res
    have hall : ∀ m, IsChoice m pack.inst →
        tys.map (fun ty => applySubstPack generic address ignoreUnsolved ty
          ((pack.within S).chosen (TyTree.within S m))) =
        tys.map fun ty => applySubstPack generic address ignoreUnsolved ty (pack.chosen m) :=
      fun m hm => List.map_congr_left fun ty hty => (happly m hm ty hty).mpr (hagrees ty hty)
    constructor
    · rintro ⟨chosen, hchosen, rfl⟩
      obtain ⟨m', hm', rfl⟩ := SubstPack.mem_expandFiltered.mp hchosen
      obtain ⟨m, hm, rfl⟩ := exists_isChoice_of_within_of_empty hempty hm'
      exact ⟨_, SubstPack.mem_expandFiltered.mpr ⟨m, hm, rfl⟩, (hall m hm).symm⟩
    · rintro ⟨chosen, hchosen, rfl⟩
      obtain ⟨m, hm, rfl⟩ := SubstPack.mem_expandFiltered.mp hchosen
      exact ⟨_, SubstPack.mem_expandFiltered.mpr ⟨_, hm.within, rfl⟩, hall m hm⟩

omit [DecidableEq α] in
/-- All types agree if they are correct or invalid, in case only the instances are left out. -/
lemma SubstPack.forall_agrees_iff {S : α → Prop} [DecidablePred S] :
    (∀ ty ∈ tys, pack.Agrees S ty) ↔ (pack.inst ≠ [] → (∀ entry ∈ pack.inst, ¬ S entry.1) →
      ∀ ty ∈ tys, ty.isTyCorrect = true ∨ ty = builtin .TYPE_INVALID) := by
  have hnil : (pack.within S).inst = [] ↔ ∀ entry ∈ pack.inst, ¬ S entry.1 := by
    unfold SubstPack.within TyTree.within
    rw [List.filter_eq_nil_iff]
    exact forall₂_congr fun entry _ => by rw [decide_eq_true_iff]
  unfold SubstPack.Agrees
  rw [← hnil]
  constructor
  · intro h hwhole hpart ty hty
    exact (or_assoc.mpr (h ty hty)).resolve_right fun hiff => hwhole (hiff.mp hpart)
  · intro h ty hty
    by_cases hwhole : pack.inst = []
    · refine Or.inr (Or.inr (iff_of_true (hnil.mpr fun entry hentry => ?_) hwhole))
      rw [hwhole] at hentry
      exact absurd hentry List.not_mem_nil
    · by_cases hpart : (pack.within S).inst = []
      · exact or_assoc.mp (Or.inl (h hwhole hpart ty hty))
      · exact Or.inr (Or.inr (iff_of_false hpart hwhole))

lemma SubstPack.keepsUsed_iff (htys : ∀ ty ∈ tys, ty.Made) :
    pack.KeepsUsed generic address ignoreUnsolved tys ↔
      pack.FoundSoon tys ∧ pack.EmptyFound tys ∧ pack.CorrectUnlessFound tys := by
  classical
  have hsame : (∀ entry ∈ pack.u2i, entry ∈ (pack.filterUnusedMapping tys).u2i ↔
        pack.Used tys entry.1) →
      (∀ entry ∈ pack.inst, entry ∈ (pack.filterUnusedMapping tys).inst ↔
        pack.Used tys entry.1) →
      (SameResults (applySubstPack generic address ignoreUnsolved) tys
        (pack.expandMultiTypeSubst tys) pack.expandFiltered ↔
        pack.EmptyFound tys ∧ pack.CorrectUnlessFound tys) := by
    intro hu2i hinst
    have hwithin : pack.filterUnusedMapping tys = pack.within (pack.Used tys) := by
      have hfirst : (pack.filterUnusedMapping tys).u2i = TyTree.within (pack.Used tys) pack.u2i :=
        filter_eq_within hu2i
      have hsecond : (pack.filterUnusedMapping tys).inst =
          TyTree.within (pack.Used tys) pack.inst :=
        filter_eq_within hinst
      rw [SubstPack.within, ← hfirst, ← hsecond]
    have hfound : ∀ entry ∈ pack.inst, (pack.Used tys entry.1 ↔
        ReachedIn (pack.FoundIn tys) pack.Found 1 entry.1) := fun entry hentry =>
      (hinst entry hentry).symm.trans (SubstPack.mem_filterUnusedMapping_inst hentry)
    rw [SubstPack.expandMultiTypeSubst, hwithin, SubstPack.sameResults_within_iff (pack.Used tys)
      SubstPack.closedUnder_used fun ty hty => ⟨SubstPack.isOver_used hty, htys ty hty⟩,
      SubstPack.forall_agrees_iff]
    refine and_congr (imp_congr_right fun _ => exists_congr fun entry => ?_)
      (imp_congr_right fun _ => imp_congr_left (forall₂_congr fun entry hentry => ?_))
    · exact and_congr_right fun hentry => and_congr_left fun _ => hfound entry hentry
    · exact not_congr (hfound entry hentry)
  constructor
  · intro h
    exact ⟨SubstPack.kept_iff_used.mp ⟨h.u2i, h.inst⟩, (hsame h.u2i h.inst).mp h.same⟩
  · rintro ⟨hsoon, hrest⟩
    obtain ⟨hu2i, hinst⟩ := SubstPack.kept_iff_used.mpr hsoon
    exact ⟨hu2i, hinst, (hsame hu2i hinst).mpr hrest⟩

/-! ## The condition -/

/-- Exactly the mappings that are used are kept, and the expansions give the same types, if and only
if no variable is used in a second or third step only, a variable that is mapped to no type is not
left out alone, and incorrect types are not left without instances. -/
theorem filterUnusedMapping_keepsUsed_iff (generic : ℕ → Bool) (address : TyTree α → ℕ)
    (ignoreUnsolved : Bool) (tys : List (TyTree α)) (htys : ∀ ty ∈ tys, ty.Made) :
    (∀ mapping : MultiTypeSubst α, (∀ entry ∈ mapping, ∀ ty ∈ entry.2, ty.Made) →
        (KeepsUsed generic mapping tys ↔ FoundSoon mapping tys ∧ EmptyFound mapping tys)) ∧
      ∀ pack : SubstPack α, pack.KeepsUsed generic address ignoreUnsolved tys ↔
        pack.FoundSoon tys ∧ pack.EmptyFound tys ∧ pack.CorrectUnlessFound tys :=
  ⟨fun _ hrhs => keepsUsed_iff htys hrhs, fun _ => SubstPack.keepsUsed_iff htys⟩

/-- A variable that is mapped to a type without variables. -/
theorem filterUnusedMapping_keepsUsed_int64 :
    KeepsUsed (fun _ => false) [(0, [builtin .TYPE_INT64])] [generics (0 : ℕ)] ∧
      (SubstPack.mk [(0, 1)] [(1, [builtin .TYPE_INT64])]).KeepsUsed (fun _ => false)
        (fun _ => 0) false [generics (0 : ℕ)] := by
  have hfound : FoundIn [generics (0 : ℕ)] 0 := ⟨_, List.mem_singleton_self _, by
    rw [getAllGenericTys]
    exact List.mem_singleton_self 0⟩
  obtain ⟨hplain, hpack⟩ := filterUnusedMapping_keepsUsed_iff (fun _ => false) (fun _ => 0) false
    [generics (0 : ℕ)] (List.forall_mem_singleton.mpr (by rw [Made]; trivial))
  refine ⟨(hplain _ ?_).mpr ⟨?_, ?_⟩, (hpack _).mpr ⟨⟨?_, ?_⟩, ?_, ?_⟩⟩
  · simp [Made]
  · exact List.forall_mem_singleton.mpr fun _ => Or.inl hfound
  · simp [EmptyFound]
  · refine List.forall_mem_singleton.mpr (iff_of_true (Or.inl ⟨0, hfound, rfl⟩) ?_)
    exact ReachedIn.mono (n := 0) hfound.occursIn (Nat.zero_le 3)
  · exact List.forall_mem_singleton.mpr fun _ => Or.inl ⟨0, hfound, rfl⟩
  · simp [SubstPack.EmptyFound]
  · exact fun _ _ => List.forall_mem_singleton.mpr (Or.inl (by rw [isTyCorrect]))

/-- The last variable of a chain of three variables is used, but its mapping is removed. -/
theorem exists_not_keepsUsed :
    ∃ (mapping : MultiTypeSubst ℕ) (tys : List (TyTree ℕ)), (∀ ty ∈ tys, ty.Made) ∧
      (∀ entry ∈ mapping, ∀ ty ∈ entry.2, ty.Made) ∧
      ∀ generic, ¬ KeepsUsed generic mapping tys := by
  let mapping : MultiTypeSubst ℕ :=
    [(0, [generics 1]), (1, [generics 2]), (2, [builtin .TYPE_INT64])]
  have hmem : (2, [builtin .TYPE_INT64]) ∈ mapping := by simp [mapping]
  have hused : Used mapping [generics 0] 2 := by
    have hstart : Used mapping [generics 0] 0 :=
      Reached.of_start ⟨_, List.mem_singleton_self _, by rw [vars_generics]; simp⟩
    have hfirst : Occurs mapping 0 1 := ⟨[generics 1], by simp [mapping], generics 1, by simp,
      by rw [vars_generics]; simp⟩
    have hsecond : Occurs mapping 1 2 := ⟨[generics 2], by simp [mapping], generics 2, by simp,
      by rw [vars_generics]; simp⟩
    exact (hstart.tail hfirst).tail hsecond
  refine ⟨mapping, [generics 0], by simp [Made], by simp [mapping, Made], fun generic h => ?_⟩
  have hfound := (mem_filterUnusedMapping hmem).mp ((h.kept _ hmem).mpr hused)
  rcases hfound with ⟨ty, hty, hv⟩ | ⟨u, ⟨ty, hty, hu⟩, ⟨ty', hty', hv⟩⟩
  · obtain rfl := List.mem_singleton.mp hty
    simp [getAllGenericTys] at hv
  · obtain rfl := List.mem_singleton.mp hty
    rw [getAllGenericTys, List.mem_singleton] at hu
    subst hu
    obtain rfl : ty' = generics 1 := by simpa [targets, mapping] using hty'
    simp [getAllGenericTys] at hv

end Cangjie.AST.TyTree
