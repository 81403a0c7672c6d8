import CangjieCompiler.Sema.SubstWithin
import Mathlib.Data.List.MinMax

/-!
# Applying substitution packs

A pack is applied to a type by instantiating the universal variables with their instance variables,
and then instantiating the result with one of the types that the instance variables stand for.  For
this the multi-substitution is reduced to the variables of the type, from which chains of variables
are followed, and the reduced one is filtered and expanded again.

What is applied to a type over a set of variables depends on the part within the set only.
-/

namespace Cangjie.AST.TyTree

variable {α : Type} [DecidableEq α]

/-! ## Equality -/

mutual

def decEq : (ty ty' : TyTree α) → Decidable (ty = ty')
  | builtin kind, builtin kind' => decidable_of_iff (kind = kind') ⟨congrArg builtin, builtin.inj⟩
  | generics tv, generics tv' => decidable_of_iff (tv = tv') ⟨congrArg generics, generics.inj⟩
  | node shape parts, node shape' parts' =>
    match decEqs parts parts' with
    | isTrue h => decidable_of_iff (shape = shape')
      ⟨fun hshape => h ▸ hshape ▸ rfl, fun heq => (node.inj heq).1⟩
    | isFalse h => isFalse fun heq => h (node.inj heq).2
  | builtin _, generics _ => isFalse nofun
  | builtin _, node _ _ => isFalse nofun
  | generics _, builtin _ => isFalse nofun
  | generics _, node _ _ => isFalse nofun
  | node _ _, builtin _ => isFalse nofun
  | node _ _, generics _ => isFalse nofun

def decEqs : (tys tys' : List (TyTree α)) → Decidable (tys = tys')
  | [], [] => isTrue rfl
  | [], _ :: _ => isFalse nofun
  | _ :: _, [] => isFalse nofun
  | ty :: tys, ty' :: tys' =>
    match decEq ty ty', decEqs tys tys' with
    | isTrue h, isTrue hs => isTrue (congrArg₂ List.cons h hs)
    | isFalse h, _ => isFalse fun heq => h (List.cons.inj heq).1
    | _, isFalse hs => isFalse fun heq => hs (List.cons.inj heq).2

end

instance : DecidableEq (TyTree α) := decEq

/-! ## The functions of the source -/

/-- The variables among some types, the last one first. -/
def tyVarsOf (tys : List (TyTree α)) : List α :=
  (tys.filterMap fun ty => match ty with | generics tv => some tv | _ => none).reverse

/-- Erasing a variable from a set of types. -/
def eraseTyVar (tys : List (TyTree α)) (tv : α) : List (TyTree α) :=
  tys.filter fun ty => decide (ty ≠ generics tv)

/-- Erasing keys. -/
def eraseKeys (mts : MultiTypeSubst α) (tyVars : List α) : MultiTypeSubst α :=
  mts.filter fun entry => decide (entry.1 ∉ tyVars)

lemma length_eraseKeys_lt {mts : MultiTypeSubst α} {tv : α} {tyVars : List α}
    (h : mts.lookup tv ≠ none) (htv : tv ∈ tyVars) :
    (eraseKeys mts tyVars).length < mts.length := by
  obtain ⟨tys, hlookup⟩ := Option.ne_none_iff_exists'.mp h
  refine List.length_filter_lt_length_iff_exists.mpr ⟨_, mem_of_lookup hlookup, ?_⟩
  simpa using htv

/-- The loop of `GetDirectMappingTys`, with what is left of the mapping, the stack with its top
first, and the result. -/
def directMappingTys (mapping : MultiTypeSubst α) (stack : List α) (res : List (TyTree α)) :
    List (TyTree α) :=
  match stack with
  | [] => res
  | curTy :: stack =>
    if _ : mapping.lookup curTy = none then directMappingTys mapping stack res
    else
      let targetTys := eraseTyVar (targets mapping curTy) curTy
      if targetTys = [] then directMappingTys (eraseKeys mapping [curTy]) stack res
      else
        directMappingTys (eraseKeys mapping [curTy]) (tyVarsOf targetTys ++ stack)
          (eraseTyVar res curTy ∪ targetTys)
termination_by (mapping.length, stack.length)
decreasing_by
  · exact Prod.Lex.right _ (Nat.lt_succ_self _)
  · exact Prod.Lex.left _ _ (length_eraseKeys_lt ‹_› List.mem_cons_self)
  · exact Prod.Lex.left _ _ (length_eraseKeys_lt ‹_› List.mem_cons_self)

def getDirectMappingTys (tyVar : α) (mts : MultiTypeSubst α) : List (TyTree α) :=
  directMappingTys mts [tyVar] []

/-- Erasing the types in which their own variable occurs, and then what is mapped to no type. -/
def eraseSelfReferences (mts : MultiTypeSubst α) : MultiTypeSubst α :=
  mts.filterMap fun p =>
    let tys := p.2.filter fun ty => decide (p.1 ∉ ty.getAllGenericTys)
    if p.2 ≠ [] ∧ tys = [] then none else some (p.1, tys)

/-- `ReduceMultiTypeSubst`, where the types are instantiated by a function. -/
def reduceMultiTypeSubst (instantiated : MultiTypeSubst α → TyTree α → List (TyTree α))
    (tyVars : List α) (mts : MultiTypeSubst α) : MultiTypeSubst α :=
  let mapping := eraseKeys (eraseSelfReferences mts) tyVars
  let res := (tyVars.map fun tyVar => (tyVar, getDirectMappingTys tyVar mts)).filter fun it =>
    !it.2.isEmpty
  res.map fun it => (it.1, (it.2.flatMap (instantiated mapping)).dedup)

/-- `GetInstantiatedTys`.  The fuel bounds the number of mappings. -/
def getInstantiatedTys (generic : ℕ → Bool) : ℕ → MultiTypeSubst α → TyTree α → List (TyTree α)
  | 0, _, ty => [ty]
  | fuel + 1, mts, ty =>
    if mts.isEmpty then [ty]
    else
      let tyVars := ty.getAllGenericTys.dedup
      let ms := expandMultiTypeSubst
        (reduceMultiTypeSubst (getInstantiatedTys generic fuel) tyVars mts) [ty]
      let res := (ms.map fun m => instantiate generic m ty).dedup
      if 1 < res.length then res.filter fun instTy => decide (instTy ≠ ty) else res

/-- `GetBestInstantiatedTy`.  Sets of types are ordered by their addresses. -/
def getBestInstantiatedTy (generic : ℕ → Bool) (address : TyTree α → ℕ) (ty : TyTree α)
    (mts : MultiTypeSubst α) : TyTree α :=
  if mts.isEmpty then ty
  else if !ty.isTyCorrect then builtin .TYPE_INVALID
  else ((getInstantiatedTys generic mts.length mts ty).argmin address).getD ty

/-- The universal variables that are instantiated. -/
def SubstPack.solved (ignoreUnsolved : Bool) (maps : SubstPack α) : List (α × α) :=
  if ignoreUnsolved then maps.u2i.filter fun entry => (maps.inst.lookup entry.2).isSome
  else maps.u2i

def applySubstPack (generic : ℕ → Bool) (address : TyTree α → ℕ) (ignoreUnsolved : Bool)
    (declaredTy : TyTree α) (maps : SubstPack α) : TyTree α :=
  let u2i := (maps.solved ignoreUnsolved).map fun entry => (entry.1, generics entry.2)
  let t1 := instantiate generic u2i declaredTy
  getBestInstantiatedTy generic address t1 maps.inst

/-! ## Erasing -/

variable {S : α → Prop} {mts : MultiTypeSubst α} {ty : TyTree α} {generic : ℕ → Bool}

/-- The variables of a set are mapped to types over the set only. -/
def AllClosedUnder (S : α → Prop) (mts : MultiTypeSubst α) : Prop :=
  ∀ entry ∈ mts, S entry.1 → ∀ ty ∈ entry.2, IsOver S ty

lemma AllClosedUnder.eraseKeys (h : AllClosedUnder S mts) (tyVars : List α) :
    AllClosedUnder S (eraseKeys mts tyVars) :=
  fun entry hentry => h entry (List.mem_of_mem_filter hentry)

lemma AllClosedUnder.eraseSelfReferences (h : AllClosedUnder S mts) :
    AllClosedUnder S (eraseSelfReferences mts) := by
  intro entry hentry hS ty hty
  obtain ⟨p, hp, hentry⟩ := List.mem_filterMap.mp hentry
  dsimp only at hentry
  split_ifs at hentry
  obtain rfl := Option.some.inj hentry
  exact h p hp hS ty (List.mem_of_mem_filter hty)

/-- Erasing self references commutes with leaving out keys. -/
lemma eraseSelfReferences_filter (p : α → Bool) :
    eraseSelfReferences (mts.filter fun entry => p entry.1) =
      (eraseSelfReferences mts).filter fun entry => p entry.1 := by
  unfold eraseSelfReferences
  rw [List.filterMap_filter, List.filter_filterMap]
  congr 1
  funext entry
  dsimp only
  cases hp : p entry.1 with
  | false =>
    rw [if_neg Bool.false_ne_true]
    split_ifs
    · rfl
    · exact (if_neg (by simp [hp])).symm
  | true =>
    rw [if_pos rfl]
    split_ifs
    · rfl
    · exact (if_pos (by simp [hp])).symm

omit [DecidableEq α] in
lemma mem_tyVarsOf {tys : List (TyTree α)} {tv : α} : tv ∈ tyVarsOf tys ↔ generics tv ∈ tys := by
  unfold tyVarsOf
  rw [List.mem_reverse, List.mem_filterMap]
  constructor
  · rintro ⟨ty, hty, heq⟩
    cases ty with
    | generics u => exact Option.some.inj heq ▸ hty
    | builtin kind => exact absurd heq nofun
    | node shape parts => exact absurd heq nofun
  · exact fun h => ⟨_, h, rfl⟩

/-! ## The fuel -/

lemma getDirectMappingTys_of_lookup {tv : α} (h : mts.lookup tv = none) :
    getDirectMappingTys tv mts = [] := by
  rw [getDirectMappingTys, directMappingTys, dif_pos h, directMappingTys]

/-- The mappings that are left for the types that variables are followed to are fewer. -/
lemma length_reduced_lt {tyVars : List α} {tv : α} (htv : tv ∈ tyVars)
    (h : getDirectMappingTys tv mts ≠ []) :
    (eraseKeys (eraseSelfReferences mts) tyVars).length < mts.length := by
  have hcomm : eraseKeys (eraseSelfReferences mts) tyVars =
      eraseSelfReferences (eraseKeys mts tyVars) :=
    (eraseSelfReferences_filter fun v => decide (v ∉ tyVars)).symm
  rw [hcomm]
  calc (eraseSelfReferences (eraseKeys mts tyVars)).length ≤ (eraseKeys mts tyVars).length :=
        List.length_filterMap_le _ _
    _ < mts.length := length_eraseKeys_lt (fun hnone => h (getDirectMappingTys_of_lookup hnone)) htv

/-- What is reduced depends on what the variables are followed to, and on what these types are
instantiated to. -/
lemma reduceMultiTypeSubst_congr {f f' : MultiTypeSubst α → TyTree α → List (TyTree α)}
    {mts' : MultiTypeSubst α} {tyVars : List α}
    (hdirect : ∀ tv ∈ tyVars, getDirectMappingTys tv mts' = getDirectMappingTys tv mts)
    (h : ∀ tv ∈ tyVars, ∀ t ∈ getDirectMappingTys tv mts,
      f' (eraseKeys (eraseSelfReferences mts') tyVars) t =
        f (eraseKeys (eraseSelfReferences mts) tyVars) t) :
    reduceMultiTypeSubst f' tyVars mts' = reduceMultiTypeSubst f tyVars mts := by
  have hmap : tyVars.map (fun tyVar => (tyVar, getDirectMappingTys tyVar mts')) =
      tyVars.map fun tyVar => (tyVar, getDirectMappingTys tyVar mts) :=
    List.map_congr_left fun tv htv => by rw [hdirect tv htv]
  unfold reduceMultiTypeSubst
  dsimp only
  rw [hmap]
  refine List.map_congr_left fun it hit => ?_
  obtain ⟨tv, htv, rfl⟩ := List.mem_map.mp (List.mem_of_mem_filter hit)
  have hflat : (getDirectMappingTys tv mts).flatMap
      (f' (eraseKeys (eraseSelfReferences mts') tyVars)) =
      (getDirectMappingTys tv mts).flatMap (f (eraseKeys (eraseSelfReferences mts) tyVars)) :=
    List.flatMap_congr fun t ht => h tv htv t ht
  dsimp only
  rw [hflat]

/-- No test for an empty substitution is needed. -/
lemma getInstantiatedTys_succ (fuel : ℕ) :
    getInstantiatedTys generic (fuel + 1) mts ty =
      let ms := expandMultiTypeSubst
        (reduceMultiTypeSubst (getInstantiatedTys generic fuel) ty.getAllGenericTys.dedup mts) [ty]
      let res := (ms.map fun m => instantiate generic m ty).dedup
      if 1 < res.length then res.filter fun instTy => decide (instTy ≠ ty) else res := by
  rw [getInstantiatedTys]
  split_ifs with hempty
  · obtain rfl := List.isEmpty_iff.mp hempty
    have hnil : reduceMultiTypeSubst (getInstantiatedTys generic fuel) ty.getAllGenericTys.dedup
        ([] : MultiTypeSubst α) = [] := by
      unfold reduceMultiTypeSubst
      dsimp only
      refine List.map_eq_nil_iff.mpr (List.filter_eq_nil_iff.mpr fun it hit => ?_)
      obtain ⟨tv, -, rfl⟩ := List.mem_map.mp hit
      rw [getDirectMappingTys_of_lookup rfl]
      exact Bool.false_ne_true
    rw [hnil]
    have hexpand : expandMultiTypeSubst ([] : MultiTypeSubst α) [ty] = [[]] := rfl
    simp [hexpand, instantiate_nil]
  · rfl

lemma getInstantiatedTys_nil (fuel : ℕ) : getInstantiatedTys generic fuel [] ty = [ty] := by
  cases fuel <;> rfl

/-- The fuel does not matter if it is enough. -/
lemma getInstantiatedTys_eq_of_le {n m : ℕ} (hn : mts.length ≤ n) (hm : mts.length ≤ m) :
    getInstantiatedTys generic n mts ty = getInstantiatedTys generic m mts ty := by
  induction n generalizing m mts ty with
  | zero =>
    obtain rfl := List.length_eq_zero_iff.mp (Nat.le_zero.mp hn)
    rw [getInstantiatedTys_nil, getInstantiatedTys_nil]
  | succ n ih =>
    cases m with
    | zero =>
      obtain rfl := List.length_eq_zero_iff.mp (Nat.le_zero.mp hm)
      rw [getInstantiatedTys_nil, getInstantiatedTys_nil]
    | succ m =>
      have hreduce : reduceMultiTypeSubst (getInstantiatedTys generic n)
          ty.getAllGenericTys.dedup mts =
          reduceMultiTypeSubst (getInstantiatedTys generic m) ty.getAllGenericTys.dedup mts := by
        refine reduceMultiTypeSubst_congr (fun _ _ => rfl) fun tv htv t ht => ?_
        have hlt := length_reduced_lt htv (List.ne_nil_of_mem ht)
        exact ih (by omega) (by omega)
      rw [getInstantiatedTys_succ, getInstantiatedTys_succ, hreduce]

/-! ## Within a set of variables -/

variable [DecidablePred S]

lemma eraseKeys_within (tyVars : List α) :
    eraseKeys (within S mts) tyVars = within S (eraseKeys mts tyVars) := by
  unfold eraseKeys within
  rw [List.filter_filter, List.filter_filter]
  exact List.filter_congr fun entry _ => Bool.and_comm _ _

lemma targets_within {tv : α} (h : S tv) : targets (within S mts) tv = targets mts tv := by
  rw [targets, targets, lookup_within h]

/-- Chains of variables of the set stay within the set. -/
lemma directMappingTys_within {stack : List α} {res : List (TyTree α)}
    (hclosed : AllClosedUnder S mts) (hstack : ∀ tv ∈ stack, S tv) (hres : ∀ ty ∈ res, IsOver S ty) :
    directMappingTys (within S mts) stack res = directMappingTys mts stack res ∧
      ∀ ty ∈ directMappingTys mts stack res, IsOver S ty := by
  fun_induction directMappingTys mts stack res with
  | case1 mts res =>
    rw [directMappingTys]
    exact ⟨rfl, hres⟩
  | case2 mts res curTy stack hnone ih =>
    have hS : S curTy := hstack curTy List.mem_cons_self
    rw [directMappingTys, dif_pos (by rw [lookup_within hS, hnone])]
    exact ih hclosed (fun tv htv => hstack tv (List.mem_cons_of_mem _ htv)) hres
  | case3 mts res curTy stack hsome targetTys hnil ih =>
    have hS : S curTy := hstack curTy List.mem_cons_self
    rw [directMappingTys, dif_neg (by rw [lookup_within hS]; exact hsome), targets_within hS]
    dsimp only
    rw [if_pos hnil, eraseKeys_within]
    exact ih (hclosed.eraseKeys _) (fun tv htv => hstack tv (List.mem_cons_of_mem _ htv)) hres
  | case4 mts res curTy stack hsome targetTys hne ih =>
    have hS : S curTy := hstack curTy List.mem_cons_self
    have htargets : ∀ ty ∈ targetTys, IsOver S ty := by
      intro ty hty
      obtain ⟨tys, hmem, hty⟩ := mem_of_mem_targets (List.mem_of_mem_filter hty)
      exact hclosed _ hmem hS ty hty
    rw [directMappingTys, dif_neg (by rw [lookup_within hS]; exact hsome), targets_within hS]
    dsimp only
    rw [if_neg hne, eraseKeys_within]
    refine ih (hclosed.eraseKeys _) (fun tv htv => ?_) fun ty hty => ?_
    · rcases List.mem_append.mp htv with htv | htv
      · exact isOver_generics.mp (htargets _ (mem_tyVarsOf.mp htv))
      · exact hstack tv (List.mem_cons_of_mem _ htv)
    · rcases List.mem_union_iff.mp hty with hty | hty
      · exact hres ty (List.mem_of_mem_filter hty)
      · exact htargets ty hty

lemma getDirectMappingTys_within {tv : α} (hclosed : AllClosedUnder S mts) (htv : S tv) :
    getDirectMappingTys tv (within S mts) = getDirectMappingTys tv mts ∧
      ∀ t ∈ getDirectMappingTys tv mts, IsOver S t :=
  directMappingTys_within hclosed (List.forall_mem_singleton.mpr htv)
    fun _ h => absurd h List.not_mem_nil

/-- Types over a set are instantiated by the part of the multi-substitution within the set. -/
theorem getInstantiatedTys_within (fuel : ℕ) (hclosed : AllClosedUnder S mts) (hty : IsOver S ty) :
    getInstantiatedTys generic fuel (within S mts) ty = getInstantiatedTys generic fuel mts ty := by
  induction fuel generalizing mts ty with
  | zero => rfl
  | succ fuel ih =>
    have htv : ∀ tv ∈ ty.getAllGenericTys.dedup, S tv := fun tv htv =>
      hty tv (mem_vars_of_mem_getAllGenericTys (List.mem_dedup.mp htv))
    have herase : eraseKeys (eraseSelfReferences (within S mts)) ty.getAllGenericTys.dedup =
        within S (eraseKeys (eraseSelfReferences mts) ty.getAllGenericTys.dedup) := by
      rw [← eraseKeys_within]
      exact congrArg (eraseKeys · _) (eraseSelfReferences_filter fun v => decide (S v))
    have hreduce : reduceMultiTypeSubst (getInstantiatedTys generic fuel)
        ty.getAllGenericTys.dedup (within S mts) =
        reduceMultiTypeSubst (getInstantiatedTys generic fuel) ty.getAllGenericTys.dedup mts := by
      refine reduceMultiTypeSubst_congr
        (fun tv h => (getDirectMappingTys_within hclosed (htv tv h)).1) fun tv h t ht => ?_
      rw [herase]
      refine ih (hclosed.eraseSelfReferences.eraseKeys _) ?_
      exact (getDirectMappingTys_within hclosed (htv tv h)).2 t ht
    rw [getInstantiatedTys_succ, getInstantiatedTys_succ, hreduce]

/-! ## Packs -/

section Best

omit [DecidablePred S]

variable {address : TyTree α → ℕ}

lemma getBestInstantiatedTy_of_isTyCorrect (h : ty.isTyCorrect = true) :
    getBestInstantiatedTy generic address ty mts =
      ((getInstantiatedTys generic mts.length mts ty).argmin address).getD ty := by
  unfold getBestInstantiatedTy
  rw [h]
  cases mts with
  | nil => rfl
  | cons entry mts => rfl

lemma getBestInstantiatedTy_of_not_isTyCorrect (h : ty.isTyCorrect = false) :
    getBestInstantiatedTy generic address ty mts =
      if mts = [] then ty else builtin .TYPE_INVALID := by
  unfold getBestInstantiatedTy
  rw [h]
  cases mts with
  | nil => rfl
  | cons entry mts => rfl

end Best

/-- The part of a pack within a set. -/
def SubstPack.within (S : α → Prop) [DecidablePred S] (maps : SubstPack α) : SubstPack α :=
  { u2i := TyTree.within S maps.u2i, inst := TyTree.within S maps.inst }

/-- The variables of a set have instance variables in the set, which stand for types over the set.
-/
structure SubstPack.ClosedUnder (S : α → Prop) (maps : SubstPack α) : Prop where
  u2i : ∀ entry ∈ maps.u2i, S entry.1 → S entry.2
  inst : AllClosedUnder S maps.inst

/-- The type with its universal variables instantiated. -/
def SubstPack.instantiated (generic : ℕ → Bool) (ignoreUnsolved : Bool) (declaredTy : TyTree α)
    (maps : SubstPack α) : TyTree α :=
  instantiate generic
    ((maps.solved ignoreUnsolved).map fun entry => (entry.1, generics entry.2)) declaredTy

section Pack

variable {maps : SubstPack α} {address : TyTree α → ℕ} {ignoreUnsolved : Bool}

lemma SubstPack.solved_within (hclosed : maps.ClosedUnder S) :
    (maps.within S).solved ignoreUnsolved = TyTree.within S (maps.solved ignoreUnsolved) := by
  unfold SubstPack.solved SubstPack.within
  dsimp only
  split_ifs
  · unfold TyTree.within
    rw [List.filter_filter, List.filter_filter]
    refine List.filter_congr fun entry hentry => ?_
    by_cases hS : S entry.1
    · have hlookup := lookup_within (l := maps.inst) (hclosed.u2i entry hentry hS)
      unfold TyTree.within at hlookup
      rw [hlookup, Bool.and_comm]
    · rw [decide_eq_false hS, Bool.and_false, Bool.false_and]
  · rfl

section Solved

omit [DecidablePred S]

lemma SubstPack.mem_solved {entry : α × α} (h : entry ∈ maps.solved ignoreUnsolved) :
    entry ∈ maps.u2i := by
  unfold SubstPack.solved at h
  split_ifs at h
  · exact List.mem_of_mem_filter h
  · exact h

lemma SubstPack.made_solved :
    ∀ entry ∈ (maps.solved ignoreUnsolved).map fun entry => (entry.1, (generics entry.2 : TyTree α)),
      entry.2.Made := by
  intro entry hentry
  obtain ⟨_, -, rfl⟩ := List.mem_map.mp hentry
  rw [Made]
  trivial

lemma SubstPack.ClosedUnder.solved (hclosed : maps.ClosedUnder S) :
    TyTree.ClosedUnder S
      ((maps.solved ignoreUnsolved).map fun entry => (entry.1, generics entry.2)) := by
  intro entry hentry hS
  obtain ⟨e, he, rfl⟩ := List.mem_map.mp hentry
  exact isOver_generics.mpr (hclosed.u2i e (SubstPack.mem_solved he) hS)

lemma SubstPack.isTyCorrect_instantiated (hmade : ty.Made) (hty : ty.isTyCorrect = true) :
    (maps.instantiated generic ignoreUnsolved ty).isTyCorrect = true := by
  refine isTyCorrect_instantiate (fun entry hentry => ?_) hmade SubstPack.made_solved hty
  obtain ⟨_, -, rfl⟩ := List.mem_map.mp hentry
  rw [isTyCorrect]

/-- Incorrect types stay as they are, or become the invalid type. -/
lemma applySubstPack_of_not_isTyCorrect (h : ty.isTyCorrect = false) :
    applySubstPack generic address ignoreUnsolved ty maps =
      if maps.inst = [] then ty else builtin .TYPE_INVALID := by
  unfold applySubstPack
  dsimp only
  rw [instantiate_of_not_isTyCorrect h]
  exact getBestInstantiatedTy_of_not_isTyCorrect h

end Solved

lemma SubstPack.instantiated_within (hclosed : maps.ClosedUnder S) (hty : IsOver S ty)
    (hmade : ty.Made) :
    (maps.within S).instantiated generic ignoreUnsolved ty =
      maps.instantiated generic ignoreUnsolved ty := by
  unfold SubstPack.instantiated
  have hmap : ((maps.within S).solved ignoreUnsolved).map
      (fun entry => (entry.1, (generics entry.2 : TyTree α))) =
      TyTree.within S ((maps.solved ignoreUnsolved).map fun entry => (entry.1, generics entry.2)) := by
    rw [SubstPack.solved_within hclosed, TyTree.within, TyTree.within, List.filter_map]
    rfl
  rw [hmap]
  exact instantiate_within hclosed.solved SubstPack.made_solved hty hmade

/-- The part of a pack within a set is applied to the correct types over the set like the whole
pack. -/
theorem applySubstPack_within (hclosed : maps.ClosedUnder S) (hty : IsOver S ty) (hmade : ty.Made)
    (hcorrect : ty.isTyCorrect = true) :
    applySubstPack generic address ignoreUnsolved ty (maps.within S) =
      applySubstPack generic address ignoreUnsolved ty maps := by
  change getBestInstantiatedTy generic address
      ((maps.within S).instantiated generic ignoreUnsolved ty) (TyTree.within S maps.inst) =
    getBestInstantiatedTy generic address (maps.instantiated generic ignoreUnsolved ty) maps.inst
  have hover : IsOver S (maps.instantiated generic ignoreUnsolved ty) :=
    isOver_instantiate hclosed.solved hty hmade SubstPack.made_solved
  have hcorrect' : (maps.instantiated generic ignoreUnsolved ty).isTyCorrect = true :=
    SubstPack.isTyCorrect_instantiated hmade hcorrect
  have hle : (TyTree.within S maps.inst).length ≤ maps.inst.length := List.length_filter_le _ _
  rw [SubstPack.instantiated_within hclosed hty hmade, getBestInstantiatedTy_of_isTyCorrect hcorrect',
    getBestInstantiatedTy_of_isTyCorrect hcorrect',
    getInstantiatedTys_eq_of_le le_rfl hle,
    getInstantiatedTys_within _ hclosed.inst hover]

end Pack

end Cangjie.AST.TyTree
