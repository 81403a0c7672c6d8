import CangjieCompiler.Sema.TypeManager

/-!
# Interning of types

As long as no type argument of a node is overwritten by another type, types of equal structure are
one node, and every node is found by its structure.  Replacing ideal types in place breaks this.
-/

namespace Cangjie.TypeManager

open AST

/-! ## What the operations keep -/

variable {hash : TyKey → ℕ}

/-- The invariant of the table. -/
abbrev Consed (hash : TyKey → ℕ) (tm : TypeManager) : Prop := Pool.Consed Ty.key hash tm

lemma keeps_getTypeTy (key : TyKey) : Keeps (Consed hash) (getTypeTy hash key) := by
  refine (Keeps.reads _).bind fun ty => ?_
  intro tm a tm' htm h
  cases h
  exact htm.intern ty

lemma keeps_getArrayTy (elemTy : TyPtr) (dims : BitVec 32) :
    Keeps (Consed hash) (getArrayTy hash elemTy dims) := by
  refine (Keeps.reads _).bind fun correct => (Keeps.reads _).bind fun key => ?_
  refine Keeps.ite ?_ (keeps_getTypeTy _)
  split
  · exact keeps_getTypeTy _
  · exact keeps_getTypeTy _

lemma keeps_getPointerTy (elemTy : TyPtr) : Keeps (Consed hash) (getPointerTy hash elemTy) :=
  (Keeps.reads _).bind fun _ => keeps_getTypeTy _

lemma keeps_getInstantiatedTy (decls : Decls) (fuel : ℕ) (typeMapping : TypeSubst) (ty : TyPtr) :
    Keeps (Consed hash) (getInstantiatedTy hash decls fuel typeMapping ty) := by
  induction fuel generalizing typeMapping ty with
  | zero => exact Keeps.failure
  | succ fuel ih =>
    unfold getInstantiatedTy
    have hargs := fun tys : List TyPtr =>
      Keeps.mapM (I := Consed hash) (fun arg => ih typeMapping arg) tys
    refine (Keeps.reads _).bind fun correct => (Keeps.reads _).bind fun key => ?_
    refine Keeps.ite (Keeps.pure ty) ?_
    split
    · exact Keeps.pure ty
    · refine (Keeps.reads _).bind fun found => (Keeps.reads _).bind fun kind => ?_
      exact (Keeps.reads _).bind fun generic => Keeps.ite (ih _ _) (Keeps.pure _)
    · exact (hargs _).bind fun paramTys => (ih _ _).bind fun retTy => keeps_getTypeTy _
    · exact (hargs _).bind fun typeArgs => keeps_getTypeTy _
    · exact (ih _ _).bind fun elemTy => keeps_getArrayTy _ _
    · exact (ih _ _).bind fun elemTy => keeps_getPointerTy _
    · exact Keeps.ite (Keeps.pure ty) ((hargs _).bind fun typeArgs => keeps_getTypeTy _)
    · exact (hargs _).bind fun tys => keeps_getTypeTy _
    · exact (hargs _).bind fun tys => keeps_getTypeTy _
    · exact Keeps.pure ty

lemma keeps_substituteTypeAliasInTy (decls : Decls) (fuel : ℕ) (needSubstituteGeneric : Bool)
    (typeMapping : TypeSubst) (ty : TyPtr) :
    Keeps (Consed hash)
      (substituteTypeAliasInTy hash decls fuel needSubstituteGeneric typeMapping ty) := by
  induction fuel generalizing ty with
  | zero => exact Keeps.failure
  | succ fuel ih =>
    unfold substituteTypeAliasInTy
    refine (Keeps.reads _).bind fun correct => (Keeps.reads _).bind fun key => ?_
    refine Keeps.ite (Keeps.pure _) ?_
    split
    · exact Keeps.pure ty
    · refine (Keeps.mapM (fun arg => ?_) _).bind fun typeArgs => ?_
      · exact (Keeps.reads _).bind fun correct => Keeps.ite (ih arg) (Keeps.pure arg)
      · split
        · exact keeps_getTypeTy _
        · exact keeps_getTypeTy _
        · exact keeps_getTypeTy _
        · exact keeps_getTypeTy _
        · exact keeps_getTypeTy _
        · exact keeps_getTypeTy _
        · exact keeps_getTypeTy _
        · refine Keeps.ite (Keeps.pure _) ((Keeps.reads _).bind fun aliasMapping => ?_)
          refine (keeps_getInstantiatedTy decls fuel _ _).bind fun instAliasedTy => ?_
          exact (Keeps.reads _).bind fun kind => Keeps.ite (ih _) (Keeps.pure _)
        · exact keeps_getTypeTy _
        · exact keeps_getArrayTy _ _
        · exact keeps_getTypeTy _
        · exact keeps_getPointerTy _
        · refine Keeps.ite ?_ (Keeps.pure ty)
          split
          · exact Keeps.pure _
          · exact keeps_getTypeTy _
        · exact Keeps.pure ty
        · exact Keeps.pure ty

/-! ## Writes that change nothing -/

lemma typeArgs_of_node {tm : TypeManager} {place : ℕ} {node : Ty}
    (h : tm.nodes[place]? = some node) :
    tm.typeArgs (.allocated place) = some node.key.typeArgs := by
  unfold typeArgs
  dsimp only
  rw [h, Option.map_some]

/-- Overwriting a type argument by itself changes nothing. -/
lemma setTypeArg_self {tm : TypeManager} {ty arg : TyPtr} {index : ℕ}
    (h : (tm.typeArgs ty).bind (·[index]?) = some arg) {u : Unit} {tm' : TypeManager}
    (hset : setTypeArg ty index arg tm = some (u, tm')) : tm' = tm := by
  cases ty with
  | static kind =>
    cases hset
    rfl
  | allocated place =>
    obtain ⟨node, hnode, heq⟩ := Option.map_eq_some_iff.mp hset
    obtain ⟨args, hargs, harg⟩ := Option.bind_eq_some_iff.mp h
    rw [Option.some.inj (hargs.symm.trans (typeArgs_of_node hnode))] at harg
    have hsame : { node with key := node.key.setTypeArg index arg } = node := by
      rw [TyKey.setTypeArg_self node.key harg]
    rw [hsame] at heq
    have hpool : tm.overwrite place node = tm := by
      obtain ⟨hlt, hget⟩ := List.getElem?_eq_some_iff.mp hnode
      unfold Pool.overwrite
      rw [← hget, List.set_getElem_self]
    rw [hpool] at heq
    exact (Prod.ext_iff.mp heq).2.symm

/-- The ideal types. -/
def IsIdeal (ty : TyPtr) : Prop := ty = .static .TYPE_IDEAL_INT ∨ ty = .static .TYPE_IDEAL_FLOAT

/-- A type with an ideal type among the type arguments that are replaced, at any depth. -/
inductive IdealArg (tm : TypeManager) : TyPtr → Prop
  | direct {ty arg : TyPtr} {kind : TypeKind} {args : List TyPtr}
      (hcorrect : tm.isTyCorrect ty = some true) (hkind : tm.kind ty = some kind)
      (hreplaces : replacesIdealArgs kind = true) (hargs : tm.typeArgs ty = some args)
      (harg : arg ∈ args) (hideal : IsIdeal arg) : IdealArg tm ty
  | nested {ty arg : TyPtr} {kind : TypeKind} {args : List TyPtr}
      (hcorrect : tm.isTyCorrect ty = some true) (hkind : tm.kind ty = some kind)
      (hreplaces : replacesIdealArgs kind = true) (hargs : tm.typeArgs ty = some args)
      (harg : arg ∈ args) (hinner : IdealArg tm arg) : IdealArg tm ty

lemma isIdeal_of_kind {tm : TypeManager} {ty : TyPtr} {kind : TypeKind} (h : tm.kind ty = some kind)
    (hkind : kind = .TYPE_IDEAL_INT ∨ kind = .TYPE_IDEAL_FLOAT) : IsIdeal ty := by
  cases ty with
  | static k =>
    cases h
    exact hkind.imp (congrArg TyPtr.static) (congrArg TyPtr.static)
  | allocated place =>
    obtain ⟨node, -, hnode⟩ := Option.map_eq_some_iff.mp h
    have hne : ∀ key : TyKey, key.kind ≠ .TYPE_IDEAL_INT ∧ key.kind ≠ .TYPE_IDEAL_FLOAT := by
      intro key
      unfold TyKey.kind
      split <;> exact ⟨by decide, by decide⟩
    rcases hkind with rfl | rfl
    · exact absurd hnode (hne node.key).1
    · exact absurd hnode (hne node.key).2

/-- Replacing ideal types changes nothing when there is none to replace. -/
lemma replaceIdealTy_state {fuel : ℕ} {ty r : TyPtr} {tm tm' : TypeManager} (hno : ¬ IdealArg tm ty)
    (h : replaceIdealTy fuel ty tm = some (r, tm')) : tm' = tm ∧ (r = ty ∨ IsIdeal ty) := by
  induction fuel generalizing ty r tm' with
  | zero => cases h
  | succ fuel ih =>
    unfold replaceIdealTy at h
    obtain ⟨correct, hcorrect, h⟩ := Prog.reads_bind_eq_some h
    obtain ⟨kind, hkind, h⟩ := Prog.reads_bind_eq_some h
    split_ifs at h with hc hint hfloat hreplaces
    · cases h
      exact ⟨rfl, Or.inl rfl⟩
    · cases h
      exact ⟨rfl, Or.inr (isIdeal_of_kind hkind (Or.inl hint))⟩
    · cases h
      exact ⟨rfl, Or.inr (isIdeal_of_kind hkind (Or.inr hfloat))⟩
    · obtain ⟨args, hargs, h⟩ := Prog.reads_bind_eq_some h
      obtain ⟨u, tm₁, hloop, hlast⟩ := Prog.bind_eq_some h
      have hcorrect : tm.isTyCorrect ty = some true := by
        rw [hcorrect]
        simpa using hc
      have hstate : tm₁ = tm := by
        refine Prog.forM_state (fun index _ u tm₂ hbody => ?_) hloop
        obtain ⟨arg, harg, hbody⟩ := Prog.reads_bind_eq_some hbody
        obtain ⟨replaced, tm₃, hreplace, hset⟩ := Prog.bind_eq_some hbody
        have hmem : arg ∈ args := by
          rw [hargs] at harg
          exact List.mem_of_getElem? harg
        have hinner : ¬ IdealArg tm arg := fun hideal =>
          hno (IdealArg.nested hcorrect hkind hreplaces hargs hmem hideal)
        obtain ⟨htm₃, hsame⟩ := ih hinner hreplace
        have hreplaced : replaced = arg := hsame.resolve_right fun hideal =>
          hno (IdealArg.direct hcorrect hkind hreplaces hargs hmem hideal)
        rw [htm₃, hreplaced] at hset
        exact setTypeArg_self harg hset
      cases hlast
      exact ⟨hstate, Or.inl rfl⟩
    · cases h
      exact ⟨rfl, Or.inl rfl⟩

/-- The write of a comparison of class types changes nothing when the type arguments are the same.
-/
lemma setPartialAliasArg_state {decls : Decls} {leaf root r : TyPtr} {index : ℕ}
    {tm tm' : TypeManager}
    (hsame : (tm.typeArgs leaf).bind (·[index]?) = (tm.typeArgs root).bind (·[index]?))
    (h : setPartialAliasArg decls leaf root index tm = some (r, tm')) : tm' = tm := by
  have hargs : ∀ (ty : TyPtr) n name d args,
      tm.key? ty = some (some (.nominal n name d args)) → tm.typeArgs ty = some args := by
    intro ty n name d args hkey
    cases ty with
    | static kind => cases hkey
    | allocated place =>
      obtain ⟨node, hnode, heq⟩ := Option.map_eq_some_iff.mp hkey
      rw [typeArgs_of_node hnode, Option.some.inj heq]
      rfl
  unfold setPartialAliasArg at h
  obtain ⟨leafKey, hleaf, h⟩ := Prog.reads_bind_eq_some h
  obtain ⟨rootKey, hroot, h⟩ := Prog.reads_bind_eq_some h
  split at h
  · obtain ⟨ty, hty, h⟩ := Prog.reads_bind_eq_some h
    obtain ⟨rootArg, hrootArg, h⟩ := Prog.reads_bind_eq_some h
    obtain ⟨kind, -, h⟩ := Prog.reads_bind_eq_some h
    split_ifs at h
    · obtain ⟨u, tm₁, hset, hlast⟩ := Prog.bind_eq_some h
      cases hlast
      refine setTypeArg_self ?_ hset
      rw [← hsame, hargs leaf _ _ _ _ hleaf]
      exact hty
    · cases h
  · cases h

/-! ## Structure -/

/-- Types of equal structure: the same type, or nodes that differ in parts of equal structure only.
The parts of intersections and unions are compared as sets. -/
inductive StructEq (tm : TypeManager) : TyPtr → TyPtr → Prop
  | same (ty : TyPtr) : StructEq tm ty ty
  | nodes {p q : ℕ} {key key' : TyKey} (hp : tm.keyAt Ty.key p = some key)
      (hq : tm.keyAt Ty.key q = some key') (hshape : key.SameShape key')
      (hlength : key.parts.length = key'.parts.length)
      (hparts : ∀ (i : ℕ) (ty ty' : TyPtr), key.parts[i]? = some ty → key'.parts[i]? = some ty' →
        StructEq tm ty ty') : StructEq tm (.allocated p) (.allocated q)
  | sets {p q : ℕ} {key key' : TyKey} (hp : tm.keyAt Ty.key p = some key)
      (hq : tm.keyAt Ty.key q = some key') (hshape : key.SameShape key')
      (hset : key.isSet = true) (left right : TyPtr → TyPtr)
      (hleft : ∀ ty ∈ key.parts, left ty ∈ key'.parts)
      (hright : ∀ ty ∈ key'.parts, right ty ∈ key.parts)
      (hleftEq : ∀ ty ∈ key.parts, StructEq tm ty (left ty))
      (hrightEq : ∀ ty ∈ key'.parts, StructEq tm (right ty) ty) :
      StructEq tm (.allocated p) (.allocated q)

/-- Types of equal structure are the same pointer. -/
lemma eq_of_structEq {tm : TypeManager} (h : Consed hash tm) {ty ty' : TyPtr}
    (heq : StructEq tm ty ty') : ty = ty' := by
  induction heq with
  | same ty => rfl
  | nodes hp hq hshape hlength hparts ih =>
    have hkey := TyKey.eq_of_sameShape hshape (List.ext_getElem? fun i => by
      rename_i key key'
      rcases hi : key.parts[i]? with _ | ty
      · rw [List.getElem?_eq_none_iff] at hi
        exact (List.getElem?_eq_none_iff.mpr (hlength ▸ hi)).symm
      · obtain ⟨hlt, -⟩ := List.getElem?_eq_some_iff.mp hi
        have hi' := List.getElem?_eq_getElem (hlength ▸ hlt)
        rw [hi', ih i ty _ hi hi'])
    rw [h.injective _ _ _ hp (hkey ▸ hq)]
  | sets hp hq hshape hset left right hleft hright hleftEq hrightEq ihleft ihright =>
    have hkey := TyKey.eq_of_sameShape_of_isSet hshape hset fun ty => ⟨fun hty => by
      rw [ihleft ty hty]
      exact hleft ty hty, fun hty => by
      rw [← ihright ty hty]
      exact hright ty hty⟩
    rw [h.injective _ _ _ hp (hkey ▸ hq)]

/-! ## Runs -/

/-- An operation that overwrites no type argument by another type. -/
def OverwritesNothing (tm : TypeManager) : Op → Prop
  | .replaceIdealTy ty => ¬ IdealArg tm ty
  | .setPartialAliasArg _ leaf root index =>
    (tm.typeArgs leaf).bind (·[index]?) = (tm.typeArgs root).bind (·[index]?)
  | _ => True

/-- An operation that overwrites nothing keeps the invariant. -/
lemma perform_consed {fuel : ℕ} {op : Op} {tm tm' : TypeManager} {ty : TyPtr} (h : Consed hash tm)
    (hnothing : OverwritesNothing tm op) (hperform : perform hash fuel op tm = some (ty, tm')) :
    Consed hash tm' := by
  cases op with
  | getGenericsTy gpd => exact keeps_getTypeTy _ tm ty tm' h hperform
  | getNominalTy nominal decls decl typeArgs => exact keeps_getTypeTy _ tm ty tm' h hperform
  | getArrayTy elemTy dims => exact keeps_getArrayTy _ _ tm ty tm' h hperform
  | getVArrayTy elemTy size => exact keeps_getTypeTy _ tm ty tm' h hperform
  | getPointerTy elemTy => exact keeps_getPointerTy _ tm ty tm' h hperform
  | getTupleTy typeArgs isClosureTy => exact keeps_getTypeTy _ tm ty tm' h hperform
  | getFunctionTy paramTys retTy cfg => exact keeps_getTypeTy _ tm ty tm' h hperform
  | getIntersectionTy tys => exact keeps_getTypeTy _ tm ty tm' h hperform
  | getUnionTy tys => exact keeps_getTypeTy _ tm ty tm' h hperform
  | getInstantiatedTy decls typeMapping arg =>
    exact keeps_getInstantiatedTy _ _ _ _ tm ty tm' h hperform
  | substituteTypeAliasInTy decls needSubstituteGeneric typeMapping arg =>
    exact keeps_substituteTypeAliasInTy _ _ _ _ _ tm ty tm' h hperform
  | replaceIdealTy arg =>
    obtain ⟨hstate, -⟩ := replaceIdealTy_state hnothing hperform
    exact hstate ▸ h
  | setPartialAliasArg decls leaf root index =>
    exact setPartialAliasArg_state hnothing hperform ▸ h

/-- A run whose operations overwrite nothing keeps the invariant. -/
lemma run_consed {ops : List (ℕ × Op)} {tm tm' : TypeManager} (h : Consed hash tm)
    (hnothing : ∀ done fuel op rest tm₁, ops = done ++ (fuel, op) :: rest →
      run hash tm done = some tm₁ → OverwritesNothing tm₁ op)
    (hrun : run hash tm ops = some tm') : Consed hash tm' := by
  induction ops generalizing tm with
  | nil =>
    cases hrun
    exact h
  | cons entry ops ih =>
    obtain ⟨fuel, op⟩ := entry
    rw [run] at hrun
    cases hperform : perform hash fuel op tm with
    | none =>
      rw [hperform] at hrun
      cases hrun
    | some result =>
      obtain ⟨ty, tm₁⟩ := result
      rw [hperform] at hrun
      have hfirst := perform_consed h (hnothing [] fuel op ops tm rfl rfl) hperform
      refine ih hfirst (fun done fuel' op' rest tm₂ heq hdone => ?_) hrun
      refine hnothing ((fuel, op) :: done) fuel' op' rest tm₂ (by rw [heq]; rfl) ?_
      rw [run, hperform]
      exact hdone

/-- In every state that is reached by operations that overwrite no type argument by another type,
the types of the table are unique and found by their structure, and types are the same pointer if
and only if their structure is equal. -/
theorem interned_of_run (hash : TyKey → ℕ) (ops : List (ℕ × Op)) (tm : TypeManager)
    (hrun : run hash Pool.empty ops = some tm)
    (hnothing : ∀ done fuel op rest tm₁, ops = done ++ (fuel, op) :: rest →
      run hash Pool.empty done = some tm₁ → OverwritesNothing tm₁ op) :
    Pool.Interned Ty.key hash tm ∧ ∀ ty ty', StructEq tm ty ty' ↔ ty = ty' := by
  have hconsed : Consed hash tm := run_consed Pool.consed_empty hnothing hrun
  refine ⟨hconsed.interned, fun ty ty' => ⟨eq_of_structEq hconsed, ?_⟩⟩
  rintro rfl
  exact StructEq.same ty

/-- A pair of the type of integers. -/
def intPair : ℕ × Op := (1, .getTupleTy [.static .TYPE_INT64, .static .TYPE_INT64] false)

/-- A pair of ideal integers. -/
def idealPair : ℕ × Op := (1, .getTupleTy [.static .TYPE_IDEAL_INT, .static .TYPE_IDEAL_INT] false)

theorem interned_of_run_pairs :
    ∃ tm, run (fun key => key.parts.length) Pool.empty [intPair, idealPair] = some tm ∧
      Pool.Interned Ty.key (fun key => key.parts.length) tm ∧
      ∀ ty ty', StructEq tm ty ty' ↔ ty = ty' := by
  refine ⟨_, rfl, interned_of_run _ [intPair, idealPair] _ rfl ?_⟩
  intro done fuel op rest tm₁ heq _
  have hmem : (fuel, op) ∈ [intPair, idealPair] := heq ▸ List.mem_append_right _ List.mem_cons_self
  rcases List.mem_cons.mp hmem with h | h
  · cases h
    trivial
  · cases List.mem_singleton.mp h
    trivial

/-- Replacing the ideal integers of a pair makes two nodes of one structure. -/
theorem idealPair_not_interned :
    ¬ ∀ (hash : TyKey → ℕ) (ops : List (ℕ × Op)) (tm : TypeManager),
      run hash Pool.empty ops = some tm → Pool.Interned Ty.key hash tm := by
  intro h
  have hinterned := h (fun key => key.parts.length)
    [intPair, idealPair, (2, .replaceIdealTy (.allocated 1))] _ rfl
  have heq := hinterned.unique ⟨2, 1⟩ (by decide) ⟨2, 0⟩ (by decide) (by decide)
  exact absurd heq (by decide)

end Cangjie.TypeManager
