import CangjieCompiler.Sema.Ty

/-!
# Types as trees

Types with all their parts.  Types of equal structure are one node of the type manager, so that a
type is given by its tree: a leaf for a type that exists once and for all, a leaf for a type
variable, and a node with a shape and the types that it consists of.  The elements of intersections
and unions are listed.

A type is rebuilt from parts by the function of the type manager for its shape, which adds up the
dimensions of arrays of arrays and does not take an incorrect type into an array or a pointer.
-/

namespace Cangjie.AST

/-- What a node of a type has besides its parts. -/
inductive Shape where
  | nominal (ty : NominalTy) (declPtr : ℕ)
  | array (dims : BitVec 32)
  | varray (size : BitVec 64)
  | pointer
  | tuple (isClosureTy : Bool)
  | func (cfg : FuncConfig)
  | intersection
  | union
  deriving DecidableEq, Repr

/-- Intersections and unions. -/
def Shape.isSet : Shape → Bool
  | intersection | union => true
  | _ => false

/-- Functions other than those of C that take any number of arguments. -/
def Shape.isVariable : Shape → Bool
  | func cfg => !cfg.isC && cfg.hasVariableLenArg
  | _ => false

/-- A type over type variables of some type.  The parts of a function type are its parameters and
its result. -/
inductive TyTree (α : Type) where
  | builtin (kind : TypeKind)
  | generics (tv : α)
  | node (shape : Shape) (parts : List (TyTree α))

namespace TyTree

variable {α : Type}

/-- The induction over types, with a hypothesis for each part. -/
theorem induction_parts {P : TyTree α → Prop} (hbuiltin : ∀ kind, P (builtin kind))
    (hgenerics : ∀ tv, P (generics tv))
    (hnode : ∀ shape parts, (∀ t ∈ parts, P t) → P (node shape parts)) : ∀ t, P t
  | builtin kind => hbuiltin kind
  | generics tv => hgenerics tv
  | node shape parts =>
    hnode shape parts fun t _ => induction_parts hbuiltin hgenerics hnode t

/-- The type variables that occur in a type. -/
def vars : TyTree α → List α
  | builtin _ => []
  | generics tv => [tv]
  | node _ parts => parts.flatMap vars

/-- `IsTyCorrect`.  Intersections and unions are not marked. -/
def isTyCorrect : TyTree α → Bool
  | builtin kind => decide (kind ≠ .TYPE_INVALID ∧ kind ≠ .TYPE_INITIAL)
  | generics _ => true
  | node shape parts => shape.isSet || (parts.map isTyCorrect).all id && !shape.isVariable

/-- `HasGeneric`.  Intersections and unions are not marked. -/
def hasGeneric : TyTree α → Bool
  | builtin _ => false
  | generics _ => true
  | node shape parts => !shape.isSet && (parts.map hasGeneric).any id

/-! ## Making types -/

/-- The dimensions of an array of arrays are added. -/
def getArrayTy (elemTy : TyTree α) (dims : BitVec 32) : TyTree α :=
  if elemTy.isTyCorrect then
    match elemTy with
    | node (.array elemDims) [elemTy] => node (.array (dims + elemDims)) [elemTy]
    | elemTy => node (.array dims) [elemTy]
  else node (.array dims) [builtin .TYPE_INVALID]

def getPointerTy (elemTy : TyTree α) : TyTree α :=
  node .pointer [if elemTy.isTyCorrect then elemTy else builtin .TYPE_INVALID]

/-- The type that is made of some parts.  The flag `noCast` is not handed on to function types. -/
def rebuild (shape : Shape) (parts : List (TyTree α)) : TyTree α :=
  match shape, parts with
  | .array dims, [elemTy] => getArrayTy elemTy dims
  | .pointer, [elemTy] => getPointerTy elemTy
  | .func cfg, parts => node (.func { cfg with noCast := false }) parts
  | shape, parts => node shape parts

/-- A type that is made as it is of its parts, all the way down. -/
def Made : TyTree α → Prop
  | builtin _ => True
  | generics _ => True
  | node shape parts => (∀ t ∈ parts, Made t) ∧ rebuild shape parts = node shape parts

/-- The simultaneous substitution of types for all type variables. -/
def subst (f : α → TyTree α) : TyTree α → TyTree α
  | builtin kind => builtin kind
  | generics tv => f tv
  | node shape parts => rebuild shape (parts.map (subst f))

/-! ## Variables -/

lemma vars_node (shape : Shape) (parts : List (TyTree α)) :
    (node shape parts).vars = parts.flatMap vars := by
  rw [vars]

lemma mem_vars_node {shape : Shape} {parts : List (TyTree α)} {v : α} :
    v ∈ (node shape parts).vars ↔ ∃ t ∈ parts, v ∈ t.vars := by
  rw [vars_node, List.mem_flatMap]

lemma vars_builtin (kind : TypeKind) : (builtin kind : TyTree α).vars = [] := by
  rw [vars]

lemma vars_generics (tv : α) : (generics tv).vars = [tv] := by
  rw [vars]

lemma subst_node (f : α → TyTree α) (shape : Shape) (parts : List (TyTree α)) :
    (node shape parts).subst f = rebuild shape (parts.map (subst f)) := by
  rw [subst]

lemma made_node {shape : Shape} {parts : List (TyTree α)} :
    (node shape parts).Made ↔
      (∀ t ∈ parts, t.Made) ∧ rebuild shape parts = node shape parts := by
  rw [Made]

/-- The variables of a type are those of its parts. -/
lemma exists_of_mem_vars_rebuild {shape : Shape} {parts : List (TyTree α)} {v : α}
    (h : v ∈ (rebuild shape parts).vars) : ∃ t ∈ parts, v ∈ t.vars := by
  unfold rebuild at h
  split at h
  · next dims elemTy =>
    unfold getArrayTy at h
    split_ifs at h
    · split at h
      · next elemDims inner hcorrect =>
        exact ⟨_, List.mem_cons_self, mem_vars_node.mpr (mem_vars_node.mp h)⟩
      · exact mem_vars_node.mp h
    · obtain ⟨t, ht, hv⟩ := mem_vars_node.mp h
      obtain rfl := List.mem_singleton.mp ht
      rw [vars_builtin] at hv
      exact absurd hv List.not_mem_nil
  · next elemTy =>
    obtain ⟨t, ht, hv⟩ := mem_vars_node.mp h
    obtain rfl := List.mem_singleton.mp ht
    split_ifs at hv
    · exact ⟨elemTy, List.mem_cons_self, hv⟩
    · rw [vars_builtin] at hv
      exact absurd hv List.not_mem_nil
  · exact mem_vars_node.mp h
  · exact mem_vars_node.mp h

/-- No variable is lost when a type is made of correct parts. -/
lemma mem_vars_rebuild {shape : Shape} {parts : List (TyTree α)} {v : α}
    (hcorrect : shape.isSet = false → ∀ t ∈ parts, t.isTyCorrect = true)
    (h : ∃ t ∈ parts, v ∈ t.vars) :
    v ∈ (rebuild shape parts).vars := by
  unfold rebuild
  split
  · next dims elemTy =>
    unfold getArrayTy
    rw [if_pos (hcorrect rfl elemTy List.mem_cons_self)]
    split
    · next elemDims inner =>
      obtain ⟨t, ht, hv⟩ := h
      obtain rfl := List.mem_singleton.mp ht
      exact mem_vars_node.mpr (mem_vars_node.mp hv)
    · exact mem_vars_node.mpr h
  · next elemTy =>
    rw [getPointerTy, if_pos (hcorrect rfl elemTy List.mem_cons_self)]
    exact mem_vars_node.mpr h
  · exact mem_vars_node.mpr h
  · exact mem_vars_node.mpr h

/-! ## Substitution -/

lemma subst_congr {f g : α → TyTree α} {t : TyTree α} (h : ∀ v ∈ t.vars, f v = g v) :
    t.subst f = t.subst g := by
  induction t using induction_parts with
  | hbuiltin kind => rw [subst, subst]
  | hgenerics tv =>
    rw [subst, subst]
    exact h tv (by rw [vars_generics]; exact List.mem_singleton_self tv)
  | hnode shape parts ih =>
    rw [subst_node, subst_node]
    congr 1
    refine List.map_congr_left fun t ht => ih t ht fun v hv => h v ?_
    exact mem_vars_node.mpr ⟨t, ht, hv⟩

/-- A substitution that leaves the variables of a type as they are leaves the type as it is. -/
lemma subst_eq_self {f : α → TyTree α} {t : TyTree α} (hmade : t.Made)
    (h : ∀ v ∈ t.vars, f v = generics v) : t.subst f = t := by
  induction t using induction_parts with
  | hbuiltin kind => rw [subst]
  | hgenerics tv =>
    rw [subst]
    exact h tv (by rw [vars_generics]; exact List.mem_singleton_self tv)
  | hnode shape parts ih =>
    obtain ⟨hparts, hrebuild⟩ := made_node.mp hmade
    rw [subst_node]
    have hmap : parts.map (subst f) = parts := by
      refine (List.map_congr_left fun t ht => ?_).trans (List.map_id parts)
      exact ih t ht (hparts t ht) fun v hv => h v (mem_vars_node.mpr ⟨t, ht, hv⟩)
    rw [hmap, hrebuild]

lemma exists_of_mem_vars_subst {f : α → TyTree α} {t : TyTree α} {v : α}
    (h : v ∈ (t.subst f).vars) : ∃ u ∈ t.vars, v ∈ (f u).vars := by
  induction t using induction_parts with
  | hbuiltin kind =>
    rw [subst, vars_builtin] at h
    exact absurd h List.not_mem_nil
  | hgenerics tv =>
    rw [subst] at h
    exact ⟨tv, by rw [vars_generics]; exact List.mem_singleton_self tv, h⟩
  | hnode shape parts ih =>
    rw [subst_node] at h
    obtain ⟨t', ht', hv⟩ := exists_of_mem_vars_rebuild h
    obtain ⟨t, ht, rfl⟩ := List.mem_map.mp ht'
    obtain ⟨u, hu, hvu⟩ := ih t ht hv
    exact ⟨u, mem_vars_node.mpr ⟨t, ht, hu⟩, hvu⟩

/-! ## Types that are made -/

lemma made_array {elemTy : TyTree α} {dims : BitVec 32} :
    (node (.array dims) [elemTy]).Made ↔
      elemTy.Made ∧ getArrayTy elemTy dims = node (.array dims) [elemTy] := by
  rw [made_node, List.forall_mem_singleton, rebuild]

/-- Whether an array type is made as it is does not depend on its dimensions. -/
lemma getArrayTy_eq_node {elemTy : TyTree α} {dims : BitVec 32}
    (h : getArrayTy elemTy dims = node (.array dims) [elemTy]) (dims' : BitVec 32) :
    getArrayTy elemTy dims' = node (.array dims') [elemTy] := by
  unfold getArrayTy at h ⊢
  split_ifs at h ⊢ with hcorrect
  · split at h
    · next elemDims inner =>
      -- An array would be its own element.
      have hinner : inner = node (.array elemDims) [inner] :=
        List.singleton_inj.mp (node.inj h).2
      have hsize := congrArg sizeOf hinner
      simp only [node.sizeOf_spec, List.cons.sizeOf_spec, List.nil.sizeOf_spec] at hsize
      omega
    · rfl
  · rw [← List.singleton_inj.mp (node.inj h).2]

lemma made_getArrayTy {elemTy : TyTree α} (h : elemTy.Made) (dims : BitVec 32) :
    (getArrayTy elemTy dims).Made := by
  cases hcorrect : elemTy.isTyCorrect with
  | false =>
    unfold getArrayTy
    rw [if_neg (by simp [hcorrect]), made_array]
    exact ⟨by rw [Made]; trivial, by simp [getArrayTy, isTyCorrect]⟩
  | true =>
    unfold getArrayTy
    rw [if_pos hcorrect]
    split
    · next elemDims inner =>
      obtain ⟨hinner, hmade⟩ := made_array.mp h
      exact made_array.mpr ⟨hinner, getArrayTy_eq_node hmade _⟩
    · next hne =>
      refine made_array.mpr ⟨h, ?_⟩
      unfold getArrayTy
      rw [if_pos hcorrect]
      split
      · next elemDims inner => exact absurd rfl (hne elemDims inner)
      · rfl

lemma made_getPointerTy {elemTy : TyTree α} (h : elemTy.Made) : (getPointerTy elemTy).Made := by
  rw [getPointerTy, made_node, List.forall_mem_singleton, rebuild, getPointerTy]
  cases hcorrect : elemTy.isTyCorrect with
  | false => exact ⟨by simp [Made], by simp [isTyCorrect]⟩
  | true => exact ⟨h, by rw [if_pos rfl, if_pos hcorrect]⟩

/-- What is made of parts that are made is made. -/
lemma made_rebuild {shape : Shape} {parts : List (TyTree α)} (h : ∀ t ∈ parts, t.Made) :
    (rebuild shape parts).Made := by
  unfold rebuild
  split
  · next dims elemTy => exact made_getArrayTy (h elemTy List.mem_cons_self) dims
  · next elemTy => exact made_getPointerTy (h elemTy List.mem_cons_self)
  · exact made_node.mpr ⟨h, by rw [rebuild]⟩
  · next harray hpointer hfunc =>
    exact made_node.mpr ⟨h, by rw [rebuild]; exacts [harray, hpointer, hfunc]⟩

/-! ## Correct types -/

lemma isTyCorrect_node (shape : Shape) (parts : List (TyTree α)) :
    (node shape parts).isTyCorrect =
      (shape.isSet || (parts.map isTyCorrect).all id && !shape.isVariable) := by
  rw [isTyCorrect]

/-- The parts of a correct type other than an intersection or a union are correct. -/
lemma isTyCorrect_part {shape : Shape} {parts : List (TyTree α)} (hset : shape.isSet = false)
    (h : (node shape parts).isTyCorrect = true) {t : TyTree α} (ht : t ∈ parts) :
    t.isTyCorrect = true := by
  rw [isTyCorrect_node, hset, Bool.false_or, Bool.and_eq_true, List.all_eq_true] at h
  exact h.1 _ (List.mem_map_of_mem ht)

/-- A type is correct if it is made of correct parts in the shape of a correct type. -/
lemma isTyCorrect_rebuild {shape : Shape} {parts parts' : List (TyTree α)}
    (h : (node shape parts).isTyCorrect = true)
    (hparts : shape.isSet = false → ∀ t ∈ parts', t.isTyCorrect = true) :
    (rebuild shape parts').isTyCorrect = true := by
  have hnode : (node shape parts').isTyCorrect = true := by
    rw [isTyCorrect_node] at h ⊢
    cases hset : shape.isSet with
    | true => rfl
    | false =>
      rw [hset, Bool.false_or, Bool.and_eq_true] at h
      rw [Bool.false_or, Bool.and_eq_true, List.all_eq_true]
      refine ⟨fun b hb => ?_, h.2⟩
      obtain ⟨t, ht, rfl⟩ := List.mem_map.mp hb
      exact hparts hset t ht
  unfold rebuild
  split
  · next dims elemTy =>
    have helem := hparts rfl elemTy List.mem_cons_self
    unfold getArrayTy
    rw [if_pos helem]
    split
    · next elemDims inner =>
      have hinner : inner.isTyCorrect = true := isTyCorrect_part rfl helem List.mem_cons_self
      simp [isTyCorrect_node, hinner, Shape.isSet, Shape.isVariable]
    · simp [isTyCorrect_node, helem, Shape.isSet, Shape.isVariable]
  · next elemTy =>
    have helem := hparts rfl elemTy List.mem_cons_self
    simp [getPointerTy, isTyCorrect_node, helem, Shape.isSet, Shape.isVariable]
  · next cfg parts' =>
    rw [isTyCorrect_node] at hnode ⊢
    exact hnode
  · exact hnode

end TyTree

end Cangjie.AST
