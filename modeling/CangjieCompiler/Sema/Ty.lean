import CangjieCompiler.Foundations.HashConsing
import CangjieCompiler.Foundations.StateInvariant

/-!
# Types

The nodes that represent types.  A type is a pointer, either to one of the types that exist once and
for all, such as the primitive ones, or to a node in the heap of the type manager.  Of a node the
key is kept, which is what the equality of nodes compares and what is hashed, and the two flags that
are set when it is made.
-/

namespace Cangjie.AST

/-- The kinds of types, in the order of the source. -/
inductive TypeKind where
  | TYPE_INVALID
  | TYPE_UNIT
  | TYPE_INT8
  | TYPE_INT16
  | TYPE_INT32
  | TYPE_INT64
  | TYPE_INT_NATIVE
  | TYPE_IDEAL_INT
  | TYPE_UINT8
  | TYPE_UINT16
  | TYPE_UINT32
  | TYPE_UINT64
  | TYPE_UINT_NATIVE
  | TYPE_FLOAT16
  | TYPE_FLOAT32
  | TYPE_FLOAT64
  | TYPE_IDEAL_FLOAT
  | TYPE_RUNE
  | TYPE_NOTHING
  | TYPE_BOOLEAN
  | TYPE_TUPLE
  | TYPE_ENUM
  | TYPE_FUNC
  | TYPE_STRUCT
  | TYPE_ARRAY
  | TYPE_VARRAY
  | TYPE_POINTER
  | TYPE_CSTRING
  | TYPE_CLASS
  | TYPE_INTERFACE
  | TYPE
  | TYPE_GENERICS
  | TYPE_ANY
  | TYPE_INTERSECTION
  | TYPE_UNION
  | TYPE_QUEST
  | TYPE_INITIAL
  deriving DecidableEq, Repr

/-- A pointer to a type. -/
inductive TyPtr where
  | static (kind : TypeKind)
  | allocated (place : ℕ)
  deriving DecidableEq, Repr

/-- The address of a type.  The types that exist once and for all come first. -/
def TyPtr.address : TyPtr → ℕ
  | static kind => kind.ctorIdx
  | allocated place => 37 + place

lemma TyPtr.address_injective : Function.Injective TyPtr.address := by
  have hlt : ∀ kind : TypeKind, kind.ctorIdx < 37 := fun kind => by cases kind <;> decide
  have hkind : ∀ kind kind' : TypeKind, kind.ctorIdx = kind'.ctorIdx → kind = kind' := by
    intro kind kind' h
    rw [← TypeKind.ofNat_ctorIdx kind, h, TypeKind.ofNat_ctorIdx kind']
  intro p q h
  cases p with
  | static kind =>
    cases q with
    | static kind' => rw [hkind kind kind' h]
    | allocated place =>
      exact absurd (hlt kind) (by rw [show kind.ctorIdx = 37 + place from h]; simp)
  | allocated place =>
    cases q with
    | static kind =>
      exact absurd (hlt kind) (by rw [show kind.ctorIdx = 37 + place from h.symm]; simp)
    | allocated place' => rw [Nat.add_left_cancel h]

/-- Inserting a pointer into an ordered list. -/
def emplace (ty : TyPtr) : List TyPtr → List TyPtr
  | [] => [ty]
  | head :: tail =>
    if ty.address < head.address then ty :: head :: tail
    else if ty = head then head :: tail
    else head :: emplace ty tail

lemma mem_emplace {ty t : TyPtr} {tys : List TyPtr} (h : t ∈ emplace ty tys) : t = ty ∨ t ∈ tys := by
  induction tys with
  | nil => exact Or.inl (List.mem_singleton.mp h)
  | cons head tail ih =>
    unfold emplace at h
    split_ifs at h
    · exact List.mem_cons.mp h
    · exact Or.inr h
    · rcases List.mem_cons.mp h with rfl | htail
      · exact Or.inr List.mem_cons_self
      · exact (ih htail).imp_right (List.mem_cons_of_mem head)

/-- A set of pointers, ordered by address. -/
structure PtrSet where
  tys : List TyPtr
  ordered : tys.Pairwise fun t t' => t.address < t'.address
  deriving DecidableEq, Repr

lemma pairwise_emplace (ty : TyPtr) {tys : List TyPtr}
    (h : tys.Pairwise fun t t' => t.address < t'.address) :
    (emplace ty tys).Pairwise fun t t' => t.address < t'.address := by
  induction tys with
  | nil => exact List.pairwise_singleton _ _
  | cons head tail ih =>
    obtain ⟨hhead, htail⟩ := List.pairwise_cons.mp h
    unfold emplace
    split_ifs with hlt heq
    · refine List.pairwise_cons.mpr ⟨fun t ht => ?_, h⟩
      rcases List.mem_cons.mp ht with rfl | ht
      · exact hlt
      · exact Nat.lt_trans hlt (hhead t ht)
    · exact h
    · refine List.pairwise_cons.mpr ⟨fun t ht => ?_, ih htail⟩
      rcases mem_emplace ht with rfl | ht
      · have hne : head.address ≠ t.address := fun haddress =>
          heq (TyPtr.address_injective haddress).symm
        exact Nat.lt_of_le_of_ne (Nat.le_of_not_lt hlt) hne
      · exact hhead t ht

/-- The set of some pointers. -/
def PtrSet.ofList (tys : List TyPtr) : PtrSet :=
  tys.foldl (fun set ty => ⟨emplace ty set.tys, pairwise_emplace ty set.ordered⟩)
    ⟨[], List.Pairwise.nil⟩

/-- Sets with the same elements are equal. -/
lemma PtrSet.ext_mem {s t : PtrSet} (h : ∀ ty, ty ∈ s.tys ↔ ty ∈ t.tys) : s = t := by
  have hnodup : ∀ s : PtrSet, s.tys.Nodup := by
    intro s
    refine List.Pairwise.imp (S := fun a b => a ≠ b) ?_ s.ordered
    intro a b hlt heq
    exact absurd hlt (heq ▸ Nat.lt_irrefl _)
  have hperm : s.tys.Perm t.tys := (List.perm_ext_iff_of_nodup (hnodup s) (hnodup t)).mpr h
  have htys : s.tys = t.tys := hperm.eq_of_pairwise
    (fun a b _ _ hab hba => absurd (Nat.lt_trans hab hba) (Nat.lt_irrefl _)) s.ordered t.ordered
  cases s
  cases t
  congr

/-- The classes of nodes with a declaration. -/
inductive NominalTy where
  | EnumTy
  | RefEnumTy
  | ClassTy
  | ClassThisTy
  | InterfaceTy
  | StructTy
  | TypeAliasTy
  deriving DecidableEq, Repr

/-- The flags of function types. -/
structure FuncConfig where
  isC : Bool
  isClosureTy : Bool
  hasVariableLenArg : Bool
  noCast : Bool
  deriving DecidableEq, Repr

/-- What the equality of nodes compares: the class of a node and the fields that its own equality
reads. A declaration is a number. -/
inductive TyKey where
  | nominal (ty : NominalTy) (name : String) (declPtr : ℕ) (typeArgs : List TyPtr)
  | array (elemTy : TyPtr) (dims : BitVec 32)
  | varray (elemTy : TyPtr) (size : BitVec 64)
  | pointer (elemTy : TyPtr)
  | tuple (typeArgs : List TyPtr) (isClosureTy : Bool)
  | func (paramTys : List TyPtr) (retTy : TyPtr) (cfg : FuncConfig)
  | intersection (tys : PtrSet)
  | union (tys : PtrSet)
  | generics (decl : ℕ)
  deriving DecidableEq, Repr

namespace TyKey

/-- The kind of a node. -/
def kind : TyKey → TypeKind
  | nominal .EnumTy .. | nominal .RefEnumTy .. => .TYPE_ENUM
  | nominal .ClassTy .. | nominal .ClassThisTy .. => .TYPE_CLASS
  | nominal .InterfaceTy .. => .TYPE_INTERFACE
  | nominal .StructTy .. => .TYPE_STRUCT
  | nominal .TypeAliasTy .. => .TYPE
  | array .. => .TYPE_ARRAY
  | varray .. => .TYPE_VARRAY
  | pointer .. => .TYPE_POINTER
  | tuple .. => .TYPE_TUPLE
  | func .. => .TYPE_FUNC
  | intersection .. => .TYPE_INTERSECTION
  | union .. => .TYPE_UNION
  | generics .. => .TYPE_GENERICS

/-- The type arguments of a node. -/
def typeArgs : TyKey → List TyPtr
  | nominal _ _ _ typeArgs => typeArgs
  | array elemTy _ => [elemTy]
  | varray elemTy _ => [elemTy]
  | pointer elemTy => [elemTy]
  | tuple typeArgs _ => typeArgs
  | func paramTys retTy _ => paramTys ++ [retTy]
  | intersection _ => []
  | union _ => []
  | generics _ => []

/-- The types that a node consists of. -/
def parts : TyKey → List TyPtr
  | intersection tys => tys.tys
  | union tys => tys.tys
  | key => key.typeArgs

/-- Nodes that differ in their parts only. -/
def SameShape : TyKey → TyKey → Prop
  | nominal ty name declPtr _, nominal ty' name' declPtr' _ =>
    ty = ty' ∧ name = name' ∧ declPtr = declPtr'
  | array _ dims, array _ dims' => dims = dims'
  | varray _ size, varray _ size' => size = size'
  | pointer _, pointer _ => True
  | tuple _ isClosureTy, tuple _ isClosureTy' => isClosureTy = isClosureTy'
  | func _ _ cfg, func _ _ cfg' => cfg = cfg'
  | intersection _, intersection _ => True
  | union _, union _ => True
  | generics decl, generics decl' => decl = decl'
  | _, _ => False

/-- Nodes of one shape with the same parts are equal. -/
lemma eq_of_sameShape {key key' : TyKey} (hshape : SameShape key key')
    (hparts : key.parts = key'.parts) : key = key' := by
  have hsets : ∀ {s s' : PtrSet}, s.tys = s'.tys → s = s' := fun h => PtrSet.ext_mem fun _ => by rw [h]
  unfold SameShape at hshape
  split at hshape
  · obtain ⟨rfl, rfl, rfl⟩ := hshape
    exact congrArg _ hparts
  · rw [hshape, List.singleton_inj.mp hparts]
  · rw [hshape, List.singleton_inj.mp hparts]
  · rw [List.singleton_inj.mp hparts]
  · rw [hshape]
    exact congrArg (tuple · _) hparts
  · obtain ⟨hparams, hret⟩ := List.append_inj' hparts rfl
    rw [hshape, hparams, List.singleton_inj.mp hret]
  · exact congrArg intersection (hsets hparts)
  · exact congrArg union (hsets hparts)
  · rw [hshape]
  · exact hshape.elim

/-- The parts of intersections and unions have no order. -/
def isSet : TyKey → Bool
  | intersection _ | union _ => true
  | _ => false

/-- Sets of one shape with the same elements are equal. -/
lemma eq_of_sameShape_of_isSet {key key' : TyKey} (hshape : SameShape key key')
    (hset : key.isSet = true) (hparts : ∀ ty, ty ∈ key.parts ↔ ty ∈ key'.parts) : key = key' := by
  refine eq_of_sameShape hshape ?_
  cases key with
  | intersection s =>
    cases key' with
    | intersection s' => rw [PtrSet.ext_mem (s := s) (t := s') hparts]
    | _ => exact hshape.elim
  | union s =>
    cases key' with
    | union s' => rw [PtrSet.ext_mem (s := s) (t := s') hparts]
    | _ => exact hshape.elim
  | _ => exact absurd hset (by simp [isSet])

/-- Overwriting a type argument.  Those of functions are no part of what is compared. -/
def setTypeArg (key : TyKey) (index : ℕ) (ty : TyPtr) : TyKey :=
  match key with
  | nominal n name declPtr typeArgs => nominal n name declPtr (typeArgs.set index ty)
  | array elemTy dims => array (if index = 0 then ty else elemTy) dims
  | varray elemTy size => varray (if index = 0 then ty else elemTy) size
  | pointer elemTy => pointer (if index = 0 then ty else elemTy)
  | tuple typeArgs isClosureTy => tuple (typeArgs.set index ty) isClosureTy
  | key => key

/-- Overwriting a type argument by itself changes nothing. -/
lemma setTypeArg_self (key : TyKey) {index : ℕ} {ty : TyPtr} (h : key.typeArgs[index]? = some ty) :
    key.setTypeArg index ty = key := by
  have hset : ∀ (args : List TyPtr), args[index]? = some ty → args.set index ty = args := by
    intro args hargs
    obtain ⟨hlt, rfl⟩ := List.getElem?_eq_some_iff.mp hargs
    exact List.set_getElem_self hlt
  have hone : ∀ elemTy : TyPtr, [elemTy][index]? = some ty → (if index = 0 then ty else elemTy) =
      elemTy := by
    intro elemTy helem
    cases index with
    | zero => exact (Option.some.inj helem).symm
    | succ index => exact absurd helem (by simp)
  cases key with
  | nominal n name declPtr typeArgs => exact congrArg (nominal n name declPtr) (hset typeArgs h)
  | array elemTy dims => exact congrArg (array · dims) (hone elemTy h)
  | varray elemTy size => exact congrArg (varray · size) (hone elemTy h)
  | pointer elemTy => exact congrArg pointer (hone elemTy h)
  | tuple typeArgs isClosureTy => exact congrArg (tuple · isClosureTy) (hset typeArgs h)
  | func _ _ _ => rfl
  | intersection _ => rfl
  | union _ => rfl
  | generics _ => rfl

end TyKey

/-- A node: what is compared, and the flags for invalid and for generic parts. -/
structure Ty where
  key : TyKey
  invalid : Bool
  generic : Bool
  deriving DecidableEq, Repr

end Cangjie.AST
