import Mathlib.Data.List.Forall2
import Mathlib.Data.Rat.Init

/-!
# Patterns of the usefulness check

The usefulness check of match expressions works on rows of destructed patterns.  A pattern is a
constructor with the patterns of its arguments, and a pattern stack keeps the patterns of one row in
reverse, so that its head is the last item.

What the check asks of types and of the type manager is collected in `PatternTypes`; the types
themselves, which may be mutually recursive, are a parameter.  A type is asked for its shape: the
arguments of a tuple, the instantiated constructors of an enum, and the direct subtypes of a
hierarchy that `IsClosedSealedHierarchy` accepts.
-/

namespace Cangjie.PatternUsefulness

/-! ## Constructors -/

/-- The literals that are no constructors of their own, with the values that are compared.  Two
floating-point literals are equal if their difference is zero. -/
inductive LitConstExpr where
  | NONE
  | INTEGER (asInt : UInt64)
  | RUNE_BYTE (asInt : UInt64)
  | FLOAT (value : ℚ)
  | RUNE (stringValue : String)
  | STRING (stringValue : String)
  | JSTRING (stringValue : String)
  deriving DecidableEq

def litConstExprEq (left right : LitConstExpr) : Bool := left = right

/-- The type of an enum constructor: the enum, of which only the number of type arguments matters,
or the function type of a constructor with fields. -/
inductive CtorTy (Ty : Type) where
  | ENUM (typeArgs : ℕ)
  | FUNC (paramTys : List Ty)

structure EnumConstructor (Ty : Type) where
  identifier : String
  ty : CtorTy Ty

namespace EnumConstructor

variable {Ty : Type}

def paramTys (ctor : EnumConstructor Ty) : List Ty :=
  match ctor.ty with
  | .ENUM _ => []
  | .FUNC paramTys => paramTys

/-- What two constructors of an enum are compared by; the type arguments of a function type are its
parameters and its result. -/
def key (ctor : EnumConstructor Ty) : String × Bool × ℕ :=
  match ctor.ty with
  | .ENUM typeArgs => (ctor.identifier, true, typeArgs)
  | .FUNC paramTys => (ctor.identifier, false, paramTys.length + 1)

end EnumConstructor

inductive Constructor (Ty : Type) where
  | UNIT
  | BOOLEAN (ctor : Bool)
  | NON_EXHAUSTIVE_LITERAL (ctor : LitConstExpr)
  | ENUM (ctor : EnumConstructor Ty)
  | NON_EXHAUSTIVE_ENUM
  | TUPLE (numArgs : ℕ)
  | TYPE (ctor : Ty)
  | WILDCARD
  | MISSING
  | OR (numArgs : ℕ)
  | INVALID

/-- What the check makes use of in a type. -/
inductive TyShape (Ty : Type) where
  | UNIT
  | BOOLEAN
  | TUPLE (typeArgs : List Ty)
  | ENUM (constructors : List (EnumConstructor Ty)) (isNonExhaustive : Bool)
  | CLOSED_SEALED (directSubtypes : List Ty)
  | OTHER

/-- The types and the type manager.  Constructors of one enum differ in their names or in the number
of their fields. -/
structure PatternTypes (Ty : Type) where
  isTyCorrect : Ty → Bool
  isNothing : Ty → Bool
  hasGeneric : Ty → Bool
  isSealedLike : Ty → Bool
  isSubtype : Ty → Ty → Bool
  shape : Ty → TyShape Ty
  /-- The literals that the type checker accepts as constant patterns of a type. -/
  acceptsLiteral : LitConstExpr → Ty → Prop
  shape_of_incorrect : ∀ ty, isTyCorrect ty = false →
    shape ty = .OTHER ∨ ∃ directSubtypes, shape ty = .CLOSED_SEALED directSubtypes
  distinct : ∀ ty ctors isNonExhaustive, shape ty = .ENUM ctors isNonExhaustive →
    (ctors.map EnumConstructor.key).Nodup

namespace PatternTypes

variable {Ty : Type} (T : PatternTypes Ty)

/-- The arguments of a tuple. -/
def typeArgs (ty : Ty) : List Ty :=
  match T.shape ty with
  | .TUPLE typeArgs => typeArgs
  | _ => []

end PatternTypes

namespace Constructor

variable {Ty : Type} (T : PatternTypes Ty)

def arity : Constructor Ty → ℕ
  | ENUM ctor => ctor.paramTys.length
  | TUPLE numArgs => numArgs
  | OR numArgs => numArgs
  | _ => 0

def isCoveredBy : Constructor Ty → Constructor Ty → Bool
  | _, WILDCARD => true
  | _, MISSING => true
  | UNIT, UNIT => true
  | BOOLEAN ctor, BOOLEAN other => ctor == other
  | NON_EXHAUSTIVE_LITERAL ctor, NON_EXHAUSTIVE_LITERAL other => litConstExprEq ctor other
  | NON_EXHAUSTIVE_ENUM, NON_EXHAUSTIVE_ENUM => true
  | ENUM ctor, ENUM other => ctor.key == other.key
  | TUPLE _, TUPLE _ => true
  | TYPE ctor, TYPE other => T.isSubtype ctor other
  | _, _ => false

end Constructor

/-! ## Patterns -/

/-- A pattern with the type that it is matched against and the node that it comes from. -/
inductive DestructedPattern (Ty : Type) where
  | mk (ctor : Constructor Ty) (subPatterns : List (DestructedPattern Ty)) (goalTy : Ty)
    (node : Option ℕ)

namespace DestructedPattern

variable {Ty : Type} (T : PatternTypes Ty)

def ctor : DestructedPattern Ty → Constructor Ty
  | mk ctor _ _ _ => ctor

def subPatterns : DestructedPattern Ty → List (DestructedPattern Ty)
  | mk _ subPatterns _ _ => subPatterns

def goalTy : DestructedPattern Ty → Ty
  | mk _ _ goalTy _ => goalTy

def node : DestructedPattern Ty → Option ℕ
  | mk _ _ _ node => node

/-- The wildcard that the check makes for a type. -/
def wildcard (ty : Ty) : DestructedPattern Ty := mk .WILDCARD [] ty none

def isUnreachableTypePattern (p : DestructedPattern Ty) : Bool :=
  match p.ctor with
  | .TYPE patternTy =>
    if T.isNothing patternTy then true
    else if T.hasGeneric p.goalTy || T.hasGeneric patternTy || !T.isSealedLike p.goalTy ||
        !T.isSealedLike patternTy then false
    else !T.isSubtype p.goalTy patternTy && !T.isSubtype patternTy p.goalTy
  | _ => false

mutual

/-- A wildcard or a tuple of such patterns. -/
def allWildcard : DestructedPattern Ty → Bool
  | mk .WILDCARD _ _ _ => true
  | mk (.TUPLE _) subPatterns _ _ => allWildcards subPatterns
  | _ => false

def allWildcards : List (DestructedPattern Ty) → Bool
  | [] => true
  | p :: ps => p.allWildcard && allWildcards ps

end

lemma allWildcard_of_ctor {p : DestructedPattern Ty} (h : p.ctor = .WILDCARD) :
    p.allWildcard = true := by
  obtain ⟨ctor, subPatterns, goalTy, node⟩ := p
  obtain rfl : ctor = .WILDCARD := h
  rfl

lemma allWildcards_eq (ps : List (DestructedPattern Ty)) :
    allWildcards ps = ps.all allWildcard := by
  induction ps with
  | nil => rfl
  | cons p ps ih => rw [allWildcards, ih, List.all_cons]

def specializeWildcard (ty : Ty) : Constructor Ty → List (DestructedPattern Ty)
  | .TUPLE numArgs => ((T.typeArgs ty).take numArgs).map wildcard
  | .ENUM ctor => ctor.paramTys.map wildcard
  | _ => []

def specialize (p : DestructedPattern Ty) (otherCtor : Constructor Ty) :
    List (DestructedPattern Ty) :=
  match p.ctor with
  | .WILDCARD => specializeWildcard T p.goalTy otherCtor
  | _ => p.subPatterns

end DestructedPattern

/-! ## Pattern stacks -/

/-- The patterns of a row in reverse. -/
structure PatternStack (Ty : Type) where
  stack : List (DestructedPattern Ty)

namespace PatternStack

variable {Ty : Type} (T : PatternTypes Ty)

def allWildcard (s : PatternStack Ty) : Bool := s.stack.all DestructedPattern.allWildcard

def size (s : PatternStack Ty) : ℕ := s.stack.length

/-- The head, which only a nonempty stack has. -/
def head? (s : PatternStack Ty) : Option (DestructedPattern Ty) := s.stack.getLast?

def replaceHead (s : PatternStack Ty) (newHead : DestructedPattern Ty) : PatternStack Ty :=
  ⟨s.stack.dropLast ++ [newHead]⟩

def specialize (s : PatternStack Ty) (ctor : Constructor Ty) : Option (PatternStack Ty) :=
  s.head?.map fun head => ⟨s.stack.dropLast ++ (head.specialize T ctor).reverse⟩

def apply (s : PatternStack Ty) (ctor : Constructor Ty) (ty : Ty) : PatternStack Ty :=
  ⟨s.stack.take (s.stack.length - ctor.arity) ++
    [.mk ctor (s.stack.reverse.take ctor.arity) ty none]⟩

def expandOr (s : PatternStack Ty) : List (PatternStack Ty) :=
  match s.head? with
  | some head => head.subPatterns.map s.replaceHead
  | none => []

/-! ### Columns -/

/-- The patterns of a row from the head on. -/
def columns (s : PatternStack Ty) : List (DestructedPattern Ty) := s.stack.reverse

lemma head?_eq (s : PatternStack Ty) : s.head? = s.columns.head? :=
  List.head?_reverse.symm

lemma columns_eq_cons {s : PatternStack Ty} {head : DestructedPattern Ty}
    (h : s.head? = some head) : s.columns = head :: s.columns.tail := by
  rw [head?_eq] at h
  exact (List.cons_head?_tail h).symm

lemma columns_replaceHead (s : PatternStack Ty) (newHead : DestructedPattern Ty) :
    (s.replaceHead newHead).columns = newHead :: s.columns.tail := by
  unfold columns replaceHead
  rw [List.reverse_append, List.tail_reverse]
  rfl

/-- Specializing a stack replaces its head by the arguments of the head. -/
lemma columns_specialize {s s' : PatternStack Ty} {head : DestructedPattern Ty}
    {ctor : Constructor Ty} (hhead : s.head? = some head) (h : s.specialize T ctor = some s') :
    s'.columns = head.specialize T ctor ++ s.columns.tail := by
  unfold specialize at h
  rw [hhead, Option.map_some] at h
  obtain rfl := Option.some.inj h
  unfold columns
  rw [List.reverse_append, List.reverse_reverse, List.tail_reverse]

/-- Applying a constructor takes its arguments from the front. -/
lemma columns_apply (s : PatternStack Ty) (ctor : Constructor Ty) (ty : Ty) :
    (s.apply ctor ty).columns =
      .mk ctor (s.columns.take ctor.arity) ty none :: s.columns.drop ctor.arity := by
  unfold columns apply
  rw [List.reverse_append, List.drop_reverse]
  rfl

/-- On the columns `Apply` undoes what `Specialize` does to a pattern of the constructor. -/
lemma columns_apply_specialize {s s' : PatternStack Ty} {head : DestructedPattern Ty}
    {ctor : Constructor Ty} (hhead : s.head? = some head) (h : s.specialize T ctor = some s')
    (harity : (head.specialize T ctor).length = ctor.arity) (ty : Ty) :
    (s'.apply ctor ty).columns =
      .mk ctor (head.specialize T ctor) ty none :: s.columns.tail := by
  rw [columns_apply, columns_specialize T hhead h, ← harity, List.take_left, List.drop_left]

lemma length_columns (s : PatternStack Ty) : s.columns.length = s.size :=
  List.length_reverse

lemma allWildcard_eq (s : PatternStack Ty) :
    s.allWildcard = s.columns.all DestructedPattern.allWildcard :=
  List.all_reverse.symm

lemma mem_expandOr {s s' : PatternStack Ty} {head : DestructedPattern Ty}
    (hhead : s.head? = some head) :
    s' ∈ s.expandOr ↔ ∃ p ∈ head.subPatterns, s.replaceHead p = s' := by
  unfold expandOr
  rw [hhead]
  exact List.mem_map

end PatternStack

/-! ## Matrices -/

structure Matrix (Ty : Type) where
  rows : List (PatternStack Ty)

namespace Matrix

variable {Ty : Type} (T : PatternTypes Ty)

def isEmpty (m : Matrix Ty) : Bool := m.rows.isEmpty

def hasSingleRowAndAllWildcard (m : Matrix Ty) : Bool :=
  match m.rows with
  | [row] => row.allWildcard
  | _ => false

def missingAll (m : Matrix Ty) : Bool := m.rows.all fun row => row.stack.isEmpty

def headsAllWildcard (m : Matrix Ty) : Bool :=
  m.rows.all fun row =>
    match row.head? with
    | some head => head.allWildcard
    | none => false

/-- The rows that a constructor is covered by; no row may be empty. -/
def specialize (m : Matrix Ty) (ctor : Constructor Ty) : Option (Matrix Ty) := do
  let newRows ← m.rows.mapM fun row => do
    let head ← row.head?
    if ctor.isCoveredBy T head.ctor then (row.specialize T ctor).map fun newRow => [newRow]
    else some []
  return ⟨newRows.flatten⟩

def appendRows (m : Matrix Ty) (newRows : List (PatternStack Ty)) : Matrix Ty :=
  ⟨m.rows ++ newRows⟩

end Matrix

end Cangjie.PatternUsefulness
