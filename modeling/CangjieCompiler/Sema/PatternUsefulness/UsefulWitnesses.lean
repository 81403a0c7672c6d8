import CangjieCompiler.Sema.PatternUsefulness.Coverage
import CangjieCompiler.Sema.PatternUsefulness.Termination

/-!
# Witnesses are useful

Over a plain matrix a search returns a row only if the stack matches values that the matrix does not
match.  The value of the head is made by the constructor that the search has specialized the rows
by, and the values of its fields come from the specialized search.

The rows that a match adds for its cases are witnesses, so that a match that is called exhaustive is
exhaustive, and a case that is called unreachable is never taken.
-/

namespace Cangjie.PatternUsefulness

open EventualResult

variable {Ty : Type} {T : PatternTypes Ty} (V : ValueModel T) (S : Ty → Prop)

/-- Where there is a witness, the stack matches values that the matrix does not match. -/
def UsefulWitnesses : SearchProperty Ty := fun tys m v ws =>
  (∀ ty ∈ tys, S ty) → m.Plain → v.Simple → ws ≠ [] →
    ∃ xs, List.Forall₂ (HasType V) xs tys ∧ v.Matches V xs ∧ ¬m.Matches V xs

variable {V S}

/-! ## Specialized searches -/

/-- The literals that the rows begin with. -/
def Matrix.headLiterals (m : Matrix Ty) : List LitConstExpr :=
  m.rows.filterMap fun row => row.head?.bind fun head =>
    match head.ctor with
    | .NON_EXHAUSTIVE_LITERAL lit => some lit
    | _ => none

lemma Matrix.mem_headLiterals {m : Matrix Ty} {row : PatternStack Ty}
    {head : DestructedPattern Ty} {lit : LitConstExpr} (hrow : row ∈ m.rows)
    (hhead : row.head? = some head) (hlit : head.ctor = .NON_EXHAUSTIVE_LITERAL lit) :
    lit ∈ m.headLiterals := by
  refine List.mem_filterMap.mpr ⟨row, hrow, ?_⟩
  rw [hhead, Option.bind_some, hlit]

section

variable {ty : Ty} {tys : List Ty} {m : Matrix Ty} {v : PatternStack Ty}
  {head : DestructedPattern Ty} {ctor : Constructor Ty} {ws : List (PatternStack Ty)}

/-- The values of a specialized search are the fields of a value that only covered rows match. -/
lemma Specialized.exists_vector
    (h : Specialized T (UsefulWitnesses V S) (ctor.argTypes T ty ++ tys) m v ctor ws)
    (hcolumns : SameColumns T ty tys m v head) (hfits : ctor.Fits T ty)
    (hhead : head.ctor = .WILDCARD ∨ head.ctor = ctor)
    (hS : ∀ argTy ∈ ctor.argTypes T ty ++ tys, S argTy) (hplain : m.Plain) (hsimple : v.Simple)
    (hne : ws ≠ [])
    (hvalue : ∀ args, List.Forall₂ (HasType V) args (ctor.argTypes T ty) → ∃ x,
      HasType V x ty ∧ ctor.Builds V x args ∧ ∀ row ∈ m.rows, ∀ rowHead,
        row.head? = some rowHead → ctor.isCoveredBy T rowHead.ctor = false →
          ¬Matches V rowHead x) :
    ∃ xs, List.Forall₂ (HasType V) xs (ty :: tys) ∧ v.Matches V xs ∧ ¬m.Matches V xs := by
  cases h with
  | search hhead' hm hv hws =>
    rename_i m' v' ws'
    obtain rfl := Option.some.inj (hcolumns.head.symm.trans hhead')
    have hne' : ws' ≠ [] := by
      rintro rfl
      exact hne rfl
    obtain ⟨ys, hys, hvec, hmatrix⟩ := hws hS (hplain.specialize hcolumns.matrix hfits hm)
      (hsimple.specialize hhead' hv) hne'
    have hargs := List.forall₂_take_append ys _ _ hys
    have hxs := List.forall₂_drop_append ys _ _ hys
    rw [← List.take_append_drop (ctor.argTypes T ty).length ys] at hvec hmatrix
    obtain ⟨x, hx, hbuilds, hother⟩ := hvalue _ hargs
    have hlength := hargs.length_eq.trans (Constructor.length_argTypes hfits)
    refine ⟨x :: ys.drop (ctor.argTypes T ty).length, .cons hx hxs, ?_, fun hmatch => hmatrix ?_⟩
    · exact (PatternStack.matches_specialize_iff hhead' hcolumns.typedHead hv hfits
        (Constructor.isCoveredBy_or_eq hhead) hbuilds hlength).mp hvec
    · exact Matrix.specialize_matches hcolumns.matrix hm hfits hbuilds hlength hother hmatch

variable (hample : V.Ample S)

include hample

/-- A constructor of the type makes a value that the rows with other heads do not match. -/
lemma Specialized.useful
    (h : Specialized T (UsefulWitnesses V S) (ctor.argTypes T ty ++ tys) m v ctor ws)
    (hcolumns : SameColumns T ty tys m v head) (hproper : ctor.Proper T ty)
    (hhead : head.ctor = .WILDCARD ∨ head.ctor = ctor) :
    UsefulWitnesses V S (ty :: tys) m v ws := by
  intro hS hplain hsimple hne
  have hty : S ty := hS ty List.mem_cons_self
  have hfields : ∀ argTy ∈ ctor.argTypes T ty ++ tys, S argTy := by
    intro argTy hmem
    rcases List.mem_append.mp hmem with hmem | hmem
    · exact hample.fields ty hty ctor hproper argTy hmem
    · exact hS argTy (List.mem_cons_of_mem ty hmem)
  refine h.exists_vector hcolumns hproper.fits hhead hfields hplain hsimple hne fun args hargs => ?_
  obtain ⟨x, hx, hbuilds, hfresh⟩ := exists_built hample hty hproper hargs m.headLiterals
  refine ⟨x, hx, hbuilds, fun row hrow rowHead hrowHead hnot => ?_⟩
  obtain ⟨head', hhead', htyped, -⟩ := (hcolumns.matrix row hrow).head
  obtain rfl := Option.some.inj (hrowHead.symm.trans hhead')
  exact not_matches_of_not_covered
    (hplain row hrow rowHead (PatternStack.mem_columns_of_head hrowHead)) htyped hproper hbuilds
    hnot (fun hctor lit hlit => hfresh hctor lit (Matrix.mem_headLiterals hrow hrowHead hlit))
    (hample.separate ty hty)

/-- A column of wildcards matches every value of its type. -/
lemma Specialized.useful_wildcard
    (h : Specialized T (UsefulWitnesses V S) tys m v .WILDCARD ws)
    (hcolumns : SameColumns T ty tys m v head) (hhead : head.ctor = .WILDCARD)
    (hwild : m.headsAllWildcard = true) : UsefulWitnesses V S (ty :: tys) m v ws := by
  intro hS hplain hsimple hne
  have hfits : (Constructor.WILDCARD : Constructor Ty).Fits T ty := trivial
  refine Specialized.exists_vector h hcolumns hfits (Or.inl hhead)
    (fun argTy hmem => hS argTy (List.mem_cons_of_mem ty hmem)) hplain hsimple hne
    fun args hargs => ?_
  obtain ⟨x, hx⟩ := hample.inhabited ty (hS ty List.mem_cons_self)
  refine ⟨x, hx, List.forall₂_nil_right_iff.mp hargs, fun row hrow rowHead hrowHead hnot => ?_⟩
  have hrowWild := List.all_eq_true.mp hwild row hrow
  rw [hrowHead] at hrowWild
  have hrowCtor := DestructedPattern.ctor_of_allWildcard hrowWild
    (hplain row hrow rowHead (PatternStack.mem_columns_of_head hrowHead))
  rw [hrowCtor] at hnot
  exact absurd hnot (by simp [Constructor.isCoveredBy])

omit hample

/-- Over plain rows with some other head than a wildcard the type of the column has a shape that is
split into constructors of values. -/
lemma proper_of_mem_splitWildcard (hm : m.Typed T (ty :: tys)) (hplain : m.Plain)
    (hwild : m.headsAllWildcard = false) (h : ctor ∈ splitWildcard T ty m) :
    ctor.Proper T ty := by
  rcases mem_splitWildcard (missingAll_of_headsAllWildcard hm hwild) h with
    hproper | ⟨directSubtypes, subTy, hshape, -⟩
  · exact hproper
  · obtain ⟨row, hrow, hnot⟩ := List.all_eq_false.mp hwild
    obtain ⟨rowHead, hrowHead, htyped, -⟩ := (hm row hrow).head
    rw [hrowHead] at hnot
    have hrowPlain := hplain row hrow rowHead (PatternStack.mem_columns_of_head hrowHead)
    have hkind : rowHead.ctor ≠ .WILDCARD :=
      fun hkind => hnot (DestructedPattern.allWildcard_of_ctor hkind)
    have hproper := hrowPlain.simple.proper htyped hkind hrowPlain.not_or
    cases hctor : rowHead.ctor <;> simp [hctor, Constructor.Proper, hshape] at hproper

/-- The constructor of a simple head makes a value that the rows with other heads do not match. -/
lemma useful_of_ctor (hample : V.Ample S)
    (h : Specialized T (UsefulWitnesses V S) (head.ctor.argTypes T ty ++ tys) m v head.ctor ws)
    (hcolumns : SameColumns T ty tys m v head) (hwild : head.ctor ≠ .WILDCARD)
    (hor : ∀ n, head.ctor ≠ .OR n) : UsefulWitnesses V S (ty :: tys) m v ws := by
  intro hS hplain hsimple hne
  have hproper := (hsimple head (PatternStack.mem_columns_of_head hcolumns.head)).proper
    hcolumns.typedHead hwild hor
  exact h.useful hample hcolumns hproper (Or.inr rfl) hS hplain hsimple hne

lemma useful_of_split (hample : V.Ample S) {wss : List (List (PatternStack Ty))}
    (hcolumns : SameColumns T ty tys m v head) (hhead : head.ctor = .WILDCARD)
    (hwild : m.headsAllWildcard = false)
    (h : List.Forall₂ (fun ctor ws => Specialized T (UsefulWitnesses V S)
      (ctor.argTypes T ty ++ tys) m v ctor ws) (splitWildcard T ty m) wss) :
    UsefulWitnesses V S (ty :: tys) m v wss.flatten := by
  intro hS hplain hsimple hne
  obtain ⟨ws, hws, hne⟩ : ∃ ws ∈ wss, ws ≠ [] := by
    by_contra hnone
    push Not at hnone
    exact hne (List.flatten_eq_nil_iff.mpr hnone)
  obtain ⟨ctor, hctor, hspecialized⟩ := exists_mem_left h hws
  have hproper := proper_of_mem_splitWildcard hcolumns.matrix hplain hwild hctor
  exact Specialized.useful hample hspecialized hcolumns hproper (Or.inl hhead) hS hplain hsimple hne

/-- The first alternative with a witness is searched for over the rows of the matrix alone. -/
lemma Alternatives.useful {tys : List Ty} {vs : List (PatternStack Ty)}
    (h : Alternatives T (UsefulWitnesses V S) tys m vs ws) (hS : ∀ ty ∈ tys, S ty)
    (hplain : m.Plain) (hsimple : ∀ v ∈ vs, v.Simple) (hne : ws ≠ []) :
    ∃ v ∈ vs, ∃ xs, List.Forall₂ (HasType V) xs tys ∧ v.Matches V xs ∧ ¬m.Matches V xs := by
  induction h with
  | nil => exact absurd rfl hne
  | cons _ _ hhead _ ih =>
    rename_i m v vs ws ws' _ _ _
    by_cases hnone : ws = []
    · rw [hnone, Matrix.appendRows, List.append_nil] at ih
      rw [hnone, List.nil_append] at hne
      obtain ⟨v', hv', hvector⟩ :=
        ih hplain (fun v' hv' => hsimple v' (List.mem_cons_of_mem v hv')) hne
      exact ⟨v', List.mem_cons_of_mem v hv', hvector⟩
    · exact ⟨v, List.mem_cons_self,
        hhead hS hplain (hsimple v List.mem_cons_self) hnone⟩

/-! ## The rules -/

theorem usefulRules (hample : V.Ample S) : SearchRules T (UsefulWitnesses V S) where
  emptyStack {m v} _ hv := by
    intro _ _ _ hne
    have hempty : m.isEmpty = true := by
      by_contra hnot
      exact hne (if_neg hnot)
    refine ⟨[], .nil, ?_, fun ⟨row, hrow, _⟩ => ?_⟩
    · unfold PatternStack.Matches
      rw [hv.nil]
      exact .nil
    · rw [List.isEmpty_iff.mp hempty] at hrow
      exact absurd hrow List.not_mem_nil
  singleRow _ _ _ := fun _ _ _ hne => absurd rfl hne
  unreachable _ _ := fun _ _ _ hne => absurd rfl hne
  headsAllWildcard hcolumns hhead hwild hws := hws.useful_wildcard hample hcolumns hhead hwild
  tuple {ty tys m v head v' typeArgs ws} hcolumns hhead _ hshape _ hcolumns' hws := by
    intro hS hplain hsimple hne
    have hsimple' := hsimple.replace hcolumns'
      (DestructedPattern.simple_wildcardTuple typeArgs ty)
    obtain ⟨xs, hxs, hvec, hmatrix⟩ := hws hS hplain hsimple' hne
    obtain ⟨x, xs, rfl, hx, -⟩ := exists_cons_of_typed hxs
    refine ⟨x :: xs, hxs, ?_, hmatrix⟩
    exact (PatternStack.matches_iff_of_tail hcolumns.head hcolumns'
      (iff_of_true (matches_of_wildcard hhead) (matches_wildcardTuple hx hshape))).mpr hvec
  split hcolumns hhead hwild _ hwss := useful_of_split hample hcolumns hhead hwild hwss
  or {ty tys m v head numArgs ws} hcolumns hhead hws := by
    intro hS hplain hsimple hne
    obtain ⟨v', hv', xs, hxs, hvec, hmatrix⟩ :=
      hws.useful hS hplain (hsimple.expandOr hcolumns.head) hne
    obtain ⟨x, xs, rfl, -⟩ := exists_cons_of_typed hxs
    exact ⟨x :: xs, hxs,
      (PatternStack.matches_iff_expandOr hcolumns.head hhead).mpr ⟨v', hv', hvec⟩, hmatrix⟩
  coveredType _ _ _ _ _ := fun _ _ _ hne => absurd rfl hne
  ctor hcolumns hwild hor hws := useful_of_ctor hample hws hcolumns hwild hor

end

/-! ## What a search returns -/

namespace FlagTy

/-- The values of lists of flags, which have no runtime types. -/
def values : ValueModel types where
  Obj := Unit
  isOther _ _ := False
  isInstance _ _ := False
  literalValue _ := ()
  literal _ _ h := h
  isInstance_of_isSubtype _ _ _ _ h := h
  closed _ _ _ _ h := h.elim

lemma hasType_nil : HasType values (.enum nil.key []) LIST :=
  .enum shape_list List.mem_cons_self .nil

lemma ample_values : values.Ample fun _ => True where
  fields _ _ _ _ _ _ := trivial
  inhabited ty _ := by
    cases ty with
    | BOOL => exact ⟨.bool true, .bool rfl⟩
    | LIST => exact ⟨_, hasType_nil⟩
    | PAIR => exact ⟨.tuple [.bool true, _], .tuple shape_pair (.cons (.bool rfl)
        (.cons hasType_nil .nil))⟩
  fresh ty _ h := by
    cases ty <;> exact nomatch h
  separate _ _ _ _ h := h.elim

lemma plain_setFirst : setFirst.Plain := by
  have hflag : (DestructedPattern.mk (.BOOLEAN true) [] BOOL none).Plain :=
    .mk (fun _ => nofun) nofun (fun _ => nofun) (fun _ => nofun) fun _ hq =>
      absurd hq List.not_mem_nil
  have hpair : (DestructedPattern.mk (.TUPLE 2) [.mk (.BOOLEAN true) [] BOOL none,
      .wildcard LIST] PAIR none).Plain := by
    refine .mk (fun _ => nofun) nofun (fun _ => nofun) (fun _ _ => rfl) fun q hq => ?_
    rcases List.mem_pair.mp hq with rfl | rfl
    · exact hflag
    · exact DestructedPattern.plain_wildcard LIST
  refine .mk (fun _ => nofun) nofun (fun _ => nofun) (fun _ => nofun) fun q hq => ?_
  rw [List.mem_singleton.mp hq]
  exact hpair

lemma plain_matrix : matrix.Plain := by
  intro row hrow p hp
  rcases List.mem_pair.mp hrow with rfl | rfl
  · rw [List.mem_singleton.mp hp]
    exact .mk (fun _ => nofun) nofun (fun _ => nofun) (fun _ => nofun) fun _ hq =>
      absurd hq List.not_mem_nil
  · rw [List.mem_singleton.mp hp]
    exact plain_setFirst

end FlagTy

/-- The witnesses are all that the stack matches beyond the matrix, and there is none exactly if
that is nothing. -/
structure ExactWitnesses (V : ValueModel T) (tys : List Ty) (m : Matrix Ty) (v : PatternStack Ty)
    (ws : List (PatternStack Ty)) : Prop where
  size : ∀ w ∈ ws, w.size = v.size
  sound : ∀ w ∈ ws, ∀ xs, w.Matches V xs → v.Matches V xs ∨ m.Matches V xs
  covers : ∀ xs, List.Forall₂ (HasType V) xs tys →
    ((m.appendRows ws).Matches V xs ↔ (m.appendRows [v]).Matches V xs)
  nil_iff : ws = [] ↔
    ∀ xs, List.Forall₂ (HasType V) xs tys → v.Matches V xs → m.Matches V xs

/-- Some search over typed rows returns other witnesses. -/
def Inexact (V : ValueModel T) (tys : List Ty) (m : Matrix Ty) (v : PatternStack Ty) : Prop :=
  m.Typed T tys ∧ v.Typed T tys ∧ ∃ fuel found, findWitnesses T fuel m v = some found ∧
    ¬ExactWitnesses V tys m v found.witnesses

/-- The number of witnesses is what decides if a match is exhaustive. -/
def witnessCount (T : PatternTypes Ty) (fuel : ℕ) (m : Matrix Ty) (v : PatternStack Ty) :
    Option ℕ :=
  (findWitnesses T fuel m v).map fun found => found.witnesses.length

lemma inexact_of_witnessCount {tys : List Ty} {m : Matrix Ty} {v : PatternStack Ty}
    {fuel count : ℕ} (hm : m.Typed T tys) (hv : v.Typed T tys)
    (hcount : witnessCount T fuel m v = some count)
    (h : ¬(count = 0 ↔
      ∀ xs, List.Forall₂ (HasType V) xs tys → v.Matches V xs → m.Matches V xs)) :
    Inexact V tys m v := by
  obtain ⟨found, hfound, rfl⟩ := Option.map_eq_some_iff.mp hcount
  refine ⟨hm, hv, fuel, found, hfound, fun hexact => h ?_⟩
  rw [List.length_eq_zero_iff]
  exact hexact.nil_iff

/-- Bytes, flags, and the classes of circles and squares.  They implement a sealed interface of
shapes, and circles another one of labels as well. -/
inductive ShapeTy where
  | UINT8
  | BOOL
  | NOTHING
  | ANY
  | SHAPE
  | LABEL
  | CIRCLE
  | SQUARE
  deriving DecidableEq

namespace ShapeTy

def superTypes : ShapeTy → List ShapeTy
  | UINT8 => [UINT8, ANY]
  | BOOL => [BOOL, ANY]
  | NOTHING => [UINT8, BOOL, NOTHING, ANY, SHAPE, LABEL, CIRCLE, SQUARE]
  | ANY => [ANY]
  | SHAPE => [SHAPE, ANY]
  | LABEL => [LABEL, ANY]
  | CIRCLE => [CIRCLE, SHAPE, LABEL, ANY]
  | SQUARE => [SQUARE, SHAPE, ANY]

lemma superTypes_trans : ∀ a : ShapeTy, ∀ b ∈ a.superTypes, ∀ c ∈ b.superTypes,
    c ∈ a.superTypes := by
  intro a
  cases a <;> decide

def types : PatternTypes ShapeTy where
  isTyCorrect _ := true
  isNothing ty := ty == NOTHING
  hasGeneric _ := false
  isSealedLike ty := !(ty == ANY || ty == CIRCLE || ty == SQUARE)
  isSubtype ty superTy := ty.superTypes.contains superTy
  shape
    | BOOL => .BOOLEAN
    | SHAPE => .CLOSED_SEALED [CIRCLE, SQUARE]
    | LABEL => .CLOSED_SEALED [CIRCLE]
    | _ => .OTHER
  acceptsLiteral lit ty := ty = UINT8 ∧
    ∃ n : UInt8, lit = .INTEGER n.toUInt64 ∨ lit = .RUNE_BYTE n.toUInt64
  shape_of_incorrect _ h := nomatch h
  distinct ty ctors isNonExhaustive h := by
    cases ty <;> exact nomatch h

/-- Bytes, and the objects of the classes. -/
inductive Obj where
  | byte (n : UInt8)
  | circle
  | square

def Obj.ty : Obj → ShapeTy
  | byte _ => UINT8
  | circle => CIRCLE
  | square => SQUARE

def IsInstance (x : Value Obj) (ty : ShapeTy) : Prop :=
  match x with
  | .bool _ => ty ∈ BOOL.superTypes
  | .object obj => ty ∈ obj.ty.superTypes
  | _ => False

/-- Integer literals and byte literals denote bytes. -/
def literalValue : LitConstExpr → Obj
  | .INTEGER asInt => .byte asInt.toUInt8
  | .RUNE_BYTE asInt => .byte asInt.toUInt8
  | _ => .byte 0

def values : ValueModel types where
  Obj := Obj
  isOther x ty := ∃ obj, x = .object obj ∧ ty ∈ obj.ty.superTypes
  isInstance := IsInstance
  literalValue := literalValue
  literal lit ty h := by
    obtain ⟨rfl, n, rfl | rfl⟩ := h
    · exact ⟨_, rfl, List.mem_cons_self⟩
    · exact ⟨_, rfl, List.mem_cons_self⟩
  isInstance_of_isSubtype x ty superTy h hx := by
    have hmem := List.contains_iff_mem.mp h
    cases x with
    | bool val => exact superTypes_trans BOOL ty hx superTy hmem
    | object obj => exact superTypes_trans obj.ty ty hx superTy hmem
    | _ => exact hx.elim
  closed x ty directSubtypes h hx := by
    obtain ⟨obj, rfl, hmem⟩ := hx
    cases ty with
    | SHAPE =>
      obtain rfl := TyShape.CLOSED_SEALED.inj h
      cases obj with
      | byte n => exact absurd hmem (by simp [Obj.ty, superTypes])
      | circle => exact ⟨CIRCLE, List.mem_cons_self, List.mem_cons_self⟩
      | square =>
        exact ⟨SQUARE, List.mem_cons_of_mem _ (List.mem_singleton_self _), List.mem_cons_self⟩
    | LABEL =>
      obtain rfl := TyShape.CLOSED_SEALED.inj h
      cases obj with
      | byte n => exact absurd hmem (by simp [Obj.ty, superTypes])
      | circle => exact ⟨CIRCLE, List.mem_singleton_self _, List.mem_cons_self⟩
      | square => exact absurd hmem (by decide)
    | _ => exact nomatch h

/-! The rows and stacks of the searches. -/

def rowOf (p : DestructedPattern ShapeTy) : PatternStack ShapeTy := ⟨[p]⟩

def typePattern (patternTy goalTy : ShapeTy) : DestructedPattern ShapeTy :=
  .mk (.TYPE patternTy) [] goalTy none

def literalPattern (lit : LitConstExpr) : DestructedPattern ShapeTy :=
  .mk (.NON_EXHAUSTIVE_LITERAL lit) [] UINT8 none

def flagPattern (val : Bool) : DestructedPattern ShapeTy := .mk (.BOOLEAN val) [] BOOL none

def bytes : Matrix ShapeTy :=
  ⟨(List.range 256).map fun n => rowOf (literalPattern (.INTEGER (UInt8.ofNat n).toUInt64))⟩

def letterA : Matrix ShapeTy := ⟨[rowOf (literalPattern (.INTEGER 97))]⟩

def circleOrSquare : Matrix ShapeTy :=
  ⟨[rowOf (typePattern CIRCLE ANY), rowOf (typePattern SQUARE ANY)]⟩

def eitherFlag : Matrix ShapeTy :=
  ⟨[rowOf (.mk (.OR 2) [flagPattern true, flagPattern false] BOOL none)]⟩

lemma typed_rowOf {p : DestructedPattern ShapeTy} {ty : ShapeTy} (h : p.Typed types ty) :
    (rowOf p).Typed types [ty] := .cons h .nil

lemma typed_nil (tys : List ShapeTy) : (⟨[]⟩ : Matrix ShapeTy).Typed types tys :=
  fun _ hrow => absurd hrow List.not_mem_nil

lemma typed_flagPattern (val : Bool) : (flagPattern val).Typed types BOOL := .boolean rfl

lemma not_matches_nil (xs : List (Value Obj)) :
    ¬(⟨[]⟩ : Matrix ShapeTy).Matches values xs :=
  fun ⟨_, hrow, _⟩ => absurd hrow List.not_mem_nil

/-- The rows match every vector of one value that some row matches. -/
lemma matches_rowOf {p : DestructedPattern ShapeTy} {x : Value Obj}
    (h : Matches values p x) : (rowOf p).Matches values [x] := .cons h .nil

/-- The numbers of witnesses that the searches return. -/
lemma witnessCounts :
    witnessCount types 3 bytes (rowOf (.wildcard UINT8)) = some 1 ∧
    witnessCount types 3 letterA (rowOf (literalPattern (.RUNE_BYTE 97))) = some 1 ∧
    witnessCount types 3 circleOrSquare (rowOf (typePattern SHAPE ANY)) = some 1 ∧
    witnessCount types 3 ⟨[]⟩ (rowOf (typePattern LABEL SHAPE)) = some 0 ∧
    witnessCount types 4 eitherFlag (rowOf (.wildcard BOOL)) = some 2 ∧
    witnessCount types 3 ⟨[]⟩ (rowOf (.mk .INVALID [] BOOL none)) = some 1 ∧
    witnessCount types 3 ⟨[]⟩ (rowOf (.wildcard NOTHING)) = some 1 := by
  decide +kernel

/-- All bytes together are not taken to be all values of their type. -/
lemma inexact_bytes : Inexact values [UINT8] bytes (rowOf (.wildcard UINT8)) := by
  have hm : bytes.Typed types [UINT8] := by
    intro row hrow
    obtain ⟨n, -, rfl⟩ := List.mem_map.mp hrow
    exact typed_rowOf (.literal rfl ⟨rfl, UInt8.ofNat n, Or.inl rfl⟩)
  have hcount := witnessCounts.1
  refine inexact_of_witnessCount hm (typed_rowOf .wildcard) hcount fun hiff => ?_
  refine Nat.one_ne_zero (hiff.mpr fun xs hxs _ => ?_)
  obtain ⟨x, xs, rfl, hx, hxs⟩ := exists_cons_of_typed hxs
  rw [List.forall₂_nil_right_iff.mp hxs]
  obtain ⟨obj, rfl, hmem⟩ := hx.isOther rfl
  cases obj with
  | byte n =>
    have hvalue : values.literalValue (.INTEGER (UInt8.ofNat n.toNat).toUInt64) = .byte n := by
      rw [UInt8.ofNat_toNat]
      exact congrArg Obj.byte (UInt8.toUInt8_toUInt64 n)
    refine ⟨_, List.mem_map_of_mem (List.mem_range.mpr n.toNat_lt), matches_rowOf ?_⟩
    rw [← hvalue]
    exact .literal
  | circle => exact absurd hmem (by decide)
  | square => exact absurd hmem (by decide)

/-- An integer literal is not seen to be a byte literal. -/
lemma inexact_letterA :
    Inexact values [UINT8] letterA (rowOf (literalPattern (.RUNE_BYTE 97))) := by
  have hm : letterA.Typed types [UINT8] := by
    intro row hrow
    rw [List.mem_singleton.mp hrow]
    exact typed_rowOf (.literal rfl ⟨rfl, 97, Or.inl rfl⟩)
  have hv : (literalPattern (.RUNE_BYTE 97)).Typed types UINT8 :=
    .literal rfl ⟨rfl, 97, Or.inr rfl⟩
  have hcount := witnessCounts.2.1
  refine inexact_of_witnessCount hm (typed_rowOf hv) hcount fun hiff => ?_
  refine Nat.one_ne_zero (hiff.mpr fun xs _ hmatch => ?_)
  cases hmatch with
  | cons hmatch hrest =>
    cases hrest with
    | nil =>
      cases hmatch with
      | literal => exact ⟨_, List.mem_singleton_self _, matches_rowOf .literal⟩

/-- Two type patterns are not seen to cover a third one together. -/
lemma inexact_circleOrSquare :
    Inexact values [ANY] circleOrSquare (rowOf (typePattern SHAPE ANY)) := by
  have hm : circleOrSquare.Typed types [ANY] := by
    intro row hrow
    rcases List.mem_pair.mp hrow with rfl | rfl
    · exact typed_rowOf .type
    · exact typed_rowOf .type
  have hcount := witnessCounts.2.2.1
  refine inexact_of_witnessCount hm (typed_rowOf .type) hcount fun hiff => ?_
  refine Nat.one_ne_zero (hiff.mpr fun xs hxs hmatch => ?_)
  obtain ⟨x, xs, rfl, hx, hxs⟩ := exists_cons_of_typed hxs
  rw [List.forall₂_nil_right_iff.mp hxs] at hmatch ⊢
  cases hmatch with
  | cons hmatch _ =>
    cases hmatch with
    | type hinstance =>
      obtain ⟨obj, rfl, -⟩ := hx.isOther rfl
      cases obj with
      | byte n =>
        have hmem : SHAPE ∈ UINT8.superTypes := hinstance
        exact absurd hmem (by decide)
      | circle =>
        exact ⟨_, List.mem_cons_self, matches_rowOf (.type List.mem_cons_self)⟩
      | square =>
        exact ⟨_, List.mem_cons_of_mem _ (List.mem_singleton_self _),
          matches_rowOf (.type List.mem_cons_self)⟩

/-- A sealed interface is reported as unreachable although some class implements both. -/
lemma inexact_label : Inexact values [SHAPE] ⟨[]⟩ (rowOf (typePattern LABEL SHAPE)) := by
  have hcount := witnessCounts.2.2.2.1
  refine inexact_of_witnessCount (typed_nil _) (typed_rowOf .type) hcount fun hiff => ?_
  have hshape : SHAPE ∈ Obj.circle.ty.superTypes := by decide
  have hlabel : LABEL ∈ Obj.circle.ty.superTypes := by decide
  have hcircle : HasType values (.object .circle) SHAPE := .closed rfl ⟨_, rfl, hshape⟩
  exact not_matches_nil _ (hiff.mp rfl _ (.cons hcircle .nil) (matches_rowOf (.type hlabel)))

/-- A row with an or-pattern covers no constructor. -/
lemma inexact_eitherFlag : Inexact values [BOOL] eitherFlag (rowOf (.wildcard BOOL)) := by
  have hm : eitherFlag.Typed types [BOOL] := by
    intro row hrow
    rw [List.mem_singleton.mp hrow]
    refine typed_rowOf (.or fun p hp => ?_)
    rcases List.mem_pair.mp hp with rfl | rfl
    · exact typed_flagPattern true
    · exact typed_flagPattern false
  have hcount := witnessCounts.2.2.2.2.1
  refine inexact_of_witnessCount hm (typed_rowOf .wildcard) hcount fun hiff => ?_
  refine Nat.succ_ne_zero 1 (hiff.mpr fun xs hxs _ => ?_)
  obtain ⟨x, xs, rfl, hx, hxs⟩ := exists_cons_of_typed hxs
  rw [List.forall₂_nil_right_iff.mp hxs]
  obtain ⟨val, rfl⟩ := hx.exists_bool rfl
  have hval : flagPattern val ∈ [flagPattern true, flagPattern false] := by
    cases val
    · exact List.mem_cons_of_mem _ (List.mem_singleton_self _)
    · exact List.mem_cons_self
  exact ⟨_, List.mem_singleton_self _, matches_rowOf (.or hval .boolean)⟩

/-- An invalid pattern matches nothing, and has itself as a witness. -/
lemma inexact_invalid : Inexact values [BOOL] ⟨[]⟩ (rowOf (.mk .INVALID [] BOOL none)) := by
  have hcount := witnessCounts.2.2.2.2.2.1
  refine inexact_of_witnessCount (typed_nil _) (typed_rowOf .invalid) hcount fun hiff => ?_
  refine Nat.one_ne_zero (hiff.mpr fun xs _ hmatch => ?_)
  cases hmatch with
  | cons hmatch _ => exact nomatch hmatch

/-- A type without values is not seen to have none. -/
lemma inexact_nothing : Inexact values [NOTHING] ⟨[]⟩ (rowOf (.wildcard NOTHING)) := by
  have hcount := witnessCounts.2.2.2.2.2.2
  refine inexact_of_witnessCount (typed_nil _) (typed_rowOf .wildcard) hcount fun hiff => ?_
  refine Nat.one_ne_zero (hiff.mpr fun xs hxs _ => ?_)
  obtain ⟨x, xs, rfl, hx, -⟩ := exists_cons_of_typed hxs
  obtain ⟨obj, -, hmem⟩ := hx.isOther rfl
  cases obj with
  | byte n => exact absurd hmem (by simp [Obj.ty, superTypes])
  | circle => exact absurd hmem (by decide)
  | square => exact absurd hmem (by decide)

end ShapeTy

/-- A value is matched by one of the patterns of a case. -/
def MatchCase.Matches (V : ValueModel T) (mc : MatchCase Ty) (x : Value V.Obj) : Prop :=
  ∃ p ∈ mc.patterns, PatternUsefulness.Matches V p x

/-- A value is matched by a case without a guard. -/
def MatchedBy (V : ValueModel T) (matchCases : List (MatchCase Ty)) (x : Value V.Obj) : Prop :=
  ∃ mc ∈ matchCases, mc.patternGuard = false ∧ mc.Matches V x

section Cases

variable {V : ValueModel T} {ty : Ty} {mc : MatchCase Ty} {matchCases earlier : List (MatchCase Ty)}
  {m : Matrix Ty} {x : Value V.Obj}

lemma MatchedBy.append_left (h : MatchedBy V earlier x) :
    MatchedBy V (earlier ++ matchCases) x := by
  obtain ⟨mc, hmc, hmatch⟩ := h
  exact ⟨mc, List.mem_append_left _ hmc, hmatch⟩

lemma MatchCase.matches_fromPatterns :
    PatternUsefulness.Matches V (mc.fromPatterns ty) x ↔ mc.Matches V x := by
  unfold fromPatterns MatchCase.Matches
  split
  · next pattern hpatterns => simp only [hpatterns, List.mem_singleton, exists_eq_left]
  · constructor
    · intro h
      cases h with
      | or hp h => exact ⟨_, hp, h⟩
    · rintro ⟨p, hp, h⟩
      exact .or hp h

lemma MatchCase.typed_fromPatterns (h : ∀ p ∈ mc.patterns, p.Typed T ty) :
    (mc.fromPatterns ty).Typed T ty := by
  unfold fromPatterns
  split
  · next pattern hpatterns => exact h pattern (by rw [hpatterns]; exact List.mem_cons_self)
  · exact .or h

lemma MatchCase.simple_fromPatterns (h : ∀ p ∈ mc.patterns, p.Simple) :
    (mc.fromPatterns ty).Simple := by
  unfold fromPatterns
  split
  · next pattern hpatterns => exact h pattern (by rw [hpatterns]; exact List.mem_cons_self)
  · exact .mk (fun _ => nofun) nofun h

/-- The search for one pattern. -/
lemma exists_witnesses {p : DestructedPattern Ty} (hm : m.Typed T [ty]) (hp : p.Typed T ty)
    (hsimple : V.SealedApart ∨ p.Simple) :
    ∃ found, Settles (fun fuel => findWitnesses T fuel m ⟨[p]⟩) found ∧
      (∀ w ∈ found.witnesses, w.Typed T [ty]) ∧
      (∀ w ∈ found.witnesses, ∀ x, w.Matches V [x] → Matches V p x ∨ m.Matches V [x]) ∧
      (found.witnesses = [] → ∀ x, HasType V x ty → Matches V p x → m.Matches V [x]) := by
  have hv : (⟨[p]⟩ : PatternStack Ty).Typed T [ty] := .cons hp .nil
  obtain ⟨found, hfound⟩ := terminates hm hv
  obtain ⟨enough, henough⟩ := settles_iff.mp hfound
  obtain ⟨htyped, hsound, hcovers⟩ :=
    covering_findWitnesses (V := V) hm hv (henough enough le_rfl)
  have hsimple' : V.SealedApart ∨ (⟨[p]⟩ : PatternStack Ty).Simple :=
    hsimple.imp_right fun h q hq => by rwa [List.mem_singleton.mp hq]
  refine ⟨found, hfound, htyped, fun w hw x hx => ?_, fun hnone x hx hmatch => ?_⟩
  · refine (hsound w hw [x] hx).imp_left fun h => ?_
    cases h with
    | cons h _ => exact h
  · rcases hcovers hsimple' [x] (.cons hx .nil) (.cons hmatch .nil) with hmatrix | ⟨w, hw, -⟩
    · exact hmatrix
    · rw [hnone] at hw
      exact absurd hw List.not_mem_nil

/-- The rows of the matrix come from the cases so far, so that what it matches is matched by a case
without a guard. -/
structure FromCases (V : ValueModel T) (ty : Ty) (earlier : List (MatchCase Ty)) (m : Matrix Ty) :
    Prop where
  typed : m.Typed T [ty]
  sound : ∀ x, m.Matches V [x] → MatchedBy V earlier x

lemma FromCases.next (h : FromCases V ty earlier m) {found : Found Ty}
    (htyped : ∀ w ∈ found.witnesses, w.Typed T [ty])
    (hsound : ∀ w ∈ found.witnesses, ∀ x, w.Matches V [x] →
      Matches V (mc.fromPatterns ty) x ∨ m.Matches V [x]) :
    FromCases V ty (earlier ++ [mc])
      (if !found.witnesses.isEmpty && !mc.patternGuard then m.appendRows found.witnesses
      else m) := by
  split_ifs with hnew
  · rw [Bool.and_eq_true, Bool.not_eq_true', Bool.not_eq_true'] at hnew
    refine ⟨fun row hrow => ?_, fun x hx => ?_⟩
    · exact (List.mem_append.mp hrow).elim (h.typed row) (htyped row)
    · rcases Matrix.matches_appendRows_iff.mp hx with hmatrix | ⟨w, hw, hmatch⟩
      · exact (h.sound x hmatrix).append_left
      · rcases hsound w hw x hmatch with hcase | hmatrix
        · exact ⟨mc, List.mem_append_right _ List.mem_cons_self, hnew.2,
            MatchCase.matches_fromPatterns.mp hcase⟩
        · exact (h.sound x hmatrix).append_left
  · exact ⟨h.typed, fun x hx => (h.sound x hx).append_left⟩

/-- The loop over the remaining cases. -/
lemma exists_report (h : FromCases V ty earlier m)
    (htyped : ∀ mc ∈ matchCases, ∀ p ∈ mc.patterns, p.Typed T ty)
    (hsimple : V.SealedApart ∨ ∀ mc ∈ matchCases, ∀ p ∈ mc.patterns, p.Simple) :
    ∃ report, Settles (fun fuel => checkMatchCases (findWitnesses T fuel) ty m matchCases) report ∧
      (report.exhaustive = true → ∀ x, HasType V x ty → MatchedBy V (earlier ++ matchCases) x) ∧
      ∀ i mc, matchCases[i]? = some mc → report.unreachableCases[i]? = some true →
        ∀ x, HasType V x ty → mc.Matches V x → MatchedBy V (earlier ++ matchCases.take i) x := by
  induction matchCases generalizing earlier m with
  | nil =>
    obtain ⟨found, hfound, -, -, hcovered⟩ := exists_witnesses (V := V) (p := .wildcard ty) h.typed
      .wildcard (Or.inr (DestructedPattern.simple_wildcard ty))
    refine ⟨_, hfound.bind (settles_of_eq fun _ => rfl), fun hnone x hx => ?_, fun i mc hmc => ?_⟩
    · exact (h.sound x (hcovered (List.isEmpty_iff.mp hnone) x hx .wildcard)).append_left
    · exact absurd hmc (by simp)
  | cons mc matchCases ih =>
    have htyped' := MatchCase.typed_fromPatterns (htyped mc List.mem_cons_self)
    obtain ⟨found, hfound, hwitnesses, hsound, hcovered⟩ := exists_witnesses h.typed htyped'
      (hsimple.imp_right fun hall => MatchCase.simple_fromPatterns (hall mc List.mem_cons_self))
    obtain ⟨rest, hrest, hexhaustive, hunreachable⟩ := ih (h.next hwitnesses hsound)
      (fun mc hmc => htyped mc (List.mem_cons_of_mem _ hmc))
      (hsimple.imp_right fun hall mc hmc => hall mc (List.mem_cons_of_mem _ hmc))
    rw [List.append_assoc, List.singleton_append] at hexhaustive
    refine ⟨_, hfound.bind (hrest.bind (settles_of_eq fun _ => rfl)), hexhaustive, ?_⟩
    intro i mc' hmc' hmark x hx hmatch
    cases i with
    | zero =>
      rw [List.getElem?_cons_zero, Option.some.injEq] at hmc' hmark
      rw [← hmc'] at hmatch
      have hmatrix : m.Matches V [x] := hcovered (List.isEmpty_iff.mp hmark) x hx
        (MatchCase.matches_fromPatterns.mpr hmatch)
      exact (h.sound x hmatrix).append_left
    | succ i =>
      rw [List.getElem?_cons_succ] at hmc' hmark
      have hmatched := hunreachable i mc' hmc' hmark x hx hmatch
      rwa [List.append_assoc, List.singleton_append] at hmatched

end Cases

/-- The check returns.  Cases that it calls exhaustive match every value of the selector without a
guard, and every value that a case marked as unreachable matches is matched by an earlier case
without a guard. -/
theorem checkMatchExpr_sound (V : ValueModel T) (selectorTy : Ty)
    (matchCases : List (MatchCase Ty))
    (htyped : ∀ mc ∈ matchCases, ∀ p ∈ mc.patterns, p.Typed T selectorTy)
    (hsimple : V.SealedApart ∨ ∀ mc ∈ matchCases, ∀ p ∈ mc.patterns, p.Simple) :
    ∃ report enough,
      (∀ fuel ≥ enough, checkMatchExprHasSelectorExhaustivenessAndReachability T fuel selectorTy
        matchCases = some report) ∧
      (report.exhaustive = true → ∀ x, HasType V x selectorTy → MatchedBy V matchCases x) ∧
      ∀ i mc, matchCases[i]? = some mc → report.unreachableCases[i]? = some true →
        ∀ x, HasType V x selectorTy → mc.Matches V x → MatchedBy V (matchCases.take i) x := by
  have hstart : FromCases V selectorTy [] ⟨[]⟩ :=
    ⟨fun row hrow => absurd hrow List.not_mem_nil,
      fun x ⟨row, hrow, _⟩ => absurd hrow List.not_mem_nil⟩
  obtain ⟨report, hreport, hexhaustive, hunreachable⟩ := exists_report hstart htyped hsimple
  obtain ⟨enough, henough⟩ := settles_iff.mp hreport
  exact ⟨report, enough, henough, hexhaustive, hunreachable⟩

/-- A match of a flag. -/
def FlagTy.cases : List (MatchCase FlagTy) :=
  [⟨[.mk (.BOOLEAN true) [] .BOOL none], false, by simp⟩,
    ⟨[.mk (.BOOLEAN false) [] .BOOL none, .wildcard .BOOL], false, by simp⟩]

theorem checkMatchExpr_sound_flags :
    ∃ report enough,
      (∀ fuel ≥ enough, checkMatchExprHasSelectorExhaustivenessAndReachability FlagTy.types fuel
        .BOOL FlagTy.cases = some report) ∧
      (report.exhaustive = true → ∀ x, HasType FlagTy.values x .BOOL →
        MatchedBy FlagTy.values FlagTy.cases x) ∧
      ∀ i mc, FlagTy.cases[i]? = some mc → report.unreachableCases[i]? = some true →
        ∀ x, HasType FlagTy.values x .BOOL → mc.Matches FlagTy.values x →
          MatchedBy FlagTy.values (FlagTy.cases.take i) x := by
  refine checkMatchExpr_sound FlagTy.values .BOOL FlagTy.cases ?_ (Or.inr ?_)
  · intro mc hmc p hp
    rcases List.mem_pair.mp hmc with rfl | rfl
    · rw [List.mem_singleton.mp hp]
      exact .boolean rfl
    · rcases List.mem_pair.mp hp with rfl | rfl
      · exact .boolean rfl
      · exact .wildcard
  · intro mc hmc p hp
    have hflag (val : Bool) : (DestructedPattern.mk (.BOOLEAN val) [] FlagTy.BOOL none).Simple :=
      .mk (fun _ => nofun) nofun fun _ hq => absurd hq List.not_mem_nil
    rcases List.mem_pair.mp hmc with rfl | rfl
    · rw [List.mem_singleton.mp hp]
      exact hflag true
    · rcases List.mem_pair.mp hp with rfl | rfl
      · exact hflag false
      · exact DestructedPattern.simple_wildcard FlagTy.BOOL

end Cangjie.PatternUsefulness
