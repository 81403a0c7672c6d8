import Mathlib.Data.List.Nodup
import CangjieCompiler.Foundations.PartialLoop
import CangjieCompiler.Sema.PatternUsefulness.FindWitnesses

/-!
# Well-typed patterns

A pattern of a type has as many arguments as its constructor has fields, and a wildcard and a type
pattern remember the type.  Rows over the same column types stay so when they are specialized, hence
the search never meets an empty row, and the witnesses that it returns are rows over the same column
types as its stack.
-/

namespace Cangjie.PatternUsefulness

open PartialLoop

variable {Ty : Type}

/-! ## Patterns of a type -/

namespace DestructedPattern

variable (T : PatternTypes Ty)

inductive Typed : DestructedPattern Ty → Ty → Prop
  | wildcard {ty node} : Typed (mk .WILDCARD [] ty node) ty
  | missing {ty goalTy node} (h : T.shape ty = .OTHER) : Typed (mk .MISSING [] goalTy node) ty
  | unit {ty goalTy node} (h : T.shape ty = .UNIT) : Typed (mk .UNIT [] goalTy node) ty
  | boolean {val ty goalTy node} (h : T.shape ty = .BOOLEAN) :
    Typed (mk (.BOOLEAN val) [] goalTy node) ty
  | literal {lit ty goalTy node} (h : T.shape ty = .OTHER) (hlit : T.acceptsLiteral lit ty) :
    Typed (mk (.NON_EXHAUSTIVE_LITERAL lit) [] goalTy node) ty
  | nonExhaustiveEnum {ctors ty goalTy node} (h : T.shape ty = .ENUM ctors true) :
    Typed (mk .NON_EXHAUSTIVE_ENUM [] goalTy node) ty
  | enum {ctor ctors isNonExhaustive subPatterns ty goalTy node}
    (h : T.shape ty = .ENUM ctors isNonExhaustive) (hctor : ctor ∈ ctors)
    (hsub : List.Forall₂ Typed subPatterns ctor.paramTys) :
    Typed (mk (.ENUM ctor) subPatterns goalTy node) ty
  | tuple {typeArgs subPatterns ty goalTy node} (h : T.shape ty = .TUPLE typeArgs)
    (hsub : List.Forall₂ Typed subPatterns typeArgs) :
    Typed (mk (.TUPLE typeArgs.length) subPatterns goalTy node) ty
  | type {patternTy ty node} : Typed (mk (.TYPE patternTy) [] ty node) ty
  | or {numArgs subPatterns ty goalTy node} (hsub : ∀ p ∈ subPatterns, Typed p ty) :
    Typed (mk (.OR numArgs) subPatterns goalTy node) ty
  | invalid {ty goalTy node} : Typed (mk .INVALID [] goalTy node) ty

end DestructedPattern

/-- The patterns of a row have the types of the columns. -/
def PatternStack.Typed (T : PatternTypes Ty) (s : PatternStack Ty) (tys : List Ty) : Prop :=
  List.Forall₂ (DestructedPattern.Typed T) s.columns tys

def Matrix.Typed (T : PatternTypes Ty) (m : Matrix Ty) (tys : List Ty) : Prop :=
  ∀ row ∈ m.rows, row.Typed T tys

/-! ## Constructors of a type -/

namespace Constructor

variable (T : PatternTypes Ty)

/-- A constructor with fields is one of the constructors of the type; an or-pattern is none. -/
def Fits (ctor : Constructor Ty) (ty : Ty) : Prop :=
  match ctor with
  | TUPLE numArgs => ∃ typeArgs, T.shape ty = .TUPLE typeArgs ∧ numArgs = typeArgs.length
  | ENUM ctor => ∃ ctors isNonExhaustive, T.shape ty = .ENUM ctors isNonExhaustive ∧ ctor ∈ ctors
  | OR _ => False
  | _ => True

/-- The constructors that make values of a type, and the constructor of the missing literals. -/
def Proper (ctor : Constructor Ty) (ty : Ty) : Prop :=
  match ctor with
  | UNIT => T.shape ty = .UNIT
  | BOOLEAN _ => T.shape ty = .BOOLEAN
  | NON_EXHAUSTIVE_LITERAL lit => T.shape ty = .OTHER ∧ T.acceptsLiteral lit ty
  | ENUM ctor => ∃ ctors isNonExhaustive, T.shape ty = .ENUM ctors isNonExhaustive ∧ ctor ∈ ctors
  | NON_EXHAUSTIVE_ENUM => ∃ ctors, T.shape ty = .ENUM ctors true
  | TUPLE numArgs => ∃ typeArgs, T.shape ty = .TUPLE typeArgs ∧ numArgs = typeArgs.length
  | MISSING => T.shape ty = .OTHER
  | _ => False

/-- The types of the fields. -/
def argTypes (ctor : Constructor Ty) (ty : Ty) : List Ty :=
  match ctor with
  | TUPLE _ => T.typeArgs ty
  | ENUM ctor => ctor.paramTys
  | _ => []

variable {T}

lemma length_argTypes {ctor : Constructor Ty} {ty : Ty} (h : ctor.Fits T ty) :
    (ctor.argTypes T ty).length = ctor.arity := by
  cases ctor with
  | TUPLE numArgs =>
    obtain ⟨typeArgs, hshape, rfl⟩ := h
    simp only [argTypes, PatternTypes.typeArgs, hshape, arity]
  | OR numArgs => exact h.elim
  | _ => rfl

lemma Proper.fits {ctor : Constructor Ty} {ty : Ty} (h : ctor.Proper T ty) :
    ctor.Fits T ty := by
  cases ctor with
  | ENUM c => exact h
  | TUPLE n => exact h
  | OR n => exact h
  | _ => trivial

/-- The heads that the search specializes by a constructor. -/
lemma isCoveredBy_or_eq {ctor head : Constructor Ty} (h : head = .WILDCARD ∨ head = ctor) :
    ctor.isCoveredBy T head = true ∨ head = ctor := by
  rcases h with rfl | hsame
  · left
    cases ctor <;> rfl
  · exact Or.inr hsame

end Constructor

namespace DestructedPattern

variable {T : PatternTypes Ty}

lemma typed_wildcards (tys : List Ty) :
    List.Forall₂ (DestructedPattern.Typed T) (tys.map wildcard) tys := by
  induction tys with
  | nil => exact .nil
  | cons ty tys ih => exact .cons .wildcard ih

/-- A wildcard has wildcards of the fields as arguments. -/
lemma specializeWildcard_eq {ctor : Constructor Ty} {ty : Ty} (h : ctor.Fits T ty) :
    specializeWildcard T ty ctor = (ctor.argTypes T ty).map wildcard := by
  cases ctor with
  | TUPLE numArgs =>
    have hlength := Constructor.length_argTypes h
    simp only [Constructor.argTypes, Constructor.arity] at hlength
    simp only [specializeWildcard, Constructor.argTypes, ← hlength, List.take_length]
  | _ => rfl

/-- Two constructors of one enum are the same if they compare equal. -/
lemma eq_of_key_eq {ty : Ty} {ctors : List (EnumConstructor Ty)} {isNonExhaustive : Bool}
    (h : T.shape ty = .ENUM ctors isNonExhaustive) {c d : EnumConstructor Ty} (hc : c ∈ ctors)
    (hd : d ∈ ctors) (hkey : c.key = d.key) : c = d :=
  List.inj_on_of_nodup_map (T.distinct ty ctors isNonExhaustive h) hc hd hkey

/-- A pattern that covers a constructor has arguments of the types of its fields. -/
lemma typed_specialize {p : DestructedPattern Ty} {ty : Ty} {ctor : Constructor Ty}
    (hp : p.Typed T ty) (hfits : ctor.Fits T ty)
    (hcover : ctor.isCoveredBy T p.ctor = true ∨ p.ctor = ctor) :
    List.Forall₂ (DestructedPattern.Typed T) (p.specialize T ctor) (ctor.argTypes T ty) := by
  cases hp with
  | wildcard =>
    have hwild : (mk .WILDCARD [] ty ‹_›).specialize T ctor = specializeWildcard T ty ctor := rfl
    rw [hwild, specializeWildcard_eq hfits]
    exact typed_wildcards _
  | missing h =>
    cases ctor with
    | TUPLE numArgs =>
      obtain ⟨typeArgs, hshape, -⟩ := hfits
      exact absurd (h.symm.trans hshape) (by simp)
    | ENUM c =>
      obtain ⟨ctors, isNonExhaustive, hshape, -⟩ := hfits
      exact absurd (h.symm.trans hshape) (by simp)
    | _ => exact .nil
  | enum h hctor hsub =>
    rename_i c ctors isNonExhaustive subPatterns goalTy node
    have hsame : ctor = .ENUM c := by
      rcases hcover with hcover | heq
      · cases ctor with
        | ENUM d =>
          obtain ⟨ctors', isNonExhaustive', hshape, hd⟩ := hfits
          obtain ⟨rfl, rfl⟩ := TyShape.ENUM.inj (h.symm.trans hshape)
          have hkey : d.key = c.key := eq_of_beq hcover
          rw [eq_of_key_eq h hd hctor hkey]
        | _ => exact absurd hcover (by simp [Constructor.isCoveredBy, DestructedPattern.ctor])
      · exact heq.symm
    rw [hsame]
    exact hsub
  | tuple h hsub =>
    rename_i typeArgs subPatterns goalTy node
    have hsame : ctor.argTypes T ty = typeArgs := by
      cases ctor with
      | TUPLE numArgs => simp only [Constructor.argTypes, PatternTypes.typeArgs, h]
      | _ =>
        exact absurd hcover (by simp [Constructor.isCoveredBy, DestructedPattern.ctor])
    rw [hsame]
    exact hsub
  | or hsub =>
    rcases hcover with hcover | heq
    · cases ctor <;> exact absurd hcover (by simp [Constructor.isCoveredBy, DestructedPattern.ctor])
    · rw [← heq] at hfits
      exact hfits.elim
  | _ =>
    cases ctor with
    | TUPLE numArgs =>
      exact absurd hcover (by simp [Constructor.isCoveredBy, DestructedPattern.ctor])
    | ENUM c => exact absurd hcover (by simp [Constructor.isCoveredBy, DestructedPattern.ctor])
    | _ => exact .nil

end DestructedPattern

/-! ## Rows over column types -/

namespace PatternStack

variable {T : PatternTypes Ty} {s : PatternStack Ty} {ty : Ty} {tys : List Ty}

lemma Typed.head (h : s.Typed T (ty :: tys)) :
    ∃ head, s.head? = some head ∧ head.Typed T ty ∧
      List.Forall₂ (DestructedPattern.Typed T) s.columns.tail tys := by
  unfold PatternStack.Typed at h
  rw [head?_eq]
  cases hcolumns : s.columns with
  | nil =>
    rw [hcolumns] at h
    exact nomatch h
  | cons head rest =>
    rw [hcolumns] at h
    cases h with
    | cons hhead hrest => exact ⟨head, rfl, hhead, hrest⟩

lemma Typed.nil (h : s.Typed T []) : s.columns = [] := List.forall₂_nil_right_iff.mp h

lemma head?_eq_none_iff : s.head? = none ↔ s.columns = [] := by
  rw [head?_eq, List.head?_eq_none_iff]

lemma specialize_of_head {head : DestructedPattern Ty} (h : s.head? = some head)
    (ctor : Constructor Ty) : ∃ s', s.specialize T ctor = some s' ∧
      s'.columns = head.specialize T ctor ++ s.columns.tail := by
  have hsome : s.specialize T ctor =
      some ⟨s.stack.dropLast ++ (head.specialize T ctor).reverse⟩ := by
    rw [specialize, h, Option.map_some]
  exact ⟨_, hsome, columns_specialize T h hsome⟩

lemma typed_replaceHead {p : DestructedPattern Ty} (h : s.Typed T (ty :: tys))
    (hp : p.Typed T ty) : (s.replaceHead p).Typed T (ty :: tys) := by
  obtain ⟨head, -, -, hrest⟩ := h.head
  unfold PatternStack.Typed
  rw [columns_replaceHead]
  exact .cons hp hrest

/-- A row is specialized to the types of the fields. -/
lemma typed_specialize {head : DestructedPattern Ty} {ctor : Constructor Ty}
    {s' : PatternStack Ty} (h : s.Typed T (ty :: tys)) (hhead : s.head? = some head)
    (hfits : ctor.Fits T ty) (hcover : ctor.isCoveredBy T head.ctor = true ∨ head.ctor = ctor)
    (hs' : s.specialize T ctor = some s') : s'.Typed T (ctor.argTypes T ty ++ tys) := by
  obtain ⟨head', hhead', htyped, hrest⟩ := h.head
  obtain rfl := Option.some.inj (hhead.symm.trans hhead')
  unfold PatternStack.Typed
  rw [columns_specialize T hhead hs']
  exact List.rel_append (DestructedPattern.typed_specialize htyped hfits hcover) hrest

end PatternStack

namespace Matrix

variable {T : PatternTypes Ty} {m : Matrix Ty} {ty : Ty} {tys : List Ty}

variable (T) in
/-- What specialization makes of one row. -/
def specializedRow (ctor : Constructor Ty) (row : PatternStack Ty) : List (PatternStack Ty) :=
  match row.head? with
  | some head =>
    if ctor.isCoveredBy T head.ctor then (row.specialize T ctor).toList else []
  | none => []

lemma mem_specializedRow {ctor : Constructor Ty} {row row' : PatternStack Ty} :
    row' ∈ specializedRow T ctor row ↔ ∃ head, row.head? = some head ∧
      ctor.isCoveredBy T head.ctor = true ∧ row.specialize T ctor = some row' := by
  unfold specializedRow
  cases row.head? with
  | none => simp
  | some head =>
    dsimp only
    split_ifs with hcover
    · rw [Option.mem_toList]
      exact ⟨fun h => ⟨head, rfl, hcover, h⟩, fun ⟨_, _, _, h⟩ => h⟩
    · refine ⟨fun h => absurd h List.not_mem_nil, fun ⟨head', hhead, hcover', _⟩ => ?_⟩
      rw [Option.some.inj hhead] at hcover
      exact absurd hcover' hcover

/-- A matrix without empty rows is specialized row by row. -/
lemma specialize_eq (h : ∀ row ∈ m.rows, row.head? ≠ none) (ctor : Constructor Ty) :
    m.specialize T ctor = some ⟨m.rows.flatMap (specializedRow T ctor)⟩ := by
  have hrows : (m.rows.mapM fun row => do
      let head ← row.head?
      if ctor.isCoveredBy T head.ctor then (row.specialize T ctor).map fun newRow => [newRow]
      else some []) = some (m.rows.map (specializedRow T ctor)) := by
    refine mapM_eq_some_map fun row hrow => ?_
    obtain ⟨head, hhead⟩ := Option.ne_none_iff_exists'.mp (h row hrow)
    obtain ⟨row', hrow', -⟩ := PatternStack.specialize_of_head hhead (T := T) ctor
    unfold specializedRow
    rw [hhead, Option.bind_eq_bind, Option.bind_some, hrow']
    dsimp only
    split_ifs <;> rfl
  unfold specialize
  rw [hrows, List.flatMap_def]
  rfl

lemma head?_ne_none (h : m.Typed T (ty :: tys)) : ∀ row ∈ m.rows, row.head? ≠ none := by
  intro row hrow
  obtain ⟨head, hhead, -⟩ := (h row hrow).head
  rw [hhead]
  exact Option.some_ne_none head

/-- A typed matrix can be specialized, and its rows are those of the covered rows. -/
lemma specialize_typed {ctor : Constructor Ty} (h : m.Typed T (ty :: tys))
    (hfits : ctor.Fits T ty) : ∃ m', m.specialize T ctor = some m' ∧
      m'.Typed T (ctor.argTypes T ty ++ tys) ∧
      ∀ row', row' ∈ m'.rows ↔ ∃ row ∈ m.rows, row' ∈ specializedRow T ctor row := by
  refine ⟨_, specialize_eq (head?_ne_none h) ctor, fun row' hrow' => ?_,
    fun row' => List.mem_flatMap⟩
  obtain ⟨row, hrow, hmem⟩ := List.mem_flatMap.mp hrow'
  obtain ⟨head, hhead, hcover, hspecialize⟩ := mem_specializedRow.mp hmem
  exact PatternStack.typed_specialize (h row hrow) hhead hfits (Or.inl hcover) hspecialize

end Matrix

/-! ## Constructors that the search goes on with -/

section

variable {T : PatternTypes Ty} {ty : Ty}

/-- The constructor of a pattern fits the type of the pattern unless it is an or-pattern. -/
lemma DestructedPattern.Typed.fits {p : DestructedPattern Ty} (h : p.Typed T ty)
    (hor : ∀ n, p.ctor ≠ .OR n) : p.ctor.Fits T ty := by
  cases h with
  | enum h hctor _ => exact ⟨_, _, h, hctor⟩
  | tuple h _ => exact ⟨_, h, rfl⟩
  | or _ => exact absurd rfl (hor _)
  | _ => trivial

lemma DestructedPattern.Typed.goalTy_of_wildcard {p : DestructedPattern Ty} (h : p.Typed T ty)
    (hctor : p.ctor = .WILDCARD) : p.goalTy = ty ∧ p.subPatterns = [] := by
  cases h with
  | wildcard => exact ⟨rfl, rfl⟩
  | _ => exact nomatch hctor

lemma DestructedPattern.Typed.goalTy_of_type {p : DestructedPattern Ty} (h : p.Typed T ty)
    {patternTy : Ty} (hctor : p.ctor = .TYPE patternTy) : p.goalTy = ty := by
  cases h with
  | type => rfl
  | _ => exact nomatch hctor

/-- The constructors of a type over a matrix with columns. -/
lemma splitWildcard_eq {m : Matrix Ty} (hmissing : m.missingAll = false) :
    splitWildcard T ty m =
      match T.shape ty with
      | .UNIT => [.UNIT]
      | .BOOLEAN => [.BOOLEAN false, .BOOLEAN true]
      | .TUPLE typeArgs => [.TUPLE typeArgs.length]
      | .ENUM ctors isNonExhaustive =>
        ctors.map .ENUM ++ if isNonExhaustive then [.NON_EXHAUSTIVE_ENUM] else []
      | .CLOSED_SEALED directSubtypes => directSubtypes.map .TYPE
      | .OTHER => [.MISSING] := by
  have hcorrect {shape : TyShape Ty} (hshape : T.shape ty = shape) (hother : shape ≠ .OTHER)
      (hclosed : ∀ directSubtypes, shape ≠ .CLOSED_SEALED directSubtypes) :
      T.isTyCorrect ty = true := by
    refine Bool.of_not_eq_false fun h => ?_
    rcases T.shape_of_incorrect ty h with hshape' | ⟨directSubtypes, hshape'⟩
    · exact hother (hshape.symm.trans hshape')
    · exact hclosed directSubtypes (hshape.symm.trans hshape')
  unfold splitWildcard
  rw [if_neg (Bool.eq_false_iff.mp hmissing)]
  cases hshape : T.shape ty with
  | CLOSED_SEALED directSubtypes => rfl
  | OTHER =>
    dsimp only
    split_ifs <;> rfl
  | _ =>
    dsimp only
    rw [if_pos (hcorrect hshape (by simp) (by simp))]

/-- A wildcard is split into the constructors of its type, or into the direct subtypes of a closed
hierarchy. -/
lemma mem_splitWildcard {m : Matrix Ty} {ctor : Constructor Ty} (hmissing : m.missingAll = false)
    (h : ctor ∈ splitWildcard T ty m) : ctor.Proper T ty ∨
      ∃ directSubtypes subTy, T.shape ty = .CLOSED_SEALED directSubtypes ∧ ctor = .TYPE subTy := by
  rw [splitWildcard_eq hmissing] at h
  cases hshape : T.shape ty with
  | BOOLEAN =>
    rw [hshape] at h
    rcases List.mem_pair.mp h with rfl | rfl
    · exact Or.inl hshape
    · exact Or.inl hshape
  | TUPLE typeArgs =>
    rw [hshape] at h
    rw [List.mem_singleton.mp h]
    exact Or.inl ⟨typeArgs, hshape, rfl⟩
  | ENUM ctors isNonExhaustive =>
    rw [hshape] at h
    rcases List.mem_append.mp h with h | h
    · obtain ⟨c, hc, rfl⟩ := List.mem_map.mp h
      exact Or.inl ⟨ctors, isNonExhaustive, hshape, hc⟩
    · split_ifs at h with hopen
      · rw [List.mem_singleton.mp h]
        exact Or.inl ⟨ctors, hopen ▸ hshape⟩
      · exact absurd h List.not_mem_nil
  | CLOSED_SEALED directSubtypes =>
    rw [hshape] at h
    obtain ⟨subTy, -, rfl⟩ := List.mem_map.mp h
    exact Or.inr ⟨directSubtypes, subTy, rfl, rfl⟩
  | _ =>
    rw [hshape] at h
    rw [List.mem_singleton.mp h]
    exact Or.inl hshape

lemma fits_of_mem_splitWildcard {m : Matrix Ty} {ctor : Constructor Ty}
    (h : ctor ∈ splitWildcard T ty m) : ctor.Fits T ty := by
  cases hmissing : m.missingAll with
  | true =>
    rw [splitWildcard, if_pos hmissing, List.mem_singleton] at h
    rw [h]
    trivial
  | false =>
    rcases mem_splitWildcard hmissing h with hproper | ⟨directSubtypes, subTy, -, rfl⟩
    · exact hproper.fits
    · trivial

end

end Cangjie.PatternUsefulness
