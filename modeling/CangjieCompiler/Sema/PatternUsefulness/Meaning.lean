import CangjieCompiler.Sema.PatternUsefulness.SearchRules

/-!
# What patterns match

A value is a constructor with the values of its fields or an object.  The values of literals and of
types without a shape and the runtime types of values are a parameter, of which only the laws are
known that the type manager relies on.  A value of a non-exhaustive enum may have a hidden
constructor.

Specialization of a row corresponds to taking the constructor off a value: the row matches the value
exactly if the specialized row matches the fields.
-/

namespace Cangjie.PatternUsefulness

variable {Ty : Type}

/-! ## Values -/

inductive Value (Obj : Type) where
  | unit
  | bool (val : Bool)
  | object (obj : Obj)
  | enum (key : String × Bool × ℕ) (args : List (Value Obj))
  | hidden
  | tuple (args : List (Value Obj))

/-- The values of the types that have no shape or a closed hierarchy, and the runtime types of all
values. -/
structure ValueModel (T : PatternTypes Ty) where
  Obj : Type
  isOther : Value Obj → Ty → Prop
  isInstance : Value Obj → Ty → Prop
  literalValue : LitConstExpr → Obj
  literal : ∀ lit ty, T.acceptsLiteral lit ty → isOther (.object (literalValue lit)) ty
  isInstance_of_isSubtype : ∀ x ty superTy, T.isSubtype ty superTy = true → isInstance x ty →
    isInstance x superTy
  /-- Every value of a closed hierarchy has one of the direct subtypes. -/
  closed : ∀ x ty directSubtypes, T.shape ty = .CLOSED_SEALED directSubtypes → isOther x ty →
    ∃ subTy ∈ directSubtypes, isInstance x subTy

variable {T : PatternTypes Ty} (V : ValueModel T)

/-- The values of a type. -/
inductive HasType : Value V.Obj → Ty → Prop
  | unit {ty} (h : T.shape ty = .UNIT) : HasType .unit ty
  | bool {val ty} (h : T.shape ty = .BOOLEAN) : HasType (.bool val) ty
  | tuple {typeArgs args ty} (h : T.shape ty = .TUPLE typeArgs)
    (hargs : List.Forall₂ HasType args typeArgs) : HasType (.tuple args) ty
  | enum {ctor ctors isNonExhaustive args ty} (h : T.shape ty = .ENUM ctors isNonExhaustive)
    (hctor : ctor ∈ ctors) (hargs : List.Forall₂ HasType args ctor.paramTys) :
    HasType (.enum ctor.key args) ty
  | hidden {ctors ty} (h : T.shape ty = .ENUM ctors true) : HasType .hidden ty
  | closed {directSubtypes x ty} (h : T.shape ty = .CLOSED_SEALED directSubtypes)
    (hx : V.isOther x ty) : HasType x ty
  | other {x ty} (h : T.shape ty = .OTHER) (hx : V.isOther x ty) : HasType x ty

/-- The values that a pattern matches; an invalid pattern matches none. -/
inductive Matches : DestructedPattern Ty → Value V.Obj → Prop
  | wildcard {subPatterns goalTy node x} : Matches (.mk .WILDCARD subPatterns goalTy node) x
  | missing {subPatterns goalTy node x} : Matches (.mk .MISSING subPatterns goalTy node) x
  | unit {subPatterns goalTy node} : Matches (.mk .UNIT subPatterns goalTy node) .unit
  | boolean {val subPatterns goalTy node} :
    Matches (.mk (.BOOLEAN val) subPatterns goalTy node) (.bool val)
  | literal {lit subPatterns goalTy node} :
    Matches (.mk (.NON_EXHAUSTIVE_LITERAL lit) subPatterns goalTy node)
      (.object (V.literalValue lit))
  | nonExhaustiveEnum {subPatterns goalTy node} :
    Matches (.mk .NON_EXHAUSTIVE_ENUM subPatterns goalTy node) .hidden
  | enum {ctor subPatterns goalTy node args} (h : List.Forall₂ Matches subPatterns args) :
    Matches (.mk (.ENUM ctor) subPatterns goalTy node) (.enum ctor.key args)
  | tuple {numArgs subPatterns goalTy node args} (h : List.Forall₂ Matches subPatterns args) :
    Matches (.mk (.TUPLE numArgs) subPatterns goalTy node) (.tuple args)
  | type {patternTy subPatterns goalTy node x} (h : V.isInstance x patternTy) :
    Matches (.mk (.TYPE patternTy) subPatterns goalTy node) x
  | or {numArgs subPatterns goalTy node p x} (hp : p ∈ subPatterns) (h : Matches p x) :
    Matches (.mk (.OR numArgs) subPatterns goalTy node) x

/-- The values of a vector are matched one by one. -/
def PatternStack.Matches (s : PatternStack Ty) (xs : List (Value V.Obj)) : Prop :=
  List.Forall₂ (PatternUsefulness.Matches V) s.columns xs

def Matrix.Matches (m : Matrix Ty) (xs : List (Value V.Obj)) : Prop :=
  ∃ row ∈ m.rows, row.Matches V xs

/-- The value is made by the constructor from the values of the fields. -/
def Constructor.Builds (ctor : Constructor Ty) (x : Value V.Obj) (args : List (Value V.Obj)) :
    Prop :=
  match ctor with
  | UNIT => x = .unit ∧ args = []
  | BOOLEAN val => x = .bool val ∧ args = []
  | NON_EXHAUSTIVE_LITERAL lit => x = .object (V.literalValue lit) ∧ args = []
  | ENUM ctor => x = .enum ctor.key args
  | NON_EXHAUSTIVE_ENUM => x = .hidden ∧ args = []
  | TUPLE _ => x = .tuple args
  | TYPE patternTy => V.isInstance x patternTy ∧ args = []
  | WILDCARD => args = []
  | MISSING => args = []
  | OR _ => False
  | INVALID => False

/-! ## Constructors of values -/

section

variable {V} {ty : Ty} {x : Value V.Obj} {args : List (Value V.Obj)}

lemma matches_of_wildcard {p : DestructedPattern Ty} (h : p.ctor = .WILDCARD) :
    Matches V p x := by
  obtain ⟨ctor, subPatterns, goalTy, node⟩ := p
  obtain rfl : ctor = .WILDCARD := h
  exact .wildcard

/-- A pattern matches the values that its constructor makes from matched fields. -/
lemma matches_iff_builds {p : DestructedPattern Ty} (hp : p.Typed T ty)
    (hor : ∀ n, p.ctor ≠ .OR n) :
    Matches V p x ↔ ∃ args, p.ctor.Builds V x args ∧
      List.Forall₂ (Matches V) p.subPatterns args := by
  cases hp with
  | wildcard => exact ⟨fun _ => ⟨[], rfl, .nil⟩, fun _ => .wildcard⟩
  | missing _ => exact ⟨fun _ => ⟨[], rfl, .nil⟩, fun _ => .missing⟩
  | unit _ =>
    constructor
    · intro h
      cases h
      exact ⟨[], ⟨rfl, rfl⟩, .nil⟩
    · rintro ⟨_, ⟨rfl, -⟩, -⟩
      exact .unit
  | boolean _ =>
    constructor
    · intro h
      cases h
      exact ⟨[], ⟨rfl, rfl⟩, .nil⟩
    · rintro ⟨_, ⟨rfl, -⟩, -⟩
      exact .boolean
  | literal _ _ =>
    constructor
    · intro h
      cases h
      exact ⟨[], ⟨rfl, rfl⟩, .nil⟩
    · rintro ⟨_, ⟨rfl, -⟩, -⟩
      exact .literal
  | nonExhaustiveEnum _ =>
    constructor
    · intro h
      cases h
      exact ⟨[], ⟨rfl, rfl⟩, .nil⟩
    · rintro ⟨_, ⟨rfl, -⟩, -⟩
      exact .nonExhaustiveEnum
  | enum _ _ _ =>
    constructor
    · intro h
      cases h with
      | enum h => exact ⟨_, rfl, h⟩
    · rintro ⟨args, rfl, h⟩
      exact .enum h
  | tuple _ _ =>
    constructor
    · intro h
      cases h with
      | tuple h => exact ⟨_, rfl, h⟩
    · rintro ⟨args, rfl, h⟩
      exact .tuple h
  | type =>
    constructor
    · intro h
      cases h with
      | type h => exact ⟨[], ⟨h, rfl⟩, .nil⟩
    · rintro ⟨_, ⟨h, -⟩, -⟩
      exact .type h
  | or _ => exact absurd rfl (hor _)
  | invalid =>
    constructor
    · intro h
      cases h
    · rintro ⟨_, h, -⟩
      exact h.elim

lemma matches_wildcards {tys : List Ty} (h : args.length = tys.length) :
    List.Forall₂ (Matches V) (tys.map .wildcard) args := by
  induction tys generalizing args with
  | nil =>
    rw [List.length_eq_zero_iff.mp h]
    exact .nil
  | cons ty tys ih =>
    cases args with
    | nil => exact absurd h (by simp)
    | cons x args => exact .cons .wildcard (ih (Nat.succ.inj h))

/-- A wildcard has as many wildcards as arguments as the constructor has fields. -/
lemma matches_specializeWildcard {ctor : Constructor Ty} (hfits : ctor.Fits T ty)
    (hlength : args.length = ctor.arity) :
    List.Forall₂ (Matches V) (DestructedPattern.specializeWildcard T ty ctor) args := by
  rw [DestructedPattern.specializeWildcard_eq hfits]
  exact matches_wildcards (hlength.trans (Constructor.length_argTypes hfits).symm)

/-- A pattern that covers a constructor matches its values exactly if it matches their fields once
it is specialized. -/
lemma matches_iff_specialize {p : DestructedPattern Ty} {ctor : Constructor Ty}
    (hp : p.Typed T ty) (hfits : ctor.Fits T ty)
    (hcover : ctor.isCoveredBy T p.ctor = true ∨ p.ctor = ctor) (hbuilds : ctor.Builds V x args)
    (hlength : args.length = ctor.arity) :
    Matches V p x ↔ List.Forall₂ (Matches V) (p.specialize T ctor) args := by
  have hnone (hzero : ctor.arity = 0) : args = [] :=
    List.length_eq_zero_iff.mp (hlength.trans hzero)
  cases hp with
  | wildcard => exact iff_of_true .wildcard (matches_specializeWildcard hfits hlength)
  | missing h =>
    cases ctor with
    | TUPLE numArgs =>
      obtain ⟨typeArgs, hshape, -⟩ := hfits
      exact absurd (h.symm.trans hshape) (by simp)
    | ENUM c =>
      obtain ⟨ctors, isNonExhaustive, hshape, -⟩ := hfits
      exact absurd (h.symm.trans hshape) (by simp)
    | OR numArgs => exact hfits.elim
    | _ =>
      rw [hnone rfl]
      exact iff_of_true .missing .nil
  | invalid =>
    rcases hcover with hcover | heq
    · cases ctor <;>
        exact absurd hcover (by simp [Constructor.isCoveredBy, DestructedPattern.ctor])
    · rw [← heq] at hbuilds
      exact hbuilds.elim
  | or _ =>
    rcases hcover with hcover | heq
    · cases ctor <;>
        exact absurd hcover (by simp [Constructor.isCoveredBy, DestructedPattern.ctor])
    · rw [← heq] at hbuilds
      exact hbuilds.elim
  | type =>
    cases ctor with
    | TYPE patternTy =>
      obtain ⟨hinstance, rfl⟩ := hbuilds
      refine iff_of_true (.type ?_) .nil
      rcases hcover with hcover | heq
      · exact V.isInstance_of_isSubtype x _ _ hcover hinstance
      · rw [Constructor.TYPE.inj heq]
        exact hinstance
    | _ => exact absurd hcover (by simp [Constructor.isCoveredBy, DestructedPattern.ctor])
  | unit _ =>
    cases ctor with
    | UNIT =>
      obtain ⟨rfl, rfl⟩ := hbuilds
      exact iff_of_true .unit .nil
    | _ => exact absurd hcover (by simp [Constructor.isCoveredBy, DestructedPattern.ctor])
  | boolean _ =>
    cases ctor with
    | BOOLEAN val =>
      obtain ⟨rfl, rfl⟩ := hbuilds
      refine iff_of_true ?_ .nil
      rcases hcover with hcover | heq
      · rw [eq_of_beq hcover]
        exact .boolean
      · rw [Constructor.BOOLEAN.inj heq]
        exact .boolean
    | _ => exact absurd hcover (by simp [Constructor.isCoveredBy, DestructedPattern.ctor])
  | literal _ _ =>
    cases ctor with
    | NON_EXHAUSTIVE_LITERAL lit =>
      obtain ⟨rfl, rfl⟩ := hbuilds
      refine iff_of_true ?_ .nil
      rcases hcover with hcover | heq
      · rw [of_decide_eq_true hcover]
        exact .literal
      · rw [Constructor.NON_EXHAUSTIVE_LITERAL.inj heq]
        exact .literal
    | _ => exact absurd hcover (by simp [Constructor.isCoveredBy, DestructedPattern.ctor])
  | nonExhaustiveEnum _ =>
    cases ctor with
    | NON_EXHAUSTIVE_ENUM =>
      obtain ⟨rfl, rfl⟩ := hbuilds
      exact iff_of_true .nonExhaustiveEnum .nil
    | _ => exact absurd hcover (by simp [Constructor.isCoveredBy, DestructedPattern.ctor])
  | enum h hctor hsub =>
    rename_i c ctors isNonExhaustive subPatterns goalTy node
    have hkey : ∃ d, ctor = .ENUM d ∧ d.key = c.key := by
      rcases hcover with hcover | heq
      · cases ctor with
        | ENUM d => exact ⟨d, rfl, eq_of_beq hcover⟩
        | _ => exact absurd hcover (by simp [Constructor.isCoveredBy, DestructedPattern.ctor])
      · exact ⟨c, heq.symm, rfl⟩
    obtain ⟨d, rfl, hkey⟩ := hkey
    obtain rfl : x = .enum c.key args := hkey ▸ hbuilds
    constructor
    · intro hmatch
      cases hmatch with
      | enum h => exact h
    · exact .enum
  | tuple _ _ =>
    cases ctor with
    | TUPLE numArgs =>
      obtain rfl : x = .tuple args := hbuilds
      constructor
      · intro hmatch
        cases hmatch with
        | tuple h => exact h
      · exact .tuple
    | _ => exact absurd hcover (by simp [Constructor.isCoveredBy, DestructedPattern.ctor])

/-! ## Rows and vectors -/

lemma forall₂_append_iff {α β : Type} {R : α → β → Prop} {as as' : List α} {bs bs' : List β}
    (h : as.length = bs.length) :
    List.Forall₂ R (as ++ as') (bs ++ bs') ↔ List.Forall₂ R as bs ∧ List.Forall₂ R as' bs' := by
  constructor
  · intro hall
    have htake := List.forall₂_take as.length hall
    have hdrop := List.forall₂_drop as.length hall
    rw [List.take_left, h, List.take_left] at htake
    rw [List.drop_left, h, List.drop_left] at hdrop
    exact ⟨htake, hdrop⟩
  · rintro ⟨hleft, hright⟩
    exact List.rel_append hleft hright

variable {tys : List Ty} {xs : List (Value V.Obj)}

lemma Matrix.matches_appendRows_iff {m : Matrix Ty} {rows : List (PatternStack Ty)} :
    (m.appendRows rows).Matches V xs ↔ m.Matches V xs ∨ ∃ row ∈ rows, row.Matches V xs := by
  unfold Matrix.Matches Matrix.appendRows
  simp only [List.mem_append, or_and_right, exists_or]

lemma PatternStack.matches_cons_iff {s : PatternStack Ty} {head : DestructedPattern Ty}
    (h : s.head? = some head) : s.Matches V (x :: xs) ↔
      PatternUsefulness.Matches V head x ∧
        List.Forall₂ (PatternUsefulness.Matches V) s.columns.tail xs := by
  unfold PatternStack.Matches
  rw [columns_eq_cons h, List.forall₂_cons, List.tail_cons]

/-- Rows that differ in the head match what the heads match. -/
lemma PatternStack.matches_iff_of_tail {s s' : PatternStack Ty} {head head' : DestructedPattern Ty}
    (h : s.head? = some head) (h' : s'.columns = head' :: s.columns.tail)
    (hheads : PatternUsefulness.Matches V head x ↔ PatternUsefulness.Matches V head' x) :
    s.Matches V (x :: xs) ↔ s'.Matches V (x :: xs) := by
  rw [matches_cons_iff h, hheads]
  unfold PatternStack.Matches
  rw [h', List.forall₂_cons]

/-- An or-pattern matches what its alternatives match. -/
lemma PatternStack.matches_iff_expandOr {s : PatternStack Ty} {head : DestructedPattern Ty}
    {numArgs : ℕ} (h : s.head? = some head) (hhead : head.ctor = .OR numArgs) :
    s.Matches V (x :: xs) ↔ ∃ s' ∈ s.expandOr, s'.Matches V (x :: xs) := by
  have hor : PatternUsefulness.Matches V head x ↔
      ∃ p ∈ head.subPatterns, PatternUsefulness.Matches V p x := by
    obtain ⟨ctor, subPatterns, goalTy, node⟩ := head
    obtain rfl : ctor = .OR numArgs := hhead
    constructor
    · intro hmatch
      cases hmatch with
      | or hp hmatch => exact ⟨_, hp, hmatch⟩
    · rintro ⟨p, hp, hmatch⟩
      exact .or hp hmatch
  have hreplaced (p : DestructedPattern Ty) : (s.replaceHead p).Matches V (x :: xs) ↔
      PatternUsefulness.Matches V p x ∧
        List.Forall₂ (PatternUsefulness.Matches V) s.columns.tail xs := by
    unfold PatternStack.Matches
    rw [columns_replaceHead, List.forall₂_cons]
  rw [matches_cons_iff h, hor]
  constructor
  · rintro ⟨⟨p, hp, hmatch⟩, hrest⟩
    exact ⟨s.replaceHead p, (mem_expandOr h).mpr ⟨p, hp, rfl⟩, (hreplaced p).mpr ⟨hmatch, hrest⟩⟩
  · rintro ⟨s', hs', hmatch⟩
    obtain ⟨p, hp, rfl⟩ := (mem_expandOr h).mp hs'
    obtain ⟨hmatch, hrest⟩ := (hreplaced p).mp hmatch
    exact ⟨⟨p, hp, hmatch⟩, hrest⟩

/-- A row matches a value and the rest of a vector exactly if the specialized row matches the fields
of the value and the rest. -/
lemma PatternStack.matches_specialize_iff {s s' : PatternStack Ty} {head : DestructedPattern Ty}
    {ctor : Constructor Ty} (hhead : s.head? = some head) (htyped : head.Typed T ty)
    (hs' : s.specialize T ctor = some s') (hfits : ctor.Fits T ty)
    (hcover : ctor.isCoveredBy T head.ctor = true ∨ head.ctor = ctor)
    (hbuilds : ctor.Builds V x args) (hlength : args.length = ctor.arity) :
    s'.Matches V (args ++ xs) ↔ s.Matches V (x :: xs) := by
  have hspecialized := DestructedPattern.typed_specialize htyped hfits hcover
  have hsame : (head.specialize T ctor).length = args.length := by
    rw [hspecialized.length_eq, Constructor.length_argTypes hfits, hlength]
  rw [matches_cons_iff hhead, matches_iff_specialize htyped hfits hcover hbuilds hlength]
  unfold PatternStack.Matches
  rw [columns_specialize T hhead hs', forall₂_append_iff hsame]

/-- A vector that a specialized matrix matches is the fields and the rest of a vector that the
matrix matches. -/
lemma Matrix.matches_of_specialize {m m' : Matrix Ty} {ctor : Constructor Ty}
    (hm : m.Typed T (ty :: tys)) (hm' : m.specialize T ctor = some m') (hfits : ctor.Fits T ty)
    (hbuilds : ctor.Builds V x args) (hlength : args.length = ctor.arity)
    (h : m'.Matches V (args ++ xs)) : m.Matches V (x :: xs) := by
  obtain ⟨m'', hm'', -, hrows⟩ := specialize_typed hm hfits
  obtain rfl := Option.some.inj (hm'.symm.trans hm'')
  obtain ⟨row', hrow', hmatch⟩ := h
  obtain ⟨row, hrow, hspecialized⟩ := (hrows row').mp hrow'
  obtain ⟨head, hhead, hcover, hspecialize⟩ := mem_specializedRow.mp hspecialized
  obtain ⟨head', hhead', htyped, -⟩ := (hm row hrow).head
  obtain rfl := Option.some.inj (hhead.symm.trans hhead')
  exact ⟨row, hrow, (PatternStack.matches_specialize_iff hhead htyped hspecialize hfits
    (Or.inl hcover) hbuilds hlength).mp hmatch⟩

/-- A vector that a matrix matches is matched by the specialized matrix if the rows that the
constructor is not covered by do not match it. -/
lemma Matrix.specialize_matches {m m' : Matrix Ty} {ctor : Constructor Ty}
    (hm : m.Typed T (ty :: tys)) (hm' : m.specialize T ctor = some m') (hfits : ctor.Fits T ty)
    (hbuilds : ctor.Builds V x args) (hlength : args.length = ctor.arity)
    (hother : ∀ row ∈ m.rows, ∀ head, row.head? = some head →
      ctor.isCoveredBy T head.ctor = false → ¬PatternUsefulness.Matches V head x)
    (h : m.Matches V (x :: xs)) : m'.Matches V (args ++ xs) := by
  obtain ⟨m'', hm'', -, hrows⟩ := specialize_typed hm hfits
  obtain rfl := Option.some.inj (hm'.symm.trans hm'')
  obtain ⟨row, hrow, hmatch⟩ := h
  obtain ⟨head, hhead, htyped, -⟩ := (hm row hrow).head
  have hcover : ctor.isCoveredBy T head.ctor = true := by
    by_contra hnot
    exact hother row hrow head hhead (Bool.eq_false_iff.mpr hnot)
      ((PatternStack.matches_cons_iff hhead).mp hmatch).1
  obtain ⟨row', hspecialize, -⟩ := PatternStack.specialize_of_head hhead (T := T) ctor
  refine ⟨row', (hrows row').mpr ⟨row, hrow, mem_specializedRow.mpr
    ⟨head, hhead, hcover, hspecialize⟩⟩, ?_⟩
  exact (PatternStack.matches_specialize_iff hhead htyped hspecialize hfits (Or.inl hcover)
    hbuilds hlength).mpr hmatch

/-- What a constructor applied to a row matches. -/
lemma PatternStack.matches_apply_iff {w : PatternStack Ty} {ctor : Constructor Ty} {goalTy : Ty}
    (hw : w.Typed T (ctor.argTypes T ty ++ tys)) (hfits : ctor.Fits T ty)
    (hmakes : ctor.Makes T ty goalTy) :
    (w.apply ctor goalTy).Matches V (x :: xs) ↔ ∃ args, ctor.Builds V x args ∧
      args.length = ctor.arity ∧ w.Matches V (args ++ xs) := by
  have hor : ∀ n, ctor ≠ .OR n := by
    rintro n rfl
    exact hfits.elim
  have hlength := Constructor.length_argTypes hfits
  have htake := List.forall₂_take ctor.arity hw
  rw [← hlength, List.take_left, hlength] at htake
  have hcount : (w.columns.take ctor.arity).length = ctor.arity := htake.length_eq.trans hlength
  have hsplit (args : List (Value V.Obj)) (hargs : args.length = ctor.arity) :
      w.Matches V (args ++ xs) ↔
        List.Forall₂ (PatternUsefulness.Matches V) (w.columns.take ctor.arity) args ∧
          List.Forall₂ (PatternUsefulness.Matches V) (w.columns.drop ctor.arity) xs := by
    unfold PatternStack.Matches
    rw [← forall₂_append_iff (hcount.trans hargs.symm), List.take_append_drop]
  have hmake := hmakes _ htake
  unfold PatternStack.Matches at hsplit ⊢
  rw [columns_apply, List.forall₂_cons, matches_iff_builds hmake hor]
  constructor
  · rintro ⟨⟨args, hbuilds, hargs⟩, hrest⟩
    have hargsLength : args.length = ctor.arity := hargs.length_eq.symm.trans hcount
    exact ⟨args, hbuilds, hargsLength, (hsplit args hargsLength).mpr ⟨hargs, hrest⟩⟩
  · rintro ⟨args, hbuilds, hargsLength, hmatch⟩
    obtain ⟨hargs, hrest⟩ := (hsplit args hargsLength).mp hmatch
    exact ⟨⟨args, hbuilds, hargs⟩, hrest⟩

/-! ## Fields of values -/

/-- A value of a tuple type is a tuple. -/
lemma HasType.exists_tuple {typeArgs : List Ty} (hx : HasType V x ty)
    (hshape : T.shape ty = .TUPLE typeArgs) :
    ∃ args, x = .tuple args ∧ List.Forall₂ (HasType V) args typeArgs := by
  cases hx with
  | tuple h hargs =>
    obtain rfl := TyShape.TUPLE.inj (h.symm.trans hshape)
    exact ⟨_, rfl, hargs⟩
  | _ => exact absurd (hshape.symm.trans ‹_›) (by simp)

lemma HasType.exists_bool (hx : HasType V x ty) (hshape : T.shape ty = .BOOLEAN) :
    ∃ val, x = .bool val := by
  cases hx with
  | bool _ => exact ⟨_, rfl⟩
  | _ => exact absurd (hshape.symm.trans ‹_›) (by simp)

lemma HasType.isOther (hx : HasType V x ty) (hshape : T.shape ty = .OTHER) : V.isOther x ty := by
  cases hx with
  | other _ hx => exact hx
  | _ => exact absurd (hshape.symm.trans ‹_›) (by simp)

/-- The tuple that a wildcard is rewritten to matches every value of the tuple type. -/
lemma matches_wildcardTuple {typeArgs : List Ty} (hx : HasType V x ty)
    (hshape : T.shape ty = .TUPLE typeArgs) :
    Matches V (.wildcardTuple typeArgs ty) x := by
  obtain ⟨args, rfl, hargs⟩ := hx.exists_tuple hshape
  exact .tuple (matches_wildcards hargs.length_eq)

/-- The fields of a value of an enum type have the types of the fields of its constructor. -/
lemma HasType.enum_args {ctors : List (EnumConstructor Ty)} {isNonExhaustive : Bool}
    {ctor : EnumConstructor Ty} (hx : HasType V (.enum ctor.key args) ty)
    (hshape : T.shape ty = .ENUM ctors isNonExhaustive) (hctor : ctor ∈ ctors) :
    List.Forall₂ (HasType V) args ctor.paramTys := by
  generalize hkey : ctor.key = key at hx
  cases hx with
  | enum h hctor' hargs =>
    obtain ⟨rfl, rfl⟩ := TyShape.ENUM.inj (h.symm.trans hshape)
    rwa [DestructedPattern.eq_of_key_eq h hctor hctor' hkey]
  | closed h _ => exact absurd (h.symm.trans hshape) (by simp)
  | other h _ => exact absurd (h.symm.trans hshape) (by simp)

/-- The fields of a value have the types of the fields of its constructor. -/
lemma hasType_args {ctor : Constructor Ty} (hx : HasType V x ty) (hfits : ctor.Fits T ty)
    (hbuilds : ctor.Builds V x args) :
    List.Forall₂ (HasType V) args (ctor.argTypes T ty) := by
  cases ctor with
  | TUPLE numArgs =>
    obtain ⟨typeArgs, hshape, -⟩ := hfits
    obtain ⟨args', htuple, hargs⟩ := hx.exists_tuple hshape
    obtain rfl := Value.tuple.inj (hbuilds.symm.trans htuple)
    simpa only [Constructor.argTypes, PatternTypes.typeArgs, hshape] using hargs
  | ENUM c =>
    obtain ⟨ctors, isNonExhaustive, hshape, hc⟩ := hfits
    obtain rfl : x = .enum c.key args := hbuilds
    exact hx.enum_args hshape hc
  | OR numArgs => exact hfits.elim
  | INVALID => exact hbuilds.elim
  | WILDCARD =>
    obtain rfl : args = [] := hbuilds
    exact .nil
  | MISSING =>
    obtain rfl : args = [] := hbuilds
    exact .nil
  | _ =>
    obtain ⟨-, rfl⟩ := hbuilds
    exact .nil

/-- Every value of a type is made by one of the constructors that a wildcard is split into. -/
lemma exists_ctor {m : Matrix Ty} (hmissing : m.missingAll = false) (hx : HasType V x ty) :
    ∃ ctor ∈ splitWildcard T ty m, ∃ args, ctor.Builds V x args := by
  rw [splitWildcard_eq hmissing]
  cases hx with
  | unit h =>
    rw [h]
    exact ⟨.UNIT, List.mem_singleton_self _, [], rfl, rfl⟩
  | bool h =>
    rw [h]
    rename_i val
    refine ⟨.BOOLEAN val, ?_, [], rfl, rfl⟩
    cases val
    · exact List.mem_cons_self
    · exact List.mem_cons_of_mem _ (List.mem_singleton_self _)
  | tuple h _ =>
    rw [h]
    exact ⟨_, List.mem_singleton_self _, _, rfl⟩
  | enum h hctor _ =>
    rw [h]
    exact ⟨_, List.mem_append_left _ (List.mem_map_of_mem hctor), _, rfl⟩
  | hidden h =>
    rw [h]
    exact ⟨.NON_EXHAUSTIVE_ENUM, List.mem_append_right _ (List.mem_singleton_self _), [], rfl, rfl⟩
  | closed h hx =>
    rw [h]
    obtain ⟨subTy, hsub, hinstance⟩ := V.closed x ty _ h hx
    exact ⟨.TYPE subTy, List.mem_map_of_mem hsub, [], hinstance, rfl⟩
  | other h _ =>
    rw [h]
    exact ⟨.MISSING, List.mem_singleton_self _, [], rfl⟩

end

end Cangjie.PatternUsefulness
