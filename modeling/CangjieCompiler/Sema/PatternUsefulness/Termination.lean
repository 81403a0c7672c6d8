import CangjieCompiler.Foundations.EventualResult
import CangjieCompiler.Sema.PatternUsefulness.SearchRules
import Mathlib

/-!
# Termination of the search

A wildcard of an enum or a tuple is rewritten to wildcards of the fields, whose types may be the
same enum again.  This happens only if some row has another head, and then the constructors in the
matrix become fewer.  Else the column is dropped, or the head of the stack loses a constructor.  The
alternatives of an or-pattern add rows to the matrix, but they have fewer or-patterns.

Hence the or-patterns of the stack, the constructors in the matrix and in the stack, and the number
of columns decrease in lexicographic order.  The tuple that a wildcard is rewritten to has one more
constructor, and is specialized at once.
-/

namespace Cangjie.PatternUsefulness

open EventualResult

variable {Ty : Type}

/-! ## Weights of patterns -/

namespace DestructedPattern

variable (f : Constructor Ty → ℕ)

mutual

/-- The weights of all constructors of a pattern. -/
def count : DestructedPattern Ty → ℕ
  | mk ctor subPatterns _ _ => f ctor + counts subPatterns

def counts : List (DestructedPattern Ty) → ℕ
  | [] => 0
  | p :: ps => p.count + counts ps

end

variable {f}

lemma count_eq (p : DestructedPattern Ty) : p.count f = f p.ctor + counts f p.subPatterns := by
  cases p
  rfl

lemma counts_append (ps qs : List (DestructedPattern Ty)) :
    counts f (ps ++ qs) = counts f ps + counts f qs := by
  induction ps with
  | nil => exact (Nat.zero_add _).symm
  | cons p ps ih =>
    rw [List.cons_append, counts, counts, ih, Nat.add_assoc]

lemma count_le_counts {p : DestructedPattern Ty} {ps : List (DestructedPattern Ty)} (h : p ∈ ps) :
    p.count f ≤ counts f ps := by
  induction ps with
  | nil => exact absurd h List.not_mem_nil
  | cons q ps ih =>
    rw [counts]
    rcases List.mem_cons.mp h with rfl | h
    · exact Nat.le_add_right _ _
    · exact (ih h).trans (Nat.le_add_left _ _)

variable (hf : f .WILDCARD = 0)

include hf

lemma count_wildcard (ty : Ty) : (wildcard ty).count f = 0 := by
  rw [count_eq]
  exact hf

lemma counts_wildcards (tys : List Ty) : counts f (tys.map wildcard) = 0 := by
  induction tys with
  | nil => rfl
  | cons ty tys ih => rw [List.map_cons, counts, ih, count_wildcard hf]

/-- Specialization takes the constructor of a pattern away. -/
lemma counts_specialize (T : PatternTypes Ty) (p : DestructedPattern Ty) (ctor : Constructor Ty) :
    counts f (p.specialize T ctor) + f p.ctor ≤ p.count f := by
  have hsub : counts f p.subPatterns + f p.ctor = p.count f := by
    rw [count_eq, Nat.add_comm]
  unfold specialize
  cases hkind : p.ctor with
  | WILDCARD =>
    have hzero : counts f (specializeWildcard T p.goalTy ctor) = 0 := by
      cases ctor with
      | TUPLE numArgs => exact counts_wildcards hf _
      | ENUM c => exact counts_wildcards hf _
      | _ => rfl
    dsimp only
    rw [hzero, hf]
    exact Nat.zero_le _
  | _ =>
    rw [hkind] at hsub
    exact hsub.le

end DestructedPattern

open DestructedPattern

/-- The weights of all constructors of a row. -/
def PatternStack.count (f : Constructor Ty → ℕ) (s : PatternStack Ty) : ℕ := counts f s.columns

def Matrix.count (f : Constructor Ty → ℕ) (m : Matrix Ty) : ℕ :=
  (m.rows.map (PatternStack.count f)).sum

section

variable {T : PatternTypes Ty} {f : Constructor Ty → ℕ}

lemma PatternStack.count_of_head {s : PatternStack Ty} {head : DestructedPattern Ty}
    (h : s.head? = some head) : s.count f = head.count f + counts f s.columns.tail := by
  unfold PatternStack.count
  rw [columns_eq_cons h, counts, List.tail_cons]

variable (hf : f .WILDCARD = 0)

include hf

lemma PatternStack.count_specialize {s s' : PatternStack Ty} {head : DestructedPattern Ty}
    {ctor : Constructor Ty} (hhead : s.head? = some head) (hs' : s.specialize T ctor = some s') :
    s'.count f + f head.ctor ≤ s.count f := by
  have hspecialize := DestructedPattern.counts_specialize hf T head ctor
  rw [count_of_head hhead, PatternStack.count, columns_specialize T hhead hs', counts_append]
  omega

lemma Matrix.count_specializedRow {row : PatternStack Ty} {head : DestructedPattern Ty}
    {ctor : Constructor Ty} (hhead : row.head? = some head) :
    ((specializedRow T ctor row).map (PatternStack.count f)).sum + f head.ctor ≤ row.count f := by
  unfold specializedRow
  rw [hhead]
  dsimp only
  split_ifs with hcover
  · obtain ⟨row', hrow', -⟩ := PatternStack.specialize_of_head hhead (T := T) ctor
    rw [hrow', Option.toList_some, List.map_singleton, List.sum_singleton]
    exact PatternStack.count_specialize hf hhead hrow'
  · rw [List.map_nil, List.sum_nil, PatternStack.count_of_head hhead, count_eq]
    omega

/-- Specialization takes the constructors in the heads away, with the row or without it. -/
lemma Matrix.count_specialize {m m' : Matrix Ty} {ctor : Constructor Ty}
    (hheads : ∀ row ∈ m.rows, row.head? ≠ none) (hm' : m.specialize T ctor = some m') :
    m'.count f ≤ m.count f ∧ ∀ row ∈ m.rows, ∀ head, row.head? = some head → 0 < f head.ctor →
      m'.count f < m.count f := by
  rw [specialize_eq hheads] at hm'
  obtain rfl := Option.some.inj hm'
  unfold Matrix.count
  dsimp only
  generalize m.rows = rows at hheads
  induction rows with
  | nil => exact ⟨le_rfl, fun row hrow => absurd hrow List.not_mem_nil⟩
  | cons row rows ih =>
    obtain ⟨hle, hlt⟩ := ih fun row' hrow' => hheads row' (List.mem_cons_of_mem row hrow')
    obtain ⟨head, hhead⟩ := Option.ne_none_iff_exists'.mp (hheads row List.mem_cons_self)
    have hrow : ((specializedRow T ctor row).map (PatternStack.count f)).sum + f head.ctor ≤
        row.count f := Matrix.count_specializedRow hf hhead
    rw [List.flatMap_cons, List.map_append, List.sum_append, List.map_cons, List.sum_cons]
    refine ⟨by omega, fun row' hrow' head' hhead' hpos => ?_⟩
    rcases List.mem_cons.mp hrow' with rfl | hrow'
    · obtain rfl := Option.some.inj (hhead.symm.trans hhead')
      omega
    · have hless := hlt row' hrow' head' hhead' hpos
      omega

end

/-! ## The order of searches -/

/-- The constructors that are counted. -/
def ctorWeight : Constructor Ty → ℕ
  | .WILDCARD => 0
  | _ => 1

def orWeight : Constructor Ty → ℕ
  | .OR _ => 1
  | _ => 0

lemma ctorWeight_of_ne {ctor : Constructor Ty} (h : ctor ≠ .WILDCARD) : ctorWeight ctor = 1 := by
  cases ctor with
  | WILDCARD => exact absurd rfl h
  | _ => rfl

def weight (m : Matrix Ty) (v : PatternStack Ty) : ℕ ×ₗ ℕ ×ₗ ℕ :=
  toLex (v.count orWeight,
    toLex (m.count ctorWeight + v.count ctorWeight, v.columns.length))

lemma weight_lt_of_or {m m' : Matrix Ty} {v v' : PatternStack Ty}
    (h : v'.count orWeight < v.count orWeight) : weight m' v' < weight m v :=
  Prod.Lex.toLex_lt_toLex.mpr (Or.inl h)

lemma weight_lt_of_ctor {m m' : Matrix Ty} {v v' : PatternStack Ty}
    (hor : v'.count orWeight ≤ v.count orWeight)
    (h : m'.count ctorWeight + v'.count ctorWeight < m.count ctorWeight + v.count ctorWeight) :
    weight m' v' < weight m v := by
  rcases hor.lt_or_eq with hless | hsame
  · exact weight_lt_of_or hless
  · exact Prod.Lex.toLex_lt_toLex.mpr
      (Or.inr ⟨hsame, Prod.Lex.toLex_lt_toLex.mpr (Or.inl h)⟩)

lemma weight_lt_of_length {m m' : Matrix Ty} {v v' : PatternStack Ty}
    (hor : v'.count orWeight ≤ v.count orWeight)
    (hctor : m'.count ctorWeight + v'.count ctorWeight ≤ m.count ctorWeight + v.count ctorWeight)
    (h : v'.columns.length < v.columns.length) : weight m' v' < weight m v := by
  rcases hctor.lt_or_eq with hless | hsame
  · exact weight_lt_of_ctor hor hless
  · rcases hor.lt_or_eq with hless | hsame'
    · exact weight_lt_of_or hless
    · exact Prod.Lex.toLex_lt_toLex.mpr
        (Or.inr ⟨hsame', Prod.Lex.toLex_lt_toLex.mpr (Or.inr ⟨hsame, h⟩)⟩)

/-! ## Searches that terminate -/

variable {T : PatternTypes Ty}

/-- With enough fuel the search returns. -/
def Terminates (T : PatternTypes Ty) (m : Matrix Ty) (v : PatternStack Ty) : Prop :=
  ∃ found, Settles (fun fuel => findWitnesses T fuel m v) found

lemma terminates_of_step {m : Matrix Ty} {v : PatternStack Ty} {found : Found Ty}
    (h : Settles (fun fuel => findWitnessesStep T (findWitnesses T fuel) m v) found) :
    Terminates T m v :=
  ⟨found, settles_of_succ (fun _ => rfl) h⟩

section Steps

variable {ty : Ty} {tys : List Ty} {m : Matrix Ty} {v : PatternStack Ty}
  {head : DestructedPattern Ty}

/-- The searches that a search makes terminate if those of smaller weight do. -/
def SmallerTerminate (T : PatternTypes Ty) (w : ℕ ×ₗ ℕ ×ₗ ℕ) : Prop :=
  ∀ tys m v, m.Typed T tys → v.Typed T tys → weight m v < w → Terminates T m v

/-- What specialization does to the weights. -/
lemma exists_specialized {ctor : Constructor Ty} (hcolumns : SameColumns T ty tys m v head)
    (hfits : ctor.Fits T ty) (hhead : head.ctor = .WILDCARD ∨ head.ctor = ctor) :
    ∃ m' v', m.specialize T ctor = some m' ∧ v.specialize T ctor = some v' ∧
      m'.Typed T (ctor.argTypes T ty ++ tys) ∧ v'.Typed T (ctor.argTypes T ty ++ tys) ∧
      v'.count orWeight ≤ v.count orWeight ∧
      v'.count ctorWeight + ctorWeight head.ctor ≤ v.count ctorWeight ∧
      m'.count ctorWeight ≤ m.count ctorWeight ∧
      (m.headsAllWildcard = false → m'.count ctorWeight < m.count ctorWeight) := by
  obtain ⟨hm, hv, hhead?⟩ := hcolumns
  obtain ⟨m', hm', hmtyped, -⟩ := Matrix.specialize_typed hm hfits
  obtain ⟨v', hv', -⟩ := PatternStack.specialize_of_head hhead? (T := T) ctor
  have hvtyped :=
    PatternStack.typed_specialize hv hhead? hfits (Constructor.isCoveredBy_or_eq hhead) hv'
  have hor := PatternStack.count_specialize (f := orWeight) rfl hhead? hv'
  have hctor := PatternStack.count_specialize (f := ctorWeight) rfl hhead? hv'
  obtain ⟨hle, hlt⟩ := Matrix.count_specialize (f := ctorWeight) rfl (Matrix.head?_ne_none hm) hm'
  refine ⟨m', v', hm', hv', hmtyped, hvtyped, by omega, hctor, hle, fun hwild => ?_⟩
  obtain ⟨row, hrow, hnot⟩ := List.all_eq_false.mp hwild
  obtain ⟨rowHead, hrowHead, -⟩ := (hm row hrow).head
  refine hlt row hrow rowHead hrowHead ?_
  rw [hrowHead] at hnot
  rw [ctorWeight_of_ne fun hkind => hnot (DestructedPattern.allWildcard_of_ctor hkind)]
  exact Nat.one_pos

lemma settles_bySpecialization {ctor : Constructor Ty} {m' : Matrix Ty} {v' : PatternStack Ty}
    (hhead : v.head? = some head) (hm' : m.specialize T ctor = some m')
    (hv' : v.specialize T ctor = some v') (h : Terminates T m' v') : ∃ found,
    Settles (fun fuel => findWitnessesBySpecialization T (findWitnesses T fuel) m v ctor) found := by
  obtain ⟨found, hfound⟩ := h
  exact ⟨_, (hfound.map _).congr fun fuel =>
    SearchRules.findWitnessesBySpecialization_eq hhead hm' hv'⟩

lemma settles_ctors {ctors : List (Constructor Ty)}
    (h : ∀ ctor ∈ ctors, ∃ found, Settles
      (fun fuel => findWitnessesBySpecialization T (findWitnesses T fuel) m v ctor) found) :
    ∃ found, Settles (fun fuel => findWitnessesForCtors T (findWitnesses T fuel) m v ctors)
      found := by
  induction ctors with
  | nil => exact ⟨Found.nothing, settles_of_eq fun _ => rfl⟩
  | cons ctor ctors ih =>
    obtain ⟨first, hfirst⟩ := h ctor List.mem_cons_self
    obtain ⟨rest, hrest⟩ := ih fun c hc => h c (List.mem_cons_of_mem ctor hc)
    refine ⟨first.append rest, hfirst.bind (hrest.bind (settles_of_eq fun _ => rfl))⟩

/-- The search for a constructor that the head is split into, if some row has another head. -/
lemma settles_split {ctor : Constructor Ty} (hsmaller : SmallerTerminate T (weight m v))
    (hcolumns : SameColumns T ty tys m v head) (hhead : head.ctor = .WILDCARD)
    (hwild : m.headsAllWildcard = false) (hfits : ctor.Fits T ty) : ∃ found,
    Settles (fun fuel => findWitnessesBySpecialization T (findWitnesses T fuel) m v ctor) found := by
  obtain ⟨m', v', hm', hv', hmtyped, hvtyped, hor, hctor, -, hlt⟩ :=
    exists_specialized hcolumns hfits (Or.inl hhead)
  have hless := hlt hwild
  refine settles_bySpecialization hcolumns.head hm' hv' (hsmaller _ m' v' hmtyped hvtyped ?_)
  exact weight_lt_of_ctor hor (by omega)

/-- The tuple that a wildcard is rewritten to is specialized at once. -/
lemma terminates_tuple {typeArgs : List Ty} {v' : PatternStack Ty}
    (hsmaller : SmallerTerminate T (weight m v)) (hcolumns : SameColumns T ty tys m v head)
    (hwild : m.headsAllWildcard = false) (hshape : T.shape ty = .TUPLE typeArgs)
    (hv'typed : v'.Typed T (ty :: tys))
    (hv' : v'.columns = .wildcardTuple typeArgs ty :: v.columns.tail) : Terminates T m v' := by
  have hhead' : v'.head? = some (.wildcardTuple typeArgs ty) := by
    rw [PatternStack.head?_eq, hv']
    rfl
  have hfits : (Constructor.TUPLE typeArgs.length : Constructor Ty).Fits T ty :=
    ⟨typeArgs, hshape, rfl⟩
  obtain ⟨m'', v'', hm'', hv'', hmtyped, hvtyped, hor, hctor, -, hlt⟩ :=
    exists_specialized ⟨hcolumns.matrix, hv'typed, hhead'⟩ hfits (Or.inr rfl)
  have hcount {f : Constructor Ty → ℕ} (hf : f .WILDCARD = 0) :
      v'.count f ≤ v.count f + f (.TUPLE typeArgs.length) := by
    rw [PatternStack.count_of_head hcolumns.head, PatternStack.count_of_head hhead', hv',
      List.tail_cons, count_eq (.wildcardTuple typeArgs ty)]
    have hzero : counts f (DestructedPattern.wildcardTuple typeArgs ty).subPatterns = 0 :=
      counts_wildcards hf typeArgs
    have hsame : (DestructedPattern.wildcardTuple typeArgs ty).ctor = .TUPLE typeArgs.length := rfl
    rw [hzero, hsame]
    omega
  have hor' := hcount (f := orWeight) rfl
  have hctor' := hcount (f := ctorWeight) rfl
  have hless := hlt hwild
  simp only [orWeight, ctorWeight] at hor' hctor'
  have hone : ctorWeight (DestructedPattern.wildcardTuple typeArgs ty).ctor = 1 := rfl
  rw [hone] at hctor
  have hsub := hsmaller _ m'' v'' hmtyped hvtyped (weight_lt_of_ctor (by omega) (by omega))
  obtain ⟨found, hfound⟩ := settles_bySpecialization hhead' hm'' hv'' hsub
  have hstep (fuel : ℕ) : findWitnessesStep T (findWitnesses T fuel) m v' =
      if m.hasSingleRowAndAllWildcard then some Found.nothing
      else findWitnessesBySpecialization T (findWitnesses T fuel) m v' (.TUPLE typeArgs.length) := by
    unfold findWitnessesStep
    rw [hhead']
    rfl
  by_cases hsingle : m.hasSingleRowAndAllWildcard = true
  · refine terminates_of_step (settles_of_eq (a := Found.nothing) fun fuel => ?_)
    rw [hstep, if_pos hsingle]
  · refine terminates_of_step (hfound.congr fun fuel => ?_)
    rw [hstep, if_neg hsingle]

/-- How a wildcard is searched, by the shape of the type of its column. -/
lemma findWitnessesForWildcard_of_columns (search : Search Ty)
    (hcolumns : SameColumns T ty tys m v head) (hhead : head.ctor = .WILDCARD) :
    findWitnessesForWildcard T search m v =
      if m.headsAllWildcard then findWitnessesBySpecialization T search m v .WILDCARD
      else
        match T.shape ty with
        | .TUPLE typeArgs => do
          let stack ← v.specialize T (.TUPLE typeArgs.length)
          search m (stack.apply (.TUPLE typeArgs.length) ty)
        | _ => findWitnessesForCtors T search m v (splitWildcard T ty m) := by
  obtain ⟨hgoal, -⟩ := hcolumns.typedHead.goalTy_of_wildcard hhead
  unfold findWitnessesForWildcard
  rw [hcolumns.head, Option.bind_eq_bind, Option.bind_some, hgoal, hhead]
  all_goals rfl

lemma settles_forWildcard (hsmaller : SmallerTerminate T (weight m v))
    (hcolumns : SameColumns T ty tys m v head) (hhead : head.ctor = .WILDCARD) : ∃ found,
    Settles (fun fuel => findWitnessesForWildcard T (findWitnesses T fuel) m v) found := by
  have hbody (fuel : ℕ) :=
    findWitnessesForWildcard_of_columns (findWitnesses T fuel) hcolumns hhead
  by_cases hwild : m.headsAllWildcard = true
  · have hfits : (Constructor.WILDCARD : Constructor Ty).Fits T ty := trivial
    obtain ⟨m', v', hm', hv', hmtyped, hvtyped, hor, hctor, hle, -⟩ :=
      exists_specialized hcolumns hfits (Or.inl hhead)
    have hlength : v'.columns.length < v.columns.length := by
      rw [List.Forall₂.length_eq hvtyped, List.Forall₂.length_eq hcolumns.vec]
      exact Nat.lt_succ_self _
    have hsub := hsmaller _ m' v' hmtyped hvtyped (weight_lt_of_length hor (by omega) hlength)
    obtain ⟨found, hfound⟩ := settles_bySpecialization hcolumns.head hm' hv' hsub
    refine ⟨found, hfound.congr fun fuel => ?_⟩
    rw [hbody, if_pos hwild]
  · have hwild' := Bool.eq_false_iff.mpr hwild
    have hsplit (hbody' : ∀ fuel, findWitnessesForWildcard T (findWitnesses T fuel) m v =
        findWitnessesForCtors T (findWitnesses T fuel) m v (splitWildcard T ty m)) : ∃ found,
        Settles (fun fuel => findWitnessesForWildcard T (findWitnesses T fuel) m v) found := by
      obtain ⟨found, hfound⟩ := settles_ctors fun ctor hctor =>
        settles_split hsmaller hcolumns hhead hwild' (fits_of_mem_splitWildcard hctor)
      exact ⟨found, hfound.congr hbody'⟩
    cases hshape : T.shape ty with
    | TUPLE typeArgs =>
      obtain ⟨v', hv', hv'columns, hv'typed⟩ := SearchRules.exists_tuple hcolumns hhead hshape
      obtain ⟨found, hfound⟩ :=
        terminates_tuple hsmaller hcolumns hwild' hshape hv'typed hv'columns
      refine ⟨found, hfound.congr fun fuel => ?_⟩
      rw [hbody, if_neg hwild, hshape]
      dsimp only
      rw [hv', Option.bind_eq_bind, Option.bind_some]
    | _ =>
      refine hsplit fun fuel => ?_
      rw [hbody, if_neg hwild, hshape]

/-- How the first alternative is searched. -/
lemma findWitnessesForAlternatives_cons (search : Search Ty) (m : Matrix Ty)
    (vs : List (PatternStack Ty)) {head : DestructedPattern Ty} (hhead : v.head? = some head) :
    findWitnessesForAlternatives search m (v :: vs) = do
      let found ← search m v
      if found.witnesses.isEmpty then
        let (rest, unreachables) ← findWitnessesForAlternatives search m vs
        return (found.append rest, head.node :: unreachables)
      else
        let (rest, unreachables) ←
          findWitnessesForAlternatives search (m.appendRows found.witnesses) vs
        return (found.append rest, unreachables) := by
  rw [findWitnessesForAlternatives, hhead, Option.bind_eq_bind, Option.bind_some]

/-- The alternatives add typed rows to the matrix, and each of them has fewer or-patterns. -/
lemma settles_alternatives {vs : List (PatternStack Ty)} (hm : m.Typed T tys)
    (hvs : ∀ v ∈ vs, v.Typed T tys ∧ v.columns ≠ [])
    (hrec : ∀ m v, m.Typed T tys → v ∈ vs → Terminates T m v) : ∃ result,
    Settles (fun fuel => findWitnessesForAlternatives (findWitnesses T fuel) m vs) result := by
  induction vs generalizing m with
  | nil => exact ⟨(Found.nothing, []), settles_of_eq fun _ => rfl⟩
  | cons v vs ih =>
    obtain ⟨hv, hcolumns⟩ := hvs v List.mem_cons_self
    obtain ⟨head, hhead⟩ := Option.ne_none_iff_exists'.mp
      (mt PatternStack.head?_eq_none_iff.mp hcolumns)
    obtain ⟨first, hfirst⟩ := hrec m v hm List.mem_cons_self
    have hm' : (m.appendRows first.witnesses).Typed T tys := by
      obtain ⟨fuel, hfuel⟩ := settles_iff.mp hfirst
      intro row hrow
      rcases List.mem_append.mp hrow with hrow | hrow
      · exact hm row hrow
      · exact typed_findWitnesses hm hv (hfuel fuel le_rfl) row hrow
    obtain ⟨⟨rest, unreachables⟩, hrest⟩ := ih hm'
      (fun v' hv' => hvs v' (List.mem_cons_of_mem v hv'))
      fun m v' hm hv' => hrec m v' hm (List.mem_cons_of_mem v hv')
    have hbody (fuel : ℕ) := findWitnessesForAlternatives_cons (findWitnesses T fuel) m vs hhead
    by_cases hnone : first.witnesses.isEmpty = true
    · have hsame : m.appendRows first.witnesses = m := by
        rw [Matrix.appendRows, List.isEmpty_iff.mp hnone, List.append_nil]
      rw [hsame] at hrest
      refine ⟨(first.append rest, head.node :: unreachables), Settles.congr ?_ hbody⟩
      refine hfirst.bind ?_
      simp only [if_pos hnone]
      exact hrest.bind (settles_of_eq fun _ => rfl)
    · refine ⟨(first.append rest, unreachables), Settles.congr ?_ hbody⟩
      refine hfirst.bind ?_
      simp only [if_neg hnone]
      exact hrest.bind (settles_of_eq fun _ => rfl)

lemma settles_or {numArgs : ℕ} (hsmaller : SmallerTerminate T (weight m v))
    (hcolumns : SameColumns T ty tys m v head) (hhead : head.ctor = .OR numArgs) : ∃ found,
    Settles (fun fuel => findWitnessesForExpandedOr (findWitnesses T fuel) m v.expandOr)
      found := by
  have hsub : ∀ p ∈ head.subPatterns, p.Typed T ty := by
    have htyped := hcolumns.typedHead
    cases htyped with
    | or hsub => exact hsub
    | _ => exact nomatch hhead
  have hvs : ∀ v' ∈ v.expandOr, v'.Typed T (ty :: tys) ∧ v'.columns ≠ [] := by
    intro v' hv'
    obtain ⟨p, hp, rfl⟩ := (PatternStack.mem_expandOr hcolumns.head).mp hv'
    refine ⟨PatternStack.typed_replaceHead hcolumns.vec (hsub p hp), ?_⟩
    rw [PatternStack.columns_replaceHead]
    exact List.cons_ne_nil _ _
  have hrec : ∀ m' v', m'.Typed T (ty :: tys) → v' ∈ v.expandOr → Terminates T m' v' := by
    intro m' v' hm' hv'
    refine hsmaller _ m' v' hm' (hvs v' hv').1 (weight_lt_of_or ?_)
    obtain ⟨p, hp, rfl⟩ := (PatternStack.mem_expandOr hcolumns.head).mp hv'
    have hle := count_le_counts (f := orWeight) hp
    have hone : orWeight (Constructor.OR numArgs : Constructor Ty) = 1 := rfl
    rw [PatternStack.count_of_head hcolumns.head, PatternStack.count,
      PatternStack.columns_replaceHead, counts, count_eq head, hhead, hone]
    omega
  obtain ⟨⟨found, unreachables⟩, hresult⟩ := settles_alternatives hcolumns.matrix hvs hrec
  by_cases hnone : found.witnesses.isEmpty = true
  · refine ⟨found, hresult.bind ?_⟩
    simp only [if_pos hnone]
    exact settles_of_eq fun _ => rfl
  · refine ⟨⟨found.witnesses, found.unreachables ++ unreachables⟩, hresult.bind ?_⟩
    simp only [if_neg hnone]
    exact settles_of_eq fun _ => rfl

lemma settles_ctor (hsmaller : SmallerTerminate T (weight m v))
    (hcolumns : SameColumns T ty tys m v head) (hwild : head.ctor ≠ .WILDCARD)
    (hor : ∀ n, head.ctor ≠ .OR n) : ∃ found, Settles
      (fun fuel => findWitnessesBySpecialization T (findWitnesses T fuel) m v head.ctor)
      found := by
  obtain ⟨m', v', hm', hv', hmtyped, hvtyped, horCount, hctor, hle, -⟩ :=
    exists_specialized hcolumns (hcolumns.typedHead.fits hor) (Or.inr rfl)
  rw [ctorWeight_of_ne hwild] at hctor
  have hsub := hsmaller _ m' v' hmtyped hvtyped (weight_lt_of_ctor horCount (by omega))
  exact settles_bySpecialization hcolumns.head hm' hv' hsub

/-- A type pattern is searched for as a wildcard first, which has no constructor. -/
lemma settles_type {patternTy : Ty} (hsmaller : SmallerTerminate T (weight m v))
    (hcolumns : SameColumns T ty tys m v head) (hhead : head.ctor = .TYPE patternTy) : ∃ found,
    Settles (fun fuel => findWitnessesForWildcard T (findWitnesses T fuel) m
      (v.replaceHead (.wildcard ty))) found := by
  have hwildColumns := v.columns_replaceHead (.wildcard ty)
  have hwildHead : (v.replaceHead (.wildcard ty)).head? = some (.wildcard ty) := by
    rw [PatternStack.head?_eq, hwildColumns]
    rfl
  have hcount {f : Constructor Ty → ℕ} (hf : f .WILDCARD = 0) :
      (v.replaceHead (.wildcard ty)).count f + f (.TYPE patternTy) ≤ v.count f := by
    rw [PatternStack.count_of_head hcolumns.head, PatternStack.count, hwildColumns, counts,
      count_wildcard hf, count_eq head, hhead]
    omega
  have hor := hcount (f := orWeight) rfl
  have hctor := hcount (f := ctorWeight) rfl
  simp only [orWeight, ctorWeight] at hor hctor
  have hless : weight m (v.replaceHead (.wildcard ty)) < weight m v :=
    weight_lt_of_ctor (by omega) (by omega)
  have hcolumns' : SameColumns T ty tys m (v.replaceHead (.wildcard ty)) (.wildcard ty) :=
    ⟨hcolumns.matrix, PatternStack.typed_replaceHead hcolumns.vec .wildcard, hwildHead⟩
  exact settles_forWildcard (fun tys' m' v' hm' hv' h => hsmaller tys' m' v' hm' hv'
    (h.trans hless)) hcolumns' rfl

end Steps

/-- How a search goes on when neither of the first two tests ends it. -/
lemma findWitnessesStep_of_head (search : Search Ty) {m : Matrix Ty} {v : PatternStack Ty}
    {head : DestructedPattern Ty} (hhead : v.head? = some head)
    (hsingle : ¬ m.hasSingleRowAndAllWildcard = true)
    (hunreachable : ¬ head.isUnreachableTypePattern T = true) :
    findWitnessesStep T search m v =
      match head.ctor with
      | .WILDCARD => findWitnessesForWildcard T search m v
      | .OR _ => findWitnessesForExpandedOr search m v.expandOr
      | .TYPE ctor => do
        let wildcard := v.replaceHead (.wildcard head.goalTy)
        let found ← findWitnessesForWildcard T search m wildcard
        if found.witnesses.isEmpty then return found
        else
          let rest ← findWitnessesBySpecialization T search m v (.TYPE ctor)
          return ⟨rest.witnesses, found.unreachables ++ rest.unreachables⟩
      | ctor => findWitnessesBySpecialization T search m v ctor := by
  unfold findWitnessesStep
  rw [hhead]
  dsimp only
  rw [if_neg hsingle, if_neg hunreachable]
  all_goals rfl

/-- A search terminates if all searches of smaller weight do. -/
lemma terminates_of_smaller {ty : Ty} {tys : List Ty} {m : Matrix Ty} {v : PatternStack Ty}
    {head : DestructedPattern Ty} (hsmaller : SmallerTerminate T (weight m v))
    (hcolumns : SameColumns T ty tys m v head) : Terminates T m v := by
  have htyped := hcolumns.typedHead
  by_cases hsingle : m.hasSingleRowAndAllWildcard = true
  · refine terminates_of_step (settles_of_eq (a := Found.nothing) fun fuel => ?_)
    unfold findWitnessesStep
    rw [hcolumns.head]
    exact if_pos hsingle
  by_cases hunreachable : head.isUnreachableTypePattern T = true
  · refine terminates_of_step (settles_of_eq (a := Found.nothing) fun fuel => ?_)
    unfold findWitnessesStep
    rw [hcolumns.head]
    dsimp only
    rw [if_neg hsingle, if_pos hunreachable]
  have hbody (search : Search Ty) :=
    findWitnessesStep_of_head search hcolumns.head hsingle hunreachable
  cases hkind : head.ctor with
  | WILDCARD =>
    obtain ⟨found, hfound⟩ := settles_forWildcard hsmaller hcolumns hkind
    refine terminates_of_step (hfound.congr fun fuel => ?_)
    rw [hbody, hkind]
  | OR numArgs =>
    obtain ⟨found, hfound⟩ := settles_or hsmaller hcolumns hkind
    refine terminates_of_step (hfound.congr fun fuel => ?_)
    rw [hbody, hkind]
  | TYPE patternTy =>
    have hgoal := htyped.goalTy_of_type hkind
    obtain ⟨first, hfirst⟩ := settles_type hsmaller hcolumns hkind
    have htype (fuel : ℕ) : findWitnessesStep T (findWitnesses T fuel) m v = do
        let found ← findWitnessesForWildcard T (findWitnesses T fuel) m
          (v.replaceHead (.wildcard ty))
        if found.witnesses.isEmpty then return found
        else
          let rest ← findWitnessesBySpecialization T (findWitnesses T fuel) m v head.ctor
          return ⟨rest.witnesses, found.unreachables ++ rest.unreachables⟩ := by
      rw [hbody, hkind, ← hgoal]
    by_cases hnone : first.witnesses.isEmpty = true
    · refine terminates_of_step (Settles.congr (hfirst.bind (b := first) ?_) htype)
      simp only [if_pos hnone]
      exact settles_of_eq fun _ => rfl
    · obtain ⟨rest, hrest⟩ := settles_ctor hsmaller hcolumns (by rw [hkind]; simp)
        (by rw [hkind]; simp)
      refine terminates_of_step (Settles.congr (hfirst.bind
        (b := ⟨rest.witnesses, first.unreachables ++ rest.unreachables⟩) ?_) htype)
      simp only [if_neg hnone]
      exact hrest.bind (settles_of_eq fun _ => rfl)
  | _ =>
    obtain ⟨found, hfound⟩ := settles_ctor hsmaller hcolumns (by rw [hkind]; simp)
      (by rw [hkind]; simp)
    refine terminates_of_step (hfound.congr fun fuel => ?_)
    rw [hbody, hkind]

/-- Every search over typed rows terminates. -/
theorem terminates {tys : List Ty} {m : Matrix Ty} {v : PatternStack Ty} (hm : m.Typed T tys)
    (hv : v.Typed T tys) : Terminates T m v := by
  induction hw : weight m v using WellFoundedLT.induction generalizing tys m v with
  | ind w ih =>
    have hsmaller : SmallerTerminate T (weight m v) := by
      intro tys' m' v' hm' hv' hless
      exact ih (weight m' v') (hw ▸ hless) hm' hv' rfl
    cases tys with
    | nil =>
      have hhead : v.head? = none := PatternStack.head?_eq_none_iff.mpr hv.nil
      refine terminates_of_step (settles_of_eq
        (a := if m.isEmpty then ⟨[⟨[]⟩], []⟩ else Found.nothing) fun fuel => ?_)
      unfold findWitnessesStep
      rw [hhead]
    | cons ty tys =>
      obtain ⟨head, hhead, -⟩ := hv.head
      exact terminates_of_smaller hsmaller ⟨hm, hv, hhead⟩

/-- A search over rows and a stack with the same columns returns, whatever the types are. -/
theorem findWitnesses_terminates {tys : List Ty} {m : Matrix Ty} {v : PatternStack Ty}
    (hm : m.Typed T tys) (hv : v.Typed T tys) :
    ∃ found enough, ∀ fuel ≥ enough, findWitnesses T fuel m v = some found := by
  obtain ⟨found, hfound⟩ := terminates hm hv
  exact ⟨found, settles_iff.mp hfound⟩

/-! ### Lists of flags -/

/-- A list is empty, or a pair of a flag and a list. -/
inductive FlagTy where
  | BOOL
  | LIST
  | PAIR
  deriving DecidableEq

namespace FlagTy

def nil : EnumConstructor FlagTy := ⟨"Nil", .ENUM 0⟩

def cons : EnumConstructor FlagTy := ⟨"Cons", .FUNC [PAIR]⟩

def types : PatternTypes FlagTy where
  isTyCorrect _ := true
  isNothing _ := false
  hasGeneric _ := false
  isSealedLike _ := true
  isSubtype ty superTy := ty == superTy
  shape
    | BOOL => .BOOLEAN
    | LIST => .ENUM [nil, cons] false
    | PAIR => .TUPLE [BOOL, LIST]
  acceptsLiteral _ _ := False
  shape_of_incorrect _ h := nomatch h
  distinct ty ctors isNonExhaustive h := by
    cases ty with
    | LIST =>
      obtain ⟨rfl, -⟩ := TyShape.ENUM.inj h
      decide
    | _ => exact nomatch h

/-- The lists that begin with a set flag. -/
def setFirst : DestructedPattern FlagTy :=
  .mk (.ENUM cons) [.mk (.TUPLE 2) [.mk (.BOOLEAN true) [] BOOL none, .wildcard LIST] PAIR none]
    LIST none

lemma shape_list : types.shape LIST = .ENUM [nil, cons] false := rfl

lemma shape_pair : types.shape PAIR = .TUPLE [BOOL, LIST] := rfl

lemma typed_setFirst : setFirst.Typed types LIST := by
  have hflag : (DestructedPattern.mk (.BOOLEAN true) [] BOOL none).Typed types BOOL := .boolean rfl
  have hpair : (DestructedPattern.mk (.TUPLE 2) [.mk (.BOOLEAN true) [] BOOL none,
      .wildcard LIST] PAIR none).Typed types PAIR :=
    .tuple shape_pair (.cons hflag (.cons .wildcard .nil))
  exact .enum shape_list (List.mem_cons_of_mem _ (List.mem_singleton_self _)) (.cons hpair .nil)

/-- The empty list, and the lists that begin with a set flag. -/
def matrix : Matrix FlagTy := ⟨[⟨[.mk (.ENUM nil) [] LIST none]⟩, ⟨[setFirst]⟩]⟩

lemma typed_matrix : matrix.Typed types [LIST] := by
  intro row hrow
  rcases List.mem_pair.mp hrow with rfl | rfl
  · exact .cons (.enum shape_list List.mem_cons_self .nil) .nil
  · exact .cons typed_setFirst .nil

end FlagTy

theorem findWitnesses_terminates_flagLists : ∃ found enough, ∀ fuel ≥ enough,
    findWitnesses FlagTy.types fuel FlagTy.matrix ⟨[.wildcard .LIST]⟩ = some found :=
  findWitnesses_terminates FlagTy.typed_matrix (.cons .wildcard .nil)

end Cangjie.PatternUsefulness
