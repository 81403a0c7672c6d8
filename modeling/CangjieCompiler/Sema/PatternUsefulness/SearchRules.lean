import CangjieCompiler.Sema.PatternUsefulness.Typing

/-!
# Rules of the search

A property of the witnesses holds of every search if it holds where the search ends and passes from
the searches that a search makes to the search itself.  The rules state this without fuel and
failure, and over typed rows only; `SearchRules.findWitnesses` derives the property from them.
-/

namespace Cangjie.PatternUsefulness

variable {Ty : Type} (T : PatternTypes Ty)

/-- A property of the witnesses of a stack over a matrix with columns of some types. -/
abbrev SearchProperty (Ty : Type) :=
  List Ty → Matrix Ty → PatternStack Ty → List (PatternStack Ty) → Prop

/-- The witnesses are rows over the columns of the stack. -/
def TypedWitnesses : SearchProperty Ty := fun tys _ _ ws => ∀ w ∈ ws, w.Typed T tys

/-- The witnesses come from a search with the property over a specialized matrix. -/
inductive Specialized (Q : SearchProperty Ty) (tys : List Ty) (m : Matrix Ty)
    (v : PatternStack Ty) (ctor : Constructor Ty) : List (PatternStack Ty) → Prop
  | search {head m' v' ws} (hhead : v.head? = some head) (hm : m.specialize T ctor = some m')
    (hv : v.specialize T ctor = some v') (hws : Q tys m' v' ws) :
    Specialized Q tys m v ctor (ws.map fun w => w.apply ctor head.goalTy)

/-- The witnesses come from searches with the property for alternatives, which add their witnesses
to the matrix one after the other. -/
inductive Alternatives (Q : SearchProperty Ty) (tys : List Ty) :
    Matrix Ty → List (PatternStack Ty) → List (PatternStack Ty) → Prop
  | nil {m} : Alternatives Q tys m [] []
  | cons {m v vs ws ws'} (hm : m.Typed T tys) (hv : v.Typed T tys) (head : Q tys m v ws)
    (tail : Alternatives Q tys (m.appendRows ws) vs ws') :
    Alternatives Q tys m (v :: vs) (ws ++ ws')

/-- The tuple of wildcards that a wildcard is rewritten to. -/
def DestructedPattern.wildcardTuple (typeArgs : List Ty) (goalTy : Ty) : DestructedPattern Ty :=
  .mk (.TUPLE typeArgs.length) (typeArgs.map .wildcard) goalTy none

/-- A matrix and a stack over the same columns, and the head of the stack. -/
structure SameColumns (ty : Ty) (tys : List Ty) (m : Matrix Ty) (v : PatternStack Ty)
    (head : DestructedPattern Ty) : Prop where
  matrix : m.Typed T (ty :: tys)
  vec : v.Typed T (ty :: tys)
  head : v.head? = some head

structure SearchRules (Q : SearchProperty Ty) : Prop where
  emptyStack : ∀ {m v}, m.Typed T [] → v.Typed T [] → Q [] m v (if m.isEmpty then [⟨[]⟩] else [])
  singleRow : ∀ {tys m v}, m.Typed T tys → v.Typed T tys → m.hasSingleRowAndAllWildcard = true →
    Q tys m v []
  unreachable : ∀ {ty tys m v head}, SameColumns T ty tys m v head →
    head.isUnreachableTypePattern T = true → Q (ty :: tys) m v []
  /-- The wildcards in the heads of all rows are dropped. -/
  headsAllWildcard : ∀ {ty tys m v head ws}, SameColumns T ty tys m v head →
    head.ctor = .WILDCARD → m.headsAllWildcard = true →
    Specialized T Q tys m v .WILDCARD ws → Q (ty :: tys) m v ws
  /-- The wildcard is rewritten to a tuple of wildcards. -/
  tuple : ∀ {ty tys m v head v' typeArgs ws}, SameColumns T ty tys m v head →
    head.ctor = .WILDCARD → m.headsAllWildcard = false → T.shape ty = .TUPLE typeArgs →
    v'.Typed T (ty :: tys) → v'.columns = .wildcardTuple typeArgs ty :: v.columns.tail →
    Q (ty :: tys) m v' ws → Q (ty :: tys) m v ws
  /-- The wildcard is split into constructors. -/
  split : ∀ {ty tys m v head wss}, SameColumns T ty tys m v head → head.ctor = .WILDCARD →
    m.headsAllWildcard = false → (∀ typeArgs, T.shape ty ≠ .TUPLE typeArgs) →
    List.Forall₂ (fun ctor ws => Specialized T Q (ctor.argTypes T ty ++ tys) m v ctor ws)
      (splitWildcard T ty m) wss →
    Q (ty :: tys) m v wss.flatten
  or : ∀ {ty tys m v head numArgs ws}, SameColumns T ty tys m v head → head.ctor = .OR numArgs →
    Alternatives T Q (ty :: tys) m v.expandOr ws → Q (ty :: tys) m v ws
  /-- A type pattern is covered where a wildcard is. -/
  coveredType : ∀ {ty tys m v v' head patternTy}, SameColumns T ty tys m v head →
    head.ctor = .TYPE patternTy → v'.columns = .wildcard ty :: v.columns.tail →
    v'.Typed T (ty :: tys) → Q (ty :: tys) m v' [] → Q (ty :: tys) m v []
  ctor : ∀ {ty tys m v head ws}, SameColumns T ty tys m v head → head.ctor ≠ .WILDCARD →
    (∀ n, head.ctor ≠ .OR n) →
    Specialized T Q (head.ctor.argTypes T ty ++ tys) m v head.ctor ws → Q (ty :: tys) m v ws

/-! ## From the rules to searches -/

namespace SearchRules

variable {T} {Q : SearchProperty Ty} {search : Search Ty}

/-- The searches that succeed on typed rows have the property. -/
def Holds (T : PatternTypes Ty) (Q : SearchProperty Ty) (search : Search Ty) : Prop :=
  ∀ tys m v found, m.Typed T tys → v.Typed T tys → search m v = some found →
    Q tys m v found.witnesses

lemma findWitnessesBySpecialization_eq {m m' : Matrix Ty} {v v' : PatternStack Ty}
    {head : DestructedPattern Ty} {ctor : Constructor Ty} (hhead : v.head? = some head)
    (hm : m.specialize T ctor = some m') (hv : v.specialize T ctor = some v') :
    findWitnessesBySpecialization T search m v ctor = (search m' v').map fun found =>
      ⟨found.witnesses.map fun w => w.apply ctor head.goalTy, found.unreachables⟩ := by
  unfold findWitnessesBySpecialization
  rw [hhead, hm, hv, Option.map_eq_bind]
  rfl

lemma specialized_of_search (h : Holds T Q search) {ty : Ty} {tys : List Ty} {m : Matrix Ty}
    {v : PatternStack Ty} {head : DestructedPattern Ty} {ctor : Constructor Ty} {found : Found Ty}
    (hcolumns : SameColumns T ty tys m v head) (hfits : ctor.Fits T ty)
    (hhead : head.ctor = .WILDCARD ∨ head.ctor = ctor)
    (hfound : findWitnessesBySpecialization T search m v ctor = some found) :
    Specialized T Q (ctor.argTypes T ty ++ tys) m v ctor found.witnesses := by
  obtain ⟨hm, hv, hhead?⟩ := hcolumns
  obtain ⟨m', hm', htyped, -⟩ := Matrix.specialize_typed hm hfits
  obtain ⟨v', hv', -⟩ := PatternStack.specialize_of_head hhead? (T := T) ctor
  rw [findWitnessesBySpecialization_eq hhead? hm' hv'] at hfound
  obtain ⟨sub, hsub, rfl⟩ := Option.map_eq_some_iff.mp hfound
  have htyped' :=
    PatternStack.typed_specialize hv hhead? hfits (Constructor.isCoveredBy_or_eq hhead) hv'
  exact .search hhead? hm' hv' (h _ _ _ _ htyped htyped' hsub)

lemma specialized_of_ctors (h : Holds T Q search) {ty : Ty} {tys : List Ty} {m : Matrix Ty}
    {v : PatternStack Ty} {head : DestructedPattern Ty} {ctors : List (Constructor Ty)}
    {found : Found Ty} (hcolumns : SameColumns T ty tys m v head)
    (hfits : ∀ ctor ∈ ctors, ctor.Fits T ty) (hhead : head.ctor = .WILDCARD)
    (hfound : findWitnessesForCtors T search m v ctors = some found) :
    ∃ wss, List.Forall₂ (fun ctor ws => Specialized T Q (ctor.argTypes T ty ++ tys) m v ctor ws)
      ctors wss ∧ found.witnesses = wss.flatten := by
  induction ctors generalizing found with
  | nil =>
    obtain rfl := Option.some.inj hfound
    exact ⟨[], .nil, rfl⟩
  | cons ctor ctors ih =>
    unfold findWitnessesForCtors at hfound
    obtain ⟨first, hfirst, hfound⟩ := Option.bind_eq_some_iff.mp hfound
    obtain ⟨rest, hrest, hresult⟩ := Option.bind_eq_some_iff.mp hfound
    obtain rfl := Option.some.inj hresult
    obtain ⟨wss, hwss, hflatten⟩ := ih (fun c hc => hfits c (List.mem_cons_of_mem ctor hc)) hrest
    refine ⟨first.witnesses :: wss, .cons ?_ hwss, ?_⟩
    · exact specialized_of_search h hcolumns (hfits ctor List.mem_cons_self) (Or.inl hhead) hfirst
    · rw [List.flatten_cons, ← hflatten]
      rfl

/-- The stack that a wildcard of a tuple type is rewritten to. -/
lemma exists_tuple {ty : Ty} {tys typeArgs : List Ty} {m : Matrix Ty} {v : PatternStack Ty}
    {head : DestructedPattern Ty} (hcolumns : SameColumns T ty tys m v head)
    (hhead : head.ctor = .WILDCARD) (hshape : T.shape ty = .TUPLE typeArgs) :
    ∃ v', v.specialize T (.TUPLE typeArgs.length) = some v' ∧
      (v'.apply (.TUPLE typeArgs.length) ty).columns =
        .wildcardTuple typeArgs ty :: v.columns.tail ∧
      (v'.apply (.TUPLE typeArgs.length) ty).Typed T (ty :: tys) := by
  obtain ⟨head', hhead', htyped, hrest⟩ := hcolumns.vec.head
  obtain rfl := Option.some.inj (hcolumns.head.symm.trans hhead')
  obtain ⟨hgoal, -⟩ := htyped.goalTy_of_wildcard hhead
  obtain ⟨v', hv', -⟩ := PatternStack.specialize_of_head hhead' (T := T) (.TUPLE typeArgs.length)
  have hfits : (Constructor.TUPLE typeArgs.length : Constructor Ty).Fits T ty :=
    ⟨typeArgs, hshape, rfl⟩
  have hspecialize : head.specialize T (.TUPLE typeArgs.length) = typeArgs.map .wildcard := by
    unfold DestructedPattern.specialize
    rw [hhead, hgoal]
    dsimp only
    rw [DestructedPattern.specializeWildcard_eq hfits]
    simp only [Constructor.argTypes, PatternTypes.typeArgs, hshape]
  have hresult : (v'.apply (.TUPLE typeArgs.length) ty).columns =
      .wildcardTuple typeArgs ty :: v.columns.tail := by
    rw [PatternStack.columns_apply_specialize T hhead' hv', hspecialize]
    · rfl
    · rw [hspecialize, List.length_map]
      rfl
  refine ⟨v', hv', hresult, ?_⟩
  unfold PatternStack.Typed
  rw [hresult]
  exact .cons (.tuple hshape (DestructedPattern.typed_wildcards typeArgs)) hrest

variable (hQ : SearchRules T Q)

include hQ

lemma forWildcard (h : Holds T Q search) {ty : Ty} {tys : List Ty} {m : Matrix Ty}
    {v : PatternStack Ty} {head : DestructedPattern Ty} {found : Found Ty}
    (hcolumns : SameColumns T ty tys m v head) (hhead : head.ctor = .WILDCARD)
    (hfound : findWitnessesForWildcard T search m v = some found) :
    Q (ty :: tys) m v found.witnesses := by
  obtain ⟨head', hhead', htyped, -⟩ := hcolumns.vec.head
  obtain rfl := Option.some.inj (hcolumns.head.symm.trans hhead')
  obtain ⟨hgoal, -⟩ := htyped.goalTy_of_wildcard hhead
  unfold findWitnessesForWildcard at hfound
  rw [hhead', Option.bind_eq_bind, Option.bind_some, hgoal, hhead] at hfound
  by_cases hwild : m.headsAllWildcard = true
  · rw [if_pos hwild] at hfound
    have hfits : (Constructor.WILDCARD : Constructor Ty).Fits T ty := trivial
    exact hQ.headsAllWildcard hcolumns hhead hwild
      (specialized_of_search h hcolumns hfits (Or.inl hhead) hfound)
  · rw [if_neg hwild] at hfound
    have hwild' := Bool.eq_false_iff.mpr hwild
    have hsplit (hshape : ∀ typeArgs, T.shape ty ≠ .TUPLE typeArgs)
        (hfound : findWitnessesForCtors T search m v (splitWildcard T ty m) = some found) :
        Q (ty :: tys) m v found.witnesses := by
      obtain ⟨wss, hwss, hflatten⟩ := specialized_of_ctors h hcolumns
        (fun _ => fits_of_mem_splitWildcard) hhead hfound
      rw [hflatten]
      exact hQ.split hcolumns hhead hwild' hshape hwss
    cases hshape : T.shape ty with
    | TUPLE typeArgs =>
      obtain ⟨v', hv', hv'columns, hv'typed⟩ := exists_tuple hcolumns hhead hshape
      rw [hshape] at hfound
      dsimp only at hfound
      rw [hv'] at hfound
      exact hQ.tuple hcolumns hhead hwild' hshape hv'typed hv'columns
        (h _ _ _ _ hcolumns.matrix hv'typed hfound)
    | _ =>
      rw [hshape] at hfound
      exact hsplit (by rw [hshape]; simp) hfound

omit hQ in
lemma alternatives (ht : Holds T (TypedWitnesses T) search) (h : Holds T Q search)
    {tys : List Ty} {m : Matrix Ty} {vs : List (PatternStack Ty)} {result : Found Ty × List (Option ℕ)}
    (hm : m.Typed T tys) (hvs : ∀ v ∈ vs, v.Typed T tys)
    (hfound : findWitnessesForAlternatives search m vs = some result) :
    Alternatives T Q tys m vs result.1.witnesses := by
  induction vs generalizing m result with
  | nil =>
    obtain rfl := Option.some.inj hfound
    exact .nil
  | cons v vs ih =>
    have hv := hvs v List.mem_cons_self
    have hrest := fun v' hv' => hvs v' (List.mem_cons_of_mem v hv')
    unfold findWitnessesForAlternatives at hfound
    obtain ⟨head, -, hfound⟩ := Option.bind_eq_some_iff.mp hfound
    obtain ⟨first, hfirst, hfound⟩ := Option.bind_eq_some_iff.mp hfound
    have hfirstQ := h _ _ _ _ hm hv hfirst
    have hm' : (m.appendRows first.witnesses).Typed T tys := by
      intro row hrow
      rcases List.mem_append.mp hrow with hrow | hrow
      · exact hm row hrow
      · exact ht _ _ _ _ hm hv hfirst row hrow
    split_ifs at hfound with hnone
    · obtain ⟨⟨rest, unreachables⟩, hloop, hresult⟩ := Option.bind_eq_some_iff.mp hfound
      obtain rfl := Option.some.inj hresult
      have hsame : m.appendRows first.witnesses = m := by
        rw [Matrix.appendRows, List.isEmpty_iff.mp hnone, List.append_nil]
      rw [← hsame] at hloop
      exact .cons hm hv hfirstQ (ih hm' hrest hloop)
    · obtain ⟨⟨rest, unreachables⟩, hloop, hresult⟩ := Option.bind_eq_some_iff.mp hfound
      obtain rfl := Option.some.inj hresult
      exact .cons hm hv hfirstQ (ih hm' hrest hloop)

lemma step (ht : Holds T (TypedWitnesses T) search) (h : Holds T Q search) :
    Holds T Q (findWitnessesStep T search) := by
  intro tys m v found hm hv hfound
  unfold findWitnessesStep at hfound
  cases tys with
  | nil =>
    have hhead : v.head? = none := PatternStack.head?_eq_none_iff.mpr hv.nil
    rw [hhead] at hfound
    obtain rfl := Option.some.inj hfound
    have hresult := hQ.emptyStack hm hv
    split_ifs at hresult ⊢ <;> exact hresult
  | cons ty tys =>
    obtain ⟨head, hhead, htyped, hrest⟩ := hv.head
    have hcolumns : SameColumns T ty tys m v head := ⟨hm, hv, hhead⟩
    rw [hhead] at hfound
    dsimp only at hfound
    by_cases hsingle : m.hasSingleRowAndAllWildcard = true
    · rw [if_pos hsingle] at hfound
      obtain rfl := Option.some.inj hfound
      exact hQ.singleRow hm hv hsingle
    by_cases hunreachable : head.isUnreachableTypePattern T = true
    · rw [if_neg hsingle, if_pos hunreachable] at hfound
      obtain rfl := Option.some.inj hfound
      exact hQ.unreachable hcolumns hunreachable
    rw [if_neg hsingle, if_neg hunreachable] at hfound
    have hctor (hwild : head.ctor ≠ .WILDCARD) (hor : ∀ n, head.ctor ≠ .OR n) {found : Found Ty}
        (hfound : findWitnessesBySpecialization T search m v head.ctor = some found) :
        Q (ty :: tys) m v found.witnesses :=
      hQ.ctor hcolumns hwild hor
        (specialized_of_search h hcolumns (htyped.fits hor) (Or.inr rfl) hfound)
    cases hkind : head.ctor with
    | WILDCARD =>
      rw [hkind] at hfound
      exact hQ.forWildcard h hcolumns hkind hfound
    | OR numArgs =>
      rw [hkind] at hfound
      unfold findWitnessesForExpandedOr at hfound
      obtain ⟨⟨total, unreachables⟩, hloop, hfound⟩ := Option.bind_eq_some_iff.mp hfound
      have hvs : ∀ v' ∈ v.expandOr, v'.Typed T (ty :: tys) := by
        intro v' hv'
        obtain ⟨p, hp, rfl⟩ := (PatternStack.mem_expandOr hhead).mp hv'
        cases htyped with
        | or hsub => exact PatternStack.typed_replaceHead hv (hsub p hp)
        | _ => exact nomatch hkind
      have halternatives := alternatives ht h hm hvs hloop
      dsimp only at hfound
      split_ifs at hfound
      · obtain rfl := Option.some.inj hfound
        exact hQ.or hcolumns hkind halternatives
      · obtain rfl := Option.some.inj hfound
        exact hQ.or hcolumns hkind halternatives
    | TYPE patternTy =>
      rw [hkind] at hfound
      obtain ⟨first, hfirst, hfound⟩ := Option.bind_eq_some_iff.mp hfound
      have hgoal := htyped.goalTy_of_type hkind
      rw [hgoal] at hfirst
      have hwildTyped := PatternStack.typed_replaceHead hv (p := .wildcard ty) .wildcard
      have hwildColumns := v.columns_replaceHead (.wildcard ty)
      have hwildHead : (v.replaceHead (.wildcard ty)).head? = some (.wildcard ty) := by
        rw [PatternStack.head?_eq, hwildColumns]
        rfl
      have hwild := hQ.forWildcard h ⟨hm, hwildTyped, hwildHead⟩ rfl hfirst
      split_ifs at hfound with hnone
      · obtain rfl := Option.some.inj hfound
        rw [List.isEmpty_iff.mp hnone] at hwild ⊢
        exact hQ.coveredType hcolumns hkind hwildColumns hwildTyped hwild
      · obtain ⟨rest, hsearch, hresult⟩ := Option.bind_eq_some_iff.mp hfound
        obtain rfl := Option.some.inj hresult
        rw [← hkind] at hsearch
        have hresult := hctor (by rw [hkind]; simp) (by rw [hkind]; simp) hsearch
        exact hresult
    | _ =>
      rw [hkind] at hfound
      dsimp only at hfound
      rw [← hkind] at hfound
      exact hctor (by rw [hkind]; simp) (by rw [hkind]; simp) hfound

omit hQ in
/-- The witnesses of every search that returns are typed if the rules hold of that. -/
lemma holds_typedWitnesses (htyped : SearchRules T (TypedWitnesses T)) (fuel : ℕ) :
    Holds T (TypedWitnesses T) (findWitnesses T fuel) := by
  induction fuel with
  | zero =>
    intro tys m v found _ _ hfound
    exact absurd hfound (Option.some_ne_none found).symm
  | succ fuel ih => exact htyped.step ih ih

end SearchRules

/-! ## Typed witnesses -/

section Forall

variable {α β : Type} {R : α → β → Prop} {as : List α} {bs : List β}

lemma exists_mem_right (h : List.Forall₂ R as bs) {a : α} (ha : a ∈ as) : ∃ b ∈ bs, R a b := by
  induction h with
  | nil => exact absurd ha List.not_mem_nil
  | cons hab _ ih =>
    rcases List.mem_cons.mp ha with rfl | ha
    · exact ⟨_, List.mem_cons_self, hab⟩
    · obtain ⟨b, hb, hR⟩ := ih ha
      exact ⟨b, List.mem_cons_of_mem _ hb, hR⟩

lemma exists_mem_left (h : List.Forall₂ R as bs) {b : β} (hb : b ∈ bs) : ∃ a ∈ as, R a b :=
  exists_mem_right h.flip hb

end Forall

section TypedWitnesses

variable {T} {ty : Ty} {tys : List Ty}

/-- A constructor makes a pattern of the type from patterns of its fields. -/
def Constructor.Makes (T : PatternTypes Ty) (ctor : Constructor Ty) (ty goalTy : Ty) : Prop :=
  ∀ subPatterns, List.Forall₂ (DestructedPattern.Typed T) subPatterns (ctor.argTypes T ty) →
    (DestructedPattern.mk ctor subPatterns goalTy none).Typed T ty

lemma PatternStack.typed_apply {w : PatternStack Ty} {ctor : Constructor Ty} {goalTy : Ty}
    (hw : w.Typed T (ctor.argTypes T ty ++ tys)) (hfits : ctor.Fits T ty)
    (hmakes : ctor.Makes T ty goalTy) : (w.apply ctor goalTy).Typed T (ty :: tys) := by
  unfold PatternStack.Typed at hw ⊢
  have hlength := Constructor.length_argTypes hfits
  have htake := List.forall₂_take ctor.arity hw
  have hdrop := List.forall₂_drop ctor.arity hw
  rw [← hlength, List.take_left] at htake
  rw [← hlength, List.drop_left] at hdrop
  rw [columns_apply, ← hlength]
  exact .cons (hmakes _ htake) hdrop

lemma Constructor.Proper.makes {ctor : Constructor Ty} (h : ctor.Proper T ty) (goalTy : Ty) :
    ctor.Makes T ty goalTy := by
  intro subPatterns hsub
  cases ctor with
  | UNIT =>
    obtain rfl := List.forall₂_nil_right_iff.mp hsub
    exact .unit h
  | BOOLEAN val =>
    obtain rfl := List.forall₂_nil_right_iff.mp hsub
    exact .boolean h
  | NON_EXHAUSTIVE_LITERAL lit =>
    obtain rfl := List.forall₂_nil_right_iff.mp hsub
    exact .literal h.1 h.2
  | ENUM c =>
    obtain ⟨ctors, isNonExhaustive, hshape, hc⟩ := h
    exact .enum hshape hc hsub
  | NON_EXHAUSTIVE_ENUM =>
    obtain rfl := List.forall₂_nil_right_iff.mp hsub
    obtain ⟨ctors, hshape⟩ := h
    exact .nonExhaustiveEnum hshape
  | TUPLE numArgs =>
    obtain ⟨typeArgs, hshape, rfl⟩ := h
    simp only [Constructor.argTypes, PatternTypes.typeArgs, hshape] at hsub
    exact .tuple hshape hsub
  | MISSING =>
    obtain rfl := List.forall₂_nil_right_iff.mp hsub
    exact .missing h
  | _ => exact h.elim

/-- What the constructor of a pattern makes has the type of the pattern. -/
lemma DestructedPattern.Typed.makes {p : DestructedPattern Ty} (h : p.Typed T ty)
    (hor : ∀ n, p.ctor ≠ .OR n) : p.ctor.Makes T ty p.goalTy := by
  by_cases hproper : p.ctor.Proper T ty
  · exact hproper.makes p.goalTy
  · intro subPatterns hsub
    cases h with
    | wildcard =>
      obtain rfl := List.forall₂_nil_right_iff.mp hsub
      exact .wildcard
    | type =>
      obtain rfl := List.forall₂_nil_right_iff.mp hsub
      exact .type
    | invalid =>
      obtain rfl := List.forall₂_nil_right_iff.mp hsub
      exact .invalid
    | or _ => exact absurd rfl (hor _)
    | literal h hlit => exact absurd ⟨h, hlit⟩ hproper
    | nonExhaustiveEnum h => exact absurd ⟨_, h⟩ hproper
    | enum h hctor _ => exact absurd ⟨_, _, h, hctor⟩ hproper
    | tuple h _ => exact absurd ⟨_, h, rfl⟩ hproper
    | missing h => exact absurd h hproper
    | unit h => exact absurd h hproper
    | boolean h => exact absurd h hproper

/-- What the constructors of a type make has the type. -/
lemma makes_of_mem_splitWildcard {m : Matrix Ty} (hmissing : m.missingAll = false)
    {ctor : Constructor Ty} (h : ctor ∈ splitWildcard T ty m) : ctor.Makes T ty ty := by
  rcases mem_splitWildcard hmissing h with hproper | ⟨directSubtypes, subTy, -, rfl⟩
  · exact hproper.makes ty
  · intro subPatterns hsub
    obtain rfl := List.forall₂_nil_right_iff.mp hsub
    exact .type

/-- A matrix with columns and some other head than a wildcard misses no columns. -/
lemma missingAll_of_headsAllWildcard {m : Matrix Ty} (hm : m.Typed T (ty :: tys))
    (h : m.headsAllWildcard = false) : m.missingAll = false := by
  obtain ⟨row, hrow, -⟩ := List.all_eq_false.mp h
  refine List.all_eq_false.mpr ⟨row, hrow, fun hempty => ?_⟩
  obtain ⟨head, hhead, -⟩ := (hm row hrow).head
  unfold PatternStack.head? at hhead
  rw [List.isEmpty_iff.mp hempty] at hhead
  exact absurd hhead (Option.some_ne_none head).symm

lemma Specialized.typed {m : Matrix Ty} {v : PatternStack Ty} {head : DestructedPattern Ty}
    {ctor : Constructor Ty} {ws : List (PatternStack Ty)}
    (h : Specialized T (TypedWitnesses T) (ctor.argTypes T ty ++ tys) m v ctor ws)
    (hhead : v.head? = some head) (hfits : ctor.Fits T ty)
    (hmakes : ctor.Makes T ty head.goalTy) : ∀ w ∈ ws, w.Typed T (ty :: tys) := by
  cases h with
  | search hhead' hm hv hws =>
    obtain rfl := Option.some.inj (hhead.symm.trans hhead')
    intro w hw
    obtain ⟨w', hw', rfl⟩ := List.mem_map.mp hw
    exact PatternStack.typed_apply (hws w' hw') hfits hmakes

lemma Alternatives.typed {m : Matrix Ty} {vs ws : List (PatternStack Ty)}
    (h : Alternatives T (TypedWitnesses T) tys m vs ws) : ∀ w ∈ ws, w.Typed T tys := by
  induction h with
  | nil => exact fun w hw => absurd hw List.not_mem_nil
  | cons _ _ hhead _ ih =>
    intro w hw
    rcases List.mem_append.mp hw with hw | hw
    · exact hhead w hw
    · exact ih w hw

/-- The head of a stack with columns is the first column. -/
lemma SameColumns.typedHead {m : Matrix Ty} {v : PatternStack Ty} {head : DestructedPattern Ty}
    (h : SameColumns T ty tys m v head) : head.Typed T ty := by
  obtain ⟨head', hhead', htyped, -⟩ := h.vec.head
  obtain rfl := Option.some.inj (h.head.symm.trans hhead')
  exact htyped

theorem typedRules : SearchRules T (TypedWitnesses T) where
  emptyStack {m v} _ hv := by
    intro w hw
    split_ifs at hw
    · rw [List.mem_singleton.mp hw]
      exact List.Forall₂.nil
    · exact absurd hw List.not_mem_nil
  singleRow _ _ _ := fun w hw => absurd hw List.not_mem_nil
  unreachable _ _ := fun w hw => absurd hw List.not_mem_nil
  headsAllWildcard {ty tys m v head ws} hcolumns hhead _ hws := by
    have hor : ∀ n, head.ctor ≠ .OR n := by
      rw [hhead]
      simp
    have hfits := hcolumns.typedHead.fits hor
    have hmakes := hcolumns.typedHead.makes hor
    rw [hhead] at hfits hmakes
    have hws' : Specialized T (TypedWitnesses T)
        (Constructor.argTypes T .WILDCARD ty ++ tys) m v .WILDCARD ws := hws
    exact hws'.typed hcolumns.head hfits hmakes
  tuple _ _ _ _ _ _ hws := hws
  split {ty tys m v head wss} hcolumns hhead hwild _ hwss := by
    have hmissing := missingAll_of_headsAllWildcard hcolumns.matrix hwild
    obtain ⟨hgoal, -⟩ := hcolumns.typedHead.goalTy_of_wildcard hhead
    intro w hw
    obtain ⟨ws, hws, hmem⟩ := List.mem_flatten.mp hw
    obtain ⟨ctor, hctor, hspecialized⟩ := exists_mem_left hwss hws
    have hmakes := makes_of_mem_splitWildcard hmissing hctor
    refine Specialized.typed hspecialized hcolumns.head (fits_of_mem_splitWildcard hctor) ?_ w hmem
    rwa [hgoal]
  or _ _ hws := Alternatives.typed hws
  coveredType _ _ _ _ hws := hws
  ctor hcolumns _ hor hws :=
    Specialized.typed hws hcolumns.head (hcolumns.typedHead.fits hor)
      (hcolumns.typedHead.makes hor)

/-- The witnesses of a search are rows over the columns of the stack. -/
theorem typed_findWitnesses {fuel : ℕ} {m : Matrix Ty} {v : PatternStack Ty} {found : Found Ty}
    (hm : m.Typed T tys) (hv : v.Typed T tys) (h : findWitnesses T fuel m v = some found) :
    ∀ w ∈ found.witnesses, w.Typed T tys :=
  SearchRules.holds_typedWitnesses typedRules fuel tys m v found hm hv h

/-- A property with the rules holds of the witnesses of every search that returns. -/
theorem SearchRules.holds_findWitnesses {Q : SearchProperty Ty} (hQ : SearchRules T Q) (fuel : ℕ) :
    Holds T Q (findWitnesses T fuel) := by
  induction fuel with
  | zero =>
    intro tys m v found _ _ hfound
    exact absurd hfound (Option.some_ne_none found).symm
  | succ fuel ih => exact hQ.step (holds_typedWitnesses typedRules fuel) ih

end TypedWitnesses

end Cangjie.PatternUsefulness
