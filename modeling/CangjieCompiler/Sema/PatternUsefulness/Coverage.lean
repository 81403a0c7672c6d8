import CangjieCompiler.Sema.PatternUsefulness.PlainPatterns

/-!
# What the witnesses cover

Every row that a search returns matches only what the stack or the matrix matches, and together with
the matrix the rows match all that the stack matches.  Both pass from the specialized searches to
the search since specialization takes a constructor off the rows and off the values alike.
-/

namespace Cangjie.PatternUsefulness

variable {Ty : Type} {T : PatternTypes Ty} (V : ValueModel T)

/-- The type patterns that are reported as unreachable match no value of their type. -/
def ValueModel.SealedApart : Prop :=
  ∀ patternTy goalTy node x, (DestructedPattern.mk (.TYPE patternTy) [] goalTy
    node).isUnreachableTypePattern T = true → HasType V x goalTy → ¬V.isInstance x patternTy

/-- The witnesses are typed, match only what the stack or the matrix matches, and leave nothing of
the stack to the matrix that is not matched.  Simple stacks have no type patterns. -/
structure Covering (tys : List Ty) (m : Matrix Ty) (v : PatternStack Ty)
    (ws : List (PatternStack Ty)) : Prop where
  typed : TypedWitnesses T tys m v ws
  sound : ∀ w ∈ ws, ∀ xs, w.Matches V xs → v.Matches V xs ∨ m.Matches V xs
  covers : V.SealedApart ∨ v.Simple → ∀ xs, List.Forall₂ (HasType V) xs tys → v.Matches V xs →
    m.Matches V xs ∨ ∃ w ∈ ws, w.Matches V xs

variable {V}

/-! ## Wildcards and tuples of wildcards -/

mutual

theorem matches_of_allWildcard : ∀ (p : DestructedPattern Ty) {ty : Ty} {x : Value V.Obj},
    p.allWildcard = true → p.Typed T ty → HasType V x ty → Matches V p x
  | .mk ctor subPatterns goalTy node, ty, x, h, hp, hx => by
    cases hp with
    | wildcard => exact .wildcard
    | tuple hshape hsub =>
      rw [DestructedPattern.allWildcard] at h
      obtain ⟨args, rfl, hargs⟩ := hx.exists_tuple hshape
      exact .tuple (matches_of_allWildcards subPatterns h hsub hargs)
    | _ => exact absurd h (by simp [DestructedPattern.allWildcard])

theorem matches_of_allWildcards : ∀ (ps : List (DestructedPattern Ty)) {tys : List Ty}
    {xs : List (Value V.Obj)}, DestructedPattern.allWildcards ps = true →
    List.Forall₂ (DestructedPattern.Typed T) ps tys → List.Forall₂ (HasType V) xs tys →
    List.Forall₂ (Matches V) ps xs
  | [], tys, xs, _, hps, hxs => by
    obtain rfl := List.forall₂_nil_left_iff.mp hps
    rw [List.forall₂_nil_right_iff.mp hxs]
    exact .nil
  | p :: ps, tys, xs, h, hps, hxs => by
    rw [DestructedPattern.allWildcards, Bool.and_eq_true] at h
    cases hps with
    | cons hp hps =>
      cases hxs with
      | cons hx hxs =>
        exact .cons (matches_of_allWildcard p h.1 hp hx) (matches_of_allWildcards ps h.2 hps hxs)

end

lemma matrix_matches_of_singleRow {tys : List Ty} {m : Matrix Ty} {xs : List (Value V.Obj)}
    (hm : m.Typed T tys) (h : m.hasSingleRowAndAllWildcard = true)
    (hxs : List.Forall₂ (HasType V) xs tys) : m.Matches V xs := by
  unfold Matrix.hasSingleRowAndAllWildcard at h
  split at h
  · rename_i row hrows
    have hrow : row ∈ m.rows := hrows ▸ List.mem_singleton_self row
    refine ⟨row, hrow, matches_of_allWildcards row.columns ?_ (hm row hrow) hxs⟩
    rwa [DestructedPattern.allWildcards_eq, ← PatternStack.allWildcard_eq]
  · exact absurd h Bool.false_ne_true

/-! ## Specialized searches -/

section Specialized

variable {ty : Ty} {tys : List Ty} {m : Matrix Ty} {v : PatternStack Ty}
  {head : DestructedPattern Ty} {ctor : Constructor Ty} {ws : List (PatternStack Ty)}

/-- A row with columns matches vectors with a first value only. -/
lemma PatternStack.exists_cons_of_matches_apply {w : PatternStack Ty} {goalTy : Ty}
    {xs : List (Value V.Obj)} (h : (w.apply ctor goalTy).Matches V xs) :
    ∃ x xs', xs = x :: xs' := by
  unfold PatternStack.Matches at h
  rw [columns_apply] at h
  cases h with
  | cons _ _ => exact ⟨_, _, rfl⟩

lemma Specialized.sound
    (h : Specialized T (Covering V) (ctor.argTypes T ty ++ tys) m v ctor ws)
    (hcolumns : SameColumns T ty tys m v head) (hfits : ctor.Fits T ty)
    (hhead : head.ctor = .WILDCARD ∨ head.ctor = ctor) (hmakes : ctor.Makes T ty head.goalTy) :
    ∀ w ∈ ws, ∀ xs, w.Matches V xs → v.Matches V xs ∨ m.Matches V xs := by
  cases h with
  | search hhead' hm hv hws =>
    obtain rfl := Option.some.inj (hcolumns.head.symm.trans hhead')
    intro w hw xs hmatch
    obtain ⟨w', hw', rfl⟩ := List.mem_map.mp hw
    obtain ⟨x, xs, rfl⟩ := PatternStack.exists_cons_of_matches_apply hmatch
    obtain ⟨args, hbuilds, hlength, hmatch⟩ :=
      (PatternStack.matches_apply_iff (hws.typed w' hw') hfits hmakes).mp hmatch
    rcases hws.sound w' hw' _ hmatch with hvec | hmatrix
    · left
      exact (PatternStack.matches_specialize_iff hhead' hcolumns.typedHead hv hfits
        (Constructor.isCoveredBy_or_eq hhead) hbuilds hlength).mp hvec
    · right
      exact Matrix.matches_of_specialize hcolumns.matrix hm hfits hbuilds hlength hmatrix

/-- A value that the constructor makes is covered by the search for the constructor. -/
lemma Specialized.covers {x : Value V.Obj} {xs args : List (Value V.Obj)}
    (h : Specialized T (Covering V) (ctor.argTypes T ty ++ tys) m v ctor ws)
    (hcolumns : SameColumns T ty tys m v head) (hfits : ctor.Fits T ty)
    (hhead : head.ctor = .WILDCARD ∨ head.ctor = ctor) (hmakes : ctor.Makes T ty head.goalTy)
    (hapart : V.SealedApart ∨ v.Simple) (hx : HasType V x ty) (hxs : List.Forall₂ (HasType V) xs tys)
    (hbuilds : ctor.Builds V x args) (hmatch : v.Matches V (x :: xs)) :
    m.Matches V (x :: xs) ∨ ∃ w ∈ ws, w.Matches V (x :: xs) := by
  cases h with
  | search hhead' hm hv hws =>
    obtain rfl := Option.some.inj (hcolumns.head.symm.trans hhead')
    have hargs := hasType_args hx hfits hbuilds
    have hlength : args.length = ctor.arity :=
      hargs.length_eq.trans (Constructor.length_argTypes hfits)
    have hmatch' := (PatternStack.matches_specialize_iff hhead' hcolumns.typedHead hv hfits
      (Constructor.isCoveredBy_or_eq hhead) hbuilds hlength).mpr hmatch
    have hapart' := hapart.imp_right fun hsimple => hsimple.specialize hhead' hv
    rcases hws.covers hapart' _ (List.rel_append hargs hxs) hmatch' with hmatrix | ⟨w, hw, hmatch⟩
    · left
      exact Matrix.matches_of_specialize hcolumns.matrix hm hfits hbuilds hlength hmatrix
    · right
      refine ⟨w.apply ctor head.goalTy, List.mem_map_of_mem hw, ?_⟩
      exact (PatternStack.matches_apply_iff (hws.typed w hw) hfits hmakes).mpr
        ⟨args, hbuilds, hlength, hmatch⟩

lemma Specialized.mono {Q Q' : SearchProperty Ty} {tys' : List Ty}
    (hQ : ∀ tys m v ws, Q tys m v ws → Q' tys m v ws) (h : Specialized T Q tys' m v ctor ws) :
    Specialized T Q' tys' m v ctor ws := by
  cases h with
  | search hhead hm hv hws => exact .search hhead hm hv (hQ _ _ _ _ hws)

/-- The search for a constructor has typed witnesses. -/
lemma Specialized.covering_typed
    (h : Specialized T (Covering V) (ctor.argTypes T ty ++ tys) m v ctor ws)
    (hcolumns : SameColumns T ty tys m v head) (hfits : ctor.Fits T ty)
    (hmakes : ctor.Makes T ty head.goalTy) : ∀ w ∈ ws, w.Typed T (ty :: tys) :=
  Specialized.typed (h.mono fun _ _ _ _ hQ => hQ.typed) hcolumns.head hfits hmakes

end Specialized

/-! ## Alternatives -/

/-- The searches for the alternatives cover what some alternative matches. -/
lemma Alternatives.covering {tys : List Ty} {m : Matrix Ty} {vs ws : List (PatternStack Ty)}
    (h : Alternatives T (Covering V) tys m vs ws) :
    (∀ w ∈ ws, w.Typed T tys) ∧
    (∀ w ∈ ws, ∀ xs, w.Matches V xs → (∃ v ∈ vs, v.Matches V xs) ∨ m.Matches V xs) ∧
    (V.SealedApart ∨ (∀ v ∈ vs, v.Simple) → ∀ xs, List.Forall₂ (HasType V) xs tys →
      (∃ v ∈ vs, v.Matches V xs) → m.Matches V xs ∨ ∃ w ∈ ws, w.Matches V xs) := by
  induction h with
  | nil =>
    refine ⟨fun w hw => absurd hw List.not_mem_nil, fun w hw => absurd hw List.not_mem_nil, ?_⟩
    rintro - xs - ⟨v, hv, -⟩
    exact absurd hv List.not_mem_nil
  | cons _ _ hhead _ ih =>
    rename_i m v vs ws ws' _ _ _
    obtain ⟨htyped, hsound, hcovers⟩ := ih
    have happend (xs : List (Value V.Obj)) : (m.appendRows ws).Matches V xs ↔
        m.Matches V xs ∨ ∃ w ∈ ws, w.Matches V xs := Matrix.matches_appendRows_iff
    refine ⟨fun w hw => ?_, fun w hw xs hmatch => ?_, fun hapart xs hxs => ?_⟩
    · rcases List.mem_append.mp hw with hw | hw
      · exact hhead.typed w hw
      · exact htyped w hw
    · have hfirst (w : PatternStack Ty) (hw : w ∈ ws) (hmatch : w.Matches V xs) :
          (∃ v' ∈ v :: vs, v'.Matches V xs) ∨ m.Matches V xs := by
        rcases hhead.sound w hw xs hmatch with hvec | hmatrix
        · exact Or.inl ⟨v, List.mem_cons_self, hvec⟩
        · exact Or.inr hmatrix
      rcases List.mem_append.mp hw with hw | hw
      · exact hfirst w hw hmatch
      · rcases hsound w hw xs hmatch with ⟨v', hv', hvec⟩ | hmatrix
        · exact Or.inl ⟨v', List.mem_cons_of_mem v hv', hvec⟩
        · rcases (happend xs).mp hmatrix with hmatrix | ⟨w', hw', hmatch'⟩
          · exact Or.inr hmatrix
          · exact hfirst w' hw' hmatch'
    · have hboth (h : m.Matches V xs ∨ ∃ w ∈ ws, w.Matches V xs) :
          m.Matches V xs ∨ ∃ w ∈ ws ++ ws', w.Matches V xs := by
        rcases h with hmatrix | ⟨w, hw, hmatch⟩
        · exact Or.inl hmatrix
        · exact Or.inr ⟨w, List.mem_append_left ws' hw, hmatch⟩
      rintro ⟨v', hv', hmatch⟩
      rcases List.mem_cons.mp hv' with rfl | hv'
      · exact hboth (hhead.covers (hapart.imp_right fun h => h v' List.mem_cons_self) xs hxs hmatch)
      · have hapart' := hapart.imp_right fun h v' hv' => h v' (List.mem_cons_of_mem v hv')
        rcases hcovers hapart' xs hxs ⟨v', hv', hmatch⟩ with hmatrix | ⟨w, hw, hmatch⟩
        · exact hboth ((happend xs).mp hmatrix)
        · exact Or.inr ⟨w, List.mem_append_right ws hw, hmatch⟩

/-! ## The rules -/

lemma exists_cons_of_typed {ty : Ty} {tys : List Ty} {xs : List (Value V.Obj)}
    (h : List.Forall₂ (HasType V) xs (ty :: tys)) :
    ∃ x xs', xs = x :: xs' ∧ HasType V x ty ∧ List.Forall₂ (HasType V) xs' tys := by
  cases h with
  | cons hx hxs => exact ⟨_, _, rfl, hx, hxs⟩

/-- The search for the constructor of the head has the property if the specialized search has. -/
lemma covering_of_specialized {ty : Ty} {tys : List Ty} {m : Matrix Ty} {v : PatternStack Ty}
    {head : DestructedPattern Ty} {ws : List (PatternStack Ty)}
    (hcolumns : SameColumns T ty tys m v head) (hor : ∀ n, head.ctor ≠ .OR n)
    (h : Specialized T (Covering V) (head.ctor.argTypes T ty ++ tys) m v head.ctor ws) :
    Covering V (ty :: tys) m v ws := by
  have hfits := hcolumns.typedHead.fits hor
  have hmakes := hcolumns.typedHead.makes hor
  refine ⟨h.covering_typed hcolumns hfits hmakes, h.sound hcolumns hfits (Or.inr rfl) hmakes,
    fun hapart xs hxs hmatch => ?_⟩
  obtain ⟨x, xs, rfl, hx, hxs⟩ := exists_cons_of_typed hxs
  obtain ⟨hhead, -⟩ := (PatternStack.matches_cons_iff hcolumns.head).mp hmatch
  obtain ⟨args, hbuilds, -⟩ := (matches_iff_builds hcolumns.typedHead hor).mp hhead
  exact h.covers hcolumns hfits (Or.inr rfl) hmakes hapart hx hxs hbuilds hmatch

/-- The searches for the constructors of the type cover what the wildcard matches. -/
lemma covering_of_split {ty : Ty} {tys : List Ty} {m : Matrix Ty} {v : PatternStack Ty}
    {head : DestructedPattern Ty} {wss : List (List (PatternStack Ty))}
    (hcolumns : SameColumns T ty tys m v head) (hhead : head.ctor = .WILDCARD)
    (hmissing : m.missingAll = false)
    (h : List.Forall₂ (fun ctor ws => Specialized T (Covering V) (ctor.argTypes T ty ++ tys) m v
      ctor ws) (splitWildcard T ty m) wss) : Covering V (ty :: tys) m v wss.flatten := by
  obtain ⟨hgoal, -⟩ := hcolumns.typedHead.goalTy_of_wildcard hhead
  have hmakes {ctor : Constructor Ty} (hctor : ctor ∈ splitWildcard T ty m) :
      ctor.Makes T ty head.goalTy := hgoal.symm ▸ makes_of_mem_splitWildcard hmissing hctor
  refine ⟨fun w hw => ?_, fun w hw => ?_, fun hapart xs hxs hmatch => ?_⟩
  · obtain ⟨ws, hws, hw⟩ := List.mem_flatten.mp hw
    obtain ⟨ctor, hctor, hspecialized⟩ := exists_mem_left h hws
    exact Specialized.covering_typed hspecialized hcolumns (fits_of_mem_splitWildcard hctor)
      (hmakes hctor) w hw
  · obtain ⟨ws, hws, hw⟩ := List.mem_flatten.mp hw
    obtain ⟨ctor, hctor, hspecialized⟩ := exists_mem_left h hws
    exact Specialized.sound hspecialized hcolumns (fits_of_mem_splitWildcard hctor)
      (Or.inl hhead) (hmakes hctor) w hw
  · obtain ⟨x, xs, rfl, hx, hxs⟩ := exists_cons_of_typed hxs
    obtain ⟨ctor, hctor, args, hbuilds⟩ := exists_ctor hmissing hx
    obtain ⟨ws, hws, hspecialized⟩ := exists_mem_right h hctor
    rcases Specialized.covers hspecialized hcolumns (fits_of_mem_splitWildcard hctor)
      (Or.inl hhead) (hmakes hctor) hapart hx hxs hbuilds hmatch with hmatrix | ⟨w, hw, hmatch⟩
    · exact Or.inl hmatrix
    · exact Or.inr ⟨w, List.mem_flatten.mpr ⟨ws, hws, hw⟩, hmatch⟩

/-- A search without witnesses has the property if the matrix matches what the stack matches. -/
lemma covering_nil {tys : List Ty} {m : Matrix Ty} {v : PatternStack Ty}
    (h : V.SealedApart ∨ v.Simple → ∀ xs, List.Forall₂ (HasType V) xs tys → v.Matches V xs →
      m.Matches V xs) : Covering V tys m v [] where
  typed := fun _ hw => absurd hw List.not_mem_nil
  sound := fun _ hw => absurd hw List.not_mem_nil
  covers hapart xs hxs hmatch := Or.inl (h hapart xs hxs hmatch)

lemma covering_emptyStack {m : Matrix Ty} {v : PatternStack Ty} (hm : m.Typed T [])
    (hv : v.Typed T []) : Covering V [] m v (if m.isEmpty then [⟨[]⟩] else []) := by
  have hnil {s : PatternStack Ty} (hs : s.Typed T []) : s.Matches V [] := by
    unfold PatternStack.Matches
    rw [hs.nil]
    exact .nil
  split_ifs with hempty
  · have hwitness : (⟨[]⟩ : PatternStack Ty).Typed T [] := List.Forall₂.nil
    refine ⟨fun w hw => ?_, fun w hw xs hmatch => ?_, fun _ xs hxs _ => ?_⟩
    · rw [List.mem_singleton.mp hw]
      exact hwitness
    · rw [List.mem_singleton.mp hw] at hmatch
      obtain rfl := List.forall₂_nil_left_iff.mp hmatch
      exact Or.inl (hnil hv)
    · obtain rfl := List.forall₂_nil_right_iff.mp hxs
      exact Or.inr ⟨⟨[]⟩, List.mem_singleton_self _, hnil hwitness⟩
  · refine covering_nil fun _ xs hxs _ => ?_
    obtain rfl := List.forall₂_nil_right_iff.mp hxs
    obtain ⟨row, hrow⟩ := List.exists_mem_of_ne_nil m.rows (mt List.isEmpty_iff.mpr hempty)
    exact ⟨row, hrow, hnil (hm row hrow)⟩

theorem coveringRules : SearchRules T (Covering V) where
  emptyStack := covering_emptyStack
  singleRow hm _ hsingle := covering_nil fun _ _ hxs _ => matrix_matches_of_singleRow hm hsingle hxs
  unreachable {ty tys m v head} hcolumns hunreachable := by
    refine covering_nil fun hapart xs hxs hmatch => ?_
    obtain ⟨x, xs, rfl, hx, -⟩ := exists_cons_of_typed hxs
    obtain ⟨hhead, -⟩ := (PatternStack.matches_cons_iff hcolumns.head).mp hmatch
    cases hcolumns.typedHead with
    | type =>
      rcases hapart with hapart | hsimple
      · cases hhead with
        | type hinstance => exact absurd hinstance (hapart _ ty _ x hunreachable hx)
      · obtain ⟨htype, -, -⟩ := hsimple _ (PatternStack.mem_columns_of_head hcolumns.head)
        exact absurd rfl (htype _)
    | _ => exact absurd hunreachable (by simp [DestructedPattern.isUnreachableTypePattern,
        DestructedPattern.ctor])
  headsAllWildcard {ty tys m v head ws} hcolumns hhead _ hws := by
    refine covering_of_specialized hcolumns (by simp [hhead]) ?_
    rw [hhead]
    exact hws
  tuple {ty tys m v head v' typeArgs ws} hcolumns hhead _ hshape _ hcolumns' hws := by
    have hsame {x : Value V.Obj} {xs : List (Value V.Obj)} (hx : HasType V x ty) :
        v.Matches V (x :: xs) ↔ v'.Matches V (x :: xs) :=
      PatternStack.matches_iff_of_tail hcolumns.head hcolumns'
        (iff_of_true (matches_of_wildcard hhead) (matches_wildcardTuple hx hshape))
    refine ⟨hws.typed, fun w hw xs hmatch => ?_, fun hapart xs hxs hmatch => ?_⟩
    · rcases hws.sound w hw xs hmatch with hvec | hmatrix
      · left
        unfold PatternStack.Matches at hvec ⊢
        rw [hcolumns'] at hvec
        rw [PatternStack.columns_eq_cons hcolumns.head]
        cases hvec with
        | cons _ hrest => exact .cons (matches_of_wildcard hhead) hrest
      · exact Or.inr hmatrix
    · obtain ⟨x, xs, rfl, hx, -⟩ := exists_cons_of_typed hxs
      have hapart' := hapart.imp_right fun hsimple =>
        hsimple.replace hcolumns' (DestructedPattern.simple_wildcardTuple typeArgs ty)
      exact hws.covers hapart' _ hxs ((hsame hx).mp hmatch)
  split hcolumns hhead hwild _ hwss :=
    covering_of_split hcolumns hhead (missingAll_of_headsAllWildcard hcolumns.matrix hwild) hwss
  or {ty tys m v head numArgs ws} hcolumns hhead hws := by
    obtain ⟨htyped, hsound, hcovers⟩ := hws.covering
    refine ⟨htyped, fun w hw xs hmatch => ?_, fun hapart xs hxs hmatch => ?_⟩
    · rcases hsound w hw xs hmatch with ⟨v', hv', hvec⟩ | hmatrix
      · left
        obtain ⟨x, xs, rfl⟩ : ∃ x xs', xs = x :: xs' := by
          obtain ⟨p, -, rfl⟩ := (PatternStack.mem_expandOr hcolumns.head).mp hv'
          unfold PatternStack.Matches at hvec
          rw [PatternStack.columns_replaceHead] at hvec
          cases hvec with
          | cons _ _ => exact ⟨_, _, rfl⟩
        exact (PatternStack.matches_iff_expandOr hcolumns.head hhead).mpr ⟨v', hv', hvec⟩
      · exact Or.inr hmatrix
    · obtain ⟨x, xs, rfl, -⟩ := exists_cons_of_typed hxs
      exact hcovers (hapart.imp_right fun hsimple => hsimple.expandOr hcolumns.head) _ hxs
        ((PatternStack.matches_iff_expandOr hcolumns.head hhead).mp hmatch)
  coveredType {ty tys m v v' head patternTy} hcolumns _ hcolumns' _ hws := by
    refine covering_nil fun hapart xs hxs hmatch => ?_
    have hmatch' : v'.Matches V xs := by
      obtain ⟨x, xs, rfl, -⟩ := exists_cons_of_typed hxs
      obtain ⟨-, hrest⟩ := (PatternStack.matches_cons_iff hcolumns.head).mp hmatch
      unfold PatternStack.Matches
      rw [hcolumns']
      exact .cons .wildcard hrest
    have hapart' := hapart.imp_right fun hsimple =>
      hsimple.replace hcolumns' (DestructedPattern.simple_wildcard ty)
    rcases hws.covers hapart' xs hxs hmatch' with hmatrix | ⟨w, hw, -⟩
    · exact hmatrix
    · exact absurd hw List.not_mem_nil
  ctor hcolumns _ hor hws := covering_of_specialized hcolumns hor hws

/-- What a search returns covers what the stack matches beyond the matrix. -/
theorem covering_findWitnesses {tys : List Ty} {fuel : ℕ} {m : Matrix Ty} {v : PatternStack Ty}
    {found : Found Ty} (hm : m.Typed T tys) (hv : v.Typed T tys)
    (h : findWitnesses T fuel m v = some found) : Covering V tys m v found.witnesses :=
  coveringRules.holds_findWitnesses fuel tys m v found hm hv h

end Cangjie.PatternUsefulness
