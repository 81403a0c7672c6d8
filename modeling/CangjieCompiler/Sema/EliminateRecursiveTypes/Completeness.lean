import CangjieCompiler.Sema.EliminateRecursiveTypes.Elimination
import Mathlib.Data.List.Forall2
import Mathlib.Data.String.Basic

/-!
# Completeness of the elimination

After the elimination, a declaration contains another one by value exactly when it did before and
was not boxed, or holds it in a tuple of a tuple, where boxing does not reach.  So the elimination
is complete except for cycles all of whose boxed arcs are such.
-/

namespace Cangjie.EliminateRecursiveTypes

open Graph

variable {δ : Type} [LinearOrder δ]

/-- Declarations as they are written, in which no enum is boxed. -/
structure WrittenDecls (δ : Type) [LinearOrder δ] where
  decls : OrderedMap δ (Decl δ)
  written : ∀ u d, decls.find? u = some d → ∀ t ∈ d.fieldTys, t.hasRefEnum = false

/-! ## What is asked of the elimination -/

/-- A declaration contains another one by value. -/
def Contains (decls : OrderedMap δ (Decl δ)) (u v : δ) : Prop :=
  ∃ d, decls.find? u = some d ∧ ∃ t ∈ d.fieldTys, v ∈ t.byValue

/-- A field is on a cycle of containment through an enum. -/
def OnCycle (decls : OrderedMap δ (Decl δ)) (u : δ) (t : Ty δ) : Prop :=
  ∃ v ∈ t.byValue, ∃ e, isEnumDecl decls e = true ∧
    Relation.ReflTransGen (Contains decls) v e ∧ Relation.ReflTransGen (Contains decls) e u

/-- No cycle of containment through an enum is left, and the types outside of such cycles are as
they were. -/
structure Eliminated (decls decls' : OrderedMap δ (Decl δ)) : Prop where
  acyclic : ∀ e, isEnumDecl decls' e = true → ¬ Relation.TransGen (Contains decls') e e
  kept : ∀ u d, decls.find? u = some d → ∃ d', decls'.find? u = some d' ∧ d'.isEnum = d.isEnum ∧
    List.Forall₂ (fun e e' => e'.1 = e.1 ∧ (e'.2 = e.2 ∨ (e.1 = true ∧ OnCycle decls u e.2)))
      d.tys d'.tys

/-! ## What the elimination does -/

/-- The elimination boxes an enum in a declaration. -/
def Boxed (decls : OrderedMap δ (Decl δ)) (u v : δ) : Prop :=
  ∃ sccs, (ofDecls (isEnumDecl decls) decls).stronglyConnectedComponents (isEnumDecl decls) =
    some sccs ∧ ∃ scc ∈ sccs, Boxes (isEnumDecl decls) scc u v

/-- A declaration holds another one in a tuple that is an element of a tuple. -/
def Nested (decls : OrderedMap δ (Decl δ)) (u v : δ) : Prop :=
  ∃ d, decls.find? u = some d ∧ ∃ t ∈ d.fieldTys, v ∈ t.nested

/-- A containment stays: nothing is boxed there, or not everywhere. -/
def Stays (decls : OrderedMap δ (Decl δ)) (u v : δ) : Prop :=
  Contains decls u v ∧ (Boxed decls u v → Nested decls u v)

section Elimination

variable (pkg : WrittenDecls δ)

/-- The arcs of the graph are the containments. -/
lemma mem_out_ofDecls (isEnum : δ → Bool) {u v : δ} :
    v ∈ (ofDecls isEnum pkg.decls).out u ↔ Contains pkg.decls u v := by
  refine (ofDecls_spec pkg.decls u v).2.trans (exists_congr fun d => and_congr_right fun hd => ?_)
  refine exists_congr fun t => and_congr_right fun ht => ?_
  rw [Ty.mentions_eq_byValue t (pkg.written u d hd t ht)]

lemma wf_ofDecls (isEnum : δ → Bool) (decls : OrderedMap δ (Decl δ)) :
    WF isEnum (ofDecls isEnum decls) :=
  (foldl_iff (I := WF isEnum) (Q := fun _ => True) (A := fun _ => True)
    (fun _ e _ hg => ⟨(addArcsAll_spec e.1 e.1 e.1 e.2.fieldTys hg).1,
      iff_of_true trivial (Or.inl trivial)⟩) wf_empty).1

/-- The elimination ends, and boxes the enums in the fields of the declarations. -/
lemma performRecursiveTypesElimination_spec (decls : OrderedMap δ (Decl δ)) :
    ∃ (decls' : OrderedMap δ (Decl δ)) (es : δ → List δ),
      performRecursiveTypesElimination decls = some decls' ∧
        (∀ u v, v ∈ es u ↔ Boxed decls u v) ∧
        ∀ u, decls'.find? u = (decls.find? u).map (boxAllIn (es u)) := by
  have hout := (wf_ofDecls (isEnumDecl decls) decls).toOutWF
  obtain ⟨parts, sccs, hsccs, hparts⟩ :=
    stronglyConnectedComponents_spec (isEnumDecl decls) hout
  have hwf : ∀ scc ∈ sccs.reverse,
      WF (isEnumDecl decls) scc ∧ scc.vertices.elems ≠ [] :=
    fun scc hscc => hparts.wf_nonempty hout (List.mem_reverse.mp hscc)
  have hsteps : steps sccs.reverse <
      2 * (ofDecls (isEnumDecl decls) decls).vertices.elems.length + 1 := by
    rw [steps_reverse]
    exact Nat.lt_succ_of_le (hparts.steps_le hout)
  obtain ⟨decls', es, hrun, hes, hfind⟩ := eliminateLoop_spec _ decls hwf hsteps
  refine ⟨decls', es, ?_, fun u v => (hes u v).trans ?_, hfind⟩
  · rw [performRecursiveTypesElimination, hsccs, Option.bind_some, hrun]
  · constructor
    · rintro ⟨scc, hscc, hbox⟩
      exact ⟨sccs, hsccs, scc, List.mem_reverse.mp hscc, hbox⟩
    · rintro ⟨sccs', hsccs', scc, hscc, hbox⟩
      obtain rfl := Option.some.inj (hsccs.symm.trans hsccs')
      exact ⟨scc, List.mem_reverse.mpr hscc, hbox⟩

/-- What is contained after the elimination. -/
lemma contains_iff_stays {decls decls' : OrderedMap δ (Decl δ)}
    (hrun : performRecursiveTypesElimination decls = some decls') (u v : δ) :
    Contains decls' u v ↔ Stays decls u v := by
  obtain ⟨decls'', es, hrun', hes, hfind⟩ := performRecursiveTypesElimination_spec decls
  obtain rfl := Option.some.inj (hrun.symm.trans hrun')
  rw [Contains, hfind, Stays, ← hes]
  have hfield : ∀ {d : Decl δ} {t : Ty δ}, t ∈ (boxAllIn (es u) d).fieldTys ↔
      ∃ t₀ ∈ d.fieldTys, boxAll (es u) t₀ = t := by
    intro d t
    rw [Decl.mem_fieldTys, tys_boxAllIn, List.mem_map]
    constructor
    · rintro ⟨⟨c, t₀⟩, hmem, heq⟩
      obtain ⟨hfield, htype⟩ := Prod.mk.inj heq
      obtain rfl : c = true := hfield
      exact ⟨t₀, Decl.mem_fieldTys.mpr hmem, htype⟩
    · rintro ⟨t₀, hmem, rfl⟩
      exact ⟨(true, t₀), Decl.mem_fieldTys.mp hmem, rfl⟩
  constructor
  · rintro ⟨d', hd', t, ht, hv⟩
    obtain ⟨d, hd, rfl⟩ := Option.map_eq_some_iff.mp hd'
    obtain ⟨t₀, ht₀, rfl⟩ := hfield.mp ht
    obtain ⟨hmem, hnested⟩ := (mem_byValue_boxAll t₀).mp hv
    exact ⟨⟨d, hd, t₀, ht₀, hmem⟩, fun hbox => ⟨d, hd, t₀, ht₀, hnested hbox⟩⟩
  · rintro ⟨⟨d, hd, t₀, ht₀, hmem⟩, hstay⟩
    have hcontained : ∃ t ∈ d.fieldTys, v ∈ t.byValue ∧ (v ∈ es u → v ∈ t.nested) := by
      by_cases hbox : v ∈ es u
      · obtain ⟨d', hd', t, ht, hv⟩ := hstay hbox
        obtain rfl := Option.some.inj (hd.symm.trans hd')
        exact ⟨t, ht, Ty.byValue_of_nested hv, fun _ => hv⟩
      · exact ⟨t₀, ht₀, hmem, fun h => absurd h hbox⟩
    obtain ⟨t, ht, hv⟩ := hcontained
    refine ⟨boxAllIn (es u) d, by rw [hd, Option.map_some], boxAll (es u) t, ?_, ?_⟩
    · exact hfield.mpr ⟨t, ht, rfl⟩
    · exact (mem_byValue_boxAll t).mpr hv

lemma isEnumDecl_of_run {decls decls' : OrderedMap δ (Decl δ)}
    (hrun : performRecursiveTypesElimination decls = some decls') (v : δ) :
    isEnumDecl decls' v = isEnumDecl decls v := by
  obtain ⟨decls'', es, hrun', -, hfind⟩ := performRecursiveTypesElimination_spec decls
  obtain rfl := Option.some.inj (hrun.symm.trans hrun')
  rw [isEnumDecl, isEnumDecl, hfind]
  cases decls.find? v with
  | none => rfl
  | some d => exact isEnum_boxAllIn (es v) d

/-- An enum is boxed only where it is on a cycle. -/
lemma Boxed.reach {u v : δ} (h : Boxed pkg.decls u v) :
    isEnumDecl pkg.decls v = true ∧ Relation.ReflTransGen (Contains pkg.decls) v u := by
  obtain ⟨sccs, hsccs, scc, hscc, hbox⟩ := h
  obtain ⟨parts, sccs', hrun, hparts⟩ := stronglyConnectedComponents_spec (isEnumDecl pkg.decls)
    (wf_ofDecls (isEnumDecl pkg.decls) pkg.decls).toOutWF
  obtain rfl := Option.some.inj (hsccs.symm.trans hrun)
  obtain ⟨c, hc, rfl, hwf⟩ := hparts.wf_of_mem hscc
  obtain ⟨hv, henum⟩ := hbox.arc hwf
  obtain ⟨-, huc, hvc⟩ := (@subGraph_spec δ _ (isEnumDecl pkg.decls) _ c u v).2.mp hv
  refine ⟨henum, ?_⟩
  exact Relation.ReflTransGen.mono (fun x y hy => (mem_out_ofDecls pkg _).mp hy) _ _
    ((hparts.scc c hc u huc v).mp hvc).2

/-- Types outside of cycles through enums are as they were. -/
lemma kept_of_run {decls' : OrderedMap δ (Decl δ)}
    (hrun : performRecursiveTypesElimination pkg.decls = some decls') (u : δ) (d : Decl δ)
    (hd : pkg.decls.find? u = some d) :
    ∃ d', decls'.find? u = some d' ∧ d'.isEnum = d.isEnum ∧
      List.Forall₂ (fun e e' =>
        e'.1 = e.1 ∧ (e'.2 = e.2 ∨ (e.1 = true ∧ OnCycle pkg.decls u e.2))) d.tys d'.tys := by
  obtain ⟨decls'', es, hrun', hes, hfind⟩ := performRecursiveTypesElimination_spec pkg.decls
  obtain rfl := Option.some.inj (hrun.symm.trans hrun')
  refine ⟨boxAllIn (es u) d, by rw [hfind, hd, Option.map_some], isEnum_boxAllIn (es u) d, ?_⟩
  rw [tys_boxAllIn, List.forall₂_map_right_iff, List.forall₂_same]
  rintro ⟨isField, t⟩ -
  refine ⟨rfl, ?_⟩
  cases isField with
  | false => exact Or.inl rfl
  | true =>
    by_cases hcycle : OnCycle pkg.decls u t
    · exact Or.inr ⟨rfl, hcycle⟩
    · refine Or.inl (boxAll_eq_self fun v hv hmem => hcycle ⟨v, hmem, v, ?_⟩)
      obtain ⟨henum, hreach⟩ := Boxed.reach pkg ((hes u v).mp hv)
      exact ⟨henum, .refl, hreach⟩

/-- The elimination is complete iff no cycle of containment through an enum stays. -/
theorem eliminated_iff :
    (∃ decls', performRecursiveTypesElimination pkg.decls = some decls' ∧
      Eliminated pkg.decls decls') ↔
    ∀ e, isEnumDecl pkg.decls e = true → ¬ Relation.TransGen (Stays pkg.decls) e e := by
  obtain ⟨decls', es, hrun, -, -⟩ := performRecursiveTypesElimination_spec pkg.decls
  have hstays : Contains decls' = Stays pkg.decls := by
    funext u v
    exact propext (contains_iff_stays hrun u v)
  constructor
  · rintro ⟨decls'', hrun', helim⟩ e he
    obtain rfl := Option.some.inj (hrun.symm.trans hrun')
    rw [← hstays]
    exact helim.acyclic e ((isEnumDecl_of_run hrun e).trans he)
  · intro hno
    refine ⟨decls', hrun, fun e he => ?_, kept_of_run pkg hrun⟩
    rw [hstays]
    exact hno e ((isEnumDecl_of_run hrun e).symm.trans he)

/-- Every cycle of containment through an enum has a place where an enum is boxed. -/
theorem not_stays_cycle (h : ∀ u v, Nested pkg.decls u v → isEnumDecl pkg.decls v = true →
      ¬ Relation.ReflTransGen (Contains pkg.decls) v u) {e : δ}
    (he : isEnumDecl pkg.decls e = true) : ¬ Relation.TransGen (Stays pkg.decls) e e := by
  intro hcycle
  have hwf := wf_ofDecls (isEnumDecl pkg.decls) pkg.decls
  obtain ⟨parts, sccs, hsccs, hparts⟩ :=
    stronglyConnectedComponents_spec (isEnumDecl pkg.decls) hwf.toOutWF
  refine no_cycle_of_components hwf.toOutWF hparts (e := e) (fun scc hscc => ?_)
    (Relation.TransGen.mono (fun u v huv => ?_) _ _ hcycle)
  · exact no_cycle_unboxed _ le_rfl (hparts.wf_nonempty hwf.toOutWF hscc).1 he
  · refine ⟨(mem_out_ofDecls pkg _).mpr huv.1, fun hbox => ?_⟩
    have hboxed : Boxed pkg.decls u v := ⟨sccs, hsccs, hbox⟩
    obtain ⟨henum, hreach⟩ := Boxed.reach pkg hboxed
    exact h u v (huv.2 hboxed) henum hreach

/-- The elimination is complete when no enum is nested in a tuple of a tuple on a cycle. -/
theorem eliminated_of_not_nested
    (h : ∀ u v, Nested pkg.decls u v → isEnumDecl pkg.decls v = true →
      ¬ Relation.ReflTransGen (Contains pkg.decls) v u) :
    ∃ decls', performRecursiveTypesElimination pkg.decls = some decls' ∧
      Eliminated pkg.decls decls' := by
  obtain ⟨decls', es, hrun, -, -⟩ := performRecursiveTypesElimination_spec pkg.decls
  refine ⟨decls', hrun, fun e he hcycle => ?_, kept_of_run pkg hrun⟩
  refine not_stays_cycle pkg h ((isEnumDecl_of_run hrun e).symm.trans he) ?_
  exact Relation.TransGen.mono (fun u v huv => (contains_iff_stays hrun u v).mp huv) _ _ hcycle

end Elimination

/-! ## A cycle through a tuple of a tuple -/

/-- `enum Tree { | Leaf | Node(((Tree, Int64), Int64)) }` -/
def nestedTree : WrittenDecls String where
  decls := OrderedMap.empty.emplace "Tree" (.enumDecl [.varDecl,
    .funcDecl [.tuple [.tuple [.value "Tree", .primitive "Int64"], .primitive "Int64"]]])
  written := by
    intro u d hd t ht
    rw [OrderedMap.find?_emplace] at hd
    split_ifs at hd
    · obtain rfl := Option.some.inj hd
      obtain rfl := List.mem_singleton.mp ht
      rfl
    · exact absurd hd (by simp)

/-- The enum still contains itself. -/
theorem not_eliminated_nestedTree :
    ¬ ∃ decls', performRecursiveTypesElimination nestedTree.decls = some decls' ∧
      Eliminated nestedTree.decls decls' := by
  rintro ⟨decls', hrun, helim⟩
  have henum : isEnumDecl decls' "Tree" = true := isEnumDecl_of_run hrun "Tree"
  refine helim.acyclic "Tree" henum (.single ((contains_iff_stays hrun _ _).mpr ?_))
  have hfind : nestedTree.decls.find? "Tree" = some (.enumDecl [.varDecl,
      .funcDecl [.tuple [.tuple [.value "Tree", .primitive "Int64"], .primitive "Int64"]]]) := rfl
  have hnested : Nested nestedTree.decls "Tree" "Tree" :=
    ⟨_, hfind, _, List.mem_cons_self, List.mem_cons_self⟩
  exact ⟨⟨_, hfind, _, List.mem_cons_self, List.mem_cons_self⟩, fun _ => hnested⟩

end Cangjie.EliminateRecursiveTypes
