import CangjieCompiler.Sema.EliminateRecursiveTypes.Graph

/-!
# What the operations on the graph do

Every operation is described by the arcs it leaves.  A graph is well formed when its two maps of
arcs agree; after an enum is removed only the arcs by source can be relied on, and they are all that
the search for components uses.
-/

namespace Cangjie.EliminateRecursiveTypes

variable {δ : Type} [LinearOrder δ]

namespace Graph

/-- The arcs by source lead from vertices to vertices. -/
structure OutWF (g : Graph δ) : Prop where
  out_keys : ∀ u, (∃ s, g.outEdges.find? u = some s) ↔ u ∈ g.vertices
  target : ∀ u v, v ∈ g.out u → v ∈ g.vertices

/-- The two maps of arcs agree. -/
structure WF (isEnum : δ → Bool) (g : Graph δ) : Prop extends OutWF g where
  in_keys : ∀ v, (∃ s, g.enumInEdges.find? v = some s) ↔ v ∈ g.vertices ∧ isEnum v = true
  in_iff : ∀ u v, u ∈ g.inEdges v ↔ isEnum v = true ∧ v ∈ g.out u

variable {isEnum : δ → Bool} {g : Graph δ}

lemma OutWF.source (h : OutWF g) {u v : δ} (hv : v ∈ g.out u) : u ∈ g.vertices := by
  rw [← h.out_keys u]
  rw [out, OrderedMap.valueD] at hv
  cases hfind : g.outEdges.find? u with
  | none =>
    rw [hfind] at hv
    exact absurd hv List.not_mem_nil
  | some s => exact ⟨s, rfl⟩

lemma wf_empty : WF isEnum (empty : Graph δ) where
  out_keys u := iff_of_false (by simp [empty]) (OrderedSet.not_mem_empty u)
  target _ _ h := absurd h List.not_mem_nil
  in_keys v := iff_of_false (by simp [empty]) fun h => OrderedSet.not_mem_empty v h.1
  in_iff _ _ := iff_of_false List.not_mem_nil fun h => List.not_mem_nil h.2

/-! ## Adding -/

lemma out_addVertex (v u : δ) : (g.addVertex isEnum v).out u = g.out u :=
  congrArg OrderedSet.elems (OrderedMap.valueD_emplace _ _ _ _)

lemma mem_vertices_addVertex {v u : δ} :
    u ∈ (g.addVertex isEnum v).vertices ↔ u = v ∨ u ∈ g.vertices :=
  OrderedSet.mem_insert

lemma inEdges_addVertex (v u : δ) : (g.addVertex isEnum v).inEdges u = g.inEdges u := by
  rw [inEdges, addVertex]
  dsimp only
  split_ifs
  · exact OrderedMap.valueD_emplace _ _ _ _
  · rfl

lemma exists_find?_emplace {κ β : Type} [LinearOrder κ] {m : OrderedMap κ β} {k k' : κ} {v : β} :
    (∃ s, (m.emplace k v).find? k' = some s) ↔ k' = k ∨ ∃ s, m.find? k' = some s := by
  rw [OrderedMap.find?_emplace]
  by_cases h : k = k'
  · rw [if_pos h]
    exact iff_of_true ⟨_, rfl⟩ (Or.inl h.symm)
  · rw [if_neg h]
    exact (or_iff_right (Ne.symm h)).symm

lemma exists_find?_modify {κ β : Type} [LinearOrder κ] {m : OrderedMap κ β} {k k' : κ}
    {f : β → β} : (∃ s, (m.modify k f).find? k' = some s) ↔ ∃ s, m.find? k' = some s := by
  rw [OrderedMap.find?_modify]
  split_ifs
  · cases m.find? k' <;> simp
  · rfl

lemma WF.addVertex (h : WF isEnum g) (v : δ) : WF isEnum (g.addVertex isEnum v) where
  out_keys u := by
    rw [mem_vertices_addVertex, ← h.out_keys u]
    exact exists_find?_emplace
  target u w hw := by
    rw [out_addVertex] at hw
    exact mem_vertices_addVertex.mpr (Or.inr (h.target u w hw))
  in_keys u := by
    rw [mem_vertices_addVertex]
    rw [Graph.addVertex]
    dsimp only
    by_cases hv : isEnum v = true
    · rw [if_pos hv, exists_find?_emplace, h.in_keys]
      constructor
      · rintro (rfl | ⟨hmem, henum⟩)
        · exact ⟨Or.inl rfl, hv⟩
        · exact ⟨Or.inr hmem, henum⟩
      · rintro ⟨rfl | hmem, henum⟩
        · exact Or.inl rfl
        · exact Or.inr ⟨hmem, henum⟩
    · rw [if_neg hv, h.in_keys]
      constructor
      · rintro ⟨hmem, henum⟩
        exact ⟨Or.inr hmem, henum⟩
      · rintro ⟨rfl | hmem, henum⟩
        · exact absurd henum hv
        · exact ⟨hmem, henum⟩
  in_iff u w := by rw [inEdges_addVertex, out_addVertex, h.in_iff]

lemma mem_vertices_addArc {u v x : δ} :
    x ∈ (g.addArc isEnum u v).vertices ↔ x = v ∨ x = u ∨ x ∈ g.vertices := by
  rw [addArc]
  dsimp only
  rw [mem_vertices_addVertex, mem_vertices_addVertex]

/-- A set in a map of sets with one element more under one key. -/
lemma mem_valueD_modify_insert {m : OrderedMap δ (OrderedSet δ)} {k k' v w : δ}
    (hk : ∃ s, m.find? k = some s) :
    w ∈ (m.modify k fun s => s.insert v).valueD k' OrderedSet.empty ↔
      w ∈ m.valueD k' OrderedSet.empty ∨ (k' = k ∧ w = v) := by
  rw [OrderedMap.valueD_modify]
  by_cases h : k' = k
  · obtain ⟨s, hs⟩ := hk
    rw [if_pos h, h, OrderedMap.valueD, hs, Option.map_some, Option.getD_some, Option.getD_some,
      OrderedSet.mem_insert, or_comm]
    exact or_congr Iff.rfl (and_iff_right rfl).symm
  · rw [if_neg h]
    exact (or_iff_left fun h' => h h'.1).symm

lemma mem_out_addArc (h : WF isEnum g) {u v x w : δ} :
    w ∈ (g.addArc isEnum u v).out x ↔ w ∈ g.out x ∨ (x = u ∧ w = v) := by
  have hwf := (h.addVertex u).addVertex v
  have hu : u ∈ ((g.addVertex isEnum u).addVertex isEnum v).vertices :=
    mem_vertices_addVertex.mpr (Or.inr (mem_vertices_addVertex.mpr (Or.inl rfl)))
  have hold : w ∈ g.out x ↔ w ∈ ((g.addVertex isEnum u).addVertex isEnum v).out x := by
    rw [out_addVertex, out_addVertex]
  rw [hold]
  exact mem_valueD_modify_insert ((hwf.out_keys u).mpr hu)

lemma WF.addArc (h : WF isEnum g) (u v : δ) : WF isEnum (g.addArc isEnum u v) where
  out_keys x := by
    have hwf := (h.addVertex u).addVertex v
    refine Iff.trans exists_find?_modify ((hwf.out_keys x).trans ?_)
    exact Iff.rfl
  target x w hw := by
    rw [mem_vertices_addArc]
    rcases (mem_out_addArc h).mp hw with hold | ⟨-, rfl⟩
    · exact Or.inr (Or.inr (h.target x w hold))
    · exact Or.inl rfl
  in_keys x := by
    have hwf := (h.addVertex u).addVertex v
    refine Iff.trans ?_ ((hwf.in_keys x).trans Iff.rfl)
    rw [Graph.addArc]
    dsimp only
    split_ifs
    · exact exists_find?_modify
    · rfl
  in_iff x w := by
    have hwf := (h.addVertex u).addVertex v
    have hv : v ∈ ((g.addVertex isEnum u).addVertex isEnum v).vertices :=
      mem_vertices_addVertex.mpr (Or.inl rfl)
    rw [mem_out_addArc h, and_or_left, ← h.in_iff]
    have hold : x ∈ g.inEdges w ↔ x ∈ ((g.addVertex isEnum u).addVertex isEnum v).inEdges w := by
      rw [inEdges_addVertex, inEdges_addVertex]
    rw [hold, inEdges, Graph.addArc]
    dsimp only
    by_cases henum : isEnum v = true
    · rw [if_pos henum]
      refine (mem_valueD_modify_insert ((hwf.in_keys v).mpr ⟨hv, henum⟩)).trans ?_
      refine or_congr Iff.rfl ⟨fun ⟨hw, hx⟩ => ?_, fun ⟨_, hx, hw⟩ => ⟨hw, hx⟩⟩
      exact ⟨hw ▸ henum, hx, hw⟩
    · rw [if_neg henum]
      exact (or_iff_left fun ⟨hw, _, heq⟩ => henum (heq ▸ hw)).symm

/-! ## The graph of declarations -/

end Graph

mutual

/-- The declarations a type mentions outside of references, boxed or not. -/
def Ty.mentions : Ty δ → List δ
  | .value v => [v]
  | .refEnum v => [v]
  | .tuple typeArgs => Ty.mentionsAll typeArgs
  | .primitive _ => []
  | .reference _ => []

def Ty.mentionsAll : List (Ty δ) → List δ
  | [] => []
  | t :: ts => t.mentions ++ Ty.mentionsAll ts

end

omit [LinearOrder δ] in
lemma Ty.mentionsAll_eq (ts : List (Ty δ)) : Ty.mentionsAll ts = ts.flatMap Ty.mentions := by
  induction ts with
  | nil => rfl
  | cons t ts ih => rw [Ty.mentionsAll, ih, List.flatMap_cons]

namespace Graph

variable {isEnum : δ → Bool}

mutual

lemma addArcs_spec (u x w : δ) (t : Ty δ) {g : Graph δ} (h : WF isEnum g) :
    WF isEnum (addArcs isEnum u t g) ∧
      (w ∈ (addArcs isEnum u t g).out x ↔ w ∈ g.out x ∨ (x = u ∧ w ∈ t.mentions)) := by
  cases t with
  | value v =>
    rw [addArcs, Ty.mentions, List.mem_singleton]
    exact ⟨h.addArc u v, mem_out_addArc h⟩
  | refEnum v =>
    rw [addArcs, Ty.mentions, List.mem_singleton]
    exact ⟨h.addArc u v, mem_out_addArc h⟩
  | tuple typeArgs =>
    rw [addArcs, Ty.mentions]
    exact addArcsAll_spec u x w typeArgs h
  | primitive _ =>
    rw [addArcs, Ty.mentions]
    exact ⟨h, (or_iff_left fun h' => List.not_mem_nil h'.2).symm⟩
  | reference _ =>
    rw [addArcs, Ty.mentions]
    exact ⟨h, (or_iff_left fun h' => List.not_mem_nil h'.2).symm⟩

lemma addArcsAll_spec (u x w : δ) (ts : List (Ty δ)) {g : Graph δ} (h : WF isEnum g) :
    WF isEnum (addArcsAll isEnum u ts g) ∧
      (w ∈ (addArcsAll isEnum u ts g).out x ↔
        w ∈ g.out x ∨ (x = u ∧ w ∈ Ty.mentionsAll ts)) := by
  cases ts with
  | nil =>
    rw [addArcsAll, Ty.mentionsAll]
    exact ⟨h, (or_iff_left fun h' => List.not_mem_nil h'.2).symm⟩
  | cons t ts =>
    obtain ⟨hwf, hout⟩ := addArcs_spec u x w t h
    obtain ⟨hwf', hout'⟩ := addArcsAll_spec u x w ts hwf
    rw [addArcsAll, Ty.mentionsAll]
    refine ⟨hwf', hout'.trans ?_⟩
    rw [hout, or_assoc, List.mem_append, and_or_left]

end

/-- The arcs are the mentions in fields. -/
lemma ofDecls_spec (decls : OrderedMap δ (Decl δ)) (u v : δ) :
    WF isEnum (ofDecls isEnum decls) ∧ (v ∈ (ofDecls isEnum decls).out u ↔
      ∃ d, decls.find? u = some d ∧ ∃ t ∈ d.fieldTys, v ∈ t.mentions) := by
  obtain ⟨hwf, hout⟩ := foldl_iff (I := WF isEnum) (Q := fun g => v ∈ g.out u)
    (A := fun e : δ × Decl δ => u = e.1 ∧ v ∈ Ty.mentionsAll e.2.fieldTys) (l := decls.entries)
    (fun g e _ hg => addArcsAll_spec e.1 u v e.2.fieldTys hg) wf_empty
  have hnone : v ∉ (empty : Graph δ).out u := List.not_mem_nil
  refine ⟨hwf, hout.trans ?_⟩
  rw [or_iff_right hnone]
  constructor
  · rintro ⟨e, he, rfl, hv⟩
    rw [Ty.mentionsAll_eq, List.mem_flatMap] at hv
    exact ⟨e.2, decls.find?_eq_some_iff.mpr he, hv⟩
  · rintro ⟨d, hd, hv⟩
    refine ⟨(u, d), decls.find?_eq_some_iff.mp hd, rfl, ?_⟩
    rw [Ty.mentionsAll_eq, List.mem_flatMap]
    exact hv

/-! ## Induced parts -/

section SubGraph

variable {g : Graph δ} (subVertices : List δ)

/-- The arcs from one vertex into the induced part. -/
lemma subGraph_targets_spec (u x w : δ) (vs : List δ) {sub : Graph δ} (h : WF isEnum sub) :
    WF isEnum (vs.foldl (fun sub v => if v ∈ subVertices then sub.addArc isEnum u v else sub) sub) ∧
      (w ∈ (vs.foldl (fun sub v =>
          if v ∈ subVertices then sub.addArc isEnum u v else sub) sub).out x ↔
        w ∈ sub.out x ∨ ∃ v ∈ vs, v ∈ subVertices ∧ x = u ∧ w = v) := by
  refine foldl_iff (Q := fun g => w ∈ g.out x) (fun sub v _ hsub => ?_) h
  split_ifs with hv
  · refine ⟨hsub.addArc u v, (mem_out_addArc hsub).trans (or_congr Iff.rfl ?_)⟩
    exact (and_iff_right hv).symm
  · exact ⟨hsub, (or_iff_left fun h' => hv h'.1).symm⟩

/-- The vertices of the induced part that one vertex and its arcs add. -/
lemma subGraph_vertices_spec (u x : δ) (vs : List δ) (sub : Graph δ) :
    x ∈ (vs.foldl (fun sub v => if v ∈ subVertices then sub.addArc isEnum u v else sub)
        (sub.addVertex isEnum u)).vertices ↔
      x ∈ sub.vertices ∨ x = u ∨ (x ∈ vs ∧ x ∈ subVertices) := by
  obtain ⟨-, hiff⟩ := foldl_iff (I := fun _ => True) (Q := fun g : Graph δ => x ∈ g.vertices)
    (A := fun v => v ∈ subVertices ∧ (x = v ∨ x = u)) (l := vs)
    (f := fun sub v => if v ∈ subVertices then sub.addArc isEnum u v else sub)
    (fun sub v _ _ => by
      split_ifs with hv
      · refine ⟨trivial, mem_vertices_addArc.trans ?_⟩
        rw [and_iff_right hv, ← or_assoc, or_comm]
      · exact ⟨trivial, (or_iff_left fun h' => hv h'.1).symm⟩)
    (s := sub.addVertex isEnum u) trivial
  rw [hiff, mem_vertices_addVertex]
  constructor
  · rintro ((rfl | hmem) | ⟨v, hv, hsub, rfl | rfl⟩)
    · exact Or.inr (Or.inl rfl)
    · exact Or.inl hmem
    · exact Or.inr (Or.inr ⟨hv, hsub⟩)
    · exact Or.inr (Or.inl rfl)
  · rintro (hmem | rfl | ⟨hx, hsub⟩)
    · exact Or.inl (Or.inr hmem)
    · exact Or.inl (Or.inl rfl)
    · exact Or.inr ⟨x, hx, hsub, Or.inl rfl⟩

lemma subGraph_spec (u v : δ) :
    WF isEnum (g.subGraph isEnum subVertices) ∧ (v ∈ (g.subGraph isEnum subVertices).out u ↔
      v ∈ g.out u ∧ u ∈ subVertices ∧ v ∈ subVertices) := by
  obtain ⟨hwf, hout⟩ := foldl_iff (I := WF isEnum) (Q := fun g : Graph δ => v ∈ g.out u)
    (A := fun e : δ × OrderedSet δ =>
      e.1 ∈ subVertices ∧ ∃ w ∈ e.2.elems, w ∈ subVertices ∧ u = e.1 ∧ v = w)
    (l := g.outEdges.entries)
    (f := fun sub e => if e.1 ∈ subVertices then
      e.2.elems.foldl (fun sub v => if v ∈ subVertices then sub.addArc isEnum e.1 v else sub)
        (sub.addVertex isEnum e.1) else sub)
    (fun sub e _ hsub => by
      split_ifs with he
      · obtain ⟨hwf, hiff⟩ :=
          subGraph_targets_spec subVertices e.1 u v e.2.elems (hsub.addVertex e.1)
        rw [out_addVertex] at hiff
        exact ⟨hwf, hiff.trans (or_congr Iff.rfl (and_iff_right he).symm)⟩
      · exact ⟨hsub, (or_iff_left fun h' => he h'.1).symm⟩) wf_empty
  have hnone : v ∉ (empty : Graph δ).out u := List.not_mem_nil
  refine ⟨hwf, hout.trans ?_⟩
  rw [or_iff_right hnone]
  constructor
  · rintro ⟨e, he, hesub, w, hw, hwsub, rfl, rfl⟩
    refine ⟨?_, hesub, hwsub⟩
    rw [out, OrderedMap.valueD, g.outEdges.find?_eq_some_iff.mpr he]
    exact hw
  · rintro ⟨hv, husub, hvsub⟩
    rw [out, OrderedMap.valueD] at hv
    cases hfind : g.outEdges.find? u with
    | none =>
      rw [hfind] at hv
      exact absurd hv List.not_mem_nil
    | some s =>
      rw [hfind] at hv
      exact ⟨(u, s), g.outEdges.find?_eq_some_iff.mp hfind, husub, v, hv, hvsub, rfl, rfl⟩

lemma mem_vertices_subGraph (h : OutWF g) (x : δ) :
    x ∈ (g.subGraph isEnum subVertices).vertices ↔ x ∈ g.vertices ∧ x ∈ subVertices := by
  obtain ⟨-, hiff⟩ := foldl_iff (I := fun _ => True) (Q := fun g : Graph δ => x ∈ g.vertices)
    (A := fun e : δ × OrderedSet δ =>
      e.1 ∈ subVertices ∧ (x = e.1 ∨ (x ∈ e.2.elems ∧ x ∈ subVertices)))
    (l := g.outEdges.entries)
    (f := fun sub e => if e.1 ∈ subVertices then
      e.2.elems.foldl (fun sub v => if v ∈ subVertices then sub.addArc isEnum e.1 v else sub)
        (sub.addVertex isEnum e.1) else sub)
    (fun sub e _ _ => by
      split_ifs with he
      · refine ⟨trivial, (subGraph_vertices_spec subVertices e.1 x e.2.elems sub).trans ?_⟩
        exact or_congr Iff.rfl (and_iff_right he).symm
      · exact ⟨trivial, (or_iff_left fun h' => he h'.1).symm⟩) (s := empty) trivial
  have hnone : x ∉ (empty : Graph δ).vertices := OrderedSet.not_mem_empty x
  refine hiff.trans ?_
  rw [or_iff_right hnone]
  constructor
  · rintro ⟨e, he, hesub, rfl | ⟨hx, hsub⟩⟩
    · exact ⟨(h.out_keys e.1).mp ⟨e.2, g.outEdges.find?_eq_some_iff.mpr he⟩, hesub⟩
    · refine ⟨h.target e.1 x ?_, hsub⟩
      rw [out, OrderedMap.valueD, g.outEdges.find?_eq_some_iff.mpr he]
      exact hx
  · rintro ⟨hx, hsub⟩
    obtain ⟨s, hs⟩ := (h.out_keys x).mpr hx
    exact ⟨(x, s), g.outEdges.find?_eq_some_iff.mp hs, hsub, Or.inl rfl⟩

end SubGraph

/-! ## Removing an enum -/

/-- Sets in a map of sets that lose an element. -/
lemma foldl_modify_filter_spec (ed : δ) (us : List δ) (m : OrderedMap δ (OrderedSet δ)) (x w : δ) :
    let m' := us.foldl (fun out u => out.modify u fun s => s.filter fun v => v ≠ ed) m
    ((∃ s, m'.find? x = some s) ↔ ∃ s, m.find? x = some s) ∧
      (w ∈ m'.valueD x OrderedSet.empty ↔
        w ∈ m.valueD x OrderedSet.empty ∧ ¬ (x ∈ us ∧ w = ed)) := by
  induction us generalizing m with
  | nil => exact ⟨Iff.rfl, (and_iff_left fun h => List.not_mem_nil h.1).symm⟩
  | cons u us ih =>
    obtain ⟨hkeys, hmem⟩ := ih (m.modify u fun s => s.filter fun v => v ≠ ed)
    refine ⟨hkeys.trans exists_find?_modify, hmem.trans ?_⟩
    rw [OrderedMap.valueD_modify]
    by_cases hx : x = u
    · rw [if_pos hx, OrderedMap.valueD]
      cases m.find? x with
      | none => simp
      | some s =>
        rw [Option.map_some, Option.getD_some, Option.getD_some, OrderedSet.mem_filter]
        simp only [List.mem_cons, hx, decide_eq_true_eq]
        tauto
    · rw [if_neg hx]
      simp only [List.mem_cons, hx, false_or]

variable {g : Graph δ}

lemma mem_vertices_removeVertex {ed x : δ} :
    x ∈ (g.removeVertex ed).vertices ↔ x ∈ g.vertices ∧ x ≠ ed := by
  rw [removeVertex, OrderedSet.mem_filter, decide_eq_true_eq]

lemma mem_out_removeVertex (h : WF isEnum g) {ed x w : δ} (hed : isEnum ed = true) :
    w ∈ (g.removeVertex ed).out x ↔ w ∈ g.out x ∧ x ≠ ed ∧ w ≠ ed := by
  obtain ⟨-, hmem⟩ := foldl_modify_filter_spec ed (g.inEdges ed).elems g.outEdges x w
  rw [out, removeVertex]
  dsimp only
  rw [OrderedMap.valueD, OrderedMap.find?_erase]
  by_cases hx : x = ed
  · rw [if_pos hx]
    exact iff_of_false List.not_mem_nil fun h' => h'.2.1 hx
  · rw [if_neg hx]
    refine hmem.trans ?_
    have hin : ∀ w, w = ed → (x ∈ (g.inEdges ed).elems ↔ w ∈ g.out x) := by
      rintro w rfl
      exact (h.in_iff x w).trans (and_iff_right hed)
    constructor
    · rintro ⟨hw, hnot⟩
      exact ⟨hw, hx, fun heq => hnot ⟨(hin w heq).mpr hw, heq⟩⟩
    · rintro ⟨hw, -, hne⟩
      exact ⟨hw, fun h' => hne h'.2⟩

/-- What is left by source is enough for the search for components. -/
lemma WF.removeVertex (h : WF isEnum g) {ed : δ} (hed : isEnum ed = true) :
    OutWF (g.removeVertex ed) where
  out_keys u := by
    obtain ⟨hkeys, -⟩ := foldl_modify_filter_spec ed (g.inEdges ed).elems g.outEdges u u
    rw [mem_vertices_removeVertex, ← h.out_keys u, Graph.removeVertex]
    dsimp only
    rw [OrderedMap.find?_erase]
    by_cases hu : u = ed
    · rw [if_pos hu]
      exact iff_of_false (by simp) fun h' => h'.2 hu
    · rw [if_neg hu]
      exact hkeys.trans (and_iff_left hu).symm
  target u v hv := by
    obtain ⟨hold, -, hne⟩ := (mem_out_removeVertex h hed).mp hv
    exact mem_vertices_removeVertex.mpr ⟨h.target u v hold, hne⟩

/-! ## Choosing an enum -/

lemma peekEnumToBox_foldl (es : List (δ × OrderedSet δ)) (best : Option δ × ℕ)
    (hbest : best.1 = none ↔ best.2 = 0) :
    let r := es.foldl (fun (best : Option δ × ℕ) e =>
      if best.2 < e.2.elems.length then (some e.1, e.2.elems.length) else best) best
    (r.1 = none ↔ best.1 = none ∧ ∀ e ∈ es, e.2.elems = []) ∧
      ∀ ed, r.1 = some ed → best.1 = some ed ∨ ∃ s : OrderedSet δ, (ed, s) ∈ es ∧ s.elems ≠ [] := by
  induction es generalizing best with
  | nil => exact ⟨by simp, fun ed h => Or.inl h⟩
  | cons e es ih =>
    rw [List.foldl_cons]
    by_cases hlt : best.2 < e.2.elems.length
    · have hne : e.2.elems ≠ [] := fun heq => by
        rw [heq] at hlt
        exact absurd hlt (Nat.not_lt_zero _)
      rw [if_pos hlt]
      have hiff : (some e.1 : Option δ) = none ↔ e.2.elems.length = 0 := by
        simpa using hne
      obtain ⟨hnone, hsome⟩ := ih (some e.1, e.2.elems.length) hiff
      refine ⟨hnone.trans ?_, fun ed hed => ?_⟩
      · exact iff_of_false (by simp) fun h => hne (h.2 e List.mem_cons_self)
      · rcases hsome ed hed with heq | ⟨s, hs, hs'⟩
        · obtain rfl := Option.some.inj heq
          exact Or.inr ⟨e.2, List.mem_cons_self, hne⟩
        · exact Or.inr ⟨s, List.mem_cons_of_mem _ hs, hs'⟩
    · rw [if_neg hlt]
      obtain ⟨hnone, hsome⟩ := ih best hbest
      refine ⟨hnone.trans ?_, fun ed hed => ?_⟩
      · refine and_congr_right fun hb => ?_
        have hzero : e.2.elems = [] := by
          have hle := not_lt.mp hlt
          rw [hbest.mp hb] at hle
          exact List.length_eq_zero_iff.mp (Nat.le_zero.mp hle)
        rw [List.forall_mem_cons, and_iff_right hzero]
      · rcases hsome ed hed with heq | ⟨s, hs, hs'⟩
        · exact Or.inl heq
        · exact Or.inr ⟨s, List.mem_cons_of_mem _ hs, hs'⟩

/-- An enum that is chosen has an arc into it. -/
lemma peekEnumToBox_eq_some (h : WF isEnum g) {ed : δ} (hed : g.peekEnumToBox = some ed) :
    ed ∈ g.vertices ∧ isEnum ed = true := by
  obtain ⟨-, hsome⟩ := peekEnumToBox_foldl g.enumInEdges.entries (none, 0) (by simp)
  rcases hsome ed hed with hno | ⟨s, hs, -⟩
  · exact absurd hno (by simp)
  · exact (h.in_keys ed).mp ⟨s, g.enumInEdges.find?_eq_some_iff.mpr hs⟩

/-- When no enum is chosen, there is no arc into an enum. -/
lemma peekEnumToBox_eq_none (h : WF isEnum g) (hnone : g.peekEnumToBox = none) {u v : δ}
    (hv : v ∈ g.out u) : isEnum v = false := by
  obtain ⟨hiff, -⟩ := peekEnumToBox_foldl g.enumInEdges.entries (none, 0) (by simp)
  have hall := (hiff.mp hnone).2
  by_contra henum
  have hmem : u ∈ g.inEdges v := (h.in_iff u v).mpr ⟨Bool.eq_true_of_not_eq_false henum, hv⟩
  rw [inEdges, OrderedMap.valueD] at hmem
  cases hfind : g.enumInEdges.find? v with
  | none =>
    rw [hfind] at hmem
    exact List.not_mem_nil hmem
  | some s =>
    rw [hfind] at hmem
    have hnil := hall (v, s) (g.enumInEdges.find?_eq_some_iff.mp hfind)
    have hmem' : u ∈ s.elems := hmem
    rw [hnil] at hmem'
    exact List.not_mem_nil hmem'

end Graph

end Cangjie.EliminateRecursiveTypes
