import CangjieCompiler.Sema.EliminateRecursiveTypes.Boxing
import Mathlib.Algebra.BigOperators.Group.List.Basic

/-!
# Elimination of recursive types

The elimination ends, since every enum that is removed makes the graphs on the stack smaller.  In
the end every cycle of the graph through an enum has an arc at which the enum was boxed.  The arc is
gone from the types unless the enum is nested there in a tuple of a tuple.
-/

namespace Cangjie.EliminateRecursiveTypes

variable {δ : Type}

/-! ## Declarations with boxed enums -/

namespace Decl

/-- The types of all members or parameters, and whether they are those of fields. -/
def tys : Decl δ → List (Bool × Ty δ)
  | structDecl decls => decls.map fun m => (isField m, m.ty)
  | enumDecl constructors => (constructors.flatMap paramTys).map fun t => (true, t)

lemma mem_fieldTys {d : Decl δ} {t : Ty δ} : t ∈ d.fieldTys ↔ (true, t) ∈ d.tys := by
  cases d with
  | structDecl decls =>
    rw [fieldTys, tys, List.mem_map, List.mem_map]
    constructor
    · rintro ⟨m, hm, rfl⟩
      obtain ⟨hmem, hfield⟩ := List.mem_filter.mp hm
      exact ⟨m, hmem, by rw [hfield]⟩
    · rintro ⟨m, hm, heq⟩
      obtain ⟨hfield, rfl⟩ := Prod.ext_iff.mp heq
      exact ⟨m, List.mem_filter.mpr ⟨hm, hfield⟩, rfl⟩
  | enumDecl constructors =>
    rw [fieldTys, tys, List.mem_map]
    constructor
    · intro ht
      exact ⟨t, ht, rfl⟩
    · rintro ⟨t', ht', heq⟩
      obtain rfl : t' = t := (Prod.ext_iff.mp heq).2
      exact ht'

/-- A function applied to the types of fields. -/
lemma tys_mapFieldTys (f : Ty δ → Ty δ) (d : Decl δ) :
    (d.mapFieldTys f).tys = d.tys.map fun e => (e.1, if e.1 then f e.2 else e.2) := by
  cases d with
  | structDecl decls =>
    rw [mapFieldTys, tys, tys, List.map_map, List.map_map]
    refine List.map_congr_left fun m _ => ?_
    dsimp only [Function.comp]
    split_ifs <;> rfl
  | enumDecl constructors =>
    rw [mapFieldTys, tys, tys, List.map_map, List.flatMap_map, List.map_flatMap, List.map_flatMap]
    refine congrArg (fun g => constructors.flatMap g) (funext fun c => ?_)
    cases c with
    | varDecl => rfl
    | funcDecl params =>
      rw [paramTys, paramTys, List.map_map]
      rfl

lemma isEnum_mapFieldTys (f : Ty δ → Ty δ) (d : Decl δ) : (d.mapFieldTys f).isEnum = d.isEnum := by
  cases d <;> rfl

end Decl

variable [LinearOrder δ]

/-- A declaration with several enums boxed, one after the other. -/
def boxAllIn (es : List δ) (d : Decl δ) : Decl δ :=
  es.foldl (fun d ed => d.mapFieldTys (checkAndUpdateTy ed)) d

lemma tys_boxAllIn (es : List δ) (d : Decl δ) :
    (boxAllIn es d).tys = d.tys.map fun e => (e.1, if e.1 then boxAll es e.2 else e.2) := by
  induction es generalizing d with
  | nil =>
    refine ((List.map_congr_left fun e _ => ?_).trans (List.map_id _)).symm
    exact Prod.ext rfl (ite_self _)
  | cons ed es ih =>
    rw [boxAllIn, List.foldl_cons]
    refine (ih _).trans ?_
    rw [Decl.tys_mapFieldTys, List.map_map]
    refine List.map_congr_left fun e _ => ?_
    dsimp only [Function.comp]
    split_ifs <;> rfl

lemma isEnum_boxAllIn (es : List δ) (d : Decl δ) : (boxAllIn es d).isEnum = d.isEnum := by
  induction es generalizing d with
  | nil => rfl
  | cons ed es ih =>
    rw [boxAllIn, List.foldl_cons]
    exact (ih _).trans (Decl.isEnum_mapFieldTys _ d)

/-- One enum boxed in several declarations. -/
lemma find?_foldl_update (ed : δ) {us : List δ} (hus : us.Nodup) (decls : OrderedMap δ (Decl δ))
    (u : δ) :
    (us.foldl (fun decls u => updateMemberVariableTy decls u ed) decls).find? u =
      (decls.find? u).map fun d => if u ∈ us then boxAllIn [ed] d else d := by
  induction us generalizing decls with
  | nil => exact (congrFun Option.map_id _).symm
  | cons x us ih =>
    obtain ⟨hx, hus'⟩ := List.nodup_cons.mp hus
    rw [List.foldl_cons, ih hus', updateMemberVariableTy, OrderedMap.find?_modify]
    by_cases hu : u = x
    · rw [if_pos hu, Option.map_map]
      refine congrArg (fun f => (decls.find? u).map f) (funext fun d => ?_)
      have hnot : u ∉ us := hu ▸ hx
      have hmem : u ∈ x :: us := hu ▸ List.mem_cons_self
      dsimp only [Function.comp]
      rw [if_neg hnot, if_pos hmem]
      rfl
    · rw [if_neg hu]
      refine congrArg (fun f => (decls.find? u).map f) (funext fun d => ?_)
      have hiff : u ∈ x :: us ↔ u ∈ us := List.mem_cons.trans (or_iff_right hu)
      exact if_congr hiff.symm rfl rfl

/-! ## Where enums are boxed -/

namespace Graph

/-- In a graph on the stack, an enum is boxed in a declaration: because it is chosen and there is an
arc to it, or in a component of what is left without the chosen enum. -/
inductive Boxes (isEnum : δ → Bool) : Graph δ → δ → δ → Prop where
  | chosen {g : Graph δ} {ed u : δ} (hpeek : g.peekEnumToBox = some ed) (hu : u ∈ g.inEdges ed) :
      Boxes isEnum g u ed
  | later {g : Graph δ} {ed u v : δ} {subSCCs : List (Graph δ)} {scc : Graph δ}
      (hpeek : g.peekEnumToBox = some ed)
      (hsccs : (g.removeVertex ed).stronglyConnectedComponents isEnum = some subSCCs)
      (hscc : scc ∈ subSCCs) (hbox : Boxes isEnum scc u v) : Boxes isEnum g u v

variable {isEnum : δ → Bool} {g : Graph δ}

lemma IsComponents.wf_of_mem {parts : List (List δ)} {sccs : List (Graph δ)}
    (h : IsComponents isEnum g parts sccs) {scc : Graph δ} (hscc : scc ∈ sccs) :
    ∃ c ∈ parts, scc = g.subGraph isEnum c ∧ WF isEnum scc := by
  rw [h.sccs_eq] at hscc
  obtain ⟨c, hc, rfl⟩ := List.mem_map.mp hscc
  exact ⟨c, hc, rfl, (subGraph_spec c (c.head (h.nonempty c hc)) (c.head (h.nonempty c hc))).1⟩

lemma IsComponents.wf_nonempty {parts : List (List δ)} {sccs : List (Graph δ)} (hwf : OutWF g)
    (h : IsComponents isEnum g parts sccs) {scc : Graph δ} (hscc : scc ∈ sccs) :
    WF isEnum scc ∧ scc.vertices.elems ≠ [] := by
  obtain ⟨c, hc, rfl, hsub⟩ := h.wf_of_mem hscc
  obtain ⟨x, hx⟩ := List.exists_mem_of_ne_nil c (h.nonempty c hc)
  have hxv := h.perm.mem_iff.mp (List.mem_flatten.mpr ⟨c, hc, hx⟩)
  exact ⟨hsub, List.ne_nil_of_mem ((mem_vertices_subGraph c hwf x).mpr ⟨hxv, hx⟩)⟩

/-- Nothing is boxed in a graph without a chosen enum. -/
lemma not_boxes_of_none (hpeek : g.peekEnumToBox = none) (u v : δ) : ¬ Boxes isEnum g u v := by
  intro hbox
  cases hbox with
  | chosen hpeek' _ => exact absurd (hpeek.symm.trans hpeek') (by simp)
  | later hpeek' _ _ _ => exact absurd (hpeek.symm.trans hpeek') (by simp)

/-- What is boxed in a graph: the chosen enum, and what is boxed in the components of the rest. -/
lemma boxes_iff {ed : δ} {subSCCs : List (Graph δ)} (hpeek : g.peekEnumToBox = some ed)
    (hsccs : (g.removeVertex ed).stronglyConnectedComponents isEnum = some subSCCs) (u v : δ) :
    Boxes isEnum g u v ↔
      (u ∈ g.inEdges ed ∧ v = ed) ∨ ∃ scc ∈ subSCCs, Boxes isEnum scc u v := by
  constructor
  · intro hbox
    cases hbox with
    | chosen hpeek' hu =>
      obtain rfl := Option.some.inj (hpeek.symm.trans hpeek')
      exact Or.inl ⟨hu, rfl⟩
    | later hpeek' hsccs' hscc hbox' =>
      obtain rfl := Option.some.inj (hpeek.symm.trans hpeek')
      obtain rfl := Option.some.inj (hsccs.symm.trans hsccs')
      exact Or.inr ⟨_, hscc, hbox'⟩
  · rintro (⟨hu, rfl⟩ | ⟨scc, hscc, hbox⟩)
    · exact .chosen hpeek hu
    · exact .later hpeek hsccs hscc hbox

/-- An enum is boxed at an arc to it between two declarations of one component. -/
lemma Boxes.arc (h : WF isEnum g) {u v : δ} (hbox : Boxes isEnum g u v) :
    v ∈ g.out u ∧ isEnum v = true := by
  induction hbox with
  | chosen hpeek hu => exact ⟨((h.in_iff _ _).mp hu).2, (peekEnumToBox_eq_some h hpeek).2⟩
  | later hpeek hsccs hscc hbox ih =>
    obtain ⟨-, henum⟩ := peekEnumToBox_eq_some h hpeek
    obtain ⟨parts, sccs', hrun, hparts⟩ :=
      stronglyConnectedComponents_spec isEnum (h.removeVertex henum)
    obtain rfl := Option.some.inj (hsccs.symm.trans hrun)
    obtain ⟨c, -, rfl, hwf⟩ := hparts.wf_of_mem hscc
    obtain ⟨hv, hvenum⟩ := ih hwf
    have hout := ((@subGraph_spec δ _ isEnum _ c _ _).2.mp hv).1
    exact ⟨((mem_out_removeVertex h henum).mp hout).1, hvenum⟩

/-! ## No cycle is left -/

section Cycles

variable {α : Type}

/-- The arcs of a path from a vertex back to itself lie among the vertices that it reaches and that
reach it. -/
lemma transGen_within {R : α → α → Prop} {e : α} (h : Relation.TransGen R e e) :
    Relation.TransGen (fun u v => R u v ∧ Relation.ReflTransGen R e u ∧
      Relation.ReflTransGen R v e) e e := by
  have hpath : ∀ x, Relation.TransGen R e x → Relation.ReflTransGen R x e →
      Relation.TransGen (fun u v => R u v ∧ Relation.ReflTransGen R e u ∧
        Relation.ReflTransGen R v e) e x := by
    intro x hx
    induction hx with
    | single hedge => exact fun hback => .single ⟨hedge, .refl, hback⟩
    | tail hto hedge ih =>
      intro hback
      exact (ih (.head hedge hback)).tail ⟨hedge, hto.to_reflTransGen, hback⟩
  exact hpath e h .refl

end Cycles

/-- The arcs at which nothing is boxed, for the components of a graph. -/
def Unboxed (isEnum : δ → Bool) (g : Graph δ) (sccs : List (Graph δ)) (u v : δ) : Prop :=
  v ∈ g.out u ∧ ¬ ∃ scc ∈ sccs, Boxes isEnum scc u v

/-- When no component has a cycle through an enum without boxing, the graph has none. -/
lemma no_cycle_of_components {parts : List (List δ)} {sccs : List (Graph δ)} (hwf : OutWF g)
    (h : IsComponents isEnum g parts sccs) {e : δ}
    (hno : ∀ scc ∈ sccs,
      ¬ Relation.TransGen (fun u v => v ∈ scc.out u ∧ ¬ Boxes isEnum scc u v) e e) :
    ¬ Relation.TransGen (Unboxed isEnum g sccs) e e := by
  intro hcycle
  have he : e ∈ g.vertices := by
    obtain ⟨v, hv, -⟩ := Relation.TransGen.head'_iff.mp hcycle
    exact hwf.source hv.1
  obtain ⟨c, hc, hec⟩ := List.mem_flatten.mp (h.perm.mem_iff.mpr he)
  have hsub : g.subGraph isEnum c ∈ sccs := by
    rw [h.sccs_eq]
    exact List.mem_map_of_mem hc
  refine hno _ hsub (Relation.TransGen.mono (fun u v huv => ?_) _ _ (transGen_within hcycle))
  obtain ⟨⟨hout, hnot⟩, hto, hfrom⟩ := huv
  have hreach : ∀ {x y}, Relation.ReflTransGen (Unboxed isEnum g sccs) x y →
      Tarjan.Reach g.out x y := fun hxy => Relation.ReflTransGen.mono (fun _ _ h => h.1) _ _ hxy
  have hedge : Tarjan.Reach g.out u v := .single hout
  have hu : u ∈ c :=
    (h.scc c hc e hec u).mpr ⟨hreach hto, hedge.trans (hreach hfrom)⟩
  have hv : v ∈ c :=
    (h.scc c hc e hec v).mpr ⟨(hreach hto).trans hedge, hreach hfrom⟩
  exact ⟨(subGraph_spec c u v).2.mpr ⟨hout, hu, hv⟩, fun hbox => hnot ⟨_, hsub, hbox⟩⟩

/-- In a component, every cycle through an enum has an arc at which an enum is boxed. -/
lemma no_cycle_unboxed (n : ℕ) {g : Graph δ} (hn : g.vertices.elems.length ≤ n)
    (h : WF isEnum g) {e : δ} (he : isEnum e = true) :
    ¬ Relation.TransGen (fun u v => v ∈ g.out u ∧ ¬ Boxes isEnum g u v) e e := by
  induction n generalizing g with
  | zero =>
    intro hcycle
    obtain ⟨v, hv, -⟩ := Relation.TransGen.head'_iff.mp hcycle
    have hmem : e ∈ g.vertices := h.toOutWF.source hv.1
    have hpos : 0 < g.vertices.elems.length := List.length_pos_of_mem hmem
    exact absurd hn hpos.not_ge
  | succ n ih =>
    intro hcycle
    cases hpeek : g.peekEnumToBox with
    | none =>
      obtain ⟨u, -, hu⟩ := Relation.TransGen.tail'_iff.mp hcycle
      exact absurd he (by rw [peekEnumToBox_eq_none h hpeek hu.1]; simp)
    | some ed =>
      obtain ⟨hed, henum⟩ := peekEnumToBox_eq_some h hpeek
      have hout := h.removeVertex henum
      obtain ⟨parts, sccs, hrun, hparts⟩ := stronglyConnectedComponents_spec isEnum hout
      have hlt : (g.removeVertex ed).vertices.elems.length < g.vertices.elems.length := by
        refine List.length_filter_lt_length_iff_exists.mpr ⟨ed, hed, ?_⟩
        simp
      have hinto : ∀ {x y}, (y ∈ g.out x ∧ ¬ Boxes isEnum g x y) → y ≠ ed := by
        rintro x y ⟨hy, hnot⟩ rfl
        exact hnot (.chosen hpeek ((h.in_iff x y).mpr ⟨henum, hy⟩))
      have hene : e ≠ ed := by
        obtain ⟨u, -, hu⟩ := Relation.TransGen.tail'_iff.mp hcycle
        exact hinto hu
      refine no_cycle_of_components hout hparts (e := e) (fun scc hscc => ?_)
        (Relation.TransGen.mono (fun u v huv => ?_) _ _ (transGen_within hcycle))
      · obtain ⟨c, -, rfl, hwf⟩ := hparts.wf_of_mem hscc
        refine ih ?_ hwf
        have hsub : ((g.removeVertex ed).subGraph isEnum c).vertices.elems ⊆
            (g.removeVertex ed).vertices.elems :=
          fun x hx => ((mem_vertices_subGraph c hout x).mp hx).1
        exact Nat.le_of_lt_succ
          (((OrderedSet.nodup _).length_le_of_subset hsub).trans_lt (hlt.trans_le hn))
      · obtain ⟨⟨hout', hnot⟩, hto, -⟩ := huv
        have hune : u ≠ ed := by
          rcases Relation.ReflTransGen.cases_tail hto with heq | ⟨x, -, hx⟩
          · exact heq ▸ hene
          · exact hinto hx
        refine ⟨(mem_out_removeVertex h henum).mpr ⟨hout', hune, hinto ⟨hout', hnot⟩⟩, ?_⟩
        rintro ⟨scc, hscc, hbox⟩
        exact hnot (.later hpeek hrun hscc hbox)

/-! ## The elimination ends -/

/-- A bound on the number of steps for the graphs on the stack. -/
def steps (sccs : List (Graph δ)) : ℕ :=
  (sccs.map fun scc => 2 * scc.vertices.elems.length - 1).sum

lemma sum_map_le_two_mul {β : Type} {f f' : β → ℕ} {l : List β} (h : ∀ b ∈ l, f b ≤ 2 * f' b) :
    (l.map f).sum ≤ 2 * (l.map f').sum := by
  induction l with
  | nil => exact le_rfl
  | cons b l ih =>
    have hb := h b List.mem_cons_self
    have hl := ih fun c hc => h c (List.mem_cons_of_mem _ hc)
    rw [List.map_cons, List.map_cons, List.sum_cons, List.sum_cons, Nat.mul_add]
    exact Nat.add_le_add hb hl

lemma IsComponents.steps_le {parts : List (List δ)} {sccs : List (Graph δ)} (hwf : OutWF g)
    (h : IsComponents isEnum g parts sccs) : steps sccs ≤ 2 * g.vertices.elems.length := by
  have hnodup : parts.flatten.Nodup := h.perm.nodup_iff.mpr g.vertices.nodup
  have hlength : ∀ c ∈ parts, (g.subGraph isEnum c).vertices.elems.length = c.length := by
    intro c hc
    have hcnodup := (List.nodup_flatten.mp hnodup).1 c hc
    refine ((List.perm_ext_iff_of_nodup (OrderedSet.nodup _) hcnodup).mpr fun x => ?_).length_eq
    refine (mem_vertices_subGraph c hwf x).trans (and_iff_right_of_imp fun hx => ?_)
    exact h.perm.mem_iff.mp (List.mem_flatten.mpr ⟨c, hc, hx⟩)
  rw [steps, h.sccs_eq, List.map_map, ← h.perm.length_eq, List.length_flatten]
  refine sum_map_le_two_mul fun c hc => ?_
  dsimp only [Function.comp]
  rw [hlength c hc]
  exact Nat.sub_le _ _

lemma steps_append (sccs sccs' : List (Graph δ)) :
    steps (sccs ++ sccs') = steps sccs + steps sccs' := by
  rw [steps, List.map_append, List.sum_append]
  rfl

lemma steps_reverse (sccs : List (Graph δ)) : steps sccs.reverse = steps sccs := by
  rw [steps, List.map_reverse, List.sum_reverse]
  rfl

end Graph

open Graph

/-- What the loop does to the declarations: in each of them the enums are boxed that are boxed there
in a graph on the stack. -/
theorem eliminateLoop_spec {isEnum : δ → Bool} (n : ℕ) {sccs : List (Graph δ)}
    (decls : OrderedMap δ (Decl δ)) (hwf : ∀ scc ∈ sccs, WF isEnum scc ∧ scc.vertices.elems ≠ [])
    (hn : steps sccs < n) :
    ∃ (decls' : OrderedMap δ (Decl δ)) (es : δ → List δ),
      eliminateLoop isEnum n sccs decls = some decls' ∧
      (∀ u ed, ed ∈ es u ↔ ∃ scc ∈ sccs, Boxes isEnum scc u ed) ∧
      ∀ u, decls'.find? u = (decls.find? u).map (boxAllIn (es u)) := by
  induction n generalizing sccs decls with
  | zero => exact absurd hn (Nat.not_lt_zero _)
  | succ n ih =>
    cases sccs with
    | nil =>
      refine ⟨decls, fun _ => [], rfl, fun u ed => ?_, fun u => (congrFun Option.map_id _).symm⟩
      exact iff_of_false List.not_mem_nil fun ⟨_, h, _⟩ => List.not_mem_nil h
    | cons scc sccs =>
      obtain ⟨hscc, hnonempty⟩ := hwf scc List.mem_cons_self
      have hrest : ∀ c ∈ sccs, WF isEnum c ∧ c.vertices.elems ≠ [] :=
        fun c hc => hwf c (List.mem_cons_of_mem _ hc)
      have hlength : 0 < scc.vertices.elems.length := List.length_pos_iff.mpr hnonempty
      have hsteps : steps (scc :: sccs) = 2 * scc.vertices.elems.length - 1 + steps sccs := rfl
      rw [eliminateLoop]
      cases hpeek : scc.peekEnumToBox with
      | none =>
        have hlt : steps sccs < n := by omega
        obtain ⟨decls', es, hrun, hes, hfind⟩ := ih decls hrest hlt
        refine ⟨decls', es, hrun, fun u ed => (hes u ed).trans ?_, hfind⟩
        rw [List.exists_mem_cons_iff, or_iff_right (not_boxes_of_none hpeek u ed)]
      | some e =>
        obtain ⟨he, henum⟩ := peekEnumToBox_eq_some hscc hpeek
        have hout := hscc.removeVertex henum
        obtain ⟨parts, subSCCs, hsub, hparts⟩ := stronglyConnectedComponents_spec isEnum hout
        have hremoved : (scc.removeVertex e).vertices.elems.length < scc.vertices.elems.length := by
          refine List.length_filter_lt_length_iff_exists.mpr ⟨e, he, ?_⟩
          simp
        have hsubsteps := hparts.steps_le hout
        have hlt : steps (subSCCs.reverse ++ sccs) < n := by
          rw [steps_append, steps_reverse]
          omega
        have hwf' : ∀ c ∈ subSCCs.reverse ++ sccs, WF isEnum c ∧ c.vertices.elems ≠ [] := by
          intro c hc
          rcases List.mem_append.mp hc with hnew | hold
          · exact hparts.wf_nonempty hout (List.mem_reverse.mp hnew)
          · exact hrest c hold
        obtain ⟨decls', es, hrun, hes, hfind⟩ := ih ((scc.inEdges e).elems.foldl
          (fun decls u => updateMemberVariableTy decls u e) decls) hwf' hlt
        refine ⟨decls', fun u => (if u ∈ (scc.inEdges e).elems then [e] else []) ++ es u, ?_,
          fun u ed => ?_, fun u => ?_⟩
        · dsimp only
          rw [hsub]
          exact hrun
        · have hchosen : ed ∈ (if u ∈ (scc.inEdges e).elems then [e] else []) ↔
              u ∈ scc.inEdges e ∧ ed = e := by
            by_cases hu : u ∈ (scc.inEdges e).elems
            · rw [if_pos hu, List.mem_singleton]
              exact (and_iff_right hu).symm
            · rw [if_neg hu]
              exact iff_of_false List.not_mem_nil fun h => hu h.1
          rw [List.mem_append, hes, hchosen, List.exists_mem_cons_iff, boxes_iff hpeek hsub,
            or_assoc]
          refine or_congr Iff.rfl ?_
          simp only [List.mem_append, List.mem_reverse, or_and_right, exists_or]
        · rw [hfind, find?_foldl_update e (OrderedSet.nodup _), Option.map_map]
          refine congrArg (fun f => (decls.find? u).map f) (funext fun d => ?_)
          dsimp only [Function.comp]
          split_ifs with hu
          · exact (List.foldl_append ..).symm
          · rfl

end Cangjie.EliminateRecursiveTypes
