import CangjieCompiler.Sema.TyInstantiator

/-!
# When a type is instantiated completely

Instantiation does not come to every place of a type: arrays of a fixed size, the types of
declarations that are not generic and incorrect types are left as they are, and so are right-hand
sides that are not marked as generic, which are those whose variables occur in intersections and
unions only.  A substitution without cycles is applied completely if no variable that is substituted
stands at such a place, in the type or in a right-hand side that is come to.  Then instantiating
again changes nothing.
-/

namespace Cangjie.AST.TyTree

variable {α : Type} [DecidableEq α]

/-- The instantiation of a type is the resolved substitution applied to it at once, and nothing that
is substituted is left in it. -/
def InstantiatesFully (generic : ℕ → Bool) (mapping : TypeSubst α) (ty : TyTree α) : Prop :=
  ∃ f, IsResolved subst mapping f ∧ instantiate generic mapping ty = ty.subst f ∧
    Closed mapping (instantiate generic mapping ty)

/-- No variable that is substituted is hidden, in a type or in what its variables are substituted
by. -/
def Exposes (generic : ℕ → Bool) (mapping : TypeSubst α) (ty : TyTree α) : Prop :=
  (∀ v ∈ ty.hidden generic, mapping.lookup v = none) ∧
    ∀ v ∈ ty.vars, ∀ u, Reaches mapping v u → ∀ rhs, mapping.lookup u = some rhs →
      ∀ w ∈ rhs.hiddenRhs generic, mapping.lookup w = none

variable {generic : ℕ → Bool} {mapping : TypeSubst α} {f g : α → TyTree α} {tv : α} {ty : TyTree α}

/-! ## Complete instantiation -/

omit [DecidableEq α] in
lemma replaceRhs_eq_subst (hmade : ty.Made)
    (hhidden : ∀ v ∈ ty.hiddenRhs generic, f v = generics v) (h : ∀ v ∈ ty.vars, g v = f v) :
    ty.replaceRhs generic g = ty.subst f := by
  rw [hiddenRhs] at hhidden
  rw [replaceRhs]
  split_ifs with hgeneric
  · rw [if_pos hgeneric] at hhidden
    exact replace_eq_subst hmade hhidden h
  · rw [if_neg hgeneric] at hhidden
    exact (subst_eq_self hmade hhidden).symm

/-- A variable is replaced by what the substitution comes down to if nothing is hidden from it. -/
lemma eq_of_resolved (hacyclic : Acyclic mapping) (hrhs : ∀ entry ∈ mapping, entry.2.Made)
    (hf : IsResolved subst mapping f) (hg : IsResolved (replaceRhs generic) mapping g) (v : α)
    (hexposes : ∀ u, Reaches mapping v u → ∀ rhs, mapping.lookup u = some rhs →
      ∀ w ∈ rhs.hiddenRhs generic, mapping.lookup w = none) : g v = f v := by
  induction v using hacyclic.induction with
  | hstep v ih =>
    cases hlookup : mapping.lookup v with
    | none => rw [hf.of_none hlookup, hg.of_none hlookup]
    | some rhs =>
      rw [hf.of_some hlookup, hg.of_some hlookup]
      refine replaceRhs_eq_subst (hrhs _ (mem_of_lookup hlookup)) ?_ ?_
      · exact fun w hw => hf.of_none (hexposes v (Reaches.refl mapping v) rhs hlookup w hw)
      · exact fun w hw => ih rhs hlookup w hw fun u hu => hexposes u (Reaches.head hlookup hw hu)

lemma Exposes.instantiatesFully (hacyclic : Acyclic mapping) (hmade : ty.Made)
    (hrhs : ∀ entry ∈ mapping, entry.2.Made) (h : Exposes generic mapping ty) :
    InstantiatesFully generic mapping ty := by
  obtain ⟨f, hf⟩ := hacyclic.exists_isResolved isLocal_subst
  obtain ⟨g, hg⟩ : ∃ g, IsResolved (replaceRhs generic) mapping g :=
    hacyclic.exists_isResolved isLocal_replaceRhs
  have heq : instantiate generic mapping ty = ty.subst f := by
    rw [instantiate_eq_replace hacyclic hrhs hg mapping ty hmade fun _ _ _ _ => rfl]
    refine replace_eq_subst hmade (fun v hv => hf.of_none (h.1 v hv)) fun v hv => ?_
    exact eq_of_resolved hacyclic hrhs hf hg v (h.2 v hv)
  exact ⟨f, hf, heq, heq ▸ hacyclic.closed_subst hf ty⟩

/-- Nothing is hidden if there are no places that are not come to. -/
lemma exposes_of_eq_nil (hty : ty.hidden generic = [])
    (hrhs : ∀ entry ∈ mapping, entry.2.hiddenRhs generic = []) : Exposes generic mapping ty := by
  refine ⟨fun v hv => ?_, fun _ _ u _ rhs hlookup w hw => ?_⟩
  · rw [hty] at hv
    exact absurd hv List.not_mem_nil
  · rw [hrhs _ (mem_of_lookup hlookup)] at hw
    exact absurd hw List.not_mem_nil

/-! ## What is left -/

omit [DecidableEq α] in
/-- Correct types remain correct. -/
lemma isTyCorrect_replace (hcorrect : ty.isTyCorrect = true)
    (hf : ∀ v ∈ ty.vars, (f v).isTyCorrect = true) : (ty.replace generic f).isTyCorrect = true := by
  induction ty using induction_parts with
  | hbuiltin kind =>
    rw [replace]
    exact hcorrect
  | hgenerics tv =>
    rw [replace_generics]
    exact hf tv (by rw [vars_generics]; exact List.mem_singleton_self tv)
  | hnode shape parts ih =>
    rw [replace_node]
    split_ifs
    · refine isTyCorrect_rebuild hcorrect fun hset t' ht' => ?_
      obtain ⟨t, ht, rfl⟩ := List.mem_map.mp ht'
      refine ih t ht (isTyCorrect_part hset hcorrect ht) fun v hv => hf v ?_
      exact mem_vars_node.mpr ⟨t, ht, hv⟩
    · exact hcorrect

/-- Variables are replaced by correct types where the right-hand sides are correct. -/
lemma isTyCorrect_of_resolved (hacyclic : Acyclic mapping)
    (hrhs : ∀ entry ∈ mapping, entry.2.isTyCorrect = true)
    (hf : IsResolved (replaceRhs generic) mapping f) (v : α) : (f v).isTyCorrect = true := by
  refine hacyclic.forall_of_isResolved (P := fun ty => ty.isTyCorrect = true) hf
    (fun tv _ => by rw [isTyCorrect]) (fun entry hentry ih => ?_) v
  have hcorrect := hrhs entry hentry
  rw [replaceRhs]
  split_ifs
  · exact isTyCorrect_replace hcorrect ih
  · exact hcorrect

section Left

omit [DecidableEq α]

/-- The parts that are made are correct, so that none of their variables is lost. -/
lemma mem_vars_replace_node (hcorrect : ∀ v, (f v).isTyCorrect = true) {shape : Shape}
    {parts : List (TyTree α)} (hdescends : descends generic shape parts = true) {t : TyTree α}
    (ht : t ∈ parts) {w : α} (hw : w ∈ (t.replace generic f).vars) :
    w ∈ ((node shape parts).replace generic f).vars := by
  have hnode : (node shape parts).isTyCorrect = true := (Bool.and_eq_true_iff.mp hdescends).1
  rw [replace_node, if_pos hdescends]
  refine mem_vars_rebuild (fun hset t' ht' => ?_) ⟨_, List.mem_map_of_mem ht, hw⟩
  obtain ⟨t, ht, rfl⟩ := List.mem_map.mp ht'
  exact isTyCorrect_replace (isTyCorrect_part hset hnode ht) fun v _ => hcorrect v

/-- What is hidden is left. -/
lemma mem_vars_replace_of_mem_hidden (hcorrect : ∀ v, (f v).isTyCorrect = true) {v : α}
    (hv : v ∈ ty.hidden generic) : v ∈ (ty.replace generic f).vars := by
  induction ty using induction_parts with
  | hbuiltin kind =>
    rw [hidden] at hv
    exact absurd hv List.not_mem_nil
  | hgenerics tv =>
    rw [hidden] at hv
    exact absurd hv List.not_mem_nil
  | hnode shape parts ih =>
    rw [hidden_node] at hv
    split_ifs at hv with hdescends
    · obtain ⟨t, ht, hv⟩ := List.mem_flatMap.mp hv
      exact mem_vars_replace_node hcorrect hdescends ht (ih t ht hv)
    · rw [replace_node, if_neg hdescends]
      exact hv

/-- A variable of a type is hidden, or what replaces it occurs in the result. -/
lemma mem_hidden_or_vars_subset (hcorrect : ∀ v, (f v).isTyCorrect = true) {v : α}
    (hv : v ∈ ty.vars) :
    v ∈ ty.hidden generic ∨ ∀ w ∈ (f v).vars, w ∈ (ty.replace generic f).vars := by
  induction ty using induction_parts with
  | hbuiltin kind =>
    rw [vars_builtin] at hv
    exact absurd hv List.not_mem_nil
  | hgenerics tv =>
    rw [vars_generics] at hv
    rw [List.mem_singleton.mp hv, replace_generics]
    exact Or.inr fun _ hw => hw
  | hnode shape parts ih =>
    rw [hidden_node]
    split_ifs with hdescends
    · obtain ⟨t, ht, hv⟩ := mem_vars_node.mp hv
      obtain hhidden | hsubset := ih t ht hv
      · exact Or.inl (List.mem_flatMap.mpr ⟨t, ht, hhidden⟩)
      · exact Or.inr fun w hw => mem_vars_replace_node hcorrect hdescends ht (hsubset w hw)
    · exact Or.inl hv

end Left

lemma closed_of_lookup (hg : IsResolved (replaceRhs generic) mapping g)
    (h : mapping.lookup tv = none) : Closed mapping (g tv) := by
  intro w hw
  rw [hg.of_none h, vars_generics] at hw
  rw [List.mem_singleton.mp hw]
  exact h

/-- Where nothing that is substituted is left, what replaces the variables leaves nothing. -/
lemma closed_of_mem_vars (hg : IsResolved (replaceRhs generic) mapping g)
    (hcorrect : ∀ v, (g v).isTyCorrect = true) (h : Closed mapping (ty.replace generic g)) {v : α}
    (hv : v ∈ ty.vars) : Closed mapping (g v) := by
  obtain hhidden | hsubset := mem_hidden_or_vars_subset hcorrect hv
  · exact closed_of_lookup hg (h v (mem_vars_replace_of_mem_hidden hcorrect hhidden))
  · exact fun w hw => h w (hsubset w hw)

lemma closed_of_mem_vars_rhs (hg : IsResolved (replaceRhs generic) mapping g)
    (hcorrect : ∀ v, (g v).isTyCorrect = true) (h : Closed mapping (ty.replaceRhs generic g)) {v : α}
    (hv : v ∈ ty.vars) : Closed mapping (g v) := by
  rw [replaceRhs] at h
  split_ifs at h
  · exact closed_of_mem_vars hg hcorrect h hv
  · exact closed_of_lookup hg (h v hv)

/-- Nothing is left by what replaces the variables that are reached. -/
lemma closed_of_reaches (hg : IsResolved (replaceRhs generic) mapping g)
    (hcorrect : ∀ v, (g v).isTyCorrect = true) {v u : α} (h : Closed mapping (g v))
    (hu : Reaches mapping v u) : Closed mapping (g u) := by
  induction hu with
  | refl => exact h
  | tail _ hedge ih =>
    obtain ⟨rhs, hlookup, hmem⟩ := exists_of_edge hedge
    rw [hg.of_some hlookup] at ih
    exact closed_of_mem_vars_rhs hg hcorrect ih hmem

lemma lookup_of_mem_hiddenRhs (hcorrect : ∀ v, (g v).isTyCorrect = true)
    (h : Closed mapping (ty.replaceRhs generic g)) {v : α} (hv : v ∈ ty.hiddenRhs generic) :
    mapping.lookup v = none := by
  rw [replaceRhs] at h
  rw [hiddenRhs] at hv
  split_ifs at h hv
  · exact h v (mem_vars_replace_of_mem_hidden hcorrect hv)
  · exact h v hv

/-- If the right-hand sides are correct, what is hidden is left. -/
lemma exposes_of_closed (hacyclic : Acyclic mapping) (hmade : ty.Made)
    (hrhs : ∀ entry ∈ mapping, entry.2.Made)
    (hcorrect : ∀ entry ∈ mapping, entry.2.isTyCorrect = true)
    (h : Closed mapping (instantiate generic mapping ty)) : Exposes generic mapping ty := by
  obtain ⟨g, hg⟩ : ∃ g, IsResolved (replaceRhs generic) mapping g :=
    hacyclic.exists_isResolved isLocal_replaceRhs
  have hcorrect' : ∀ v, (g v).isTyCorrect = true := isTyCorrect_of_resolved hacyclic hcorrect hg
  rw [instantiate_eq_replace hacyclic hrhs hg mapping ty hmade fun _ _ _ _ => rfl] at h
  refine ⟨fun v hv => h v (mem_vars_replace_of_mem_hidden hcorrect' hv), ?_⟩
  intro v hv u hu rhs hlookup w hw
  have hclosed : Closed mapping (g u) :=
    closed_of_reaches hg hcorrect' (closed_of_mem_vars hg hcorrect' h hv) hu
  rw [hg.of_some hlookup] at hclosed
  exact lookup_of_mem_hiddenRhs hcorrect' hclosed hw

/-! ## The condition -/

section Chain

/-- A chain of two variables. -/
def chain : TypeSubst ℕ := [(0, node (.array 1) [generics 1]), (1, builtin .TYPE_INT64)]

/-- A function type over both variables. -/
def chainTy : TyTree ℕ := node (.func ⟨false, false, false, false⟩) [generics 0, generics 1]

lemma made_chainTy : chainTy.Made := by
  simp [chainTy, made_node, Made, rebuild]

lemma made_of_mem_chain : ∀ entry ∈ chain, entry.2.Made := by
  simp [chain, made_node, Made, rebuild, getArrayTy, isTyCorrect]

lemma acyclic_chain : Acyclic chain := by
  refine acyclic_of_rank (fun v => 1 - v) ?_
  simp [chain, vars_node, vars_generics, vars_builtin]

lemma exposes_chain : Exposes (fun _ => false) chain chainTy := by
  apply exposes_of_eq_nil
  · simp [chainTy, hidden, descends, isTyCorrect, isInstantiated, Shape.isSet, Shape.isVariable]
  · simp [chain, hiddenRhs, hasGeneric, hidden, descends, isTyCorrect, isInstantiated, vars_builtin,
      Shape.isSet, Shape.isVariable]

end Chain

/-- A substitution without cycles is applied completely if it hides no variable that it substitutes;
where its right-hand sides are correct, only then. -/
theorem instantiatesFully_iff_exposes (generic : ℕ → Bool) (mapping : TypeSubst α) (ty : TyTree α)
    (hmade : ty.Made) (hrhs : ∀ entry ∈ mapping, entry.2.Made) (hacyclic : Acyclic mapping) :
    (Exposes generic mapping ty → InstantiatesFully generic mapping ty) ∧
      ((∀ entry ∈ mapping, entry.2.isTyCorrect = true) →
        InstantiatesFully generic mapping ty → Exposes generic mapping ty) := by
  refine ⟨fun h => h.instantiatesFully hacyclic hmade hrhs, ?_⟩
  rintro hcorrect ⟨f, -, -, hclosed⟩
  exact exposes_of_closed hacyclic hmade hrhs hcorrect hclosed

/-- A function type over a chain of two variables is instantiated completely. -/
theorem instantiatesFully_chain :
    InstantiatesFully (fun _ => false)
      [(0, node (.array 1) [generics 1]), (1, builtin .TYPE_INT64)]
      (node (.func ⟨false, false, false, false⟩) [generics 0, generics (1 : ℕ)]) :=
  (instantiatesFully_iff_exposes _ chain chainTy made_chainTy made_of_mem_chain acyclic_chain).1
    exposes_chain

/-- A pointer to a type variable in an array of a fixed size is not instantiated. -/
theorem exists_not_instantiatesFully :
    ∃ (generic : ℕ → Bool) (mapping : TypeSubst ℕ) (ty : TyTree ℕ), ty.Made ∧
      (∀ entry ∈ mapping, entry.2.Made) ∧ Acyclic mapping ∧
      instantiate generic mapping ty = ty ∧ ¬ InstantiatesFully generic mapping ty := by
  let mapping : TypeSubst ℕ := [(0, builtin .TYPE_INT64)]
  let ty : TyTree ℕ := node (.varray 3) [node .pointer [generics 0]]
  have hmade : ty.Made := by simp [ty, made_node, Made, rebuild, getPointerTy, isTyCorrect]
  have heq : instantiate (fun _ => true) mapping ty = ty := by
    simp [ty, mapping, instantiate, isInstantiated]
  refine ⟨fun _ => true, mapping, ty, hmade, ?_, ?_, heq, ?_⟩
  · simp [mapping, Made]
  · refine acyclic_of_rank (fun _ => 0) ?_
    simp [mapping, vars_builtin]
  · rintro ⟨f, -, -, hclosed⟩
    rw [heq] at hclosed
    have hnone := hclosed 0 (by simp [ty, vars])
    simp [mapping] at hnone

/-! ## Instantiating again -/

omit [DecidableEq α] in
/-- A made type whose variables are replaced by made types is made. -/
lemma made_replace (hmade : ty.Made) (hf : ∀ v ∈ ty.vars, (f v).Made) :
    (ty.replace generic f).Made := by
  induction ty using induction_parts with
  | hbuiltin kind =>
    rw [replace]
    exact hmade
  | hgenerics tv =>
    rw [replace_generics]
    exact hf tv (by rw [vars_generics]; exact List.mem_singleton_self tv)
  | hnode shape parts ih =>
    rw [replace_node]
    split_ifs
    · refine made_rebuild fun t' ht' => ?_
      obtain ⟨t, ht, rfl⟩ := List.mem_map.mp ht'
      exact ih t ht ((made_node.mp hmade).1 t ht) fun v hv => hf v (mem_vars_node.mpr ⟨t, ht, hv⟩)
    · exact hmade

/-- Variables are replaced by made types. -/
lemma made_of_resolved (hacyclic : Acyclic mapping) (hrhs : ∀ entry ∈ mapping, entry.2.Made)
    (hf : IsResolved (replaceRhs generic) mapping f) (v : α) : (f v).Made := by
  refine hacyclic.forall_of_isResolved hf (fun tv _ => ?_) (fun entry hentry ih => ?_) v
  · rw [Made]
    trivial
  · have hmade : entry.2.Made := hrhs entry hentry
    rw [replaceRhs]
    split_ifs
    · exact made_replace hmade ih
    · exact hmade

/-- Instantiation gives made types. -/
lemma made_instantiate (hacyclic : Acyclic mapping) (hmade : ty.Made)
    (hrhs : ∀ entry ∈ mapping, entry.2.Made) : (instantiate generic mapping ty).Made := by
  obtain ⟨f, hf⟩ : ∃ f, IsResolved (replaceRhs generic) mapping f :=
    hacyclic.exists_isResolved isLocal_replaceRhs
  rw [instantiate_eq_replace hacyclic hrhs hf mapping ty hmade fun _ _ _ _ => rfl]
  exact made_replace hmade fun v _ => made_of_resolved hacyclic hrhs hf v

/-- A type in which nothing is left that is substituted is its own instantiation. -/
lemma instantiate_of_closed (hacyclic : Acyclic mapping) (hmade : ty.Made)
    (hrhs : ∀ entry ∈ mapping, entry.2.Made) (h : Closed mapping ty) :
    instantiate generic mapping ty = ty := by
  obtain ⟨f, hf⟩ : ∃ f, IsResolved (replaceRhs generic) mapping f :=
    hacyclic.exists_isResolved isLocal_replaceRhs
  rw [instantiate_eq_replace hacyclic hrhs hf mapping ty hmade fun _ _ _ _ => rfl]
  exact replace_eq_self hmade fun v hv => hf.of_none (h v hv)

/-- A substitution without cycles that hides no variable that it substitutes is applied once and for
all: no further instantiation by it changes the result, whichever types are taken for generic. -/
theorem instantiate_instantiate (generic generic' : ℕ → Bool) (mapping : TypeSubst α)
    (ty : TyTree α) (hmade : ty.Made) (hrhs : ∀ entry ∈ mapping, entry.2.Made)
    (hacyclic : Acyclic mapping) (hexposes : Exposes generic mapping ty) :
    instantiate generic' mapping (instantiate generic mapping ty) =
      instantiate generic mapping ty := by
  obtain ⟨f, -, -, hclosed⟩ := hexposes.instantiatesFully hacyclic hmade hrhs
  exact instantiate_of_closed hacyclic (made_instantiate hacyclic hmade hrhs) hrhs hclosed

/-- Instantiating a function type over a chain of two variables again does not change it. -/
theorem instantiate_instantiate_chain :
    instantiate (fun _ => true) chain (instantiate (fun _ => false) chain chainTy) =
      instantiate (fun _ => false) chain chainTy :=
  instantiate_instantiate _ _ chain chainTy made_chainTy made_of_mem_chain acyclic_chain
    exposes_chain

/-! ## What instantiation depends on -/

/-- Instantiation depends on what is substituted for the variables that are reached from a type, and
on nothing else about the substitution: not on its other entries and not on their order. -/
theorem instantiate_eq_of_agrees (generic : ℕ → Bool) (mapping mapping' : TypeSubst α)
    (ty : TyTree α) (hmade : ty.Made) (hrhs : ∀ entry ∈ mapping, entry.2.Made)
    (hacyclic : Acyclic mapping) (hagrees : Agrees mapping' mapping ty) :
    instantiate generic mapping' ty = instantiate generic mapping ty := by
  obtain ⟨f, hf⟩ : ∃ f, IsResolved (replaceRhs generic) mapping f :=
    hacyclic.exists_isResolved isLocal_replaceRhs
  rw [instantiate_eq_replace hacyclic hrhs hf mapping' ty hmade hagrees,
    instantiate_eq_replace hacyclic hrhs hf mapping ty hmade fun _ _ _ _ => rfl]

lemma eq_one_of_edge_chain {v u : ℕ} (h : FrontierSearch.Edge (used chain) v u) : u = 1 := by
  obtain ⟨ty, hlookup, hu⟩ := exists_of_edge h
  have hentry : (v, ty) ∈ chain := mem_of_lookup hlookup
  simp only [chain, List.mem_cons, Prod.mk.injEq, List.not_mem_nil, or_false] at hentry
  obtain ⟨-, rfl⟩ | ⟨-, rfl⟩ := hentry
  · simpa [vars_node, vars_generics] using hu
  · simp [vars_builtin] at hu

/-- The chain is applied in any order, also with an entry that is not reached. -/
theorem instantiate_reverse_chain :
    instantiate (fun _ => false) ((2, generics 0) :: chain.reverse) chainTy =
      instantiate (fun _ => false) chain chainTy := by
  refine instantiate_eq_of_agrees _ chain _ chainTy made_chainTy made_of_mem_chain acyclic_chain ?_
  intro v hv u hu
  have hne : u ≠ 2 := by
    obtain rfl | ⟨b, -, hedge⟩ := Relation.ReflTransGen.cases_tail hu
    · rintro rfl
      simp [chainTy, vars_node, vars_generics] at hv
    · rw [eq_one_of_edge_chain hedge]
      decide
  rcases u with _ | _ | _ | u
  · rfl
  · rfl
  · exact absurd rfl hne
  · rfl

end Cangjie.AST.TyTree
