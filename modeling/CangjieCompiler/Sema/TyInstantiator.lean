import CangjieCompiler.Sema.ResolvedSubstitution

/-!
# Instantiation of types

A substitution is followed from a type variable on, and what was used is erased from the copy that
is followed, until it comes to a type that is no variable or to a variable that is not substituted.
Such a type is instantiated in turn with what is left of the substitution.

In a substitution without cycles nothing that is erased is needed again.  So a type is instantiated
as if each variable at a place that the traversal comes to were replaced at once.  What is left are
the variables at the other places.
-/

namespace Cangjie.AST.TyTree

variable {α : Type} [DecidableEq α]

/-! ## The functions of the source -/

/-- `mapping.erase(tv)` -/
def erase (mapping : TypeSubst α) (tv : α) : TypeSubst α :=
  mapping.filter fun entry => decide (entry.1 ≠ tv)

/-- The loop of `GetInstantiatedGenericTy`, with `curTy` and what is left of the substitution. -/
def followed : ℕ → TypeSubst α → TyTree α → TyTree α × TypeSubst α
  | n + 1, mapping, generics tv =>
    match mapping.lookup tv with
    | some ty => followed n (erase mapping tv) ty
    | none => (generics tv, mapping)
  | _, mapping, curTy => (curTy, mapping)

def isGeneric : TyTree α → Bool
  | generics _ => true
  | _ => false

omit [DecidableEq α] in
lemma exists_of_isGeneric {ty : TyTree α} (h : ty.isGeneric = true) : ∃ tv, ty = generics tv := by
  cases ty with
  | builtin kind => exact absurd h (by simp [isGeneric])
  | generics tv => exact ⟨tv, rfl⟩
  | node shape parts => exact absurd h (by simp [isGeneric])

/-- The kinds that `Instantiate` lists; of the types of declarations only those of generic ones are
instantiated, and aliases. -/
def isInstantiated (generic : ℕ → Bool) : Shape → Bool
  | .nominal ty declPtr => decide (ty = .TypeAliasTy) || generic declPtr
  | .varray _ => false
  | _ => true

lemma length_erase_lt {mapping : TypeSubst α} {tv : α} {ty : TyTree α}
    (h : mapping.lookup tv = some ty) : (erase mapping tv).length < mapping.length := by
  obtain ⟨l, r, rfl, -⟩ := List.lookup_eq_some_iff.mp h
  refine List.length_filter_lt_length_iff_exists.mpr ⟨(tv, ty), ?_, by simp⟩
  exact List.mem_append_right l List.mem_cons_self

lemma length_followed_le (n : ℕ) (mapping : TypeSubst α) (curTy : TyTree α) :
    (followed n mapping curTy).2.length ≤ mapping.length := by
  fun_induction followed n mapping curTy with
  | case1 n mapping tv ty hlookup ih => exact ih.trans (length_erase_lt hlookup).le
  | case2 n mapping tv hlookup => exact le_rfl
  | case3 n mapping curTy hcase => exact le_rfl

/-- A variable that is not the result of following it was substituted. -/
lemma length_followed_lt {n : ℕ} {mapping : TypeSubst α} {tv : α}
    (h : (followed n mapping (generics tv)).1.isGeneric = false) :
    (followed n mapping (generics tv)).2.length < mapping.length := by
  cases n with
  | zero => exact absurd h (by simp [followed, isGeneric])
  | succ n =>
    rw [followed] at h ⊢
    cases hlookup : mapping.lookup tv with
    | none =>
      rw [hlookup] at h
      exact absurd h (by simp [isGeneric])
    | some ty => exact (length_followed_le n _ ty).trans_lt (length_erase_lt hlookup)

/-- `Instantiate`, where `generic` says which declarations are generic. -/
def instantiate (generic : ℕ → Bool) (mapping : TypeSubst α) (ty : TyTree α) : TyTree α :=
  if !ty.isTyCorrect || mapping.isEmpty then ty
  else
    match ty with
    | builtin kind => builtin kind
    | generics tv =>
      let result := followed mapping.length mapping (generics tv)
      if _ : result.1.isGeneric = false then
        if !result.2.isEmpty && result.1.hasGeneric then instantiate generic result.2 result.1
        else result.1
      else result.1
    | node shape parts =>
      if isInstantiated generic shape then rebuild shape (parts.map fun part => instantiate generic mapping part)
      else node shape parts
termination_by (mapping.length, sizeOf ty)
decreasing_by
  · exact Prod.Lex.left _ _ (length_followed_lt ‹_›)
  · next hpart =>
    have hlt := List.sizeOf_lt_of_mem hpart
    exact Prod.Lex.right _ (by simp only [node.sizeOf_spec]; omega)

/-! ## Places that are come to -/

/-- The nodes that are instantiated. -/
def descends (generic : ℕ → Bool) (shape : Shape) (parts : List (TyTree α)) : Bool :=
  (node shape parts).isTyCorrect && isInstantiated generic shape

/-- The variables at the places of a type that are not come to. -/
def hidden (generic : ℕ → Bool) : TyTree α → List α
  | builtin _ => []
  | generics _ => []
  | node shape parts =>
    if descends generic shape parts then parts.flatMap (hidden generic) else (node shape parts).vars

/-- A right-hand side that is not marked as generic is not instantiated at all. -/
def hiddenRhs (generic : ℕ → Bool) (ty : TyTree α) : List α :=
  if ty.hasGeneric then hidden generic ty else ty.vars

/-- Replacing the variables at the places that are come to. -/
def replace (generic : ℕ → Bool) (f : α → TyTree α) : TyTree α → TyTree α
  | builtin kind => builtin kind
  | generics tv => f tv
  | node shape parts =>
    if descends generic shape parts then rebuild shape (parts.map (replace generic f))
    else node shape parts

def replaceRhs (generic : ℕ → Bool) (f : α → TyTree α) (ty : TyTree α) : TyTree α :=
  if ty.hasGeneric then replace generic f ty else ty

variable {generic : ℕ → Bool} {mapping : TypeSubst α} {tv : α} {ty : TyTree α}

section Replace

omit [DecidableEq α]

lemma replace_generics (f : α → TyTree α) (tv : α) : (generics tv).replace generic f = f tv := by
  rw [replace]

lemma replace_node (f : α → TyTree α) (shape : Shape) (parts : List (TyTree α)) :
    (node shape parts).replace generic f =
      if descends generic shape parts then rebuild shape (parts.map (replace generic f))
      else node shape parts := by
  rw [replace]

lemma hidden_node (shape : Shape) (parts : List (TyTree α)) :
    (node shape parts).hidden generic =
      if descends generic shape parts then parts.flatMap (hidden generic)
      else (node shape parts).vars := by
  rw [hidden]

lemma mem_vars_of_mem_hidden {v : α} (h : v ∈ ty.hidden generic) : v ∈ ty.vars := by
  induction ty using induction_parts with
  | hbuiltin kind =>
    rw [hidden] at h
    exact absurd h List.not_mem_nil
  | hgenerics tv =>
    rw [hidden] at h
    exact absurd h List.not_mem_nil
  | hnode shape parts ih =>
    rw [hidden_node] at h
    split_ifs at h
    · obtain ⟨t, ht, hv⟩ := List.mem_flatMap.mp h
      exact mem_vars_node.mpr ⟨t, ht, ih t ht hv⟩
    · exact h

lemma mem_vars_of_mem_hiddenRhs {v : α} (h : v ∈ ty.hiddenRhs generic) : v ∈ ty.vars := by
  unfold hiddenRhs at h
  split_ifs at h
  · exact mem_vars_of_mem_hidden h
  · exact h

lemma replace_congr {f g : α → TyTree α} (h : ∀ v ∈ ty.vars, f v = g v) :
    ty.replace generic f = ty.replace generic g := by
  induction ty using induction_parts with
  | hbuiltin kind => rw [replace, replace]
  | hgenerics tv =>
    rw [replace_generics, replace_generics]
    exact h tv (by rw [vars_generics]; exact List.mem_singleton_self tv)
  | hnode shape parts ih =>
    rw [replace_node, replace_node]
    congr 2
    refine List.map_congr_left fun t ht => ih t ht fun v hv => h v ?_
    exact mem_vars_node.mpr ⟨t, ht, hv⟩

lemma isLocal_replaceRhs : IsLocal (α := α) (replaceRhs generic) := by
  intro f g ty h
  rw [replaceRhs, replaceRhs, replace_congr h]

/-- The replacement agrees with a substitution that leaves the variables at other places as they
are. -/
lemma replace_eq_subst {f g : α → TyTree α} (hmade : ty.Made)
    (hhidden : ∀ v ∈ ty.hidden generic, f v = generics v) (h : ∀ v ∈ ty.vars, g v = f v) :
    ty.replace generic g = ty.subst f := by
  induction ty using induction_parts with
  | hbuiltin kind => rw [replace, subst]
  | hgenerics tv =>
    rw [replace_generics, subst]
    exact h tv (by rw [vars_generics]; exact List.mem_singleton_self tv)
  | hnode shape parts ih =>
    rw [hidden_node] at hhidden
    rw [replace_node]
    split_ifs with hdescends
    · rw [if_pos hdescends] at hhidden
      rw [subst_node]
      congr 1
      refine List.map_congr_left fun t ht => ih t ht ((made_node.mp hmade).1 t ht) ?_ ?_
      · exact fun v hv => hhidden v (List.mem_flatMap.mpr ⟨t, ht, hv⟩)
      · exact fun v hv => h v (mem_vars_node.mpr ⟨t, ht, hv⟩)
    · rw [if_neg hdescends] at hhidden
      exact (subst_eq_self hmade hhidden).symm

/-- Nothing is replaced in a type whose variables are not substituted. -/
lemma replace_eq_self {f : α → TyTree α} (hmade : ty.Made) (h : ∀ v ∈ ty.vars, f v = generics v) :
    ty.replace generic f = ty := by
  rw [replace_eq_subst hmade (fun v hv => h v (mem_vars_of_mem_hidden hv)) fun _ _ => rfl]
  exact subst_eq_self hmade h

lemma replaceRhs_eq_self {f : α → TyTree α} (hmade : ty.Made)
    (h : ∀ v ∈ ty.vars, f v = generics v) : ty.replaceRhs generic f = ty := by
  rw [replaceRhs, replace_eq_self hmade h, ite_self]

lemma replaceRhs_generics (f : α → TyTree α) (tv : α) :
    (generics tv).replaceRhs generic f = f tv := by
  rw [replaceRhs, if_pos (by rw [hasGeneric]), replace_generics]

end Replace

/-! ## Erased variables -/

/-- One substitution maps the variables that another one comes to from a type in the same way. -/
def Agrees (mapping' mapping : TypeSubst α) (ty : TyTree α) : Prop :=
  ∀ v ∈ ty.vars, ∀ u, Reaches mapping v u → mapping'.lookup u = mapping.lookup u

lemma Agrees.lookup_eq {mapping' : TypeSubst α} (h : Agrees mapping' mapping ty) {v : α}
    (hv : v ∈ ty.vars) : mapping'.lookup v = mapping.lookup v :=
  h v hv v (Reaches.refl mapping v)

lemma Agrees.part {mapping' : TypeSubst α} {shape : Shape} {parts : List (TyTree α)}
    (h : Agrees mapping' mapping (node shape parts)) {t : TyTree α} (ht : t ∈ parts) :
    Agrees mapping' mapping t :=
  fun v hv => h v (mem_vars_node.mpr ⟨t, ht, hv⟩)

lemma lookup_erase_of_ne {u : α} (h : u ≠ tv) : (erase mapping tv).lookup u = mapping.lookup u := by
  induction mapping with
  | nil => rfl
  | cons entry mapping ih =>
    obtain ⟨v, ty⟩ := entry
    rw [erase] at ih ⊢
    by_cases hv : v = tv
    · have hne : (u == v) = false := beq_eq_false_iff_ne.mpr fun huv => h (huv.trans hv)
      rw [List.filter_cons_of_neg (by simp [hv]), ih, List.lookup_cons, hne]
    · rw [List.filter_cons_of_pos (by simp [hv]), List.lookup_cons, List.lookup_cons, ih]

/-- What is erased is not needed for what it was substituted by. -/
lemma Agrees.erase {mapping' : TypeSubst α} (hacyclic : Acyclic mapping)
    (h : Agrees mapping' mapping (generics tv)) (hlookup : mapping'.lookup tv = some ty) :
    mapping.lookup tv = some ty ∧ Agrees (erase mapping' tv) mapping ty := by
  have htv : tv ∈ (generics tv).vars := by
    rw [vars_generics]
    exact List.mem_singleton_self tv
  have hlookup' : mapping.lookup tv = some ty := by rw [← h.lookup_eq htv, hlookup]
  refine ⟨hlookup', fun v hv u hu => ?_⟩
  rw [lookup_erase_of_ne (hacyclic.ne_of_reaches hlookup' hv hu)]
  exact h tv htv u (Reaches.head hlookup' hv hu)

/-- What is come to from a variable is replaced like the variable. -/
lemma followed_spec {f : α → TyTree α} (hacyclic : Acyclic mapping)
    (hrhs : ∀ entry ∈ mapping, entry.2.Made) (hf : IsResolved (replaceRhs generic) mapping f)
    (n : ℕ) (mapping' : TypeSubst α) (curTy : TyTree α) (hmade : curTy.Made)
    (hagrees : Agrees mapping' mapping curTy) :
    (followed n mapping' curTy).1.replaceRhs generic f = curTy.replaceRhs generic f ∧
      (followed n mapping' curTy).1.Made ∧
      Agrees (followed n mapping' curTy).2 mapping (followed n mapping' curTy).1 := by
  fun_induction followed n mapping' curTy with
  | case1 n mapping' tv ty hlookup ih =>
    obtain ⟨hlookup', hagrees'⟩ := hagrees.erase hacyclic hlookup
    obtain ⟨heq, hspec⟩ := ih (hrhs _ (mem_of_lookup hlookup')) hagrees'
    refine ⟨heq.trans ?_, hspec⟩
    rw [replaceRhs_generics, hf.of_some hlookup']
  | case2 n mapping' tv hlookup => exact ⟨rfl, hmade, hagrees⟩
  | case3 n mapping' curTy hcase => exact ⟨rfl, hmade, hagrees⟩

/-- A variable that is come to at the end is not substituted. -/
lemma lookup_of_followed (n : ℕ) (mapping : TypeSubst α) (curTy : TyTree α)
    (hn : mapping.length ≤ n) (h : (followed n mapping curTy).1 = generics tv) :
    (followed n mapping curTy).2.lookup tv = none := by
  fun_induction followed n mapping curTy with
  | case1 n mapping tv ty hlookup ih =>
    exact ih (Nat.le_of_lt_succ ((length_erase_lt hlookup).trans_le hn)) h
  | case2 n mapping tv hlookup =>
    obtain rfl := generics.inj h
    exact hlookup
  | case3 n mapping curTy hcase =>
    cases n with
    | zero =>
      rw [List.length_eq_zero_iff.mp (Nat.le_zero.mp hn)]
      rfl
    | succ n => exact absurd h fun h => hcase n tv rfl h

/-! ## Instantiation as a replacement -/

lemma Agrees.generics_of_nil {f : α → TyTree α} (hf : IsResolved (replaceRhs generic) mapping f)
    (h : Agrees [] mapping ty) : ∀ v ∈ ty.vars, f v = generics v :=
  fun _ hv => hf.of_none (h.lookup_eq hv).symm

/-- Instantiation replaces each variable that it comes to by what the substitution comes down to,
also where a part of the substitution is erased that is not needed for the type. -/
theorem instantiate_eq_replace {f : α → TyTree α} (hacyclic : Acyclic mapping)
    (hrhs : ∀ entry ∈ mapping, entry.2.Made) (hf : IsResolved (replaceRhs generic) mapping f)
    (mapping' : TypeSubst α) (ty : TyTree α) (hmade : ty.Made) (hagrees : Agrees mapping' mapping ty) :
    instantiate generic mapping' ty = ty.replace generic f := by
  fun_induction instantiate generic mapping' ty with
  | case1 mapping' ty hstop =>
    rw [Bool.or_eq_true, Bool.not_eq_true', List.isEmpty_iff] at hstop
    obtain hcorrect | rfl := hstop
    · cases ty with
      | builtin kind => rw [replace]
      | generics tv => exact absurd hcorrect (by simp [isTyCorrect])
      | node shape parts => simp [replace_node, descends, hcorrect]
    · exact (replace_eq_self hmade (hagrees.generics_of_nil hf)).symm
  | case2 mapping' kind hgo => rw [replace]
  | case3 mapping' tv result hgeneric hagain hgo ih =>
    obtain ⟨heq, hmade', hagrees'⟩ :=
      followed_spec hacyclic hrhs hf mapping'.length mapping' (generics tv) hmade hagrees
    rw [Bool.and_eq_true] at hagain
    rw [ih hmade' hagrees', replace_generics, ← replaceRhs_generics f tv, ← heq, replaceRhs,
      if_pos hagain.2]
  | case4 mapping' tv result hgeneric hstop hgo =>
    obtain ⟨heq, hmade', hagrees'⟩ :=
      followed_spec hacyclic hrhs hf mapping'.length mapping' (generics tv) hmade hagrees
    rw [replace_generics, ← replaceRhs_generics f tv, ← heq]
    rw [Bool.and_eq_true, not_and_or, Bool.not_eq_true', Bool.not_eq_false, List.isEmpty_iff] at hstop
    obtain hempty | hmarked := hstop
    · rw [hempty] at hagrees'
      exact (replaceRhs_eq_self hmade' (hagrees'.generics_of_nil hf)).symm
    · rw [replaceRhs, if_neg hmarked]
  | case5 mapping' tv result hgeneric hgo =>
    obtain ⟨heq, hmade', hagrees'⟩ :=
      followed_spec hacyclic hrhs hf mapping'.length mapping' (generics tv) hmade hagrees
    rw [replace_generics, ← replaceRhs_generics f tv, ← heq]
    refine (replaceRhs_eq_self hmade' fun u hu => hf.of_none ?_).symm
    rw [← hagrees'.lookup_eq hu]
    obtain ⟨v, hcur⟩ := exists_of_isGeneric (Bool.eq_true_of_not_eq_false hgeneric)
    rw [hcur, vars_generics] at hu
    rw [List.mem_singleton.mp hu]
    exact lookup_of_followed _ mapping' _ le_rfl hcur
  | case6 mapping' shape parts hinstantiated hgo ih =>
    rw [Bool.or_eq_true, not_or, Bool.not_eq_true', Bool.not_eq_false] at hgo
    have hdescends : descends generic shape parts = true := by
      rw [descends, hgo.1, hinstantiated, Bool.and_true]
    rw [replace_node, if_pos hdescends]
    congr 1
    exact List.map_congr_left fun t ht => ih t ht ((made_node.mp hmade).1 t ht) (hagrees.part ht)
  | case7 mapping' shape parts hstop hgo =>
    rw [replace_node, descends, Bool.eq_false_iff.mpr hstop, Bool.and_false]
    rfl

end Cangjie.AST.TyTree
