import CangjieCompiler.Sema.MultiTypeSubst
import CangjieCompiler.Sema.TyInstantiator

/-!
# Substitutions within a set of variables

The part of a substitution that maps the variables of a set.  If what these variables are mapped to
has no other variables, then the part does the same as the whole substitution to the types over the
set.  This holds with cycles, too.
-/

namespace Cangjie.AST.TyTree

variable {α β : Type}

/-- The entries of the variables of a set. -/
def within (S : α → Prop) [DecidablePred S] (l : List (α × β)) : List (α × β) :=
  l.filter fun entry => decide (S entry.1)

/-- A type has variables of a set only. -/
def IsOver (S : α → Prop) (ty : TyTree α) : Prop := ∀ v ∈ ty.vars, S v

/-- The variables of a set are mapped to types over the set. -/
def ClosedUnder (S : α → Prop) (mapping : List (α × TyTree α)) : Prop :=
  ∀ entry ∈ mapping, S entry.1 → IsOver S entry.2

variable {S : α → Prop} {l : List (α × β)} {mapping : List (α × TyTree α)} {ty : TyTree α} {tv : α}

lemma IsOver.part {shape : Shape} {parts : List (TyTree α)} (h : IsOver S (node shape parts))
    {t : TyTree α} (ht : t ∈ parts) : IsOver S t :=
  fun v hv => h v (mem_vars_node.mpr ⟨t, ht, hv⟩)

lemma isOver_generics : IsOver S (generics tv) ↔ S tv := by
  unfold IsOver
  rw [vars_generics]
  exact List.forall_mem_singleton

lemma isOver_rebuild {shape : Shape} {parts : List (TyTree α)} (h : ∀ t ∈ parts, IsOver S t) :
    IsOver S (rebuild shape parts) := by
  intro v hv
  obtain ⟨t, ht, hvt⟩ := exists_of_mem_vars_rebuild hv
  exact h t ht v hvt

lemma mem_within [DecidablePred S] {entry : α × β} :
    entry ∈ within S l ↔ entry ∈ l ∧ S entry.1 := by
  rw [within, List.mem_filter, decide_eq_true_iff]

variable [DecidableEq α]

lemma ClosedUnder.erase (h : ClosedUnder S mapping) : ClosedUnder S (erase mapping tv) :=
  fun entry hentry => h entry (List.mem_of_mem_filter hentry)

variable [DecidablePred S]

lemma lookup_within (h : S tv) : (within S l).lookup tv = l.lookup tv := by
  induction l with
  | nil => rfl
  | cons entry l ih =>
    obtain ⟨u, b⟩ := entry
    unfold within at ih ⊢
    by_cases hu : S u
    · rw [List.filter_cons_of_pos (by simpa using hu), List.lookup_cons, List.lookup_cons, ih]
    · have hne : (tv == u) = false := beq_eq_false_iff_ne.mpr fun htu => hu (htu ▸ h)
      rw [List.filter_cons_of_neg (by simpa using hu), ih, List.lookup_cons, hne]

lemma erase_within : erase (within S mapping) tv = within S (erase mapping tv) := by
  unfold erase within
  rw [List.filter_filter, List.filter_filter]
  exact List.filter_congr fun entry _ => Bool.and_comm _ _

/-! ## Following a variable -/

omit [DecidablePred S] in
/-- Following a variable depends on the bound only if it is too small. -/
lemma followed_eq_of_le {n m : ℕ} (hn : mapping.length ≤ n) (hm : mapping.length ≤ m) :
    followed n mapping ty = followed m mapping ty := by
  induction n generalizing m mapping ty with
  | zero =>
    obtain rfl := List.length_eq_zero_iff.mp (Nat.le_zero.mp hn)
    cases m with
    | zero => rfl
    | succ m => cases ty <;> rfl
  | succ n ih =>
    cases ty with
    | builtin kind => cases m <;> rfl
    | node shape parts => cases m <;> rfl
    | generics tv =>
      cases hlookup : mapping.lookup tv with
      | none =>
        cases m with
        | zero => rw [followed, hlookup]; rfl
        | succ m => rw [followed, followed, hlookup]
      | some ty =>
        have hlt := length_erase_lt hlookup
        cases m with
        | zero => omega
        | succ m =>
          rw [followed, followed, hlookup]
          exact ih (by omega) (by omega)

/-- Following a variable of the set stays within the set. -/
lemma followed_within (n : ℕ) (hclosed : ClosedUnder S mapping) (hty : IsOver S ty) :
    followed n (within S mapping) ty =
        ((followed n mapping ty).1, within S (followed n mapping ty).2) ∧
      IsOver S (followed n mapping ty).1 ∧ ClosedUnder S (followed n mapping ty).2 := by
  fun_induction followed n mapping ty with
  | case1 n mapping tv ty hlookup ih =>
    have htv : S tv := isOver_generics.mp hty
    rw [followed, lookup_within htv, hlookup, erase_within]
    exact ih hclosed.erase (hclosed _ (mem_of_lookup hlookup) htv)
  | case2 n mapping tv hlookup =>
    rw [followed, lookup_within (isOver_generics.mp hty), hlookup]
    exact ⟨rfl, hty, hclosed⟩
  | case3 n mapping curTy hcase =>
    refine ⟨?_, hty, hclosed⟩
    cases n with
    | zero => rw [followed]; rintro _ _ ⟨⟩
    | succ n => rw [followed]; exact hcase

/-! ## Instantiation -/

variable {generic : ℕ → Bool}

section Instantiate

omit [DecidablePred S]

lemma instantiate_nil : instantiate generic [] ty = ty := by
  rw [instantiate.eq_def, if_pos (by simp)]

lemma instantiate_of_not_isTyCorrect (h : ty.isTyCorrect = false) :
    instantiate generic mapping ty = ty := by
  rw [instantiate.eq_def, if_pos (by simp [h])]

lemma instantiate_builtin (kind : TypeKind) :
    instantiate generic mapping (builtin kind) = builtin kind := by
  rw [instantiate.eq_def]
  split_ifs <;> rfl

/-- A variable is instantiated by following it, and then instantiating what it is followed to. -/
lemma instantiate_generics (tv : α) :
    instantiate generic mapping (generics tv) =
      if (followed mapping.length mapping (generics tv)).1.isGeneric = false ∧
          (followed mapping.length mapping (generics tv)).1.hasGeneric = true then
        instantiate generic (followed mapping.length mapping (generics tv)).2
          (followed mapping.length mapping (generics tv)).1
      else (followed mapping.length mapping (generics tv)).1 := by
  rw [instantiate.eq_def]
  cases mapping with
  | nil =>
    rw [if_pos (by simp)]
    rfl
  | cons entry mapping =>
    rw [if_neg (by simp [isTyCorrect])]
    dsimp only
    generalize followed (entry :: mapping).length (entry :: mapping) (generics tv) = result
    obtain ⟨ty, left⟩ := result
    dsimp only
    by_cases hgeneric : ty.isGeneric = false
    · rw [dif_pos hgeneric]
      cases left with
      | nil => rw [if_neg (by simp), instantiate_nil, ite_self]
      | cons entry left =>
        by_cases hmarked : ty.hasGeneric = true
        · rw [if_pos (by simp [hmarked]), if_pos ⟨hgeneric, hmarked⟩]
        · rw [if_neg (by simp [hmarked]), if_neg fun h => hmarked h.2]
    · rw [dif_neg hgeneric, if_neg fun h => hgeneric h.1]

/-- A type is instantiated by its parts. -/
lemma instantiate_node {shape : Shape} {parts : List (TyTree α)}
    (hmade : (node shape parts).Made) :
    instantiate generic mapping (node shape parts) =
      if descends generic shape parts then rebuild shape (parts.map (instantiate generic mapping))
      else node shape parts := by
  cases hcorrect : (node shape parts).isTyCorrect with
  | false =>
    rw [instantiate_of_not_isTyCorrect hcorrect, descends, hcorrect, Bool.false_and]
    rfl
  | true =>
    cases mapping with
    | nil =>
      have hmap : parts.map (instantiate generic []) = parts :=
        (List.map_congr_left fun t _ => instantiate_nil).trans (List.map_id parts)
      rw [instantiate_nil, hmap, (made_node.mp hmade).2, ite_self]
    | cons entry mapping =>
      rw [instantiate.eq_def, if_neg (by simp [hcorrect]), descends, hcorrect, Bool.true_and]

lemma followed_made (n : ℕ) (hrhs : ∀ entry ∈ mapping, entry.2.Made) (hmade : ty.Made) :
    (followed n mapping ty).1.Made ∧ ∀ entry ∈ (followed n mapping ty).2, entry.2.Made := by
  fun_induction followed n mapping ty with
  | case1 n mapping tv ty hlookup ih =>
    exact ih (fun entry hentry => hrhs entry (List.mem_of_mem_filter hentry))
      (hrhs _ (mem_of_lookup hlookup))
  | case2 n mapping tv hlookup => exact ⟨hmade, hrhs⟩
  | case3 n mapping curTy hcase => exact ⟨hmade, hrhs⟩

/-- The induction over instantiation: over the parts of a type, and over what a variable is followed
to. -/
theorem instantiate_induction {P : TypeSubst α → TyTree α → Prop}
    (hbuiltin : ∀ mapping kind, P mapping (builtin kind))
    (hgenerics : ∀ mapping tv,
      ((followed mapping.length mapping (generics tv)).1.isGeneric = false →
        P (followed mapping.length mapping (generics tv)).2
          (followed mapping.length mapping (generics tv)).1) → P mapping (generics tv))
    (hnode : ∀ mapping shape parts, (∀ t ∈ parts, P mapping t) → P mapping (node shape parts))
    (mapping : TypeSubst α) (ty : TyTree α) : P mapping ty := by
  induction hlength : mapping.length using Nat.strong_induction_on generalizing mapping ty with
  | _ n ih =>
    induction ty using induction_parts with
    | hbuiltin kind => exact hbuiltin mapping kind
    | hgenerics tv =>
      refine hgenerics mapping tv fun hgeneric => ih _ ?_ _ _ rfl
      rw [← hlength]
      exact length_followed_lt hgeneric
    | hnode shape parts ihparts => exact hnode mapping shape parts ihparts

end Instantiate

/-- Types over a set are instantiated by the part of the substitution within the set. -/
theorem instantiate_within (hclosed : ClosedUnder S mapping)
    (hrhs : ∀ entry ∈ mapping, entry.2.Made) (hty : IsOver S ty) (hmade : ty.Made) :
    instantiate generic (within S mapping) ty = instantiate generic mapping ty := by
  induction mapping, ty using instantiate_induction with
  | hbuiltin mapping kind => rw [instantiate_builtin, instantiate_builtin]
  | hgenerics mapping tv ih =>
    obtain ⟨hfollowed, hty', hclosed'⟩ := followed_within mapping.length hclosed hty
    obtain ⟨hmade', hrhs'⟩ := followed_made mapping.length hrhs hmade
    have hbound : followed (within S mapping).length (within S mapping) (generics tv) =
        followed mapping.length (within S mapping) (generics tv) :=
      followed_eq_of_le le_rfl (List.length_filter_le _ _)
    rw [instantiate_generics, instantiate_generics, hbound, hfollowed]
    dsimp only
    split_ifs with hgo
    · exact ih hgo.1 hclosed' hrhs' hty' hmade'
    · rfl
  | hnode mapping shape parts ih =>
    rw [instantiate_node hmade, instantiate_node hmade]
    congr 2
    refine List.map_congr_left fun t ht => ?_
    exact ih t ht hclosed hrhs (hty.part ht) ((made_node.mp hmade).1 t ht)

/-- Types over a set are instantiated to types over the set. -/
theorem isOver_instantiate (hclosed : ClosedUnder S mapping) (hty : IsOver S ty)
    (hmade : ty.Made) (hrhs : ∀ entry ∈ mapping, entry.2.Made) :
    IsOver S (instantiate generic mapping ty) := by
  induction mapping, ty using instantiate_induction with
  | hbuiltin mapping kind =>
    rw [instantiate_builtin]
    exact hty
  | hgenerics mapping tv ih =>
    obtain ⟨-, hty', hclosed'⟩ := followed_within mapping.length hclosed hty
    obtain ⟨hmade', hrhs'⟩ := followed_made mapping.length hrhs hmade
    rw [instantiate_generics]
    split_ifs with hgo
    · exact ih hgo.1 hclosed' hty' hmade' hrhs'
    · exact hty'
  | hnode mapping shape parts ih =>
    rw [instantiate_node hmade]
    split_ifs
    · refine isOver_rebuild fun t' ht' => ?_
      obtain ⟨t, ht, rfl⟩ := List.mem_map.mp ht'
      exact ih t ht hclosed (hty.part ht) ((made_node.mp hmade).1 t ht) hrhs
    · exact hty

omit [DecidablePred S] in
lemma isTyCorrect_followed (n : ℕ) (hrhs : ∀ entry ∈ mapping, entry.2.isTyCorrect = true)
    (hty : ty.isTyCorrect = true) :
    (followed n mapping ty).1.isTyCorrect = true ∧
      ∀ entry ∈ (followed n mapping ty).2, entry.2.isTyCorrect = true := by
  fun_induction followed n mapping ty with
  | case1 n mapping tv ty hlookup ih =>
    exact ih (fun entry hentry => hrhs entry (List.mem_of_mem_filter hentry))
      (hrhs _ (mem_of_lookup hlookup))
  | case2 n mapping tv hlookup => exact ⟨hty, hrhs⟩
  | case3 n mapping curTy hcase => exact ⟨hty, hrhs⟩

omit [DecidablePred S] in
/-- Correct types are instantiated to correct types. -/
theorem isTyCorrect_instantiate (hrhs : ∀ entry ∈ mapping, entry.2.isTyCorrect = true)
    (hmade : ty.Made) (hmades : ∀ entry ∈ mapping, entry.2.Made) (hty : ty.isTyCorrect = true) :
    (instantiate generic mapping ty).isTyCorrect = true := by
  induction mapping, ty using instantiate_induction with
  | hbuiltin mapping kind =>
    rw [instantiate_builtin]
    exact hty
  | hgenerics mapping tv ih =>
    obtain ⟨hty', hrhs'⟩ := isTyCorrect_followed mapping.length hrhs hty
    obtain ⟨hmade', hmades'⟩ := followed_made mapping.length hmades hmade
    rw [instantiate_generics]
    split_ifs with hgo
    · exact ih hgo.1 hrhs' hmade' hmades' hty'
    · exact hty'
  | hnode mapping shape parts ih =>
    rw [instantiate_node hmade]
    split_ifs
    · refine isTyCorrect_rebuild hty fun hset t' ht' => ?_
      obtain ⟨t, ht, rfl⟩ := List.mem_map.mp ht'
      exact ih t ht hrhs ((made_node.mp hmade).1 t ht) hmades (isTyCorrect_part hset hty ht)
    · exact hty

/-! ## Expansions -/

/-- A substitution that maps each variable to one of its types. -/
def IsChoice : TypeSubst α → MultiTypeSubst α → Prop :=
  List.Forall₂ fun entry choices => entry.1 = choices.1 ∧ entry.2 ∈ choices.2

section Choice

omit [DecidablePred S] [DecidableEq α]

variable {mts : MultiTypeSubst α} {m m' : TypeSubst α}

lemma mem_expand : m' ∈ expand m mts ↔ ∃ choice, IsChoice choice mts ∧ m' = m ++ choice := by
  induction mts generalizing m with
  | nil =>
    rw [expand, List.mem_singleton]
    constructor
    · rintro rfl
      exact ⟨[], List.Forall₂.nil, (List.append_nil _).symm⟩
    · rintro ⟨choice, hchoice, rfl⟩
      rw [List.forall₂_nil_right_iff.mp hchoice, List.append_nil]
  | cons choices mts ih =>
    obtain ⟨key, tys⟩ := choices
    rw [expand, List.mem_flatMap]
    constructor
    · rintro ⟨it, hit, hm'⟩
      obtain ⟨choice, hchoice, rfl⟩ := ih.mp hm'
      refine ⟨(key, it) :: choice, List.Forall₂.cons ⟨rfl, hit⟩ hchoice, ?_⟩
      rw [List.append_assoc, List.singleton_append]
    · rintro ⟨choice, hchoice, rfl⟩
      obtain ⟨⟨_, it⟩, choice, ⟨rfl, hit⟩, hrest, rfl⟩ := List.forall₂_cons_right_iff.mp hchoice
      refine ⟨it, hit, ih.mpr ⟨choice, hrest, ?_⟩⟩
      rw [List.append_assoc, List.singleton_append]

/-- A multi-substitution is expanded to the choices. -/
lemma mem_expandFiltered : m ∈ expandFilteredMultiTypeSubst mts ↔ IsChoice m mts := by
  rw [expandFilteredMultiTypeSubst, mem_expand]
  exact ⟨fun ⟨_, hchoice, heq⟩ => heq ▸ hchoice, fun h => ⟨m, h, rfl⟩⟩

/-- There is a choice if and only if no variable is mapped to no type. -/
lemma exists_isChoice_iff : (∃ m, IsChoice m mts) ↔ ∀ choices ∈ mts, choices.2 ≠ [] := by
  induction mts with
  | nil => exact iff_of_true ⟨[], List.Forall₂.nil⟩ fun _ h => absurd h List.not_mem_nil
  | cons choices mts ih =>
    rw [List.forall_mem_cons, ← ih]
    constructor
    · rintro ⟨_, hchoice⟩
      obtain ⟨entry, choice, ⟨-, hit⟩, hrest, rfl⟩ := List.forall₂_cons_right_iff.mp hchoice
      exact ⟨List.ne_nil_of_mem hit, choice, hrest⟩
    · rintro ⟨hne, m, hm⟩
      obtain ⟨it, hit⟩ := List.exists_mem_of_ne_nil _ hne
      exact ⟨(choices.1, it) :: m, List.Forall₂.cons ⟨rfl, hit⟩ hm⟩

/-- What holds of the types of a multi-substitution holds of those of a choice. -/
lemma IsChoice.forall_mem {P : α → TyTree α → Prop} (h : IsChoice m mts)
    (hmts : ∀ choices ∈ mts, ∀ ty ∈ choices.2, P choices.1 ty) : ∀ entry ∈ m, P entry.1 entry.2 := by
  induction h with
  | nil => exact fun _ h => absurd h List.not_mem_nil
  | cons hhead _ ih =>
    rw [List.forall_mem_cons] at hmts ⊢
    refine ⟨?_, ih hmts.2⟩
    rw [hhead.1]
    exact hmts.1 _ hhead.2

end Choice

section ChoiceWithin

omit [DecidableEq α]

variable {mts : MultiTypeSubst α} {m m' : TypeSubst α}

lemma within_cons_of_pos {entry : α × β} (h : S entry.1) :
    within S (entry :: l) = entry :: within S l :=
  List.filter_cons_of_pos (by simpa using h)

lemma within_cons_of_neg {entry : α × β} (h : ¬ S entry.1) :
    within S (entry :: l) = within S l :=
  List.filter_cons_of_neg (by simpa using h)

lemma IsChoice.within (h : IsChoice m mts) : IsChoice (within S m) (within S mts) := by
  induction h with
  | nil => exact List.Forall₂.nil
  | cons hhead _ ih =>
    rename_i entry choices m mts _
    by_cases hS : S choices.1
    · rw [within_cons_of_pos hS, within_cons_of_pos (hhead.1.symm ▸ hS)]
      exact List.Forall₂.cons hhead ih
    · rw [within_cons_of_neg hS, within_cons_of_neg (hhead.1.symm ▸ hS)]
      exact ih

/-- A choice for the part within a set can be completed. -/
lemma exists_isChoice_of_within (hne : ∀ choices ∈ mts, ¬ S choices.1 → choices.2 ≠ [])
    (h : IsChoice m' (within S mts)) : ∃ m, IsChoice m mts ∧ within S m = m' := by
  induction mts generalizing m' with
  | nil => exact ⟨[], List.Forall₂.nil, (List.forall₂_nil_right_iff.mp h).symm⟩
  | cons choices mts ih =>
    rw [List.forall_mem_cons] at hne
    by_cases hS : S choices.1
    · rw [within_cons_of_pos hS] at h
      obtain ⟨entry, choice, hhead, hrest, rfl⟩ := List.forall₂_cons_right_iff.mp h
      obtain ⟨m, hm, rfl⟩ := ih hne.2 hrest
      exact ⟨entry :: m, List.Forall₂.cons hhead hm, within_cons_of_pos (hhead.1.symm ▸ hS)⟩
    · rw [within_cons_of_neg hS] at h
      obtain ⟨m, hm, rfl⟩ := ih hne.2 h
      obtain ⟨it, hit⟩ := List.exists_mem_of_ne_nil _ (hne.1 hS)
      exact ⟨(choices.1, it) :: m, List.Forall₂.cons ⟨rfl, hit⟩ hm, within_cons_of_neg hS⟩

end ChoiceWithin

end Cangjie.AST.TyTree
