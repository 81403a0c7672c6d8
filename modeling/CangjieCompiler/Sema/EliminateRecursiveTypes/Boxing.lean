import CangjieCompiler.Sema.EliminateRecursiveTypes.Components

/-!
# What is boxed

Boxing an enum in a declaration takes the enum out of the types of its fields, except where it
stands inside of a tuple that is itself an element of a tuple.  Which enums are boxed in which
declarations depends on the graph alone.
-/

namespace Cangjie.EliminateRecursiveTypes

variable {δ : Type}

/-! ## Containment by value -/

mutual

/-- The declarations a type contains by value. -/
def Ty.byValue : Ty δ → List δ
  | .value v => [v]
  | .tuple typeArgs => Ty.byValueAll typeArgs
  | .refEnum _ => []
  | .primitive _ => []
  | .reference _ => []

def Ty.byValueAll : List (Ty δ) → List δ
  | [] => []
  | t :: ts => t.byValue ++ Ty.byValueAll ts

end

lemma Ty.byValueAll_eq (ts : List (Ty δ)) : Ty.byValueAll ts = ts.flatMap Ty.byValue := by
  induction ts with
  | nil => rfl
  | cons t ts ih => rw [Ty.byValueAll, ih, List.flatMap_cons]

/-- The declarations inside of a tuple. -/
def Ty.inTuple : Ty δ → List δ
  | .tuple typeArgs => Ty.byValueAll typeArgs
  | _ => []

/-- The declarations inside of a tuple that is an element of a tuple. -/
def Ty.nested : Ty δ → List δ
  | .tuple typeArgs => typeArgs.flatMap Ty.inTuple
  | _ => []

lemma Ty.byValue_of_nested {t : Ty δ} {v : δ} (h : v ∈ t.nested) : v ∈ t.byValue := by
  cases t with
  | tuple ts =>
    obtain ⟨t, ht, hv⟩ := List.mem_flatMap.mp h
    rw [Ty.byValue, Ty.byValueAll_eq, List.mem_flatMap]
    refine ⟨t, ht, ?_⟩
    cases t with
    | tuple ss =>
      rw [Ty.byValue]
      exact hv
    | _ => exact absurd hv List.not_mem_nil
  | _ => exact absurd h List.not_mem_nil

mutual

/-- A boxed enum is somewhere in a type. -/
def Ty.hasRefEnum : Ty δ → Bool
  | .refEnum _ => true
  | .tuple typeArgs => Ty.anyHasRefEnum typeArgs
  | .value _ => false
  | .primitive _ => false
  | .reference _ => false

def Ty.anyHasRefEnum : List (Ty δ) → Bool
  | [] => false
  | t :: ts => t.hasRefEnum || Ty.anyHasRefEnum ts

end

mutual

lemma Ty.mentions_eq_byValue (t : Ty δ) (h : t.hasRefEnum = false) : t.mentions = t.byValue := by
  cases t with
  | value _ => rw [Ty.mentions, Ty.byValue]
  | refEnum _ => exact absurd h (by simp [Ty.hasRefEnum])
  | tuple typeArgs =>
    rw [Ty.hasRefEnum] at h
    rw [Ty.mentions, Ty.byValue]
    exact Ty.mentionsAll_eq_byValueAll typeArgs h
  | primitive _ => rw [Ty.mentions, Ty.byValue]
  | reference _ => rw [Ty.mentions, Ty.byValue]

lemma Ty.mentionsAll_eq_byValueAll (ts : List (Ty δ)) (h : Ty.anyHasRefEnum ts = false) :
    Ty.mentionsAll ts = Ty.byValueAll ts := by
  cases ts with
  | nil => rw [Ty.mentionsAll, Ty.byValueAll]
  | cons t ts =>
    rw [Ty.anyHasRefEnum, Bool.or_eq_false_iff] at h
    rw [Ty.mentionsAll, Ty.byValueAll, Ty.mentions_eq_byValue t h.1,
      Ty.mentionsAll_eq_byValueAll ts h.2]

end

section Boxing

variable [LinearOrder δ]

/-- An element of a tuple with an enum boxed. -/
def boxElem (ed : δ) (t : Ty δ) : Ty δ := if t.isSpecified ed then .refEnum ed else t

lemma isSpecified_iff {ed : δ} {t : Ty δ} : t.isSpecified ed = true ↔ t = .value ed := by
  cases t <;> simp [Ty.isSpecified]

lemma checkAndUpdateTy_tuple (ed : δ) (ts : List (Ty δ)) :
    checkAndUpdateTy ed (.tuple ts) = .tuple (ts.map (boxElem ed)) := by
  rw [checkAndUpdateTy]
  split_ifs with h
  · rfl
  · refine congrArg Ty.tuple ((List.map_id _).symm.trans (List.map_congr_left fun t ht => ?_))
    have hnot : ¬ t.isSpecified ed = true := fun hspec => h (List.any_eq_true.mpr ⟨t, ht, hspec⟩)
    rw [boxElem, if_neg hnot]
    rfl

lemma checkAndUpdateTy_eq_boxElem {ed : δ} {t : Ty δ} (h : ∀ ts, t ≠ .tuple ts) :
    checkAndUpdateTy ed t = boxElem ed t := by
  cases t with
  | tuple ts => exact absurd rfl (h ts)
  | _ => rfl

/-- An element that is boxed contains nothing, and every other element what it did. -/
lemma mem_byValue_boxElem {ed v : δ} {t : Ty δ} :
    v ∈ (boxElem ed t).byValue ↔ v ∈ t.byValue ∧ t ≠ .value ed := by
  rw [boxElem]
  split_ifs with h
  · exact iff_of_false List.not_mem_nil fun h' => h'.2 (isSpecified_iff.mp h)
  · exact (and_iff_left fun heq => h (isSpecified_iff.mpr heq)).symm

lemma inTuple_boxElem (ed : δ) (t : Ty δ) : (boxElem ed t).inTuple = t.inTuple := by
  rw [boxElem]
  split_ifs with h
  · rw [isSpecified_iff.mp h]
    rfl
  · rfl

/-- Boxing takes an enum out of a type, except where it is nested. -/
lemma mem_byValue_checkAndUpdateTy {ed v : δ} (t : Ty δ) :
    v ∈ (checkAndUpdateTy ed t).byValue ↔ v ∈ t.byValue ∧ (v = ed → v ∈ t.nested) := by
  by_cases htuple : ∃ ts, t = .tuple ts
  · obtain ⟨ts, rfl⟩ := htuple
    rw [checkAndUpdateTy_tuple, Ty.byValue, Ty.byValue, Ty.nested, Ty.byValueAll_eq,
      Ty.byValueAll_eq, List.mem_flatMap, List.mem_flatMap, List.mem_flatMap]
    constructor
    · rintro ⟨t', ht', hv⟩
      obtain ⟨t, ht, rfl⟩ := List.mem_map.mp ht'
      obtain ⟨hmem, hne⟩ := mem_byValue_boxElem.mp hv
      refine ⟨⟨t, ht, hmem⟩, fun heq => ⟨t, ht, ?_⟩⟩
      cases t with
      | value d =>
        rw [Ty.byValue, List.mem_singleton] at hmem
        exact absurd (by rw [← heq, hmem]) hne
      | tuple ts =>
        rw [Ty.byValue] at hmem
        exact hmem
      | refEnum _ => exact absurd hmem List.not_mem_nil
      | primitive _ => exact absurd hmem List.not_mem_nil
      | reference _ => exact absurd hmem List.not_mem_nil
    · rintro ⟨⟨t, ht, hmem⟩, hnested⟩
      by_cases heq : v = ed
      · obtain ⟨t', ht', hin⟩ := hnested heq
        cases t' with
        | tuple ts =>
          refine ⟨_, List.mem_map_of_mem ht', mem_byValue_boxElem.mpr ⟨?_, by simp⟩⟩
          rw [Ty.byValue]
          exact hin
        | _ => exact absurd hin List.not_mem_nil
      · refine ⟨_, List.mem_map_of_mem ht, mem_byValue_boxElem.mpr ⟨hmem, ?_⟩⟩
        rintro rfl
        rw [Ty.byValue, List.mem_singleton] at hmem
        exact heq hmem
  · have hnot : ∀ ts, t ≠ .tuple ts := fun ts heq => htuple ⟨ts, heq⟩
    have hnested : t.nested = [] := by
      cases t with
      | tuple ts => exact absurd rfl (hnot ts)
      | _ => rfl
    rw [checkAndUpdateTy_eq_boxElem hnot, mem_byValue_boxElem, hnested]
    refine and_congr_right fun hmem => ⟨fun hne heq => ?_, fun hne heq => ?_⟩
    · cases t with
      | value d =>
        rw [Ty.byValue, List.mem_singleton] at hmem
        exact absurd (by rw [← heq, hmem]) hne
      | tuple ts => exact absurd rfl (hnot ts)
      | _ => exact absurd hmem List.not_mem_nil
    · rw [heq, Ty.byValue, List.mem_singleton] at hmem
      exact List.not_mem_nil (hne hmem)

lemma nested_checkAndUpdateTy (ed : δ) (t : Ty δ) : (checkAndUpdateTy ed t).nested = t.nested := by
  by_cases htuple : ∃ ts, t = .tuple ts
  · obtain ⟨ts, rfl⟩ := htuple
    rw [checkAndUpdateTy_tuple, Ty.nested, Ty.nested, List.flatMap_map]
    exact congrArg (fun f => ts.flatMap f) (funext (inTuple_boxElem ed))
  · have hnot : ∀ ts, t ≠ .tuple ts := fun ts heq => htuple ⟨ts, heq⟩
    rw [checkAndUpdateTy_eq_boxElem hnot, boxElem]
    split_ifs with h
    · rw [isSpecified_iff.mp h]
      rfl
    · rfl

/-- A type with several enums boxed, one after the other. -/
def boxAll (es : List δ) (t : Ty δ) : Ty δ := es.foldl (fun t ed => checkAndUpdateTy ed t) t

lemma mem_byValue_boxAll {es : List δ} {v : δ} (t : Ty δ) :
    v ∈ (boxAll es t).byValue ↔ v ∈ t.byValue ∧ (v ∈ es → v ∈ t.nested) := by
  induction es generalizing t with
  | nil => exact (and_iff_left fun h => absurd h List.not_mem_nil).symm
  | cons ed es ih =>
    rw [boxAll, List.foldl_cons]
    refine (ih _).trans ?_
    rw [mem_byValue_checkAndUpdateTy, nested_checkAndUpdateTy, List.mem_cons, and_assoc]
    refine and_congr_right fun _ => ⟨fun h hor => hor.elim h.1 h.2, fun h => ?_⟩
    exact ⟨fun heq => h (Or.inl heq), fun hmem => h (Or.inr hmem)⟩

/-- Enums that a type does not contain are not boxed in it. -/
lemma boxAll_eq_self {es : List δ} {t : Ty δ} (h : ∀ ed ∈ es, ed ∉ t.byValue) :
    boxAll es t = t := by
  induction es with
  | nil => rfl
  | cons ed es ih =>
    have hself : checkAndUpdateTy ed t = t := by
      have hnot : ed ∉ t.byValue := h ed List.mem_cons_self
      by_cases htuple : ∃ ts, t = .tuple ts
      · obtain ⟨ts, rfl⟩ := htuple
        rw [checkAndUpdateTy]
        refine if_neg fun hany => hnot ?_
        obtain ⟨t, ht, hspec⟩ := List.any_eq_true.mp hany
        rw [Ty.byValue, Ty.byValueAll_eq, List.mem_flatMap]
        refine ⟨t, ht, ?_⟩
        rw [isSpecified_iff.mp hspec, Ty.byValue]
        exact List.mem_cons_self
      · rw [checkAndUpdateTy_eq_boxElem fun ts heq => htuple ⟨ts, heq⟩, boxElem]
        refine if_neg fun hspec => hnot ?_
        rw [isSpecified_iff.mp hspec, Ty.byValue]
        exact List.mem_cons_self
    rw [boxAll, List.foldl_cons, hself]
    exact ih fun e he => h e (List.mem_cons_of_mem _ he)

end Boxing

end Cangjie.EliminateRecursiveTypes
