import CangjieCompiler.CHIR.Analysis.StatePool

/-!
# States of the value analyses

A state says whether its block has been reached, and has a pool of abstract values and a map from
references to objects or other references.  The join of two states joins the pools and then the
maps; two references that cannot stand for each other are merged into a new one with a new object.

The pools of references and objects are shared by the states of an analysis.  What a join needs of
them is the identity of the next reference and the next object, `Pools`.  The maps from allocations
to references and from values to their children are not read by joins and are left out.
-/

namespace Cangjie.CHIR

/-- What a reference stands for: `std::variant<Ref*, AbstractObject*>`. -/
inductive RefTarget where
  | ref (r : Ref)
  | obj (o : Value)
  deriving DecidableEq

/-- The identities of the next reference and the next abstract object. -/
structure Pools where
  refPool : ℕ
  absObjPool : ℕ
  deriving DecidableEq

abbrev RefMap := OrderedMap ℕ RefTarget

structure State (P : Type) where
  reachable : Bool
  programState : P
  refMap : RefMap

namespace State

variable {P V : Type} [StatePool P V]

/-- The state before a block is reached. -/
def bottom : State P := ⟨false, StatePool.empty, OrderedMap.empty⟩

def isBottom (t : State P) : Bool := !t.reachable

def clearState (t : State P) : State P :=
  { t with programState := StatePool.clear t.programState }

/-! ## Joins of references -/

/-- What the action of `RefMapJoin` does with the target of a common reference. -/
inductive RefAction where
  | keep
  | take (v : RefTarget)
  | merge (ref₁ ref₂ : Ref)
  | invalid
  deriving DecidableEq

def refAction : RefTarget → RefTarget → RefAction
  | .ref ref₁, v₂ =>
    if ref₁.isTopRefInstance then .keep
    else
      match v₂ with
      | .obj _ => .invalid
      | .ref ref₂ =>
        if ref₂.isTopRefInstance then .take (.ref Ref.topRefInstance)
        else if ref₁ ≠ ref₂ then
          if ref₁.isEquivalent ref₂ then .keep
          else if ref₂.canRepresent ref₁ then .take (.ref ref₂)
          else if ref₁.canRepresent ref₂ then .keep
          else .merge ref₁ ref₂
        else .keep
  | .obj _, _ => .keep

/-- The object that a reference stands for; a missing reference is an access past the end. -/
def getAbsObject (refMap : RefMap) (r : Ref) : Option Value :=
  match refMap.find? r.uniqueID with
  | some (.obj o) => some o
  | _ => none

def setTarget (t : State P) (k : ℕ) (v : RefTarget) : State P :=
  { t with refMap := t.refMap.modify k fun _ => v }

variable [AbstractValue V]

/-- The new reference with its object. -/
def mergeRef (pools : Pools) (t rhs : State P) (ref₁ ref₂ : Ref) :
    Option (Pools × State P × Ref) := do
  let lhsObj ← getAbsObject t.refMap ref₁
  let rhsObj ← getAbsObject rhs.refMap ref₂
  let a ← StatePool.at? t.programState lhsObj
  let b ← StatePool.at? rhs.programState rhsObj
  let newRef := Ref.addRoots pools.refPool ref₁ ref₂
  let newObj := pools.absObjPool
  return (⟨pools.refPool + 1, pools.absObjPool + 1⟩,
    { t with
      programState := StatePool.emplace t.programState newObj (a.join b).1
      refMap := t.refMap.emplace newRef.uniqueID (.obj newObj) },
    newRef)

/-- One entry of the operand in `RefMapJoin`. -/
def joinRef (rhs : State P) (e : ℕ × RefTarget) (pools : Pools) (t : State P) :
    Option (Pools × State P × Bool) :=
  match t.refMap.find? e.1 with
  | none => some (pools, { t with refMap := t.refMap.emplace e.1 e.2 }, true)
  | some v₁ =>
    match refAction v₁ e.2 with
    | .keep => some (pools, t, false)
    | .take v => some (pools, t.setTarget e.1 v, true)
    | .merge ref₁ ref₂ =>
      (mergeRef pools t rhs ref₁ ref₂).map fun (pools, t, newRef) =>
        (pools, t.setTarget e.1 (.ref newRef), true)
    | .invalid => none

def refMapJoin (rhs : State P) : List (ℕ × RefTarget) → Pools → State P →
    Option (Pools × State P × Bool)
  | [], pools, t => some (pools, t, false)
  | e :: es, pools, t => do
    let (pools, t, changed) ← joinRef rhs e pools t
    let (pools, t, rest) ← refMapJoin rhs es pools t
    return (pools, t, changed || rest)

/-- The joined state and whether it is reported as changed. -/
def join (pools : Pools) (t rhs : State P) : Option (Pools × State P × Bool) :=
  if !rhs.reachable then some (pools, t, false)
  else if !t.reachable then some (pools, rhs, true)
  else
    let (p, changed) := StatePool.join t.programState rhs.programState
    (refMapJoin rhs rhs.refMap.entries pools { t with programState := p }).map
      fun (pools, t, rest) => (pools, t, changed || rest)

end State

/-! ## Targets that absorb others -/

/-- The target of a reference is left as it is by the join with another one. -/
def RefTarget.Absorbs : RefTarget → RefTarget → Prop
  | .ref r, .ref q => r.Absorbs q
  | .ref r, .obj _ => r = Ref.topRefInstance
  | .obj _, _ => True

namespace State

lemma absorbs_self (v : RefTarget) : v.Absorbs v := by
  cases v with
  | ref r => exact Ref.Absorbs.refl r
  | obj o => trivial

lemma absorbs_trans_ref {r q : Ref} (h : r.Absorbs q) (hq : q ≠ Ref.topRefInstance)
    {x : RefTarget} (hx : (RefTarget.ref q).Absorbs x) : (RefTarget.ref r).Absorbs x := by
  cases x with
  | ref p => exact h.trans hx
  | obj o => exact absurd hx hq

lemma ne_topRef_of {r : Ref} (h : ¬r.isTopRefInstance = true) : r ≠ Ref.topRefInstance :=
  fun heq => h (decide_eq_true heq)

lemma refAction_of_absorbs {v₁ v₂ : RefTarget} (h : v₁.Absorbs v₂) :
    refAction v₁ v₂ = .keep := by
  cases v₁ with
  | obj o => rfl
  | ref r =>
    dsimp only [refAction]
    by_cases htop : r.isTopRefInstance = true
    · rw [if_pos htop]
    · rw [if_neg htop]
      cases v₂ with
      | obj o => exact absurd h (ne_topRef_of htop)
      | ref q =>
        dsimp only
        rcases h with hr | heq | ⟨hrep, hq⟩
        · exact absurd hr (ne_topRef_of htop)
        · subst heq
          rw [if_neg htop, if_neg (not_not_intro rfl)]
        · have hqtop : ¬q.isTopRefInstance = true := fun ht => hq (of_decide_eq_true ht)
          rw [if_neg hqtop]
          split_ifs with hne hequiv hback
          · rfl
          · refine absurd ?_ hequiv
            rw [Ref.canRepresent_iff] at hrep hback
            have hqr := hrep.2
            have hrq := hback.2
            rw [Ref.addedRoots_of_ne hback.1] at hqr
            rw [Ref.addedRoots_of_ne hrep.1] at hrq
            rw [Ref.isEquivalent, Bool.and_eq_true, decide_eq_true_eq, decide_eq_true_eq]
            exact ⟨hrep.1, hrq.antisymm hqr⟩
          · rfl
          · rfl

lemma absorbs_of_refAction_keep {v₁ v₂ : RefTarget} (h : refAction v₁ v₂ = .keep) :
    v₁.Absorbs v₂ := by
  cases v₁ with
  | obj o => trivial
  | ref r =>
    dsimp only [refAction] at h
    by_cases htop : r.isTopRefInstance = true
    · have hr : r = Ref.topRefInstance := of_decide_eq_true htop
      cases v₂ with
      | obj o => exact hr
      | ref q => exact Or.inl hr
    · rw [if_neg htop] at h
      cases v₂ with
      | obj o => exact absurd h (by simp)
      | ref q =>
        dsimp only at h
        split_ifs at h with hqtop hne hequiv hback hrep
        · exact Ref.absorbs_of_isEquivalent hequiv (ne_topRef_of hqtop)
        · exact Or.inr (Or.inr ⟨hrep, ne_topRef_of hqtop⟩)
        · exact Or.inr (Or.inl (not_not.mp hne))

/-- A target that is taken over absorbs both operands. -/
lemma absorbs_of_refAction_take {v₁ v₂ v : RefTarget} (h : refAction v₁ v₂ = .take v) :
    v.Absorbs v₂ ∧ ∀ x, v₁.Absorbs x → v.Absorbs x := by
  cases v₁ with
  | obj o => exact absurd h (by simp [refAction])
  | ref r =>
    dsimp only [refAction] at h
    by_cases htop : r.isTopRefInstance = true
    · rw [if_pos htop] at h
      exact absurd h (by simp)
    · rw [if_neg htop] at h
      cases v₂ with
      | obj o => exact absurd h (by simp)
      | ref q =>
        dsimp only at h
        split_ifs at h with hqtop hne hequiv hback
        · obtain rfl := RefAction.take.inj h
          refine ⟨Or.inl rfl, fun x hx => ?_⟩
          cases x with
          | ref p => exact Or.inl rfl
          | obj o => exact rfl
        · obtain rfl := RefAction.take.inj h
          have hr := ne_topRef_of htop
          exact ⟨Ref.Absorbs.refl q, fun x => absorbs_trans_ref (Or.inr (Or.inr ⟨hback, hr⟩)) hr⟩

/-- The target of merged references absorbs both operands. -/
lemma absorbs_of_refAction_merge {v₁ v₂ : RefTarget} {ref₁ ref₂ : Ref}
    (h : refAction v₁ v₂ = .merge ref₁ ref₂) (n : ℕ) :
    (RefTarget.ref (Ref.addRoots n ref₁ ref₂)).Absorbs v₂ ∧
      ∀ x, v₁.Absorbs x → (RefTarget.ref (Ref.addRoots n ref₁ ref₂)).Absorbs x := by
  cases v₁ with
  | obj o => exact absurd h (by simp [refAction])
  | ref r =>
    dsimp only [refAction] at h
    by_cases htop : r.isTopRefInstance = true
    · rw [if_pos htop] at h
      exact absurd h (by simp)
    · rw [if_neg htop] at h
      cases v₂ with
      | obj o => exact absurd h (by simp)
      | ref q =>
        dsimp only at h
        split_ifs at h with hqtop hne hequiv hback hrep
        obtain ⟨rfl, rfl⟩ := RefAction.merge.inj h
        have hr := ne_topRef_of htop
        exact ⟨Ref.addRoots_absorbs n (Or.inr rfl) (ne_topRef_of hqtop),
          fun x => absorbs_trans_ref (Ref.addRoots_absorbs n (Or.inl rfl) hr) hr⟩

end State

end Cangjie.CHIR
