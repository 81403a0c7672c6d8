import CangjieCompiler.CHIR.Analysis.ActiveStatePool
import CangjieCompiler.CHIR.Analysis.ValueAnalysis

/-!
# What the join of states does

A state covers another one if the join with it changes nothing.  The joined state covers the
operand and all that was covered before, and a join that changes something reports it.  States with
the full pool have this for all operands, states with the active pool for those that `Quiet` admits.
-/

namespace Cangjie.CHIR.State

variable {P V : Type} [StatePool P V] [AbstractValue V]

/-! ## The map of references -/

/-- A reference has a target that absorbs another one. -/
def KnowsRef (m : RefMap) (k : ℕ) (x : RefTarget) : Prop := ∃ v, m.find? k = some v ∧ v.Absorbs x

/-- Every reference of the second map has an absorbing target in the first one. -/
def RefsCover (m m' : RefMap) : Prop := ∀ e ∈ m'.entries, KnowsRef m e.1 e.2

/-- The join with a target merges two references. -/
def merges (own : Option RefTarget) (x : RefTarget) : Bool :=
  match own with
  | none => false
  | some v =>
    match refAction v x with
    | .merge _ _ => true
    | _ => false

/-- The number of references that an operand merges. -/
def mergeCount (m : RefMap) (es : List (ℕ × RefTarget)) : ℕ :=
  es.countP fun e => merges (m.find? e.1) e.2

lemma refsCover_self (m : RefMap) : RefsCover m m := fun e he =>
  ⟨e.2, (m.find?_eq_some_iff).mpr he, absorbs_self e.2⟩

lemma knowsRef_emplace {m : RefMap} {k : ℕ} {x : RefTarget} (h : KnowsRef m k x) (k' : ℕ)
    (v : RefTarget) : KnowsRef (m.emplace k' v) k x := by
  obtain ⟨w, hfind, habs⟩ := h
  refine ⟨w, ?_, habs⟩
  rw [OrderedMap.find?_emplace]
  split_ifs with hkey
  · rw [hkey, hfind, Option.getD_some]
  · exact hfind

lemma knowsRef_modify {m : RefMap} {k k' : ℕ} {x w v : RefTarget} (h : KnowsRef m k x)
    (hw : m.find? k' = some w) (hv : ∀ x, w.Absorbs x → v.Absorbs x) :
    KnowsRef (m.modify k' fun _ => v) k x := by
  obtain ⟨w', hfind, habs⟩ := h
  by_cases hkey : k = k'
  · subst hkey
    obtain rfl := Option.some.inj (hw.symm.trans hfind)
    refine ⟨v, ?_, hv x habs⟩
    rw [OrderedMap.find?_modify, if_pos rfl, hfind, Option.map_some]
  · refine ⟨w', ?_, habs⟩
    rw [OrderedMap.find?_modify, if_neg hkey]
    exact hfind

lemma knowsRef_modify_self {m : RefMap} {k : ℕ} {x w v : RefTarget} (hw : m.find? k = some w)
    (hv : v.Absorbs x) : KnowsRef (m.modify k fun _ => v) k x := by
  refine ⟨v, ?_, hv⟩
  rw [OrderedMap.find?_modify, if_pos rfl, hw, Option.map_some]

lemma joinRef_of_knowsRef {rhs t : State P} {e : ℕ × RefTarget} (pools : Pools)
    (h : KnowsRef t.refMap e.1 e.2) : joinRef rhs e pools t = some (pools, t, false) := by
  obtain ⟨v, hfind, habs⟩ := h
  unfold joinRef
  rw [hfind]
  dsimp only
  rw [refAction_of_absorbs habs]

/-- What merging two references gives. -/
lemma mergeRef_eq_some {pools pools' : Pools} {t rhs t' : State P} {ref₁ ref₂ newRef : Ref}
    (h : mergeRef pools t rhs ref₁ ref₂ = some (pools', t', newRef)) :
    ∃ lhsObj a b, StatePool.at? t.programState lhsObj = some a ∧
      newRef = Ref.addRoots pools.refPool ref₁ ref₂ ∧
      t' = { t with
        programState := StatePool.emplace t.programState pools.absObjPool (a.join b).1
        refMap := t.refMap.emplace newRef.uniqueID (.obj pools.absObjPool) } := by
  unfold mergeRef at h
  obtain ⟨lhsObj, -, h⟩ := Option.bind_eq_some_iff.mp h
  obtain ⟨rhsObj, -, h⟩ := Option.bind_eq_some_iff.mp h
  obtain ⟨a, ha, h⟩ := Option.bind_eq_some_iff.mp h
  obtain ⟨b, -, h⟩ := Option.bind_eq_some_iff.mp h
  cases h
  exact ⟨lhsObj, a, b, ha, rfl, rfl⟩

/-- What one entry of the operand does to the map of references. -/
lemma joinRef_refMap {rhs t t' : State P} {e : ℕ × RefTarget} {pools pools' : Pools}
    {changed : Bool} (h : joinRef rhs e pools t = some (pools', t', changed)) :
    KnowsRef t'.refMap e.1 e.2 ∧
      (∀ k x, KnowsRef t.refMap k x → KnowsRef t'.refMap k x) ∧
      ∀ k x, k ≠ e.1 → merges (t'.refMap.find? k) x = true →
        merges (t.refMap.find? k) x = true := by
  unfold joinRef at h
  cases hfind : t.refMap.find? e.1 with
  | none =>
    rw [hfind] at h
    cases h
    refine ⟨⟨e.2, ?_, absorbs_self e.2⟩, fun k x hk => knowsRef_emplace hk e.1 e.2, ?_⟩
    · rw [OrderedMap.find?_emplace, if_pos rfl, hfind, Option.getD_none]
    · intro k x hne hmerge
      rwa [OrderedMap.find?_emplace, if_neg (Ne.symm hne)] at hmerge
  | some v =>
    rw [hfind] at h
    dsimp only at h
    split at h
    · next hkeep =>
      cases h
      exact ⟨⟨v, hfind, absorbs_of_refAction_keep hkeep⟩, fun _ _ hk => hk, fun _ _ _ hm => hm⟩
    · next w htake =>
      cases h
      obtain ⟨habs, hmono⟩ := absorbs_of_refAction_take htake
      refine ⟨knowsRef_modify_self hfind habs, fun k x hk => knowsRef_modify hk hfind hmono, ?_⟩
      intro k x hne hmerge
      dsimp only [setTarget] at hmerge
      rwa [OrderedMap.find?_modify, if_neg hne] at hmerge
    · next ref₁ ref₂ hmerge =>
      obtain ⟨⟨pools₁, t₁, newRef⟩, hnew, heq⟩ := Option.map_eq_some_iff.mp h
      cases heq
      obtain ⟨lhsObj, a, b, -, hnewRef, rfl⟩ := mergeRef_eq_some hnew
      obtain ⟨habs, hmono⟩ := absorbs_of_refAction_merge hmerge pools.refPool
      rw [← hnewRef] at habs hmono
      have hfind' : (t.refMap.emplace newRef.uniqueID (.obj pools.absObjPool)).find? e.1 =
          some v := by
        rw [OrderedMap.find?_emplace]
        split_ifs with hkey
        · rw [hkey, hfind, Option.getD_some]
        · exact hfind
      refine ⟨knowsRef_modify_self hfind' habs, ?_, ?_⟩
      · exact fun k x hk => knowsRef_modify (knowsRef_emplace hk _ _) hfind' hmono
      · intro k x hne hm
        dsimp only [setTarget] at hm
        rw [OrderedMap.find?_modify, if_neg hne, OrderedMap.find?_emplace] at hm
        split_ifs at hm with hkey
        · subst hkey
          cases hk : t.refMap.find? newRef.uniqueID with
          | none =>
            -- the new reference stands for an object, which is never merged
            rw [hk] at hm
            exact absurd hm (by simp [merges, refAction])
          | some w =>
            rw [hk] at hm
            exact hm
        · exact hm
    · cases h

/-- An entry that reports no change makes none. -/
lemma joinRef_of_not_changed {rhs t t' : State P} {e : ℕ × RefTarget} {pools pools' : Pools}
    (h : joinRef rhs e pools t = some (pools', t', false)) :
    t' = t ∧ KnowsRef t.refMap e.1 e.2 := by
  unfold joinRef at h
  cases hfind : t.refMap.find? e.1 with
  | none =>
    rw [hfind] at h
    exact absurd h (by simp)
  | some v =>
    rw [hfind] at h
    dsimp only at h
    split at h
    · next hkeep =>
      cases h
      exact ⟨rfl, v, hfind, absorbs_of_refAction_keep hkeep⟩
    · exact absurd h (by simp)
    · obtain ⟨r, -, heq⟩ := Option.map_eq_some_iff.mp h
      exact absurd heq (by simp)
    · cases h

/-- An entry leaves the pool as it is, or adds an object to it for merged references. -/
lemma joinRef_programState {rhs t t' : State P} {e : ℕ × RefTarget} {pools pools' : Pools}
    {changed : Bool} (h : joinRef rhs e pools t = some (pools', t', changed)) :
    t'.reachable = t.reachable ∧ (t'.programState = t.programState ∨
      merges (t.refMap.find? e.1) e.2 = true ∧
      ∃ lhsObj a b, StatePool.at? t.programState lhsObj = some a ∧
        t'.programState =
          StatePool.emplace t.programState pools.absObjPool (ValueDomain.join a b).1) := by
  unfold joinRef at h
  cases hfind : t.refMap.find? e.1 with
  | none =>
    rw [hfind] at h
    cases h
    exact ⟨rfl, Or.inl rfl⟩
  | some v =>
    rw [hfind] at h
    dsimp only at h
    split at h
    · cases h
      exact ⟨rfl, Or.inl rfl⟩
    · cases h
      exact ⟨rfl, Or.inl rfl⟩
    · next ref₁ ref₂ hmerge =>
      obtain ⟨⟨pools₁, t₁, newRef⟩, hnew, heq⟩ := Option.map_eq_some_iff.mp h
      cases heq
      obtain ⟨lhsObj, a, b, ha, -, rfl⟩ := mergeRef_eq_some hnew
      refine ⟨rfl, Or.inr ⟨?_, lhsObj, a, b, ha, rfl⟩⟩
      unfold merges
      dsimp only
      rw [hmerge]
    · cases h

/-! ## Pools under merged references -/

/-- A family of properties of pools, indexed by the number of objects that may still be added, with
a relation between pools that the additions keep. -/
structure MergeStable (Within : ℕ → P → Prop) (C : P → P → Prop) : Prop where
  weaken : ∀ {n m p}, n ≤ m → Within m p → Within n p
  emplace : ∀ {n p obj lhsObj} {a b : ValueDomain V}, Within (n + 1) p →
    StatePool.at? p lhsObj = some a → Within n (StatePool.emplace p obj (a.join b).1) ∧
      ∀ x, C p x → C (StatePool.emplace p obj (a.join b).1) x

lemma mergeCount_joinRef_le {rhs t t' : State P} {e : ℕ × RefTarget} {es : List (ℕ × RefTarget)}
    {pools pools' : Pools} {changed : Bool} (hes : ∀ e' ∈ es, e.1 < e'.1)
    (h : joinRef rhs e pools t = some (pools', t', changed)) :
    mergeCount t'.refMap es ≤ mergeCount t.refMap es :=
  List.countP_mono_left fun e' he' hm =>
    (joinRef_refMap h).2.2 e'.1 e'.2 (hes e' he').ne' hm

/-- What the entries of an operand do to a state. -/
lemma refMapJoin_spec {Within : ℕ → P → Prop} {C : P → P → Prop} (hC : MergeStable Within C)
    {rhs : State P} {es : List (ℕ × RefTarget)} (hes : es.Pairwise (fun a b => a.1 < b.1))
    {t t' : State P} {pools pools' : Pools} {changed : Bool}
    (hwithin : Within (mergeCount t.refMap es) t.programState)
    (h : refMapJoin rhs es pools t = some (pools', t', changed)) :
    t'.reachable = t.reachable ∧ (∀ x, C t.programState x → C t'.programState x) ∧
      (∀ e ∈ es, KnowsRef t'.refMap e.1 e.2) ∧
      (∀ k x, KnowsRef t.refMap k x → KnowsRef t'.refMap k x) := by
  induction es generalizing t pools changed with
  | nil =>
    cases h
    exact ⟨rfl, fun _ hx => hx, fun e he => absurd he List.not_mem_nil, fun _ _ hx => hx⟩
  | cons e es ih =>
    obtain ⟨hlt, hes'⟩ := List.pairwise_cons.mp hes
    obtain ⟨⟨pools₁, t₁, c₁⟩, hhead, h⟩ := Option.bind_eq_some_iff.mp h
    obtain ⟨⟨pools₂, t₂, c₂⟩, htail, heq⟩ := Option.bind_eq_some_iff.mp h
    cases heq
    obtain ⟨hknows, hkeeps, -⟩ := joinRef_refMap hhead
    obtain ⟨hreach, hpool⟩ := joinRef_programState hhead
    have hle := mergeCount_joinRef_le hlt hhead
    have hstep : Within (mergeCount t₁.refMap es) t₁.programState ∧
        ∀ x, C t.programState x → C t₁.programState x := by
      unfold mergeCount at hwithin
      rw [List.countP_cons] at hwithin
      rcases hpool with hsame | ⟨hmerge, lhsObj, a, b, ha, hemplace⟩
      · rw [hsame]
        exact ⟨hC.weaken (hle.trans (Nat.le_add_right _ _)) hwithin, fun _ hx => hx⟩
      · rw [if_pos hmerge] at hwithin
        rw [hemplace]
        obtain ⟨hadd, hkeep⟩ := hC.emplace hwithin ha
        exact ⟨hC.weaken hle hadd, hkeep⟩
    obtain ⟨hreach', hpool', hall, hkeeps'⟩ := ih hes' hstep.1 htail
    refine ⟨hreach'.trans hreach, fun x hx => hpool' x (hstep.2 x hx), ?_,
      fun k x hx => hkeeps' k x (hkeeps k x hx)⟩
    intro e' he'
    rcases List.mem_cons.mp he' with rfl | hmem
    · exact hkeeps' _ _ hknows
    · exact hall e' hmem

lemma refMapJoin_of_not_changed {rhs t t' : State P} {es : List (ℕ × RefTarget)}
    {pools pools' : Pools} (h : refMapJoin rhs es pools t = some (pools', t', false)) :
    t' = t ∧ ∀ e ∈ es, KnowsRef t.refMap e.1 e.2 := by
  induction es generalizing t pools with
  | nil =>
    cases h
    exact ⟨rfl, fun e he => absurd he List.not_mem_nil⟩
  | cons e es ih =>
    obtain ⟨⟨pools₁, t₁, c₁⟩, hhead, h⟩ := Option.bind_eq_some_iff.mp h
    obtain ⟨⟨pools₂, t₂, c₂⟩, htail, heq⟩ := Option.bind_eq_some_iff.mp h
    have hflags := congrArg (fun r : Pools × State P × Bool => r.2.2) (Option.some.inj heq)
    obtain ⟨hc₁, hc₂⟩ := Bool.or_eq_false_iff.mp hflags
    obtain rfl : c₁ = false := hc₁
    obtain rfl : c₂ = false := hc₂
    obtain ⟨rfl, hknows⟩ := joinRef_of_not_changed hhead
    cases heq
    obtain ⟨hsame, hall⟩ := ih htail
    refine ⟨hsame, fun e' he' => ?_⟩
    rcases List.mem_cons.mp he' with rfl | hmem
    · exact hknows
    · exact hall e' hmem

lemma refMapJoin_of_cover {rhs t : State P} {es : List (ℕ × RefTarget)} (pools : Pools)
    (h : ∀ e ∈ es, KnowsRef t.refMap e.1 e.2) :
    refMapJoin rhs es pools t = some (pools, t, false) := by
  induction es with
  | nil => rfl
  | cons e es ih =>
    unfold refMapJoin
    rw [joinRef_of_knowsRef pools (h e List.mem_cons_self)]
    dsimp only [Option.bind_eq_bind, Option.bind_some]
    rw [ih fun e' he' => h e' (List.mem_cons_of_mem e he')]
    rfl

/-! ## Joins of states -/

/-- The second state would change nothing in the first one. -/
def Covers (C : P → P → Prop) (t e : State P) : Prop :=
  e.reachable = true →
    t.reachable = true ∧ C t.programState e.programState ∧ RefsCover t.refMap e.refMap

/-- The join of a reached state into a reached one. -/
lemma join_eq_some {t e t' : State P} {pools pools' : Pools} {changed : Bool}
    (he : e.reachable = true) (ht : t.reachable = true)
    (h : join pools t e = some (pools', t', changed)) :
    ∃ rest, refMapJoin e e.refMap.entries pools
        { t with programState := (StatePool.join t.programState e.programState).1 } =
          some (pools', t', rest) ∧
      changed = ((StatePool.join t.programState e.programState).2 || rest) := by
  unfold join at h
  rw [if_neg (by simp [he]), if_neg (by simp [ht])] at h
  obtain ⟨⟨pools₁, t₁, rest⟩, hrefs, heq⟩ := Option.map_eq_some_iff.mp h
  cases heq
  exact ⟨rest, hrefs, rfl⟩

/-- A covered state joined into another one leaves it as it is. -/
lemma join_of_covers {C : P → P → Prop}
    (hC : ∀ p q, C p q → (StatePool.join p q).1 = p) {t e : State P} (h : Covers C t e)
    (pools : Pools) : ∃ changed, join pools t e = some (pools, t, changed) := by
  unfold join
  cases he : e.reachable with
  | false => exact ⟨false, rfl⟩
  | true =>
    obtain ⟨ht, hpool, hrefs⟩ := h he
    refine ⟨(StatePool.join t.programState e.programState).2 || false, ?_⟩
    rw [if_neg (by simp), if_neg (by simp [ht])]
    dsimp only
    rw [hC _ _ hpool, refMapJoin_of_cover pools hrefs]
    rfl

/-- What is asked of the pools of two reached states that are joined. -/
structure PoolJoin (Within : ℕ → P → Prop) (C : P → P → Prop) (t e : State P) : Prop where
  within : Within (mergeCount t.refMap e.refMap.entries)
    (StatePool.join t.programState e.programState).1
  covers : C (StatePool.join t.programState e.programState).1 e.programState
  keeps : ∀ x, C t.programState x → C (StatePool.join t.programState e.programState).1 x
  seen : (StatePool.join t.programState e.programState).2 = false →
    RefsCover t.refMap e.refMap → (StatePool.join t.programState e.programState).1 = t.programState

/-- What is asked of two states that are joined, in all cases. -/
structure Joins (Within : ℕ → P → Prop) (C : P → P → Prop) (t e : State P) : Prop where
  first : e.reachable = true → t.reachable = false → C e.programState e.programState
  both : e.reachable = true → t.reachable = true → PoolJoin Within C t e

section Laws

variable {Within : ℕ → P → Prop} {C : P → P → Prop} (hC : MergeStable Within C)

include hC

lemma join_spec {t e t' : State P} {pools pools' : Pools} {changed : Bool}
    (hjoin : Joins Within C t e) (h : join pools t e = some (pools', t', changed)) :
    (changed = false → t' = t) ∧ Covers C t' e ∧ ∀ x, Covers C t x → Covers C t' x := by
  cases he : e.reachable with
  | false =>
    unfold join at h
    rw [he] at h
    cases h
    exact ⟨fun _ => rfl, fun hreach => absurd (he.symm.trans hreach) (by simp), fun _ hx => hx⟩
  | true =>
    cases ht : t.reachable with
    | false =>
      unfold join at h
      rw [he, ht] at h
      cases h
      refine ⟨fun hc => absurd hc (by simp), fun _ => ?_, fun x hx hreach => ?_⟩
      · exact ⟨he, hjoin.first he ht, refsCover_self _⟩
      · exact absurd (ht.symm.trans (hx hreach).1) (by simp)
    | true =>
      have hpool := hjoin.both he ht
      obtain ⟨rest, hrefs, rfl⟩ := join_eq_some he ht h
      obtain ⟨hreach, hkeeps, hall, hkeepsRefs⟩ :=
        refMapJoin_spec hC e.refMap.sorted hpool.within hrefs
      refine ⟨fun hc => ?_, fun _ => ?_, fun x hx hreachx => ?_⟩
      · obtain ⟨hc₁, hc₂⟩ := Bool.or_eq_false_iff.mp hc
        subst hc₂
        obtain ⟨rfl, hcover⟩ := refMapJoin_of_not_changed hrefs
        rw [hpool.seen hc₁ hcover]
      · exact ⟨hreach.trans ht, hkeeps _ hpool.covers, hall⟩
      · obtain ⟨-, hpoolx, hrefsx⟩ := hx hreachx
        exact ⟨hreach.trans ht, hkeeps _ (hpool.keeps _ hpoolx),
          fun e' he' => hkeepsRefs _ _ (hrefsx e' he')⟩

end Laws

/-! ## The full pool -/

section Full

variable [LawfulJoin V]

omit [LawfulJoin V] in
lemma mergeStable_full :
    MergeStable (P := FullStatePool V) (fun _ _ => True) FullStatePool.Covers where
  weaken _ h := h
  emplace _ _ :=
    ⟨trivial, fun _ hx e he => FullStatePool.knows_emplace (hx e he) _ _⟩

/-- Every pair of states with the full pool is joined as it should be. -/
lemma joins_full (t e : State (FullStatePool V)) :
    Joins (fun _ _ => True) FullStatePool.Covers t e where
  first _ _ := FullStatePool.covers_self _
  both _ _ :=
    { within := trivial
      covers := FullStatePool.join_covers _ _
      keeps := fun _ hx => FullStatePool.join_keeps hx _
      seen := fun h _ => FullStatePool.join_of_not_changed h }

end Full

/-! ## The active pool -/

section Active

/-- A pool of settled values with room for a number of further objects. -/
def WithRoom (n : ℕ) (p : ActiveStatePool V) : Prop :=
  p.AllSettled ∧ p.data.size + n < MAX_STATE_POOL_SIZE

/-- The join changes the value of a key that both pools have, or a target of a reference. -/
def ChangesKnown (t e : State (ActiveStatePool V)) : Prop :=
  (∃ x ∈ e.programState.data.entries, ∃ d, t.programState.data.find? x.1 = some d ∧
    ¬(ActiveStatePool.untrusted d).Absorbs x.2) ∨ ¬RefsCover t.refMap e.refMap

/-- No reference but the top one is given up, and no key is inserted. -/
def RewritesNothing (t e : State (ActiveStatePool V)) : Prop :=
  t.programState.RefsTop ∧ ∀ x ∈ e.programState.data.entries,
    t.programState.data.find? x.1 = none → x.2.isRef = true

/-- The joins of states with the active pool that report what they do: a state that is copied has
no reference but the top one; otherwise no value is `BOTTOM`, nothing is evicted, and references are
given up and keys inserted only when the value of a known key or a target changes as well. -/
structure Quiet (t e : State (ActiveStatePool V)) : Prop where
  copied : e.reachable = true → t.reachable = false → e.programState.RefsTop
  reached : e.reachable = true → t.reachable = true →
    ∀ k d, t.programState.data.find? k = some d ∨ e.programState.data.find? k = some d →
      d ≠ .BOTTOM
  room : e.reachable = true → t.reachable = true →
    t.programState.data.size + t.programState.freshEntries e.programState.data.entries +
      mergeCount t.refMap e.refMap.entries < MAX_STATE_POOL_SIZE
  seen : e.reachable = true → t.reachable = true → ChangesKnown t e ∨ RewritesNothing t e

variable [LawfulJoin V]

omit [LawfulJoin V] in
lemma mergeStable_active :
    MergeStable (P := ActiveStatePool V) WithRoom ActiveStatePool.Covers where
  weaken hle h := ⟨h.1, (Nat.add_le_add_left hle _).trans_lt h.2⟩
  emplace := by
    intro n p obj lhsObj a b hp ha
    obtain ⟨hsettled, hroom⟩ := hp
    have ha' : ActiveStatePool.Settled a := by
      obtain rfl := Option.some.inj ha
      cases hfind : p.data.find? lhsObj with
      | none => exact ActiveStatePool.settled_top
      | some d => exact hsettled lhsObj d hfind
    have hone : p.data.size + 1 < MAX_STATE_POOL_SIZE :=
      (Nat.add_le_add_left (Nat.le_add_left 1 n) _).trans_lt hroom
    have hall := ActiveStatePool.allSettled_insert hsettled obj (ha'.join b) hone
    have hsize := ActiveStatePool.size_insert_le obj (a.join b).1 hone
    refine ⟨⟨hall, ?_⟩, fun x hx => ⟨fun k d hd => (hall k d hd).2, fun e he => ?_⟩⟩
    · refine (Nat.add_le_add_right hsize n).trans_lt ?_
      rw [Nat.add_assoc, Nat.add_comm 1 n]
      exact hroom
    · exact ActiveStatePool.accepts_insert (hx.accepts e he) (ha'.join b) hone

omit [AbstractValue V] [LawfulJoin V] in
lemma find?_untrusted (p : ActiveStatePool V) (k : Value) :
    (p.mapValues ActiveStatePool.untrusted).data.find? k =
      (p.data.find? k).map ActiveStatePool.untrusted :=
  OrderedMap.find?_mapValues p.data _ k

omit [AbstractValue V] [LawfulJoin V] in
lemma freshEntries_untrusted (p : ActiveStatePool V) (es : List (Value × ValueDomain V)) :
    (p.mapValues ActiveStatePool.untrusted).freshEntries es = p.freshEntries es := by
  unfold ActiveStatePool.freshEntries
  refine List.countP_congr fun e _ => ?_
  rw [find?_untrusted, Option.isNone_map]

/-- The pools of two states that may be joined. -/
lemma poolJoin_active {t e : State (ActiveStatePool V)} (he : e.reachable = true)
    (ht : t.reachable = true) (h : Quiet t e) :
    PoolJoin WithRoom ActiveStatePool.Covers t e := by
  have hsettled : (t.programState.mapValues ActiveStatePool.untrusted).AllSettled := by
    intro k d hd
    rw [find?_untrusted] at hd
    obtain ⟨d', hd', rfl⟩ := Option.map_eq_some_iff.mp hd
    exact ActiveStatePool.settled_untrusted (h.reached he ht k d' (Or.inl hd'))
  have hvalues : ∀ x ∈ e.programState.data.entries, x.2 ≠ .BOTTOM := fun x hx =>
    h.reached he ht x.1 x.2 (Or.inr ((OrderedMap.find?_eq_some_iff _).mpr hx))
  have hroom : (t.programState.mapValues ActiveStatePool.untrusted).data.size +
      (t.programState.mapValues ActiveStatePool.untrusted).freshEntries
        e.programState.data.entries + mergeCount t.refMap e.refMap.entries <
      MAX_STATE_POOL_SIZE := by
    rw [freshEntries_untrusted]
    have hsize := OrderedMap.size_mapValues t.programState.data ActiveStatePool.untrusted
    exact (congrArg (· + _ + _) hsize).trans_lt (h.room he ht)
  obtain ⟨hall, hsize, hkeeps, haccepts⟩ :=
    ActiveStatePool.joinEntries_accepts hsettled hvalues hroom
  have htop : (StatePool.join t.programState e.programState).1.RefsTop :=
    fun k d hd => (hall k d hd).2
  refine ⟨⟨hall, hsize⟩, ⟨htop, haccepts⟩, fun x hx => ⟨htop, fun y hy => ?_⟩, fun hflag hrefs => ?_⟩
  · refine hkeeps _ _ ?_
    rw [ActiveStatePool.mapValues_eq_self hx.refsTop]
    exact hx.accepts y hy
  · have habs := ActiveStatePool.absorbs_of_not_changed hroom hflag
    rcases h.seen he ht with (⟨x, hx, d, hd, hnot⟩ | hnot) | ⟨hrefsTop, hpresent⟩
    · refine absurd (habs x hx (ActiveStatePool.untrusted d) ?_) hnot
      rw [find?_untrusted, hd, Option.map_some]
    · exact absurd hrefs hnot
    · refine ActiveStatePool.join_of_covers ⟨hrefsTop, fun x hx => ?_⟩
      rw [ActiveStatePool.mapValues_eq_self hrefsTop] at habs
      cases hfind : t.programState.data.find? x.1 with
      | some d => exact Or.inl ⟨d, hfind, habs x hx d hfind⟩
      | none => exact Or.inr ⟨hfind, hpresent x hx hfind⟩

lemma joins_active {t e : State (ActiveStatePool V)} (h : Quiet t e) :
    Joins WithRoom ActiveStatePool.Covers t e where
  first he ht := ActiveStatePool.covers_self (h.copied he ht)
  both he ht := poolJoin_active he ht h

end Active

end Cangjie.CHIR.State
