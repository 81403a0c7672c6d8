import CangjieCompiler.CHIR.Analysis.ValueDomain
import CangjieCompiler.Foundations.OrderedMap

/-!
# Pools of abstract values

The pool of a state gives values of the program and abstract objects their abstract values.  The
full pool is a map.  The active pool is bounded: it keeps its keys in the order of insertion and
evicts the oldest ones when it overflows, and a key that it does not have is unknown.

A value of the program or an abstract object is given by its identity.  The maps are walked in the
order of the keys.  `At` is asked by the joins for abstract objects only, which have no type, so
that the active pool answers `TOP_STATE` for a missing one.
-/

namespace Cangjie.CHIR

/-- The identity of a value of the program or of an abstract object. -/
abbrev Value := ℕ

/-- The operations of a pool that the joins of states use. -/
class StatePool (P : Type) (V : outParam Type) where
  empty : P
  at? : P → Value → Option (ValueDomain V)
  emplace : P → Value → ValueDomain V → P
  clear : P → P
  join : P → P → P × Bool

/-- A run over the entries of a map that collects whether a step reports a change. -/
def joinEntries {P E : Type} (step : E → P → P × Bool) : List E → P → P × Bool
  | [], p => (p, false)
  | e :: es, p =>
    let (p₁, changed) := step e p
    let (p₂, rest) := joinEntries step es p₁
    (p₂, changed || rest)

section JoinEntries

variable {P E : Type} {step : E → P → P × Bool}

@[simp] lemma joinEntries_nil (p : P) : joinEntries step [] p = (p, false) := rfl

@[simp] lemma joinEntries_cons_fst (e : E) (es : List E) (p : P) :
    (joinEntries step (e :: es) p).1 = (joinEntries step es (step e p).1).1 := rfl

@[simp] lemma joinEntries_cons_snd (e : E) (es : List E) (p : P) :
    (joinEntries step (e :: es) p).2 = ((step e p).2 || (joinEntries step es (step e p).1).2) := rfl

/-- What every step keeps is kept by the run. -/
lemma joinEntries_keeps {I : P → Prop} {es : List E}
    (h : ∀ e ∈ es, ∀ p, I p → I (step e p).1) {p : P} (hp : I p) :
    I (joinEntries step es p).1 := by
  induction es generalizing p with
  | nil => exact hp
  | cons e es ih =>
    rw [joinEntries_cons_fst]
    exact ih (fun e' he' => h e' (List.mem_cons_of_mem e he')) (h e List.mem_cons_self p hp)

/-- Steps that leave the pool as it is make up a run that does so. -/
lemma joinEntries_same {es : List E} {p : P} (h : ∀ e ∈ es, (step e p).1 = p) :
    (joinEntries step es p).1 = p := by
  induction es with
  | nil => rfl
  | cons e es ih =>
    rw [joinEntries_cons_fst, h e List.mem_cons_self]
    exact ih fun e' he' => h e' (List.mem_cons_of_mem e he')

end JoinEntries

variable {V : Type}

/-- A key has a value that absorbs another one. -/
def Knows [AbstractValue V] (m : OrderedMap Value (ValueDomain V)) (k : Value)
    (x : ValueDomain V) : Prop :=
  ∃ d, m.find? k = some d ∧ d.Absorbs x

/-! ## The full pool -/

structure FullStatePool (V : Type) where
  data : OrderedMap Value (ValueDomain V)

namespace FullStatePool

variable [AbstractValue V]

/-- One entry of `MapJoinTemplate`. -/
def joinEntry (e : Value × ValueDomain V) (p : FullStatePool V) : FullStatePool V × Bool :=
  match p.data.find? e.1 with
  | some d => (⟨p.data.modify e.1 fun _ => (d.join e.2).1⟩, (d.join e.2).2)
  | none => (⟨p.data.emplace e.1 e.2⟩, true)

instance : StatePool (FullStatePool V) V where
  empty := ⟨OrderedMap.empty⟩
  at? p k := p.data.find? k
  emplace p k d := ⟨p.data.emplace k d⟩
  clear p := ⟨p.data.mapValues ValueDomain.clear⟩
  join p rhs := joinEntries joinEntry rhs.data.entries p

/-- Every key of the second pool has an absorbing value in the first one. -/
def Covers (p q : FullStatePool V) : Prop :=
  ∀ e ∈ q.data.entries, Knows p.data e.1 e.2

lemma joinEntry_of_knows {p : FullStatePool V} {e : Value × ValueDomain V}
    (h : Knows p.data e.1 e.2) : (joinEntry e p).1 = p := by
  obtain ⟨d, hfind, habs⟩ := h
  unfold joinEntry
  rw [hfind]
  refine congrArg FullStatePool.mk (OrderedMap.modify_eq_self fun v hv => ?_)
  rw [hfind] at hv
  obtain rfl := Option.some.inj hv
  exact habs

lemma knows_of_not_changed {p : FullStatePool V} {e : Value × ValueDomain V}
    (h : (joinEntry e p).2 = false) : Knows p.data e.1 e.2 := by
  unfold joinEntry at h
  split at h
  · next d hfind => exact ⟨d, hfind, ValueDomain.absorbs_of_not_changed h⟩
  · exact absurd h (by simp)

/-- The join with a covered pool leaves the pool as it is. -/
lemma join_of_covers {p q : FullStatePool V} (h : p.Covers q) : (StatePool.join p q).1 = p :=
  joinEntries_same fun e he => joinEntry_of_knows (h e he)

/-- A join that reports no change makes none. -/
lemma join_of_not_changed {p q : FullStatePool V} (h : (StatePool.join p q).2 = false) :
    (StatePool.join p q).1 = p := by
  dsimp only [StatePool.join] at h ⊢
  generalize q.data.entries = es at h ⊢
  induction es with
  | nil => rfl
  | cons e es ih =>
    rw [joinEntries_cons_snd, Bool.or_eq_false_iff] at h
    have hhead := joinEntry_of_knows (knows_of_not_changed h.1)
    rw [joinEntries_cons_fst, hhead]
    rw [hhead] at h
    exact ih h.2

lemma knows_emplace {m : OrderedMap Value (ValueDomain V)} {k : Value} {x : ValueDomain V}
    (h : Knows m k x) (k' : Value) (v : ValueDomain V) : Knows (m.emplace k' v) k x := by
  obtain ⟨d, hfind, habs⟩ := h
  refine ⟨d, ?_, habs⟩
  rw [OrderedMap.find?_emplace]
  split_ifs with hkey
  · rw [hkey, hfind, Option.getD_some]
  · exact hfind

variable [LawfulJoin V]

lemma knows_modify {m : OrderedMap Value (ValueDomain V)} {k k' : Value} {x d : ValueDomain V}
    (h : Knows m k x) (hd : m.find? k' = some d) (e : ValueDomain V) :
    Knows (m.modify k' fun _ => (d.join e).1) k x := by
  obtain ⟨d', hfind, habs⟩ := h
  by_cases hkey : k = k'
  · subst hkey
    obtain rfl := Option.some.inj (hd.symm.trans hfind)
    refine ⟨(d.join e).1, ?_, ValueDomain.absorbs_mono habs e⟩
    rw [OrderedMap.find?_modify, if_pos rfl, hfind, Option.map_some]
  · refine ⟨d', ?_, habs⟩
    rw [OrderedMap.find?_modify, if_neg hkey]
    exact hfind

lemma joinEntry_keeps {p : FullStatePool V} {k : Value} {x : ValueDomain V}
    (h : Knows p.data k x) (e : Value × ValueDomain V) : Knows (joinEntry e p).1.data k x := by
  unfold joinEntry
  split
  · next d hfind => exact knows_modify h hfind e.2
  · exact knows_emplace h e.1 e.2

lemma joinEntry_knows (p : FullStatePool V) (e : Value × ValueDomain V) :
    Knows (joinEntry e p).1.data e.1 e.2 := by
  unfold joinEntry
  split
  · next d hfind =>
    refine ⟨(d.join e.2).1, ?_, ValueDomain.join_absorbs d e.2⟩
    rw [OrderedMap.find?_modify, if_pos rfl, hfind, Option.map_some]
  · next hfind =>
    refine ⟨e.2, ?_, ValueDomain.absorbs_self e.2⟩
    rw [OrderedMap.find?_emplace, if_pos rfl, hfind, Option.getD_none]

lemma covers_self (p : FullStatePool V) : p.Covers p := fun e he =>
  ⟨e.2, (p.data.find?_eq_some_iff).mpr he, ValueDomain.absorbs_self e.2⟩

/-- What was covered before a join is covered after it. -/
lemma join_keeps {p x : FullStatePool V} (h : p.Covers x) (q : FullStatePool V) :
    (StatePool.join p q).1.Covers x := fun e he =>
  joinEntries_keeps (I := fun p' : FullStatePool V => Knows p'.data e.1 e.2)
    (fun e' _ _ hp => joinEntry_keeps hp e') (h e he)

/-- The joined pool covers the operand. -/
lemma join_covers (p q : FullStatePool V) : (StatePool.join p q).1.Covers q := by
  intro e he
  dsimp only [StatePool.join]
  generalize q.data.entries = es at he
  induction es generalizing p with
  | nil => exact absurd he List.not_mem_nil
  | cons e' es ih =>
    rw [joinEntries_cons_fst]
    rcases List.mem_cons.mp he with rfl | htail
    · exact joinEntries_keeps (I := fun p' : FullStatePool V => Knows p'.data e.1 e.2)
        (fun e' _ _ hp => joinEntry_keeps hp e') (joinEntry_knows p e)
    · exact ih _ htail

end FullStatePool

end Cangjie.CHIR
