import CangjieCompiler.CHIR.Analysis.ActiveStatePool.PoolRuns

/-!
# What a join of bounded pools bounds

A key that a pool does not have is read as unknown, whether it was never stored or has been
evicted.  The join trusts no reference of the own pool, but it keeps the other values of keys that
the operand does not have, and inserts such values of the operand.  Hence its result bounds both
pools at exactly those keys whose kept value happens to do so.

Which keys are kept depends on the order in which the entries of the operand are visited, for an
insertion may evict keys that are visited later.
-/

namespace Cangjie.CHIR

/-! ## The order of abstract values -/

namespace ValueDomain

variable {V : Type}

/-- The states that `GetTopState` returns. -/
def IsTopState (d : ValueDomain V) : Prop := d = TOP ∨ d = topRefState

/-- The second value knows no more than the first one. -/
inductive BoundedBy [AbstractValue V] : ValueDomain V → ValueDomain V → Prop
  | top {d e : ValueDomain V} (h : e.IsTopState) : BoundedBy d e
  | bottom (e : ValueDomain V) : BoundedBy BOTTOM e
  | ref {r q : Ref} (h : q.Absorbs r) : BoundedBy (REF r) (REF q)
  | val {a b : V} (h : a = b ∨ (VAL b).Absorbs (VAL a)) : BoundedBy (VAL a) (VAL b)

end ValueDomain

/-- The join of two values into a third one gives a value that absorbs both. -/
class BoundingJoin (V : Type) [AbstractValue V] : Prop where
  absorbs_left : ∀ {a b c : V}, AbstractValue.join a b = some (some c) →
    (ValueDomain.VAL c).Absorbs (.VAL a)
  absorbs_right : ∀ {a b c : V}, AbstractValue.join a b = some (some c) →
    (ValueDomain.VAL c).Absorbs (.VAL b)

/-- Two constants are never joined into a third one. -/
instance {φ : Type} [BEq φ] : BoundingJoin (ConstValue φ) where
  absorbs_left h := absurd h (ConstValue.join_ne_some _ _ _)
  absorbs_right h := absurd h (ConstValue.join_ne_some _ _ _)

namespace ValueDomain

variable {V : Type} [AbstractValue V]

lemma BoundedBy.refl (d : ValueDomain V) : d.BoundedBy d := by
  cases d with
  | BOTTOM => exact .bottom _
  | REF r => exact .ref (Ref.Absorbs.refl r)
  | VAL a => exact .val (Or.inl rfl)
  | TOP => exact .top (Or.inl rfl)

/-- Only a top state bounds a top state. -/
lemma boundedBy_iff_of_isTopState {d e : ValueDomain V} (hd : d.IsTopState) :
    d.BoundedBy e ↔ e.IsTopState := by
  refine ⟨fun h => ?_, .top⟩
  cases h with
  | top he => exact he
  | bottom _ => rcases hd with h | h <;> exact absurd h (by simp [topRefState])
  | val _ => rcases hd with h | h <;> exact absurd h (by simp [topRefState])
  | @ref r q h =>
    rcases hd with hd | hd
    · exact absurd hd (by simp)
    · obtain rfl : r = Ref.topRefInstance := ValueDomain.REF.inj hd
      rcases h with htop | rfl | ⟨-, hne⟩
      · exact Or.inr (congrArg REF htop)
      · exact Or.inr rfl
      · exact absurd rfl hne

lemma not_ref_boundedBy_val (r : Ref) (a : V) : ¬(REF r : ValueDomain V).BoundedBy (VAL a) := by
  intro h
  cases h with
  | top h => rcases h with h | h <;> exact absurd h (by simp [topRefState])

/-- The join of two values of an analysis bounds both. -/
lemma boundedBy_join_val [BoundingJoin V] (a b : V) :
    (VAL a).BoundedBy ((VAL a).join (VAL b)).1 ∧ (VAL b).BoundedBy ((VAL a).join (VAL b)).1 := by
  cases hjoin : AbstractValue.join a b with
  | none =>
    have hsame : (join (VAL a) (VAL b)).1 = VAL a := by simp only [join, hjoin]
    rw [hsame]
    exact ⟨BoundedBy.refl _, .val (Or.inr hsame)⟩
  | some c =>
    cases c with
    | none =>
      have htop : (join (VAL a) (VAL b)).1 = TOP := by simp only [join, hjoin]
      rw [htop]
      exact ⟨.top (Or.inl rfl), .top (Or.inl rfl)⟩
    | some c =>
      have hval : (join (VAL a) (VAL b)).1 = VAL c := by simp only [join, hjoin]
      rw [hval]
      exact ⟨.val (Or.inr (BoundingJoin.absorbs_left hjoin)),
        .val (Or.inr (BoundingJoin.absorbs_right hjoin))⟩

/-- The join of an untrusted value bounds both operands unless a value of the analysis meets a
reference, which the join leaves out. -/
lemma boundedBy_join_untrusted_iff [BoundingJoin V] (d e : ValueDomain V) :
    d.BoundedBy ((ActiveStatePool.untrusted d).join e).1 ∧
        e.BoundedBy ((ActiveStatePool.untrusted d).join e).1 ↔
      ∀ a, d = VAL a → e.isRef = false := by
  cases d with
  | BOTTOM =>
    have hjoin : ((ActiveStatePool.untrusted (BOTTOM : ValueDomain V)).join e).1 = e := by
      cases e <;> rfl
    rw [hjoin]
    exact iff_of_true ⟨.bottom e, BoundedBy.refl e⟩ fun a h => absurd h (by simp)
  | TOP =>
    have hjoin : ((ActiveStatePool.untrusted (TOP : ValueDomain V)).join e).1 = TOP := rfl
    rw [hjoin]
    exact iff_of_true ⟨.top (Or.inl rfl), .top (Or.inl rfl)⟩ fun a h => absurd h (by simp)
  | REF r =>
    have hjoin : ((ActiveStatePool.untrusted (REF r : ValueDomain V)).join e).1.IsTopState := by
      cases e with
      | TOP => exact Or.inl rfl
      | BOTTOM => exact Or.inr rfl
      | REF q => exact Or.inr rfl
      | VAL b => exact Or.inr rfl
    exact iff_of_true ⟨.top hjoin, .top hjoin⟩ fun a h => absurd h (by simp)
  | VAL a =>
    cases e with
    | TOP =>
      exact iff_of_true ⟨.top (Or.inl rfl), .top (Or.inl rfl)⟩ fun _ _ => rfl
    | BOTTOM => exact iff_of_true ⟨BoundedBy.refl _, .bottom _⟩ fun _ _ => rfl
    | VAL b => exact iff_of_true (boundedBy_join_val a b) fun _ _ => rfl
    | REF q =>
      refine iff_of_false (fun h => not_ref_boundedBy_val q a h.2) fun h => ?_
      exact absurd (h a rfl) (by simp [isRef])

end ValueDomain

namespace ActiveStatePool

open PoolWorld

variable {V : Type}

/-! ## Readings -/

/-- The top state of a value, which depends on its type. -/
def getTopState (isRefType : Value → Bool) (value : Value) : ValueDomain V :=
  if isRefType value then .topRefState else .TOP

/-- The abstract value that `At` returns. -/
def readAt (isRefType : Value → Bool) (p : ActiveStatePool V) (value : Value) : ValueDomain V :=
  (p.data.find? value).getD (getTopState isRefType value)

lemma isTopState_getTopState (isRefType : Value → Bool) (value : Value) :
    (getTopState isRefType value : ValueDomain V).IsTopState := by
  unfold getTopState
  split_ifs
  · exact Or.inr rfl
  · exact Or.inl rfl

lemma readAt_of_some {isRefType : Value → Bool} {p : ActiveStatePool V} {k : Value}
    {d : ValueDomain V} (h : p.data.find? k = some d) : p.readAt isRefType k = d := by
  rw [readAt, h, Option.getD_some]

lemma isTopState_readAt (isRefType : Value → Bool) {p : ActiveStatePool V} {k : Value}
    (h : p.data.find? k = none) : (p.readAt isRefType k).IsTopState := by
  rw [readAt, h, Option.getD_none]
  exact isTopState_getTopState isRefType k

/-! ## Kept keys -/

/-- The keys after one entry of the operand. -/
def orderAfterEntry (order : List Value) (e : Value × ValueDomain V) : List Value :=
  if e.1 ∈ order ∨ e.2.isRef then order else orderAfter order e.1

/-- The keys after some entries of the operand. -/
def orderAfterEntries (order : List Value) (es : List (Value × ValueDomain V)) : List Value :=
  es.foldl orderAfterEntry order

lemma orderAfterEntries_cons (order : List Value) (e : Value × ValueDomain V)
    (es : List (Value × ValueDomain V)) :
    orderAfterEntries order (e :: es) = orderAfterEntries (orderAfterEntry order e) es := rfl

lemma orderAfterEntries_append (order : List Value) (es es' : List (Value × ValueDomain V)) :
    orderAfterEntries order (es ++ es') = orderAfterEntries (orderAfterEntries order es) es' :=
  List.foldl_append

lemma mem_of_mem_orderAfter {order : List Value} {obj k : Value} (h : k ∈ orderAfter order obj)
    (hne : k ≠ obj) : k ∈ order := by
  have hmem : k ∈ order ++ [obj] := by
    unfold orderAfter at h
    split_ifs at h with hroom
    · exact h
    · exact List.mem_of_mem_drop h
  rcases List.mem_append.mp hmem with hk | hk
  · exact hk
  · exact absurd (List.mem_singleton.mp hk) hne

lemma mem_of_mem_orderAfterEntry {order : List Value} {e : Value × ValueDomain V} {k : Value}
    (h : k ∈ orderAfterEntry order e) (hne : k ≠ e.1) : k ∈ order := by
  unfold orderAfterEntry at h
  split_ifs at h with hpresent
  · exact h
  · exact mem_of_mem_orderAfter h hne

/-- A key that is kept and not visited was there before. -/
lemma mem_of_mem_orderAfterEntries {order : List Value} {es : List (Value × ValueDomain V)}
    {k : Value} (h : k ∈ orderAfterEntries order es) (hk : k ∉ es.map Prod.fst) : k ∈ order := by
  induction es generalizing order with
  | nil => exact h
  | cons e es ih =>
    rw [List.map_cons, List.mem_cons, not_or] at hk
    exact mem_of_mem_orderAfterEntry (ih h hk.2) hk.1

/-- Entries of known keys change no keys. -/
lemma orderAfterEntries_of_known {order : List Value} {es : List (Value × ValueDomain V)}
    (h : ∀ e ∈ es, e.1 ∈ order) : orderAfterEntries order es = order := by
  induction es with
  | nil => rfl
  | cons e es ih =>
    have hhead : orderAfterEntry order e = order := if_pos (Or.inl (h e List.mem_cons_self))
    rw [orderAfterEntries_cons, hhead]
    exact ih fun e' he' => h e' (List.mem_cons_of_mem e he')

/-- The join bounds a kept key if the value that is kept does.  A key is visited at most once, and
it may have been evicted before. -/
def KeepsBound [AbstractValue V] (p q : ActiveStatePool V) (es : List (Value × ValueDomain V))
    (k : Value) : Prop :=
  match p.data.find? k, q.data.find? k with
  | none, none => True
  | some d, none => d = .TOP ∨ d.isRef
  | none, some e => e = .TOP
  | some d, some e =>
    if k ∈ orderAfterEntries p.order (es.takeWhile (·.1 ≠ k)) then ∀ a, d = .VAL a → e.isRef = false
    else d.BoundedBy e

/-! ## Joins with eviction -/

variable [AbstractValue V]

/-- The join with the entries of the operand in some order. -/
def joinVisiting (p : ActiveStatePool V) (es : List (Value × ValueDomain V)) : ActiveStatePool V :=
  (joinEntries joinEntry es (p.mapValues untrusted)).1

lemma order_joinEntry (p : ActiveStatePool V) (e : Value × ValueDomain V) :
    (joinEntry e p).1.order = orderAfterEntry p.order e := by
  unfold joinEntry orderAfterEntry
  cases hfind : p.data.find? e.1 with
  | some d =>
    have hmem : e.1 ∈ p.order := by
      rw [mem_order_iff, hfind]
      exact Option.some_ne_none d
    rw [if_pos (Or.inl hmem)]
    rfl
  | none =>
    have hmem : e.1 ∉ p.order := fun h => (mem_order_iff p e.1).mp h hfind
    dsimp only
    by_cases href : e.2.isRef = true
    · rw [if_pos href, if_pos (Or.inr href)]
    · rw [if_neg href, if_neg (not_or.mpr ⟨hmem, href⟩)]
      exact (order_insert e.2 hfind).1

/-- An entry changes no value of another key that is kept. -/
lemma find?_joinEntry_of_ne {p : ActiveStatePool V} {e : Value × ValueDomain V} {k : Value}
    (hk : k ∈ orderAfterEntry p.order e) (hne : k ≠ e.1) :
    (joinEntry e p).1.data.find? k = p.data.find? k := by
  unfold joinEntry
  unfold orderAfterEntry at hk
  cases hfind : p.data.find? e.1 with
  | some d =>
    refine (OrderedMap.find?_modify p.data e.1 _ k).trans ?_
    rw [if_neg hne]
  | none =>
    have hmem : e.1 ∉ p.order := fun h => (mem_order_iff p e.1).mp h hfind
    dsimp only
    by_cases href : e.2.isRef = true
    · rw [if_pos href]
    · rw [if_neg (not_or.mpr ⟨hmem, href⟩)] at hk
      rw [if_neg href, find?_insert e.2 hfind, if_pos hk, if_neg hne]

/-- The value of the visited key is joined, or it is inserted. -/
lemma find?_joinEntry_self {p : ActiveStatePool V} {e : Value × ValueDomain V}
    (hk : e.1 ∈ orderAfterEntry p.order e) :
    (joinEntry e p).1.data.find? e.1 =
      some (((p.data.find? e.1).map fun d => (d.join e.2).1).getD e.2) := by
  unfold joinEntry
  unfold orderAfterEntry at hk
  cases hfind : p.data.find? e.1 with
  | some d =>
    refine (OrderedMap.find?_modify p.data e.1 _ e.1).trans ?_
    rw [if_pos rfl, hfind]
    rfl
  | none =>
    have hmem : e.1 ∉ p.order := fun h => (mem_order_iff p e.1).mp h hfind
    dsimp only
    by_cases href : e.2.isRef = true
    · rw [if_pos (Or.inr href)] at hk
      exact absurd hk hmem
    · rw [if_neg (not_or.mpr ⟨hmem, href⟩)] at hk
      rw [if_neg href, find?_insert e.2 hfind, if_pos hk, if_pos rfl]
      rfl

omit [AbstractValue V] in
/-- A key that is inserted has no reference. -/
lemma isRef_of_inserted {order : List Value} {e : Value × ValueDomain V} (hmem : e.1 ∉ order)
    (hk : e.1 ∈ orderAfterEntry order e) : e.2.isRef = false := by
  unfold orderAfterEntry at hk
  by_contra href
  rw [if_pos (Or.inr (Bool.not_eq_false _ ▸ href))] at hk
  exact hmem hk

lemma order_joinEntries (p : ActiveStatePool V) (es : List (Value × ValueDomain V)) :
    (joinEntries joinEntry es p).1.order = orderAfterEntries p.order es := by
  induction es generalizing p with
  | nil => rfl
  | cons e es ih =>
    rw [joinEntries_cons_fst, ih, order_joinEntry]
    rfl

/-- A kept key that is not visited keeps its value. -/
lemma find?_joinEntries_of_not_mem {p : ActiveStatePool V} {es : List (Value × ValueDomain V)}
    {k : Value} (hk : k ∈ orderAfterEntries p.order es) (hnot : k ∉ es.map Prod.fst) :
    (joinEntries joinEntry es p).1.data.find? k = p.data.find? k := by
  induction es generalizing p with
  | nil => rfl
  | cons e es ih =>
    rw [List.map_cons, List.mem_cons, not_or] at hnot
    rw [orderAfterEntries_cons, ← order_joinEntry] at hk
    rw [joinEntries_cons_fst, ih hk hnot.2]
    refine find?_joinEntry_of_ne ?_ hnot.1
    rw [← order_joinEntry]
    exact mem_of_mem_orderAfterEntries hk hnot.2

lemma joinEntries_append_fst (p : ActiveStatePool V) (es es' : List (Value × ValueDomain V)) :
    (joinEntries joinEntry (es ++ es') p).1 =
      (joinEntries joinEntry es' (joinEntries joinEntry es p).1).1 := by
  induction es generalizing p with
  | nil => rfl
  | cons e es ih => exact ih _

section Visited

variable {p : ActiveStatePool V} {pre post : List (Value × ValueDomain V)} {k : Value}
  {d e : ValueDomain V}

/-- A key that is still there when its entry is visited gets the joined value. -/
lemma find?_joinEntries_of_present (hk : k ∈ orderAfterEntries p.order (pre ++ (k, e) :: post))
    (hpre : k ∉ pre.map Prod.fst) (hpost : k ∉ post.map Prod.fst)
    (hpresent : k ∈ orderAfterEntries p.order pre) (hd : p.data.find? k = some d) :
    (joinEntries joinEntry (pre ++ (k, e) :: post) p).1.data.find? k = some (d.join e).1 := by
  have hbefore := find?_joinEntries_of_not_mem hpresent hpre
  rw [orderAfterEntries_append, orderAfterEntries_cons, ← order_joinEntries,
    ← order_joinEntry] at hk
  rw [joinEntries_append_fst, joinEntries_cons_fst, find?_joinEntries_of_not_mem hk hpost]
  have hvisited := mem_of_mem_orderAfterEntries hk hpost
  rw [order_joinEntry] at hvisited
  rw [find?_joinEntry_self (e := (k, e)) hvisited, hbefore, hd]
  rfl

/-- A key that is missing when its entry is visited is inserted with the value of the operand. -/
lemma find?_joinEntries_of_absent (hk : k ∈ orderAfterEntries p.order (pre ++ (k, e) :: post))
    (hpost : k ∉ post.map Prod.fst) (habsent : k ∉ orderAfterEntries p.order pre) :
    (joinEntries joinEntry (pre ++ (k, e) :: post) p).1.data.find? k = some e ∧
      e.isRef = false := by
  rw [← order_joinEntries] at habsent
  have hnone := habsent
  rw [mem_order_iff, not_not] at hnone
  rw [orderAfterEntries_append, orderAfterEntries_cons, ← order_joinEntries,
    ← order_joinEntry] at hk
  have hvisited := mem_of_mem_orderAfterEntries hk hpost
  rw [order_joinEntry] at hvisited
  refine ⟨?_, isRef_of_inserted (e := (k, e)) habsent hvisited⟩
  rw [joinEntries_append_fst, joinEntries_cons_fst, find?_joinEntries_of_not_mem hk hpost,
    find?_joinEntry_self (e := (k, e)) hvisited, hnone]
  rfl

end Visited

/-! ## Kept values -/

section Kept

variable {p q : ActiveStatePool V} {es : List (Value × ValueDomain V)} {k : Value}
  {d e : ValueDomain V}

omit [AbstractValue V] in
lemma nodup_of_perm (hes : es.Perm q.data.entries) : (es.map Prod.fst).Nodup :=
  (hes.map Prod.fst).nodup_iff.mpr q.data.nodup_keys

omit [AbstractValue V] in
/-- The entry of a key is visited once. -/
lemma exists_visit (hes : es.Perm q.data.entries) (hq : q.data.find? k = some e) :
    ∃ post, es = es.takeWhile (·.1 ≠ k) ++ (k, e) :: post ∧
      k ∉ (es.takeWhile (·.1 ≠ k)).map Prod.fst ∧ k ∉ post.map Prod.fst := by
  have hmem : (k, e) ∈ es := hes.mem_iff.mpr ((q.data.find?_eq_some_iff).mp hq)
  obtain ⟨pre, post, rfl⟩ := List.append_of_mem hmem
  have hnodup := nodup_of_perm hes
  rw [List.map_append, List.map_cons, List.nodup_append, List.nodup_cons] at hnodup
  obtain ⟨-, ⟨hpost, -⟩, hdisjoint⟩ := hnodup
  have hpre : k ∉ pre.map Prod.fst := fun h => hdisjoint k h k List.mem_cons_self rfl
  have htake : (pre ++ (k, e) :: post).takeWhile (·.1 ≠ k) = pre := by
    rw [List.takeWhile_append_of_pos, List.takeWhile_cons_of_neg (by simp), List.append_nil]
    intro e' he'
    exact decide_eq_true fun h => hpre (h ▸ List.mem_map_of_mem he')
  rw [htake]
  exact ⟨post, rfl, hpre, hpost⟩

omit [AbstractValue V] in
lemma not_visited (hes : es.Perm q.data.entries) (hq : q.data.find? k = none) :
    k ∉ es.map Prod.fst := by
  rw [(hes.map Prod.fst).mem_iff, OrderedMap.mem_keys_iff, hq]
  exact fun ⟨_, h⟩ => Option.some_ne_none _ h.symm

lemma order_joinVisiting (p : ActiveStatePool V) (es : List (Value × ValueDomain V)) :
    (p.joinVisiting es).order = orderAfterEntries p.order es :=
  order_joinEntries (p.mapValues untrusted) es

omit [AbstractValue V] in
lemma find?_untrusted (p : ActiveStatePool V) (k : Value) :
    (p.mapValues untrusted).data.find? k = (p.data.find? k).map untrusted :=
  OrderedMap.find?_mapValues p.data untrusted k

/-- A kept key that the operand does not have keeps its untrusted value. -/
lemma find?_joinVisiting_of_own (hes : es.Perm q.data.entries) (hd : p.data.find? k = some d)
    (hq : q.data.find? k = none) (hk : k ∈ orderAfterEntries p.order es) :
    (p.joinVisiting es).data.find? k = some (untrusted d) := by
  have hkept := find?_joinEntries_of_not_mem (p := p.mapValues untrusted) hk (not_visited hes hq)
  rw [joinVisiting, hkept, find?_untrusted, hd, Option.map_some]

/-- A kept key of both pools has the joined value unless it had been evicted. -/
lemma find?_joinVisiting_of_common (hes : es.Perm q.data.entries) (hd : p.data.find? k = some d)
    (he : q.data.find? k = some e) (hk : k ∈ orderAfterEntries p.order es) :
    (p.joinVisiting es).data.find? k =
      if k ∈ orderAfterEntries p.order (es.takeWhile (·.1 ≠ k)) then
        some ((untrusted d).join e).1
      else some e := by
  obtain ⟨post, hsplit, hpre, hpost⟩ := exists_visit hes he
  have hd' : (p.mapValues untrusted).data.find? k = some (untrusted d) := by
    rw [find?_untrusted, hd, Option.map_some]
  rw [hsplit] at hk
  rw [joinVisiting]
  split_ifs with hpresent
  · rw [hsplit]
    exact find?_joinEntries_of_present (p := p.mapValues untrusted) hk hpre hpost hpresent hd'
  · rw [hsplit]
    exact (find?_joinEntries_of_absent (p := p.mapValues untrusted) hk hpost hpresent).1

/-- A kept key that only the operand has is inserted, and it has no reference. -/
lemma find?_joinVisiting_of_inserted (hes : es.Perm q.data.entries) (hp : p.data.find? k = none)
    (he : q.data.find? k = some e) (hk : k ∈ orderAfterEntries p.order es) :
    (p.joinVisiting es).data.find? k = some e ∧ e.isRef = false := by
  obtain ⟨post, hsplit, hpre, hpost⟩ := exists_visit hes he
  have habsent : k ∉ orderAfterEntries p.order (es.takeWhile (·.1 ≠ k)) := fun h =>
    (mem_order_iff p k).mp (mem_of_mem_orderAfterEntries h hpre) hp
  rw [hsplit] at hk
  rw [joinVisiting, hsplit]
  exact find?_joinEntries_of_absent (p := p.mapValues untrusted) hk hpost habsent

omit [AbstractValue V] in
lemma mem_of_kept (hes : es.Perm q.data.entries) (hq : q.data.find? k = none)
    (hk : k ∈ orderAfterEntries p.order es) : p.data.find? k ≠ none :=
  (mem_order_iff p k).mp (mem_of_mem_orderAfterEntries hk (not_visited hes hq))

end Kept

/-! ## The exact condition -/

omit [AbstractValue V] in
lemma isTopState_untrusted_iff (d : ValueDomain V) :
    (untrusted d).IsTopState ↔ d = .TOP ∨ d.isRef := by
  cases d with
  | BOTTOM => simp [untrusted, ValueDomain.isRef, ValueDomain.IsTopState, ValueDomain.topRefState]
  | TOP => exact iff_of_true (Or.inl rfl) (Or.inl rfl)
  | VAL a => simp [untrusted, ValueDomain.isRef, ValueDomain.IsTopState, ValueDomain.topRefState]
  | REF r => exact iff_of_true (Or.inr rfl) (Or.inr rfl)

/-- After a join the reading of a key bounds the readings of both pools exactly if the key is not
kept or the value that is kept bounds them. -/
theorem boundedBy_joinVisiting_iff [BoundingJoin V] (isRefType : Value → Bool)
    {p q : ActiveStatePool V} {es : List (Value × ValueDomain V)} (hes : es.Perm q.data.entries)
    (k : Value) :
    (p.readAt isRefType k).BoundedBy ((p.joinVisiting es).readAt isRefType k) ∧
        (q.readAt isRefType k).BoundedBy ((p.joinVisiting es).readAt isRefType k) ↔
      (k ∈ orderAfterEntries p.order es → p.KeepsBound q es k) := by
  by_cases hk : k ∈ orderAfterEntries p.order es
  · rw [imp_iff_right hk]
    unfold KeepsBound
    cases hq : q.data.find? k with
    | none =>
      cases hp : p.data.find? k with
      | none => exact absurd hp (mem_of_kept hes hq hk)
      | some d =>
        have hkept := find?_joinVisiting_of_own hes hp hq hk
        rw [readAt_of_some hp, readAt_of_some hkept,
          ValueDomain.boundedBy_iff_of_isTopState (isTopState_readAt isRefType hq)]
        dsimp only
        rw [← isTopState_untrusted_iff]
        exact ⟨And.right, fun h => ⟨.top h, h⟩⟩
    | some e =>
      cases hp : p.data.find? k with
      | none =>
        obtain ⟨hkept, href⟩ := find?_joinVisiting_of_inserted hes hp hq hk
        rw [readAt_of_some hq, readAt_of_some hkept,
          ValueDomain.boundedBy_iff_of_isTopState (isTopState_readAt isRefType hp)]
        refine ⟨fun h => ?_, fun h => ⟨Or.inl h, ValueDomain.BoundedBy.refl e⟩⟩
        refine h.1.resolve_right fun htop => ?_
        rw [htop] at href
        exact absurd href (by simp [ValueDomain.topRefState, ValueDomain.isRef])
      | some d =>
        have hkept := find?_joinVisiting_of_common hes hp hq hk
        dsimp only
        rw [readAt_of_some hp, readAt_of_some hq]
        split_ifs at hkept ⊢ with hpresent
        · rw [readAt_of_some hkept]
          exact ValueDomain.boundedBy_join_untrusted_iff d e
        · rw [readAt_of_some hkept]
          exact and_iff_left (ValueDomain.BoundedBy.refl e)
  · have hnone : (p.joinVisiting es).data.find? k = none := by
      rw [← order_joinVisiting, mem_order_iff, not_not] at hk
      exact hk
    have htop := isTopState_readAt isRefType hnone
    exact iff_of_true ⟨.top htop, .top htop⟩ fun h => absurd h hk

/-- The join of a pool with itself bounds the pool. -/
lemma boundedBy_joinVisiting_self [BoundingJoin V] (isRefType : Value → Bool)
    {p : ActiveStatePool V} {es : List (Value × ValueDomain V)}
    (hes : es.Perm (p.mapValues untrusted).data.entries) (k : Value) :
    (p.readAt isRefType k).BoundedBy ((p.joinVisiting es).readAt isRefType k) := by
  refine ((boundedBy_joinVisiting_iff isRefType hes k).mpr fun hk => ?_).1
  have hknown : ∀ e ∈ es, e.1 ∈ p.order := fun e he =>
    (p.mapValues untrusted).tracked.mem_iff.mpr (List.mem_map_of_mem (hes.mem_iff.mp he))
  rw [orderAfterEntries_of_known hknown] at hk
  obtain ⟨d, hd⟩ := Option.ne_none_iff_exists'.mp ((mem_order_iff p k).mp hk)
  have hpresent : k ∈ orderAfterEntries p.order (es.takeWhile (·.1 ≠ k)) := by
    rwa [orderAfterEntries_of_known fun e he => hknown e ((List.takeWhile_sublist _).subset he)]
  unfold KeepsBound
  rw [find?_untrusted, hd, Option.map_some]
  dsimp only
  rw [if_pos hpresent]
  intro a ha
  rw [ha]
  rfl

/-- A join of two pools bounds both of them at exactly those keys whose kept value does so.  The
join of a pool with itself bounds the pool at all keys. -/
theorem boundedBy_specJoin_iff [BoundingJoin V] (isRefType : Value → Bool)
    (pools : ℕ → ActiveStatePool V) (this other : ℕ)
    {visit : List (Value × ValueDomain V) → List (Value × ValueDomain V)}
    (isPerm : ∀ es, (visit es).Perm es) (k : Value) :
    ((pools this).readAt isRefType k).BoundedBy
          ((specJoin pools this other visit this).readAt isRefType k) ∧
        ((pools other).readAt isRefType k).BoundedBy
          ((specJoin pools this other visit this).readAt isRefType k) ↔
      (this ≠ other →
        k ∈ orderAfterEntries (pools this).order (visit (pools other).data.entries) →
        (pools this).KeepsBound (pools other) (visit (pools other).data.entries) k) := by
  unfold specJoin
  rw [Function.update_self, Function.update_self, Function.update_apply]
  by_cases hsame : other = this
  · subst hsame
    rw [if_pos rfl]
    have hself := boundedBy_joinVisiting_self isRefType
      (isPerm ((pools other).mapValues untrusted).data.entries) k
    exact iff_of_true ⟨hself, hself⟩ fun hne => absurd rfl hne
  · rw [if_neg hsame, imp_iff_right (Ne.symm hsame)]
    exact boundedBy_joinVisiting_iff isRefType (isPerm (pools other).data.entries) k

/-! ## A value that is evicted on one path -/

/-- A pool of one Boolean constant. -/
def boolPool (k : Value) (val : Bool) : ActiveStatePool (ConstValue Empty) :=
  emptyPool.insert k (.VAL (.BOOL val))

theorem boundedBy_specJoin_iff_boolPools :
    ((boolPool 1 true).readAt (fun _ => false) 1).BoundedBy
        ((specJoin (fun i => boolPool 1 (i == 0)) 0 1 id 0).readAt (fun _ => false) 1) ∧
      ((boolPool 1 false).readAt (fun _ => false) 1).BoundedBy
        ((specJoin (fun i => boolPool 1 (i == 0)) 0 1 id 0).readAt (fun _ => false) 1) := by
  refine (boundedBy_specJoin_iff (fun _ => false) (fun i => boolPool 1 (i == 0)) 0 1
    (fun es => List.Perm.refl es) 1).mpr fun _ _ => ?_
  exact fun a _ => rfl

/-- A pool that has forgotten the constant `false` of the key zero after 119 further insertions. -/
def forgetfulPool : ActiveStatePool (ConstValue Empty) :=
  ((List.range 119).map Nat.succ).foldl (fun p k => p.insert k .TOP) (boolPool 0 false)

/-- The first pool knows a constant that the second one has forgotten. -/
def forgetfulPools (i : ℕ) : ActiveStatePool (ConstValue Empty) :=
  if i = 0 then boolPool 0 true else forgetfulPool

theorem forgotten_constant_survives :
    ¬∀ (pools : ℕ → ActiveStatePool (ConstValue Empty)) (k : Value),
      ((pools 0).readAt (fun _ => false) k).BoundedBy
          ((specJoin pools 0 1 id 0).readAt (fun _ => false) k) ∧
        ((pools 1).readAt (fun _ => false) k).BoundedBy
          ((specJoin pools 0 1 id 0).readAt (fun _ => false) k) := by
  intro h
  have hforgotten : (forgetfulPools 1).readAt (fun _ => false) 0 = .TOP := by decide +kernel
  have hkept : (specJoin forgetfulPools 0 1 id 0).readAt (fun _ => false) 0 =
      .VAL (.BOOL true) := by decide +kernel
  have hbound := (h forgetfulPools 0).2
  rw [hforgotten, hkept, ValueDomain.boundedBy_iff_of_isTopState (Or.inl rfl)] at hbound
  rcases hbound with htop | htop
  · exact absurd htop (by simp)
  · exact absurd htop (by simp [ValueDomain.topRefState])

end ActiveStatePool

end Cangjie.CHIR
