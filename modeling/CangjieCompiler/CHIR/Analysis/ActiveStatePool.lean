import CangjieCompiler.CHIR.Analysis.StatePool

/-!
# The active pool

The pool keeps the order in which its keys were inserted.  An insertion that makes it reach
`MAX_STATE_POOL_SIZE` evicts the oldest keys until `BASE_STATE_POOL_SIZE` are left.

Its join first turns every reference of the pool into the top reference, then joins the values of
common keys, and inserts the other keys of the operand unless they have references.  Neither the
first nor the last of these is reported as a change.
-/

namespace Cangjie.CHIR

def MAX_STATE_POOL_SIZE : ℕ := 120

def BASE_STATE_POOL_SIZE : ℕ := 80

variable {V : Type}

/-- The entries and the keys from the oldest to the newest. -/
structure ActiveStatePool (V : Type) where
  data : OrderedMap Value (ValueDomain V)
  order : List Value
  tracked : order.Perm (data.entries.map Prod.fst)
  bounded : data.size < MAX_STATE_POOL_SIZE

namespace ActiveStatePool

/-! ## Eviction -/

/-- The loop of `CheckPoolOverflow` from the oldest key on. -/
def evictOldest : List Value → OrderedMap Value (ValueDomain V) →
    OrderedMap Value (ValueDomain V) × List Value
  | [], data => (data, [])
  | obj :: order, data =>
    if BASE_STATE_POOL_SIZE < data.size then evictOldest order (data.erase obj)
    else (data, obj :: order)

lemma map_fst_erase (m : OrderedMap Value (ValueDomain V)) (k : Value) :
    (m.erase k).entries.map Prod.fst = (m.entries.map Prod.fst).filter (· ≠ k) := by
  rw [List.filter_map]
  rfl

lemma size_eq_length {order : List Value} {m : OrderedMap Value (ValueDomain V)}
    (h : order.Perm (m.entries.map Prod.fst)) : m.size = order.length := by
  rw [h.length_eq, List.length_map]
  rfl

lemma perm_erase {obj : Value} {order : List Value} {m : OrderedMap Value (ValueDomain V)}
    (h : (obj :: order).Perm (m.entries.map Prod.fst)) :
    order.Perm ((m.erase obj).entries.map Prod.fst) := by
  have hnodup : (obj :: order).Nodup := h.nodup_iff.mpr m.nodup_keys
  have hfresh : obj ∉ order := (List.nodup_cons.mp hnodup).1
  rw [map_fst_erase]
  have hfilter := h.filter (· ≠ obj)
  rw [List.filter_cons_of_neg (by simp)] at hfilter
  rwa [List.filter_eq_self.mpr] at hfilter
  intro k hk
  exact decide_eq_true (ne_of_mem_of_not_mem hk hfresh)

/-- The loop keeps the order of the keys, and leaves at most `BASE_STATE_POOL_SIZE` of them. -/
lemma evictOldest_spec {order : List Value} {m : OrderedMap Value (ValueDomain V)}
    (h : order.Perm (m.entries.map Prod.fst)) :
    (evictOldest order m).2.Perm ((evictOldest order m).1.entries.map Prod.fst) ∧
      (evictOldest order m).1.size ≤ BASE_STATE_POOL_SIZE := by
  induction order generalizing m with
  | nil =>
    refine ⟨h, ?_⟩
    rw [evictOldest, size_eq_length h]
    exact Nat.zero_le _
  | cons obj order ih =>
    rw [evictOldest]
    split_ifs with hsize
    · exact ih (perm_erase h)
    · exact ⟨h, not_lt.mp hsize⟩

/-- The loop drops keys from the front until `BASE_STATE_POOL_SIZE` are left, and the keys that are
left keep their values. -/
lemma evictOldest_eq {order : List Value} {m : OrderedMap Value (ValueDomain V)}
    (h : order.Perm (m.entries.map Prod.fst)) :
    (evictOldest order m).2 = order.drop (order.length - BASE_STATE_POOL_SIZE) ∧
      ∀ k ∈ order.drop (order.length - BASE_STATE_POOL_SIZE),
        (evictOldest order m).1.find? k = m.find? k := by
  induction order generalizing m with
  | nil => exact ⟨rfl, fun k hk => absurd hk (by simp)⟩
  | cons obj order ih =>
    have hsize := size_eq_length h
    rw [List.length_cons] at hsize
    rw [evictOldest, List.length_cons]
    split_ifs with hlarge
    · obtain ⟨hrest, hfind⟩ := ih (perm_erase h)
      have hdrop : order.length + 1 - BASE_STATE_POOL_SIZE =
          order.length - BASE_STATE_POOL_SIZE + 1 := by omega
      rw [hdrop, List.drop_succ_cons]
      refine ⟨hrest, fun k hk => ?_⟩
      have hfresh : obj ∉ order :=
        (List.nodup_cons.mp (h.nodup_iff.mpr m.nodup_keys)).1
      rw [hfind k hk, OrderedMap.find?_erase,
        if_neg (ne_of_mem_of_not_mem (List.mem_of_mem_drop hk) hfresh)]
    · have hzero : order.length + 1 - BASE_STATE_POOL_SIZE = 0 := by omega
      rw [hzero, List.drop_zero]
      exact ⟨rfl, fun _ _ => rfl⟩

/-- The end of `Insert`, with `CheckPoolOverflow`. -/
def checkPoolOverflow (order : List Value) (m : OrderedMap Value (ValueDomain V))
    (h : order.Perm (m.entries.map Prod.fst)) : ActiveStatePool V :=
  if hsize : m.size < MAX_STATE_POOL_SIZE then ⟨m, order, h, hsize⟩
  else
    ⟨(evictOldest order m).1, (evictOldest order m).2, (evictOldest_spec h).1,
      (evictOldest_spec h).2.trans_lt (by decide)⟩

/-! ## Operations -/

lemma perm_emplace {order : List Value} {m : OrderedMap Value (ValueDomain V)} {k : Value}
    {d : ValueDomain V} (h : order.Perm (m.entries.map Prod.fst)) (hk : m.find? k = none) :
    (order ++ [k]).Perm ((m.emplace k d).entries.map Prod.fst) :=
  (List.perm_append_singleton k order).trans
    ((h.cons k).trans (OrderedMap.keys_emplaceEntry hk).symm)

/-- Insertion of a key unless it is present. -/
def insert (p : ActiveStatePool V) (obj : Value) (d : ValueDomain V) : ActiveStatePool V :=
  if h : p.data.find? obj = none then
    checkPoolOverflow (p.order ++ [obj]) (p.data.emplace obj d) (perm_emplace p.tracked h)
  else p

/-- The values of some keys replaced. -/
def withData (p : ActiveStatePool V) (data : OrderedMap Value (ValueDomain V))
    (h : data.entries.map Prod.fst = p.data.entries.map Prod.fst) : ActiveStatePool V where
  data := data
  order := p.order
  tracked := by
    rw [h]
    exact p.tracked
  bounded := by
    have hlength := congrArg List.length h
    rw [List.length_map, List.length_map] at hlength
    exact hlength.trans_lt p.bounded

def modify (p : ActiveStatePool V) (k : Value) (f : ValueDomain V → ValueDomain V) :
    ActiveStatePool V :=
  p.withData (p.data.modify k f) (OrderedMap.map_fst_modifyEntries k f p.data.entries)

def mapValues (p : ActiveStatePool V) (f : ValueDomain V → ValueDomain V) : ActiveStatePool V :=
  p.withData (p.data.mapValues f) (OrderedMap.map_fst_mapValues p.data f)

/-- What the join makes of the own values of a pool. -/
def untrusted (d : ValueDomain V) : ValueDomain V := if d.isRef then .topRefState else d

lemma ext_data {p q : ActiveStatePool V} (hdata : p.data = q.data) (horder : p.order = q.order) :
    p = q := by
  cases p
  cases q
  cases hdata
  cases horder
  rfl

lemma modify_eq_self {p : ActiveStatePool V} {k : Value} {f : ValueDomain V → ValueDomain V}
    (h : ∀ d, p.data.find? k = some d → f d = d) : p.modify k f = p :=
  ext_data (OrderedMap.modify_eq_self h) rfl

lemma mapValues_eq_self {p : ActiveStatePool V} {f : ValueDomain V → ValueDomain V}
    (h : ∀ k d, p.data.find? k = some d → f d = d) : p.mapValues f = p :=
  ext_data (OrderedMap.mapValues_eq_self h) rfl

/-- An insertion that leaves room evicts nothing. -/
lemma data_insert {p : ActiveStatePool V} {k : Value} {d : ValueDomain V}
    (hk : p.data.find? k = none) (hroom : p.data.size + 1 < MAX_STATE_POOL_SIZE) :
    (p.insert k d).data = p.data.emplace k d := by
  unfold insert checkPoolOverflow
  rw [dif_pos hk, dif_pos]
  rw [OrderedMap.size_emplace hk]
  exact hroom

variable [AbstractValue V]

/-- One entry of the operand. -/
def joinEntry (e : Value × ValueDomain V) (p : ActiveStatePool V) : ActiveStatePool V × Bool :=
  match p.data.find? e.1 with
  | some d => (p.modify e.1 fun _ => (d.join e.2).1, (d.join e.2).2)
  | none => (if e.2.isRef then p else p.insert e.1 e.2, false)

lemma tracked_empty (V : Type) :
    ([] : List Value).Perm ((OrderedMap.empty : OrderedMap Value (ValueDomain V)).entries.map
      Prod.fst) := List.Perm.refl _

lemma bounded_empty (V : Type) :
    (OrderedMap.empty : OrderedMap Value (ValueDomain V)).size < MAX_STATE_POOL_SIZE :=
  Nat.zero_lt_succ _

instance : StatePool (ActiveStatePool V) V where
  empty := ⟨OrderedMap.empty, [], tracked_empty V, bounded_empty V⟩
  at? p k := some ((p.data.find? k).getD .TOP)
  emplace := insert
  clear p := p.mapValues ValueDomain.clear
  join p rhs := joinEntries joinEntry rhs.data.entries (p.mapValues untrusted)

/-! ## Covered pools -/

/-- All references of a pool are the top reference. -/
def RefsTop (p : ActiveStatePool V) : Prop :=
  ∀ k d, p.data.find? k = some d → untrusted d = d

/-- A key has an absorbing value, or is missing where the operand has a reference. -/
def Accepts (p : ActiveStatePool V) (k : Value) (x : ValueDomain V) : Prop :=
  Knows p.data k x ∨ p.data.find? k = none ∧ x.isRef = true

/-- The second pool would change nothing in the first one. -/
structure Covers (p q : ActiveStatePool V) : Prop where
  refsTop : p.RefsTop
  accepts : ∀ e ∈ q.data.entries, p.Accepts e.1 e.2

lemma joinEntry_of_accepts {p : ActiveStatePool V} {e : Value × ValueDomain V}
    (h : p.Accepts e.1 e.2) : (joinEntry e p).1 = p := by
  unfold joinEntry
  rcases h with ⟨d, hfind, habs⟩ | ⟨hnone, href⟩
  · rw [hfind]
    refine modify_eq_self fun d' hd' => ?_
    obtain rfl := Option.some.inj (hfind.symm.trans hd')
    exact habs
  · rw [hnone, if_pos href]

/-- The join with a covered pool leaves the pool as it is. -/
lemma join_of_covers {p q : ActiveStatePool V} (h : p.Covers q) : (StatePool.join p q).1 = p := by
  dsimp only [StatePool.join]
  rw [mapValues_eq_self h.refsTop]
  exact joinEntries_same fun e he => joinEntry_of_accepts (h.accepts e he)

/-! ## Joins without eviction -/

/-- A value that a join turns into no reference but the top one. -/
def Settled (d : ValueDomain V) : Prop := d ≠ .BOTTOM ∧ untrusted d = d

/-- A pool of settled values. -/
def AllSettled (p : ActiveStatePool V) : Prop := ∀ k d, p.data.find? k = some d → Settled d

/-- The number of entries that an operand inserts. -/
def freshEntries (p : ActiveStatePool V) (es : List (Value × ValueDomain V)) : ℕ :=
  es.countP fun e => (p.data.find? e.1).isNone && !e.2.isRef

/-- What the join makes of the value of a key, if the key has one. -/
def joinedValue : Option (ValueDomain V) → ValueDomain V → Option (ValueDomain V)
  | some d, x => some (d.join x).1
  | none, x => if x.isRef then none else some x

omit [AbstractValue V] in
lemma settled_top : Settled (ValueDomain.TOP : ValueDomain V) := ⟨by simp, rfl⟩

omit [AbstractValue V] in
lemma settled_val (a : V) : Settled (ValueDomain.VAL a) := ⟨by simp, rfl⟩

omit [AbstractValue V] in
lemma settled_topRef : Settled (ValueDomain.topRefState : ValueDomain V) :=
  ⟨by simp [ValueDomain.topRefState], rfl⟩

omit [AbstractValue V] in
lemma settled_untrusted {d : ValueDomain V} (h : d ≠ .BOTTOM) : Settled (untrusted d) := by
  cases d with
  | BOTTOM => exact absurd rfl h
  | TOP => exact ⟨h, rfl⟩
  | VAL a => exact ⟨h, rfl⟩
  | REF r => exact settled_topRef

omit [AbstractValue V] in
lemma settled_of_not_ref {d : ValueDomain V} (h : d ≠ .BOTTOM) (href : d.isRef = false) :
    Settled d := by
  refine ⟨h, ?_⟩
  unfold untrusted
  rw [href]
  rfl

lemma Settled.join {d : ValueDomain V} (h : Settled d) (x : ValueDomain V) :
    Settled (d.join x).1 := by
  cases d with
  | BOTTOM => exact absurd rfl h.1
  | TOP => exact h
  | REF r =>
    cases x with
    | BOTTOM => exact h
    | VAL b => exact h
    | TOP => exact settled_top
    | REF q =>
      rcases ValueDomain.join_ref_ref (V := V) r q with htop | ⟨hsame, -⟩
      · rw [htop]
        exact settled_topRef
      · rw [hsame]
        exact h
  | VAL a =>
    cases x with
    | BOTTOM => exact h
    | REF q => exact h
    | TOP => exact settled_top
    | VAL b =>
      dsimp only [ValueDomain.join]
      split
      · exact settled_top
      · exact settled_val _
      · exact h

/-- A settled value absorbs every reference. -/
lemma Settled.absorbs_ref {d x : ValueDomain V} (h : Settled d) (href : x.isRef = true) :
    d.Absorbs x := by
  cases x with
  | BOTTOM => exact absurd href (by simp [ValueDomain.isRef])
  | TOP => exact absurd href (by simp [ValueDomain.isRef])
  | VAL b => exact absurd href (by simp [ValueDomain.isRef])
  | REF q =>
    cases d with
    | BOTTOM => exact absurd rfl h.1
    | TOP => rfl
    | VAL a => rfl
    | REF r =>
      rw [← h.2]
      rfl

/-- The entries of a pool after one entry of the operand, if nothing is evicted. -/
lemma find?_joinEntry {p : ActiveStatePool V} {e : Value × ValueDomain V}
    (hroom : p.data.size + p.freshEntries [e] < MAX_STATE_POOL_SIZE) (k : Value) :
    (joinEntry e p).1.data.find? k =
      if k = e.1 then joinedValue (p.data.find? e.1) e.2 else p.data.find? k := by
  unfold joinEntry
  cases hfind : p.data.find? e.1 with
  | some d =>
    refine (OrderedMap.find?_modify p.data e.1 _ k).trans ?_
    split_ifs with hkey
    · rw [hkey, hfind, Option.map_some, joinedValue]
    · rfl
  | none =>
    dsimp only [joinedValue]
    by_cases href : e.2.isRef = true
    · rw [if_pos href, if_pos href]
      split_ifs with hkey
      · rw [hkey, hfind]
      · rfl
    · have hfresh : p.freshEntries [e] = 1 := by simp [freshEntries, hfind, href]
      rw [hfresh] at hroom
      rw [if_neg href, if_neg href, data_insert hfind hroom, OrderedMap.find?_emplace]
      by_cases hkey : e.1 = k
      · rw [if_pos hkey, if_pos hkey.symm, hfind, Option.getD_none]
      · rw [if_neg hkey, if_neg (Ne.symm hkey)]

lemma size_joinEntry {p : ActiveStatePool V} {e : Value × ValueDomain V}
    (hroom : p.data.size + p.freshEntries [e] < MAX_STATE_POOL_SIZE) :
    (joinEntry e p).1.data.size = p.data.size + p.freshEntries [e] := by
  unfold joinEntry
  cases hfind : p.data.find? e.1 with
  | some d =>
    have hfresh : p.freshEntries [e] = 0 := by simp [freshEntries, hfind]
    rw [hfresh]
    exact OrderedMap.size_modify p.data e.1 _
  | none =>
    by_cases href : e.2.isRef = true
    · have hfresh : p.freshEntries [e] = 0 := by simp [freshEntries, href]
      rw [hfresh, if_pos href]
      rfl
    · have hfresh : p.freshEntries [e] = 1 := by simp [freshEntries, hfind, href]
      rw [hfresh] at hroom ⊢
      rw [if_neg href, data_insert hfind hroom, OrderedMap.size_emplace hfind]

lemma allSettled_joinEntry {p : ActiveStatePool V} {e : Value × ValueDomain V}
    (hroom : p.data.size + p.freshEntries [e] < MAX_STATE_POOL_SIZE) (hp : p.AllSettled)
    (he : e.2 ≠ .BOTTOM) : (joinEntry e p).1.AllSettled := by
  intro k d hd
  rw [find?_joinEntry hroom] at hd
  split_ifs at hd with hkey
  · cases hfind : p.data.find? e.1 with
    | some d' =>
      rw [hfind] at hd
      obtain rfl := Option.some.inj hd
      exact (hp e.1 d' hfind).join e.2
    | none =>
      rw [hfind, joinedValue] at hd
      split_ifs at hd with href
      obtain rfl := Option.some.inj hd
      exact settled_of_not_ref he (Bool.eq_false_iff.mpr href)
  · exact hp k d hd

/-- The number of insertions does not grow while entries are joined. -/
lemma freshEntries_joinEntry_le {p : ActiveStatePool V} {e : Value × ValueDomain V}
    (hroom : p.data.size + p.freshEntries [e] < MAX_STATE_POOL_SIZE)
    (es : List (Value × ValueDomain V)) :
    (joinEntry e p).1.freshEntries es ≤ p.freshEntries es := by
  refine List.countP_mono_left fun e' _ h => ?_
  rw [Bool.and_eq_true, Option.isNone_iff_eq_none] at h ⊢
  refine ⟨?_, h.2⟩
  have hnone := h.1
  rw [find?_joinEntry hroom] at hnone
  split_ifs at hnone with hkey
  · rw [hkey]
    cases hfind : p.data.find? e.1 with
    | none => rfl
    | some d =>
      rw [hfind, joinedValue] at hnone
      exact absurd hnone (by simp)
  · exact hnone

/-- Room for all entries is room for the first one, and then for the other ones. -/
lemma room_joinEntry {p : ActiveStatePool V} {e : Value × ValueDomain V}
    {es : List (Value × ValueDomain V)} {n : ℕ}
    (hroom : p.data.size + p.freshEntries (e :: es) + n < MAX_STATE_POOL_SIZE) :
    p.data.size + p.freshEntries [e] < MAX_STATE_POOL_SIZE ∧
      (joinEntry e p).1.data.size + (joinEntry e p).1.freshEntries es + n <
        MAX_STATE_POOL_SIZE := by
  have hcons : p.freshEntries (e :: es) = p.freshEntries [e] + p.freshEntries es := by
    unfold freshEntries
    rw [← List.singleton_append, List.countP_append]
  rw [hcons] at hroom
  have hhead : p.data.size + p.freshEntries [e] < MAX_STATE_POOL_SIZE := by omega
  refine ⟨hhead, ?_⟩
  have hle := freshEntries_joinEntry_le hhead es
  rw [size_joinEntry hhead]
  omega

/-- Joins that report no change absorb the operand in all known values. -/
lemma absorbs_of_not_changed {p : ActiveStatePool V} {es : List (Value × ValueDomain V)} {n : ℕ}
    (hroom : p.data.size + p.freshEntries es + n < MAX_STATE_POOL_SIZE)
    (h : (joinEntries joinEntry es p).2 = false) :
    ∀ e ∈ es, ∀ d, p.data.find? e.1 = some d → d.Absorbs e.2 := by
  induction es generalizing p with
  | nil => exact fun e he => absurd he List.not_mem_nil
  | cons e' es ih =>
    rw [joinEntries_cons_snd, Bool.or_eq_false_iff] at h
    obtain ⟨hhead, htail⟩ := room_joinEntry hroom
    have habs : ∀ d, p.data.find? e'.1 = some d → d.Absorbs e'.2 := by
      intro d hd
      have hfirst := h.1
      unfold joinEntry at hfirst
      rw [hd] at hfirst
      exact ValueDomain.absorbs_of_not_changed hfirst
    intro e he d hd
    rcases List.mem_cons.mp he with rfl | hmem
    · exact habs d hd
    · refine ih htail h.2 e hmem d ?_
      rw [find?_joinEntry hhead]
      split_ifs with hkey
      · rw [hkey] at hd
        rw [hd, joinedValue, habs d hd]
      · exact hd

variable [LawfulJoin V]

lemma accepts_joinEntry {p : ActiveStatePool V} {e : Value × ValueDomain V}
    (hroom : p.data.size + p.freshEntries [e] < MAX_STATE_POOL_SIZE) (he : e.2 ≠ .BOTTOM)
    {k : Value} {x : ValueDomain V} (h : p.Accepts k x) : (joinEntry e p).1.Accepts k x := by
  by_cases hkey : k = e.1
  · subst hkey
    rcases h with ⟨d, hfind, habs⟩ | ⟨hnone, href⟩
    · refine Or.inl ⟨(d.join e.2).1, ?_, ValueDomain.absorbs_mono habs e.2⟩
      rw [find?_joinEntry hroom, if_pos rfl, hfind, joinedValue]
    · by_cases hvalue : e.2.isRef = true
      · refine Or.inr ⟨?_, href⟩
        rw [find?_joinEntry hroom, if_pos rfl, hnone, joinedValue, if_pos hvalue]
      · have hsettled := settled_of_not_ref he (Bool.eq_false_iff.mpr hvalue)
        refine Or.inl ⟨e.2, ?_, hsettled.absorbs_ref href⟩
        rw [find?_joinEntry hroom, if_pos rfl, hnone, joinedValue, if_neg hvalue]
  · have hsame : (joinEntry e p).1.data.find? k = p.data.find? k := by
      rw [find?_joinEntry hroom, if_neg hkey]
    unfold Accepts Knows at h ⊢
    rw [hsame]
    exact h

lemma joinEntry_accepts {p : ActiveStatePool V} {e : Value × ValueDomain V}
    (hroom : p.data.size + p.freshEntries [e] < MAX_STATE_POOL_SIZE) :
    (joinEntry e p).1.Accepts e.1 e.2 := by
  unfold Accepts Knows
  rw [find?_joinEntry hroom, if_pos rfl]
  cases hfind : p.data.find? e.1 with
  | some d => exact Or.inl ⟨_, rfl, ValueDomain.join_absorbs d e.2⟩
  | none =>
    rw [joinedValue]
    split_ifs with href
    · exact Or.inr ⟨rfl, href⟩
    · exact Or.inl ⟨e.2, rfl, ValueDomain.absorbs_self e.2⟩

/-- What the entries of an operand do to a settled pool with room for them. -/
lemma joinEntries_accepts {es : List (Value × ValueDomain V)} {n : ℕ} {p : ActiveStatePool V}
    (hp : p.AllSettled) (hes : ∀ e ∈ es, e.2 ≠ .BOTTOM)
    (hroom : p.data.size + p.freshEntries es + n < MAX_STATE_POOL_SIZE) :
    (joinEntries joinEntry es p).1.AllSettled ∧
      (joinEntries joinEntry es p).1.data.size + n < MAX_STATE_POOL_SIZE ∧
      (∀ k x, p.Accepts k x → (joinEntries joinEntry es p).1.Accepts k x) ∧
      ∀ e ∈ es, (joinEntries joinEntry es p).1.Accepts e.1 e.2 := by
  induction es generalizing p with
  | nil => exact ⟨hp, hroom, fun _ _ h => h, fun e he => absurd he List.not_mem_nil⟩
  | cons e es ih =>
    obtain ⟨hhead, htail⟩ := room_joinEntry hroom
    have he := hes e List.mem_cons_self
    obtain ⟨hsettled, hsize, hkeeps, hall⟩ :=
      ih (allSettled_joinEntry hhead hp he) (fun e' he' => hes e' (List.mem_cons_of_mem e he'))
        htail
    rw [joinEntries_cons_fst]
    refine ⟨hsettled, hsize, fun k x h => hkeeps k x (accepts_joinEntry hhead he h), ?_⟩
    intro e' he'
    rcases List.mem_cons.mp he' with rfl | hmem
    · exact hkeeps _ _ (joinEntry_accepts hhead)
    · exact hall e' hmem

lemma covers_self {p : ActiveStatePool V} (h : p.RefsTop) : p.Covers p :=
  ⟨h, fun e he => Or.inl
    ⟨e.2, (p.data.find?_eq_some_iff).mpr he, ValueDomain.absorbs_self e.2⟩⟩

omit [AbstractValue V] [LawfulJoin V] in
lemma allSettled_insert {p : ActiveStatePool V} (hp : p.AllSettled) (obj : Value)
    {d : ValueDomain V} (hd : Settled d) (hroom : p.data.size + 1 < MAX_STATE_POOL_SIZE) :
    (p.insert obj d).AllSettled := by
  by_cases hnew : p.data.find? obj = none
  · intro k d' hd'
    rw [data_insert hnew hroom, OrderedMap.find?_emplace] at hd'
    split_ifs at hd' with hkey
    · rw [hnew, Option.getD_none] at hd'
      obtain rfl := Option.some.inj hd'
      exact hd
    · exact hp k d' hd'
  · unfold insert
    rw [dif_neg hnew]
    exact hp

omit [AbstractValue V] [LawfulJoin V] in
lemma size_insert_le {p : ActiveStatePool V} (obj : Value) (d : ValueDomain V)
    (hroom : p.data.size + 1 < MAX_STATE_POOL_SIZE) :
    (p.insert obj d).data.size ≤ p.data.size + 1 := by
  by_cases hnew : p.data.find? obj = none
  · rw [data_insert hnew hroom, OrderedMap.size_emplace hnew]
  · unfold insert
    rw [dif_neg hnew]
    exact Nat.le_succ _

omit [LawfulJoin V] in
/-- The insertion of a settled value that leaves room keeps what is accepted. -/
lemma accepts_insert {p : ActiveStatePool V} {k : Value} {x : ValueDomain V} (h : p.Accepts k x)
    {obj : Value} {d : ValueDomain V} (hd : Settled d)
    (hroom : p.data.size + 1 < MAX_STATE_POOL_SIZE) : (p.insert obj d).Accepts k x := by
  by_cases hnew : p.data.find? obj = none
  · unfold Accepts Knows at h ⊢
    rw [data_insert hnew hroom, OrderedMap.find?_emplace]
    split_ifs with hkey
    · subst hkey
      rw [hnew] at h ⊢
      rcases h with ⟨d', hsome, -⟩ | ⟨-, href⟩
      · exact absurd hsome (by simp)
      · exact Or.inl ⟨d, rfl, hd.absorbs_ref href⟩
    · exact h
  · unfold insert
    rw [dif_neg hnew]
    exact h

end ActiveStatePool

end Cangjie.CHIR
