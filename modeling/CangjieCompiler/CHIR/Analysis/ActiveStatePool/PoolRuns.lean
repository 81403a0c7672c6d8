import CangjieCompiler.CHIR.Analysis.ActiveStatePool.NodeLists
import Mathlib

/-!
# Runs of operations on pools

All pools share one heap, and their nodes are apart.  Every operation on them succeeds, and what it
does to the pools is described by bounded pools, which keep their keys in the order of insertion.
From this the invariant of the representation follows for all pools after every run, and what an
insertion evicts.
-/

namespace Cangjie.CHIR.PoolWorld

open LinkedChain LinkedStatePool

variable {V : Type} {w : PoolWorld V} {chains : ℕ → List (Value × ℕ)}
  {pools : ℕ → ActiveStatePool V}

/-! ## Pools apart from each other -/

/-- Every pool is linked along its chain and shows a bounded pool, and the nodes of two pools are
apart. -/
structure Holds (w : PoolWorld V) (chains : ℕ → List (Value × ℕ)) (pools : ℕ → ActiveStatePool V) :
    Prop where
  linked : ∀ i, WellLinked w.heap (w.pools i) (chains i)
  shows : ∀ i, Shows (w.pools i) (chains i) (pools i)
  apart : ∀ i j, i ≠ j → ∀ a ∈ (chains i).map Prod.snd, a ∉ (chains j).map Prod.snd

/-- An operation on one pool leaves the other ones as they are. -/
lemma Holds.set (h : Holds w chains pools) {this : ℕ} {heap' : Heap Value} {p' : LinkedStatePool V}
    {chain' : List (Value × ℕ)} {a' : ActiveStatePool V} (hlinked : WellLinked heap' p' chain')
    (hextends : Extends w.heap heap' (chains this) chain') (hshows : Shows p' chain' a') :
    Holds (w.set this (heap', p')) (Function.update chains this chain')
      (Function.update pools this a') := by
  have hnew (j : ℕ) (hj : j ≠ this) : ∀ a ∈ chain'.map Prod.snd, a ∉ (chains j).map Prod.snd := by
    intro a ha hmem
    rcases hextends.owned a ha with hold | hfresh
    · exact h.apart this j hj.symm a hold hmem
    · exact absurd ((h.linked j).below a hmem) hfresh.not_gt
  refine ⟨fun i => ?_, fun i => ?_, fun i j hij a ha => ?_⟩
  · by_cases hi : i = this
    · subst hi
      simpa only [PoolWorld.set, Function.update_self] using hlinked
    · simp only [PoolWorld.set, Function.update_of_ne hi]
      refine (h.linked i).congr hextends.le fun a ha => ?_
      exact hextends.kept a ((h.linked i).below a ha) (h.apart i this hi a ha)
  · by_cases hi : i = this
    · subst hi
      simpa only [PoolWorld.set, Function.update_self] using hshows
    · simpa only [PoolWorld.set, Function.update_of_ne hi] using h.shows i
  · by_cases hi : i = this
    · subst hi
      rw [Function.update_self] at ha
      rw [Function.update_of_ne hij.symm]
      exact hnew j hij.symm a ha
    · rw [Function.update_of_ne hi] at ha
      by_cases hj : j = this
      · subst hj
        rw [Function.update_self]
        exact fun hmem => hnew i hij a hmem ha
      · rw [Function.update_of_ne hj]
        exact h.apart i j hij a ha

/-- The bounded pool without entries. -/
def emptyPool : ActiveStatePool V :=
  ⟨OrderedMap.empty, [], ActiveStatePool.tracked_empty V, ActiveStatePool.bounded_empty V⟩

lemma shows_empty : Shows (LinkedStatePool.empty : LinkedStatePool V) [] emptyPool := ⟨rfl, rfl⟩

lemma holds_initial :
    Holds (initial : PoolWorld V) (fun _ => []) (fun _ => emptyPool) where
  linked _ := wellLinked_empty _
  shows _ := shows_empty
  apart _ _ _ _ ha := absurd ha List.not_mem_nil

/-- The pools after the nodes of one of them have been freed. -/
lemma Holds.clear (h : Holds w chains pools) (this : ℕ) :
    Extends w.heap (freeNodes w.heap (w.pools this)) (chains this) [] := by
  refine ⟨(Heap.nextAddress_freeAll _ _).ge, fun a _ ha => ?_, fun a ha => absurd ha List.not_mem_nil⟩
  refine Heap.nodes_freeAll_of_notMem _ fun hmem => ha ?_
  obtain ⟨⟨k, b⟩, he, rfl⟩ := List.mem_map.mp hmem
  have hfind := (w.pools this).obj2StateNode.find?_eq_some_iff.mpr he
  exact List.mem_map.mpr ⟨(k, b), ((h.linked this).node_iff k b).mp hfind, rfl⟩

/-- The nodes of one pool handed over to another one. -/
lemma Holds.move (h : Holds w chains pools) (this other : ℕ) :
    Holds ⟨w.heap, Function.update (Function.update w.pools this (w.pools other)) other
        LinkedStatePool.empty⟩
      (Function.update (Function.update chains this (chains other)) other [])
      (Function.update (Function.update pools this (pools other)) other emptyPool) := by
  refine ⟨fun i => ?_, fun i => ?_, fun i j hij a ha => ?_⟩
  · simp only [Function.update_apply]
    split_ifs
    · exact wellLinked_empty _
    · exact h.linked other
    · exact h.linked i
  · simp only [Function.update_apply]
    split_ifs
    · exact shows_empty
    · exact h.shows other
    · exact h.shows i
  · simp only [Function.update_apply] at ha ⊢
    by_cases hi : i = other
    · rw [if_pos hi] at ha
      exact absurd ha List.not_mem_nil
    · by_cases hj : j = other
      · rw [if_pos hj]
        exact List.not_mem_nil
      · rw [if_neg hi] at ha
        rw [if_neg hj]
        by_cases hthis : i = this
        · rw [if_pos hthis] at ha
          rw [if_neg fun hsame => hij (hthis.trans hsame.symm)]
          exact h.apart other j (Ne.symm hj) a ha
        · rw [if_neg hthis] at ha
          split_ifs
          · exact h.apart i other hi a ha
          · exact h.apart i j hij a ha

/-! ## Single operations -/

lemma holds_insert (h : Holds w chains pools) (this : ℕ) (obj : Value) (domain : ValueDomain V) :
    ∃ w' chains', (LinkedStatePool.insert w.heap (w.pools this) obj domain).map (w.set this) =
        some w' ∧
      Holds w' chains' (Function.update pools this ((pools this).insert obj domain)) := by
  obtain ⟨heap', p', chain', hinsert, hlinked, hextends, hshows⟩ :=
    insert_spec obj domain (h.linked this) (h.shows this)
  refine ⟨_, _, ?_, h.set hlinked hextends hshows⟩
  rw [hinsert, Option.map_some]

lemma holds_copyInto (h : Holds w chains pools) (this other : ℕ) :
    ∃ w' chains', w.copyInto this other = some w' ∧
      Holds w' chains'
        (Function.update pools this (if this = other then emptyPool else pools other)) := by
  have hcleared := h.set (wellLinked_empty _) (h.clear this) shows_empty
  obtain ⟨heap', p', chain', hcopy, hlinked, hextends, hdata, hkeys⟩ :=
    copyFrom_spec (hcleared.linked other)
  obtain ⟨hdata', hkeys'⟩ := hcleared.shows other
  have hspec : Function.update pools this emptyPool other =
      if this = other then emptyPool else pools other := by
    rw [Function.update_apply]
    by_cases hsame : this = other
    · rw [if_pos hsame, if_pos hsame.symm]
    · rw [if_neg hsame, if_neg (Ne.symm hsame)]
  have hshows : Shows p' chain' (if this = other then emptyPool else pools other) := by
    rw [← hspec]
    exact ⟨hdata.trans hdata', hkeys.trans hkeys'⟩
  have hown : Function.update chains this [] this = [] := Function.update_self ..
  rw [← hown] at hextends
  have hresult := hcleared.set hlinked hextends hshows
  simp only [Function.update_idem] at hresult
  refine ⟨_, _, ?_, hresult⟩
  unfold copyInto
  dsimp only
  rw [hcopy]
  rfl

lemma holds_moveInto (h : Holds w chains pools) {this other : ℕ} (hne : this ≠ other) :
    ∃ chains', Holds (w.moveInto this other) chains'
      (Function.update (Function.update pools this (pools other)) other emptyPool) := by
  have hcleared := h.set (wellLinked_empty _) (h.clear this) shows_empty
  have hmoved := hcleared.move this other
  simp only [PoolWorld.set, Function.update_of_ne hne.symm, Function.update_idem] at hmoved
  exact ⟨_, hmoved⟩

variable [AbstractValue V]

/-! ## Bounded pools -/

/-- What a join does to bounded pools. -/
def specJoin (pools : ℕ → ActiveStatePool V) (this other : ℕ)
    (visit : List (Value × ValueDomain V) → List (Value × ValueDomain V)) :
    ℕ → ActiveStatePool V :=
  let trusted := Function.update pools this ((pools this).mapValues ActiveStatePool.untrusted)
  Function.update trusted this
    (joinEntries ActiveStatePool.joinEntry (visit (trusted other).data.entries) (trusted this)).1

/-- What an operation does to bounded pools. -/
def specStep (pools : ℕ → ActiveStatePool V) : PoolOperation V → ℕ → ActiveStatePool V
  | .insert this obj domain => Function.update pools this ((pools this).insert obj domain)
  | .emplace this obj domain => Function.update pools this ((pools this).insert obj domain)
  | .join this other visit _ => specJoin pools this other visit
  | .copyConstruct this other _ => Function.update pools this (pools other)
  | .copyAssign this other =>
    Function.update pools this (if this = other then emptyPool else pools other)
  | .moveConstruct this other _ =>
    Function.update (Function.update pools this (pools other)) other emptyPool
  | .moveAssign this other _ =>
    Function.update (Function.update pools this (pools other)) other emptyPool

def specRun (ops : List (PoolOperation V)) : ℕ → ActiveStatePool V :=
  ops.foldl specStep fun _ => emptyPool

/-! ## Runs -/

lemma holds_join (h : Holds w chains pools) (this other : ℕ)
    (visit : List (Value × ValueDomain V) → List (Value × ValueDomain V)) :
    ∃ w' chains', (w.joinInto this other visit).map Prod.fst = some w' ∧
      Holds w' chains' (specJoin pools this other visit) := by
  obtain ⟨hlinked, hshows⟩ := untrustRefs_spec (h.linked this) (h.shows this)
  have htrusted := h.set hlinked (Extends.refl _ _) hshows
  obtain ⟨heap', p', chain', hloop, hlinked', hextends', hshows'⟩ := joinLoop_spec
    (visit ((w.set this (w.heap, (w.pools this).untrustRefs)).pools other).data.entries)
    (htrusted.linked this) (htrusted.shows this)
  rw [(htrusted.shows other).1] at hshows'
  refine ⟨_, _, ?_, htrusted.set hlinked' hextends' hshows'⟩
  unfold joinInto
  dsimp only
  rw [hloop]
  rfl

/-- Every operation succeeds and does to the pools what is specified. -/
theorem holds_step (h : Holds w chains pools) (op : PoolOperation V) :
    ∃ w' chains', w.step op = some w' ∧ Holds w' chains' (specStep pools op) := by
  cases op with
  | insert this obj domain => exact holds_insert h this obj domain
  | emplace this obj domain => exact holds_insert h this obj domain
  | join this other visit isPerm => exact holds_join h this other visit
  | copyAssign this other => exact holds_copyInto h this other
  | copyConstruct this other isNew =>
    have hcopy := holds_copyInto h this other
    rw [if_neg isNew] at hcopy
    exact hcopy
  | moveConstruct this other isNew =>
    obtain ⟨chains', hmove⟩ := holds_moveInto h isNew
    exact ⟨_, chains', rfl, hmove⟩
  | moveAssign this other isNew =>
    obtain ⟨chains', hmove⟩ := holds_moveInto h isNew
    exact ⟨_, chains', rfl, hmove⟩

lemma holds_foldl (h : Holds w chains pools) (ops : List (PoolOperation V)) :
    ∃ w' chains', w.run ops = some w' ∧ Holds w' chains' (ops.foldl specStep pools) := by
  induction ops generalizing w chains pools with
  | nil => exact ⟨w, chains, rfl, h⟩
  | cons op ops ih =>
    obtain ⟨w₁, chains₁, hstep, hholds⟩ := holds_step h op
    obtain ⟨w', chains', hrun, hholds'⟩ := ih hholds
    refine ⟨w', chains', ?_, hholds'⟩
    rw [run, hstep]
    exact hrun

theorem holds_run (ops : List (PoolOperation V)) :
    ∃ w chains, initial.run ops = some w ∧ Holds w chains (specRun ops) :=
  holds_foldl holds_initial ops

/-! ## The invariant of the representation -/

/-- The nodes of a pool visit its keys in the order of insertion. -/
structure Consistent (heap : Heap Value) (p : LinkedStatePool V) (order : List Value) : Prop where
  /-- Following `next` from `first` visits the keys in order and ends at `tails`; following `prev`
  from there visits the same nodes backwards. -/
  visits : ∃ nodes, walk heap.nodes Node.next order.length p.first = some nodes ∧
    walk heap.nodes Node.prev order.length p.tails = some nodes.reverse ∧
    nodes.map Prod.fst = order ∧ p.tails = nodes.getLast?.map Prod.snd
  once : order.Nodup
  data_keys : ∀ k, p.data.find? k ≠ none ↔ k ∈ order
  node_keys : ∀ k, p.obj2StateNode.find? k ≠ none ↔ k ∈ order
  /-- Every node of the map is in the heap, and its links lead to nodes of the map. -/
  links : ∀ k a, p.obj2StateNode.find? k = some a → ∃ n, heap.nodes a = some n ∧ n.value = k ∧
    ∀ b, n.prev = some b ∨ n.next = some b → ∃ k', p.obj2StateNode.find? k' = some b
  size_eq : p.data.size = order.length
  bounded : p.data.size < MAX_STATE_POOL_SIZE

omit [AbstractValue V] in
lemma consistent_of_wellLinked {heap : Heap Value} {p : LinkedStatePool V}
    {chain : List (Value × ℕ)} {a : ActiveStatePool V} (h : WellLinked heap p chain)
    (ha : Shows p chain a) : Consistent heap p a.order := by
  obtain ⟨hdata, horder⟩ := ha
  have hlength : a.order.length = chain.length := by rw [← horder, List.length_map]
  refine ⟨⟨chain, ?_, ?_, horder, ?_⟩, horder ▸ h.nodup_keys, fun k => ?_, fun k => ?_,
    fun k b hb => ?_, ?_, hdata ▸ a.bounded⟩
  · rw [hlength, h.first_eq]
    exact h.segment.walk_next
  · rw [hlength, h.tails_eq]
    exact h.segment.walk_prev
  · rw [h.tails_eq, lastAddress_eq]
  · rw [← horder, h.tracked.mem_iff, OrderedMap.mem_keys_iff, Option.ne_none_iff_exists']
  · rw [← horder, Option.ne_none_iff_exists', List.mem_map]
    constructor
    · rintro ⟨b, hb⟩
      exact ⟨(k, b), (h.node_iff k b).mp hb, rfl⟩
    · rintro ⟨e, he, rfl⟩
      exact ⟨e.2, (h.node_iff e.1 e.2).mpr he⟩
  · obtain ⟨n, hn, hvalue, hprev, hnext⟩ := h.segment.node ((h.node_iff k b).mp hb)
    refine ⟨n, hn, hvalue, fun c hc => ?_⟩
    have hmem : ∃ e ∈ chain, some c = some e.2 := by
      rcases hc with hc | hc
      · rw [hc] at hprev
        exact hprev.resolve_left (Option.some_ne_none c)
      · rw [hc] at hnext
        exact hnext.resolve_left (Option.some_ne_none c)
    obtain ⟨e, he, hce⟩ := hmem
    rw [Option.some.inj hce]
    exact ⟨e.1, (h.node_iff e.1 e.2).mpr he⟩
  · rw [h.size_eq, hlength]

/-- An insertion of a new key.  If it leaves room the key is the last one, and otherwise exactly the
oldest keys are evicted until `BASE_STATE_POOL_SIZE` keys are left. -/
def orderAfter (order : List Value) (obj : Value) : List Value :=
  if order.length + 1 < MAX_STATE_POOL_SIZE then order ++ [obj]
  else (order ++ [obj]).drop (order.length + 1 - BASE_STATE_POOL_SIZE)

lemma mem_orderAfter (order : List Value) (obj : Value) : obj ∈ orderAfter order obj := by
  unfold orderAfter
  split_ifs with hroom
  · exact List.mem_append_right _ (List.mem_singleton_self obj)
  · have hbase : BASE_STATE_POOL_SIZE < MAX_STATE_POOL_SIZE := by decide
    have hpos : 0 < BASE_STATE_POOL_SIZE := by decide
    rw [List.drop_append_of_le_length (by omega)]
    exact List.mem_append_right _ (List.mem_singleton_self obj)

/-- What is left of an overflowing pool. -/
lemma length_orderAfter {order : List Value} (obj : Value)
    (h : MAX_STATE_POOL_SIZE ≤ order.length + 1) :
    (orderAfter order obj).length = BASE_STATE_POOL_SIZE := by
  have hbase : BASE_STATE_POOL_SIZE < MAX_STATE_POOL_SIZE := by decide
  rw [orderAfter, if_neg h.not_gt, List.length_drop, List.length_append, List.length_singleton]
  omega

omit [AbstractValue V] in
lemma mem_order_iff (a : ActiveStatePool V) (k : Value) :
    k ∈ a.order ↔ a.data.find? k ≠ none := by
  rw [a.tracked.mem_iff, OrderedMap.mem_keys_iff, Option.ne_none_iff_exists']

omit [AbstractValue V] in
/-- The keys after an insertion of a new key, and the values of the keys that are left. -/
lemma order_insert {a : ActiveStatePool V} {obj : Value} (domain : ValueDomain V)
    (hobj : a.data.find? obj = none) :
    (a.insert obj domain).order = orderAfter a.order obj ∧
      ∀ k ∈ orderAfter a.order obj,
        (a.insert obj domain).data.find? k = (a.data.emplace obj domain).find? k := by
  have hsize : (a.data.emplace obj domain).size = a.order.length + 1 := by
    rw [OrderedMap.size_emplace hobj, ActiveStatePool.size_eq_length a.tracked]
  unfold ActiveStatePool.insert ActiveStatePool.checkPoolOverflow orderAfter
  rw [dif_pos hobj]
  by_cases hroom : a.order.length + 1 < MAX_STATE_POOL_SIZE
  · rw [dif_pos (hsize.trans_lt hroom), if_pos hroom]
    exact ⟨rfl, fun _ _ => rfl⟩
  · have hfull : ¬(a.data.emplace obj domain).size < MAX_STATE_POOL_SIZE := by rwa [hsize]
    have hevict := ActiveStatePool.evictOldest_eq (ActiveStatePool.perm_emplace (d := domain)
      a.tracked hobj)
    rw [List.length_append, List.length_singleton] at hevict
    rw [dif_neg hfull, if_neg hroom]
    exact hevict

omit [AbstractValue V] in
/-- An insertion of a new key changes no value but that of the key, and forgets evicted keys. -/
lemma find?_insert {a : ActiveStatePool V} {obj : Value} (domain : ValueDomain V)
    (hobj : a.data.find? obj = none) (k : Value) :
    (a.insert obj domain).data.find? k = if k ∈ orderAfter a.order obj then
      (if k = obj then some domain else a.data.find? k) else none := by
  obtain ⟨horder, hfind⟩ := order_insert domain hobj
  by_cases hk : k ∈ orderAfter a.order obj
  · rw [if_pos hk, hfind k hk, OrderedMap.find?_emplace, hobj, Option.getD_none]
    by_cases hsame : obj = k
    · rw [if_pos hsame, if_pos hsame.symm]
    · rw [if_neg hsame, if_neg (Ne.symm hsame)]
  · rw [if_neg hk]
    rw [← horder, mem_order_iff, not_not] at hk
    exact hk

/-- What an insertion of a key into a pool with the keys `order` does: a key that is present is left
alone, and a new one evicts the oldest keys only. -/
structure InsertsLast (w : PoolWorld V) (this : ℕ) (order : List Value) : Prop where
  present : ∀ obj ∈ order, ∀ domain, w.step (.insert this obj domain) = some w
  fresh : ∀ obj ∉ order, ∀ domain, ∃ w', w.step (.insert this obj domain) = some w' ∧
    Consistent w'.heap (w'.pools this) (orderAfter order obj) ∧ obj ∈ orderAfter order obj ∧
    (MAX_STATE_POOL_SIZE ≤ order.length + 1 →
      (orderAfter order obj).length = BASE_STATE_POOL_SIZE) ∧
    ∀ k, (w'.pools this).data.find? k = if k ∈ orderAfter order obj then
      (if k = obj then some domain else (w.pools this).data.find? k) else none

lemma insertsLast_of_holds (h : Holds w chains pools) (this : ℕ) :
    InsertsLast w this (pools this).order where
  present obj hobj domain := by
    rw [mem_order_iff, ← (h.shows this).1] at hobj
    have hself : w.set this (w.heap, w.pools this) = w := by
      unfold PoolWorld.set
      rw [Function.update_eq_self]
    rw [step, insert_of_present domain (h.linked this) hobj, Option.map_some, hself]
  fresh obj hobj domain := by
    rw [mem_order_iff, not_not] at hobj
    obtain ⟨w', chains', hstep, hholds⟩ := holds_step h (.insert this obj domain)
    obtain ⟨horder, -⟩ := order_insert domain hobj
    have hlinked := hholds.linked this
    have hshows := hholds.shows this
    have hpool : specStep pools (.insert this obj domain) this = (pools this).insert obj domain :=
      Function.update_self ..
    rw [hpool] at hshows
    refine ⟨w', hstep, ?_, mem_orderAfter _ _, length_orderAfter obj, fun k => ?_⟩
    · rw [← horder]
      exact consistent_of_wellLinked hlinked hshows
    · rw [hshows.1, find?_insert domain hobj, (h.shows this).1]

/-- After every run of operations all pools are linked lists of their keys in the order of
insertion, and a further insertion evicts exactly the oldest keys. -/
theorem consistent_of_run (ops : List (PoolOperation V)) :
    ∃ w, initial.run ops = some w ∧ ∀ i,
      Consistent w.heap (w.pools i) (specRun ops i).order ∧
        (w.pools i).data = (specRun ops i).data ∧ InsertsLast w i (specRun ops i).order := by
  obtain ⟨w, chains, hrun, hholds⟩ := holds_run ops
  exact ⟨w, hrun, fun i => ⟨consistent_of_wellLinked (hholds.linked i) (hholds.shows i),
    (hholds.shows i).1, insertsLast_of_holds hholds i⟩⟩

end Cangjie.CHIR.PoolWorld
