import CangjieCompiler.CHIR.Analysis.ActiveStatePool.LinkedStatePool

/-!
# The nodes of a pool form a list

Every operation on one pool succeeds and does to the keys, in the order of their nodes, and to the
values what the operation of the bounded pool does.  Of the nodes in the heap it changes those of
the pool and new ones only.
-/

namespace Cangjie.CHIR.LinkedStatePool

open LinkedChain

variable {V : Type} {heap heap' heap'' : Heap Value} {p p' : LinkedStatePool V}
  {chain chain' chain'' : List (Value × ℕ)}

/-! ## Chains of pools -/

/-- The nodes of a pool are those of a chain, in the order of the chain. -/
structure WellLinked (heap : Heap Value) (p : LinkedStatePool V) (chain : List (Value × ℕ)) :
    Prop where
  tracked : (chain.map Prod.fst).Perm (p.data.entries.map Prod.fst)
  segment : Segment heap.nodes none chain none
  first_eq : p.first = firstAddress chain none
  tails_eq : p.tails = lastAddress none chain
  node_iff : ∀ k a, p.obj2StateNode.find? k = some a ↔ (k, a) ∈ chain
  below : ∀ a ∈ chain.map Prod.snd, a < heap.nextAddress

/-- What an operation on a pool does to the heap: it keeps all nodes but those of the pool, and the
pool gets new nodes only. -/
structure Extends (heap heap' : Heap Value) (chain chain' : List (Value × ℕ)) : Prop where
  le : heap.nextAddress ≤ heap'.nextAddress
  kept : ∀ a < heap.nextAddress, a ∉ chain.map Prod.snd → heap'.nodes a = heap.nodes a
  owned : ∀ a ∈ chain'.map Prod.snd, a ∈ chain.map Prod.snd ∨ heap.nextAddress ≤ a

lemma Extends.refl (heap : Heap Value) (chain : List (Value × ℕ)) :
    Extends heap heap chain chain where
  le := le_rfl
  kept _ _ _ := rfl
  owned _ ha := Or.inl ha

lemma Extends.trans (h : Extends heap heap' chain chain')
    (h' : Extends heap' heap'' chain' chain'') : Extends heap heap'' chain chain'' where
  le := h.le.trans h'.le
  kept a ha hchain := by
    have hother : a ∉ chain'.map Prod.snd := by
      intro hmem
      rcases h.owned a hmem with hold | hnew
      · exact hchain hold
      · omega
    exact (h'.kept a (ha.trans_le h.le) hother).trans (h.kept a ha hchain)
  owned a ha := by
    rcases h'.owned a ha with hold | hnew
    · exact h.owned a hold
    · exact Or.inr (h.le.trans hnew)

namespace WellLinked

lemma nodup_keys (h : WellLinked heap p chain) : (chain.map Prod.fst).Nodup :=
  h.tracked.nodup_iff.mpr p.data.nodup_keys

lemma nodup_addresses (h : WellLinked heap p chain) : (chain.map Prod.snd).Nodup :=
  h.segment.nodup_addresses h.nodup_keys

lemma size_eq (h : WellLinked heap p chain) : p.data.size = chain.length := by
  rw [ActiveStatePool.size_eq_length h.tracked, List.length_map]

/-- A pool is not concerned by what happens to other nodes. -/
lemma congr (h : WellLinked heap p chain) (hle : heap.nextAddress ≤ heap'.nextAddress)
    (hsame : ∀ a ∈ chain.map Prod.snd, heap'.nodes a = heap.nodes a) :
    WellLinked heap' p chain :=
  { h with
    segment := h.segment.congr hsame
    below := fun a ha => (h.below a ha).trans_le hle }

/-- The values of a pool replaced. -/
lemma withData (h : WellLinked heap p chain) {data : OrderedMap Value (ValueDomain V)}
    (hdata : data.entries.map Prod.fst = p.data.entries.map Prod.fst) :
    WellLinked heap { p with data := data } chain :=
  { h with tracked := hdata ▸ h.tracked }

/-- A key without a value has no node. -/
lemma find?_node (h : WellLinked heap p chain) {obj : Value} (hobj : p.data.find? obj = none) :
    p.obj2StateNode.find? obj = none := by
  by_contra hsome
  obtain ⟨a, ha⟩ := Option.ne_none_iff_exists'.mp hsome
  have hmem := h.tracked.mem_iff.mp (List.mem_map.mpr ⟨_, (h.node_iff obj a).mp ha, rfl⟩)
  obtain ⟨d, hd⟩ := p.data.mem_keys_iff.mp hmem
  exact Option.some_ne_none d (hd.symm.trans hobj)

end WellLinked

lemma wellLinked_empty (heap : Heap Value) :
    WellLinked heap (empty : LinkedStatePool V) [] where
  tracked := List.Perm.refl _
  segment := trivial
  first_eq := rfl
  tails_eq := rfl
  node_iff k a := iff_of_false (by simp [empty]) List.not_mem_nil
  below a ha := absurd ha List.not_mem_nil

/-! ## Eviction -/

/-- A round of the eviction takes the first node away. -/
lemma evictFirst_spec {e e' : Value × ℕ} (h : WellLinked heap p (e :: e' :: chain)) :
    ∃ heap' p', evictFirst heap p = some (heap', p') ∧ WellLinked heap' p' (e' :: chain) ∧
      Extends heap heap' (e :: e' :: chain) (e' :: chain) ∧ p'.data = p.data.erase e.1 := by
  obtain ⟨k, a⟩ := e
  obtain ⟨k', a'⟩ := e'
  obtain ⟨hfirst, hsecond, -⟩ := h.segment
  have hfind : p.obj2StateNode.find? k = some a := (h.node_iff k a).mpr List.mem_cons_self
  have haddresses := h.nodup_addresses
  have hkeys := h.nodup_keys
  have hstart : p.first = some a := h.first_eq
  rw [List.map_cons, List.map_cons, List.nodup_cons, List.nodup_cons, List.mem_cons, not_or]
    at haddresses hkeys
  obtain ⟨⟨hne, hfresh⟩, hfresh', -⟩ := haddresses
  let heap' := (heap.write a' ⟨none, firstAddress chain none, k'⟩).free a
  have hnodes (c : ℕ) : heap'.nodes c = if c = a then none else
      if c = a' then some ⟨none, firstAddress chain none, k'⟩ else heap.nodes c := by
    rw [Heap.nodes_free, Heap.nodes_write]
  refine ⟨heap', { p with
    data := p.data.erase k
    obj2StateNode := p.obj2StateNode.erase k
    first := some a' }, ?_, ?_, ?_, rfl⟩
  · unfold evictFirst
    simp only [hstart, hfirst, firstAddress, hsecond, hfind, Option.bind_eq_bind, Option.bind_some]
    rfl
  · refine ⟨ActiveStatePool.perm_erase h.tracked, ?_, rfl, h.tails_eq, fun k₁ a₁ => ?_, ?_⟩
    · refine h.segment.drop_first hsecond ?_ fun c hc => ?_
      · rw [hnodes, if_neg (Ne.symm hne), if_pos rfl]
      · rw [hnodes, if_neg (ne_of_mem_of_not_mem hc hfresh),
          if_neg (ne_of_mem_of_not_mem hc hfresh')]
    · dsimp only
      rw [OrderedMap.find?_erase]
      by_cases hk : k₁ = k
      · subst hk
        rw [if_pos rfl]
        refine iff_of_false (Option.some_ne_none _).symm fun hmem => ?_
        rcases List.mem_cons.mp hmem with heq | hmem
        · obtain ⟨rfl, -⟩ := Prod.mk.inj heq
          exact hkeys.1.1 rfl
        · exact hkeys.1.2 (List.mem_map.mpr ⟨_, hmem, rfl⟩)
      · rw [if_neg hk, h.node_iff, List.mem_cons]
        exact or_iff_right fun heq => hk (Prod.mk.inj heq).1
    · exact fun c hc => h.below c (List.mem_cons_of_mem _ hc)
  · refine ⟨le_rfl, fun c _ hc => ?_, fun c hc => Or.inl (List.mem_cons_of_mem _ hc)⟩
    rw [List.map_cons, List.map_cons, List.mem_cons, List.mem_cons, not_or, not_or] at hc
    rw [hnodes, if_neg hc.1, if_neg hc.2.1]

/-- The loop evicts the oldest keys. -/
lemma evictLoop_spec {rounds : ℕ} (h : WellLinked heap p chain) (hrounds : chain.length ≤ rounds) :
    ∃ heap' p' chain', evictLoop rounds heap p = some (heap', p') ∧
      WellLinked heap' p' chain' ∧ Extends heap heap' chain chain' ∧
      ActiveStatePool.evictOldest (chain.map Prod.fst) p.data = (p'.data, chain'.map Prod.fst) := by
  induction rounds generalizing heap p chain with
  | zero =>
    obtain rfl : chain = [] := List.length_eq_zero_iff.mp (by omega)
    refine ⟨heap, p, [], ?_, h, Extends.refl _ _, rfl⟩
    rw [evictLoop, if_neg]
    rw [h.size_eq]
    exact (Nat.zero_le _).not_gt
  | succ rounds ih =>
    rw [evictLoop]
    split_ifs with hsize
    · have hlength := h.size_eq
      match chain with
      | [] => exact absurd hsize (by rw [hlength]; exact (Nat.zero_le _).not_gt)
      | [_] =>
        rw [hlength, List.length_singleton] at hsize
        exact absurd hsize (by decide)
      | e :: e' :: chain =>
        obtain ⟨heap₁, p₁, hfirst, hlinked, hextends, hdata⟩ := evictFirst_spec h
        obtain ⟨heap', p', chain', hloop, hlinked', hextends', hevict⟩ :=
          ih hlinked (by rw [List.length_cons] at hrounds; omega)
        refine ⟨heap', p', chain', ?_, hlinked', hextends.trans hextends', ?_⟩
        · rw [hfirst]
          exact hloop
        · rw [List.map_cons, ActiveStatePool.evictOldest, if_pos hsize, ← hdata]
          exact hevict
    · refine ⟨heap, p, chain, rfl, h, Extends.refl _ _, ?_⟩
      cases chain with
      | nil => rfl
      | cons e chain => rw [List.map_cons, ActiveStatePool.evictOldest, if_neg hsize]

/-- The keys and values of a pool are those of the bounded pool. -/
def Shows (p : LinkedStatePool V) (chain : List (Value × ℕ)) (a : ActiveStatePool V) : Prop :=
  p.data = a.data ∧ chain.map Prod.fst = a.order

lemma checkPoolOverflow_spec (h : WellLinked heap p chain) :
    ∃ heap' p' chain', checkPoolOverflow heap p = some (heap', p') ∧
      WellLinked heap' p' chain' ∧ Extends heap heap' chain chain' ∧
      Shows p' chain' (ActiveStatePool.checkPoolOverflow (chain.map Prod.fst) p.data h.tracked) := by
  unfold checkPoolOverflow ActiveStatePool.checkPoolOverflow
  by_cases hsize : p.data.size < MAX_STATE_POOL_SIZE
  · rw [if_pos hsize, dif_pos hsize]
    exact ⟨heap, p, chain, rfl, h, Extends.refl _ _, rfl, rfl⟩
  · rw [if_neg hsize, dif_neg hsize]
    obtain ⟨heap', p', chain', hloop, hlinked, hextends, hevict⟩ := evictLoop_spec h h.size_eq.ge
    refine ⟨heap', p', chain', hloop, hlinked, hextends, ?_, ?_⟩
    · dsimp only
      rw [hevict]
    · dsimp only
      rw [hevict]

/-! ## Insertion -/

/-- The new last node of a pool, after the old last node has been linked to it. -/
lemma wellLinked_append {obj : Value} {domain : ValueDomain V} (h : WellLinked heap p chain)
    (hobj : p.data.find? obj = none) {first : Option ℕ}
    (hfirst : first = firstAddress (chain ++ [(obj, heap.nextAddress)]) none)
    (hle : heap.nextAddress + 1 ≤ heap'.nextAddress)
    (hsegment : Segment heap'.nodes none (chain ++ [(obj, heap.nextAddress)]) none) :
    WellLinked heap' ⟨p.data.emplace obj domain, p.obj2StateNode.emplace obj heap.nextAddress,
      first, some heap.nextAddress⟩ (chain ++ [(obj, heap.nextAddress)]) where
  tracked := by
    rw [List.map_append]
    exact ActiveStatePool.perm_emplace h.tracked hobj
  segment := hsegment
  first_eq := hfirst
  tails_eq := by rw [lastAddress_append]; rfl
  node_iff k a := by
    have hnode := h.find?_node hobj
    dsimp only
    rw [OrderedMap.find?_emplace, hnode, List.mem_append, List.mem_singleton]
    by_cases hk : obj = k
    · subst hk
      rw [if_pos rfl, Option.getD_none, Option.some_inj, ← h.node_iff, hnode]
      constructor
      · rintro rfl
        exact Or.inr rfl
      · rintro (hnone | heq)
        · exact absurd hnone (Option.some_ne_none a).symm
        · exact (Prod.mk.inj heq).2.symm
    · rw [if_neg hk, h.node_iff]
      exact (or_iff_left fun heq => hk (Prod.mk.inj heq).1.symm).symm
  below a ha := by
    rw [List.map_append, List.mem_append] at ha
    rcases ha with hold | hnew
    · exact (h.below a hold).trans_le (by omega)
    · obtain rfl := List.mem_singleton.mp hnew
      exact hle

/-- A pool owns its new last node. -/
lemma extends_append {obj : Value} (hle : heap.nextAddress ≤ heap'.nextAddress)
    (hkept : ∀ a < heap.nextAddress, a ∉ chain.map Prod.snd → heap'.nodes a = heap.nodes a) :
    Extends heap heap' chain (chain ++ [(obj, heap.nextAddress)]) where
  le := hle
  kept := hkept
  owned a ha := by
    rw [List.map_append, List.mem_append] at ha
    refine ha.imp_right fun hnew => ?_
    obtain rfl := List.mem_singleton.mp hnew
    exact le_rfl

/-- The insertion of a new key into an empty pool. -/
lemma insert_of_empty {obj : Value} {domain : ValueDomain V} (h : WellLinked heap p [])
    (hobj : p.data.find? obj = none) :
    insert heap p obj domain = checkPoolOverflow (heap.alloc ⟨none, none, obj⟩)
      ⟨p.data.emplace obj domain, p.obj2StateNode.emplace obj heap.nextAddress,
        some heap.nextAddress, some heap.nextAddress⟩ := by
  have hfirst : p.first = none := h.first_eq
  have htails : p.tails = none := h.tails_eq
  unfold insert assignNode
  rw [if_neg (not_not_intro hobj), h.find?_node hobj, htails]
  exact if_pos hfirst

/-- The insertion of a new key after a last node. -/
lemma insert_of_last {obj k : Value} {a : ℕ} {domain : ValueDomain V}
    (h : WellLinked heap p (chain ++ [(k, a)])) (hobj : p.data.find? obj = none) :
    insert heap p obj domain = checkPoolOverflow
      ((heap.alloc ⟨some a, none, obj⟩).write a
        ⟨lastAddress none chain, some heap.nextAddress, k⟩)
      ⟨p.data.emplace obj domain, p.obj2StateNode.emplace obj heap.nextAddress, p.first,
        some heap.nextAddress⟩ := by
  have htails : p.tails = some a := by
    rw [h.tails_eq, lastAddress_append]
    rfl
  have ha : a < heap.nextAddress := h.below a (by simp)
  have hsegment := h.segment
  rw [segment_append] at hsegment
  have hlast : (heap.alloc ⟨some a, none, obj⟩).nodes a =
      some ⟨lastAddress none chain, none, k⟩ := by
    rw [Heap.nodes_alloc, if_neg ha.ne]
    exact hsegment.2.1
  unfold insert assignNode
  rw [if_neg (not_not_intro hobj), h.find?_node hobj, htails]
  dsimp only
  rw [hlast]
  rfl

/-- An insertion of a new key appends a node and then looks for an overflow. -/
lemma insert_of_fresh {obj : Value} (domain : ValueDomain V) (h : WellLinked heap p chain)
    (hobj : p.data.find? obj = none) :
    ∃ heap' p', insert heap p obj domain = checkPoolOverflow heap' p' ∧
      WellLinked heap' p' (chain ++ [(obj, heap.nextAddress)]) ∧
      Extends heap heap' chain (chain ++ [(obj, heap.nextAddress)]) ∧
      p'.data = p.data.emplace obj domain := by
  rcases List.eq_nil_or_concat chain with rfl | ⟨front, ⟨k, a⟩, rfl⟩
  · refine ⟨_, _, insert_of_empty h hobj, wellLinked_append h hobj rfl le_rfl ?_,
      extends_append (Nat.le_succ _) fun a ha _ => ?_, rfl⟩
    · exact ⟨by rw [Heap.nodes_alloc, if_pos rfl]; rfl, trivial⟩
    · rw [Heap.nodes_alloc, if_neg ha.ne]
  · rw [List.concat_eq_append] at h ⊢
    have ha : a < heap.nextAddress := h.below a (by simp)
    have haddresses := h.nodup_addresses
    rw [List.map_append, List.nodup_append] at haddresses
    have hnodes (c : ℕ) : ((heap.alloc ⟨some a, none, obj⟩).write a
        ⟨lastAddress none front, some heap.nextAddress, k⟩).nodes c =
        if c = a then some ⟨lastAddress none front, some heap.nextAddress, k⟩
        else if c = heap.nextAddress then some ⟨some a, none, obj⟩ else heap.nodes c := by
      rw [Heap.nodes_write, Heap.nodes_alloc]
    refine ⟨_, _, insert_of_last h hobj, wellLinked_append h hobj ?_ le_rfl ?_,
      extends_append (Nat.le_succ _) fun b hb hout => ?_, rfl⟩
    · rw [h.first_eq, firstAddress_append, firstAddress_append, firstAddress_append]
      rfl
    · refine h.segment.append_last ?_ ?_ fun c hc => ?_
      · rw [hnodes, if_pos rfl]
      · rw [hnodes, if_neg ha.ne', if_pos rfl]
      · have hne : c ≠ a := haddresses.2.2 c hc a (List.mem_singleton_self a)
        have hlt : c < heap.nextAddress := h.below c (by
          rw [List.map_append]
          exact List.mem_append_left _ hc)
        rw [hnodes, if_neg hne, if_neg hlt.ne]
    · have hne : b ≠ a := by
        rintro rfl
        exact hout (by simp)
      rw [hnodes, if_neg hne, if_neg hb.ne]

/-- A key that is present is left alone. -/
lemma insert_of_present {obj : Value} (domain : ValueDomain V) (h : WellLinked heap p chain)
    (hobj : p.data.find? obj ≠ none) : insert heap p obj domain = some (heap, p) := by
  obtain ⟨d, hd⟩ := Option.ne_none_iff_exists'.mp hobj
  have hkey := h.tracked.mem_iff.mpr (p.data.mem_keys_iff.mpr ⟨d, hd⟩)
  obtain ⟨⟨k, a⟩, hmem, rfl⟩ := List.mem_map.mp hkey
  unfold insert
  rw [if_pos hobj, (h.node_iff k a).mpr hmem]
  rfl

/-- An insertion does to the keys and values what the insertion of the bounded pool does. -/
lemma insert_spec {a : ActiveStatePool V} (obj : Value) (domain : ValueDomain V)
    (h : WellLinked heap p chain) (ha : Shows p chain a) :
    ∃ heap' p' chain', insert heap p obj domain = some (heap', p') ∧
      WellLinked heap' p' chain' ∧ Extends heap heap' chain chain' ∧
      Shows p' chain' (a.insert obj domain) := by
  obtain ⟨hdata, horder⟩ := ha
  unfold ActiveStatePool.insert
  by_cases hobj : p.data.find? obj = none
  · obtain ⟨heap₁, p₁, hinsert, hlinked, hextends, hdata₁⟩ :=
      insert_of_fresh domain h hobj
    obtain ⟨heap', p', chain', hcheck, hlinked', hextends', hshows⟩ := checkPoolOverflow_spec hlinked
    refine ⟨heap', p', chain', hinsert.trans hcheck, hlinked', hextends.trans hextends', ?_⟩
    rw [hdata] at hobj hdata₁
    rw [dif_pos hobj]
    simpa only [hdata₁, List.map_append, horder, List.map_cons, List.map_nil] using hshows
  · have hsome := hobj
    rw [hdata] at hsome
    rw [dif_neg hsome]
    exact ⟨heap, p, chain, insert_of_present domain h hobj, h, Extends.refl _ _, hdata, horder⟩

/-! ## Joins -/

lemma untrustRefs_spec {a : ActiveStatePool V} (h : WellLinked heap p chain) (ha : Shows p chain a) :
    WellLinked heap p.untrustRefs chain ∧
      Shows p.untrustRefs chain (a.mapValues ActiveStatePool.untrusted) := by
  obtain ⟨hdata, horder⟩ := ha
  refine ⟨h.withData (OrderedMap.map_fst_mapValues p.data _), ?_, horder⟩
  rw [untrustRefs, hdata]
  rfl

section Join

variable [AbstractValue V]

/-- One entry of the operand does what it does to the bounded pool. -/
lemma joinEntry_spec {a : ActiveStatePool V} (e : Value × ValueDomain V)
    (h : WellLinked heap p chain) (ha : Shows p chain a) :
    ∃ heap' p' chain', joinEntry heap p e = some (heap', p', (ActiveStatePool.joinEntry e a).2) ∧
      WellLinked heap' p' chain' ∧ Extends heap heap' chain chain' ∧
      Shows p' chain' (ActiveStatePool.joinEntry e a).1 := by
  unfold joinEntry ActiveStatePool.joinEntry
  rw [← ha.1]
  cases hfind : p.data.find? e.1 with
  | some d =>
    have hkeys := OrderedMap.map_fst_modifyEntries e.1 (fun _ => (d.join e.2).1) p.data.entries
    refine ⟨heap, _, chain, rfl, h.withData hkeys, Extends.refl _ _, ?_, ha.2⟩
    dsimp only
    rw [ha.1]
    rfl
  | none =>
    dsimp only
    by_cases href : e.2.isRef = true
    · rw [if_pos href, if_pos href]
      exact ⟨heap, p, chain, rfl, h, Extends.refl _ _, ha⟩
    · rw [if_neg href, if_neg href]
      obtain ⟨heap', p', chain', hinsert, hlinked, hextends, hshows⟩ := insert_spec e.1 e.2 h ha
      refine ⟨heap', p', chain', ?_, hlinked, hextends, hshows⟩
      rw [hinsert]
      rfl

lemma joinLoop_spec {a : ActiveStatePool V} (es : List (Value × ValueDomain V))
    (h : WellLinked heap p chain) (ha : Shows p chain a) :
    ∃ heap' p' chain', joinLoop heap p es =
        some (heap', p', (joinEntries ActiveStatePool.joinEntry es a).2) ∧
      WellLinked heap' p' chain' ∧ Extends heap heap' chain chain' ∧
      Shows p' chain' (joinEntries ActiveStatePool.joinEntry es a).1 := by
  induction es generalizing heap p chain a with
  | nil => exact ⟨heap, p, chain, rfl, h, Extends.refl _ _, ha⟩
  | cons e es ih =>
    obtain ⟨heap₁, p₁, chain₁, hentry, hlinked₁, hextends₁, hshows₁⟩ := joinEntry_spec e h ha
    obtain ⟨heap', p', chain', hloop, hlinked', hextends', hshows'⟩ := ih hlinked₁ hshows₁
    refine ⟨heap', p', chain', ?_, hlinked', hextends₁.trans hextends', hshows'⟩
    rw [joinLoop, hentry, Option.bind_eq_bind, Option.bind_some]
    dsimp only
    rw [hloop]
    rfl

end Join

/-! ## Copies -/

/-- The copied nodes: every entry of the operand has a new node with the content of the old one. -/
structure CopiedNodes (heap heap' : Heap Value) (es : List (Value × ℕ))
    (nodeMap nodeMap' : OrderedMap Value ℕ) : Prop where
  le : heap.nextAddress ≤ heap'.nextAddress
  kept : ∀ a < heap.nextAddress, heap'.nodes a = heap.nodes a
  others : ∀ k ∉ es.map Prod.fst, nodeMap'.find? k = nodeMap.find? k
  copied : ∀ e ∈ es, ∃ b, heap.nextAddress ≤ b ∧ b < heap'.nextAddress ∧
    nodeMap'.find? e.1 = some b ∧ heap'.nodes b = heap.nodes e.2
  injective : ∀ e ∈ es, ∀ e' ∈ es, nodeMap'.find? e.1 = nodeMap'.find? e'.1 → e.1 = e'.1

lemma copyNodes_spec (heap : Heap Value) {es : List (Value × ℕ)} {nodeMap : OrderedMap Value ℕ}
    (hkeys : (es.map Prod.fst).Nodup) (hfresh : ∀ k ∈ es.map Prod.fst, nodeMap.find? k = none)
    (hnodes : ∀ e ∈ es, e.2 < heap.nextAddress ∧ heap.nodes e.2 ≠ none) :
    ∃ heap' nodeMap', copyNodes heap nodeMap es = some (heap', nodeMap') ∧
      CopiedNodes heap heap' es nodeMap nodeMap' := by
  induction es generalizing heap nodeMap with
  | nil =>
    exact ⟨heap, nodeMap, rfl, le_rfl, fun _ _ => rfl, fun _ _ => rfl,
      fun e he => absurd he List.not_mem_nil, fun e he => absurd he List.not_mem_nil⟩
  | cons e es ih =>
    obtain ⟨k, a⟩ := e
    obtain ⟨hk, hkeys⟩ := List.nodup_cons.mp hkeys
    obtain ⟨halt, ha⟩ := hnodes (k, a) List.mem_cons_self
    obtain ⟨n, hn⟩ := Option.ne_none_iff_exists'.mp ha
    have hkfresh : nodeMap.find? k = none := hfresh k List.mem_cons_self
    have hfresh' : ∀ k' ∈ es.map Prod.fst,
        (nodeMap.emplace k heap.nextAddress).find? k' = none := by
      intro k' hk'
      rw [OrderedMap.find?_emplace, if_neg (ne_of_mem_of_not_mem hk' hk).symm]
      exact hfresh k' (List.mem_cons_of_mem _ hk')
    have hnodes' : ∀ e ∈ es, e.2 < (heap.alloc n).nextAddress ∧
        (heap.alloc n).nodes e.2 ≠ none := by
      intro e he
      obtain ⟨hlt, hne⟩ := hnodes e (List.mem_cons_of_mem _ he)
      refine ⟨hlt.trans (Nat.lt_succ_self _), ?_⟩
      rw [Heap.nodes_alloc, if_neg hlt.ne]
      exact hne
    obtain ⟨heap', nodeMap', hcopy, hspec⟩ :=
      ih (heap.alloc n) hkeys hfresh' hnodes'
    have hle := hspec.le
    rw [Heap.nextAddress_alloc] at hle
    have hfirst : nodeMap'.find? k = some heap.nextAddress := by
      rw [hspec.others k hk, OrderedMap.find?_emplace, if_pos rfl, hkfresh, Option.getD_none]
    have hrest : ∀ e ∈ es, nodeMap'.find? e.1 ≠ some heap.nextAddress := by
      intro e he hsame
      obtain ⟨b, hb, -, hfind, -⟩ := hspec.copied e he
      rw [hfind, Option.some_inj] at hsame
      rw [Heap.nextAddress_alloc] at hb
      omega
    refine ⟨heap', nodeMap', ?_, by omega, fun b hb => ?_, fun k' hk' => ?_, ?_, ?_⟩
    · rw [copyNodes, hn]
      exact hcopy
    · rw [hspec.kept b (hb.trans (Nat.lt_succ_self _)), Heap.nodes_alloc, if_neg hb.ne]
    · rw [List.map_cons, List.mem_cons, not_or] at hk'
      rw [hspec.others k' hk'.2, OrderedMap.find?_emplace, if_neg (Ne.symm hk'.1)]
    · intro e he
      rcases List.mem_cons.mp he with rfl | hmem
      · refine ⟨heap.nextAddress, le_rfl, by omega, hfirst, ?_⟩
        rw [hspec.kept _ (Nat.lt_succ_self _), Heap.nodes_alloc, if_pos rfl, hn]
      · obtain ⟨b, hb, hlt, hfind, hnode⟩ := hspec.copied e hmem
        rw [Heap.nextAddress_alloc] at hb
        refine ⟨b, by omega, hlt, hfind, hnode.trans ?_⟩
        rw [Heap.nodes_alloc, if_neg (hnodes e he).1.ne]
    · intro e he e' he' hsame
      rcases List.mem_cons.mp he with rfl | hmem
      · rcases List.mem_cons.mp he' with rfl | hmem'
        · rfl
        · exact absurd (hsame.symm.trans hfirst) (hrest e' hmem')
      · rcases List.mem_cons.mp he' with rfl | hmem'
        · exact absurd (hsame.trans hfirst) (hrest e hmem)
        · exact hspec.injective e hmem e' hmem' hsame

/-- A chain and the new nodes of its keys, which `f` gives by the addresses of the old ones; all
old nodes are below `bound`. -/
structure Copying (nodes : ℕ → Option (Node Value)) (bound : ℕ) (chain : List (Value × ℕ))
    (nodeMap : OrderedMap Value ℕ) (f : ℕ → ℕ) : Prop where
  segment : Segment nodes none chain none
  below : ∀ e ∈ chain, e.2 < bound
  above : ∀ e ∈ chain, bound ≤ f e.2
  target : ∀ e ∈ chain, nodeMap.find? e.1 = some (f e.2)
  injective : ∀ e ∈ chain, ∀ e' ∈ chain, f e.2 = f e'.2 → e = e'

/-- A key is in the chain once. -/
lemma Copying.eq_of_key {nodes : ℕ → Option (Node Value)} {bound : ℕ}
    {nodeMap : OrderedMap Value ℕ} {f : ℕ → ℕ} (hc : Copying nodes bound chain nodeMap f)
    {e e' : Value × ℕ} (he : e ∈ chain) (he' : e' ∈ chain) (h : e.1 = e'.1) : e = e' := by
  refine hc.injective e he e' he' (Option.some.inj ?_)
  rw [← hc.target e he, ← hc.target e' he', h]

section Copying

variable {nodes : ℕ → Option (Node Value)} {bound : ℕ} {nodeMap other : OrderedMap Value ℕ}
  {f : ℕ → ℕ}

lemma targetOf_eq (hc : Copying nodes bound chain nodeMap f)
    (hold : ∀ a < bound, heap.nodes a = nodes a) {e : Value × ℕ} (he : e ∈ chain) :
    targetOf heap nodeMap e.2 = some (f e.2) := by
  obtain ⟨n, hn, hvalue, -⟩ := hc.segment.node he
  unfold targetOf
  rw [hold e.2 (hc.below e he), hn, Option.bind_eq_bind, Option.bind_some, hvalue]
  exact hc.target e he

/-- One link of a new node, which is null or leads to the copy. -/
lemma setLink_eq (hc : Copying nodes bound chain nodeMap f)
    (hold : ∀ a < bound, heap.nodes a = nodes a) {b : ℕ} {n : Node Value}
    (hn : heap.nodes b = some n) {link : Option ℕ}
    (hlink : link = none ∨ ∃ e ∈ chain, link = some e.2) (set : ℕ → Node Value → Node Value) :
    setLink heap nodeMap b link set = some (match link with
      | none => heap
      | some a => heap.write b (set (f a) n)) := by
  unfold setLink
  rcases hlink with rfl | ⟨e, he, rfl⟩
  · rfl
  · dsimp only
    rw [targetOf_eq hc hold he, hn]
    rfl

/-- The two links of a new node. -/
lemma setLinks_spec (hc : Copying nodes bound chain nodeMap f)
    (hold : ∀ a < bound, heap.nodes a = nodes a) {e : Value × ℕ} (he : e ∈ chain) {n : Node Value}
    (hn : nodes e.2 = some n) (hcopy : heap.nodes (f e.2) = some n) :
    ∃ heap₁ heap₂,
      setLink heap nodeMap (f e.2) n.prev (fun target n => { n with prev := some target }) =
        some heap₁ ∧
      setLink heap₁ nodeMap (f e.2) n.next (fun target n => { n with next := some target }) =
        some heap₂ ∧
      heap₂.nextAddress = heap.nextAddress ∧
      ∀ c, heap₂.nodes c = if c = f e.2 then some (n.retarget f) else heap.nodes c := by
  obtain ⟨n', hn', -, hprev, hnext⟩ := hc.segment.node he
  obtain rfl := Option.some.inj (hn.symm.trans hn')
  have hold₁ (node : Node Value) : ∀ a < bound, (heap.write (f e.2) node).nodes a = nodes a := by
    intro a ha
    rw [Heap.nodes_write, if_neg (ha.trans_le (hc.above e he)).ne, hold a ha]
  have hfirst := setLink_eq hc hold hcopy hprev fun target n => { n with prev := some target }
  obtain ⟨prev, next, value⟩ := n
  cases prev with
  | none =>
    have hsecond := setLink_eq hc hold hcopy hnext fun target n => { n with next := some target }
    refine ⟨_, _, hfirst, hsecond, ?_, fun c => ?_⟩
    · cases next <;> rfl
    · cases next with
      | none =>
        by_cases hself : c = f e.2
        · rw [if_pos hself, hself]
          exact hcopy
        · rw [if_neg hself]
      | some a => exact Heap.nodes_write _ _ _ _
  | some a =>
    have hcopy₁ : (heap.write (f e.2) ⟨some (f a), next, value⟩).nodes (f e.2) =
        some ⟨some (f a), next, value⟩ := by
      rw [Heap.nodes_write, if_pos rfl]
    have hsecond := setLink_eq hc (hold₁ _) hcopy₁ hnext
      fun target n => { n with next := some target }
    refine ⟨_, _, hfirst, hsecond, ?_, fun c => ?_⟩
    · cases next <;> rfl
    · cases next with
      | none => exact Heap.nodes_write _ _ _ _
      | some a' =>
        dsimp only
        rw [Heap.nodes_write, Heap.nodes_write]
        by_cases hself : c = f e.2
        · rw [if_pos hself, if_pos hself]
          rfl
        · rw [if_neg hself, if_neg hself, if_neg hself]

/-- The loop of a copy over some keys gives the new nodes of these keys their links. -/
lemma relink_spec (hc : Copying nodes bound chain nodeMap f)
    (hother : ∀ k a, other.find? k = some a ↔ (k, a) ∈ chain) {ks : List Value} (hks : ks.Nodup)
    (hsub : ∀ k ∈ ks, k ∈ chain.map Prod.fst) (hold : ∀ a < bound, heap.nodes a = nodes a)
    (htodo : ∀ e ∈ chain, e.1 ∈ ks → heap.nodes (f e.2) = nodes e.2) :
    ∃ heap', relink heap nodeMap other ks = some heap' ∧
      heap'.nextAddress = heap.nextAddress ∧ (∀ a < bound, heap'.nodes a = nodes a) ∧
      ∀ e ∈ chain, heap'.nodes (f e.2) =
        if e.1 ∈ ks then (nodes e.2).map (Node.retarget f) else heap.nodes (f e.2) := by
  induction ks generalizing heap with
  | nil => exact ⟨heap, rfl, rfl, hold, fun e _ => (if_neg List.not_mem_nil).symm⟩
  | cons k ks ih =>
    obtain ⟨hk, hrest⟩ := List.nodup_cons.mp hks
    obtain ⟨e, he, rfl⟩ := List.mem_map.mp (hsub k List.mem_cons_self)
    obtain ⟨n, hn, -⟩ := hc.segment.node he
    have hcopy := (htodo e he List.mem_cons_self).trans hn
    obtain ⟨heap₁, heap₂, hprev, hnext, haddress, hnodes⟩ := setLinks_spec hc hold he hn hcopy
    have hold₂ : ∀ c < bound, heap₂.nodes c = nodes c := by
      intro c hlt
      rw [hnodes, if_neg (hlt.trans_le (hc.above e he)).ne, hold c hlt]
    have hother₂ : ∀ e' ∈ chain, e'.1 ≠ e.1 → heap₂.nodes (f e'.2) = heap.nodes (f e'.2) := by
      intro e' he' hne
      rw [hnodes, if_neg]
      intro hsame
      exact hne (congrArg Prod.fst (hc.injective e' he' e he hsame))
    have htodo₂ : ∀ e' ∈ chain, e'.1 ∈ ks → heap₂.nodes (f e'.2) = nodes e'.2 := by
      intro e' he' hmem
      rw [hother₂ e' he' (ne_of_mem_of_not_mem hmem hk)]
      exact htodo e' he' (List.mem_cons_of_mem _ hmem)
    obtain ⟨heap', hloop, haddress', hold', hdone⟩ :=
      ih hrest (fun k' hk' => hsub k' (List.mem_cons_of_mem _ hk')) hold₂ htodo₂
    refine ⟨heap', ?_, haddress'.trans haddress, hold', fun e' he' => ?_⟩
    · simp only [relink, hc.target e he, (hother e.1 e.2).mpr he, hold e.2 (hc.below e he), hn,
        Option.bind_eq_bind, Option.bind_some, hprev, hnext]
      exact hloop
    · rw [hdone e' he']
      by_cases hsame : e'.1 = e.1
      · obtain rfl := hc.eq_of_key he' he hsame
        rw [if_neg hk, if_pos List.mem_cons_self, hnodes, if_pos rfl, hn, Option.map_some]
      · rw [hother₂ e' he' hsame]
        have hiff : e'.1 ∈ e.1 :: ks ↔ e'.1 ∈ ks := by
          rw [List.mem_cons]
          exact or_iff_right hsame
        simp only [hiff]

end Copying

/-- The address of the new node of the key whose old node is at `a`. -/
def newAddress (heap : Heap Value) (nodeMap : OrderedMap Value ℕ) (a : ℕ) : ℕ :=
  (targetOf heap nodeMap a).getD 0

/-- Copied nodes are found by the addresses of the old ones. -/
lemma copying_of_copied {nodeMap : OrderedMap Value ℕ} (h : WellLinked heap p chain)
    (hcopied : CopiedNodes heap heap' p.obj2StateNode.entries OrderedMap.empty nodeMap) :
    Copying heap.nodes heap.nextAddress chain nodeMap (newAddress heap nodeMap) ∧
      ∀ e ∈ chain, newAddress heap nodeMap e.2 < heap'.nextAddress ∧
        heap'.nodes (newAddress heap nodeMap e.2) = heap.nodes e.2 := by
  have hentry {e : Value × ℕ} (he : e ∈ chain) : e ∈ p.obj2StateNode.entries :=
    p.obj2StateNode.find?_eq_some_iff.mp ((h.node_iff e.1 e.2).mpr he)
  have hnew {e : Value × ℕ} (he : e ∈ chain) : heap.nextAddress ≤ newAddress heap nodeMap e.2 ∧
      newAddress heap nodeMap e.2 < heap'.nextAddress ∧
      nodeMap.find? e.1 = some (newAddress heap nodeMap e.2) ∧
      heap'.nodes (newAddress heap nodeMap e.2) = heap.nodes e.2 := by
    obtain ⟨b, hb, hlt, hfind, hnode⟩ := hcopied.copied e (hentry he)
    obtain ⟨n, hn, hvalue, -⟩ := h.segment.node he
    have haddress : newAddress heap nodeMap e.2 = b := by
      unfold newAddress targetOf
      rw [hn, Option.bind_eq_bind, Option.bind_some, hvalue, hfind, Option.getD_some]
    rw [haddress]
    exact ⟨hb, hlt, hfind, hnode⟩
  refine ⟨⟨h.segment, fun e he => h.below e.2 (List.mem_map.mpr ⟨e, he, rfl⟩),
    fun e he => (hnew he).1, fun e he => (hnew he).2.2.1, fun e he e' he' hsame => ?_⟩,
    fun e he => ⟨(hnew he).2.1, (hnew he).2.2.2⟩⟩
  have hkey : e.1 = e'.1 := by
    refine hcopied.injective e (hentry he) e' (hentry he') ?_
    rw [(hnew he).2.2.1, (hnew he').2.2.1, hsame]
  have haddress : e.2 = e'.2 := by
    have hfind := (h.node_iff e.1 e.2).mpr he
    rw [hkey, (h.node_iff e'.1 e'.2).mpr he'] at hfind
    exact (Option.some.inj hfind).symm
  exact Prod.ext hkey haddress

/-- The pool made of relinked copies has the chain of the new addresses. -/
lemma wellLinked_copy {nodeMap : OrderedMap Value ℕ} {f : ℕ → ℕ} (h : WellLinked heap p chain)
    (hc : Copying heap.nodes heap.nextAddress chain nodeMap f)
    (hothers : ∀ k ∉ chain.map Prod.fst, nodeMap.find? k = none)
    (hnodes : ∀ e ∈ chain, heap'.nodes (f e.2) = (heap.nodes e.2).map (Node.retarget f))
    (hbelow : ∀ e ∈ chain, f e.2 < heap'.nextAddress) :
    WellLinked heap' ⟨p.data, nodeMap, p.first.map f, p.tails.map f⟩
      (chain.map fun e => (e.1, f e.2)) where
  tracked := by
    rw [List.map_map]
    exact h.tracked
  segment := h.segment.retarget hnodes
  first_eq := by
    dsimp only
    rw [h.first_eq, ← firstAddress_map]
    rfl
  tails_eq := by
    dsimp only
    rw [h.tails_eq, ← lastAddress_map]
    rfl
  node_iff k b := by
    constructor
    · intro hfind
      have hkey : k ∈ chain.map Prod.fst := by
        by_contra hout
        exact Option.some_ne_none b (hfind.symm.trans (hothers k hout))
      obtain ⟨e, he, rfl⟩ := List.mem_map.mp hkey
      obtain rfl := Option.some.inj ((hc.target e he).symm.trans hfind)
      exact List.mem_map.mpr ⟨e, he, rfl⟩
    · intro hmem
      obtain ⟨e, he, heq⟩ := List.mem_map.mp hmem
      obtain ⟨rfl, rfl⟩ := Prod.mk.inj heq
      exact hc.target e he
  below b hb := by
    obtain ⟨e', he', rfl⟩ := List.mem_map.mp hb
    obtain ⟨e, he, rfl⟩ := List.mem_map.mp he'
    exact hbelow e he

lemma data_eq_empty (h : WellLinked heap p []) : p.data = OrderedMap.empty := by
  have hentries := List.nil_perm.mp h.tracked
  exact OrderedMap.ext_entries (List.map_eq_nil_iff.mp hentries)

/-- A copy of a pool has new nodes in the same order. -/
lemma copyFrom_spec (h : WellLinked heap p chain) :
    ∃ heap' p' chain', copyFrom heap p = some (heap', p') ∧ WellLinked heap' p' chain' ∧
      Extends heap heap' [] chain' ∧ p'.data = p.data ∧
      chain'.map Prod.fst = chain.map Prod.fst := by
  cases chain with
  | nil =>
    refine ⟨heap, empty, [], ?_, wellLinked_empty heap, Extends.refl _ _, ?_, rfl⟩
    · unfold copyFrom
      rw [h.first_eq]
      rfl
    · rw [data_eq_empty h]
      rfl
  | cons e rest =>
    have hallocated : ∀ e' ∈ p.obj2StateNode.entries,
        e'.2 < heap.nextAddress ∧ heap.nodes e'.2 ≠ none := by
      intro e' he'
      have hmem := (h.node_iff e'.1 e'.2).mp (p.obj2StateNode.find?_eq_some_iff.mpr he')
      obtain ⟨n, hn, -⟩ := h.segment.node hmem
      refine ⟨h.below e'.2 (List.mem_map.mpr ⟨e', hmem, rfl⟩), ?_⟩
      rw [hn]
      exact Option.some_ne_none n
    have hfresh : ∀ k ∈ p.obj2StateNode.entries.map Prod.fst,
        (OrderedMap.empty : OrderedMap Value ℕ).find? k = none := fun _ _ => rfl
    obtain ⟨heap₁, nodeMap, hcopy, hcopied⟩ :=
      copyNodes_spec heap p.obj2StateNode.nodup_keys hfresh hallocated
    obtain ⟨hc, hnew⟩ := copying_of_copied h hcopied
    obtain ⟨heap₂, hrelink, haddress, hold, hnodes⟩ := relink_spec hc h.node_iff
      p.data.nodup_keys (fun k hk => h.tracked.mem_iff.mpr hk) hcopied.kept
      fun e' he' _ => (hnew e' he').2
    have hnodes' : ∀ e' ∈ e :: rest, heap₂.nodes (newAddress heap nodeMap e'.2) =
        (heap.nodes e'.2).map (Node.retarget (newAddress heap nodeMap)) := by
      intro e' he'
      rw [hnodes e' he', if_pos]
      exact h.tracked.mem_iff.mp (List.mem_map.mpr ⟨e', he', rfl⟩)
    have hothers : ∀ k ∉ (e :: rest).map Prod.fst, nodeMap.find? k = none := by
      intro k hk
      refine hcopied.others k fun hmem => hk ?_
      obtain ⟨⟨k', a⟩, he', rfl⟩ := List.mem_map.mp hmem
      exact List.mem_map.mpr
        ⟨(k', a), (h.node_iff k' a).mp (p.obj2StateNode.find?_eq_some_iff.mpr he'), rfl⟩
    have hbelow : ∀ e' ∈ e :: rest, newAddress heap nodeMap e'.2 < heap₂.nextAddress := by
      intro e' he'
      rw [haddress]
      exact (hnew e' he').1
    have hlinked := wellLinked_copy h hc hothers hnodes' hbelow
    obtain ⟨last, hlast, htails⟩ := exists_lastAddress none e rest
    have hfirst : p.first = some e.2 := h.first_eq
    have htails' : p.tails = some last.2 := h.tails_eq.trans htails
    refine ⟨heap₂, _, _, ?_, hlinked, ⟨?_, fun a ha _ => hold a ha, fun b hb => Or.inr ?_⟩, rfl, ?_⟩
    · simp only [copyFrom, hfirst, htails', hcopy, hrelink, targetOf_eq hc hold List.mem_cons_self,
        targetOf_eq hc hold hlast, Option.bind_eq_bind, Option.bind_some]
      rfl
    · rw [haddress]
      exact hcopied.le
    · obtain ⟨e₁, he₁, rfl⟩ := List.mem_map.mp hb
      obtain ⟨e₂, he₂, rfl⟩ := List.mem_map.mp he₁
      exact hc.above e₂ he₂
    · rw [List.map_map]
      rfl

end Cangjie.CHIR.LinkedStatePool
