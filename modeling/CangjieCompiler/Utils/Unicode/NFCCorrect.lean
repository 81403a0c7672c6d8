import CangjieCompiler.Utils.Unicode.CanonicalEquivalence
import CangjieCompiler.Utils.Unicode.UnicodeNFC

/-!
# Recomposing gives the composed canonical form

`Decompositions` gives the canonical decomposition of a string and `Recompositions` the composition
of an ordered one, so that `CanonicalRecompose` gives the composed canonical form of every string.

`CanonicalDecompose` loses a byte order mark in front, which is a character of the string, and so
recomposing its result gives the composed canonical form for the other strings only.
-/

namespace Cangjie.Unicode

variable {D : UnicodeData}

/-! ## The tables -/

lemma decomposeCanonical_eq (c : Char) : D.decomposeCanonical c = D.decomposition c := by
  rw [UnicodeData.decomposeCanonical, UnicodeData.decomposition, fullDecomposition]
  split_ifs with hascii hsyllable hsyllable
  · have hbounds : SBASE ≤ c.toNat ∧ c.toNat < SBASE + SCOUNT := of_decide_eq_true hsyllable
    have hle := hbounds.1.trans hascii
    exact absurd hle (by decide)
  · rw [D.ascii c hascii]
    rfl
  · rfl
  · cases D.decomposed c with
    | none => rfl
    | some d => rfl

lemma compose_eq (a b : Char) : D.compose a b = D.composite a b := rfl

/-! ## Decompositions -/

namespace Decompositions

/-- The buffer is what was given, what is ready and what is pending; `out` is still to be given. -/
def Gives (D : UnicodeData) (d : Decompositions) (rest out : List Char) : Prop :=
  ∃ given ready pending : List (ℕ × Char),
    d.buffer = given ++ ready ++ pending ∧ d.ready.start = given.length ∧
      d.ready.stop = (given ++ ready).length ∧ (ready = [] → given = []) ∧
      (∀ e ∈ d.buffer, e.1 = D.ccc e.2) ∧
      out = ready.map Prod.snd ++ D.canonicalOrderFrom (pending.map Prod.snd) rest

section Steps

variable {d : Decompositions} {given ready pending : List (ℕ × Char)}

lemma sortPending_buffer (hbuffer : d.buffer = given ++ ready ++ pending)
    (hstop : d.ready.stop = (given ++ ready).length) :
    d.sortPending.buffer = given ++ ready ++ stableSort Prod.fst pending ∧
      d.sortPending.ready = d.ready := by
  rw [sortPending]
  split_ifs with hlt
  · refine ⟨?_, rfl⟩
    dsimp only
    rw [hbuffer, hstop, List.take_left, List.drop_left]
  · have hlength : (given ++ ready ++ pending).length ≤ (given ++ ready).length := by
      rw [← hbuffer, ← hstop]
      exact not_lt.mp hlt
    have hpending : pending = [] := by
      rw [List.length_append] at hlength
      exact List.length_eq_zero_iff.mp (by omega)
    exact ⟨by rw [hbuffer, hpending]; rfl, rfl⟩

/-- Sorting what is pending and making it ready. -/
lemma gives_sorted (hclasses : ∀ e ∈ given ++ ready ++ pending, e.1 = D.ccc e.2) :
    (ready ++ stableSort Prod.fst pending).map Prod.snd =
      ready.map Prod.snd ++ stableSort D.ccc (pending.map Prod.snd) := by
  rw [List.map_append, map_stableSort_fst D.ccc]
  exact fun e he => hclasses e (List.mem_append_right _ he)

/-- A character that is pushed is the next one to order. -/
lemma gives_pushBack {rest out : List Char} {c : Char} (h : Gives D d (c :: rest) out) :
    Gives D (d.pushBack D c) rest out := by
  obtain ⟨given, ready, pending, hbuffer, hstart, hstop, hempty, hclasses, hout⟩ := h
  rw [pushBack]
  split_ifs with hcc
  · obtain ⟨hsorted, hready⟩ := sortPending_buffer hbuffer hstop
    rw [hbuffer] at hclasses
    -- what was given is kept only while something is ready
    refine ⟨given, ready ++ stableSort Prod.fst pending ++ [(D.ccc c, c)], [], ?_, ?_, ?_, ?_, ?_,
      ?_⟩
    · simp only [hsorted, List.append_assoc, List.append_nil]
    · simp only [hready, hstart]
    · simp only [hsorted, List.append_assoc]
    · exact fun h => absurd (List.append_eq_nil_iff.mp h).2 (List.cons_ne_nil _ _)
    · intro e he
      simp only [hsorted] at he
      rcases List.mem_append.mp he with hold | hnew
      · refine hclasses e ?_
        rcases List.mem_append.mp hold with hfront | hpending
        · exact List.mem_append_left _ hfront
        · exact List.mem_append_right _ ((mem_stableSort _).mp hpending)
      · rw [List.mem_singleton.mp hnew]
    · rw [hout, UnicodeData.canonicalOrderFrom, if_pos hcc, List.map_append,
        gives_sorted hclasses, List.append_assoc, List.append_assoc]
      rfl
  · refine ⟨given, ready, pending ++ [(D.ccc c, c)], ?_, hstart, hstop, hempty, ?_, ?_⟩
    · simp only [hbuffer, List.append_assoc]
    · intro e he
      rcases List.mem_append.mp he with hold | hnew
      · exact hclasses e hold
      · rw [List.mem_singleton.mp hnew]
    · rw [hout, UnicodeData.canonicalOrderFrom, if_neg hcc, List.map_append]
      rfl

lemma gives_pushBacks {cs rest out : List Char} (h : Gives D d (cs ++ rest) out) :
    Gives D (cs.foldl (pushBack D) d) rest out := by
  induction cs generalizing d with
  | nil => exact h
  | cons c cs ih => exact ih (gives_pushBack h)

lemma gives_cur {rest out : List Char} (cur : List Char) (h : Gives D d rest out) :
    Gives D { d with cur := cur } rest out := h

end Steps

/-- A state gives `out` when its buffer does with what is still to be read. -/
def Represents (D : UnicodeData) (d : Decompositions) (out : List Char) : Prop :=
  Gives D d (d.cur.flatMap D.decomposition) out

/-- Reading keeps what is to be given; if nothing is ready then, nothing is left. -/
lemma fillReady_spec {cur out : List Char} {d : Decompositions}
    (h : Gives D d (cur.flatMap D.decomposition) out) :
    Represents D (fillReady D cur d) out ∧ ((fillReady D cur d).ready.stop = 0 → out = []) := by
  induction cur generalizing d with
  | nil =>
    obtain ⟨given, ready, pending, hbuffer, hstart, hstop, hempty, hclasses, hout⟩ := h
    rw [fillReady]
    split_ifs with hpending
    · -- the end: everything that is pending is sorted and becomes ready
      obtain ⟨hzero, hne⟩ := hpending
      obtain ⟨hsorted, hready⟩ := sortPending_buffer hbuffer hstop
      have hfront : given ++ ready = [] := List.length_eq_zero_iff.mp (hstop.symm.trans hzero)
      obtain ⟨rfl, rfl⟩ := List.append_eq_nil_iff.mp hfront
      rw [List.nil_append, List.nil_append] at hsorted
      have hne' : stableSort Prod.fst pending ≠ [] := by
        rw [hbuffer] at hne
        obtain ⟨e, he⟩ := List.exists_mem_of_ne_nil _ hne
        exact List.ne_nil_of_mem ((mem_stableSort _).mpr he)
      rw [hbuffer] at hclasses
      refine ⟨⟨[], stableSort Prod.fst pending, [], ?_, ?_, ?_, fun _ => rfl, ?_, ?_⟩, ?_⟩
      · simp only [hsorted, List.nil_append, List.append_nil]
      · simp only [hready, hstart]
      · simp only [hsorted, List.nil_append]
      · intro e he
        simp only [hsorted] at he
        exact hclasses e ((mem_stableSort _).mp he)
      · have hmap : (stableSort Prod.fst pending).map Prod.snd =
            stableSort D.ccc (pending.map Prod.snd) :=
          map_stableSort_fst D.ccc fun e he => hclasses e he
        rw [hout, hmap]
        exact (List.append_nil _).symm
      · intro hstop'
        simp only [hsorted] at hstop'
        exact absurd (List.length_eq_zero_iff.mp hstop') hne'
    · refine ⟨⟨given, ready, pending, hbuffer, hstart, hstop, hempty, hclasses, hout⟩, ?_⟩
      intro hzero
      have hnil : d.buffer = [] := by
        by_contra hne
        exact hpending ⟨hzero, hne⟩
      rw [hnil] at hbuffer
      obtain ⟨hfront, rfl⟩ := List.append_eq_nil_iff.mp hbuffer.symm
      obtain ⟨rfl, rfl⟩ := List.append_eq_nil_iff.mp hfront
      exact hout
  | cons c cur ih =>
    rw [fillReady]
    split_ifs with hzero
    · refine ih (gives_pushBacks ?_)
      rw [decomposeCanonical_eq]
      exact h
    · exact ⟨h, fun h' => absurd h' hzero⟩

/-- The steps of the decomposition give what its states represent. -/
theorem yields_next (D : UnicodeData) : Yields (next D) (Represents D) where
  nil := by
    intro d h
    obtain ⟨hrep, -⟩ := fillReady_spec h
    obtain ⟨given, ready, pending, -, -, hstop, hempty, -, hout⟩ := hrep
    have hready : ready = [] :=
      List.map_eq_nil_iff.mp (List.append_eq_nil_iff.mp hout.symm).1
    rw [hready, hempty hready] at hstop
    exact if_pos hstop
  cons := by
    intro d a as h
    obtain ⟨hrep, hzero⟩ := fillReady_spec h
    rw [next]
    generalize fillReady D d.cur d = d' at hrep hzero
    have hstop' : d'.ready.stop ≠ 0 := fun h' => absurd (hzero h') (List.cons_ne_nil _ _)
    obtain ⟨given, ready, pending, hbuffer, hstart, hstop, hempty, hclasses, hout⟩ := hrep
    cases ready with
    | nil => exact absurd (by rw [hstop, hempty rfl]; rfl) hstop'
    | cons e ready =>
      obtain ⟨rfl, rfl⟩ := List.cons.inj hout
      have hget : d'.buffer[d'.ready.start]? = some e := by
        rw [hbuffer, hstart, List.append_assoc, List.getElem?_append_right le_rfl, Nat.sub_self]
        rfl
      refine ⟨d'.incrementNextReady, by rw [if_neg hstop', hget]; rfl, ?_⟩
      rw [incrementNextReady]
      dsimp only
      split_ifs with hlast
      · -- the last one that was ready
        have hnil : ready = [] := by
          rw [hstart, hstop, List.length_append, List.length_cons] at hlast
          exact List.length_eq_zero_iff.mp (by omega)
        subst hnil
        have hdrop : d'.buffer.drop d'.ready.stop = pending := by
          rw [hbuffer, hstop, List.drop_left]
        refine ⟨[], [], pending, hdrop, rfl, rfl, fun _ => rfl, ?_, rfl⟩
        exact fun e' he' => hclasses e' (List.mem_of_mem_drop he')
      · refine ⟨given ++ [e], ready, pending, ?_, ?_, ?_, ?_, hclasses, rfl⟩
        · rw [List.append_assoc given, List.singleton_append]
          exact hbuffer
        · rw [List.length_append, hstart]
          rfl
        · rw [List.append_assoc given, List.singleton_append]
          exact hstop
        · rintro rfl
          refine absurd ?_ hlast
          rw [hstart, hstop, List.length_append]
          rfl

/-- Every character of the decomposition is given once, in canonical order. -/
theorem get_eq {fuel : ℕ} {s : List Char} (hfuel : (D.toNFD s).length < fuel) :
    get D fuel s = some (D.toNFD s) := by
  refine (yields_next D).drain_eq ?_ hfuel
  exact ⟨[], [], [], rfl, rfl, rfl, fun _ => rfl, fun e he => absurd he List.not_mem_nil, rfl⟩

end Decompositions

/-! ## Recompositions -/

namespace Recompositions

/-- The marks between the composee and the next character: they are in the order of their classes,
and the last class bounds those of what follows. -/
structure Buffered (D : UnicodeData) (k : Char) (between cur : List Char) (m : ℕ)
    (lastccc : Option ℕ) : Prop where
  composee : D.ccc k = 0
  marks : ∀ x ∈ between, D.ccc x ≠ 0
  sorted : between.Pairwise fun a b => D.ccc a ≤ D.ccc b
  bound : ∀ x ∈ between, D.ccc x ≤ m
  ordered : D.Ordered m cur
  last : lastccc = between.getLast?.map D.ccc

namespace Buffered

variable {k c : Char} {between cur : List Char} {m : ℕ} {lastccc : Option ℕ}

lemma nil (hk : D.ccc k = 0) (hordered : D.Ordered m cur) : Buffered D k [] cur m none where
  composee := hk
  marks := fun _ h => absurd h List.not_mem_nil
  sorted := List.Pairwise.nil
  bound := fun _ h => absurd h List.not_mem_nil
  ordered := hordered
  last := rfl

/-- Nothing is blocked while nothing is buffered. -/
lemma between_nil (h : Buffered D k between cur m none) : between = [] := by
  have hlast := h.last
  cases hget : between.getLast? with
  | none => exact List.getLast?_eq_none_iff.mp hget
  | some b =>
    rw [hget] at hlast
    exact absurd hlast (Option.some_ne_none _).symm

/-- A character is blocked when its class is not above that of the last mark. -/
lemma blocked_iff {lclass : ℕ} (h : Buffered D k between cur m (some lclass)) (c : Char) :
    D.Blocked between c ↔ D.ccc c ≤ lclass := by
  have hlast := h.last
  cases hget : between.getLast? with
  | none =>
    rw [hget] at hlast
    exact absurd hlast (Option.some_ne_none _)
  | some b =>
    rw [hget] at hlast
    obtain rfl := Option.some.inj hlast
    obtain ⟨front, rfl⟩ := List.getLast?_eq_some_iff.mp hget
    have hb : b ∈ front ++ [b] := List.mem_append_right _ List.mem_cons_self
    refine ⟨?_, fun hle => ⟨b, hb, Or.inr hle⟩⟩
    rintro ⟨x, hx, hzero | hle⟩
    · exact absurd hzero (h.marks x hx)
    · rcases List.mem_append.mp hx with hfront | hx'
      · exact hle.trans ((List.pairwise_append.mp h.sorted).2.2 x hfront b List.mem_cons_self)
      · rwa [List.mem_singleton.mp hx'] at hle

/-- A composite takes the place of the composee. -/
lemma compose {p : Char} (h : Buffered D k between (c :: cur) m lastccc)
    (hp : D.composite k c = some p) (hnot : ¬ D.Blocked between c) :
    ∃ m', Buffered D p between cur m' lastccc := by
  obtain ⟨-, hstarter⟩ := D.composite_spec hp
  refine ⟨D.ccc c, hstarter, h.marks, h.sorted, fun x hx => ?_, h.ordered.2, h.last⟩
  exact (not_le.mp fun hle => hnot ⟨x, hx, Or.inr hle⟩).le

/-- A mark that is not composed is buffered. -/
lemma push (h : Buffered D k between (c :: cur) m lastccc) (hc : D.ccc c ≠ 0) :
    Buffered D k (between ++ [c]) cur (D.ccc c) (some (D.ccc c)) := by
  have hm : m ≤ D.ccc c := h.ordered.1.resolve_left hc
  have hle : ∀ x ∈ between, D.ccc x ≤ D.ccc c := fun x hx => (h.bound x hx).trans hm
  refine ⟨h.composee, fun x hx => ?_, ?_, fun x hx => ?_, h.ordered.2, ?_⟩
  · rcases List.mem_append.mp hx with hold | hnew
    · exact h.marks x hold
    · rwa [List.mem_singleton.mp hnew]
  · refine List.pairwise_append.mpr ⟨h.sorted, List.pairwise_singleton _ _, fun x hx y hy => ?_⟩
    rw [List.mem_singleton.mp hy]
    exact hle x hx
  · rcases List.mem_append.mp hx with hold | hnew
    · exact hle x hold
    · rw [List.mem_singleton.mp hnew]
  · rw [List.getLast?_concat]
    rfl

end Buffered

/-- What a state is still to give. -/
def Represents (D : UnicodeData) (r : Recompositions) (out : List Char) : Prop :=
  match r.state.v with
  | .COMPOSING =>
    match r.composee with
    | none => r.buffer = [] ∧ r.lastccc = none ∧ D.Ordered 0 r.cur ∧ out = D.composeStart r.cur
    | some k => ∃ m, Buffered D k r.buffer r.cur m r.lastccc ∧
        out = D.composeFrom k r.buffer r.cur
  | .PURGING => ∃ k, r.composee = some k ∧ r.lastccc = none ∧ D.ccc k = 0 ∧ D.Ordered 0 r.cur ∧
      out = r.buffer.drop r.state.sz ++ D.composeFrom k [] r.cur
  | .FINISHED => r.composee = none ∧ out = r.buffer.drop r.state.sz

/-- The loop of the composing state: a character that it gives is the next one, and at its end the
composee and the buffer are left. -/
def LoopSpec (D : UnicodeData) (out : List Char) : Option Char × Recompositions → Prop
  | (some ch, r) => ∃ as, out = ch :: as ∧ Represents D r as
  | (none, r) => out = r.composee.toList ++ r.buffer

section Loop

variable {r : Recompositions}

/-- The loop with a composee. -/
lemma composing_some {cur : List Char} {k : Char} {m : ℕ} (hv : r.state.v = .COMPOSING)
    (hk : r.composee = some k) (h : Buffered D k r.buffer cur m r.lastccc) :
    LoopSpec D (D.composeFrom k r.buffer cur) (composing D cur r) := by
  induction cur generalizing r k m with
  | nil =>
    rw [composing, LoopSpec, UnicodeData.composeFrom, hk]
    rfl
  | cons c cur ih =>
    obtain ⟨rest, state, buffer, composee, lastccc⟩ := r
    dsimp only at hv hk h ⊢
    subst hk
    -- the states that the loop goes on with
    have hcompose : ∀ {p}, D.composite k c = some p → ¬ D.Blocked buffer c →
        LoopSpec D (D.composeFrom k buffer (c :: cur))
          (composing D cur ⟨rest, state, buffer, some p, lastccc⟩) := by
      intro p hp hnot
      obtain ⟨m', hbuffered⟩ := h.compose hp hnot
      rw [UnicodeData.composeFrom, if_neg hnot, hp]
      exact ih (r := ⟨rest, state, buffer, some p, lastccc⟩) hv rfl hbuffered
    have hpush : D.ccc c ≠ 0 → (if D.Blocked buffer c then none else D.composite k c) = none →
        LoopSpec D (D.composeFrom k buffer (c :: cur))
          (composing D cur ⟨rest, state, buffer ++ [c], some k, some (D.ccc c)⟩) := by
      intro hc hnone
      rw [UnicodeData.composeFrom, hnone]
      dsimp only
      rw [if_neg hc]
      exact ih (r := ⟨rest, state, buffer ++ [c], some k, some (D.ccc c)⟩) hv rfl (h.push hc)
    rw [composing]
    dsimp only
    cases lastccc with
    | none =>
      have hnil := h.between_nil
      have hnot : ¬ D.Blocked buffer c := by
        rw [hnil]
        rintro ⟨x, hx, -⟩
        exact absurd hx List.not_mem_nil
      dsimp only
      rw [compose_eq]
      cases hp : D.composite k c with
      | some p => exact hcompose hp hnot
      | none =>
        dsimp only
        split_ifs with hc
        · -- the next starter
          refine ⟨D.composeFrom c [] cur, ?_, ?_⟩
          · rw [UnicodeData.composeFrom, if_neg hnot, hp]
            dsimp only
            rw [if_pos hc, hnil]
            rfl
          · rw [Represents, hnil]
            dsimp only
            rw [hv]
            exact ⟨_, Buffered.nil hc h.ordered.2, rfl⟩
        · exact hpush hc (by rw [if_neg hnot, hp])
    | some lclass =>
      have hblocked := h.blocked_iff c
      dsimp only
      split_ifs with hle hc
      · -- a starter behind marks
        have hyes : D.Blocked buffer c := hblocked.mpr hle
        refine ⟨buffer ++ D.composeFrom c [] cur, ?_, ?_⟩
        · rw [UnicodeData.composeFrom, if_pos hyes]
          dsimp only
          rw [if_pos hc]
        · refine ⟨c, rfl, rfl, hc, ?_, rfl⟩
          have hordered := h.ordered.2
          rwa [hc] at hordered
      · exact hpush hc (if_pos (hblocked.mpr hle))
      · have hnot : ¬ D.Blocked buffer c := fun h' => hle (hblocked.mp h')
        rw [compose_eq]
        cases hp : D.composite k c with
        | some p => exact hcompose hp hnot
        | none =>
          have hc : D.ccc c ≠ 0 := fun h' => hle (h'.le.trans (Nat.zero_le _))
          exact hpush hc (by rw [if_neg hnot, hp])

/-- The loop before the first starter. -/
lemma composing_none {cur : List Char} (hv : r.state.v = .COMPOSING) (hk : r.composee = none)
    (hbuffer : r.buffer = []) (hlast : r.lastccc = none) (h : D.Ordered 0 cur) :
    LoopSpec D (D.composeStart cur) (composing D cur r) := by
  cases cur with
  | nil =>
    rw [composing, LoopSpec, UnicodeData.composeStart, hk, hbuffer]
    rfl
  | cons c cur =>
    rw [composing, UnicodeData.composeStart, hk]
    dsimp only
    by_cases hc : D.ccc c = 0
    · have hbuffered : Buffered D c r.buffer cur (D.ccc c) r.lastccc := by
        rw [hbuffer, hlast]
        exact Buffered.nil hc h.2
      have hspec := composing_some (r := { r with composee := some c }) hv rfl hbuffered
      dsimp only at hspec
      rw [hbuffer] at hspec
      rw [if_pos hc, if_neg (not_not.mpr hc), hbuffer]
      exact hspec
    · rw [if_neg hc, if_pos hc]
      refine ⟨D.composeStart cur, rfl, ?_⟩
      rw [Represents]
      dsimp only
      rw [hv]
      exact ⟨hbuffer, hlast, h.2.mono (Nat.zero_le _), rfl⟩

end Loop

/-- The loop of the composing state gives what the state represents. -/
lemma composing_spec {r : Recompositions} {out : List Char} (hv : r.state.v = .COMPOSING)
    (h : Represents D r out) : LoopSpec D out (composing D r.cur r) := by
  rw [Represents, hv] at h
  dsimp only at h
  cases hk : r.composee with
  | none =>
    rw [hk] at h
    obtain ⟨hbuffer, hlast, hordered, rfl⟩ := h
    exact composing_none hv hk hbuffer hlast hordered
  | some k =>
    rw [hk] at h
    obtain ⟨m, hbuffered, rfl⟩ := h
    exact composing_some hv hk hbuffered

/-- One step gives the head of what is to be given, if there is any. -/
def StepSpec (D : UnicodeData) (out : List Char) (o : Option (Char × Recompositions)) : Prop :=
  match out with
  | [] => o = none
  | a :: as => ∃ r', o = some (a, r') ∧ Represents D r' as

section Step

variable {r : Recompositions} {out : List Char}

lemma nextFinished_spec (hv : r.state.v = .FINISHED) (h : Represents D r out) :
    StepSpec D out r.nextFinished := by
  rw [Represents, hv] at h
  obtain ⟨hk, rfl⟩ := h
  rw [nextFinished]
  cases hget : r.buffer[r.state.sz]? with
  | none =>
    rw [List.drop_eq_nil_of_le (List.getElem?_eq_none_iff.mp hget), hk]
    rfl
  | some b =>
    obtain ⟨hlt, rfl⟩ := List.getElem?_eq_some_iff.mp hget
    rw [List.drop_eq_getElem_cons hlt]
    refine ⟨_, rfl, ?_⟩
    rw [Represents]
    dsimp only
    rw [hv]
    exact ⟨hk, rfl⟩

lemma nextComposing_spec (hv : r.state.v = .COMPOSING) (h : Represents D r out) :
    StepSpec D out (nextComposing D r) := by
  have hspec := composing_spec hv h
  rw [nextComposing]
  rcases hloop : composing D r.cur r with ⟨_ | ch, r'⟩
  · rw [hloop] at hspec
    dsimp only
    cases hk : r'.composee with
    | none =>
      rw [LoopSpec, hk] at hspec
      exact nextFinished_spec rfl ⟨rfl, hspec⟩
    | some b =>
      rw [LoopSpec, hk] at hspec
      rw [hspec]
      exact ⟨_, rfl, rfl, rfl⟩
  · rw [hloop] at hspec
    obtain ⟨as, rfl, hrep⟩ := hspec
    exact ⟨r', rfl, hrep⟩

lemma nextPurging_spec (hv : r.state.v = .PURGING) (h : Represents D r out) :
    StepSpec D out (nextPurging D r) := by
  rw [Represents, hv] at h
  obtain ⟨k, hk, hlast, hstarter, hordered, rfl⟩ := h
  rw [nextPurging]
  cases hget : r.buffer[r.state.sz]? with
  | none =>
    rw [List.drop_eq_nil_of_le (List.getElem?_eq_none_iff.mp hget), List.nil_append]
    refine nextComposing_spec rfl ?_
    rw [Represents]
    dsimp only
    rw [hk, hlast]
    exact ⟨0, Buffered.nil hstarter hordered, rfl⟩
  | some b =>
    obtain ⟨hlt, rfl⟩ := List.getElem?_eq_some_iff.mp hget
    rw [List.drop_eq_getElem_cons hlt]
    refine ⟨_, rfl, ?_⟩
    rw [Represents]
    dsimp only
    rw [hv]
    exact ⟨k, hk, hlast, hstarter, hordered, rfl⟩

lemma next_spec (h : Represents D r out) : StepSpec D out (next D r) := by
  rw [next]
  cases hv : r.state.v with
  | COMPOSING => exact nextComposing_spec hv h
  | PURGING => exact nextPurging_spec hv h
  | FINISHED => exact nextFinished_spec hv h

end Step

/-- The steps of the composition give what its states represent. -/
theorem yields_next (D : UnicodeData) : Yields (next D) (Represents D) where
  nil := fun h => next_spec h
  cons := fun h => next_spec h

/-- An ordered string is composed. -/
theorem get_eq {fuel : ℕ} {source : List Char} (hordered : D.Ordered 0 source)
    (hfuel : (D.canonicalCompose source).length < fuel) :
    get D fuel source = some (D.canonicalCompose source) := by
  refine (yields_next D).drain_eq ?_ hfuel
  exact ⟨rfl, rfl, hordered, D.canonicalCompose_eq source⟩

end Recompositions

/-! ## Strings -/

theorem canonicalRecompose_eq {fuel : ℕ} {s : List Char} (hd : (D.toNFD s).length < fuel)
    (hc : (D.toNFC s).length < fuel) : canonicalRecompose D fuel s = some (D.toNFC s) := by
  rw [canonicalRecompose, Decompositions.get_eq hd]
  exact Recompositions.get_eq (UnicodeData.ordered_toNFD s) hc

lemma convertUTF32ToUTF8String_eq_self {s : List Char} (h : s.head? ≠ some BYTE_ORDER_MARK) :
    convertUTF32ToUTF8String s = s := by
  cases s with
  | nil => rfl
  | cons c cs => exact if_neg fun heq => h (by rw [List.head?_cons, heq])

/-- With enough steps the decomposition is recomposed, without a byte order mark in front. -/
lemma exists_recomposeDecomposed (D : UnicodeData) (s : List Char) :
    ∃ N, ∀ fuel, N ≤ fuel → recomposeDecomposed D fuel s =
      some (D.toNFC (convertUTF32ToUTF8String (D.toNFD s))) := by
  generalize ht : convertUTF32ToUTF8String (D.toNFD s) = t
  refine ⟨(D.toNFD s).length + (D.toNFD t).length + (D.toNFC t).length + 1, fun fuel hfuel => ?_⟩
  have hs : (D.toNFD s).length < fuel := by omega
  have htd : (D.toNFD t).length < fuel := by omega
  have htc : (D.toNFC t).length < fuel := by omega
  have hdecompose : canonicalDecompose D fuel s = some t := by
    rw [canonicalDecompose, Decompositions.get_eq hs, ← ht]
    rfl
  rw [recomposeDecomposed, hdecompose]
  exact canonicalRecompose_eq htd htc

/-! ## The byte order mark -/

lemma isHangulSyllable_byteOrderMark : isHangulSyllable BYTE_ORDER_MARK = false := by decide

lemma decomposition_byteOrderMark : D.decomposition BYTE_ORDER_MARK = [BYTE_ORDER_MARK] := by
  rw [UnicodeData.decomposition, fullDecomposition, isHangulSyllable_byteOrderMark,
    if_neg Bool.false_ne_true, D.byteOrderMark]
  rfl

lemma not_isJamo_byteOrderMark : ¬ IsJamo BYTE_ORDER_MARK := by
  rw [IsJamo]
  decide

/-- The decomposition of another character starts with another character. -/
lemma head_decomposition {c : Char} (hc : c ≠ BYTE_ORDER_MARK) :
    ∃ d ds, D.decomposition c = d :: ds ∧ d ≠ BYTE_ORDER_MARK := by
  rw [UnicodeData.decomposition, fullDecomposition]
  split_ifs with hsyllable
  · refine ⟨_, _, rfl, fun heq => not_isJamo_byteOrderMark (heq ▸ ?_)⟩
    have hbounds : SBASE ≤ c.toNat ∧ c.toNat < SBASE + SCOUNT := of_decide_eq_true hsyllable
    simp only [SBASE, SCOUNT, LCOUNT, NCOUNT, VCOUNT, TCOUNT] at hbounds
    rw [IsJamo, UnicodeData.toNat_ofNat]
    all_goals
      simp only [LBASE, SBASE, TLAST, TBASE, NCOUNT, VCOUNT, TCOUNT]
      omega
  · cases hd : D.decomposed c with
    | none => exact ⟨c, [], rfl, hc⟩
    | some ds =>
      obtain ⟨hne, hnot⟩ := D.nonempty c ds hd
      obtain ⟨d, ds, rfl⟩ := List.exists_cons_of_ne_nil hne
      exact ⟨d, ds, rfl, fun heq => hnot (heq ▸ List.mem_cons_self)⟩

/-- The front of a sorted run is a mark. -/
lemma head_stableSort {run : List Char} (hrun : ∀ x ∈ run, D.ccc x ≠ 0) (hne : run ≠ [])
    (rest : List Char) : (stableSort D.ccc run ++ rest).head? ≠ some BYTE_ORDER_MARK := by
  intro heq
  have hne' : stableSort D.ccc run ≠ [] := by
    obtain ⟨x, hx⟩ := List.exists_mem_of_ne_nil _ hne
    exact List.ne_nil_of_mem ((mem_stableSort _).mpr hx)
  obtain ⟨y, ys, hys⟩ := List.exists_cons_of_ne_nil hne'
  have hy : y ∈ run := (mem_stableSort D.ccc).mp (hys ▸ List.mem_cons_self)
  rw [hys, List.cons_append, List.head?_cons] at heq
  exact hrun y hy (Option.some.inj heq ▸ D.byteOrderMark_starter)

/-- Ordering does not bring a byte order mark to the front. -/
lemma head_canonicalOrderFrom {run cs : List Char} (hrun : ∀ x ∈ run, D.ccc x ≠ 0)
    (hcs : run = [] → cs.head? ≠ some BYTE_ORDER_MARK) :
    (D.canonicalOrderFrom run cs).head? ≠ some BYTE_ORDER_MARK := by
  induction cs generalizing run with
  | nil =>
    rw [UnicodeData.canonicalOrderFrom]
    by_cases hempty : run = []
    · rw [hempty]
      exact (Option.some_ne_none _).symm
    · have h := head_stableSort hrun hempty []
      rwa [List.append_nil] at h
  | cons c cs ih =>
    rw [UnicodeData.canonicalOrderFrom]
    split_ifs with hc
    · by_cases hempty : run = []
      · have h := hcs hempty
        rw [hempty]
        exact h
      · exact head_stableSort hrun hempty _
    · have hrun' : ∀ x ∈ run ++ [c], D.ccc x ≠ 0 := by
        intro x hx
        rcases List.mem_append.mp hx with hold | hnew
        · exact hrun x hold
        · rwa [List.mem_singleton.mp hnew]
      have hne : run ++ [c] ≠ [] := List.append_ne_nil_of_right_ne_nil _ (List.cons_ne_nil _ _)
      exact ih hrun' fun h => absurd h hne

lemma toNFD_byteOrderMark (t : List Char) :
    D.toNFD (BYTE_ORDER_MARK :: t) = BYTE_ORDER_MARK :: D.toNFD t := by
  rw [UnicodeData.toNFD, List.flatMap_cons, decomposition_byteOrderMark,
    UnicodeData.canonicalOrder, List.singleton_append, UnicodeData.canonicalOrderFrom,
    if_pos D.byteOrderMark_starter]
  rfl

/-- The decomposition starts with a byte order mark only if the string does. -/
lemma head_toNFD (s : List Char) :
    (D.toNFD s).head? = some BYTE_ORDER_MARK ↔ s.head? = some BYTE_ORDER_MARK := by
  cases s with
  | nil => exact Iff.rfl
  | cons c t =>
    by_cases hc : c = BYTE_ORDER_MARK
    · rw [hc, toNFD_byteOrderMark]
      exact Iff.rfl
    · obtain ⟨d, ds, hd, hne⟩ := head_decomposition (D := D) hc
      refine iff_of_false ?_ fun h => hc (Option.some.inj h)
      refine head_canonicalOrderFrom (fun _ h => absurd h List.not_mem_nil) fun _ => ?_
      rw [List.flatMap_cons, hd]
      exact fun h => hne (Option.some.inj h)

lemma toNFD_toNFD (s : List Char) : D.toNFD (D.toNFD s) = D.toNFD s :=
  UnicodeData.toNFD_eq_self (UnicodeData.ordered_toNFD s)
    fun _ => UnicodeData.decomposition_of_mem_toNFD

lemma toNFC_toNFD (s : List Char) : D.toNFC (D.toNFD s) = D.toNFC s := by
  rw [UnicodeData.toNFC, toNFD_toNFD]
  rfl

/-- Strings with one composed form have one decomposed form. -/
lemma toNFD_congr {s t : List Char} (h : D.toNFC s = D.toNFC t) : D.toNFD s = D.toNFD t := by
  rw [← UnicodeData.toNFD_toNFC s, h, UnicodeData.toNFD_toNFC]

/-- Without a byte order mark in front, recomposing gives the composed canonical form. -/
lemma recomposeDecomposed_of_head {s : List Char} (h : s.head? ≠ some BYTE_ORDER_MARK) :
    ∃ N, ∀ fuel, N ≤ fuel → recomposeDecomposed D fuel s = some (D.toNFC s) := by
  obtain ⟨N, hN⟩ := exists_recomposeDecomposed D s
  refine ⟨N, fun fuel hfuel => ?_⟩
  rw [hN fuel hfuel, convertUTF32ToUTF8String_eq_self (mt (head_toNFD s).mp h), toNFC_toNFD]

/-- With a byte order mark in front, the rest of the string is composed. -/
lemma recomposeDecomposed_byteOrderMark (D : UnicodeData) (t : List Char) :
    ∃ N, ∀ fuel, N ≤ fuel →
      recomposeDecomposed D fuel (BYTE_ORDER_MARK :: t) = some (D.toNFC t) := by
  obtain ⟨N, hN⟩ := exists_recomposeDecomposed D (BYTE_ORDER_MARK :: t)
  refine ⟨N, fun fuel hfuel => ?_⟩
  rw [hN fuel hfuel, toNFD_byteOrderMark, convertUTF32ToUTF8String, if_pos rfl, toNFC_toNFD]

lemma toNFC_byteOrderMark_ne (t : List Char) : D.toNFC t ≠ D.toNFC (BYTE_ORDER_MARK :: t) := by
  intro heq
  have hlength := congrArg List.length (toNFD_congr heq)
  rw [toNFD_byteOrderMark, List.length_cons] at hlength
  exact absurd hlength (Nat.ne_of_lt (Nat.lt_succ_self _))

/-- Recomposing the decomposition gives the composed canonical form, is idempotent and reads every
character of the decomposition once in canonical order, exactly for the strings that do not start
with a byte order mark. -/
theorem recomposeDecomposed_iff (D : UnicodeData) (s : List Char) :
    (∃ N, ∀ fuel, N ≤ fuel →
      recomposeDecomposed D fuel s = some (D.toNFC s) ∧
        (recomposeDecomposed D fuel s).bind (recomposeDecomposed D fuel) =
          recomposeDecomposed D fuel s ∧
        Decompositions.get D fuel s = some (D.toNFD s)) ↔
      s.head? ≠ some BYTE_ORDER_MARK := by
  constructor
  · rintro ⟨N, hN⟩ hhead
    obtain ⟨t, rfl⟩ := List.head?_eq_some_iff.mp hhead
    obtain ⟨M, hM⟩ := recomposeDecomposed_byteOrderMark D t
    obtain ⟨hcomposed, -, -⟩ := hN (max N M) (le_max_left _ _)
    rw [hM _ (le_max_right _ _)] at hcomposed
    exact toNFC_byteOrderMark_ne t (Option.some.inj hcomposed)
  · intro hhead
    have hhead' : (D.toNFC s).head? ≠ some BYTE_ORDER_MARK := by
      rw [ne_eq, ← head_toNFD, UnicodeData.toNFD_toNFC, head_toNFD]
      exact hhead
    obtain ⟨N, hN⟩ := recomposeDecomposed_of_head (D := D) hhead
    obtain ⟨M, hM⟩ := recomposeDecomposed_of_head (D := D) hhead'
    refine ⟨max (max N M) ((D.toNFD s).length + 1), fun fuel hfuel => ?_⟩
    have hfirst := hN fuel (((le_max_left _ _).trans (le_max_left _ _)).trans hfuel)
    have hsecond := hM fuel (((le_max_right _ _).trans (le_max_left _ _)).trans hfuel)
    refine ⟨hfirst, ?_, Decompositions.get_eq ((le_max_right _ _).trans hfuel)⟩
    rw [hfirst, Option.bind_some, hsecond, UnicodeData.toNFC_toNFC]

/-- With enough steps every string is composed. -/
lemma exists_canonicalRecompose (D : UnicodeData) (s : List Char) :
    ∃ N, ∀ fuel, N ≤ fuel → canonicalRecompose D fuel s = some (D.toNFC s) := by
  refine ⟨(D.toNFD s).length + (D.toNFC s).length + 1, fun fuel hfuel => ?_⟩
  exact canonicalRecompose_eq (by omega) (by omega)

/-- Recomposing decides canonical equivalence: two strings are given the same form if and only if
they are canonically equivalent. -/
theorem canonicalRecompose_eq_iff (D : UnicodeData) (s t : List Char) :
    (∃ N, ∀ fuel, N ≤ fuel → canonicalRecompose D fuel s = canonicalRecompose D fuel t) ↔
      D.CanonicallyEquivalent s t := by
  obtain ⟨N₁, hs⟩ := exists_canonicalRecompose D s
  obtain ⟨N₂, ht⟩ := exists_canonicalRecompose D t
  rw [UnicodeData.canonicallyEquivalent_iff]
  constructor
  · rintro ⟨N, hN⟩
    have hfuel₁ : N₁ ≤ N + N₁ + N₂ := by omega
    have hfuel₂ : N₂ ≤ N + N₁ + N₂ := by omega
    have hsame := hN (N + N₁ + N₂) (by omega)
    rw [hs _ hfuel₁, ht _ hfuel₂] at hsame
    exact toNFD_congr (Option.some.inj hsame)
  · intro h
    refine ⟨N₁ + N₂, fun fuel hfuel => ?_⟩
    rw [hs fuel (by omega), ht fuel (by omega), UnicodeData.toNFC, UnicodeData.toNFC, h]

/-! ## A string with a byte order mark -/

/-- The tables for e, its acute accent and the dot below. -/
def accents : UnicodeData where
  ccc := fun c => if c.toNat = 0x0301 then 230 else if c.toNat = 0x0323 then 220 else 0
  decomposed := fun c => if c.toNat = 0x00E9 then some ['e', Char.ofNat 0x0301] else none
  composition := fun a b =>
    if a = 'e' ∧ b = Char.ofNat 0x0301 then some (Char.ofNat 0x00E9) else none
  ascii := by
    intro c hc
    exact if_neg (Nat.ne_of_lt (hc.trans_lt (by decide)))
  jamo := by
    rintro c ⟨hc, -⟩
    exact if_neg (Nat.ne_of_gt (lt_of_lt_of_le (by decide) hc))
  syllable_starter := by
    intro c hc
    have hbounds : SBASE ≤ c.toNat ∧ c.toNat < SBASE + SCOUNT := of_decide_eq_true hc
    rw [if_neg (Nat.ne_of_gt (lt_of_lt_of_le (by decide) hbounds.1)),
      if_neg (Nat.ne_of_gt (lt_of_lt_of_le (by decide) hbounds.1))]
  byteOrderMark_starter := by decide
  byteOrderMark := by decide
  nonempty := by
    intro c ds h
    obtain ⟨-, ⟨⟩⟩ := Option.ite_none_right_eq_some.mp h
    decide
  full := by
    intro c ds h
    obtain ⟨-, ⟨⟩⟩ := Option.ite_none_right_eq_some.mp h
    intro d hd
    rw [List.mem_pair] at hd
    rcases hd with rfl | rfl <;> decide
  composite_starter := by
    intro a b p h
    obtain ⟨-, ⟨⟩⟩ := Option.ite_none_right_eq_some.mp h
    decide
  composite_full := by
    intro a b p h
    obtain ⟨⟨rfl, rfl⟩, ⟨⟩⟩ := Option.ite_none_right_eq_some.mp h
    decide

/-- The byte order mark before a letter is lost. -/
theorem not_recomposeDecomposed_byteOrderMark :
    ¬ ∀ (D : UnicodeData) (s : List Char), ∃ N, ∀ fuel, N ≤ fuel →
      recomposeDecomposed D fuel s = some (D.toNFC s) := by
  intro h
  obtain ⟨N, hN⟩ := h accents [BYTE_ORDER_MARK, 'e']
  obtain ⟨M, hM⟩ := recomposeDecomposed_byteOrderMark accents ['e']
  have hcomposed := hN (max N M) (le_max_left _ _)
  rw [hM _ (le_max_right _ _)] at hcomposed
  exact absurd (Option.some.inj hcomposed) (by decide)

end Cangjie.Unicode
