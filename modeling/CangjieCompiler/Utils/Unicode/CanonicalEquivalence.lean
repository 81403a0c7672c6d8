import CangjieCompiler.Utils.Unicode.NormalForm

/-!
# Canonical equivalence

Composing a decomposed string gives a string with the same decomposition.  A character that is
composed with a starter moves to it over characters of smaller classes, which makes no difference to
the canonical order.
-/

namespace Cangjie.Unicode

namespace UnicodeData

variable (D : UnicodeData)

/-! ## Decompositions and composites -/

omit D in
lemma mem_decomposeHangul {c d : Char} (h : d ∈ decomposeHangul c) :
    d = Char.ofNat (LBASE + (c.toNat - SBASE) / NCOUNT) ∨
      d = Char.ofNat (VBASE + (c.toNat - SBASE) % NCOUNT / TCOUNT) ∨
      d = Char.ofNat (TBASE + (c.toNat - SBASE) % TCOUNT) := by
  rw [decomposeHangul] at h
  rcases List.mem_append.mp h with hfirst | hlast
  · exact (List.mem_cons.mp hfirst).imp_right fun h' => Or.inl (List.mem_singleton.mp h')
  · split_ifs at hlast
    · exact Or.inr (Or.inr (List.mem_singleton.mp hlast))
    · exact absurd hlast List.not_mem_nil

/-- The characters of a full decomposition are not decomposed any further. -/
lemma decomposition_of_mem {c d : Char} (h : d ∈ D.decomposition c) : D.decomposition d = [d] := by
  rw [decomposition, fullDecomposition] at h
  split_ifs at h with hsyllable
  · have hbounds : SBASE ≤ c.toNat ∧ c.toNat < SBASE + SCOUNT := of_decide_eq_true hsyllable
    refine D.decomposition_of_jamo ?_
    simp only [SBASE, SCOUNT, LCOUNT, NCOUNT, VCOUNT, TCOUNT] at hbounds
    rcases mem_decomposeHangul h with heq | heq | heq
    all_goals
      rw [IsJamo, heq, toNat_ofNat]
      all_goals
        simp only [LBASE, VBASE, TBASE, TLAST, SBASE, NCOUNT, VCOUNT, TCOUNT]
        omega
  · cases hdecomposed : D.decomposed c with
    | none =>
      rw [hdecomposed] at h
      obtain rfl := List.mem_singleton.mp h
      rw [decomposition, fullDecomposition, if_neg hsyllable, hdecomposed]
      rfl
    | some ds =>
      rw [hdecomposed] at h
      exact D.full c ds hdecomposed d h

/-- A composite is a starter, and is decomposed into what its parts are. -/
lemma composite_spec {a b p : Char} (h : D.composite a b = some p) :
    D.decomposition p = D.decomposition a ++ D.decomposition b ∧ D.ccc p = 0 := by
  rw [composite, primaryComposite] at h
  cases hhangul : composeHangul a b with
  | none =>
    rw [hhangul] at h
    exact ⟨D.composite_full a b p h, D.composite_starter a b p h⟩
  | some q =>
    rw [hhangul] at h
    obtain rfl := Option.some.inj h
    obtain ⟨hdecomposition, hsyllable⟩ := D.composeHangul_spec hhangul
    exact ⟨hdecomposition, D.syllable_starter q hsyllable⟩

/-! ## Canonical order -/

/-- Every character of a string, after one of class `m`, is a starter or of no smaller class than
the one before it. -/
def Ordered (m : ℕ) : List Char → Prop
  | [] => True
  | c :: cs => (D.ccc c = 0 ∨ m ≤ D.ccc c) ∧ Ordered (D.ccc c) cs

variable {D}

lemma Ordered.mono {m m' : ℕ} (hm : m' ≤ m) {cs : List Char} (h : D.Ordered m cs) :
    D.Ordered m' cs := by
  cases cs with
  | nil => exact trivial
  | cons c cs => exact ⟨h.1.imp_right hm.trans, h.2⟩

/-- An ordered run that is followed by an ordered string from a starter on. -/
lemma ordered_append {m : ℕ} {run cs : List Char}
    (hrun : run.Pairwise fun a b => D.ccc a ≤ D.ccc b) (hm : ∀ a ∈ run, m ≤ D.ccc a)
    (hcs : ∀ m', D.Ordered m' cs) : D.Ordered m (run ++ cs) := by
  induction run generalizing m with
  | nil => exact hcs m
  | cons a run ih =>
    obtain ⟨ha, hrun'⟩ := List.pairwise_cons.mp hrun
    exact ⟨Or.inr (hm a List.mem_cons_self), ih hrun' ha⟩

lemma ordered_canonicalOrderFrom (run cs : List Char) :
    D.Ordered 0 (D.canonicalOrderFrom run cs) := by
  induction cs generalizing run with
  | nil =>
    have h : D.Ordered 0 (stableSort D.ccc run ++ []) :=
      ordered_append (pairwise_stableSort D.ccc run) (fun a _ => Nat.zero_le _) fun _ => trivial
    rw [List.append_nil] at h
    exact h
  | cons c cs ih =>
    rw [canonicalOrderFrom]
    split_ifs with hc
    · refine ordered_append (pairwise_stableSort D.ccc run) (fun a _ => Nat.zero_le _) fun m' => ?_
      refine ⟨Or.inl hc, ?_⟩
      rw [hc]
      exact ih []
    · exact ih _

/-- A string in canonical order is left as it is. -/
lemma canonicalOrderFrom_eq {m : ℕ} {run cs : List Char}
    (hrun : run.Pairwise fun a b => D.ccc a ≤ D.ccc b) (hm : ∀ a ∈ run, D.ccc a ≤ m)
    (hcs : D.Ordered m cs) : D.canonicalOrderFrom run cs = run ++ cs := by
  induction cs generalizing run m with
  | nil => rw [canonicalOrderFrom, stableSort_eq_self D.ccc hrun, List.append_nil]
  | cons c cs ih =>
    obtain ⟨hc, hcs'⟩ := hcs
    rw [canonicalOrderFrom]
    split_ifs with hzero
    · rw [stableSort_eq_self D.ccc hrun]
      rw [hzero] at hcs'
      rw [ih List.Pairwise.nil (fun _ h => absurd h List.not_mem_nil) hcs']
      rfl
    · have hle : ∀ a ∈ run, D.ccc a ≤ D.ccc c :=
        fun a ha => (hm a ha).trans (hc.resolve_left hzero)
      have hrun' : (run ++ [c]).Pairwise fun a b => D.ccc a ≤ D.ccc b := by
        refine List.pairwise_append.mpr ⟨hrun, List.pairwise_singleton _ _, fun a ha b hb => ?_⟩
        rw [List.mem_singleton.mp hb]
        exact hle a ha
      have hm' : ∀ a ∈ run ++ [c], D.ccc a ≤ D.ccc c := by
        intro a ha
        rcases List.mem_append.mp ha with hold | hlast
        · exact hle a hold
        · rw [List.mem_singleton.mp hlast]
      rw [ih hrun' hm' hcs', List.append_assoc, List.singleton_append]

lemma canonicalOrder_eq_self {cs : List Char} (h : D.Ordered 0 cs) : D.canonicalOrder cs = cs :=
  canonicalOrderFrom_eq List.Pairwise.nil (fun _ h => absurd h List.not_mem_nil) h

lemma mem_canonicalOrderFrom {run cs : List Char} {c : Char} :
    c ∈ D.canonicalOrderFrom run cs ↔ c ∈ run ∨ c ∈ cs := by
  induction cs generalizing run with
  | nil =>
    rw [canonicalOrderFrom, mem_stableSort]
    exact (or_iff_left List.not_mem_nil).symm
  | cons d cs ih =>
    rw [canonicalOrderFrom]
    split_ifs
    · rw [List.mem_append, mem_stableSort, List.mem_cons, ih, List.mem_cons]
      exact or_congr Iff.rfl (or_congr Iff.rfl (or_iff_right List.not_mem_nil))
    · rw [ih, List.mem_append, List.mem_singleton, List.mem_cons, or_assoc]

/-- Neighbours of different nonzero classes may change places. -/
lemma canonicalOrderFrom_swap {a c : Char} (ha : D.ccc a ≠ 0) (hc : D.ccc c ≠ 0)
    (hne : D.ccc a ≠ D.ccc c) (run u v : List Char) :
    D.canonicalOrderFrom run (u ++ a :: c :: v) = D.canonicalOrderFrom run (u ++ c :: a :: v) := by
  have hrun : ∀ p q v, D.canonicalOrderFrom (p ++ a :: c :: q) v =
      D.canonicalOrderFrom (p ++ c :: a :: q) v := by
    intro p q v
    induction v generalizing q with
    | nil => exact stableSort_swap hne p q
    | cons d v ih =>
      rw [canonicalOrderFrom, canonicalOrderFrom, stableSort_swap hne p q]
      split_ifs
      · rfl
      · have hrest := ih (q ++ [d])
        rw [← List.cons_append, ← List.cons_append, ← List.cons_append, ← List.cons_append,
          ← List.append_assoc, ← List.append_assoc] at hrest
        exact hrest
  induction u generalizing run with
  | nil =>
    have hpush : ∀ {x y}, D.ccc x ≠ 0 → D.ccc y ≠ 0 →
        D.canonicalOrderFrom run (x :: y :: v) = D.canonicalOrderFrom (run ++ [x, y]) v := by
      intro x y hx hy
      rw [canonicalOrderFrom, if_neg hx, canonicalOrderFrom, if_neg hy, List.append_assoc]
      rfl
    rw [List.nil_append, List.nil_append, hpush ha hc, hpush hc ha]
    exact hrun run [] v
  | cons d u ih =>
    rw [List.cons_append, List.cons_append, canonicalOrderFrom, canonicalOrderFrom]
    split_ifs
    · rw [ih]
    · exact ih _

/-- A character of nonzero class may move over characters of smaller nonzero classes. -/
lemma canonicalOrder_move {c : Char} {b : List Char}
    (h : ∀ x ∈ b, D.ccc x ≠ 0 ∧ D.ccc x < D.ccc c) (u v : List Char) :
    D.canonicalOrder (u ++ b ++ c :: v) = D.canonicalOrder (u ++ c :: (b ++ v)) := by
  induction b generalizing u with
  | nil => rw [List.append_nil, List.nil_append]
  | cons x b ih =>
    obtain ⟨hx, hlt⟩ := h x List.mem_cons_self
    have hc : D.ccc c ≠ 0 := (Nat.zero_lt_of_lt hlt).ne'
    have hrest := ih (fun y hy => h y (List.mem_cons_of_mem _ hy)) (u ++ [x])
    rw [List.append_assoc u [x], List.singleton_append, List.append_assoc u [x],
      List.singleton_append] at hrest
    rw [hrest, List.cons_append]
    exact canonicalOrderFrom_swap hx hc hlt.ne [] u (b ++ v)

/-! ## The composition algorithm from a starter on -/

variable (D)

/-- The composition of what follows a starter and the characters that were not composed with it. -/
def composeFrom (starter : Char) (between : List Char) : List Char → List Char
  | [] => starter :: between
  | c :: cs =>
    match if D.Blocked between c then none else D.composite starter c with
    | some p => composeFrom p between cs
    | none =>
      if D.ccc c = 0 then starter :: (between ++ composeFrom c [] cs)
      else composeFrom starter (between ++ [c]) cs

/-- The composition of a string: what is before the first starter is left as it is. -/
def composeStart : List Char → List Char
  | [] => []
  | c :: cs => if D.ccc c = 0 then D.composeFrom c [] cs else c :: composeStart cs

variable {D}

section LastStarter

variable {starter : Char} {between : List Char}

lemma split_lastStarter (before : List Char) (hs : D.ccc starter = 0)
    (hb : ∀ x ∈ between, D.ccc x ≠ 0) :
    (before ++ starter :: between).rtakeWhile (fun b => D.ccc b ≠ 0) = between ∧
      (before ++ starter :: between).rdropWhile (fun b => D.ccc b ≠ 0) = before ++ [starter] := by
  induction between using List.reverseRecOn with
  | nil =>
    have hnot : ¬ (decide (D.ccc starter ≠ 0) = true) := by simp [hs]
    exact ⟨List.rtakeWhile_concat_neg _ _ _ hnot, List.rdropWhile_concat_neg _ _ _ hnot⟩
  | append_singleton between x ih =>
    have hx : decide (D.ccc x ≠ 0) = true :=
      decide_eq_true (hb x (List.mem_append_right _ (List.mem_singleton.mpr rfl)))
    obtain ⟨htake, hdrop⟩ := ih fun y hy => hb y (List.mem_append_left _ hy)
    have hassoc : before ++ starter :: (between ++ [x]) = (before ++ starter :: between) ++ [x] := by
      rw [List.append_assoc, List.cons_append]
    rw [hassoc]
    exact ⟨(List.rtakeWhile_concat_pos _ _ x hx).trans (congrArg (· ++ [x]) htake),
      (List.rdropWhile_concat_pos _ _ x hx).trans hdrop⟩

lemma composeStep_starter (before : List Char) (hs : D.ccc starter = 0)
    (hb : ∀ x ∈ between, D.ccc x ≠ 0) (c : Char) :
    D.composeStep (before ++ starter :: between) c =
      match if D.Blocked between c then none else D.composite starter c with
      | some p => before ++ p :: between
      | none => before ++ starter :: between ++ [c] := by
  obtain ⟨htake, hdrop⟩ := split_lastStarter before hs hb
  rw [composeStep, htake, hdrop, List.getLast?_concat, List.dropLast_concat]
  dsimp only
  split_ifs
  · rfl
  · cases D.composite starter c <;> rfl

/-- The algorithm goes on from the last starter. -/
lemma foldl_composeStep (before : List Char) (hs : D.ccc starter = 0)
    (hb : ∀ x ∈ between, D.ccc x ≠ 0) (cs : List Char) :
    cs.foldl D.composeStep (before ++ starter :: between) =
      before ++ D.composeFrom starter between cs := by
  induction cs generalizing before starter between with
  | nil => rfl
  | cons c cs ih =>
    rw [List.foldl_cons, composeStep_starter before hs hb, composeFrom]
    cases hcomposed : if D.Blocked between c then none else D.composite starter c with
    | some p =>
      have hp : D.ccc p = 0 := by
        split_ifs at hcomposed
        exact (D.composite_spec hcomposed).2
      exact ih before hp hb
    | none =>
      dsimp only
      split_ifs with hc
      · rw [ih (before ++ starter :: between) hc (fun _ h => absurd h List.not_mem_nil),
          List.append_assoc, List.cons_append]
      · rw [List.append_assoc, List.cons_append]
        refine ih before hs fun x hx => ?_
        rcases List.mem_append.mp hx with hold | hlast
        · exact hb x hold
        · rw [List.mem_singleton.mp hlast]
          exact hc

lemma foldl_composeStep_start {before : List Char} (hb : ∀ x ∈ before, D.ccc x ≠ 0)
    (cs : List Char) : cs.foldl D.composeStep before = before ++ D.composeStart cs := by
  induction cs generalizing before with
  | nil => exact (List.append_nil _).symm
  | cons c cs ih =>
    have hdrop : before.rdropWhile (fun b => D.ccc b ≠ 0) = [] :=
      List.rdropWhile_eq_nil_iff.mpr fun x hx => decide_eq_true (hb x hx)
    have hstep : D.composeStep before c = before ++ [c] := by
      rw [composeStep, hdrop]
      rfl
    rw [List.foldl_cons, hstep, composeStart]
    split_ifs with hc
    · exact foldl_composeStep before hc (fun _ h => absurd h List.not_mem_nil) cs
    · refine (ih fun x hx => ?_).trans (by rw [List.append_assoc, List.singleton_append])
      rcases List.mem_append.mp hx with hold | hlast
      · exact hb x hold
      · rw [List.mem_singleton.mp hlast]
        exact hc

lemma canonicalCompose_eq (cs : List Char) : D.canonicalCompose cs = D.composeStart cs :=
  foldl_composeStep_start (fun _ h => absurd h List.not_mem_nil) cs

end LastStarter

/-! ## Decomposing what was composed -/

lemma flatMap_fixed {cs : List Char} (h : ∀ c ∈ cs, D.decomposition c = [c]) :
    cs.flatMap D.decomposition = cs := by
  induction cs with
  | nil => rfl
  | cons c cs ih =>
    rw [List.flatMap_cons, h c List.mem_cons_self, ih fun d hd => h d (List.mem_cons_of_mem _ hd)]
    rfl

/-- What is composed from a starter on is equivalent to what there was. -/
lemma canonicalOrder_composeFrom {starter : Char} {between cs : List Char}
    (hb : ∀ x ∈ between, D.ccc x ≠ 0) (hfixed : ∀ x ∈ between ++ cs, D.decomposition x = [x])
    (u : List Char) :
    D.canonicalOrder (u ++ (D.composeFrom starter between cs).flatMap D.decomposition) =
      D.canonicalOrder (u ++ D.decomposition starter ++ between ++ cs) := by
  induction cs generalizing starter between u with
  | nil =>
    rw [composeFrom, List.flatMap_cons, flatMap_fixed fun x hx => hfixed x ?_, List.append_nil,
      List.append_assoc]
    exact List.mem_append_left _ hx
  | cons c cs ih =>
    have hc : D.decomposition c = [c] :=
      hfixed c (List.mem_append_right _ List.mem_cons_self)
    have hcs : ∀ x ∈ cs, D.decomposition x = [x] :=
      fun x hx => hfixed x (List.mem_append_right _ (List.mem_cons_of_mem _ hx))
    have hbetween : ∀ x ∈ between, D.decomposition x = [x] :=
      fun x hx => hfixed x (List.mem_append_left _ hx)
    rw [composeFrom]
    cases hcomposed : if D.Blocked between c then none else D.composite starter c with
    | some p =>
      dsimp only
      split_ifs at hcomposed with hblocked
      have hmove : ∀ x ∈ between, D.ccc x ≠ 0 ∧ D.ccc x < D.ccc c := by
        intro x hx
        refine ⟨hb x hx, not_le.mp fun hle => hblocked ⟨x, hx, Or.inr hle⟩⟩
      have hrest : ∀ x ∈ between ++ cs, D.decomposition x = [x] := by
        intro x hx
        exact (List.mem_append.mp hx).elim (hbetween x) (hcs x)
      rw [ih hb hrest, (D.composite_spec hcomposed).1, hc,
        canonicalOrder_move hmove (u ++ D.decomposition starter) cs]
      simp only [List.append_assoc, List.cons_append, List.nil_append]
    | none =>
      dsimp only
      split_ifs with hzero
      · rw [List.flatMap_cons, List.flatMap_append, flatMap_fixed hbetween]
        have hnext := @ih c [] (fun _ h => absurd h List.not_mem_nil) hcs
          (u ++ D.decomposition starter ++ between)
        rw [hc, List.append_nil] at hnext
        simp only [List.append_assoc, List.singleton_append] at hnext ⊢
        exact hnext
      · have hb' : ∀ x ∈ between ++ [c], D.ccc x ≠ 0 := by
          intro x hx
          rcases List.mem_append.mp hx with hold | hlast
          · exact hb x hold
          · rw [List.mem_singleton.mp hlast]
            exact hzero
        have hrest : ∀ x ∈ between ++ [c] ++ cs, D.decomposition x = [x] := by
          rw [List.append_assoc]
          exact hfixed
        rw [ih hb' hrest]
        simp only [List.append_assoc, List.singleton_append]

lemma canonicalOrder_composeStart {cs : List Char} (hfixed : ∀ x ∈ cs, D.decomposition x = [x])
    (u : List Char) :
    D.canonicalOrder (u ++ (D.composeStart cs).flatMap D.decomposition) =
      D.canonicalOrder (u ++ cs) := by
  induction cs generalizing u with
  | nil => rfl
  | cons c cs ih =>
    have hc : D.decomposition c = [c] := hfixed c List.mem_cons_self
    have hcs : ∀ x ∈ cs, D.decomposition x = [x] := fun x hx => hfixed x (List.mem_cons_of_mem _ hx)
    rw [composeStart]
    split_ifs
    · rw [canonicalOrder_composeFrom (fun _ h => absurd h List.not_mem_nil) hcs, hc]
      simp only [List.append_nil, List.append_assoc, List.singleton_append]
    · rw [List.flatMap_cons, hc, ← List.append_assoc, ih hcs, List.append_assoc,
        List.singleton_append]

/-- The decomposition of a string is ordered, and decomposed. -/
lemma ordered_toNFD (s : List Char) : D.Ordered 0 (D.toNFD s) := ordered_canonicalOrderFrom _ _

lemma decomposition_of_mem_toNFD {s : List Char} {c : Char} (h : c ∈ D.toNFD s) :
    D.decomposition c = [c] := by
  have hmem := (mem_canonicalOrderFrom.mp h).resolve_left List.not_mem_nil
  obtain ⟨d, -, hd⟩ := List.mem_flatMap.mp hmem
  exact D.decomposition_of_mem hd

/-- A string that is ordered and decomposed is its own decomposition. -/
lemma toNFD_eq_self {cs : List Char} (hordered : D.Ordered 0 cs)
    (hfixed : ∀ c ∈ cs, D.decomposition c = [c]) : D.toNFD cs = cs := by
  rw [toNFD, flatMap_fixed hfixed, canonicalOrder_eq_self hordered]

/-- Decomposing the composition of a decomposed string gives the string back. -/
theorem toNFD_canonicalCompose {cs : List Char} (hordered : D.Ordered 0 cs)
    (hfixed : ∀ c ∈ cs, D.decomposition c = [c]) : D.toNFD (D.canonicalCompose cs) = cs := by
  rw [canonicalCompose_eq, toNFD]
  have h := canonicalOrder_composeStart hfixed []
  rw [List.nil_append, List.nil_append] at h
  rw [h, canonicalOrder_eq_self hordered]

theorem toNFD_toNFC (s : List Char) : D.toNFD (D.toNFC s) = D.toNFD s :=
  toNFD_canonicalCompose (ordered_toNFD s) fun _ => decomposition_of_mem_toNFD

/-- The composed canonical form is idempotent. -/
theorem toNFC_toNFC (s : List Char) : D.toNFC (D.toNFC s) = D.toNFC s := by
  rw [toNFC, toNFD_toNFC]
  rfl

/-! ## Equivalent strings -/

variable (D)

/-- A mark that is not decomposed. -/
def IsMark (c : Char) : Prop := D.ccc c ≠ 0 ∧ D.decomposition c = [c]

/-- The elementary equivalences: a character is decomposed, and neighbouring marks of different
classes are exchanged. -/
inductive EquivalenceStep : List Char → List Char → Prop
  | decompose (u v : List Char) (c : Char) :
      EquivalenceStep (u ++ [c] ++ v) (u ++ D.decomposition c ++ v)
  | exchange (u v : List Char) {a b : Char} (ha : D.IsMark a) (hb : D.IsMark b)
      (hne : D.ccc a ≠ D.ccc b) : EquivalenceStep (u ++ [a, b] ++ v) (u ++ [b, a] ++ v)

/-- Canonical equivalence is generated by the elementary equivalences. -/
def CanonicallyEquivalent : List Char → List Char → Prop := Relation.EqvGen D.EquivalenceStep

variable {D}

lemma EquivalenceStep.toNFD_eq {s t : List Char} (h : D.EquivalenceStep s t) :
    D.toNFD s = D.toNFD t := by
  cases h with
  | decompose u v c =>
    have hfixed : (D.decomposition c).flatMap D.decomposition = D.decomposition c :=
      flatMap_fixed fun d hd => D.decomposition_of_mem hd
    rw [toNFD, toNFD, List.flatMap_append, List.flatMap_append, List.flatMap_append,
      List.flatMap_append, hfixed, List.flatMap_singleton]
  | exchange u v ha hb hne =>
    have hswap := canonicalOrderFrom_swap ha.1 hb.1 hne [] (u.flatMap D.decomposition)
      (v.flatMap D.decomposition)
    rw [toNFD, toNFD, canonicalOrder, canonicalOrder]
    simpa [ha.2, hb.2] using hswap

/-- Marks may be sorted wherever they are. -/
lemma canonicallyEquivalent_stableSort {run : List Char} (hrun : ∀ c ∈ run, D.IsMark c)
    (u v : List Char) :
    D.CanonicallyEquivalent (u ++ run ++ v) (u ++ stableSort D.ccc run ++ v) := by
  let R (l l' : List Char) : Prop := ∀ u, D.CanonicallyEquivalent (u ++ l ++ v) (u ++ l' ++ v)
  have hcons : ∀ x {l l'}, R l l' → R (x :: l) (x :: l') := by
    intro x l l' h u
    have hinner := h (u ++ [x])
    rw [List.append_assoc u [x] l, List.append_assoc u [x] l'] at hinner
    exact hinner
  have hswap : ∀ a b l, D.IsMark a → D.IsMark b → D.ccc b < D.ccc a →
      R (a :: b :: l) (b :: a :: l) := by
    intro a b l ha hb hlt u
    have hstep := EquivalenceStep.exchange u (l ++ v) ha hb (ne_of_gt hlt)
    rw [List.append_assoc u, List.append_assoc u] at hstep ⊢
    exact Relation.EqvGen.rel _ _ hstep
  have hsorted : R run (stableSort D.ccc run) :=
    rel_stableSort (fun l u => Relation.EqvGen.refl _)
      (fun h h' u => Relation.EqvGen.trans _ _ _ (h u) (h' u)) hcons hswap hrun
  exact hsorted u

lemma canonicallyEquivalent_flatMap (u s : List Char) :
    D.CanonicallyEquivalent (u ++ s) (u ++ s.flatMap D.decomposition) := by
  induction s generalizing u with
  | nil => exact Relation.EqvGen.refl _
  | cons c s ih =>
    have hfirst := EquivalenceStep.decompose (D := D) u s c
    have hrest := ih (u ++ D.decomposition c)
    rw [List.append_assoc u [c]] at hfirst
    rw [List.append_assoc u _ (s.flatMap D.decomposition)] at hrest
    exact Relation.EqvGen.trans _ _ _ (Relation.EqvGen.rel _ _ hfirst) hrest

lemma canonicallyEquivalent_canonicalOrderFrom {run cs : List Char}
    (hrun : ∀ c ∈ run, D.IsMark c) (hcs : ∀ c ∈ cs, D.decomposition c = [c]) (u : List Char) :
    D.CanonicallyEquivalent (u ++ run ++ cs) (u ++ D.canonicalOrderFrom run cs) := by
  induction cs generalizing run u with
  | nil =>
    have hsorted := canonicallyEquivalent_stableSort hrun u []
    rwa [List.append_nil (u ++ stableSort D.ccc run)] at hsorted
  | cons c cs ih =>
    have htail : ∀ d ∈ cs, D.decomposition d = [d] := fun d hd =>
      hcs d (List.mem_cons_of_mem c hd)
    rw [canonicalOrderFrom]
    split_ifs with hstarter
    · have hsorted := canonicallyEquivalent_stableSort hrun u (c :: cs)
      have hrest := ih (fun d hd => absurd hd List.not_mem_nil) htail
        (u ++ stableSort D.ccc run ++ [c])
      rw [List.append_nil, List.append_assoc _ [c], List.append_assoc _ [c]] at hrest
      rw [← List.append_assoc u]
      exact Relation.EqvGen.trans _ _ _ hsorted hrest
    · have hmark : ∀ d ∈ run ++ [c], D.IsMark d := by
        intro d hd
        rcases List.mem_append.mp hd with hd | hd
        · exact hrun d hd
        · rw [List.mem_singleton.mp hd]
          exact ⟨hstarter, hcs c List.mem_cons_self⟩
      have hrest := ih hmark htail u
      rwa [← List.append_assoc u, List.append_assoc _ [c]] at hrest

/-- Strings are canonically equivalent if and only if they have the same decomposition. -/
theorem canonicallyEquivalent_iff {s t : List Char} :
    D.CanonicallyEquivalent s t ↔ D.toNFD s = D.toNFD t := by
  have hnfd (s : List Char) : D.CanonicallyEquivalent s (D.toNFD s) := by
    have hfixed : ∀ c ∈ s.flatMap D.decomposition, D.decomposition c = [c] := by
      intro c hc
      obtain ⟨d, -, hd⟩ := List.mem_flatMap.mp hc
      exact D.decomposition_of_mem hd
    exact Relation.EqvGen.trans _ _ _ (canonicallyEquivalent_flatMap [] s)
      (canonicallyEquivalent_canonicalOrderFrom (fun c hc => absurd hc List.not_mem_nil) hfixed [])
  constructor
  · intro h
    induction h with
    | rel s t hstep => exact hstep.toNFD_eq
    | refl s => rfl
    | symm s t _ ih => exact ih.symm
    | trans s t r _ _ ih ih' => exact ih.trans ih'
  · intro h
    have ht := Relation.EqvGen.symm _ _ (hnfd t)
    rw [← h] at ht
    exact Relation.EqvGen.trans _ _ _ (hnfd s) ht

end UnicodeData

end Cangjie.Unicode
