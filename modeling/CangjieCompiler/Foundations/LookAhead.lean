import Mathlib.Data.List.Basic

/-!
# Reading ahead

A source delivers one item after the other.  An item may be read ahead into a queue, and is then
delivered from there.  Filling the queue reads until enough items were counted, keeps only some of
them, and may stop early.  The queue followed by the rest of the source is always the same sequence,
but for the items that are not kept.
-/

namespace Cangjie

variable {σ τ : Type}

/-! ## Reading -/

/-- The items of the first reads. -/
def taken (read : σ → τ × σ) : ℕ → σ → List τ
  | 0, _ => []
  | n + 1, s => (read s).1 :: taken read n (read s).2

/-- The state after the first reads. -/
def after (read : σ → τ × σ) : ℕ → σ → σ
  | 0, s => s
  | n + 1, s => after read n (read s).2

section Taken

variable (read : σ → τ × σ)

attribute [local simp] taken after

lemma length_taken (n : ℕ) (s : σ) : (taken read n s).length = n := by
  induction n generalizing s with
  | zero => rfl
  | succ n ih => rw [taken, List.length_cons, ih]

lemma after_add (m n : ℕ) (s : σ) : after read (m + n) s = after read n (after read m s) := by
  induction m generalizing s with
  | zero => rw [Nat.zero_add, after]
  | succ m ih => rw [Nat.succ_add, after, after, ih]

lemma taken_add (m n : ℕ) (s : σ) :
    taken read (m + n) s = taken read m s ++ taken read n (after read m s) := by
  induction m generalizing s with
  | zero => rw [Nat.zero_add, taken, after, List.nil_append]
  | succ m ih => rw [Nat.succ_add, taken, taken, after, ih, List.cons_append]

/-- The items of fewer reads come first. -/
lemma taken_prefix_of_le {m n : ℕ} (h : m ≤ n) (s : σ) : taken read m s <+: taken read n s := by
  obtain ⟨k, rfl⟩ := Nat.exists_eq_add_of_le h
  exact ⟨_, (taken_add read m k s).symm⟩

end Taken

/-- States that deliver the same item, and then related states, deliver the same items. -/
theorem taken_congr {σ' : Type} {read : σ → τ × σ} {read' : σ' → τ × σ'} {R : σ → σ' → Prop}
    (hread : ∀ s s', R s s' → (read s).1 = (read' s').1 ∧ R (read s).2 (read' s').2) (n : ℕ)
    {s : σ} {s' : σ'} (h : R s s') : taken read n s = taken read' n s' := by
  induction n generalizing s s' with
  | zero => rfl
  | succ n ih =>
    obtain ⟨hitem, hrest⟩ := hread s s' h
    rw [taken, taken, hitem, ih hrest]

/-! ## Sources -/

/-- A source that delivers an end item after finitely many others. -/
structure ItemSource (σ τ : Type) where
  read : σ → τ × σ
  isEnd : τ → Bool
  rank : σ → ℕ
  progress : ∀ s, isEnd (read s).1 = false → rank (read s).2 < rank s

/-- How a queue is filled: which items are kept, which of them count, and where to stop.  End items
count. -/
structure Filling (src : ItemSource σ τ) where
  keep : τ → Bool
  count : τ → Bool
  stop : τ → Bool
  count_end : ∀ t, src.isEnd t = true → count t = true

namespace ItemSource

variable (src : ItemSource σ τ)

/-- Reading until a number of items were counted. -/
def fill (f : Filling src) : ℕ → σ → List τ → σ × List τ
  | 0, s, queue => (s, queue)
  | needed + 1, s, queue =>
    let t := (src.read s).1
    let queue := if f.keep t then queue ++ [t] else queue
    if f.stop t then ((src.read s).2, queue)
    else if _hcount : f.count t then fill f needed (src.read s).2 queue
    else fill f (needed + 1) (src.read s).2 queue
termination_by needed s => (needed, src.rank s)
decreasing_by
  · exact Prod.Lex.left _ _ (Nat.lt_succ_self needed)
  · refine Prod.Lex.right _ (src.progress s ?_)
    by_contra hend
    exact _hcount (f.count_end _ (Bool.not_eq_false _ ▸ hend))

/-- The number of items that filling a queue reads. -/
def reads (f : Filling src) : ℕ → σ → ℕ
  | 0, _ => 0
  | needed + 1, s =>
    let t := (src.read s).1
    if f.stop t then 1
    else if _hcount : f.count t then reads f needed (src.read s).2 + 1
    else reads f (needed + 1) (src.read s).2 + 1
termination_by needed s => (needed, src.rank s)
decreasing_by
  · exact Prod.Lex.left _ _ (Nat.lt_succ_self needed)
  · refine Prod.Lex.right _ (src.progress s ?_)
    by_contra hend
    exact _hcount (f.count_end _ (Bool.not_eq_false _ ▸ hend))

variable {src}

/-- A property of filling is proved along the reads. -/
theorem reads_rule {f : Filling src} {P : ℕ → σ → ℕ → Prop} (hzero : ∀ s, P 0 s 0)
    (hstop : ∀ needed s, f.stop (src.read s).1 = true → P (needed + 1) s 1)
    (hcount : ∀ needed s n, f.stop (src.read s).1 = false → f.count (src.read s).1 = true →
      P needed (src.read s).2 n → P (needed + 1) s (n + 1))
    (hskip : ∀ needed s n, f.stop (src.read s).1 = false → f.count (src.read s).1 = false →
      P (needed + 1) (src.read s).2 n → P (needed + 1) s (n + 1))
    (needed : ℕ) (s : σ) : P needed s (src.reads f needed s) := by
  induction needed, s using reads.induct src f with
  | case1 s =>
    rw [reads]
    exact hzero s
  | case2 needed s t hstop' =>
    rw [reads]
    rw [if_pos hstop']
    exact hstop needed s hstop'
  | case3 needed s t hstop' hcount' ih =>
    rw [reads]
    rw [if_neg hstop', dif_pos hcount']
    exact hcount needed s _ (Bool.not_eq_true _ ▸ hstop') hcount' ih
  | case4 needed s t hstop' hcount' ih =>
    rw [reads]
    rw [if_neg hstop', dif_neg hcount']
    exact hskip needed s _ (Bool.not_eq_true _ ▸ hstop') (Bool.not_eq_true _ ▸ hcount') ih

/-- Filling a queue reads some items and keeps some of them. -/
theorem fill_eq (f : Filling src) (needed : ℕ) (s : σ) (queue : List τ) :
    src.fill f needed s queue =
      (after src.read (src.reads f needed s) s,
        queue ++ (taken src.read (src.reads f needed s) s).filter f.keep) := by
  have hkeep : ∀ (t : τ) (queue rest : List τ),
      (if f.keep t then queue ++ [t] else queue) ++ rest.filter f.keep =
        queue ++ (t :: rest).filter f.keep := by
    intro t queue rest
    by_cases hk : f.keep t = true <;> simp [hk]
  refine reads_rule
    (P := fun needed s n => ∀ queue, src.fill f needed s queue =
      (after src.read n s, queue ++ (taken src.read n s).filter f.keep))
    ?_ ?_ ?_ ?_ needed s queue
  · intro s queue
    rw [fill]
    simp [after, taken]
  · intro needed s hstop queue
    rw [fill]
    rw [if_pos hstop, after, after, taken, taken, ← hkeep, List.filter_nil, List.append_nil]
  · intro needed s n hstop hcount ih queue
    rw [fill]
    rw [hstop, if_neg Bool.false_ne_true, dif_pos hcount, ih, after, taken, hkeep]
  · intro needed s n hstop hcount ih queue
    rw [fill]
    rw [hstop, if_neg Bool.false_ne_true, dif_neg (by rw [hcount]; exact Bool.false_ne_true), ih,
      after, taken, hkeep]

/-- As many items were counted as were needed, when nothing stops the filling early. -/
theorem countP_reads {f : Filling src} (hstop : ∀ t, f.stop t = false) (needed : ℕ) (s : σ) :
    (taken src.read (src.reads f needed s) s).countP f.count = needed := by
  refine reads_rule
    (P := fun needed s n => (taken src.read n s).countP f.count = needed) ?_ ?_ ?_ ?_ needed s
  · exact fun s => rfl
  · exact fun needed s h => absurd (h.symm.trans (hstop _)) (by simp)
  · intro needed s n _ hcount ih
    rw [taken, List.countP_cons_of_pos hcount, ih]
  · intro needed s n _ hcount ih
    rw [taken, List.countP_cons_of_neg (by simp [hcount]), ih]

end ItemSource

end Cangjie
