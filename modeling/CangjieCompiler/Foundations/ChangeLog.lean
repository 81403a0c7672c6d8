import Mathlib.Data.Finset.Basic
import Mathlib.Data.List.Basic

/-!
# Logs of changes of a set

A log lists insertions and removals of elements in the order in which they were made.  It can be
replayed on a set, and it can be undone, the last change first.  Undoing a log decides every element
by its first entry, replaying it by its last one.
-/

namespace Cangjie

variable {α : Type} [DecidableEq α]

/-- An element that was inserted or removed. -/
structure Change (α : Type) where
  isInsert : Bool
  data : α

namespace Change

/-- Making the change again. -/
def redo (c : Change α) (s : Finset α) : Finset α :=
  if c.isInsert then insert c.data s else s.erase c.data

/-- Taking the change back. -/
def undo (c : Change α) (s : Finset α) : Finset α :=
  if c.isInsert then s.erase c.data else insert c.data s

/-- The change of a set is one that has an effect. -/
def Effective (c : Change α) (s : Finset α) : Prop := c.isInsert = true ↔ c.data ∉ s

lemma undo_redo {c : Change α} {s : Finset α} (h : c.Effective s) : c.undo (c.redo s) = s := by
  unfold Effective at h
  unfold undo redo
  by_cases hinsert : c.isInsert = true
  · rw [if_pos hinsert, if_pos hinsert, Finset.erase_insert (h.mp hinsert)]
  · have hmem : c.data ∈ s := by
      by_contra hnot
      exact hinsert (h.mpr hnot)
    rw [if_neg hinsert, if_neg hinsert, Finset.insert_erase hmem]

lemma mem_redo (c : Change α) (s : Finset α) (e : α) :
    e ∈ c.redo s ↔ if c.data = e then c.isInsert = true else e ∈ s := by
  unfold redo
  by_cases hinsert : c.isInsert = true <;> by_cases he : c.data = e
  · simp [hinsert, he]
  · simp [hinsert, he, Ne.symm he]
  · simp [hinsert, he]
  · simp [hinsert, he, Ne.symm he]

lemma mem_undo (c : Change α) (s : Finset α) (e : α) :
    e ∈ c.undo s ↔ if c.data = e then c.isInsert = false else e ∈ s := by
  unfold undo
  by_cases hinsert : c.isInsert = true <;> by_cases he : c.data = e
  · simp [hinsert, he]
  · simp [hinsert, he, Ne.symm he]
  · simp [hinsert, he]
  · simp [hinsert, he, Ne.symm he]

end Change

namespace ChangeLog

/-- Replaying a log. -/
def redoAll (log : List (Change α)) (s : Finset α) : Finset α := log.foldl (fun s c => c.redo s) s

/-- Undoing a log, the last change first. -/
def undoAll (log : List (Change α)) (s : Finset α) : Finset α := log.foldr Change.undo s

/-- Whether the first entry for an element is an insertion, if there is one. -/
def firstOf (log : List (Change α)) (e : α) : Option Bool :=
  (log.find? fun c => c.data = e).map Change.isInsert

/-- Whether the last entry for an element is an insertion, if there is one. -/
def lastOf (log : List (Change α)) (e : α) : Option Bool := firstOf log.reverse e

lemma firstOf_cons (c : Change α) (rest : List (Change α)) (e : α) :
    firstOf (c :: rest) e = if c.data = e then some c.isInsert else firstOf rest e := by
  unfold firstOf
  by_cases he : c.data = e <;> simp [he]

lemma lastOf_concat (log : List (Change α)) (c : Change α) (e : α) :
    lastOf (log ++ [c]) e = if c.data = e then some c.isInsert else lastOf log e := by
  unfold lastOf
  rw [List.reverse_concat, firstOf_cons]

lemma undoAll_append (log log' : List (Change α)) (s : Finset α) :
    undoAll (log ++ log') s = undoAll log (undoAll log' s) :=
  List.foldr_append

/-- Undoing a log to which an effective change was added. -/
lemma undoAll_concat (log : List (Change α)) {c : Change α} {s : Finset α} (h : c.Effective s) :
    undoAll (log ++ [c]) (c.redo s) = undoAll log s := by
  rw [undoAll_append]
  exact congrArg (undoAll log) (Change.undo_redo h)

lemma mem_undoAll (log : List (Change α)) (s : Finset α) (e : α) :
    e ∈ undoAll log s ↔ (firstOf log e).elim (e ∈ s) fun b => b = false := by
  induction log with
  | nil => exact Iff.rfl
  | cons c rest ih =>
    have hstep : e ∈ undoAll (c :: rest) s ↔
        if c.data = e then c.isInsert = false else e ∈ undoAll rest s := Change.mem_undo c _ e
    rw [hstep, firstOf_cons]
    by_cases he : c.data = e
    · rw [if_pos he, if_pos he]
      exact Iff.rfl
    · rw [if_neg he, if_neg he, ih]

lemma mem_redoAll (log : List (Change α)) (s : Finset α) (e : α) :
    e ∈ redoAll log s ↔ (lastOf log e).elim (e ∈ s) fun b => b = true := by
  induction log using List.reverseRecOn with
  | nil => exact Iff.rfl
  | append_singleton log c ih =>
    have hstep : e ∈ redoAll (log ++ [c]) s ↔
        if c.data = e then c.isInsert = true else e ∈ redoAll log s := by
      unfold redoAll
      rw [List.foldl_concat]
      exact Change.mem_redo c _ e
    rw [hstep, lastOf_concat]
    by_cases he : c.data = e
    · rw [if_pos he, if_pos he]
      exact Iff.rfl
    · rw [if_neg he, if_neg he, ih]

/-- Undoing insertions removes their elements. -/
lemma mem_undoAll_insertions (es : List α) (s : Finset α) (e : α) :
    e ∈ undoAll (es.map fun e => { isInsert := true, data := e }) s ↔ e ∈ s ∧ e ∉ es := by
  induction es with
  | nil => simp [undoAll]
  | cons first rest ih =>
    have hstep : e ∈ undoAll ((first :: rest).map fun e => { isInsert := true, data := e }) s ↔
        e ≠ first ∧ e ∈ undoAll (rest.map fun e => { isInsert := true, data := e }) s :=
      Finset.mem_erase
    rw [hstep, ih, List.mem_cons, not_or, and_left_comm]

/-- Replaying a log is invisible to undoing another one exactly when it changes no element but those
of the other log. -/
theorem undoAll_redoAll_eq_iff (log replayed : List (Change α)) (s : Finset α) :
    undoAll log (redoAll replayed s) = undoAll log s ↔
      ∀ e, firstOf log e = none → ∀ b, lastOf replayed e = some b → (b = true ↔ e ∈ s) := by
  rw [Finset.ext_iff]
  refine forall_congr' fun e => ?_
  rw [mem_undoAll, mem_undoAll, mem_redoAll]
  cases firstOf log e with
  | some b => simp
  | none =>
    cases lastOf replayed e with
    | none => simp
    | some b => simp

end ChangeLog

end Cangjie
