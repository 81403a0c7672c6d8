import CangjieCompiler.Foundations.ChangeLog
import Mathlib.Data.Finset.Max
import Mathlib.Data.Finset.Sort

/-!
# Partially persistent sets

A set that can go back to its last checkpoint, or stash the changes since then and apply them again.
Every checkpoint has a log of the changes since it was set and the stashed logs.  The iterators and
counts that the operations return are left out.
-/

namespace Cangjie

/-- The number of a stashed version.  Versions are counted from one, and zero is none. -/
abbrev VersionID := ℕ

/-- The log and the stashed logs of a checkpoint. -/
structure Checkpoint (T : Type) where
  log : List (Change T)
  stashes : List (List (Change T))

/-- A set with its checkpoints.  The two stacks of the source have the same length and are never
empty, so they are one stack with a last checkpoint and the enclosing ones, the innermost first. -/
structure PSet (T : Type) where
  data : Finset T
  last : Checkpoint T
  enclosing : List (Checkpoint T)

namespace PSet

open ChangeLog

variable {T : Type} [LinearOrder T]

/-- A set with the base checkpoint. -/
def ofSet (init : Finset T) : PSet T where
  data := init
  last := { log := [], stashes := [] }
  enclosing := []

/-! ## Changes -/

/-- Adding an entry to the log of the last checkpoint. -/
def pushLog (s : PSet T) (l : Change T) : PSet T :=
  { s with last := { s.last with log := s.last.log ++ [l] } }

/-- Logging an insertion that has an effect. -/
def checkIn (s : PSet T) (value : T) : PSet T :=
  if value ∈ s.data then s else s.pushLog { isInsert := true, data := value }

/-- Logging a removal that has an effect. -/
def checkOut (s : PSet T) (value : T) : PSet T :=
  if value ∈ s.data then s.pushLog { isInsert := false, data := value } else s

/-- Inserting an element. -/
def insert (s : PSet T) (value : T) : PSet T :=
  let s := s.checkIn value
  { s with data := Insert.insert value s.data }

/-- Removing an element. -/
def erase (s : PSet T) (value : T) : PSet T :=
  let s := s.checkOut value
  { s with data := s.data.erase value }

lemma card_erase_lt (s : PSet T) (h : s.data.Nonempty) :
    (s.erase (s.data.min' h)).data.card < s.data.card := by
  have hmem := s.data.min'_mem h
  unfold erase checkOut
  rw [if_pos hmem]
  exact Finset.card_erase_lt_of_mem hmem

/-- Removing all elements one after the other. -/
def softClear (s : PSet T) : PSet T :=
  if h : s.data.Nonempty then (s.erase (s.data.min' h)).softClear else s
termination_by s.data.card
decreasing_by exact s.card_erase_lt h

/-- Inserting the elements of another set.  The insertions are logged before the sets are merged. -/
def merge (s : PSet T) (src : Finset T) : PSet T :=
  let s := (src.sort (· ≤ ·)).foldl checkIn s
  { s with data := s.data ∪ src }

/-! ## Checkpoints -/

/-- A new checkpoint. -/
def commit (s : PSet T) : PSet T :=
  { s with last := { log := [], stashes := [] }, enclosing := s.last :: s.enclosing }

/-- Taking back a change. -/
def resetOne (l : Change T) (s : PSet T) : PSet T := { s with data := l.undo s.data }

/-- Making a change again. -/
def applyOne (s : PSet T) (l : Change T) : PSet T := { s with data := l.redo s.data }

/-- Going back to the last checkpoint. -/
def reset (s : PSet T) : PSet T :=
  let s := s.last.log.foldr resetOne s
  { s with last := { s.last with log := [] } }

/-- Saving the changes since the last checkpoint and going back to it. -/
def stash (s : PSet T) : VersionID × PSet T :=
  let s := { s with last := { s.last with stashes := s.last.stashes ++ [s.last.log] } }
  let s := s.reset
  (s.last.stashes.length, s)

/-- Making the changes of a stashed version again.  There is no result when the version does not
exist. -/
def apply (s : PSet T) (ver : VersionID) : Option (PSet T) :=
  if ver = 0 then some s
  else s.last.stashes[ver - 1]?.map fun log => log.foldl applyOne s

/-- Removing the last checkpoint, with its changes added to those of the enclosing one.  The base
checkpoint only loses its stashed versions. -/
def resetSoft (s : PSet T) : PSet T :=
  match s.enclosing with
  | [] => { s with last := { s.last with stashes := [] } }
  | newLast :: rest =>
    { s with last := { newLast with log := newLast.log ++ s.last.log }, enclosing := rest }

/-! ## Runs -/

/-- The operations. -/
inductive Op (T : Type) where
  | insert (value : T)
  | erase (value : T)
  | softClear
  | merge (src : Finset T)
  | commit
  | reset
  | stash
  | apply (ver : VersionID)
  | resetSoft

/-- One operation. -/
def step (s : PSet T) : Op T → Option (PSet T)
  | .insert value => some (s.insert value)
  | .erase value => some (s.erase value)
  | .softClear => some s.softClear
  | .merge src => some (s.merge src)
  | .commit => some s.commit
  | .reset => some s.reset
  | .stash => some s.stash.2
  | .apply ver => s.apply ver
  | .resetSoft => some s.resetSoft

end PSet

end Cangjie
