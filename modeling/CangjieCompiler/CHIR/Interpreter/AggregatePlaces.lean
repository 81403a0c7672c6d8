import CangjieCompiler.CHIR.Interpreter.InterpreterValue
import CangjieCompiler.Foundations.TreePlaces

/-!
# Places in aggregates

The operations of the interpreter that go along a path into tuples, objects and arrays: `GETREF` and
`STOREINREF` through a pointer, `FIELD_TPL` and `VARRAY_GET` on a value.  The first two skip the
slot in which an allocated array keeps its size, and do the same in a `VArray`, which has no such
slot.
-/

namespace Cangjie.CHIR.Interpreter

open TreePlaces

/-! ## Values as trees -/

namespace IVal

/-- The values that a value consists of. -/
def content : IVal → List IVal
  | .ITuple content | .IArray content | .IObject _ content => content
  | _ => []

def withContent : IVal → List IVal → IVal
  | .ITuple _, content => .ITuple content
  | .IArray _, content => .IArray content
  | .IObject classId _, content => .IObject classId content
  | v, _ => v

def tree : ContentTree IVal where
  content := content
  withContent := withContent
  content_withContent := fun v c h => by
    cases v <;> first | rfl | exact (List.eq_nil_of_length_eq_zero h).symm
  withContent_content := fun v => by cases v <;> rfl

/-- The position that an index of a path stands for.  Index 0 of an array is the size of the array.
-/
def refPosition : IVal → ℕ → ℕ
  | .IArray _, p => p + 1
  | _, p => p

def refPositions : Positions tree where
  position := refPosition
  position_withContent := fun v c _ => by cases v <;> rfl

end IVal

/-! ## The operations -/

/-- A pointer to a part of a value of the arena. -/
structure Pointer where
  root : ℕ
  positions : List ℕ
  deriving DecidableEq, Repr

/-- The values that pointers lead to. -/
abbrev Arena := ℕ → IVal

/-- The value that a pointer leads to. -/
def Arena.deref (arena : Arena) (ptr : Pointer) : Option IVal :=
  read (Positions.plain IVal.tree) (arena ptr.root) ptr.positions

/-- The pointer to a part of what a pointer leads to. -/
def Arena.getRef (arena : Arena) (target : Pointer) (path : List ℕ) : Option Pointer := do
  let targetVal ← arena.deref target
  let positions ← locate IVal.refPositions targetVal path
  pure ⟨target.root, target.positions ++ positions⟩

/-- Storing a value in a part of what a pointer leads to. -/
def Arena.storeInRef (arena : Arena) (target : Pointer) (path : List ℕ) (value : IVal) :
    Option Arena := do
  let place ← arena.getRef target path
  let root ← write (Positions.plain IVal.tree) value (arena place.root) place.positions
  pure (Function.update arena place.root root)

/-- The field of a tuple along a path of tuples. -/
def fieldTpl : IVal → List ℕ → Option IVal
  | .ITuple content, [p] => content[p]?
  | .ITuple content, p :: path => (content[p]?).bind fun inner => fieldTpl inner path
  | _, _ => none

/-- What the read of an array comes to: a value, an exception, or an access outside of a content. -/
inductive VArrayRead where
  | value (v : IVal)
  | indexOutOfBounds
  | undefined

def VArrayRead.value? : VArrayRead → Option IVal
  | .value v => some v
  | _ => none

/-- The element at an index. -/
def elementAt (content : List IVal) (index : ℤ) : Option IVal :=
  if index < 0 then none else content[index.toNat]?

/-- The element of an array along a path of arrays.  Only the last index is compared with the size.
-/
def varrayGet : IVal → List ℤ → VArrayRead
  | .IArray content, [getIdx] =>
    if getIdx < 0 ∨ getIdx > content.length then .indexOutOfBounds
    else
      match elementAt content getIdx with
      | some v => .value v
      | none => .undefined
  | .IArray content, arrayIndex :: path =>
    match elementAt content arrayIndex with
    | some array => varrayGet array path
    | none => .undefined
  | _, _ => .undefined

/-! ## Pointers -/

section Pointers

variable {arena arena' : Arena} {target : Pointer} {v v' w : IVal} {path : List ℕ}

/-- Reading along a path with `GETREF` and `DEREF`. -/
theorem getRef_deref (h : arena.deref target = some v) :
    ((arena.getRef target path).bind fun ptr => arena.deref ptr) =
      read IVal.refPositions v path := by
  unfold Arena.getRef
  rw [h, Option.bind_eq_bind, Option.bind_some]
  cases hlocate : locate IVal.refPositions v path with
  | none =>
    have hnone : ¬ (read IVal.refPositions v path).isSome := by
      rw [← locate_isSome_iff, hlocate]
      exact Bool.false_ne_true
    exact (Option.not_isSome_iff_eq_none.mp hnone).symm
  | some positions =>
    have hread : read (Positions.plain IVal.tree) (arena target.root) target.positions = some v := h
    rw [← read_locate hlocate]
    change read _ (arena target.root) (target.positions ++ positions) = _
    rw [read_append, hread, Option.bind_some]

/-- Storing along a path changes what the pointer leads to as writing along the path does, and it
changes no other value of the arena. -/
theorem storeInRef_eq_some_iff (h : arena.deref target = some v) :
    arena.storeInRef target path w = some arena' ↔
      ∃ v', write IVal.refPositions w v path = some v' ∧
        (write (Positions.plain IVal.tree) v' (arena target.root) target.positions).map
          (Function.update arena target.root) = some arena' := by
  have hread : read (Positions.plain IVal.tree) (arena target.root) target.positions = some v := h
  unfold Arena.storeInRef Arena.getRef
  rw [h]
  simp only [Option.bind_eq_bind, Option.bind_some]
  cases hlocate : locate IVal.refPositions v path with
  | none =>
    have hnone : write IVal.refPositions w v path = none := by
      rw [← Option.not_isSome_iff_eq_none, write_isSome_iff, ← locate_isSome_iff, hlocate]
      exact Bool.false_ne_true
    rw [hnone]
    exact ⟨nofun, fun ⟨_, h, _⟩ => nomatch h⟩
  | some positions =>
    simp only [Option.bind_some, Option.pure_def]
    rw [write_append hread, write_locate hlocate]
    cases write IVal.refPositions w v path with
    | none => exact ⟨nofun, fun ⟨_, h, _⟩ => nomatch h⟩
    | some v' =>
      simp only [Option.bind_some, Option.some.injEq, exists_eq_left']
      cases write (Positions.plain IVal.tree) v' (arena target.root) target.positions <;> rfl

end Pointers

end Cangjie.CHIR.Interpreter
