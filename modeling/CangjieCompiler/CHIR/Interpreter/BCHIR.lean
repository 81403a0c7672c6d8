import CangjieCompiler.CHIR.Interpreter.OpCodes
import Mathlib

/-!
# Bytecode packages

The bytecode of a definition is a list of 32-bit cells, operations followed by their operands,
with annotations that name what an operand refers to.  A package holds the definitions of its
functions and the tables that the linker reads.
-/

namespace Cangjie.CHIR.Interpreter

/-- A cell or an index of the bytecode.  Both are words of 32 bits, so an image has fewer than
`2 ^ 32` cells and sums of an index and an offset into it do not overflow. -/
abbrev ByteCodeContent := ℕ

/-- The cell that stands for a missing type. -/
def BYTECODE_CONTENT_MAX : ByteCodeContent := 2 ^ 32 - 1

/-- A type of the intermediate representation, known by its address. -/
abbrev TypePtr := ℕ

/-- The bytecode of a function with the mangled names that its operations refer to. -/
structure Definition where
  numLVars : ByteCodeContent
  bytecode : List ByteCodeContent
  mangledNamesAnnotations : ℕ → Option String

/-- The cell at an index. -/
def Definition.get (d : Definition) (index : ℕ) : ByteCodeContent := d.bytecode.getD index 0

/-- The value of two cells, the low one first. -/
def Definition.get8bytes (d : Definition) (index : ℕ) : ℕ :=
  d.get index + d.get (index + 1) * 2 ^ 32

/-- The next available index. -/
def Definition.nextIndex (d : Definition) : ℕ := d.bytecode.length

/-- The mangled name annotated at an index, empty when there is none. -/
def Definition.getMangledNameAnnotation (d : Definition) (idx : ℕ) : String :=
  (d.mangledNamesAnnotations idx).getD ""

/-- A class before linking: its direct super classes, the functions of its methods, and its
finalizer. -/
structure SClassInfo where
  superClasses : List String
  vtable : List (String × String)
  finalizer : String

/-- A class after linking: all super classes, the functions of its methods and its finalizer as
indices. -/
structure ClassInfo where
  superClasses : Finset ByteCodeContent
  vtable : ByteCodeContent → Option ByteCodeContent
  finalizerIdx : ByteCodeContent
  mangledName : String

/-- A package before linking. -/
structure Bchir where
  strings : List String
  types : List TypePtr
  functions : List (String × Definition)
  globalVars : List String
  sClassTable : List (String × SClassInfo)
  initFuncsForConsts : List String

/-- The class of a name, when the package declares it. -/
def Bchir.getSClass (bchir : Bchir) (mangledName : String) : Option SClassInfo :=
  bchir.sClassTable.lookup mangledName

/-- Insertion that keeps the value of a key that is present. -/
def emplace {κ β : Type} [DecidableEq κ] (m : κ → Option β) (key : κ) (value : β) :
    κ → Option β :=
  if (m key).isSome then m else Function.update m key (some value)

section Emplace

variable {κ β : Type} [DecidableEq κ] {m : κ → Option β} {key other : κ} {value v : β}

lemma emplace_of_some (h : m other = some v) : emplace m key value other = some v := by
  unfold emplace
  split
  · exact h
  · rename_i hnone
    have hne : other ≠ key := by
      rintro rfl
      exact hnone (by rw [h]; rfl)
    rw [Function.update_of_ne hne, h]

lemma emplace_self (h : m key = none) : emplace m key value key = some value := by
  unfold emplace
  rw [h, Option.isSome_none, if_neg Bool.false_ne_true, Function.update_self]

/-- A value after the insertion was there before, or is the new one. -/
lemma emplace_eq_some (h : emplace m key value other = some v) :
    m other = some v ∨ other = key ∧ m key = none ∧ v = value := by
  unfold emplace at h
  split at h
  · exact Or.inl h
  · rename_i hnone
    by_cases hne : other = key
    · rw [hne, Function.update_self, Option.some.injEq] at h
      exact Or.inr ⟨hne, Option.not_isSome_iff_eq_none.mp hnone, h.symm⟩
    · rw [Function.update_of_ne hne] at h
      exact Or.inl h

end Emplace

end Cangjie.CHIR.Interpreter
