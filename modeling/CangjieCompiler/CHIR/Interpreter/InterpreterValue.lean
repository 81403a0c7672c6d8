import CangjieCompiler.CHIR.Checker.OverflowChecking

/-!
# Values of the interpreter

The values that the interpreter computes with.  The ten classes of integers differ in their type
only. A pointer is a value of the arena and the positions that lead to a part of it.  The content of
an array that was allocated starts with its size, the content of a `VArray` does not.  What is
computed with floating point numbers is left out, so their bits are only moved.
-/

namespace Cangjie.CHIR.Interpreter

open FixedWidth

/-- The values. -/
inductive IVal where
  | IInvalid
  | IInt (kind : TypeKind) (content : BitVec kind.bitness)
  | IFloat (content : BitVec 64)
  | IRune (content : BitVec 32)
  | IBool (content : Bool)
  | IUnit
  | INullptr
  | IPointer (root : ℕ) (positions : List ℕ)
  | ITuple (content : List IVal)
  | IArray (content : List IVal)
  | IObject (classId : BitVec 32) (content : List IVal)
  | IFunc (content : ℕ)

/-- The integer that a value of an integer type, of `Rune` or of `Bool` has. -/
def IVal.integer? : IVal → Option ℤ
  | .IInt kind content => some (value kind.uns content)
  | .IRune content => some (value true content)
  | .IBool content => some (if content then 1 else 0)
  | _ => none

/-- The conversion to an unsigned type of some width. -/
def toUnsigned (w : ℕ) (z : ℤ) : BitVec w := BitVec.ofInt w z

/-- The lowest byte of an integer is the lowest byte of its word. -/
lemma toNat_toUnsigned_byte (z : ℤ) : (toUnsigned 8 z).toNat = (toUnsigned 64 z).toNat % 2 ^ 8 := by
  unfold toUnsigned
  rw [BitVec.toNat_ofInt, BitVec.toNat_ofInt]
  omega

end Cangjie.CHIR.Interpreter
