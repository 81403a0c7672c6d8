import Mathlib.Tactic.Common

/-!
# Abstract Booleans

The four sets of Booleans, and what the analysis asks about them.
-/

namespace Cangjie.CHIR

/-- The sets of Booleans: none, false, true, all. -/
inductive BoolDomain where
  | N
  | F
  | T
  | A
  deriving DecidableEq, Repr

namespace BoolDomain

/-- No Boolean is possible. -/
def bottom : BoolDomain := N

/-- Every Boolean is possible. -/
def top : BoolDomain := A

/-- The set of one Boolean. -/
def fromBool (v : Bool) : BoolDomain := if v then T else F

/-- Every Boolean is possible. -/
def isTop (d : BoolDomain) : Bool := d == A

/-- Some Boolean is excluded. -/
def isNonTrivial (d : BoolDomain) : Bool := !d.isTop

/-- Exactly one Boolean is possible. -/
def isSingleValue (d : BoolDomain) : Bool := d == T || d == F

/-- The Boolean of a set of one. -/
def getSingleValue (d : BoolDomain) : Bool := d == T

@[simp] theorem isSingleValue_top : top.isSingleValue = false := rfl

@[simp] theorem isSingleValue_bottom : bottom.isSingleValue = false := rfl

@[simp] theorem getSingleValue_fromBool (v : Bool) : (fromBool v).getSingleValue = v := by
  cases v <;> rfl

end BoolDomain

end Cangjie.CHIR
