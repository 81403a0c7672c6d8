import CangjieCompiler.Sema.PatternUsefulness

/-!
# The search for witnesses

`FindWitnesses` returns the part of a pattern stack that the rows of a matrix leave over.  It splits
the head of the stack into constructors and goes on with the rows that a constructor is covered by.

The mutual recursion of the source goes through `FindWitnesses`, which takes fuel here; the other
functions take it as an argument.  They fail when the fuel is used up, or on an empty row where the
source asserts that there is none.  With the witnesses they return the nodes of or-patterns that are
reported as unreachable.  A match is checked case by case, with the witnesses of the cases before as
the matrix.
-/

namespace Cangjie.PatternUsefulness

variable {Ty : Type}

/-- The witnesses, and the nodes that are marked as unreachable. -/
structure Found (Ty : Type) where
  witnesses : List (PatternStack Ty)
  unreachables : List (Option ℕ)

namespace Found

def nothing : Found Ty := ⟨[], []⟩

def append (a b : Found Ty) : Found Ty :=
  ⟨a.witnesses ++ b.witnesses, a.unreachables ++ b.unreachables⟩

end Found

/-- A search for the witnesses of a stack over a matrix. -/
abbrev Search (Ty : Type) := Matrix Ty → PatternStack Ty → Option (Found Ty)

variable (T : PatternTypes Ty)

/-- The constructors that a wildcard of a type is split into. -/
def splitWildcard (ty : Ty) (matrix : Matrix Ty) : List (Constructor Ty) :=
  if matrix.missingAll then [.WILDCARD]
  else
    match T.shape ty with
    | .CLOSED_SEALED directSubtypes => directSubtypes.map .TYPE
    | shape =>
      if T.isTyCorrect ty then
        match shape with
        | .UNIT => [.UNIT]
        | .BOOLEAN => [.BOOLEAN false, .BOOLEAN true]
        | .TUPLE typeArgs => [.TUPLE typeArgs.length]
        | .ENUM ctors isNonExhaustive =>
          ctors.map .ENUM ++ if isNonExhaustive then [.NON_EXHAUSTIVE_ENUM] else []
        | _ => [.MISSING]
      else [.MISSING]

def findWitnessesBySpecialization (findWitnesses : Search Ty) (matrix : Matrix Ty)
    (vec : PatternStack Ty) (ctor : Constructor Ty) : Option (Found Ty) := do
  let head ← vec.head?
  let newMatrix ← matrix.specialize T ctor
  let stack ← vec.specialize T ctor
  let found ← findWitnesses newMatrix stack
  return ⟨found.witnesses.map fun witness => witness.apply ctor head.goalTy, found.unreachables⟩

/-- The loop over the constructors that a wildcard is split into. -/
def findWitnessesForCtors (findWitnesses : Search Ty) (matrix : Matrix Ty)
    (vec : PatternStack Ty) : List (Constructor Ty) → Option (Found Ty)
  | [] => some Found.nothing
  | ctor :: ctors => do
    let found ← findWitnessesBySpecialization T findWitnesses matrix vec ctor
    let rest ← findWitnessesForCtors findWitnesses matrix vec ctors
    return found.append rest

def findWitnessesForWildcard (findWitnesses : Search Ty) (matrix : Matrix Ty)
    (vec : PatternStack Ty) : Option (Found Ty) := do
  let head ← vec.head?
  if matrix.headsAllWildcard then
    -- Avoid inspecting the sub-patterns if the matrix' heads are all wildcards.
    findWitnessesBySpecialization T findWitnesses matrix vec head.ctor
  else
    match T.shape head.goalTy with
    | .TUPLE typeArgs =>
      let stack ← vec.specialize T (.TUPLE typeArgs.length)
      findWitnesses matrix (stack.apply (.TUPLE typeArgs.length) head.goalTy)
    | _ => findWitnessesForCtors T findWitnesses matrix vec (splitWildcard T head.goalTy matrix)

/-- The loop over the alternatives of an or-pattern, with the alternatives that have no
witnesses. -/
def findWitnessesForAlternatives (findWitnesses : Search Ty) :
    Matrix Ty → List (PatternStack Ty) → Option (Found Ty × List (Option ℕ))
  | _, [] => some (Found.nothing, [])
  | matrix, vec :: vecs => do
    let head ← vec.head?
    let found ← findWitnesses matrix vec
    if found.witnesses.isEmpty then
      let (rest, unreachables) ← findWitnessesForAlternatives findWitnesses matrix vecs
      return (found.append rest, head.node :: unreachables)
    else
      let (rest, unreachables) ←
        findWitnessesForAlternatives findWitnesses (matrix.appendRows found.witnesses) vecs
      return (found.append rest, unreachables)

def findWitnessesForExpandedOr (findWitnesses : Search Ty) (matrix : Matrix Ty)
    (vecs : List (PatternStack Ty)) : Option (Found Ty) := do
  let (found, unreachables) ← findWitnessesForAlternatives findWitnesses matrix vecs
  if found.witnesses.isEmpty then return found
  else return ⟨found.witnesses, found.unreachables ++ unreachables⟩

/-- The body of `FindWitnesses`. -/
def findWitnessesStep (findWitnesses : Search Ty) (matrix : Matrix Ty) (vec : PatternStack Ty) :
    Option (Found Ty) :=
  match vec.head? with
  | none => some (if matrix.isEmpty then ⟨[⟨[]⟩], []⟩ else Found.nothing)
  | some head =>
    if matrix.hasSingleRowAndAllWildcard then some Found.nothing
    else if head.isUnreachableTypePattern T then some Found.nothing
    else
      match head.ctor with
      | .WILDCARD => findWitnessesForWildcard T findWitnesses matrix vec
      | .OR _ => findWitnessesForExpandedOr findWitnesses matrix vec.expandOr
      | .TYPE ctor => do
        let wildcard := vec.replaceHead (.wildcard head.goalTy)
        let found ← findWitnessesForWildcard T findWitnesses matrix wildcard
        if found.witnesses.isEmpty then return found
        else
          let rest ← findWitnessesBySpecialization T findWitnesses matrix vec (.TYPE ctor)
          return ⟨rest.witnesses, found.unreachables ++ rest.unreachables⟩
      | ctor => findWitnessesBySpecialization T findWitnesses matrix vec ctor

def findWitnesses : ℕ → Search Ty
  | 0, _, _ => none
  | fuel + 1, matrix, vec => findWitnessesStep T (findWitnesses fuel) matrix vec

/-! ## The cases of a match -/

/-- A case of a match with its patterns, which have correct types. -/
structure MatchCase (Ty : Type) where
  patterns : List (DestructedPattern Ty)
  patternGuard : Bool
  nonempty : patterns ≠ []

/-- `FromPatterns`: the only pattern, or the or-pattern of all of them. -/
def MatchCase.fromPatterns (goalTy : Ty) (mc : MatchCase Ty) : DestructedPattern Ty :=
  match mc.patterns with
  | [pattern] => pattern
  | patterns => .mk (.OR patterns.length) patterns goalTy (mc.patterns.head mc.nonempty).node

/-- Whether the cases are exhaustive, which cases are marked as unreachable, and the nodes of the
alternatives that are. -/
structure MatchReport where
  exhaustive : Bool
  unreachableCases : List Bool
  unreachables : List (Option ℕ)

/-- The loop over the cases, and the search for what they leave over. -/
def checkMatchCases (findWitnesses : Search Ty) (selectorTy : Ty) :
    Matrix Ty → List (MatchCase Ty) → Option MatchReport
  | matrix, [] => do
    let found ← findWitnesses matrix ⟨[.wildcard selectorTy]⟩
    return ⟨found.witnesses.isEmpty, [], found.unreachables⟩
  | matrix, mc :: matchCases => do
    let found ← findWitnesses matrix ⟨[mc.fromPatterns selectorTy]⟩
    -- The witnesses of a case with a guard decide about reachability only.
    let newMatrix := if !found.witnesses.isEmpty && !mc.patternGuard then
      matrix.appendRows found.witnesses else matrix
    let rest ← checkMatchCases findWitnesses selectorTy newMatrix matchCases
    return ⟨rest.exhaustive, found.witnesses.isEmpty :: rest.unreachableCases,
      found.unreachables ++ rest.unreachables⟩

def checkMatchExprHasSelectorExhaustivenessAndReachability (fuel : ℕ) (selectorTy : Ty)
    (matchCases : List (MatchCase Ty)) : Option MatchReport :=
  checkMatchCases (findWitnesses T fuel) selectorTy ⟨[]⟩ matchCases

end Cangjie.PatternUsefulness
