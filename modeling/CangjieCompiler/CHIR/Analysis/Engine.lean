import CangjieCompiler.CHIR.Analysis.ValueAnalysis
import CangjieCompiler.Foundations.Worklist

/-!
# The engine

`IterateSingleUnitToFixpoint` over a body: the blocks that are reached from the entry block are
visited in topological order, and a block whose entry state is reported to change is visited again.

The transfer of a block is the effect of its expressions and of its terminator.  The states that
are put aside for lambdas are not read by the iteration and are left out.  `worklistSet` holds the
members of the worklist and is read off it.
-/

namespace Cangjie.CHIR

abbrev Block := ℕ

/-- The blocks of a body with their expressions, the last one being the terminator. -/
structure Body (ε : Type) where
  successors : Block → List Block
  unreachable : Block → Bool
  expressions : Block → List ε
  isLambda : ε → Bool
  isApplyToLambda : ε → Option ε

/-- The effects of an analysis, and its limit for `CheckInQueueTimes` if it has one. -/
structure Analysis (σ ε : Type) where
  preHandleLambdaExpression : σ → ε → σ
  handleVarStateCapturedByLambda : σ → ε → σ
  propagateExpressionEffect : σ → ε → σ
  propagateTerminatorEffect : σ → ε → σ × Option Block
  maxInQueueTimes : Option ℕ

namespace Body

variable {ε : Type} (g : Body ε)

def getReachableSuccessors (bb : Block) : List Block :=
  (g.successors bb).filter fun succ => !g.unreachable succ

/-! ## The order of the first visits -/

/-- The result, the visited blocks and the stack of `TopologicalSort`. -/
structure SortState where
  res : List Block
  visited : List Block
  visitStack : List (Block × List Block)

/-- The loops of `TopologicalSort`: the top of the stack takes its last successor, or leaves the
stack when it has none. -/
def sortLoop : ℕ → SortState → Option (List Block)
  | 0, _ => none
  | n + 1, s =>
    match s.visitStack with
    | [] => some s.res
    | (bb, successors) :: rest =>
      match successors.getLast? with
      | none => sortLoop n { s with res := bb :: s.res, visitStack := rest }
      | some lastSuc =>
        if lastSuc ∈ s.visited then
          sortLoop n { s with visitStack := (bb, successors.dropLast) :: rest }
        else
          sortLoop n
            { s with
              visited := lastSuc :: s.visited
              visitStack := (lastSuc, g.getReachableSuccessors lastSuc) ::
                (bb, successors.dropLast) :: rest }

def topologicalSort (fuel : ℕ) (entrybb : Block) : Option (List Block) :=
  if g.unreachable entrybb then some []
  else g.sortLoop fuel ⟨[], [entrybb], [(entrybb, g.getReachableSuccessors entrybb)]⟩

/-- A block of the stack is part of the result. -/
lemma mem_sortLoop {n : ℕ} {s : SortState} {res : List Block} {bb : Block}
    (hbb : bb ∈ s.res ∨ bb ∈ s.visitStack.map Prod.fst) (h : g.sortLoop n s = some res) :
    bb ∈ res := by
  induction n generalizing s with
  | zero => cases h
  | succ n ih =>
    unfold sortLoop at h
    rcases hstack : s.visitStack with _ | ⟨⟨top, successors⟩, rest⟩
    · rw [hstack] at h hbb
      obtain rfl := Option.some.inj h
      exact hbb.resolve_right List.not_mem_nil
    · rw [hstack, List.map_cons] at hbb
      rw [hstack] at h
      dsimp only at h
      split at h
      · refine ih ?_ h
        rcases hbb with hres | hmem
        · exact Or.inl (List.mem_cons_of_mem _ hres)
        · rcases List.mem_cons.mp hmem with rfl | hrest
          · exact Or.inl List.mem_cons_self
          · exact Or.inr hrest
      · split at h
        · refine ih ?_ h
          exact hbb
        · refine ih ?_ h
          exact hbb.imp_right fun hmem => List.mem_cons_of_mem _ hmem

lemma mem_topologicalSort {n : ℕ} {bb : Block} {res : List Block} (hbb : g.unreachable bb = false)
    (h : g.topologicalSort n bb = some res) : bb ∈ res := by
  unfold topologicalSort at h
  rw [hbb] at h
  exact g.mem_sortLoop (Or.inr List.mem_cons_self) h

/-! ## Transfer -/

section Transfer

variable {σ : Type} (A : Analysis σ ε)

/-- The variables captured by a lambda that an expression applies are given up. -/
def capturedEffect (state : σ) (exp : ε) : σ :=
  match g.isApplyToLambda exp with
  | some lambda => A.handleVarStateCapturedByLambda state lambda
  | none => state

def expressionEffect (state : σ) (exp : ε) : σ :=
  if g.isLambda exp then A.preHandleLambdaExpression state exp
  else A.propagateExpressionEffect (g.capturedEffect A state exp) exp

/-- The exit state of a block and the target chosen by its terminator; a block without expressions
has none. -/
def transfer (bb : Block) (state : σ) : Option (σ × Option Block) :=
  match (g.expressions bb).getLast? with
  | none => none
  | some terminator =>
    let state := (g.expressions bb).dropLast.foldl (g.expressionEffect A) state
    some (A.propagateTerminatorEffect (g.capturedEffect A state terminator) terminator)

/-- The blocks that the exit state is joined into. -/
def succs (bb : Block) : Option Block → List Block
  | some targetSucc => if g.unreachable targetSucc then [] else [targetSucc]
  | none => g.getReachableSuccessors bb

end Transfer

end Body

/-! ## The iteration -/

/-- How often each block was visited, and whether this visit exceeds the limit. -/
def checkInQueueTimes (limit : Option ℕ) (inqueueTimes : Block → ℕ) (bb : Block) :
    (Block → ℕ) × Bool :=
  match limit with
  | none => (inqueueTimes, false)
  | some limit =>
    (Function.update inqueueTimes bb (inqueueTimes bb + 1),
      inqueueTimes bb ≠ 0 && limit ≤ inqueueTimes bb + 1)

namespace Engine

variable {P V ε : Type} [StatePool P V] [AbstractValue V]

/-- The shared data: the identities of new references and objects, and the numbers of visits. -/
abbrev Shared := Pools × (Block → ℕ)

/-- The visit of a block up to the joins. -/
def flow (g : Body ε) (A : Analysis (State P) ε) (bb : Block) (shared : Shared)
    (state : State P) : Shared × Option (State P × List Block) :=
  if g.unreachable bb || state.isBottom then (shared, none)
  else
    match g.transfer A bb state with
    | none => (shared, none)
    | some (state, targetSucc) =>
      let (inqueueTimes, exceeded) := checkInQueueTimes A.maxInQueueTimes shared.2 bb
      if exceeded then
        ((shared.1, inqueueTimes), some (state.clearState, g.succs bb none))
      else ((shared.1, inqueueTimes), some (state, g.succs bb targetSucc))

def dataflow (g : Body ε) (A : Analysis (State P) ε) : Dataflow Block (State P) Shared where
  flow := flow g A
  join shared t rhs :=
    (State.join shared.1 t rhs).map fun (pools, t, changed) => ((pools, shared.2), t, changed)

/-- The entry states before the iteration. -/
def initialStates (entryBlock : Block) (init : State P) : Block → State P :=
  Function.update (fun _ => State.bottom) entryBlock init

/-- The configuration in which the iteration starts. -/
def start (g : Body ε) (fuel : ℕ) (entryBlock : Block) (init : State P) (shared : Shared) :
    Option (Dataflow.Config Block (State P) Shared) :=
  (g.topologicalSort fuel entryBlock).map fun worklist =>
    ⟨worklist, initialStates entryBlock init, shared⟩

/-- The entry states when the iteration ends, with the shared data. -/
def iterateSingleUnitToFixpoint (g : Body ε) (A : Analysis (State P) ε) (fuel : ℕ)
    (entryBlock : Block) (init : State P) (shared : Shared) :
    Option (Dataflow.Config Block (State P) Shared) :=
  (start g fuel entryBlock init shared).bind ((dataflow g A).run fuel)

/-- The pairs of states joined by the iteration. -/
def joinsOfIteration (g : Body ε) (A : Analysis (State P) ε) (fuel : ℕ) (entryBlock : Block)
    (init : State P) (shared : Shared) : List (State P × State P) :=
  ((start g fuel entryBlock init shared).map ((dataflow g A).pairsOfRun fuel)).getD []

end Engine

end Cangjie.CHIR
