import CangjieCompiler.CHIR.Analysis.Engine
import CangjieCompiler.CHIR.Analysis.StateJoin

/-!
# The entry states after an iteration

When the iteration ends, the exit state of a reached block changes nothing in the entry states of
its targets.  For the full pool this holds of every run, for the active pool of every run whose
joins are `Quiet`.
-/

namespace Cangjie.CHIR.Engine

variable {P V ε : Type} [StatePool P V] [AbstractValue V]

/-- A reached block asks for its exit state at the successors chosen by its terminator. -/
def Demands (g : Body ε) (A : Analysis (State P) ε) (bb : Block) (state exit : State P)
    (succ : Block) : Prop :=
  g.unreachable bb = false ∧ state.isBottom = false ∧
    ∃ target, g.transfer A bb state = some (exit, target) ∧
      succ ∈ g.succs bb target ∧ succ ∈ g.successors bb

/-- The exit states of the reached blocks, computed from the entry states, change nothing when they
are joined into the entry states of the chosen successors. -/
def PostFixpoint (g : Body ε) (A : Analysis (State P) ε) (entryStates : Block → State P) : Prop :=
  ∀ bb exit succ, Demands g A bb (entryStates bb) exit succ →
    ∀ pools, ∃ changed, State.join pools (entryStates succ) exit =
      some (pools, entryStates succ, changed)

/-! ## The flow -/

lemma mem_succs_none {g : Body ε} {bb succ : Block} {target : Option Block}
    (h : succ ∈ g.succs bb target) (hsucc : succ ∈ g.successors bb) :
    succ ∈ g.succs bb none := by
  refine List.mem_filter.mpr ⟨hsucc, ?_⟩
  cases target with
  | none => exact (List.mem_filter.mp h).2
  | some t =>
    unfold Body.succs at h
    dsimp only at h
    cases ht : g.unreachable t with
    | true =>
      rw [ht] at h
      exact absurd h List.not_mem_nil
    | false =>
      rw [ht] at h
      rw [List.mem_singleton.mp h, ht]
      rfl

/-- The flow joins into each chosen successor the exit state or the cleared exit state. -/
lemma meets (g : Body ε) (A : Analysis (State P) ε) {C : P → P → Prop}
    (hclear : ∀ p q, C p (StatePool.clear q) → C p q) :
    (dataflow g A).Meets (State.Covers C) (Demands g A) := by
  rintro bb ⟨pools, times⟩ state exit succ ⟨hbb, hstate, target, htransfer, hmem, hsucc⟩
  rcases hcheck : checkInQueueTimes A.maxInQueueTimes times bb with ⟨times', exceeded⟩
  have hflow : (dataflow g A).flow bb (pools, times) state =
      if exceeded then ((pools, times'), some (exit.clearState, g.succs bb none))
      else ((pools, times'), some (exit, g.succs bb target)) := by
    dsimp only [dataflow, flow]
    rw [if_neg (by simp [hbb, hstate]), htransfer]
    dsimp only
    rw [hcheck]
  cases exceeded with
  | false => exact ⟨_, _, _, hflow, hmem, fun _ hx => hx⟩
  | true =>
    refine ⟨_, _, _, hflow, mem_succs_none hmem hsucc, fun x hx hreach => ?_⟩
    obtain ⟨hx₁, hx₂, hx₃⟩ := hx hreach
    exact ⟨hx₁, hclear _ _ hx₂, hx₃⟩

lemma full_covers_of_clear {p q : FullStatePool V}
    (h : p.Covers (StatePool.clear q)) : p.Covers q := by
  intro e he
  obtain ⟨d, hfind, habs⟩ := h (e.1, e.2.clear) (List.mem_map_of_mem he)
  exact ⟨d, hfind, ValueDomain.absorbs_clear habs⟩

lemma active_covers_of_clear {p q : ActiveStatePool V}
    (h : p.Covers (StatePool.clear q)) : p.Covers q := by
  refine ⟨h.refsTop, fun e he => ?_⟩
  rcases h.accepts (e.1, e.2.clear) (List.mem_map_of_mem he) with ⟨d, hfind, habs⟩ | ⟨hnone, href⟩
  · exact Or.inl ⟨d, hfind, ValueDomain.absorbs_clear habs⟩
  · exact Or.inr ⟨hnone, (ValueDomain.isRef_clear e.2).symm.trans href⟩

/-! ## The runs -/

/-- The laws of a join for the pairs of states that it is asked of. -/
lemma steady {Within : ℕ → P → Prop} {C : P → P → Prop} (hC : State.MergeStable Within C)
    {Pair : State P → State P → Prop} (hpair : ∀ t e, Pair t e → State.Joins Within C t e)
    (g : Body ε) (A : Analysis (State P) ε) : (dataflow g A).Steady (State.Covers C) Pair where
  reported {a a' s e s'} h hjoin := by
    obtain ⟨⟨pools, t, changed⟩, hsome, heq⟩ := Option.map_eq_some_iff.mp hjoin
    cases heq
    exact (State.join_spec hC (hpair s e h) hsome).1 rfl
  covers {a a' s e s' changed} h hjoin := by
    obtain ⟨⟨pools, t, changed⟩, hsome, heq⟩ := Option.map_eq_some_iff.mp hjoin
    cases heq
    exact (State.join_spec hC (hpair s e h) hsome).2.1
  keeps {a a' s e s' changed x} h hjoin hx := by
    obtain ⟨⟨pools, t, changed⟩, hsome, heq⟩ := Option.map_eq_some_iff.mp hjoin
    cases heq
    exact (State.join_spec hC (hpair s e h) hsome).2.2 x hx

omit [AbstractValue V] in
/-- At the start every block is on the worklist or has not been reached. -/
lemma satisfied_at_start {g : Body ε} {A : Analysis (State P) ε} {C : P → P → Prop} {fuel : ℕ}
    {entryBlock : Block} {init : State P} {shared : Shared}
    {c : Dataflow.Config Block (State P) Shared} (h : start g fuel entryBlock init shared = some c)
    (b : Block) :
    b ∈ c.worklist ∨ Dataflow.Satisfied (State.Covers C) (Demands g A) c.entry b := by
  obtain ⟨worklist, hsort, rfl⟩ := Option.map_eq_some_iff.mp h
  by_cases hb : b = entryBlock
  · subst hb
    cases hreach : g.unreachable b with
    | false => exact Or.inl (g.mem_topologicalSort hreach hsort)
    | true =>
      refine Or.inr fun e t hdemand => ?_
      exact absurd (hreach.symm.trans hdemand.1) (by simp)
  · refine Or.inr fun e t hdemand => ?_
    have hstate := hdemand.2.1
    dsimp only [initialStates] at hstate
    rw [Function.update_of_ne hb] at hstate
    exact absurd hstate (by simp [State.bottom, State.isBottom])

lemma postFixpoint_of_joins {Within : ℕ → P → Prop} {C : P → P → Prop}
    (hC : State.MergeStable Within C) (hsame : ∀ p q, C p q → (StatePool.join p q).1 = p)
    (hclear : ∀ p q, C p (StatePool.clear q) → C p q) {g : Body ε} {A : Analysis (State P) ε}
    {fuel : ℕ} {entryBlock : Block} {init : State P} {shared : Shared}
    {final : Dataflow.Config Block (State P) Shared}
    (hjoins : ∀ p ∈ joinsOfIteration g A fuel entryBlock init shared,
      State.Joins Within C p.1 p.2)
    (h : iterateSingleUnitToFixpoint g A fuel entryBlock init shared = some final) :
    PostFixpoint g A final.entry := by
  obtain ⟨c, hstart, hrun⟩ := Option.bind_eq_some_iff.mp h
  unfold joinsOfIteration at hjoins
  rw [hstart] at hjoins
  have hall := Dataflow.satisfied_of_run (steady hC (fun _ _ h => h) g A) (meets g A hclear)
    hjoins (satisfied_at_start hstart) hrun
  intro bb exit succ hdemand pools
  exact State.join_of_covers hsame (hall bb exit succ hdemand) pools

/-- With the full pool every iteration that ends yields a post-fixpoint, with the active pool every
one whose joins are quiet. -/
theorem postFixpoint_of_run [LawfulJoin V] (g : Body ε) (fuel : ℕ) (entryBlock : Block)
    (shared : Shared) :
    (∀ (A : Analysis (State (FullStatePool V)) ε) init final,
      iterateSingleUnitToFixpoint g A fuel entryBlock init shared = some final →
        PostFixpoint g A final.entry) ∧
    ∀ (A : Analysis (State (ActiveStatePool V)) ε) init final,
      (∀ p ∈ joinsOfIteration g A fuel entryBlock init shared, State.Quiet p.1 p.2) →
      iterateSingleUnitToFixpoint g A fuel entryBlock init shared = some final →
        PostFixpoint g A final.entry := by
  constructor
  · intro A init final h
    exact postFixpoint_of_joins State.mergeStable_full
      (fun _ _ => FullStatePool.join_of_covers) (fun _ _ => full_covers_of_clear)
      (fun p _ => State.joins_full p.1 p.2) h
  · intro A init final hquiet h
    exact postFixpoint_of_joins State.mergeStable_active
      (fun _ _ => ActiveStatePool.join_of_covers) (fun _ _ => active_covers_of_clear)
      (fun p hp => State.joins_active (hquiet p hp)) h

/-! ## A loop with a constant -/

/-- The expressions of the example: a definition of a constant, and a jump. -/
inductive ConstExpression where
  | define (dest : Value) (val : UInt64)
  | goTo

/-- Block 0 is followed by the loop of the blocks 1 and 2; one block defines the value 5. -/
def loopBody (defining : Block) : Body ConstExpression where
  successors bb := if bb = 1 then [2] else [1]
  unreachable _ := false
  expressions bb := if bb = defining then [.define 5 7, .goTo] else [.goTo]
  isLambda _ := false
  isApplyToLambda _ := none

/-- The constant analysis of the example over a pool with an operation that sets a value. -/
def constAnalysis (update : P → Value → ValueDomain (ConstValue UInt64) → P) :
    Analysis (State P) ConstExpression where
  preHandleLambdaExpression state _ := state
  handleVarStateCapturedByLambda state _ := state
  propagateExpressionEffect state exp :=
    match exp with
    | .define dest val =>
      { state with programState := update state.programState dest (.VAL (.UINT val)) }
    | .goTo => state
  propagateTerminatorEffect state _ := (state, none)
  maxInQueueTimes := none

def setFull (p : FullStatePool V) (k : Value) (d : ValueDomain V) : FullStatePool V :=
  ⟨(p.data.emplace k d).modify k fun _ => d⟩

def setActive (p : ActiveStatePool V) (k : Value) (d : ValueDomain V) : ActiveStatePool V :=
  (p.insert k d).modify k fun _ => d

/-- A reached state without values. -/
def reachedState : State P := ⟨true, StatePool.empty, OrderedMap.empty⟩

/-- The first reference and the first object are still to be made, and no block was visited. -/
def noVisits : Shared := (⟨1, 100⟩, fun _ => 0)

/-- The state after the definition. -/
def definedState : State (ActiveStatePool (ConstValue UInt64)) :=
  ⟨true, setActive StatePool.empty 5 (.VAL (.UINT 7)), OrderedMap.empty⟩

lemma refsTop_definedState : definedState.programState.RefsTop := by
  intro k d hd
  have hmem : (k, d) ∈ [((5 : Value), ValueDomain.VAL (ConstValue.UINT 7))] :=
    (OrderedMap.find?_eq_some_iff _).mp hd
  obtain ⟨-, rfl⟩ := Prod.mk.inj (List.mem_singleton.mp hmem)
  rfl

lemma quiet_definedState : State.Quiet definedState definedState where
  copied _ h := absurd h (by decide)
  reached _ _ k d hd := by
    have hmem : (k, d) ∈ [((5 : Value), ValueDomain.VAL (ConstValue.UINT 7))] :=
      (OrderedMap.find?_eq_some_iff _).mp (hd.elim id id)
    obtain ⟨-, rfl⟩ := Prod.mk.inj (List.mem_singleton.mp hmem)
    simp
  room _ _ := by decide
  seen _ _ := by
    refine Or.inr ⟨refsTop_definedState, fun x hx hnone => ?_⟩
    rw [(OrderedMap.find?_eq_some_iff _).mpr hx] at hnone
    exact absurd hnone (by simp)

lemma quiet_bottom_definedState : State.Quiet State.bottom definedState where
  copied _ _ := refsTop_definedState
  reached _ h := absurd h (by decide)
  room _ h := absurd h (by decide)
  seen _ h := absurd h (by decide)

/-- The loop with the full pool, and with the active pool when block 0 defines the value. -/
theorem postFixpoint_of_run_loop :
    (∃ final, iterateSingleUnitToFixpoint (loopBody 2)
        (constAnalysis (P := FullStatePool (ConstValue UInt64)) setFull) 10 0 reachedState
        noVisits = some final ∧
      PostFixpoint (loopBody 2) (constAnalysis setFull) final.entry) ∧
    ∃ final, iterateSingleUnitToFixpoint (loopBody 0)
        (constAnalysis (P := ActiveStatePool (ConstValue UInt64)) setActive) 10 0 reachedState
        noVisits = some final ∧
      PostFixpoint (loopBody 0) (constAnalysis setActive) final.entry := by
  constructor
  · exact ⟨_, rfl, (postFixpoint_of_run (loopBody 2) 10 0 noVisits).1
      (constAnalysis setFull) reachedState _ rfl⟩
  · have hjoins : joinsOfIteration (loopBody 0) (constAnalysis setActive) 10 0 reachedState
        noVisits = [(State.bottom, definedState), (State.bottom, definedState),
          (definedState, definedState)] := rfl
    refine ⟨_, rfl, (postFixpoint_of_run (loopBody 0) 10 0 noVisits).2
      (constAnalysis setActive) reachedState _ (fun p hp => ?_) rfl⟩
    rw [hjoins] at hp
    simp only [List.mem_cons, List.not_mem_nil, or_false] at hp
    rcases hp with rfl | rfl | rfl
    · exact quiet_bottom_definedState
    · exact quiet_bottom_definedState
    · exact quiet_definedState

/-- With the active pool a definition in block 2 is joined into block 1, which is not visited
again, and is missing from the entry state of block 2. -/
theorem loop_not_postFixpoint :
    ∃ final, iterateSingleUnitToFixpoint (loopBody 2)
        (constAnalysis (P := ActiveStatePool (ConstValue UInt64)) setActive) 10 0 reachedState
        noVisits = some final ∧
      ¬PostFixpoint (loopBody 2) (constAnalysis setActive) final.entry := by
  refine ⟨_, rfl, fun hpost => ?_⟩
  obtain ⟨changed, hjoin⟩ := hpost 1 _ 2 ⟨rfl, rfl, none, rfl, by decide, by decide⟩ ⟨1, 100⟩
  have hvalue : some (some (ValueDomain.VAL (ConstValue.UINT 7))) = some none :=
    congrArg (Option.map fun r : Pools × State (ActiveStatePool (ConstValue UInt64)) × Bool =>
      r.2.1.programState.data.find? 5) hjoin
  exact absurd hvalue (by simp)

end Cangjie.CHIR.Engine
