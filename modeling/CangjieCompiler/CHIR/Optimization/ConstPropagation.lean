import CangjieCompiler.CHIR.Analysis.ConstAnalysis.LogicalFolding

/-!
# Propagation of Boolean constants

A function is a table of blocks.  The analysis has a state at the entry of every block that it has
reached, and such results are stable: what a block is entered with is known at the end of every
block that can go there.  The propagation replaces an operator expression whose result is known by
the constant, and a branch whose condition is known by a jump.

Only expressions on Boolean variables are kept apart; every other expression gives its result a
value that the inputs decide.  The simplifications that replace the uses of a result are left out.
-/

namespace Cangjie.CHIR.ConstPropagation

open ConstAnalysis

variable {φ : Type}

/-! ## Functions on Boolean variables -/

inductive Expression where
  | constant (result : Value) (val : Bool)
  | not (operand result : Value)
  | logical (expr : BinaryExpressionBase) (isLogical : IsLogicalOperator expr.opKind)
  | other (result : Value)

inductive Terminator where
  | exit
  | goto (block : ℕ)
  | branch (cond : Value) (trueBlock falseBlock : ℕ)

structure Block where
  expressions : List Expression
  terminator : Terminator

abbrev Function := ℕ → Block

/-- The environment after an expression. -/
def exec (inputs : BoolEnv) (env : BoolEnv) : Expression → BoolEnv
  | .constant result val => Function.update env result val
  | .not operand result => Function.update env result (!env operand)
  | .logical expr _ => Function.update env expr.result (logicalResult expr env)
  | .other result => Function.update env result (inputs result)

def execAll (inputs : BoolEnv) (env : BoolEnv) (es : List Expression) : BoolEnv :=
  es.foldl (exec inputs) env

/-- The block that is executed next. -/
def next (env : BoolEnv) : Terminator → Option ℕ
  | .exit => none
  | .goto block => some block
  | .branch cond trueBlock falseBlock => some (if env cond then trueBlock else falseBlock)

/-- One block of a run; a run that has left the function stays where it is. -/
def step (f : Function) (inputs : BoolEnv) : Option ℕ × BoolEnv → Option ℕ × BoolEnv
  | (none, env) => (none, env)
  | (some b, env) =>
    let env' := execAll inputs env (f b).expressions
    (next env' (f b).terminator, env')

/-- A run of `n` blocks, with the inputs of each block. -/
def run (f : Function) (inputs : ℕ → BoolEnv) : ℕ → Option ℕ × BoolEnv → Option ℕ × BoolEnv
  | 0, c => c
  | n + 1, c => step f (inputs n) (run f inputs n c)

/-! ## The analysis and the propagation -/

/-- The transfer functions of the analysis. -/
def transfer (state : ConstDomain φ) : Expression → ConstDomain φ
  | .constant result val => state.update result (.BOOL val)
  | .not operand result =>
    match knownBool state operand with
    | some b => state.update result (.BOOL !b)
    | none => state.setToBound result true
  | .logical expr _ => handleLogicalOp state expr
  | .other result => state.setToBound result true

def transferAll (state : ConstDomain φ) (es : List Expression) : ConstDomain φ :=
  es.foldl transfer state

/-- The blocks that a terminator can go to, as far as the analysis knows. -/
def targets (state : ConstDomain φ) : Terminator → List ℕ
  | .exit => []
  | .goto block => [block]
  | .branch cond trueBlock falseBlock =>
    match knownBool state cond with
    | some b => [if b then trueBlock else falseBlock]
    | none => [trueBlock, falseBlock]

/-- The rewriting of one expression, with the state after it. -/
def visitExpression (state : ConstDomain φ) (e : Expression) : Expression :=
  match e with
  | .not _ result =>
    match knownBool (transfer state e) result with
    | some b => .constant result b
    | none => e
  | .logical expr _ =>
    match knownBool (transfer state e) expr.result with
    | some b => .constant expr.result b
    | none => e
  | e => e

def visitExpressions (state : ConstDomain φ) : List Expression → List Expression
  | [] => []
  | e :: es => visitExpression state e :: visitExpressions (transfer state e) es

def visitTerminator (state : ConstDomain φ) : Terminator → Terminator
  | .branch cond trueBlock falseBlock =>
    match knownBool state cond with
    | some b => .goto (if b then trueBlock else falseBlock)
    | none => .branch cond trueBlock falseBlock
  | t => t

/-- The function after the propagation; blocks that the analysis has not reached are kept. -/
def visitFunc (entry : ℕ → Option (ConstDomain φ)) (f : Function) : Function := fun b =>
  match entry b with
  | none => f b
  | some state =>
    ⟨visitExpressions state (f b).expressions,
      visitTerminator (transferAll state (f b).expressions) (f b).terminator⟩

/-! ## States that hold -/

/-- Everything the state knows holds in the environment. -/
def Describes (state : ConstDomain φ) (env : BoolEnv) : Prop :=
  ∀ obj b, knownBool state obj = some b → env obj = b

/-- No disjunction of the expressions has two known operands that differ. -/
def NoMixedDisjunction (state : ConstDomain φ) : List Expression → Prop
  | [] => True
  | e :: es =>
    (∀ expr isLogical, e = .logical expr isLogical → ¬MixedDisjunction state expr) ∧
      NoMixedDisjunction (transfer state e) es

/-- The results of the analysis: where a block can go, a state is known that knows no more than the
state at the end of the block. -/
def IsStable (entry : ℕ → Option (ConstDomain φ)) (f : Function) : Prop :=
  ∀ b state, entry b = some state →
    ∀ t ∈ targets (transferAll state (f b).expressions) (f b).terminator,
      ∃ state', entry t = some state' ∧
        ∀ obj v, knownBool state' obj = some v →
          knownBool (transferAll state (f b).expressions) obj = some v

lemma knownBool_update (state : ConstDomain φ) (dest obj : Value) (b : Bool) :
    knownBool (state.update dest (.BOOL b)) obj =
      if dest = obj then some b else knownBool state obj := by
  unfold knownBool
  rw [ConstDomain.checkAbstractValue_update]
  split_ifs <;> rfl

lemma knownBool_setToBound (state : ConstDomain φ) (dest obj : Value) (isTop : Bool) :
    knownBool (state.setToBound dest isTop) obj =
      if dest = obj then none else knownBool state obj := by
  unfold knownBool
  rw [ConstDomain.checkAbstractValue_setToBound]
  split_ifs <;> rfl

lemma Describes.update {state : ConstDomain φ} {env : BoolEnv} (h : Describes state env)
    (dest : Value) (b : Bool) :
    Describes (state.update dest (.BOOL b)) (Function.update env dest b) := by
  intro obj c hc
  rw [knownBool_update] at hc
  split_ifs at hc with hkey
  · subst hkey
    rw [Function.update_self]
    exact Option.some.inj hc
  · rw [Function.update_of_ne (Ne.symm hkey)]
    exact h obj c hc

lemma Describes.setToBound {state : ConstDomain φ} {env : BoolEnv} (h : Describes state env)
    (dest : Value) (isTop b : Bool) :
    Describes (state.setToBound dest isTop) (Function.update env dest b) := by
  intro obj c hc
  rw [knownBool_setToBound] at hc
  split_ifs at hc with hkey
  rw [Function.update_of_ne (Ne.symm hkey)]
  exact h obj c hc

lemma Describes.operandsAgree {state : ConstDomain φ} {env : BoolEnv} (h : Describes state env)
    (expr : BinaryExpressionBase) : OperandsAgree state expr env := by
  have hagrees (obj : Value) : Agrees (knownBool state obj) (env obj) := by
    cases hknown : knownBool state obj with
    | none => exact Or.inl rfl
    | some b => exact Or.inr (congrArg some (h obj b hknown).symm)
  exact ⟨hagrees _, hagrees _⟩

/-- A constant recorded for a disjunction or a conjunction is its value. -/
lemma logicalResult_of_recorded {state : ConstDomain φ} {env : BoolEnv} (h : Describes state env)
    {expr : BinaryExpressionBase} (isLogical : IsLogicalOperator expr.opKind)
    (hmixed : ¬MixedDisjunction state expr) {b : Bool}
    (hb : knownBool (handleLogicalOp state expr) expr.result = some b) :
    logicalResult expr env = b := by
  have hfolds := (foldsLogical_iff isLogical).mpr hmixed
  unfold knownBool at hb
  split at hb
  · next val hval =>
    have hvalue := hfolds.sound _ hval env (h.operandsAgree expr)
    rw [← ConstValue.BOOL.inj hvalue]
    exact Option.some.inj hb
  · exact absurd hb (by simp)

/-! ## One expression -/

/-- The state after an expression describes the environment after it. -/
lemma Describes.transfer {state : ConstDomain φ} {env : BoolEnv} (h : Describes state env)
    (inputs : BoolEnv) {e : Expression}
    (hmixed : ∀ expr isLogical, e = .logical expr isLogical → ¬MixedDisjunction state expr) :
    Describes (transfer state e) (exec inputs env e) := by
  cases e with
  | constant result val => exact h.update result val
  | other result => exact h.setToBound result true (inputs result)
  | not operand result =>
    dsimp only [ConstPropagation.transfer, exec]
    cases hknown : knownBool state operand with
    | some b =>
      rw [h operand b hknown]
      exact h.update result (!b)
    | none => exact h.setToBound result true _
  | logical expr isLogical =>
    dsimp only [ConstPropagation.transfer, exec]
    have hresult {b : Bool} := logicalResult_of_recorded (b := b) h isLogical
      (hmixed expr isLogical rfl)
    rw [handleLogicalOp_eq] at hresult ⊢
    split at hresult
    · next b _ =>
      rw [hresult (by rw [knownBool_update, if_pos rfl])]
      exact h.update expr.result b
    · exact h.setToBound expr.result true _

/-- A rewritten expression has the effect of the old one. -/
lemma exec_visitExpression {state : ConstDomain φ} {env : BoolEnv} (h : Describes state env)
    (inputs : BoolEnv) {e : Expression}
    (hmixed : ∀ expr isLogical, e = .logical expr isLogical → ¬MixedDisjunction state expr) :
    exec inputs env (visitExpression state e) = exec inputs env e := by
  have hafter := h.transfer inputs hmixed
  cases e with
  | constant result val => rfl
  | other result => rfl
  | not operand result =>
    dsimp only [visitExpression]
    split
    · next b hb =>
      have hvalue := hafter result b hb
      dsimp only [exec] at hvalue ⊢
      rw [Function.update_self] at hvalue
      rw [hvalue]
    · rfl
  | logical expr isLogical =>
    dsimp only [visitExpression]
    split
    · next b hb =>
      have hvalue := hafter expr.result b hb
      dsimp only [exec] at hvalue ⊢
      rw [Function.update_self] at hvalue
      rw [hvalue]
    · rfl

/-! ## Blocks and runs -/

lemma execAll_visitExpressions (inputs : BoolEnv) {es : List Expression} {state : ConstDomain φ}
    {env : BoolEnv} (h : Describes state env) (hmixed : NoMixedDisjunction state es) :
    execAll inputs env (visitExpressions state es) = execAll inputs env es ∧
      Describes (transferAll state es) (execAll inputs env es) := by
  induction es generalizing state env with
  | nil => exact ⟨rfl, h⟩
  | cons e es ih =>
    obtain ⟨hhead, htail⟩ := hmixed
    have hrest := ih (h.transfer inputs hhead) htail
    refine ⟨?_, hrest.2⟩
    rw [visitExpressions]
    dsimp only [execAll, List.foldl_cons]
    rw [exec_visitExpression h inputs hhead]
    exact hrest.1

lemma next_visitTerminator {state : ConstDomain φ} {env : BoolEnv} (h : Describes state env)
    (t : Terminator) : next env (visitTerminator state t) = next env t := by
  cases t with
  | exit => rfl
  | goto block => rfl
  | branch cond trueBlock falseBlock =>
    dsimp only [visitTerminator]
    split
    · next b hb =>
      dsimp only [next]
      rw [h cond b hb]
    · rfl

lemma mem_targets_of_next {state : ConstDomain φ} {env : BoolEnv} (h : Describes state env)
    {t : Terminator} {b : ℕ} (hnext : next env t = some b) : b ∈ targets state t := by
  cases t with
  | exit => exact absurd hnext (by simp [next])
  | goto block =>
    obtain rfl := Option.some.inj hnext
    exact List.mem_singleton_self _
  | branch cond trueBlock falseBlock =>
    obtain rfl := Option.some.inj hnext
    dsimp only [targets]
    split
    · next b hb =>
      rw [h cond b hb]
      exact List.mem_singleton_self _
    · split_ifs <;> simp

/-- Where a run stands, the state at the entry of the block describes the environment. -/
def Reached (entry : ℕ → Option (ConstDomain φ)) (c : Option ℕ × BoolEnv) : Prop :=
  ∀ b, c.1 = some b → ∃ state, entry b = some state ∧ Describes state c.2

/-- One block of the rewritten function does what the block does, and goes where the analysis has
been. -/
lemma step_visitFunc {entry : ℕ → Option (ConstDomain φ)} {f : Function}
    (hstable : IsStable entry f)
    (hmixed : ∀ b state, entry b = some state → NoMixedDisjunction state (f b).expressions)
    (inputs : BoolEnv) {c : Option ℕ × BoolEnv} (hc : Reached entry c) :
    step (visitFunc entry f) inputs c = step f inputs c ∧ Reached entry (step f inputs c) := by
  obtain ⟨_ | b, env⟩ := c
  · exact ⟨rfl, fun b hb => absurd hb (by simp [step])⟩
  · obtain ⟨state, hentry, hdescribes⟩ := hc b rfl
    obtain ⟨hexec, hafter⟩ :=
      execAll_visitExpressions inputs hdescribes (hmixed b state hentry)
    constructor
    · dsimp only [step, visitFunc]
      rw [hentry]
      dsimp only
      rw [hexec, next_visitTerminator hafter]
    · intro t ht
      obtain ⟨state', hentry', hknows⟩ :=
        hstable b state hentry t (mem_targets_of_next hafter ht)
      exact ⟨state', hentry', fun obj v hv => hafter obj v (hknows obj v hv)⟩

/-- The rewritten function has the runs of the function. -/
theorem run_visitFunc {entry : ℕ → Option (ConstDomain φ)} {f : Function}
    (hstable : IsStable entry f)
    (hmixed : ∀ b state, entry b = some state → NoMixedDisjunction state (f b).expressions)
    (inputs : ℕ → BoolEnv) (n : ℕ) {c : Option ℕ × BoolEnv} (hc : Reached entry c) :
    run (visitFunc entry f) inputs n c = run f inputs n c := by
  have hruns : run (visitFunc entry f) inputs n c = run f inputs n c ∧
      Reached entry (run f inputs n c) := by
    induction n with
    | zero => exact ⟨rfl, hc⟩
    | succ n ih =>
      obtain ⟨hstep, hreached⟩ := step_visitFunc hstable hmixed (inputs n) ih.2
      refine ⟨?_, hreached⟩
      rw [run, ih.1]
      exact hstep
  exact hruns.1

/-! ## When the propagation may replace logical expressions -/

/-- A logical expression is folded exactly if and only if it is no disjunction of two known operands
that differ.  A function without such disjunctions keeps its runs under the propagation. -/
theorem logicalFolding_iff :
    (∀ (state : ConstDomain φ) (expr : BinaryExpressionBase), IsLogicalOperator expr.opKind →
      (FoldsLogical state expr ↔ ¬MixedDisjunction state expr)) ∧
    ∀ (entry : ℕ → Option (ConstDomain φ)) (f : Function), IsStable entry f →
      (∀ b state, entry b = some state → NoMixedDisjunction state (f b).expressions) →
      ∀ c, Reached entry c → ∀ inputs n,
        run (visitFunc entry f) inputs n c = run f inputs n c :=
  ⟨fun _ _ hlogical => foldsLogical_iff hlogical,
    fun _ _ hstable hmixed _ hc inputs n => run_visitFunc hstable hmixed inputs n hc⟩

/-- The disjunction of the variables 0 and 1. -/
def sampleDisjunction : BinaryExpressionBase := ⟨.OR, 0, 1, 2, .NA⟩

/-- Two constants and their disjunction. -/
def sampleFunction : Function := fun _ =>
  ⟨[.constant 0 true, .constant 1 false, .logical sampleDisjunction (by decide)], .exit⟩

/-- The disjunction of true and false is folded to false, and the propagation changes the value of
its result. -/
theorem sampleDisjunction_misfolded :
    (¬ ∀ (state : ConstDomain Unit) (expr : BinaryExpressionBase),
      IsLogicalOperator expr.opKind → FoldsLogical state expr) ∧
    (run sampleFunction (fun _ _ => false) 1 (some 0, fun _ => false)).2 2 = true ∧
    (run (visitFunc (fun _ => some (⟨OrderedMap.empty⟩ : ConstDomain Unit)) sampleFunction)
      (fun _ _ => false) 1 (some 0, fun _ => false)).2 2 = false := by
  refine ⟨fun hfolds => ?_, by decide, by decide⟩
  let known : ConstDomain Unit :=
    ((⟨OrderedMap.empty⟩ : ConstDomain Unit).update 0 (.BOOL true)).update 1 (.BOOL false)
  have hrecorded : (handleLogicalOp known sampleDisjunction).checkAbstractValue 2 =
      some (.BOOL false) := by decide
  have hagrees : OperandsAgree known sampleDisjunction (fun obj => obj == 0) := by
    refine ⟨?_, ?_⟩ <;> decide
  have hvalue := (hfolds known sampleDisjunction (by decide)).sound _ hrecorded _ hagrees
  exact absurd hvalue (by decide)

end Cangjie.CHIR.ConstPropagation
