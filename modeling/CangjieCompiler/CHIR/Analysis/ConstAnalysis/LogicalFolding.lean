import CangjieCompiler.CHIR.Analysis.ConstAnalysis

/-!
# Folding of logical expressions

What the constant analysis records for a conjunction or a disjunction, compared with the Boolean
values that the operands can have at run time.  The conjunction is folded exactly.  The disjunction
is folded as a conjunction when both operands are known, which shows when they differ.
-/

namespace Cangjie.CHIR.ConstAnalysis

variable {φ : Type} {state : ConstDomain φ} {expr : BinaryExpressionBase}

/-- The values of Boolean variables at run time. -/
abbrev BoolEnv := Value → Bool

def IsLogicalOperator (kind : BinaryExprKind) : Prop := kind = .AND ∨ kind = .OR

instance (kind : BinaryExprKind) : Decidable (IsLogicalOperator kind) :=
  inferInstanceAs (Decidable (_ ∨ _))

/-- The value of a conjunction or of a disjunction. -/
def combined (conj l r : Bool) : Bool := if conj then l && r else l || r

/-- The value of a logical expression. -/
def logicalResult (expr : BinaryExpressionBase) (env : BoolEnv) : Bool :=
  combined (expr.opKind == .AND) (env expr.lhs) (env expr.rhs)

/-- A Boolean agrees with what is known about it. -/
def Agrees (known : Option Bool) (b : Bool) : Prop := known = none ∨ known = some b

instance (known : Option Bool) (b : Bool) : Decidable (Agrees known b) :=
  inferInstanceAs (Decidable (_ ∨ _))

/-- The operands have values that agree with the state. -/
def OperandsAgree (state : ConstDomain φ) (expr : BinaryExpressionBase) (env : BoolEnv) : Prop :=
  Agrees (knownBool state expr.lhs) (env expr.lhs) ∧
    Agrees (knownBool state expr.rhs) (env expr.rhs)

/-- The result of an expression is folded exactly: a recorded constant is the value of the
expression in all environments that agree with the state, and a value that all of them give is
recorded. -/
structure FoldsLogical (state : ConstDomain φ) (expr : BinaryExpressionBase) : Prop where
  sound : ∀ c, (handleLogicalOp state expr).checkAbstractValue expr.result = some c →
    ∀ env, OperandsAgree state expr env → c = .BOOL (logicalResult expr env)
  complete : ∀ b, (∀ env, OperandsAgree state expr env → logicalResult expr env = b) →
    (handleLogicalOp state expr).checkAbstractValue expr.result = some (.BOOL b)

/-- A disjunction of two known operands that differ. -/
def MixedDisjunction (state : ConstDomain φ) (expr : BinaryExpressionBase) : Prop :=
  expr.opKind = .OR ∧ ∃ l r, knownBool state expr.lhs = some l ∧
    knownBool state expr.rhs = some r ∧ l ≠ r

/-! ## What is recorded -/

/-- The knowledge about the result, by the knowledge about the operands. -/
def foldedBool (conj : Bool) : Option Bool → Option Bool → Option Bool
  | some l, some r => some (l && r)
  | l, r => if l = some (!conj) ∨ r = some (!conj) then some (!conj) else none

/-- The state after an expression, by the knowledge about its result. -/
lemma handleLogicalOp_eq :
    handleLogicalOp state expr =
      match foldedBool (expr.opKind == .AND) (knownBool state expr.lhs)
        (knownBool state expr.rhs) with
      | some b => state.update expr.result (.BOOL b)
      | none => state.setToBound expr.result true := by
  unfold handleLogicalOp
  dsimp only
  by_cases hkind : expr.opKind = .AND
  · rw [if_pos hkind, hkind, beq_self_eq_true]
    rcases knownBool state expr.lhs with _ | _ | _ <;>
      rcases knownBool state expr.rhs with _ | _ | _ <;> rfl
  · rw [if_neg hkind, beq_false_of_ne hkind]
    rcases knownBool state expr.lhs with _ | _ | _ <;>
      rcases knownBool state expr.rhs with _ | _ | _ <;> rfl

/-- The result is the only value whose knowledge changes. -/
lemma checkAbstractValue_handleLogicalOp_of_ne {obj : Value} (h : expr.result ≠ obj) :
    (handleLogicalOp state expr).checkAbstractValue obj = state.checkAbstractValue obj := by
  rw [handleLogicalOp_eq]
  split
  · rw [ConstDomain.checkAbstractValue_update, if_neg h]
  · rw [ConstDomain.checkAbstractValue_setToBound, if_neg h]

lemma checkAbstractValue_handleLogicalOp :
    (handleLogicalOp state expr).checkAbstractValue expr.result =
      (foldedBool (expr.opKind == .AND) (knownBool state expr.lhs)
        (knownBool state expr.rhs)).map ConstValue.BOOL := by
  rw [handleLogicalOp_eq]
  split
  · next hfolded => rw [ConstDomain.checkAbstractValue_update, if_pos rfl, hfolded, Option.map_some]
  · next hfolded =>
    rw [ConstDomain.checkAbstractValue_setToBound, if_pos rfl, hfolded, Option.map_none]

/-! ## Exactness -/

/-- Two known operands that differ are combined wrongly unless they are joined by `AND`. -/
lemma foldedBool_sound :
    ∀ (conj : Bool) (known known' : Option Bool) (l r b : Bool),
      (conj = true ∨ known = none ∨ known' = none ∨ known = known') →
      Agrees known l → Agrees known' r → foldedBool conj known known' = some b →
        b = combined conj l r := by
  decide

/-- It is enough to look at the environments that give all unknown operands the same value. -/
lemma foldedBool_complete :
    ∀ (conj : Bool) (known known' : Option Bool) (b : Bool),
      (conj = true ∨ known = none ∨ known' = none ∨ known = known') →
      (∀ d, combined conj (known.getD d) (known'.getD d) = b) →
        foldedBool conj known known' = some b := by
  decide

lemma foldedBool_mixed :
    ∀ l r : Bool, l ≠ r → foldedBool false (some l) (some r) = some false ∧
      combined false l r = true := by
  decide

/-- An environment that agrees with the state and gives all other variables one value. -/
def chosenEnv (state : ConstDomain φ) (d : Bool) : BoolEnv := fun obj =>
  (knownBool state obj).getD d

lemma operandsAgree_chosenEnv (d : Bool) : OperandsAgree state expr (chosenEnv state d) := by
  have hagrees (known : Option Bool) : Agrees known (known.getD d) := by
    cases known with
    | none => exact Or.inl rfl
    | some b => exact Or.inr rfl
  exact ⟨hagrees _, hagrees _⟩

lemma not_mixedDisjunction_iff (hlogical : IsLogicalOperator expr.opKind) :
    ¬MixedDisjunction state expr ↔
      (expr.opKind == .AND) = true ∨ knownBool state expr.lhs = none ∨
        knownBool state expr.rhs = none ∨ knownBool state expr.lhs = knownBool state expr.rhs := by
  unfold MixedDisjunction
  rw [beq_iff_eq]
  constructor
  · intro hmixed
    rcases hlogical with hand | hor
    · exact Or.inl hand
    · cases hlhs : knownBool state expr.lhs with
      | none => exact Or.inr (Or.inl rfl)
      | some l =>
        cases hrhs : knownBool state expr.rhs with
        | none => exact Or.inr (Or.inr (Or.inl rfl))
        | some r =>
          have heq : l = r := not_not.mp fun hne => hmixed ⟨hor, l, r, hlhs, hrhs, hne⟩
          exact Or.inr (Or.inr (Or.inr (congrArg some heq)))
  · rintro hcases ⟨hor, l, r, hlhs, hrhs, hne⟩
    rw [hor, hlhs, hrhs] at hcases
    rcases hcases with hand | hnone | hnone | heq
    · exact BinaryExprKind.noConfusion hand
    · exact absurd hnone (Option.some_ne_none l)
    · exact absurd hnone (Option.some_ne_none r)
    · exact hne (Option.some.inj heq)

/-- A logical expression is folded exactly if and only if it is no disjunction of two known
operands that differ. -/
theorem foldsLogical_iff (hlogical : IsLogicalOperator expr.opKind) :
    FoldsLogical state expr ↔ ¬MixedDisjunction state expr := by
  constructor
  · rintro hfolds ⟨hor, l, r, hlhs, hrhs, hne⟩
    obtain ⟨hfolded, hvalue⟩ := foldedBool_mixed l r hne
    have hconj : (expr.opKind == BinaryExprKind.AND) = false := by rw [hor]; rfl
    have hrecorded : (handleLogicalOp state expr).checkAbstractValue expr.result =
        some (.BOOL false) := by
      rw [checkAbstractValue_handleLogicalOp, hconj, hlhs, hrhs, hfolded]
      rfl
    have hresult := hfolds.sound _ hrecorded (chosenEnv state true) (operandsAgree_chosenEnv true)
    rw [logicalResult, hconj, chosenEnv, chosenEnv, hlhs, hrhs, Option.getD_some, Option.getD_some,
      hvalue] at hresult
    exact Bool.false_ne_true (ConstValue.BOOL.inj hresult)
  · intro hmixed
    rw [not_mixedDisjunction_iff hlogical] at hmixed
    refine ⟨fun c hc env henv => ?_, fun b hb => ?_⟩
    · rw [checkAbstractValue_handleLogicalOp, Option.map_eq_some_iff] at hc
      obtain ⟨b, hb, rfl⟩ := hc
      exact congrArg _ (foldedBool_sound _ _ _ _ _ b hmixed henv.1 henv.2 hb)
    · have hfolded := foldedBool_complete _ _ _ b hmixed fun d =>
        hb (chosenEnv state d) (operandsAgree_chosenEnv d)
      rw [checkAbstractValue_handleLogicalOp, hfolded]
      rfl

end Cangjie.CHIR.ConstAnalysis
