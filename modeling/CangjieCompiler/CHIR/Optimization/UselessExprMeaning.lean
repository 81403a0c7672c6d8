import CangjieCompiler.CHIR.Optimization.UselessExpr
import Mathlib.Logic.Function.Basic

/-!
# Meaning of the elimination of useless expressions

A function runs block by block.  The evaluation of an expression reads the results of its operands
and, for a lambda, those that its body captures; it goes on with a result, goes to another block or
leaves the function.  Without its useless expressions a function runs as it did, from every block
and in every world, provided that no marked expression fails for another reason than overflow.
-/

namespace Cangjie.CHIR.UselessExpr

variable {ε δ ω : Type}

/-! ## Runs -/

/-- How an evaluation ends. -/
inductive Outcome (δ : Type)
  | next (result : Option δ)
  | goTo (block : ℕ)
  | leave (value : Option δ)

/-- The results that the evaluation of an expression can read. -/
def Reads (body : FuncBody ε) (e o : ε) : Prop :=
  o ∈ (body.expr e).locals ∨ ∃ x ∈ body.nested e, o ∈ (body.expr x).locals

/-- The evaluations of expressions in a world, where an expression that has no effect goes on in
the same world.  To go to another block or to leave the function is an effect. -/
structure Semantics {body : FuncBody ε} (v : Evaluation body) (δ ω : Type) where
  evaluate : ε → (ε → Option δ) → ω → Outcome δ × ω
  reads : ∀ e results results' w, (∀ o, Reads body e o → results o = results' o) →
    evaluate e results w = evaluate e results' w
  no_effect : ∀ e, ¬ v.Effectful e → ∀ results w, ∃ d, evaluate e results w = (.next d, w)

namespace Semantics

variable [DecidableEq ε] {body : FuncBody ε} {v : Evaluation body} (sem : Semantics v δ ω)

/-- The run of the expressions of a block, from the results so far and the world. -/
def runExpressions : List ε → (ε → Option δ) → ω → Outcome δ × (ε → Option δ) × ω
  | [], results, w => (.next none, results, w)
  | e :: es, results, w =>
    match sem.evaluate e results w with
    | (.next d, w) => runExpressions es (Function.update results e d) w
    | (.goTo block, w) => (.goTo block, results, w)
    | (.leave value, w) => (.leave value, results, w)

/-- The run of a function from a block on: the value that it leaves with and the world then.  The
end of a block without a terminator is not passed. -/
def run (blocks : List (List ε)) : ℕ → ℕ → (ε → Option δ) → ω → Option (Option δ × ω)
  | 0, _, _, _ => none
  | n + 1, block, results, w =>
    match sem.runExpressions (blocks.getD block []) results w with
    | (.next _, _, _) => none
    | (.goTo target, results, w) => run blocks n target results w
    | (.leave value, _, w) => some (value, w)

end Semantics

/-! ## What is left of the blocks -/

section Elimination

variable [DecidableEq ε] {body : FuncBody ε} {s : Elimination ε} {e : ε}

lemma removeSelfFromBlock_filter (blocks : List (List ε)) (removed : List ε) (e : ε) :
    removeSelfFromBlock (blocks.map fun block => block.filter fun x => x ∉ removed) e =
      blocks.map fun block => block.filter fun x => x ∉ removed ++ [e] := by
  rw [removeSelfFromBlock, List.map_map]
  refine List.map_congr_left fun block _ => ?_
  rw [Function.comp_apply, List.filter_filter]
  refine List.filter_congr fun x _ => ?_
  rw [← Bool.decide_and, decide_eq_decide, List.mem_append, List.mem_singleton, not_or]
  exact and_comm

/-- The blocks are left without the expressions that were removed. -/
lemma Reached.blocks_eq (h : Reached body s) :
    s.blocks = body.blocks.map fun block => block.filter fun x => x ∉ s.removed := by
  induction h with
  | refl =>
    have hall : ∀ block ∈ body.blocks,
        (block.filter fun x => x ∉ (start body).removed) = id block := fun block _ =>
      List.filter_eq_self.mpr fun x _ => decide_eq_true List.not_mem_nil
    exact ((List.map_congr_left hall).trans (List.map_id _)).symm
  | tail hreached hstep ih =>
    obtain ⟨e, rest, hs⟩ := exists_worklist hstep
    obtain ⟨s₁, hs₁, hblocks, hremoved, -⟩ := (Reached.inv hreached).step_eq hs
    obtain rfl := Option.some.inj (hs₁.symm.trans hstep)
    rw [hblocks, hremoved, ih, removeSelfFromBlock_filter]

lemma Reached.mem_blocks (h : Reached body s) (he : e ∈ body.blocks.flatten)
    (hkept : e ∉ s.removed) : e ∈ s.blocks.flatten := by
  obtain ⟨block, hblock, hmem⟩ := List.mem_flatten.mp he
  rw [h.blocks_eq]
  refine List.mem_flatten.mpr ⟨_, List.mem_map_of_mem hblock, ?_⟩
  exact List.mem_filter.mpr ⟨hmem, decide_eq_true hkept⟩

/-- What was removed is not nested in what is left either. -/
lemma Reached.not_present (h : Reached body s) (hdirect : e ∈ body.blocks.flatten)
    (he : e ∈ s.removed) : e ∉ present body.nested s.blocks := by
  intro hpresent
  rcases mem_present.mp hpresent with hleft | ⟨e', he', hnested⟩
  · exact h.inv.gone e he hleft
  · exact body.nested_not_direct e' (h.inv.direct he') e hnested hdirect

/-! ## The runs with and without what is removed -/

variable {v : Evaluation body} {sem : Semantics v δ ω} {results results' : ε → Option δ}

/-- The results of what is left are the same. -/
def Agree (body : FuncBody ε) (blocks : List (List ε)) (results results' : ε → Option δ) : Prop :=
  ∀ o ∈ present body.nested blocks, results o = results' o

lemma Agree.update (h : Agree body s.blocks results results') (e : ε) (d : Option δ) :
    Agree body s.blocks (Function.update results e d) (Function.update results' e d) := by
  intro o ho
  by_cases hoe : o = e
  · rw [hoe, Function.update_self, Function.update_self]
  · rw [Function.update_of_ne hoe, Function.update_of_ne hoe]
    exact h o ho

lemma Agree.update_removed (h : Agree body s.blocks results results')
    (he : e ∉ present body.nested s.blocks) (d : Option δ) :
    Agree body s.blocks (Function.update results e d) results' := by
  intro o ho
  have hoe : o ≠ e := by
    rintro rfl
    exact he ho
  rw [Function.update_of_ne hoe]
  exact h o ho

/-- What is left reads only results of what is left. -/
lemma Agree.evaluate_eq (hreached : Reached body s) (h : Agree body s.blocks results results')
    (he : e ∈ s.blocks.flatten) (w : ω) :
    sem.evaluate e results w = sem.evaluate e results' w := by
  refine sem.reads e results results' w fun o ho => h o ?_
  rcases ho with hlocal | ⟨x, hx, hlocal⟩
  · exact hreached.inv.closed e (mem_present.mpr (.inl he)) o hlocal
  · exact hreached.inv.closed x (mem_present.mpr (.inr ⟨e, he, hx⟩)) o hlocal

lemma runExpressions_filter (hreached : Reached body s)
    (hpure : ∀ e ∈ s.removed, ¬ v.Effectful e) {es : List ε} (hes : es ⊆ body.blocks.flatten)
    (h : Agree body s.blocks results results') (w : ω) :
    ∃ out results₁ results₁' w', sem.runExpressions es results w = (out, results₁, w') ∧
      sem.runExpressions (es.filter fun x => x ∉ s.removed) results' w = (out, results₁', w') ∧
      Agree body s.blocks results₁ results₁' := by
  induction es generalizing results results' w with
  | nil => exact ⟨_, _, _, _, rfl, rfl, h⟩
  | cons e es ih =>
    have hdirect : e ∈ body.blocks.flatten := hes List.mem_cons_self
    have htail : es ⊆ body.blocks.flatten := fun x hx => hes (List.mem_cons_of_mem e hx)
    by_cases he : e ∈ s.removed
    · obtain ⟨d, hd⟩ := sem.no_effect e (hpure e he) results w
      rw [List.filter_cons_of_neg (by rwa [decide_eq_true_eq, not_not])]
      rw [Semantics.runExpressions, hd]
      exact ih htail (h.update_removed (hreached.not_present hdirect he) d) w
    · rw [List.filter_cons_of_pos (by rwa [decide_eq_true_eq])]
      rw [Semantics.runExpressions, Semantics.runExpressions,
        h.evaluate_eq hreached (hreached.mem_blocks hdirect he) w]
      rcases sem.evaluate e results' w with ⟨d | block | value, w'⟩
      · exact ih htail (h.update e d) w'
      · exact ⟨_, _, _, _, rfl, rfl, h⟩
      · exact ⟨_, _, _, _, rfl, rfl, h⟩

omit [DecidableEq ε] in
lemma getD_subset_flatten (blocks : List (List ε)) (block : ℕ) :
    blocks.getD block [] ⊆ blocks.flatten := by
  intro x hx
  rw [List.getD_eq_getElem?_getD] at hx
  cases hblock : blocks[block]? with
  | none =>
    rw [hblock] at hx
    exact absurd hx List.not_mem_nil
  | some es =>
    rw [hblock] at hx
    exact List.mem_flatten.mpr ⟨es, List.mem_of_getElem? hblock, hx⟩

lemma run_eq_of_agree (hreached : Reached body s) (hpure : ∀ e ∈ s.removed, ¬ v.Effectful e)
    (n block : ℕ) (h : Agree body s.blocks results results') (w : ω) :
    sem.run body.blocks n block results w = sem.run s.blocks n block results' w := by
  induction n generalizing block results results' w with
  | zero => rfl
  | succ n ih =>
    have hleft : s.blocks.getD block [] =
        (body.blocks.getD block []).filter fun x => x ∉ s.removed := by
      rw [hreached.blocks_eq, List.getD_eq_getElem?_getD, List.getD_eq_getElem?_getD,
        List.getElem?_map]
      cases body.blocks[block]? <;> rfl
    obtain ⟨out, results₁, results₁', w', hwhole, hrest, hagree⟩ :=
      runExpressions_filter hreached hpure (getD_subset_flatten body.blocks block) h w
    rw [Semantics.run, Semantics.run, hleft, hwhole, hrest]
    cases out with
    | next d => rfl
    | goTo target => exact ih target hagree w'
    | leave value => rfl

lemma not_terminator_of_useless {blocks : List (List ε)}
    (h : checkUselessExpr body blocks e false = true) :
    (body.expr e).kind.majorKind ≠ .TERMINATOR := by
  intro hterminator
  simp only [checkUselessExpr, hterminator, Bool.and_false, Bool.false_eq_true, if_false,
    if_true] at h
  split_ifs at h

/-- The state in which the elimination ends is one that it passes through. -/
lemma reached_of_eliminated {fuel : ℕ} (h : uselessExprEliminationForFunc body fuel = some s) :
    Reached body s := by
  have hkeeps : ∀ s s', Reached body s → s.worklist.isEmpty = false → step body s = some s' →
      Reached body s' := fun s s' hreached _ hstep => hreached.tail hstep
  exact (DrainLoop.drain_keeps hkeeps Relation.ReflTransGen.refl h).1

end Elimination

/-- The elimination ends, and the function runs without what is removed as it does with it, if no
marked expression but a terminator fails for another reason than overflow. -/
theorem run_uselessExprEliminationForFunc [DecidableEq ε] {body : FuncBody ε}
    {v : Evaluation body} (sem : Semantics v δ ω)
    (hmarks : ∀ e ∈ body.blocks.flatten, (body.expr e).kind.majorKind ≠ .TERMINATOR →
      (body.expr e).neverOverflowInfo = true →
      effectClass (body.expr e).kind = .anything → ¬ v.fails e) :
    (∃ fuel s, uselessExprEliminationForFunc body fuel = some s) ∧
      ∀ fuel s, uselessExprEliminationForFunc body fuel = some s →
        ∀ n block results w,
          sem.run s.blocks n block results w = sem.run body.blocks n block results w := by
  obtain ⟨fuel, s, hdrain, -⟩ := (inv_start body).exists_end
  refine ⟨⟨fuel, s, hdrain⟩, fun fuel s hend n block results w => ?_⟩
  have hreached : Reached body s := reached_of_eliminated hend
  have hpure : ∀ e ∈ s.removed, ¬ v.Effectful e := by
    refine no_effect_of_marks (fun s hs e rest hworklist => ?_) hreached
    have he : e ∈ s.worklist := hworklist ▸ List.mem_cons_self
    obtain ⟨hdirect, huseless⟩ := hs.inv.useless e he
    exact hmarks e (hs.inv.direct hdirect) (not_terminator_of_useless huseless)
  exact (run_eq_of_agree hreached hpure n block (fun _ _ => rfl) w).symm

/-- Only the exit of the example has an effect. -/
def exitEvaluation : Evaluation lossyBody where
  overflows := fun _ => False
  fails := fun e => e = 6
  mark_sound := fun _ _ => id

/-- The exit leaves with the world counted up, and the others give their numbers. -/
def exitSemantics : Semantics exitEvaluation ℕ ℕ where
  evaluate e _ w := if e = 6 then (.leave none, w + 1) else (.next (some e), w)
  reads _ _ _ _ _ := rfl
  no_effect e h _ _ := by
    refine ⟨some e, if_neg ?_⟩
    rintro rfl
    exact h (.inr rfl)

/-- The example runs to its exit with and without the marked division. -/
theorem run_lossyBody :
    ∃ s, uselessExprEliminationForFunc lossyBody 4 = some s ∧ 1 ∈ s.removed ∧
      exitSemantics.run s.blocks 1 0 (fun _ => none) 7 = some (none, 8) := by
  have hmarks : ∀ e ∈ lossyBody.blocks.flatten,
      (lossyBody.expr e).kind.majorKind ≠ .TERMINATOR →
      (lossyBody.expr e).neverOverflowInfo = true →
      effectClass (lossyBody.expr e).kind = .anything → ¬ exitEvaluation.fails e := by
    rintro e he hterminator - - (rfl : e = 6)
    exact hterminator rfl
  have hend : uselessExprEliminationForFunc lossyBody 4 = some
      { blocks := [[2, 6]], worklist := [], worklistSet := ∅, removed := [1, 3, 0] } := by
    rfl
  refine ⟨_, hend, by decide, ?_⟩
  rw [(run_uselessExprEliminationForFunc exitSemantics hmarks).2 4 _ hend 1 0 _ 7]
  rfl

end Cangjie.CHIR.UselessExpr
