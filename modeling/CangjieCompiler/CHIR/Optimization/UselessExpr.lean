import CangjieCompiler.CHIR.Analysis.SInt
import CangjieCompiler.CHIR.IR.ExprKind
import CangjieCompiler.Foundations.DrainLoop
import Mathlib.Data.Finset.Insert
import Mathlib.Data.List.Flatten
import Mathlib.Logic.Relation

/-!
# Elimination of useless expressions

An expression is useless when nobody uses its result and its kind, its overflow strategy and its
mark say that its evaluation has no effect.  The elimination takes useless expressions out of the
blocks of a function one after the other, and looks again at what these used.

A mark says that an expression never overflows, which says nothing about a division by zero.  And
what is used only in the body of a lambda loses its users with the lambda, whose operands it is not
among.
-/

namespace Cangjie.CHIR.UselessExpr

open IR

variable {ε : Type}

/-! ## Function bodies -/

/-- What is read of an expression.  The operands that are local variables stand for the expressions
that define them. -/
structure Expression (ε : Type) where
  kind : ExprKind
  hasResult : Bool
  neverOverflowInfo : Bool
  overflowStrategy : OverflowStrategy
  locals : List ε

/-- The expressions directly in blocks and those nested in them. -/
def present (nested : ε → List ε) (blocks : List (List ε)) : List ε :=
  blocks.flatten ++ blocks.flatten.flatMap nested

lemma mem_present {nested : ε → List ε} {blocks : List (List ε)} {x : ε} :
    x ∈ present nested blocks ↔
      x ∈ blocks.flatten ∨ ∃ e ∈ blocks.flatten, x ∈ nested e := by
  rw [present, List.mem_append, List.mem_flatMap]

/-- The body of a function: its blocks, and at any depth what is nested in the block groups of
their expressions. -/
structure FuncBody (ε : Type) where
  blocks : List (List ε)
  expr : ε → Expression ε
  nested : ε → List ε
  /-- An expression is in one place. -/
  nodup : blocks.flatten.Nodup
  nested_not_direct : ∀ e ∈ blocks.flatten, ∀ x ∈ nested e, x ∉ blocks.flatten
  nested_inj : ∀ e ∈ blocks.flatten, ∀ e' ∈ blocks.flatten, ∀ x ∈ nested e, x ∈ nested e' → e = e'
  /-- Operands are defined in the function, by expressions with a result. -/
  locals_present : ∀ u ∈ present nested blocks, ∀ o ∈ (expr u).locals, o ∈ present nested blocks
  locals_result : ∀ u ∈ present nested blocks, ∀ o ∈ (expr u).locals, (expr o).hasResult = true
  /-- A result is used in the block group that it is defined in. -/
  nested_scope : ∀ e ∈ blocks.flatten, ∀ x ∈ nested e, ∀ u ∈ present nested blocks,
    x ∈ (expr u).locals → u ∈ nested e

/-! ## The source -/

/-- What `CheckUselessExpr` answers by the kind of an expression. -/
def Expression.isUselessKind (expr : Expression ε) : Bool :=
  let kind := expr.kind
  match kind.majorKind with
  | .UNARY_EXPR => kind != .NEG || expr.overflowStrategy != .THROWING
  | .BINARY_EXPR =>
    if kind == .MOD || kind == .DIV || kind == .LSHIFT || kind == .RSHIFT then false
    else if kind.isMathematicalOperator then expr.overflowStrategy != .THROWING
    else true
  | .MEMORY_EXPR => kind == .LOAD || kind == .GET_ELEMENT_REF
  | .STRUCTURED_CTRL_FLOW_EXPR => kind == .LAMBDA
  | .OTHERS => kind == .CONSTANT || kind == .TUPLE || kind == .FIELD || kind == .VARRAY
  -- not reached, since a terminator is never useless
  | .TERMINATOR => false

variable [DecidableEq ε]

/-- The users of a result. -/
def FuncBody.users (body : FuncBody ε) (blocks : List (List ε)) (e : ε) : List ε :=
  (present body.nested blocks).filter fun u => e ∈ (body.expr u).locals

def checkUselessExpr (body : FuncBody ε) (blocks : List (List ε)) (e : ε)
    (isReportWarning : Bool) : Bool :=
  let expr := body.expr e
  if expr.hasResult && !(body.users blocks e).isEmpty then false
  else if (expr.kind.isTryUnary || expr.kind.isTryBinary) && expr.neverOverflowInfo &&
    isReportWarning then true
  else if expr.kind.majorKind = .TERMINATOR then false
  else if expr.neverOverflowInfo then true
  else expr.isUselessKind

/-- The state of the elimination, with the expressions removed so far. -/
structure Elimination (ε : Type) where
  blocks : List (List ε)
  worklist : List ε
  worklistSet : Finset ε
  removed : List ε

/-- `Expression::RemoveSelfFromBlock` -/
def removeSelfFromBlock (blocks : List (List ε)) (e : ε) : List (List ε) :=
  blocks.map fun block => block.filter fun x => x ≠ e

/-- The useless expressions of the blocks, before anything is removed. -/
def start (body : FuncBody ε) : Elimination ε :=
  let worklist := body.blocks.flatMap fun block =>
    block.filter fun expr => checkUselessExpr body body.blocks expr false
  { blocks := body.blocks, worklist := worklist, worklistSet := worklist.toFinset, removed := [] }

def pushOperand (body : FuncBody ε) (blocks : List (List ε)) (queue : List ε × Finset ε)
    (opExpr : ε) : List ε × Finset ε :=
  if checkUselessExpr body blocks opExpr false && decide (opExpr ∉ queue.2) then
    (queue.1 ++ [opExpr], insert opExpr queue.2)
  else queue

/-- One round of the loop. -/
def step (body : FuncBody ε) (s : Elimination ε) : Option (Elimination ε) :=
  match s.worklist with
  | [] => none
  | expr :: rest =>
    let ops := (body.expr expr).locals
    let blocks := removeSelfFromBlock s.blocks expr
    let queue := ops.foldl (pushOperand body blocks) (rest, s.worklistSet.erase expr)
    some { blocks := blocks, worklist := queue.1, worklistSet := queue.2,
           removed := s.removed ++ [expr] }

def uselessExprEliminationForFunc (body : FuncBody ε) (fuel : ℕ) : Option (Elimination ε) :=
  DrainLoop.drain (fun s => s.worklist.isEmpty) (step body) fuel (start body)

/-- The states that the loop passes through. -/
def Reached (body : FuncBody ε) (s : Elimination ε) : Prop :=
  Relation.ReflTransGen (fun s s' => step body s = some s') (start body) s

/-! ## Effects -/

/-- What an evaluation can do besides giving a result: nothing, overflow, or anything. -/
inductive EffectClass
  | nothing
  | overflow
  | anything
deriving DecidableEq

def effectClass : ExprKind → EffectClass
  | .NEG | .ADD | .SUB | .MUL | .EXP => .overflow
  | .NOT | .BITNOT | .BITAND | .BITOR | .BITXOR | .LT | .GT | .LE | .GE | .EQUAL | .NOTEQUAL | .AND
  | .OR | .LOAD | .GET_ELEMENT_REF | .GET_ELEMENT_BY_NAME | .LAMBDA | .CONSTANT | .TUPLE | .FIELD
  | .FIELD_BY_NAME | .VARRAY => .nothing
  | _ => .anything

/-- Which expressions can overflow, and which can raise an exception for another reason or have a
side effect.  Marks are only set on expressions that cannot overflow. -/
structure Evaluation (body : FuncBody ε) where
  overflows : ε → Prop
  fails : ε → Prop
  mark_sound : ∀ e, (body.expr e).neverOverflowInfo = true → ¬ overflows e

/-- The evaluation of an expression can raise an exception or have a side effect. -/
def Evaluation.Effectful {body : FuncBody ε} (v : Evaluation body) (e : ε) : Prop :=
  match effectClass (body.expr e).kind with
  | .nothing => False
  | .overflow => (body.expr e).overflowStrategy = .THROWING ∧ v.overflows e
  | .anything => ((body.expr e).overflowStrategy = .THROWING ∧ v.overflows e) ∨ v.fails e

/-! ## What is asked of the elimination -/

/-- The elimination removes only, and all, dead expressions without effect. -/
structure RemovesDeadCode (body : FuncBody ε) (v : Evaluation body) : Prop where
  stops : ∃ fuel s, uselessExprEliminationForFunc body fuel = some s
  /-- What is removed next has no user, and nothing uses what is gone. -/
  unused : ∀ s, Reached body s → ∀ e rest, s.worklist = e :: rest → body.users s.blocks e = []
  closed : ∀ s, Reached body s → ∀ u ∈ present body.nested s.blocks,
    ∀ o ∈ (body.expr u).locals, o ∈ present body.nested s.blocks
  no_effect : ∀ s, Reached body s → ∀ e ∈ s.removed, ¬ v.Effectful e
  once : ∀ s, Reached body s → s.removed.Nodup
  complete : ∀ fuel s, uselessExprEliminationForFunc body fuel = some s →
    ∀ e ∈ s.blocks.flatten, checkUselessExpr body s.blocks e false = false

/-- The only users of an expression are nested in another one, which does not use it itself, and
nothing else keeps it from being useless. -/
def OnlyCaptured (body : FuncBody ε) (blocks : List (List ε)) (e o : ε) : Prop :=
  o ∈ blocks.flatten ∧ o ∉ (body.expr e).locals ∧ body.users blocks o ≠ [] ∧
    (∀ u ∈ body.users blocks o, u ∈ body.nested e) ∧ checkUselessExpr body [] o false = true

/-- The marked expressions that are removed do not fail for another reason than overflow, and no
lambda is removed that holds the only uses of an expression in its body. -/
structure RemovesSafely (body : FuncBody ε) (v : Evaluation body) : Prop where
  marks : ∀ s, Reached body s → ∀ e rest, s.worklist = e :: rest →
    (body.expr e).neverOverflowInfo = true → effectClass (body.expr e).kind = .anything →
    ¬ v.fails e
  captures : ∀ s, Reached body s → ∀ e rest, s.worklist = e :: rest →
    ∀ o, ¬ OnlyCaptured body s.blocks e o

section Elimination

variable {body : FuncBody ε} {s s' : Elimination ε} {e : ε}

/-! ## One removal -/

lemma flatten_removeSelfFromBlock (blocks : List (List ε)) (e : ε) :
    (removeSelfFromBlock blocks e).flatten = blocks.flatten.filter fun x => x ≠ e :=
  List.filter_flatten.symm

lemma mem_removeSelfFromBlock {blocks : List (List ε)} {e x : ε} :
    x ∈ (removeSelfFromBlock blocks e).flatten ↔ x ∈ blocks.flatten ∧ x ≠ e := by
  rw [flatten_removeSelfFromBlock, List.mem_filter, decide_eq_true_eq]

lemma present_removeSelfFromBlock_subset {nested : ε → List ε} (blocks : List (List ε)) (e : ε) :
    present nested (removeSelfFromBlock blocks e) ⊆ present nested blocks := by
  intro x hx
  rcases mem_present.mp hx with hdirect | ⟨e', he', hx'⟩
  · exact mem_present.mpr (.inl (mem_removeSelfFromBlock.mp hdirect).1)
  · exact mem_present.mpr (.inr ⟨e', (mem_removeSelfFromBlock.mp he').1, hx'⟩)

lemma mem_users {blocks : List (List ε)} {u : ε} :
    u ∈ body.users blocks e ↔ u ∈ present body.nested blocks ∧ e ∈ (body.expr u).locals := by
  rw [FuncBody.users, List.mem_filter, decide_eq_true_eq]

lemma users_removeSelfFromBlock_subset (blocks : List (List ε)) (e x : ε) :
    body.users (removeSelfFromBlock blocks e) x ⊆ body.users blocks x := by
  intro u hu
  obtain ⟨hpresent, hlocals⟩ := mem_users.mp hu
  exact mem_users.mpr ⟨present_removeSelfFromBlock_subset blocks e hpresent, hlocals⟩

lemma users_nil (x : ε) : body.users [] x = [] := rfl

/-- An expression is useless when its result has no user and nothing else keeps it. -/
lemma checkUselessExpr_iff {blocks : List (List ε)} :
    checkUselessExpr body blocks e false = true ↔
      ((body.expr e).hasResult = true → body.users blocks e = []) ∧
        checkUselessExpr body [] e false = true := by
  by_cases hused : (body.expr e).hasResult = true ∧ body.users blocks e ≠ []
  · have hfalse : checkUselessExpr body blocks e false = false := by
      rw [checkUselessExpr, if_pos]
      rw [hused.1, Bool.true_and, Bool.not_eq_true', List.isEmpty_eq_false_iff]
      exact hused.2
    rw [hfalse]
    refine iff_of_false Bool.false_ne_true fun h => hused.2 (h.1 hused.1)
  · have hfree : ((body.expr e).hasResult && !(body.users blocks e).isEmpty) = false := by
      rw [← Bool.not_eq_true, Bool.and_eq_true, Bool.not_eq_true', List.isEmpty_eq_false_iff]
      exact hused
    have hnil : ((body.expr e).hasResult && !(body.users [] e).isEmpty) = false := by
      rw [users_nil, List.isEmpty_nil, Bool.not_true, Bool.and_false]
    have hsame : checkUselessExpr body blocks e false = checkUselessExpr body [] e false := by
      rw [checkUselessExpr, checkUselessExpr, hfree, hnil]
    rw [hsame]
    refine ⟨fun h => ⟨fun hresult => ?_, h⟩, And.right⟩
    by_contra hne
    exact hused ⟨hresult, hne⟩

/-- What is useless remains so when something is removed. -/
lemma checkUselessExpr_removeSelfFromBlock {blocks : List (List ε)} {x : ε}
    (h : checkUselessExpr body blocks x false = true) :
    checkUselessExpr body (removeSelfFromBlock blocks e) x false = true := by
  obtain ⟨husers, hkind⟩ := checkUselessExpr_iff.mp h
  refine checkUselessExpr_iff.mpr ⟨fun hresult => ?_, hkind⟩
  have hsubset : body.users (removeSelfFromBlock blocks e) x ⊆ body.users blocks x :=
    users_removeSelfFromBlock_subset blocks e x
  rw [husers hresult] at hsubset
  exact List.subset_nil.mp hsubset

/-! ## The queue -/

/-- A queue without duplicates whose set holds what is in it. -/
def IsQueue (queue : List ε × Finset ε) : Prop :=
  queue.1.Nodup ∧ ∀ x, x ∈ queue.2 ↔ x ∈ queue.1

lemma isQueue_pushOperand {blocks : List (List ε)} {queue : List ε × Finset ε} (h : IsQueue queue)
    (o : ε) : IsQueue (pushOperand body blocks queue o) := by
  rw [pushOperand]
  split_ifs with hpush
  · have hnew : o ∉ queue.1 := by
      rw [← h.2]
      exact of_decide_eq_true (Bool.and_eq_true_iff.mp hpush).2
    refine ⟨List.nodup_append.mpr ⟨h.1, List.nodup_singleton o, ?_⟩, fun x => ?_⟩
    · rintro x hx y hy rfl
      exact hnew (List.mem_singleton.mp hy ▸ hx)
    · rw [Finset.mem_insert, List.mem_append, List.mem_singleton, h.2, or_comm]
  · exact h

lemma mem_pushOperand {blocks : List (List ε)} {queue : List ε × Finset ε} (h : IsQueue queue)
    (o x : ε) :
    x ∈ (pushOperand body blocks queue o).1 ↔
      x ∈ queue.1 ∨ x = o ∧ checkUselessExpr body blocks o false = true := by
  rw [pushOperand]
  split_ifs with hpush
  · have huseless := (Bool.and_eq_true_iff.mp hpush).1
    rw [List.mem_append, List.mem_singleton]
    exact or_congr_right ⟨fun hx => ⟨hx, huseless⟩, And.left⟩
  · refine ⟨.inl, fun hx => hx.elim id ?_⟩
    rintro ⟨rfl, huseless⟩
    by_contra hx
    refine hpush (Bool.and_eq_true_iff.mpr ⟨huseless, decide_eq_true ?_⟩)
    rwa [h.2]

/-- After the operands, the queue holds in addition those that are useless. -/
lemma foldl_pushOperand {blocks : List (List ε)} (ops : List ε) {queue : List ε × Finset ε}
    (h : IsQueue queue) :
    IsQueue (ops.foldl (pushOperand body blocks) queue) ∧
      ∀ x, x ∈ (ops.foldl (pushOperand body blocks) queue).1 ↔
        x ∈ queue.1 ∨ x ∈ ops ∧ checkUselessExpr body blocks x false = true := by
  induction ops generalizing queue with
  | nil => exact ⟨h, fun x => ⟨.inl, fun hx => hx.elim id fun hx => absurd hx.1 List.not_mem_nil⟩⟩
  | cons o ops ih =>
    have hpushed : IsQueue (pushOperand body blocks queue o) := isQueue_pushOperand h o
    obtain ⟨hqueue, hmem⟩ := ih hpushed
    refine ⟨hqueue, fun x => (hmem x).trans ?_⟩
    rw [mem_pushOperand h, List.mem_cons, or_assoc]
    refine or_congr_right ⟨?_, ?_⟩
    · rintro (⟨rfl, huseless⟩ | ⟨hx, huseless⟩)
      · exact ⟨.inl rfl, huseless⟩
      · exact ⟨.inr hx, huseless⟩
    · rintro ⟨rfl | hx, huseless⟩
      · exact .inl ⟨rfl, huseless⟩
      · exact .inr ⟨hx, huseless⟩

/-! ## One round -/

/-- What holds in every round. -/
structure Inv (body : FuncBody ε) (s : Elimination ε) : Prop where
  queue : IsQueue (s.worklist, s.worklistSet)
  useless : ∀ x ∈ s.worklist, x ∈ s.blocks.flatten ∧ checkUselessExpr body s.blocks x false = true
  direct : s.blocks.flatten ⊆ body.blocks.flatten
  gone : ∀ x ∈ s.removed, x ∉ s.blocks.flatten
  once : s.removed.Nodup
  closed : ∀ u ∈ present body.nested s.blocks, ∀ o ∈ (body.expr u).locals,
    o ∈ present body.nested s.blocks

lemma Inv.present_subset (hinv : Inv body s) :
    present body.nested s.blocks ⊆ present body.nested body.blocks := by
  intro x hx
  rcases mem_present.mp hx with hdirect | ⟨e, he, hx'⟩
  · exact mem_present.mpr (.inl (hinv.direct hdirect))
  · exact mem_present.mpr (.inr ⟨e, hinv.direct he, hx'⟩)

/-- What has a user has a result, so it is not useless. -/
lemma Inv.not_useless_of_user (hinv : Inv body s) {o u : ε} (hu : u ∈ body.users s.blocks o) :
    checkUselessExpr body s.blocks o false ≠ true := by
  intro huseless
  obtain ⟨hpresent, hlocals⟩ := mem_users.mp hu
  have hresult := body.locals_result u (hinv.present_subset hpresent) o hlocals
  rw [(checkUselessExpr_iff.mp huseless).1 hresult] at hu
  exact List.not_mem_nil hu

lemma Inv.users_eq_nil (hinv : Inv body s) (he : e ∈ s.worklist) : body.users s.blocks e = [] :=
  List.eq_nil_iff_forall_not_mem.mpr fun _ hu =>
    hinv.not_useless_of_user hu (hinv.useless e he).2

/-- The local operands of what is directly in a block are directly in a block. -/
lemma Inv.local_direct (hinv : Inv body s) {u o : ε} (hu : u ∈ s.blocks.flatten)
    (ho : o ∈ (body.expr u).locals) : o ∈ s.blocks.flatten := by
  have hpresent : u ∈ present body.nested s.blocks := mem_present.mpr (.inl hu)
  rcases mem_present.mp (hinv.closed u hpresent o ho) with hdirect | ⟨e', he', ho'⟩
  · exact hdirect
  · have hnested := body.nested_scope e' (hinv.direct he') o ho' u (hinv.present_subset hpresent) ho
    exact absurd (hinv.direct hu) (body.nested_not_direct e' (hinv.direct he') u hnested)

/-- Everything that a round does. -/
lemma Inv.step_eq (hinv : Inv body s) {rest : List ε} (hs : s.worklist = e :: rest) :
    ∃ s', step body s = some s' ∧ s'.blocks = removeSelfFromBlock s.blocks e ∧
      s'.removed = s.removed ++ [e] ∧ IsQueue (s'.worklist, s'.worklistSet) ∧
      ∀ x, x ∈ s'.worklist ↔ x ∈ rest ∨ x ∈ (body.expr e).locals ∧
        checkUselessExpr body (removeSelfFromBlock s.blocks e) x false = true := by
  have hnodup : e ∉ rest ∧ rest.Nodup := by
    rw [← List.nodup_cons, ← hs]
    exact hinv.queue.1
  have hqueue : IsQueue (rest, s.worklistSet.erase e) := by
    refine ⟨hnodup.2, fun x => ?_⟩
    have hx : x ∈ s.worklistSet ↔ x ∈ e :: rest := hs ▸ hinv.queue.2 x
    rw [Finset.mem_erase, hx, List.mem_cons]
    refine ⟨fun h => h.2.resolve_left h.1, fun h => ⟨?_, .inr h⟩⟩
    rintro rfl
    exact hnodup.1 h
  let queue := (body.expr e).locals.foldl (pushOperand body (removeSelfFromBlock s.blocks e))
    (rest, s.worklistSet.erase e)
  obtain ⟨hqueue', hmem⟩ : IsQueue queue ∧ ∀ x, x ∈ queue.1 ↔ x ∈ rest ∨
      x ∈ (body.expr e).locals ∧
        checkUselessExpr body (removeSelfFromBlock s.blocks e) x false = true :=
    foldl_pushOperand (body.expr e).locals hqueue
  have hstep : step body s = some
      { blocks := removeSelfFromBlock s.blocks e, worklist := queue.1, worklistSet := queue.2,
        removed := s.removed ++ [e] } := by
    rw [step, hs]
  exact ⟨_, hstep, rfl, rfl, hqueue', hmem⟩

/-- A round in which something was done took the first expression of the queue. -/
lemma exists_worklist (h : step body s = some s') : ∃ e rest, s.worklist = e :: rest := by
  cases hs : s.worklist with
  | nil =>
    rw [step, hs] at h
    exact absurd h (Option.some_ne_none _).symm
  | cons e rest => exact ⟨e, rest, rfl⟩

/-- The result of what is gone is used by nothing that is left. -/
lemma Inv.closed_removeSelfFromBlock (hinv : Inv body s) (he : e ∈ s.worklist) :
    ∀ u ∈ present body.nested (removeSelfFromBlock s.blocks e), ∀ o ∈ (body.expr u).locals,
      o ∈ present body.nested (removeSelfFromBlock s.blocks e) := by
  intro u hu o ho
  have hpresent := present_removeSelfFromBlock_subset s.blocks e hu
  have hne : o ≠ e := by
    rintro rfl
    have huser := mem_users.mpr ⟨hpresent, ho⟩
    rw [hinv.users_eq_nil he] at huser
    exact List.not_mem_nil huser
  rcases mem_present.mp (hinv.closed u hpresent o ho) with hdirect | ⟨e', he', ho'⟩
  · exact mem_present.mpr (.inl (mem_removeSelfFromBlock.mpr ⟨hdirect, hne⟩))
  · refine mem_present.mpr (.inr ⟨e', mem_removeSelfFromBlock.mpr ⟨he', ?_⟩, ho'⟩)
    rintro rfl
    -- a user of what is nested in the removed expression is nested in it too
    have hnested := body.nested_scope e' (hinv.direct he') o ho' u (hinv.present_subset hpresent) ho
    rcases mem_present.mp hu with hu | ⟨e'', he'', hu⟩
    · have hdirect := hinv.direct (mem_removeSelfFromBlock.mp hu).1
      exact body.nested_not_direct e' (hinv.direct he') u hnested hdirect
    · obtain ⟨he'', hne''⟩ := mem_removeSelfFromBlock.mp he''
      exact hne'' (body.nested_inj e'' (hinv.direct he'') e' (hinv.direct he') u hu hnested)

lemma Inv.of_step (hinv : Inv body s) (h : step body s = some s') : Inv body s' := by
  obtain ⟨e, rest, hs⟩ := exists_worklist h
  obtain ⟨s₁, hs₁, hblocks, hremoved, hqueue, hmem⟩ := hinv.step_eq hs
  obtain rfl : s₁ = s' := Option.some.inj (hs₁.symm.trans h)
  have he : e ∈ s.worklist := hs ▸ List.mem_cons_self
  have hnodup : e ∉ rest ∧ rest.Nodup := by
    rw [← List.nodup_cons, ← hs]
    exact hinv.queue.1
  constructor
  case queue => exact hqueue
  case useless =>
    intro x hx
    rw [hblocks, mem_removeSelfFromBlock]
    rcases (hmem x).mp hx with hrest | ⟨hlocal, huseless⟩
    · obtain ⟨hdirect, huseless⟩ := hinv.useless x (hs ▸ List.mem_cons_of_mem e hrest)
      refine ⟨⟨hdirect, ?_⟩, checkUselessExpr_removeSelfFromBlock huseless⟩
      rintro rfl
      exact hnodup.1 hrest
    · have hdirect := (hinv.useless e he).1
      refine ⟨⟨hinv.local_direct hdirect hlocal, ?_⟩, huseless⟩
      rintro rfl
      have huser := mem_users.mpr ⟨mem_present.mpr (.inl hdirect), hlocal⟩
      rw [hinv.users_eq_nil he] at huser
      exact List.not_mem_nil huser
  case direct =>
    intro x hx
    rw [hblocks] at hx
    exact hinv.direct (mem_removeSelfFromBlock.mp hx).1
  case gone =>
    intro x hx hx'
    rw [hblocks] at hx'
    obtain ⟨hdirect, hne⟩ := mem_removeSelfFromBlock.mp hx'
    rw [hremoved] at hx
    rcases List.mem_append.mp hx with hx | hx
    · exact hinv.gone x hx hdirect
    · exact hne (List.mem_singleton.mp hx)
  case once =>
    rw [hremoved]
    refine List.nodup_append.mpr ⟨hinv.once, List.nodup_singleton e, ?_⟩
    rintro x hx y hy rfl
    obtain rfl := List.mem_singleton.mp hy
    exact hinv.gone x hx (hinv.useless x he).1
  case closed =>
    rw [hblocks]
    exact hinv.closed_removeSelfFromBlock he

/-! ## Whole runs -/

lemma mem_start_worklist {x : ε} :
    x ∈ (start body).worklist ↔
      x ∈ body.blocks.flatten ∧ checkUselessExpr body body.blocks x false = true := by
  rw [start, List.mem_flatMap, List.mem_flatten]
  constructor
  · rintro ⟨block, hblock, hx⟩
    obtain ⟨hx, huseless⟩ := List.mem_filter.mp hx
    exact ⟨⟨block, hblock, hx⟩, huseless⟩
  · rintro ⟨⟨block, hblock, hx⟩, huseless⟩
    exact ⟨block, hblock, List.mem_filter.mpr ⟨hx, huseless⟩⟩

lemma inv_start (body : FuncBody ε) : Inv body (start body) := by
  have hworklist : (start body).worklist =
      body.blocks.flatten.filter fun x => checkUselessExpr body body.blocks x false := by
    rw [start, List.flatMap, List.filter_flatten]
  constructor
  case queue =>
    refine ⟨?_, fun x => List.mem_toFinset⟩
    rw [hworklist]
    exact body.nodup.filter _
  case useless => exact fun x hx => mem_start_worklist.mp hx
  case direct => exact List.Subset.refl _
  case gone => exact fun x hx => absurd hx List.not_mem_nil
  case once => exact List.nodup_nil
  case closed => exact body.locals_present

lemma Reached.inv (h : Reached body s) : Inv body s := by
  induction h with
  | refl => exact inv_start body
  | tail _ hstep ih => exact ih.of_step hstep

/-- From every state with the invariant the loop comes to its end. -/
lemma Inv.exists_end (hinv : Inv body s) :
    ∃ fuel s', DrainLoop.drain (fun s => s.worklist.isEmpty) (step body) fuel s = some s' ∧
      Inv body s' := by
  have hround : ∀ s, Inv body s → s.worklist.isEmpty = false →
      ∃ s', step body s = some s' ∧ Inv body s' ∧
        s'.blocks.flatten.length < s.blocks.flatten.length := by
    intro s hinv hdone
    obtain ⟨e, rest, hs⟩ := List.exists_cons_of_ne_nil (List.isEmpty_eq_false_iff.mp hdone)
    obtain ⟨s', hstep, hblocks, -⟩ := hinv.step_eq hs
    refine ⟨s', hstep, hinv.of_step hstep, ?_⟩
    rw [hblocks, flatten_removeSelfFromBlock]
    have he := (hinv.useless e (hs ▸ List.mem_cons_self)).1
    exact List.length_filter_lt_length_iff_exists.mpr ⟨e, he, by simp⟩
  obtain ⟨fuel, s', hdrain, hinv', -⟩ :=
    DrainLoop.exists_drain (fun s => s.blocks.flatten.length) hround hinv
  exact ⟨fuel, s', hdrain, hinv'⟩

/-- The end that the loop comes to from a state that it passes through is its end. -/
lemma Reached.drain (h : Reached body s) {fuel : ℕ}
    (hdrain : DrainLoop.drain (fun s => s.worklist.isEmpty) (step body) fuel s = some s') :
    ∃ fuel, uselessExprEliminationForFunc body fuel = some s' := by
  induction h generalizing fuel with
  | refl => exact ⟨fuel, hdrain⟩
  | @tail s₁ _ _ hstep ih =>
    obtain ⟨e, rest, hs⟩ := exists_worklist hstep
    have hmore : DrainLoop.drain (fun s => s.worklist.isEmpty) (step body) (fuel + 1) s₁ =
        some s' := by
      rw [DrainLoop.drain_succ, hs, List.isEmpty_cons, if_neg Bool.false_ne_true, hstep]
      exact hdrain
    exact ih hmore

/-! ## What is removed has no effect -/

omit [DecidableEq ε] in
/-- What the switch over the kinds calls useless can at most overflow, and does not throw then. -/
lemma effectClass_of_isUselessKind {expr : Expression ε} (h : expr.isUselessKind = true) :
    effectClass expr.kind = .nothing ∨
      effectClass expr.kind = .overflow ∧ expr.overflowStrategy ≠ .THROWING := by
  obtain ⟨kind, hasResult, neverOverflowInfo, overflowStrategy, locals⟩ := expr
  cases kind with
  | NEG | ADD | SUB | MUL | EXP =>
    refine .inr ⟨rfl, ?_⟩
    rintro (rfl : overflowStrategy = .THROWING)
    exact absurd h Bool.false_ne_true
  | _ =>
    first
    | exact .inl rfl
    | exact absurd h Bool.false_ne_true

lemma isUselessKind_of_unmarked {blocks : List (List ε)}
    (h : checkUselessExpr body blocks e false = true)
    (hmark : (body.expr e).neverOverflowInfo = false) : (body.expr e).isUselessKind = true := by
  simp only [checkUselessExpr, hmark, Bool.and_false, Bool.false_eq_true, if_false] at h
  split_ifs at h
  exact h

/-- A useless expression has an effect only if it is marked and fails for another reason than
overflow. -/
lemma effectful_iff (v : Evaluation body) {blocks : List (List ε)}
    (h : checkUselessExpr body blocks e false = true) :
    v.Effectful e ↔ (body.expr e).neverOverflowInfo = true ∧
      effectClass (body.expr e).kind = .anything ∧ v.fails e := by
  rw [Evaluation.Effectful]
  by_cases hmark : (body.expr e).neverOverflowInfo = true
  · have hoverflows := v.mark_sound e hmark
    cases hclass : effectClass (body.expr e).kind with
    | nothing => exact iff_of_false id fun h => EffectClass.noConfusion h.2.1
    | overflow =>
      exact iff_of_false (fun h => hoverflows h.2) fun h => EffectClass.noConfusion h.2.1
    | anything =>
      refine ⟨fun h => ⟨hmark, rfl, ?_⟩, fun h => .inr h.2.2⟩
      exact h.resolve_left fun hthrows => hoverflows hthrows.2
  · refine iff_of_false ?_ fun h => hmark h.1
    have hkind := isUselessKind_of_unmarked h (Bool.eq_false_iff.mpr hmark)
    rcases effectClass_of_isUselessKind hkind with hclass | ⟨hclass, hstrategy⟩
    · rw [hclass]
      exact id
    · rw [hclass]
      exact fun heffect => hstrategy heffect.1

/-- As long as no marked expression that is removed fails, nothing with an effect is removed. -/
lemma no_effect_of_marks {v : Evaluation body}
    (hmarks : ∀ s, Reached body s → ∀ e rest, s.worklist = e :: rest →
      (body.expr e).neverOverflowInfo = true → effectClass (body.expr e).kind = .anything →
      ¬ v.fails e) (h : Reached body s) : ∀ e ∈ s.removed, ¬ v.Effectful e := by
  induction h with
  | refl => exact fun e he => absurd he List.not_mem_nil
  | tail hreached hstep ih =>
    intro e he
    obtain ⟨e', rest, hs⟩ := exists_worklist hstep
    obtain ⟨s₁, hs₁, -, hremoved, -⟩ := (Reached.inv hreached).step_eq hs
    obtain rfl := Option.some.inj (hs₁.symm.trans hstep)
    rw [hremoved] at he
    rcases List.mem_append.mp he with he | he
    · exact ih e he
    · obtain rfl := List.mem_singleton.mp he
      have huseless := ((Reached.inv hreached).useless e (hs ▸ List.mem_cons_self)).2
      intro heffect
      obtain ⟨hmark, hclass, hfails⟩ := (effectful_iff v huseless).mp heffect
      exact hmarks _ hreached e rest hs hmark hclass hfails

/-! ## What is useless is found -/

/-- Everything useless is in the queue. -/
def AllQueued (body : FuncBody ε) (s : Elimination ε) : Prop :=
  ∀ x ∈ s.blocks.flatten, checkUselessExpr body s.blocks x false = true → x ∈ s.worklist

/-- A useless expression that is not in the queue. -/
def Missed (body : FuncBody ε) (s : Elimination ε) (o : ε) : Prop :=
  o ∈ s.blocks.flatten ∧ checkUselessExpr body s.blocks o false = true ∧ o ∉ s.worklist

/-- A user that goes with a removal is what is removed or nested in it. -/
lemma eq_or_nested_of_gone {nested : ε → List ε} {blocks : List (List ε)} {u : ε}
    (hu : u ∈ present nested blocks) (hgone : u ∉ present nested (removeSelfFromBlock blocks e)) :
    u = e ∨ u ∈ nested e := by
  rcases mem_present.mp hu with hdirect | ⟨e', he', hu'⟩
  · left
    by_contra hne
    exact hgone (mem_present.mpr (.inl (mem_removeSelfFromBlock.mpr ⟨hdirect, hne⟩)))
  · right
    by_contra hnested
    refine hgone (mem_present.mpr (.inr ⟨e', mem_removeSelfFromBlock.mpr ⟨he', ?_⟩, hu'⟩))
    rintro rfl
    exact hnested hu'

/-- Unless it holds the only uses of an expression in what is nested in it, a removal leaves
everything useless in the queue. -/
lemma AllQueued.of_step (hqueued : AllQueued body s) (hinv : Inv body s) {rest : List ε}
    (hs : s.worklist = e :: rest) (hstep : step body s = some s')
    (hcaptured : ∀ o, ¬ OnlyCaptured body s.blocks e o) : AllQueued body s' := by
  obtain ⟨s₁, hs₁, hblocks, -, -, hmem⟩ := hinv.step_eq hs
  obtain rfl := Option.some.inj (hs₁.symm.trans hstep)
  intro x hx huseless
  rw [hblocks] at hx huseless
  obtain ⟨hdirect, hne⟩ := mem_removeSelfFromBlock.mp hx
  rw [hmem]
  by_cases hbefore : checkUselessExpr body s.blocks x false = true
  · have hqueue := hqueued x hdirect hbefore
    rw [hs] at hqueue
    exact .inl ((List.mem_cons.mp hqueue).resolve_left hne)
  · refine .inr ⟨?_, huseless⟩
    by_contra hlocal
    obtain ⟨husers, hkind⟩ := checkUselessExpr_iff.mp huseless
    -- the users of the expression kept it before, and are gone
    have hused : (body.expr x).hasResult = true ∧ body.users s.blocks x ≠ [] := by
      by_contra hunused
      refine hbefore (checkUselessExpr_iff.mpr ⟨fun hresult => ?_, hkind⟩)
      by_contra hne
      exact hunused ⟨hresult, hne⟩
    refine hcaptured x ⟨hdirect, hlocal, hused.2, fun u hu => ?_, hkind⟩
    obtain ⟨hpresent, huses⟩ := mem_users.mp hu
    have hgone : u ∉ present body.nested (removeSelfFromBlock s.blocks e) := by
      intro hpresent'
      have huser := mem_users.mpr ⟨hpresent', huses⟩
      rw [husers hused.1] at huser
      exact List.not_mem_nil huser
    rcases eq_or_nested_of_gone hpresent hgone with rfl | hnested
    · exact absurd huses hlocal
    · exact hnested

/-- What a removal leaves without users although it was not an operand is missed. -/
lemma missed_of_onlyCaptured (hinv : Inv body s) {rest : List ε} (hs : s.worklist = e :: rest)
    (hstep : step body s = some s') {o : ε} (h : OnlyCaptured body s.blocks e o) :
    Missed body s' o := by
  obtain ⟨hdirect, hlocal, hused, hnested, hkind⟩ := h
  obtain ⟨s₁, hs₁, hblocks, -, -, hmem⟩ := hinv.step_eq hs
  obtain rfl := Option.some.inj (hs₁.symm.trans hstep)
  have he := hinv.useless e (hs ▸ List.mem_cons_self)
  obtain ⟨u, hu⟩ := List.exists_mem_of_ne_nil _ hused
  have hnot := hinv.not_useless_of_user hu
  refine ⟨?_, ?_, fun ho => ?_⟩
  · rw [hblocks, mem_removeSelfFromBlock]
    refine ⟨hdirect, ?_⟩
    rintro rfl
    exact hnot he.2
  · rw [hblocks]
    refine checkUselessExpr_iff.mpr ⟨fun _ => List.eq_nil_iff_forall_not_mem.mpr ?_, hkind⟩
    intro x hx
    have hx' := hnested x (users_removeSelfFromBlock_subset s.blocks e o hx)
    rcases mem_present.mp (mem_users.mp hx).1 with hdirect | ⟨e', he', hx''⟩
    · have hdirect' := hinv.direct (mem_removeSelfFromBlock.mp hdirect).1
      exact body.nested_not_direct e (hinv.direct he.1) x hx' hdirect'
    · obtain ⟨he', hne⟩ := mem_removeSelfFromBlock.mp he'
      exact hne (body.nested_inj e' (hinv.direct he') e (hinv.direct he.1) x hx'' hx')
  · rcases (hmem o).mp ho with hrest | ⟨ho, -⟩
    · exact hnot (hinv.useless o (hs ▸ List.mem_cons_of_mem e hrest)).2
    · exact hlocal ho

/-- What is missed is missed for good: no operand of what is removed can be it. -/
lemma Missed.of_step (hinv : Inv body s) {o : ε} (h : Missed body s o)
    (hstep : step body s = some s') : Missed body s' o := by
  obtain ⟨hdirect, huseless, hmissed⟩ := h
  obtain ⟨e, rest, hs⟩ := exists_worklist hstep
  obtain ⟨s₁, hs₁, hblocks, -, -, hmem⟩ := hinv.step_eq hs
  obtain rfl := Option.some.inj (hs₁.symm.trans hstep)
  rw [hs, List.mem_cons, not_or] at hmissed
  refine ⟨?_, ?_, fun ho => ?_⟩
  · rw [hblocks]
    exact mem_removeSelfFromBlock.mpr ⟨hdirect, hmissed.1⟩
  · rw [hblocks]
    exact checkUselessExpr_removeSelfFromBlock huseless
  · rcases (hmem o).mp ho with hrest | ⟨hlocal, -⟩
    · exact hmissed.2 hrest
    · have he := (hinv.useless e (hs ▸ List.mem_cons_self)).1
      have huser : e ∈ body.users s.blocks o := mem_users.mpr ⟨mem_present.mpr (.inl he), hlocal⟩
      exact hinv.not_useless_of_user huser huseless

/-- What is missed is still there at the end of the loop. -/
lemma Missed.at_end {o : ε} (hinv : Inv body s) (h : Missed body s o) :
    ∃ fuel s', DrainLoop.drain (fun s => s.worklist.isEmpty) (step body) fuel s = some s' ∧
      Missed body s' o := by
  obtain ⟨fuel, s', hdrain, -⟩ := hinv.exists_end
  refine ⟨fuel, s', hdrain, ?_⟩
  have hkeeps : ∀ s s', Inv body s ∧ Missed body s o → s.worklist.isEmpty = false →
      step body s = some s' → Inv body s' ∧ Missed body s' o := by
    rintro s s' ⟨hinv, hmissed⟩ - hstep
    exact ⟨hinv.of_step hstep, hmissed.of_step hinv hstep⟩
  exact (DrainLoop.drain_keeps hkeeps ⟨hinv, h⟩ hdrain).1.2

/-! ## The elimination -/

/-- The elimination removes only, and all, dead expressions without effect exactly if no marked
expression that it removes fails for another reason than overflow, and no removal takes with it
the only uses of an expression that is not an operand of what is removed. -/
theorem removesDeadCode_iff (body : FuncBody ε) (v : Evaluation body) :
    RemovesDeadCode body v ↔ RemovesSafely body v := by
  constructor
  · intro h
    constructor
    case marks =>
      intro s hreached e rest hs hmark hclass hfails
      obtain ⟨s', hstep, -, hremoved, -⟩ := hreached.inv.step_eq hs
      have huseless := (hreached.inv.useless e (hs ▸ List.mem_cons_self)).2
      have heffect := (effectful_iff v huseless).mpr ⟨hmark, hclass, hfails⟩
      refine h.no_effect s' (hreached.tail hstep) e ?_ heffect
      rw [hremoved]
      exact List.mem_append_right _ (List.mem_singleton_self e)
    case captures =>
      intro s hreached e rest hs o hcaptured
      obtain ⟨s₁, hstep, -⟩ := hreached.inv.step_eq hs
      have hreached₁ : Reached body s₁ := hreached.tail hstep
      have hmissed := missed_of_onlyCaptured hreached.inv hs hstep hcaptured
      obtain ⟨fuel, s', hdrain, hdirect, huseless, -⟩ := hmissed.at_end hreached₁.inv
      obtain ⟨fuel', hend⟩ := hreached₁.drain hdrain
      exact Bool.false_ne_true ((h.complete fuel' s' hend o hdirect).symm.trans huseless)
  · intro h
    obtain ⟨fuel, s, hdrain, -⟩ := (inv_start body).exists_end
    constructor
    case stops => exact ⟨fuel, s, hdrain⟩
    case unused =>
      intro s hreached e rest hs
      exact hreached.inv.users_eq_nil (hs ▸ List.mem_cons_self)
    case closed => exact fun s hreached => hreached.inv.closed
    case no_effect => exact fun s hreached => no_effect_of_marks h.marks hreached
    case once => exact fun s hreached => hreached.inv.once
    case complete =>
      intro fuel s hend e he
      have hstart : AllQueued body (start body) := fun x hx huseless =>
        mem_start_worklist.mpr ⟨hx, huseless⟩
      have hkeeps : ∀ s s', Reached body s ∧ AllQueued body s → s.worklist.isEmpty = false →
          step body s = some s' → Reached body s' ∧ AllQueued body s' := by
        rintro s s' ⟨hreached, hqueued⟩ - hstep
        obtain ⟨e, rest, hs⟩ := exists_worklist hstep
        exact ⟨hreached.tail hstep,
          hqueued.of_step hreached.inv hs hstep (h.captures s hreached e rest hs)⟩
      obtain ⟨⟨-, hqueued⟩, hdone⟩ := DrainLoop.drain_keeps hkeeps ⟨.refl, hstart⟩ hend
      refine Bool.eq_false_iff.mpr fun huseless => ?_
      have hqueue := hqueued e he huseless
      rw [List.isEmpty_iff.mp hdone] at hqueue
      exact List.not_mem_nil hqueue

end Elimination

/-! ## A division by zero, and a constant that a lambda uses -/

/-- A block with zero divided by a parameter, which is marked, and a constant that is only used in
the body of a lambda that nobody uses. -/
def lossyBody : FuncBody ℕ where
  blocks := [[0, 1, 2, 3, 6]]
  expr := fun e =>
    match e with
    | 0 | 2 => ⟨.CONSTANT, true, false, .NA, []⟩
    | 1 => ⟨.DIV, true, true, .THROWING, [0]⟩
    | 3 => ⟨.LAMBDA, true, false, .NA, []⟩
    | 4 => ⟨.ADD, true, false, .THROWING, [2, 2]⟩
    | _ => ⟨.EXIT, false, false, .NA, []⟩
  nested := fun e => if e = 3 then [4, 5] else []
  nodup := by decide
  nested_not_direct := by decide
  nested_inj := by decide
  locals_present := by decide
  locals_result := by decide
  nested_scope := by decide

/-- The parameter can be zero, and nothing overflows. -/
def lossyEvaluation : Evaluation lossyBody where
  overflows := fun _ => False
  fails := fun e => e = 1
  mark_sound := fun _ _ => id

/-- The division is removed although it can raise an exception, and the constant stays although
it is useless. -/
theorem not_removesDeadCode_lossyBody :
    (∃ s, uselessExprEliminationForFunc lossyBody 4 = some s ∧
      (1 ∈ s.removed ∧ lossyEvaluation.Effectful 1) ∧
      2 ∈ s.blocks.flatten ∧ checkUselessExpr lossyBody s.blocks 2 false = true) ∧
    ¬ RemovesDeadCode lossyBody lossyEvaluation := by
  have hend : uselessExprEliminationForFunc lossyBody 4 = some
      { blocks := [[2, 6]], worklist := [], worklistSet := ∅, removed := [1, 3, 0] } := by
    rfl
  have huseless : checkUselessExpr lossyBody [[2, 6]] 2 false = true := by decide
  refine ⟨⟨_, hend, ⟨by decide, .inr rfl⟩, by decide, huseless⟩, fun h => ?_⟩
  have hfalse := h.complete 4 _ hend 2 (by decide)
  exact Bool.false_ne_true (hfalse.symm.trans huseless)

end Cangjie.CHIR.UselessExpr
