import CangjieCompiler.Foundations.EventualResult
import CangjieCompiler.Foundations.OperatorGrouping
import CangjieCompiler.Parse.ParseExpr

/-!
# The tree of a sequence of operators

Operands with binary operators between them are read as the tree that the precedences ask for
(`parseExpr_sequence`): the whole sequence is consumed, and chained operators of a level that does
not associate are reported where they are neighbours in the tree.
-/

namespace Cangjie.Parse

open EventualResult OperatorGrouping

/-! ## Sequences -/

/-- The kinds of the binary operators. -/
def IsBinary (kind : TokenKind) : Prop :=
  (precedence kind ≠ 0 ∨ isAssign kind = true) ∧ kind ≠ .QUEST ∧ kind ≠ .IS ∧ kind ≠ .AS

/-- The tokens of an operator. -/
inductive IsSpelling : List Token → TokenKind → Prop where
  | single {t : Token} (h : IsBinary t.kind) : IsSpelling [t] t.kind
  | rshiftAssign {a b c : Token} (h : seeingCombinator [.GT, .GT, .ASSIGN] [a, b, c] = true) :
      IsSpelling [a, b, c] .RSHIFT_ASSIGN
  | rshift {a b : Token} (h : seeingCombinator [.GT, .GT] [a, b] = true) :
      IsSpelling [a, b] .RSHIFT
  | ge {a b : Token} (h : seeingCombinator [.GT, .ASSIGN] [a, b] = true) : IsSpelling [a, b] .GE
  | coalescing {a b : Token} (h : seeingCombinator [.QUEST, .QUEST] [a, b] = true) :
      IsSpelling [a, b] .COALESCING

namespace IsSpelling

variable {tokens : List Token} {kind : TokenKind}

theorem isBinary (h : IsSpelling tokens kind) : IsBinary kind := by
  cases h with
  | single h => exact h
  | rshiftAssign | rshift | ge | coalescing =>
    exact ⟨by decide, by decide, by decide, by decide⟩

/-- An operator does not begin with a colon. -/
theorem peek_ne_colon (h : IsSpelling tokens kind) : peek tokens ≠ .COLON := by
  cases h with
  | single h =>
    intro hcolon
    rw [peek_cons] at hcolon
    rw [hcolon] at h
    exact absurd h.1 (by decide)
  | rshiftAssign h | rshift h | ge h | coalescing h =>
    rw [peek_cons, (List.cons.inj (kinds_of_seeingCombinator h)).1]
    decide

end IsSpelling

/-- A binary operator in the text. -/
structure BinaryOperator where
  tokens : List Token
  kind : TokenKind
  spelling : IsSpelling tokens kind
  /-- the tokens have positions -/
  real : ∀ t ∈ tokens, isZero t.beginPos = false

namespace BinaryOperator

variable (op : BinaryOperator)

/-- The operator as one token. -/
def token : Token := getExprOperator op.tokens

theorem lookup_single (t : Token) : lookupSeenCombinator [t] = none := by
  have hshort : ∀ a b : TokenKind, seeingCombinator [a, b] [t] = false := fun _ _ =>
    seeingCombinator_of_length_lt (Nat.lt_add_one 1)
  have hlong : seeingCombinator [.GT, .GT, .ASSIGN] [t] = false :=
    seeingCombinator_of_length_lt (by decide : 1 < 3)
  simp [lookupSeenCombinator, hshort, hlong]

/-- The operator is one token that begins no combinator, or it is the combinator seen. -/
theorem lookup_eq : (∃ t, op.tokens = [t] ∧ op.kind = t.kind ∧ IsBinary t.kind) ∨
    ∃ value, lookupSeenCombinator op.tokens = some (op.kind, value) ∧
      value.length = op.tokens.length := by
  obtain ⟨tokens, kind, spelling, real⟩ := op
  have hlong : ∀ a b : Token, seeingCombinator [.GT, .GT, .ASSIGN] [a, b] = false := fun a b =>
    seeingCombinator_of_length_lt (by decide : 2 < 3)
  cases spelling with
  | single h => exact .inl ⟨_, rfl, rfl, h⟩
  | rshiftAssign h => exact .inr ⟨[62, 62, 61], by simp [lookupSeenCombinator, h], rfl⟩
  | rshift h => exact .inr ⟨[62, 62], by simp [lookupSeenCombinator, h, hlong], rfl⟩
  | @ge a b h =>
    have hrshift : seeingCombinator [.GT, .GT] [a, b] = false :=
      seeingCombinator_of_ne h rfl (by decide)
    exact .inr ⟨[62, 61], by simp [lookupSeenCombinator, h, hlong, hrshift], rfl⟩
  | @coalescing a b h =>
    have hrshift : seeingCombinator [.GT, .GT] [a, b] = false :=
      seeingCombinator_of_ne h rfl (by decide)
    have hge : seeingCombinator [.GT, .ASSIGN] [a, b] = false :=
      seeingCombinator_of_ne h rfl (by decide)
    exact .inr ⟨[63, 63], by simp [lookupSeenCombinator, h, hlong, hrshift, hge], rfl⟩

theorem token_kind : op.token.kind = op.kind := by
  rw [token, getExprOperator]
  rcases op.lookup_eq with ⟨t, htokens, hkind, -⟩ | ⟨value, hvalue, -⟩
  · rw [htokens, lookup_single, hkind]
    rfl
  · rw [hvalue]

theorem tokens_ne_nil : op.tokens ≠ [] := by
  obtain ⟨tokens, kind, spelling, real⟩ := op
  cases spelling <;> exact List.cons_ne_nil _ _

/-- The token of an operator begins where the operator does. -/
theorem isZero_token : isZero op.token.beginPos = false := by
  obtain ⟨t, tokens, htokens⟩ := List.exists_cons_of_ne_nil op.tokens_ne_nil
  have hreal : isZero t.beginPos = false := op.real t (htokens ▸ List.mem_cons_self)
  have hbegin : op.token.beginPos = t.beginPos := by
    rw [token, getExprOperator, htokens]
    cases lookupSeenCombinator (t :: tokens) <;> rfl
  rw [hbegin, hreal]

theorem exprOperatorLength_eq : exprOperatorLength op.tokens = op.tokens.length := by
  rw [exprOperatorLength]
  rcases op.lookup_eq with ⟨t, htokens, -⟩ | ⟨value, hvalue, hlength⟩
  · rw [htokens, lookup_single]
    rfl
  · rw [hvalue]
    exact hlength

theorem seeingExprOperator_eq : seeingExprOperator op.tokens = true := by
  rw [seeingExprOperator, Bool.or_eq_true, Bool.or_eq_true]
  rcases op.lookup_eq with ⟨t, htokens, -, hbinary⟩ | ⟨value, hvalue, -⟩
  · rw [htokens, peek_cons, bne_iff_ne]
    rcases hbinary.1 with h | h
    · exact .inl (.inr h)
    · exact .inr h
  · rw [hvalue]
    exact .inl (.inl rfl)

end BinaryOperator

/-- The operators and operands behind the first operand. -/
abbrev Rest := List (BinaryOperator × Operand)

/-- The items of operators with their operands. -/
def itemsOf : Rest → List Item
  | [] => []
  | (op, o) :: rest => op.tokens.map .token ++ .operand o :: itemsOf rest

/-- The operators and operands in the order of the text. -/
def readingOf : Rest → List (Operand ⊕ Token)
  | [] => []
  | (op, o) :: rest => .inr op.token :: .inl o :: readingOf rest

/-- No operand behind an `=` has a wildcard in it. -/
def NoWildcardAssigned : Rest → Prop
  | [] => True
  | (op, o) :: rest =>
    (op.kind = .ASSIGN → o.wildcardLines = [] ∧ ∀ x ∈ rest, x.2.wildcardLines = []) ∧
      NoWildcardAssigned rest

theorem readingOf_append (used rest : Rest) :
    readingOf (used ++ rest) = readingOf used ++ readingOf rest := by
  induction used with
  | nil => rfl
  | cons x used ih => rw [List.cons_append, readingOf, readingOf, ih, List.cons_append,
      List.cons_append]

theorem NoWildcardAssigned.of_append {used rest : Rest} (h : NoWildcardAssigned (used ++ rest)) :
    NoWildcardAssigned rest := by
  induction used with
  | nil => exact h
  | cons x used ih => exact ih h.2

theorem leadingTokens_map_append (ts : List Token) (o : Operand) (items : List Item) :
    leadingTokens (ts.map .token ++ .operand o :: items) = ts := by
  induction ts with
  | nil => rfl
  | cons t ts ih => rw [List.map_cons, List.cons_append, leadingTokens, ih]

theorem leadingTokens_itemsOf_cons (op : BinaryOperator) (o : Operand) (rest : Rest) :
    leadingTokens (itemsOf ((op, o) :: rest)) = op.tokens :=
  leadingTokens_map_append op.tokens o (itemsOf rest)

theorem peek_itemsOf_ne_colon (rest : Rest) : peek (leadingTokens (itemsOf rest)) ≠ .COLON := by
  cases rest with
  | nil => decide
  | cons x rest =>
    rw [leadingTokens_itemsOf_cons]
    exact x.1.spelling.peek_ne_colon

/-- Some tokens are taken off the front. -/
theorem next_iterate {s : State} {ts : List Token} {items : List Item}
    (h : s.items = ts.map .token ++ items) :
    (State.next^[ts.length] s).items = items ∧
      (State.next^[ts.length] s).chained = s.chained := by
  induction ts generalizing s with
  | nil => exact ⟨h, rfl⟩
  | cons t ts ih =>
    have hnext : s.next = { s with items := ts.map .token ++ items,
                                   lastToken := (t.beginPos.line, t.endPos.line) } := by
      rw [State.next, h]
      rfl
    rw [List.length_cons, Function.iterate_succ_apply, hnext]
    exact ih rfl

theorem skipExprOperator_spec {s : State} {op : BinaryOperator} {o : Operand} {rest : Rest}
    (h : s.items = itemsOf ((op, o) :: rest)) :
    s.skipExprOperator.items = .operand o :: itemsOf rest ∧
      s.skipExprOperator.chained = s.chained := by
  have htokens : s.tokens = op.tokens := by
    rw [State.tokens, h, leadingTokens_itemsOf_cons]
  rw [State.skipExprOperator, htokens, op.exprOperatorLength_eq]
  exact next_iterate h

/-! ## What settles -/

section Settling

variable {preT tok : Token} {base rExpr : Expr} {s s₁ s₂ : State} {r : Expr × State}

theorem settles_expr (hbase : parseBaseExpr s = some (base, s₁))
    (h : Settles (parseOperators · preT base s₁) r) : Settles (parseExpr · preT s) r :=
  settles_of_succ (fun fuel => by rw [parseExpr, hbase]; rfl) h

theorem settles_end (h : seeingExprOperator s.tokens = false) :
    Settles (parseOperators · preT base s) (base, s) :=
  settles_of_succ (fun fuel => by rw [parseOperators, h]; rfl) (settles_of_eq fun _ => rfl)

theorem settles_stop (h : seeingExprOperator s.tokens = true)
    (htok : getExprOperator s.tokens = tok) (hstop : endsExpr preT tok = true) :
    Settles (parseOperators · preT base s) (checkOperator preT base tok s) := by
  refine settles_of_succ (fun fuel => ?_) (settles_of_eq fun _ => rfl)
  rw [parseOperators, h, htok]
  exact if_pos hstop

theorem settles_register (hassign : tok.kind = .ASSIGN → rExpr.wildcardLines = [])
    (hcolon : peek s.tokens ≠ .COLON) :
    Settles (registerRightExpr · base tok rExpr s) (makeOperatorExpr base tok rExpr, s) := by
  have hs : (if tok.kind = .ASSIGN then s.checkWildcardInExpr rExpr else s) = s := by
    split_ifs with h
    · rw [State.checkWildcardInExpr, hassign h, List.foldl_nil]
    · rfl
  refine settles_of_succ (fun fuel => ?_) (settles_of_eq fun _ => rfl)
  rw [registerRightExpr, hs, if_neg]
  rintro ⟨-, hseeing⟩
  exact hcolon (seeing_iff.mp hseeing)

theorem settles_right (his : tok.kind ≠ .IS) (has : tok.kind ≠ .AS)
    (hright : Settles (parseExpr · tok s.skipExprOperator) (rExpr, s₁))
    (hassign : tok.kind = .ASSIGN → rExpr.wildcardLines = []) (hcolon : peek s₁.tokens ≠ .COLON) :
    Settles (parseExprWithRightExpr · base tok s)
      (wrapAssign base tok (makeOperatorExpr base tok rExpr), s₁) := by
  refine settles_of_succ
    (g := fun fuel => parseExpr fuel tok s.skipExprOperator >>= fun r =>
      (registerRightExpr fuel base tok r.1 r.2).map fun r => (wrapAssign base tok r.1, r.2))
    (fun fuel => ?_) (hright.bind ((settles_register hassign hcolon).map _))
  rw [parseExprWithRightExpr, if_neg (not_or_intro his has)]
  rfl

theorem settles_step {base' e : Expr} (h : seeingExprOperator s.tokens = true)
    (htok : getExprOperator s.tokens = tok) (hgo : endsExpr preT tok = false)
    (hchecked : checkOperator preT base tok s = (base', s₁))
    (hright : Settles (parseExprWithRightExpr · base' tok s₁) (e, s₂))
    (hmore : Settles (parseOperators · preT e s₂) r) :
    Settles (parseOperators · preT base s) r := by
  refine settles_of_succ (fun fuel => ?_)
    (hright.bind (g := fun fuel r => parseOperators fuel preT r.1 r.2) hmore)
  rw [parseOperators, h, htok]
  refine (if_neg (Bool.eq_false_iff.mp hgo)).trans ?_
  rw [hchecked]
  rfl

end Settling

/-! ## Precedence as grouping -/

/-- The levels of the operators; `**` and `??` group to the right. -/
def levels : Levels Token ℕ where
  level tok := precedence tok.kind
  toRight n := n = precedence .EXP ∨ n = precedence .COALESCING

/-- The tree of an expression. -/
def Expr.shape : Expr → OpTree Operand Token
  | base _ o => .operand o
  | optionalChain _ e => e.shape
  | operator _ tok left right => .node tok left.shape right.shape
  | step _ range _ => range.shape

theorem eq_exp_of_precedence {kind : TokenKind} (h : precedence kind = precedence .EXP) :
    kind = .EXP := by
  cases kind <;> first | rfl | cases h

theorem eq_coalescing_of_precedence {kind : TokenKind}
    (h : precedence kind = precedence .COALESCING) : kind = .COALESCING := by
  cases kind <;> first | rfl | cases h

/-- The operators of a level that groups to the right. -/
theorem toRight_level_iff {tok : Token} :
    levels.toRight (levels.level tok) ↔ tok.kind = .EXP ∨ tok.kind = .COALESCING :=
  or_congr ⟨eq_exp_of_precedence, fun h => congrArg precedence h⟩
    ⟨eq_coalescing_of_precedence, fun h => congrArg precedence h⟩

/-- A level that does not associate does not group to the right. -/
theorem not_toRight_of_isNoneAssociative {tok : Token} (h : isNoneAssociative tok = true) :
    ¬ levels.toRight (levels.level tok) := by
  rw [toRight_level_iff]
  rintro (hkind | hkind) <;>
  · rw [isNoneAssociative, hkind] at h
    revert h
    decide

/-- Operators of one level associate alike. -/
theorem isNoneAssociative_congr {a b : Token} (h : levels.level a = levels.level b) :
    isNoneAssociative a = isNoneAssociative b := by
  have hprecedence : precedence a.kind = precedence b.kind := h
  rw [isNoneAssociative, isNoneAssociative, hprecedence]

/-- The operator may stand in the right operand of the incoming one; everything may stand in a
whole expression. -/
def Within (preT tok : Token) : Prop :=
  preT = outermost ∨ (isZero preT.beginPos = false ∧ levels.InRight tok preT)

theorem endsExpr_outermost (tok : Token) : endsExpr outermost tok = false := by
  have hzero : isZero outermost.beginPos = true := rfl
  have hpre : precedence outermost.kind = 0 := rfl
  rw [endsExpr, hzero, hpre, Bool.or_eq_false_iff, decide_eq_false_iff_not]
  refine ⟨Nat.not_lt_zero _, ?_⟩
  cases precedence tok.kind with
  | zero => simp
  | succ n => rfl

/-- The loop goes on with the operators that may stand in the right operand. -/
theorem endsExpr_eq_false_iff {preT tok : Token} (hreal : isZero preT.beginPos = false) :
    endsExpr preT tok = false ↔ levels.InRight tok preT := by
  have hend : endsExpr preT tok = false ↔ ¬ precedence tok.kind < precedence preT.kind ∧
      (precedence preT.kind = precedence tok.kind → tok.kind = .EXP ∨ tok.kind = .COALESCING) := by
    rw [endsExpr, hreal]
    simp only [Bool.or_eq_false_iff, decide_eq_false_iff_not, Bool.and_eq_false_iff,
      beq_eq_false_iff_ne, bne_eq_false_iff_eq, Bool.false_and, Bool.not_false, Bool.true_eq_false]
    tauto
  rw [hend, ← toRight_level_iff, Levels.InRight]
  show ¬ levels.level tok < levels.level preT ∧
    (levels.level preT = levels.level tok → _) ↔ _
  constructor
  · rintro ⟨hle, hright⟩
    rcases Nat.lt_or_eq_of_le (Nat.le_of_not_lt hle) with hlt | heq
    · exact .inl hlt
    · exact .inr ⟨heq.symm, heq ▸ hright heq⟩
  · rintro (hlt | ⟨heq, hright⟩)
    · exact ⟨Nat.lt_asymm hlt, fun heq => absurd heq hlt.ne⟩
    · exact ⟨heq.not_lt, fun _ => heq ▸ hright⟩

/-- The incoming operator: that of a whole expression or an operator of the text. -/
inductive Incoming : Token → Prop where
  | outermost : Incoming outermost
  | real {preT : Token} (h : isZero preT.beginPos = false) : Incoming preT

theorem Incoming.endsExpr_eq_false_iff {preT tok : Token} (h : Incoming preT) :
    endsExpr preT tok = false ↔ Within preT tok := by
  cases h with
  | outermost => exact iff_of_true (endsExpr_outermost tok) (.inl rfl)
  | real h =>
    rw [Parse.endsExpr_eq_false_iff h, Within, and_iff_right h, or_iff_right]
    rintro rfl
    cases h

/-! ## Chained operators -/

/-- An operand without an error of its own. -/
structure Operand.IsClean (o : Operand) : Prop where
  attributes : o.attributes = {}
  isMacroDecl : o.isMacroDecl = false

/-- A tree of operands without errors of their own. -/
def Clean (t : OpTree Operand Token) : Prop := ∀ o, .inl o ∈ t.reading → o.IsClean

/-- Two operators of a level that does not associate are neighbours of the level, with such a tree
between them. -/
def Chained (P : OpTree Operand Token → Prop) (t : OpTree Operand Token) : Prop :=
  ∃ earlier between later, t.Meet levels earlier between later ∧
    isNoneAssociative later = true ∧ P between

/-- The operator that comes next is chained to this one. -/
def NextChained (tok : Token) (rest : Rest) : Prop :=
  ∃ op o rest', rest = (op, o) :: rest' ∧ levels.level tok = levels.level op.token ∧
    isNoneAssociative op.token = true

/-- The operator that comes next is chained to the root, with such a tree between them. -/
def RootChained (P : OpTree Operand Token → Prop) (t : OpTree Operand Token) (rest : Rest) : Prop :=
  ∃ tok left right, t = .node tok left right ∧ NextChained tok rest ∧ P right

section Chains

variable {P : OpTree Operand Token → Prop} {tok : Token} {left right : OpTree Operand Token}
variable {op : BinaryOperator} {o : Operand} {rest : Rest}

/-- On the right of an operator there is no neighbour of a level that does not associate. -/
theorem not_meet_right {later : Token} (h : ∀ t, .inr t ∈ right.reading → levels.InRight t tok)
    (hlevel : levels.level tok = levels.level later) (hlater : isNoneAssociative later = true)
    {between r : OpTree Operand Token} : right ≠ .node later between r := by
  rintro rfl
  have hin : levels.InRight later tok := h later (List.mem_append_right _ List.mem_cons_self)
  rcases hin with hlt | ⟨-, hright⟩
  · exact hlt.ne hlevel
  · exact not_toRight_of_isNoneAssociative hlater (hlevel ▸ hright)

/-- Chained operators under a new root, which was the operator that came next. -/
theorem chained_node_iff (h : ∀ t, .inr t ∈ right.reading → levels.InRight t op.token) :
    Chained P (.node op.token left right) ↔
      Chained P left ∨ Chained P right ∨ RootChained P left ((op, o) :: rest) := by
  constructor
  · rintro ⟨earlier, between, later, hmeet, hlater, hbetween⟩
    rcases hmeet with hmeet | hmeet | ⟨rfl, hlevel, l, rfl⟩ | ⟨rfl, hlevel, r, hr⟩
    · exact .inl ⟨earlier, between, later, hmeet, hlater, hbetween⟩
    · exact .inr (.inl ⟨earlier, between, later, hmeet, hlater, hbetween⟩)
    · exact .inr (.inr ⟨earlier, l, between, rfl, ⟨op, o, rest, rfl, hlevel, hlater⟩, hbetween⟩)
    · exact absurd hr (not_meet_right h hlevel hlater)
  · rintro (⟨earlier, between, later, hmeet, hlater, hbetween⟩ |
      ⟨earlier, between, later, hmeet, hlater, hbetween⟩ |
      ⟨earlier, l, between, rfl, ⟨op', o', rest', hrest, hlevel, hlater⟩, hbetween⟩)
    · exact ⟨earlier, between, later, .inl hmeet, hlater, hbetween⟩
    · exact ⟨earlier, between, later, .inr (.inl hmeet), hlater, hbetween⟩
    · cases hrest
      exact ⟨earlier, between, op.token, .inr (.inr (.inl ⟨rfl, hlevel, l, rfl⟩)), hlater,
        hbetween⟩

theorem not_chained_operand (o : Operand) : ¬ Chained P (.operand o) := by
  rintro ⟨_, _, _, hmeet, -⟩
  exact hmeet

theorem not_rootChained_operand (o : Operand) : ¬ RootChained P (.operand o) rest := by
  rintro ⟨_, _, _, heq, -⟩
  cases heq

theorem not_nextChained_nil : ¬ NextChained tok [] := by
  rintro ⟨_, _, _, heq, -⟩
  cases heq

end Chains

/-! ## The loop -/

/-- What is known of an expression that is read in the loop: it is grouped, its operators belong on
the right of the incoming operator and on the left of the next one, and what was reported so far are
its chained operators and, if the next operator is chained to the root, that. -/
structure Read (preT : Token) (base : Expr) (rest : Rest) (reported : List (Token × Token)) :
    Prop where
  grouped : base.shape.Grouped levels
  within : ∀ t, .inr t ∈ base.shape.reading → Within preT t
  inLeft : ∀ op o rest', rest = (op, o) :: rest' →
    ∀ t, .inr t ∈ base.shape.reading → levels.InLeft t op.token
  sound : reported ≠ [] →
    Chained (fun _ => True) base.shape ∨ RootChained (fun _ => True) base.shape rest
  complete : Chained Clean base.shape ∨ RootChained Clean base.shape rest → reported ≠ []
  broken : isZero preT.beginPos = false → base.attributes ≠ {} →
    reported ≠ [] ∨ ¬ Clean base.shape
  wildcards : (∀ o, .inl o ∈ base.shape.reading → o.wildcardLines = []) → base.wildcardLines = []

/-- What is known of an expression that is read as a whole for an incoming operator, with the rest
behind it. -/
structure Complete (preT : Token) (e : Expr) (rest : Rest) (reported : List (Token × Token)) :
    Prop where
  grouped : e.shape.Grouped levels
  within : ∀ t, .inr t ∈ e.shape.reading → Within preT t
  stops : ∀ op o rest', rest = (op, o) :: rest' → ¬ Within preT op.token
  sound : reported ≠ [] → Chained (fun _ => True) e.shape ∨ NextChained preT rest
  complete : Chained Clean e.shape ∨ (NextChained preT rest ∧ Clean e.shape) → reported ≠ []
  broken : isZero preT.beginPos = false → e.attributes ≠ {} → reported ≠ [] ∨ ¬ Clean e.shape
  wildcards : (∀ o, .inl o ∈ e.shape.reading → o.wildcardLines = []) → e.wildcardLines = []

section Loop

variable {preT : Token} {base rExpr : Expr} {s : State} {op : BinaryOperator} {o : Operand}
variable {rest rest' : Rest} {reported reported' : List (Token × Token)}

/-- An operand is read as it is, or as an optional chain. -/
theorem parseBaseExpr_spec {items : List Item} (h : s.items = .operand o :: items) :
    ∃ base s', parseBaseExpr s = some (base, s') ∧ s'.items = items ∧ s'.chained = s.chained ∧
      base.shape = .operand o ∧ (base.attributes ≠ {} → o.attributes ≠ {}) ∧
      base.wildcardLines = o.wildcardLines := by
  rw [parseBaseExpr, h]
  dsimp only
  split_ifs with hchain
  · exact ⟨_, _, rfl, rfl, rfl, rfl, fun hne => absurd rfl hne, rfl⟩
  · exact ⟨_, _, rfl, rfl, rfl, rfl, id, rfl⟩

theorem Read.start (hshape : base.shape = .operand o)
    (hattributes : base.attributes ≠ {} → o.attributes ≠ {})
    (hwildcards : base.wildcardLines = o.wildcardLines) : Read preT base rest [] := by
  have hops : ∀ t : Token, .inr t ∉ base.shape.reading := by
    intro t ht
    rw [hshape, OpTree.reading, List.mem_singleton] at ht
    cases ht
  have hoperand : .inl o ∈ base.shape.reading := by
    rw [hshape]
    exact List.mem_cons_self
  refine ⟨hshape ▸ trivial, fun t ht => absurd ht (hops t), fun _ _ _ _ t ht => absurd ht (hops t),
    fun hne => absurd rfl hne, ?_, fun _ hne => .inr fun hclean => ?_, fun hfree => ?_⟩
  · rw [hshape]
    rintro (h | h)
    · exact absurd h (not_chained_operand o)
    · exact absurd h (not_rootChained_operand o)
  · exact hattributes hne (hclean o hoperand).attributes
  · rw [hwildcards]
    exact hfree o hoperand

theorem enableAttr_shape (attrs : Attributes) (e : Expr) :
    (e.enableAttr attrs).shape = e.shape := by
  cases e <;> rfl

theorem enableAttr_wildcardLines (attrs : Attributes) (e : Expr) :
    (e.enableAttr attrs).wildcardLines = e.wildcardLines := by
  cases e <;> rfl

/-- What checking the operator changes: marks, and what is reported. -/
theorem checkOperator_spec (preT : Token) (base : Expr) (tok : Token) (s : State) :
    (checkOperator preT base tok s).1.shape = base.shape ∧
      (checkOperator preT base tok s).1.wildcardLines = base.wildcardLines ∧
      (checkOperator preT base tok s).2.items = s.items := by
  rw [checkOperator]
  split_ifs
  · rw [checkLeftExpression]
    split_ifs
    · exact ⟨enableAttr_shape _ _, enableAttr_wildcardLines _ _, rfl⟩
    · exact ⟨rfl, rfl, rfl⟩
    · exact ⟨enableAttr_shape _ _, enableAttr_wildcardLines _ _, rfl⟩
    · exact ⟨rfl, rfl, rfl⟩
  · exact ⟨rfl, rfl, rfl⟩

/-- Nothing is reported at an operator with which the loop goes on. -/
theorem checkOperator_within {tok : Token} (base : Expr) (s : State) (h : Within preT tok) :
    (checkOperator preT base tok s).2 = s ∧
      (isZero preT.beginPos = false → (checkOperator preT base tok s).1 = base) := by
  rw [checkOperator]
  split_ifs with heq
  · rw [checkLeftExpression]
    rcases h with rfl | ⟨hreal, hin⟩
    · have hzero : isZero outermost.beginPos = true := rfl
      rw [if_pos hzero]
      split_ifs
      · exact ⟨rfl, fun h => absurd h (by decide)⟩
      · exact ⟨rfl, fun h => absurd h (by decide)⟩
    · have hnone : isNoneAssociative tok = false := by
        refine Bool.eq_false_iff.mpr fun hnone => ?_
        rcases hin with hlt | ⟨hlevel, hright⟩
        · exact hlt.ne heq
        · exact not_toRight_of_isNoneAssociative hnone (hlevel ▸ hright)
      rw [hreal, if_neg Bool.false_ne_true, hnone, Bool.false_and, if_neg Bool.false_ne_true]
      exact ⟨rfl, fun _ => rfl⟩
  · exact ⟨rfl, fun _ => rfl⟩

theorem within_real {preT tok : Token} (hreal : isZero preT.beginPos = false) :
    Within preT tok ↔ levels.InRight tok preT := by
  rw [Within, and_iff_right hreal, or_iff_right]
  rintro rfl
  cases hreal

theorem wrapAssign_shape (base : Expr) (tok : Token) (e : Expr) :
    (wrapAssign base tok e).shape = e.shape := by
  rw [wrapAssign]
  split_ifs <;> rfl

theorem wrapAssign_wildcardLines (base : Expr) (tok : Token) (e : Expr) :
    (wrapAssign base tok e).wildcardLines = e.wildcardLines := by
  rw [wrapAssign]
  split_ifs <;> rfl

theorem checkMacroExprRules_of_clean {e : Expr} (h : Clean e.shape) :
    e.checkMacroExprRules = true := by
  cases e with
  | base attributes o =>
    have ho : o.IsClean := h o List.mem_cons_self
    rw [Expr.checkMacroExprRules, ho.isMacroDecl, Bool.not_false]
  | optionalChain | operator | step => rfl

theorem Clean.of_node {tok : Token} {left right : OpTree Operand Token}
    (h : Clean (.node tok left right)) : Clean left ∧ Clean right :=
  ⟨fun o ho => h o (List.mem_append_left _ ho),
    fun o ho => h o (List.mem_append_right _ (List.mem_cons_of_mem _ ho))⟩

/-- An expression that the operator makes is marked for what it is made of. -/
theorem attributes_wrapAssign {base : Expr} {tok : Token}
    (h : (wrapAssign base tok (makeOperatorExpr base tok rExpr)).attributes ≠ {}) :
    base.checkMacroExprRules = false ∨ rExpr.checkMacroExprRules = false ∨
      rExpr.attributes ≠ {} ∨ base.attributes ≠ {} := by
  by_contra hclean
  simp only [not_or, Bool.not_eq_false, not_not] at hclean
  obtain ⟨hbase, hright, hrattributes, hattributes⟩ := hclean
  refine h ?_
  rw [wrapAssign]
  split_ifs
  · rfl
  · rw [makeOperatorExpr, Expr.attributes, hbase, hright, hrattributes, hattributes]
    rfl

/-- The operator makes a new expression of what is read and its right operand. -/
theorem Read.step {base' : Expr} (h : Read preT base ((op, o) :: rest) reported)
    (hin : Within preT op.token) (hshape : base'.shape = base.shape)
    (hwildcards : base'.wildcardLines = base.wildcardLines)
    (hbase : isZero preT.beginPos = false → base' = base)
    (hright : Complete op.token rExpr rest' reported') :
    Read preT (wrapAssign base' op.token (makeOperatorExpr base' op.token rExpr)) rest'
      (reported ++ reported') := by
  have hnode : (wrapAssign base' op.token (makeOperatorExpr base' op.token rExpr)).shape =
      .node op.token base.shape rExpr.shape := by
    rw [wrapAssign_shape, makeOperatorExpr, Expr.shape, hshape]
  have hinRight : ∀ t, .inr t ∈ rExpr.shape.reading → levels.InRight t op.token := fun t ht =>
    (within_real op.isZero_token).mp (hright.within t ht)
  have hinLeft := h.inLeft op o rest rfl
  have hreading : ∀ t : Token, .inr t ∈ (OpTree.node op.token base.shape rExpr.shape).reading →
      .inr t ∈ base.shape.reading ∨ t = op.token ∨ .inr t ∈ rExpr.shape.reading := by
    intro t ht
    rw [OpTree.reading, List.mem_append, List.mem_cons, Sum.inr.injEq] at ht
    exact ht
  refine ⟨?_, ?_, ?_, ?_, ?_, ?_, ?_⟩
  · rw [hnode]
    exact ⟨h.grouped, hright.grouped, hinLeft, hinRight⟩
  · rw [hnode]
    intro t ht
    rcases hreading t ht with ht | rfl | ht
    · exact h.within t ht
    · exact hin
    · rcases hin with rfl | ⟨hreal, hin⟩
      · exact .inl rfl
      · exact .inr ⟨hreal, (hinRight t ht).trans hin⟩
  · rintro op' o' rest'' hrest t ht
    have hnext : levels.InLeft op.token op'.token :=
      Levels.inLeft_iff_not_inRight.mpr fun hin' =>
        hright.stops op' o' rest'' hrest ((within_real op.isZero_token).mpr hin')
    rw [hnode] at ht
    rcases hreading t ht with ht | rfl | ht
    · exact (hinLeft t ht).trans hnext
    · exact hnext
    · exact (hinRight t ht).inLeft hnext
  · intro hne
    rw [hnode, chained_node_iff hinRight]
    rcases not_and_or.mp (mt List.append_eq_nil_iff.mpr hne) with hne | hne
    · rcases h.sound hne with hchained | hroot
      · exact .inl (.inl hchained)
      · exact .inl (.inr (.inr hroot))
    · rcases hright.sound hne with hchained | hnext
      · exact .inl (.inr (.inl hchained))
      · exact .inr ⟨op.token, _, _, rfl, hnext, trivial⟩
  · rw [hnode, chained_node_iff hinRight]
    rintro ((hchained | hchained | hroot) | ⟨tok, l, r, heq, hnext, hclean⟩)
    · exact List.append_ne_nil_of_left_ne_nil (h.complete (.inl hchained)) _
    · exact List.append_ne_nil_of_right_ne_nil _ (hright.complete (.inl hchained))
    · exact List.append_ne_nil_of_left_ne_nil (h.complete (.inr hroot)) _
    · cases heq
      exact List.append_ne_nil_of_right_ne_nil _ (hright.complete (.inr ⟨hnext, hclean⟩))
  · intro hreal hne
    obtain rfl := hbase hreal
    rw [hnode]
    rcases attributes_wrapAssign hne with hcall | hcall | hne | hne
    · refine .inr fun hclean => absurd (checkMacroExprRules_of_clean hclean.of_node.1) ?_
      rw [hcall]
      exact Bool.false_ne_true
    · refine .inr fun hclean => absurd (checkMacroExprRules_of_clean hclean.of_node.2) ?_
      rw [hcall]
      exact Bool.false_ne_true
    · exact (hright.broken op.isZero_token hne).imp (List.append_ne_nil_of_right_ne_nil _)
        fun hnot hclean => hnot hclean.of_node.2
    · exact (h.broken hreal hne).imp (fun hne => List.append_ne_nil_of_left_ne_nil hne _)
        fun hnot hclean => hnot hclean.of_node.1
  · intro hfree
    rw [hnode] at hfree
    rw [wrapAssign_wildcardLines, makeOperatorExpr, Expr.wildcardLines, hwildcards,
      h.wildcards fun o ho => hfree o (List.mem_append_left _ ho),
      hright.wildcards fun o ho => hfree o (List.mem_append_right _ (List.mem_cons_of_mem _ ho)),
      List.append_nil, ite_self]

/-- The loop ends at the end of the text. -/
theorem Read.atEnd (h : Read preT base [] reported) : Complete preT base [] reported where
  grouped := h.grouped
  within := h.within
  stops := fun _ _ _ hrest => absurd hrest (List.cons_ne_nil _ _).symm
  sound := fun hne => (h.sound hne).imp_right fun ⟨_, _, _, _, hnext, _⟩ =>
    absurd hnext not_nextChained_nil
  complete := fun hchained => hchained.elim (fun hchained => h.complete (.inl hchained))
    fun hnext => absurd hnext.1 not_nextChained_nil
  broken := h.broken
  wildcards := h.wildcards

/-- Where the loop ends in front of an operator, this is not chained to the root. -/
theorem Read.not_rootChained {P : OpTree Operand Token → Prop}
    (h : Read preT base ((op, o) :: rest) reported) (hreal : isZero preT.beginPos = false)
    (hstop : ¬ levels.InRight op.token preT) : ¬ RootChained P base.shape ((op, o) :: rest) := by
  rintro ⟨tok, left, right, hshape, ⟨op', o', rest', hrest, hlevel, -⟩, -⟩
  cases hrest
  have htok : .inr tok ∈ base.shape.reading := by
    rw [hshape]
    exact List.mem_append_right _ List.mem_cons_self
  refine hstop ?_
  rcases (within_real hreal).mp (h.within tok htok) with hlt | ⟨heq, hright⟩
  · exact .inl (hlevel ▸ hlt)
  · exact .inr ⟨hlevel.symm.trans heq, hright⟩

/-- The loop ends in front of an operator that does not belong on the right of the incoming one. -/
theorem Read.atOperator (h : Read preT base ((op, o) :: rest) reported) (hpre : Incoming preT)
    (hstop : ¬ Within preT op.token) :
    ∃ new, (checkOperator preT base op.token s).2.chained = s.chained ++ new ∧
      Complete preT (checkOperator preT base op.token s).1 ((op, o) :: rest) (reported ++ new) := by
  have hreal : isZero preT.beginPos = false := by
    cases hpre with
    | outermost => exact absurd (.inl rfl) hstop
    | real hreal => exact hreal
  have hstop' : ¬ levels.InRight op.token preT := fun hin => hstop ((within_real hreal).mpr hin)
  have hsound : reported ≠ [] → Chained (fun _ => True) base.shape := fun hne =>
    (h.sound hne).resolve_right (h.not_rootChained hreal hstop')
  have hstops : ∀ op' o' rest', (op, o) :: rest = (op', o') :: rest' → ¬ Within preT op'.token := by
    intro op' o' rest' hrest
    cases hrest
    exact hstop
  have hnext : NextChained preT ((op, o) :: rest) ↔
      precedence preT.kind = precedence op.token.kind ∧ isNoneAssociative op.token = true := by
    refine ⟨fun ⟨op', o', rest', hrest, hlevel, hnone⟩ => ?_, fun ⟨hlevel, hnone⟩ =>
      ⟨op, o, rest, rfl, hlevel, hnone⟩⟩
    cases hrest
    exact ⟨hlevel, hnone⟩
  -- nothing changes unless the operator is chained to the incoming one
  have hunchanged : (NextChained preT ((op, o) :: rest) → base.attributes ≠ {}) →
      Complete preT base ((op, o) :: rest) (reported ++ []) := by
    intro hbroken
    rw [List.append_nil]
    refine ⟨h.grouped, h.within, hstops, fun hne => .inl (hsound hne), ?_, h.broken, h.wildcards⟩
    rintro (hchained | ⟨hchained, hclean⟩)
    · exact h.complete (.inl hchained)
    · exact (h.broken hreal (hbroken hchained)).resolve_right (not_not_intro hclean)
  rw [checkOperator]
  split_ifs with hlevel
  · rw [checkLeftExpression, hreal, if_neg Bool.false_ne_true]
    split_ifs with hreport
    · rw [Bool.and_eq_true] at hreport
      refine ⟨[(preT, op.token)], rfl, ?_⟩
      have hne : reported ++ [(preT, op.token)] ≠ [] :=
        List.append_ne_nil_of_right_ne_nil _ (List.cons_ne_nil _ _)
      have hshape := enableAttr_shape ⟨true, false⟩ base
      refine ⟨?_, ?_, hstops, fun _ => .inr (hnext.mpr ⟨hlevel, hreport.1⟩), fun _ => hne,
        fun _ _ => .inl hne, ?_⟩
      · rw [hshape]
        exact h.grouped
      · rw [hshape]
        exact h.within
      · rw [hshape, enableAttr_wildcardLines]
        exact h.wildcards
    · refine ⟨[], (List.append_nil _).symm, hunchanged fun hchained hclean => hreport ?_⟩
      rw [(hnext.mp hchained).2, hclean]
      rfl
  · exact ⟨[], (List.append_nil _).symm, hunchanged fun hchained =>
      absurd (hnext.mp hchained).1 hlevel⟩

end Loop

/-! ## Whole sequences -/

/-- An operand that is read is one of the text. -/
theorem mem_of_mem_readingOf {rest : Rest} {o : Operand} (h : .inl o ∈ readingOf rest) :
    ∃ x ∈ rest, x.2 = o := by
  induction rest with
  | nil => cases h
  | cons x rest ih =>
    rw [readingOf, List.mem_cons, List.mem_cons] at h
    rcases h with h | h | h
    · cases h
    · exact ⟨x, List.mem_cons_self, (Sum.inl.inj h).symm⟩
    · obtain ⟨y, hy, rfl⟩ := ih h
      exact ⟨y, List.mem_cons_of_mem x hy, rfl⟩

/-- What the loop returns, from an expression that is read. -/
def LoopReturns (preT : Token) (base : Expr) (s : State) (rest : Rest)
    (reported : List (Token × Token)) : Prop :=
  ∃ e s' used rest' new, rest = used ++ rest' ∧ Settles (parseOperators · preT base s) (e, s') ∧
    s'.items = itemsOf rest' ∧ s'.chained = s.chained ++ new ∧
    e.shape.reading = base.shape.reading ++ readingOf used ∧ Complete preT e rest' (reported ++ new)

/-- What is returned for an expression that begins with an operand. -/
def ExprReturns (preT : Token) (o : Operand) (s : State) (rest : Rest) : Prop :=
  ∃ e s' used rest' new, rest = used ++ rest' ∧ Settles (parseExpr · preT s) (e, s') ∧
    s'.items = itemsOf rest' ∧ s'.chained = s.chained ++ new ∧
    e.shape.reading = .inl o :: readingOf used ∧ Complete preT e rest' new

/-- An expression is read by the loop, behind its first operand. -/
theorem exprReturns_of_loop {preT : Token} {o : Operand} {s : State} {rest : Rest}
    (hitems : s.items = .operand o :: itemsOf rest)
    (hloop : ∀ base s', s'.items = itemsOf rest → Read preT base rest [] →
      LoopReturns preT base s' rest []) : ExprReturns preT o s rest := by
  obtain ⟨base, s₁, hbase, hitems₁, hchained₁, hshape, hattributes, hwildcards⟩ :=
    parseBaseExpr_spec hitems
  obtain ⟨e, s', used, rest', new, hrest, hsettles, hitems', hchained', hreading, hcomplete⟩ :=
    hloop base s₁ hitems₁ (Read.start hshape hattributes hwildcards)
  refine ⟨e, s', used, rest', new, hrest, settles_expr hbase hsettles, hitems',
    hchained'.trans (by rw [hchained₁]), ?_, hcomplete⟩
  rw [hreading, hshape]
  rfl

/-- The loop goes on with an operator and its right operand. -/
theorem loopReturns_step {preT : Token} {base : Expr} {s : State} {op : BinaryOperator}
    {o : Operand} {rest : Rest} {reported : List (Token × Token)}
    (hfree : NoWildcardAssigned ((op, o) :: rest)) (hpre : Incoming preT)
    (hitems : s.items = itemsOf ((op, o) :: rest))
    (hread : Read preT base ((op, o) :: rest) reported) (hin : Within preT op.token)
    (hright : ExprReturns op.token o s.skipExprOperator rest)
    (hmore : ∀ used rest', rest = used ++ rest' → ∀ base s' reported, s'.items = itemsOf rest' →
      Read preT base rest' reported → LoopReturns preT base s' rest' reported) :
    LoopReturns preT base s ((op, o) :: rest) reported := by
  have htokens : s.tokens = op.tokens := by rw [State.tokens, hitems, leadingTokens_itemsOf_cons]
  have htoken : getExprOperator s.tokens = op.token := by rw [htokens, BinaryOperator.token]
  have hseeing : seeingExprOperator s.tokens = true := by rw [htokens, op.seeingExprOperator_eq]
  have hgo : endsExpr preT op.token = false := hpre.endsExpr_eq_false_iff.mpr hin
  obtain ⟨hshape, hwildcards, -⟩ := checkOperator_spec preT base op.token s
  obtain ⟨hstate, hbase⟩ := checkOperator_within base s hin
  obtain ⟨-, hchained₀⟩ := skipExprOperator_spec hitems
  obtain ⟨r, s₁, used, rest', new, hrest, hsettles, hitems₁, hchained₁, hreading, hcomplete⟩ :=
    hright
  have hassign : op.token.kind = .ASSIGN → r.wildcardLines = [] := by
    rw [op.token_kind]
    intro hassign
    obtain ⟨ho, hfree⟩ := hfree.1 hassign
    refine hcomplete.wildcards fun o' ho' => ?_
    rw [hreading, List.mem_cons] at ho'
    rcases ho' with ho' | ho'
    · rw [Sum.inl.inj ho', ho]
    · obtain ⟨x, hx, rfl⟩ := mem_of_mem_readingOf ho'
      exact hfree x (hrest ▸ List.mem_append_left _ hx)
  have hcolon : peek s₁.tokens ≠ .COLON := by
    rw [State.tokens, hitems₁]
    exact peek_itemsOf_ne_colon rest'
  obtain ⟨-, -, his, has⟩ := op.spelling.isBinary
  rw [← op.token_kind] at his has
  let base' := (checkOperator preT base op.token s).1
  have hchecked : checkOperator preT base op.token s = (base', s) := Prod.ext rfl hstate
  have hnode : Settles (parseExprWithRightExpr · base' op.token s)
      (wrapAssign base' op.token (makeOperatorExpr base' op.token r), s₁) :=
    settles_right his has hsettles hassign hcolon
  obtain ⟨e, s', used', rest'', new', hrest', hloop, hitems', hchained', hreading', hcomplete'⟩ :=
    hmore used rest' hrest _ s₁ (reported ++ new) hitems₁
      (hread.step hin hshape hwildcards hbase hcomplete)
  refine ⟨e, s', (op, o) :: (used ++ used'), rest'', new ++ new', ?_, ?_, hitems', ?_, ?_, ?_⟩
  · rw [hrest, hrest', List.cons_append, List.append_assoc]
  · exact settles_step hseeing htoken hgo hchecked hnode hloop
  · rw [hchained', hchained₁, hchained₀, List.append_assoc]
  · rw [hreading', wrapAssign_shape, makeOperatorExpr, Expr.shape, OpTree.reading, hshape, hreading,
      readingOf, readingOf_append]
    simp only [List.append_assoc, List.cons_append]
  · rw [← List.append_assoc]
    exact hcomplete'

/-- The loop reads operators as long as they belong on the right of the incoming one. -/
theorem loopReturns (n : ℕ) : ∀ (rest : Rest) (preT : Token) (base : Expr) (s : State)
    (reported : List (Token × Token)), rest.length < n → NoWildcardAssigned rest →
      Incoming preT → s.items = itemsOf rest → Read preT base rest reported →
      LoopReturns preT base s rest reported := by
  induction n with
  | zero => exact fun _ _ _ _ _ hlength => absurd hlength (Nat.not_lt_zero _)
  | succ n ih =>
    intro rest preT base s reported hlength hfree hpre hitems hread
    cases rest with
    | nil =>
      refine ⟨base, s, [], [], [], rfl, settles_end ?_, hitems, (List.append_nil _).symm,
        (List.append_nil _).symm, ?_⟩
      · rw [State.tokens, hitems]
        rfl
      · rw [List.append_nil]
        exact hread.atEnd
    | cons x rest =>
      obtain ⟨op, o⟩ := x
      have hlength' : rest.length < n := Nat.lt_of_succ_lt_succ hlength
      by_cases hin : Within preT op.token
      · have hright : ExprReturns op.token o s.skipExprOperator rest :=
          exprReturns_of_loop (skipExprOperator_spec hitems).1 fun base s' hitems' hread' =>
            ih rest op.token base s' [] hlength' hfree.2 (.real op.isZero_token) hitems' hread'
        refine loopReturns_step hfree hpre hitems hread hin hright ?_
        intro used rest' hrest base s' reported hitems' hread'
        have hfree' : NoWildcardAssigned (used ++ rest') := hrest ▸ hfree.2
        have hshorter : rest'.length < n := by
          rw [hrest, List.length_append] at hlength'
          exact lt_of_le_of_lt (Nat.le_add_left _ _) hlength'
        exact ih rest' preT base s' reported hshorter hfree'.of_append hpre hitems' hread'
      · have htokens : s.tokens = op.tokens := by
          rw [State.tokens, hitems, leadingTokens_itemsOf_cons]
        have htoken : getExprOperator s.tokens = op.token := by rw [htokens, BinaryOperator.token]
        have hseeing : seeingExprOperator s.tokens = true := by
          rw [htokens, op.seeingExprOperator_eq]
        have hend : endsExpr preT op.token = true :=
          Bool.eq_true_of_not_eq_false fun hgo => hin (hpre.endsExpr_eq_false_iff.mp hgo)
        obtain ⟨hshape, -, hitems'⟩ := checkOperator_spec preT base op.token s
        obtain ⟨new, hchained, hcomplete⟩ := hread.atOperator (s := s) hpre hin
        refine ⟨(checkOperator preT base op.token s).1, (checkOperator preT base op.token s).2, [],
          (op, o) :: rest, new, rfl, settles_stop hseeing htoken hend, hitems'.trans hitems,
          hchained, ?_, hcomplete⟩
        rw [hshape, readingOf, List.append_nil]

/-- Operands with binary operators between them. -/
structure Sequence where
  first : Operand
  rest : Rest

namespace Sequence

/-- The items of a sequence. -/
def items (seq : Sequence) : List Item := .operand seq.first :: itemsOf seq.rest

/-- The operands and operators of a sequence. -/
def reading (seq : Sequence) : List (Operand ⊕ Token) := .inl seq.first :: readingOf seq.rest

end Sequence

/-- The sequence is consumed, and read as the tree that the precedences ask for. -/
structure ReadsSequence (seq : Sequence) (e : Expr) (s : State) : Prop where
  consumed : s.items = []
  reading : e.shape.reading = seq.reading
  grouped : e.shape.Grouped levels
  unique : ∀ t : OpTree Operand Token, t.Grouped levels → t.reading = seq.reading → t = e.shape

/-- A sequence in which no operand behind an `=` has a wildcard is read as its tree; chained
operators are reported only where a level does not associate, and they are reported unless the
operand between them has an error of its own. -/
theorem parseExpr_sequence (seq : Sequence) (hfree : NoWildcardAssigned seq.rest) (s : State)
    (hitems : s.items = seq.items) :
    ∃ e s' new, Settles (parseExpr · outermost s) (e, s') ∧ ReadsSequence seq e s' ∧
      s'.chained = s.chained ++ new ∧ (new ≠ [] → Chained (fun _ => True) e.shape) ∧
      (Chained Clean e.shape → new ≠ []) := by
  obtain ⟨e, s', used, rest', new, hrest, hsettles, hitems', hchained, hreading, hcomplete⟩ :=
    exprReturns_of_loop hitems fun base s' hitems' hread =>
      loopReturns _ seq.rest outermost base s' [] (Nat.lt_succ_self _) hfree .outermost hitems'
        hread
  have hend : rest' = [] := by
    cases rest' with
    | nil => rfl
    | cons x rest' => exact absurd (.inl rfl) (hcomplete.stops x.1 x.2 rest' rfl)
  rw [hend, List.append_nil] at hrest
  have hreads : ReadsSequence seq e s' := by
    refine ⟨by rw [hitems', hend]; rfl, hreading.trans (by rw [← hrest]; rfl), hcomplete.grouped,
      fun t ht hread => ?_⟩
    exact ht.unique hcomplete.grouped (hread.trans (by rw [hreading, ← hrest]; rfl))
  refine ⟨e, s', new, hsettles, hreads, hchained, fun hne => ?_, fun hchained =>
    hcomplete.complete (.inl hchained)⟩
  rcases hcomplete.sound hne with hchained | hnext
  · exact hchained
  · exact absurd (hend ▸ hnext) not_nextChained_nil

/-- An operand of one token in the first line. -/
def plainOperand (wildcardLines : List (BitVec 32)) : Operand where
  attributes := {}
  isLeftValue := true
  hasQuestSuffix := false
  isQuestIncOrDec := false
  isMacroDecl := false
  wildcardLines
  beginLine := 1
  lastToken := (1, 1)
  hasRecoveryPoint := false

/-- The token `=` in the first line. -/
def assignToken (column : BitVec 32) : Token where
  kind := .ASSIGN
  delimiterNum := 1
  isSingleQuote := false
  commentForMacroDebug := false
  value := [61]
  beginPos := ⟨1, 1, column⟩
  endPos := ⟨1, 1, column + 1⟩

theorem isBinary_assign : IsBinary .ASSIGN := ⟨.inr rfl, by decide, by decide, by decide⟩

/-- The operator `=`. -/
def assignOperator (column : BitVec 32) : BinaryOperator where
  tokens := [assignToken column]
  kind := .ASSIGN
  spelling := .single isBinary_assign
  real := fun t ht => by
    rw [List.mem_singleton.mp ht]
    rfl

/-- The sequence `a = b = c`. -/
def plainAssigned : Sequence where
  first := plainOperand []
  rest := [(assignOperator 3, plainOperand []), (assignOperator 7, plainOperand [])]

theorem parseExpr_plainAssigned : ∃ e s' new,
    Settles (parseExpr · outermost ⟨plainAssigned.items, (0, 0), []⟩) (e, s') ∧
      ReadsSequence plainAssigned e s' ∧ s'.chained = [] ++ new ∧
      (new ≠ [] → Chained (fun _ => True) e.shape) ∧ (Chained Clean e.shape → new ≠ []) := by
  refine parseExpr_sequence plainAssigned ⟨fun _ => ⟨rfl, ?_⟩, fun _ => ⟨rfl, ?_⟩, trivial⟩
    ⟨plainAssigned.items, (0, 0), []⟩ rfl
  · intro x hx
    rw [List.mem_singleton.mp hx]
    rfl
  · exact fun x hx => absurd hx List.not_mem_nil

/-- The sequence `a = _ = c`. -/
def wildcardAssigned : Sequence where
  first := plainOperand []
  rest := [(assignOperator 3, plainOperand [1]), (assignOperator 7, plainOperand [])]

/-- What stands behind an assigned wildcard is skipped. -/
theorem not_readsSequence_wildcardAssigned :
    ¬ ∃ e s', Settles (parseExpr · outermost ⟨wildcardAssigned.items, (0, 0), []⟩) (e, s') ∧
      ReadsSequence wildcardAssigned e s' := by
  rintro ⟨e, s', hsettles, hreads⟩
  obtain ⟨enough, henough⟩ := settles_iff.mp hsettles
  have hvalue := henough (enough + 20) (Nat.le_add_right _ _)
  have hlength : (parseExpr (enough + 20) outermost ⟨wildcardAssigned.items, (0, 0), []⟩).map
      (fun r => r.1.shape.reading.length) = some 3 := by
    rfl
  rw [hvalue, Option.map_some, hreads.reading] at hlength
  exact absurd hlength (by decide)

end Cangjie.Parse
