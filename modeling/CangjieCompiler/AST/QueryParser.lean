import CangjieCompiler.AST.Query
import CangjieCompiler.Foundations.EventualResult

/-!
# Which queries are parsed

The grammar of queries is a type of its own: an operand is a term or an expression in parentheses,
an expression is an operand and then operators with an operand each, which associate to the left.
The parser takes an expression off the front of the tokens and returns its tree, if the expression
is plain (`settles_parseOperand`), and is null on the others (`settles_parseOperand_null`): a pair
of parentheses right inside another one clears the mark of the outer one, and a term that leaves
the value open stands only at the end of the text.  What is returned with tokens left is a plain
expression in front of them (`ReadsExpression`).
-/

namespace Cangjie

open EventualResult
open Parse (peek seeing seeingRange adjacent seeingCombinator peek_nil peek_cons peekValue_cons
  seeing_cons seeing_iff seeingAny_iff seeingCombinator_pair_iff)

namespace QueryParser

variable {p p' : QueryParser} {tokens rest : List Token} {inParen : Bool} {q : Query}

/-! ## Single tokens -/

@[simp] theorem next_mk (t : Token) : next ⟨t :: tokens, inParen⟩ = ⟨tokens, inParen⟩ := rfl

theorem skip_cons (kind : TokenKind) (t : Token) :
    skip kind ⟨t :: tokens, inParen⟩ =
      if t.kind = kind then some (t.value, ⟨tokens, inParen⟩) else none := by
  by_cases h : t.kind = kind
  · rw [if_pos h, skip, seeing_cons, if_pos (beq_iff_eq.mpr h)]
    rfl
  · rw [if_neg h, skip, seeing_cons, if_neg fun hkind => h (beq_iff_eq.mp hkind)]

theorem skip_nil {kind : TokenKind} (h : kind ≠ .END) : skip kind ⟨[], inParen⟩ = none := by
  rw [skip, if_neg fun hseeing => h (seeing_iff.mp hseeing).symm]

/-- What `Skip` takes is the next token. -/
theorem skip_eq_some {kind : TokenKind} (hkind : kind ≠ .END) {v : List UInt8}
    (h : p.skip kind = some (v, p')) :
    ∃ t : Token, t.kind = kind ∧ v = t.value ∧ p = ⟨t :: p'.tokens, p'.parsingParenClause⟩ := by
  obtain ⟨_ | ⟨t, tokens⟩, inParen⟩ := p
  · rw [skip_nil hkind] at h
    cases h
  · rw [skip_cons] at h
    split_ifs at h with ht
    cases h
    exact ⟨t, ht, rfl, rfl⟩

theorem skip_eq_none_iff {kind : TokenKind} : p.skip kind = none ↔ peek p.tokens ≠ kind := by
  rw [skip]
  by_cases h : peek p.tokens = kind
  · rw [if_pos (seeing_iff.mpr h)]
    exact ⟨fun hnone => absurd hnone (Option.some_ne_none _), fun hne => absurd h hne⟩
  · rw [if_neg fun hseeing => h (seeing_iff.mp hseeing)]
    exact ⟨fun _ => h, fun _ => rfl⟩

end QueryParser

/-! ## Terms -/

/-- A comparator as it is written. -/
inductive IsComparator : List Token → String → Prop where
  | equal {t : Token} (h : t.kind = .ASSIGN) : IsComparator [t] "="
  | less {t : Token} (h : t.kind = .LT) : IsComparator [t] "<"
  | lessEqual {t : Token} (h : t.kind = .LE) : IsComparator [t] "<="
  | greaterEqual {a b : Token} (ha : a.kind = .GT) (hb : b.kind = .ASSIGN)
      (h : adjacent a b = true) : IsComparator [a, b] ">="
  | greater {t : Token} (h : t.kind = .GT) : IsComparator [t] ">"

/-- The kinds of tokens that may be the value of a term: names, literals and keywords. -/
def IsValue (kind : TokenKind) : Prop :=
  TokenKind.INT8.toNat ≤ kind.toNat ∧ kind.toNat ≤ TokenKind.RUNE_LITERAL.toNat ∧ kind ≠ .END

namespace IsValue

variable {kind : TokenKind}

theorem ne_mul (h : IsValue kind) : kind ≠ .MUL := by
  rintro rfl
  exact absurd h.1 (by decide)

theorem ne_wildcard (h : IsValue kind) : kind ≠ .WILDCARD := by
  rintro rfl
  exact absurd h.1 (by decide)

/-- The range check of the parser, which also covers the end of the text. -/
theorem seeingRange_iff {t : Token} {tokens : List Token} (hend : t.kind ≠ .END) :
    seeingRange .INT8 .RUNE_LITERAL (t :: tokens) = true ↔ IsValue t.kind := by
  rw [Parse.seeingRange, decide_eq_true_iff, peek_cons, IsValue, and_iff_left hend]

theorem seeingRange {t : Token} {tokens : List Token} (h : IsValue t.kind) :
    seeingRange .INT8 .RUNE_LITERAL (t :: tokens) = true :=
  (seeingRange_iff h.2.2).mpr h

end IsValue

/-- The position with three given numbers. -/
def positionOf (fileID line column : Token) : Position where
  fileID := (StdUtils.stoui (QueryParser.chars fileID.value) 10).getD 0
  line := (StdUtils.stoi (QueryParser.chars line.value) 10).getD 0
  column := (StdUtils.stoi (QueryParser.chars column.value) 10).getD 0

/-- The key of a term and its colon. -/
structure IsKey (key colon : Token) : Prop where
  key : key.kind = .IDENTIFIER
  colon : colon.kind = .COLON

/-- The words of a term and the query they stand for: `_ < (1, 2, 3)`, `key: value`, `key: value*`,
`key: *value` and `key: *_value`. -/
inductive IsTerm : List Token → Query → Prop where
  | position {wildcard l fileID comma line comma' column r : Token} {comparator : List Token}
      {sign : String} (hwildcard : wildcard.kind = .WILDCARD)
      (hcomparator : IsComparator comparator sign) (hl : l.kind = .LPAREN)
      (hfileID : fileID.kind = .INTEGER_LITERAL) (hcomma : comma.kind = .COMMA)
      (hline : line.kind = .INTEGER_LITERAL) (hcomma' : comma'.kind = .COMMA)
      (hcolumn : column.kind = .INTEGER_LITERAL) (hr : r.kind = .RPAREN) :
      IsTerm (wildcard :: (comparator ++ [l, fileID, comma, line, comma', column, r]))
        (.leaf { key := QueryParser.wildcardText, pos := positionOf fileID line column, sign,
                 type := .POS })
  | precise {key colon value : Token} (hkey : IsKey key colon) (hvalue : IsValue value.kind)
      (hdollar : value.kind ≠ .DOLLAR) :
      IsTerm [key, colon, value]
        (.leaf { key := key.value, value := value.value, type := .STRING })
  | starting {key colon value star : Token} (hkey : IsKey key colon) (hvalue : IsValue value.kind)
      (hdollar : value.kind ≠ .DOLLAR) (hstar : star.kind = .MUL) :
      IsTerm [key, colon, value, star]
        (.leaf { key := key.value, value := value.value, type := .STRING, matchKind := .PREFIX })
  | ending {key colon star value : Token} (hkey : IsKey key colon) (hstar : star.kind = .MUL)
      (hvalue : IsValue value.kind) :
      IsTerm [key, colon, star, value]
        (.leaf { key := key.value, value := value.value, type := .STRING, matchKind := .SUFFIX })
  | endingUnderscore {key colon star wildcard value : Token} (hkey : IsKey key colon)
      (hstar : star.kind = .MUL) (hwildcard : wildcard.kind = .WILDCARD)
      (hvalue : IsValue value.kind) :
      IsTerm [key, colon, star, wildcard, value]
        (.leaf { key := key.value, value := QueryParser.wildcardText ++ value.value,
                 type := .STRING, matchKind := .SUFFIX })

/-- A term that leaves the end of the value open: `key: *` (every name) and `key: *_`. -/
inductive IsOpenTerm : List Token → Query → Prop where
  | every {key colon star : Token} (hkey : IsKey key colon) (hstar : star.kind = .MUL) :
      IsOpenTerm [key, colon, star]
        (.leaf { key := key.value, type := .STRING, matchKind := .SUFFIX })
  | underscore {key colon star wildcard : Token} (hkey : IsKey key colon) (hstar : star.kind = .MUL)
      (hwildcard : wildcard.kind = .WILDCARD) :
      IsOpenTerm [key, colon, star, wildcard]
        (.leaf { key := key.value, value := QueryParser.wildcardText, type := .STRING,
                 matchKind := .SUFFIX })

/-- The query of `key: value`, which a `*` may follow. -/
def Query.isPrecise : Query → Bool
  | leaf term => term.type == .STRING && term.matchKind == .PRECISE
  | op _ _ _ => false

namespace QueryParser

variable {p p' : QueryParser} {words tokens rest : List Token} {inParen : Bool} {q : Query}

theorem parseComparator_of_isComparator {comparator : List Token} {sign : String}
    (h : IsComparator comparator sign) {l : Token} (hl : l.kind = .LPAREN) :
    parseComparator ⟨comparator ++ l :: rest, inParen⟩ = some (sign, ⟨l :: rest, inParen⟩) := by
  cases h with
  | equal h | less h | lessEqual h => simp [parseComparator, h]
  | @greaterEqual a b ha hb h =>
    have hseeing : seeingCombinator [.GT, .ASSIGN] (a :: b :: l :: rest) = true :=
      seeingCombinator_pair_iff.mpr ⟨a, b, l :: rest, rfl, ha, hb, h⟩
    simp [parseComparator, ha, hseeing]
  | @greater t h =>
    have hseeing : seeingCombinator [.GT, .ASSIGN] (t :: l :: rest) = false := by
      refine Bool.eq_false_iff.mpr fun hseeing => ?_
      obtain ⟨a, b, rest', heq, -, hb, -⟩ := seeingCombinator_pair_iff.mp hseeing
      cases heq
      rw [hl] at hb
      cases hb
    simp [parseComparator, h, hseeing]

theorem isComparator_of_parseComparator {sign : String} (h : parseComparator p = some (sign, p')) :
    ∃ comparator, IsComparator comparator sign ∧
      p = ⟨comparator ++ p'.tokens, p'.parsingParenClause⟩ := by
  obtain ⟨_ | ⟨t, tokens⟩, inParen⟩ := p
  · simp [parseComparator, seeing, seeingCombinator] at h
  · simp only [parseComparator, seeing_cons, beq_iff_eq, next_mk] at h
    split_ifs at h with hassign hlt hle hge hgt
    · cases h
      exact ⟨[t], .equal hassign, rfl⟩
    · cases h
      exact ⟨[t], .less hlt, rfl⟩
    · cases h
      exact ⟨[t], .lessEqual hle, rfl⟩
    · obtain ⟨a, b, rest, heq, ha, hb, hadjacent⟩ := seeingCombinator_pair_iff.mp hge
      cases heq
      cases h
      exact ⟨[t, b], .greaterEqual ha hb hadjacent, rfl⟩
    · cases h
      exact ⟨[t], .greater hgt, rfl⟩

/-- Nothing but a `*` that follows a precise term matters to how a term is read. -/
theorem parseTerm_of_isTerm (h : IsTerm words q) (hrest : q.isPrecise = true → peek rest ≠ .MUL) :
    parseTerm ⟨words ++ rest, inParen⟩ = some (q, ⟨rest, inParen⟩) := by
  cases h with
  | position hwildcard hcomparator hl hfileID hcomma hline hcomma' hcolumn hr =>
    simp [parseTerm, skip_cons, hwildcard, parsePositionTerm,
      parseComparator_of_isComparator hcomparator hl, hl, hfileID, hcomma, hline, hcomma', hcolumn,
      hr, positionOf]
  | precise hkey hvalue hdollar =>
    have hstar : skip .MUL ⟨rest, inParen⟩ = none := skip_eq_none_iff.mpr (hrest rfl)
    simp [parseTerm, parseNormalTerm, skip_cons, hkey.key, hkey.colon, hvalue.ne_mul,
      hvalue.seeingRange, hdollar, hstar]
  | starting hkey hvalue hdollar hstar =>
    simp [parseTerm, parseNormalTerm, skip_cons, hkey.key, hkey.colon, hvalue.ne_mul,
      hvalue.seeingRange, hdollar, hstar]
  | ending hkey hstar hvalue =>
    simp [parseTerm, parseNormalTerm, parseSuffix, skip_cons, hkey.key, hkey.colon, hstar,
      hvalue.ne_wildcard, hvalue.2.2, hvalue.seeingRange]
  | endingUnderscore hkey hstar hwildcard hvalue =>
    simp [parseTerm, parseNormalTerm, parseSuffix, skip_cons, hkey.key, hkey.colon, hstar,
      hwildcard, hvalue.2.2, hvalue.seeingRange]

/-- An open term is read at the end of the text. -/
theorem parseTerm_of_isOpenTerm (h : IsOpenTerm words q) :
    parseTerm ⟨words, inParen⟩ = some (q, ⟨[], inParen⟩) := by
  cases h with
  | every hkey hstar =>
    have hwildcard : skip .WILDCARD ⟨[], inParen⟩ = none := skip_nil (by decide)
    simp [parseTerm, parseNormalTerm, parseSuffix, skip_cons, hkey.key, hkey.colon, hstar,
      hwildcard, Parse.seeing]
  | underscore hkey hstar hwildcard =>
    simp [parseTerm, parseNormalTerm, parseSuffix, skip_cons, hkey.key, hkey.colon, hstar,
      hwildcard, Parse.seeing]

/-- An open term is not read where something follows that cannot be a value. -/
theorem parseTerm_of_isOpenTerm_null (h : IsOpenTerm words q) {t : Token} (hend : t.kind ≠ .END)
    (hvalue : ¬ IsValue t.kind) (hwildcard : t.kind ≠ .WILDCARD) :
    parseTerm ⟨words ++ t :: rest, inParen⟩ = none := by
  have hrange : Parse.seeingRange .INT8 .RUNE_LITERAL (t :: rest) = false :=
    Bool.eq_false_iff.mpr fun hseeing => hvalue ((IsValue.seeingRange_iff hend).mp hseeing)
  cases h with
  | every hkey hstar =>
    simp [parseTerm, parseNormalTerm, parseSuffix, skip_cons, hkey.key, hkey.colon, hstar,
      hwildcard, hend, hrange]
  | underscore hkey hstar hunderscore =>
    simp [parseTerm, parseNormalTerm, parseSuffix, skip_cons, hkey.key, hkey.colon, hstar,
      hunderscore, hend, hrange]

/-- What is read in a text: some of its tokens, which are a term if there are tokens left. -/
structure ReadsTerm (p : QueryParser) (q : Query) (p' : QueryParser) : Prop where
  tokens : ∃ words, words ≠ [] ∧ p.tokens = words ++ p'.tokens ∧
    (p'.tokens ≠ [] → IsTerm words q ∧ (q.isPrecise = true → peek p'.tokens ≠ .MUL))
  inParen : p'.parsingParenClause = p.parsingParenClause

theorem readsTerm_of_parsePositionTerm {wildcard : Token} (hwildcard : wildcard.kind = .WILDCARD)
    (h : parsePositionTerm ⟨tokens, inParen⟩ = some (q, p')) :
    ReadsTerm ⟨wildcard :: tokens, inParen⟩ q p' := by
  simp only [parsePositionTerm, Option.bind_eq_bind, Option.bind_eq_some_iff, Prod.exists,
    Option.pure_def, Option.some.injEq, Prod.mk.injEq] at h
  obtain ⟨sign, p₁, hsign, _, p₂, h₂, _, p₃, h₃, _, p₄, h₄, _, p₅, h₅, _, p₆, h₆, _, p₇, h₇, _, p₈,
    h₈, rfl, rfl⟩ := h
  obtain ⟨comparator, hcomparator, hp⟩ := isComparator_of_parseComparator hsign
  obtain ⟨l, hl, -, rfl⟩ := skip_eq_some (by decide) h₂
  obtain ⟨fileID, hfileID, rfl, rfl⟩ := skip_eq_some (by decide) h₃
  obtain ⟨comma, hcomma, -, rfl⟩ := skip_eq_some (by decide) h₄
  obtain ⟨line, hline, rfl, rfl⟩ := skip_eq_some (by decide) h₅
  obtain ⟨comma', hcomma', -, rfl⟩ := skip_eq_some (by decide) h₆
  obtain ⟨column, hcolumn, rfl, rfl⟩ := skip_eq_some (by decide) h₇
  obtain ⟨r, hr, -, rfl⟩ := skip_eq_some (by decide) h₈
  cases hp
  refine ⟨⟨wildcard :: (comparator ++ [l, fileID, comma, line, comma', column, r]),
    List.cons_ne_nil _ _, by simp, fun _ =>
      ⟨?_, fun hprecise => absurd hprecise Bool.false_ne_true⟩⟩, rfl⟩
  exact .position hwildcard hcomparator hl hfileID hcomma hline hcomma' hcolumn hr

theorem readsTerm_of_parseSuffix {key colon star : Token} (hkey : IsKey key colon)
    (hstar : star.kind = .MUL) (hend : ∀ t ∈ tokens, t.kind ≠ .END)
    (h : parseSuffix key.value ⟨tokens, inParen⟩ = some (q, p')) :
    ReadsTerm ⟨key :: colon :: star :: tokens, inParen⟩ q p' := by
  rcases tokens with _ | ⟨t, tokens⟩
  · simp only [parseSuffix, skip_nil (show TokenKind.WILDCARD ≠ .END by decide), Parse.seeing,
      peek_nil, BEq.rfl, if_true] at h
    cases h
    exact ⟨⟨[key, colon, star], List.cons_ne_nil _ _, rfl, fun hne => absurd rfl hne⟩, rfl⟩
  rw [List.forall_mem_cons] at hend
  by_cases hwildcard : t.kind = .WILDCARD
  · rcases tokens with _ | ⟨v, tokens⟩
    · simp only [parseSuffix, skip_cons, if_pos hwildcard, Parse.seeing, peek_nil, BEq.rfl,
        if_true] at h
      cases h
      exact ⟨⟨[key, colon, star, t], List.cons_ne_nil _ _, rfl, fun hne => absurd rfl hne⟩, rfl⟩
    have hv : v.kind ≠ .END := hend.2 v List.mem_cons_self
    simp only [parseSuffix, skip_cons, if_pos hwildcard, seeing_cons, beq_iff_eq, if_neg hv,
      peekValue_cons, next_mk] at h
    split_ifs at h with hrange
    cases h
    refine ⟨⟨[key, colon, star, t, v], List.cons_ne_nil _ _, rfl, fun _ =>
      ⟨?_, fun hprecise => absurd hprecise Bool.false_ne_true⟩⟩, rfl⟩
    exact .endingUnderscore hkey hstar hwildcard ((IsValue.seeingRange_iff hv).mp hrange)
  · simp only [parseSuffix, skip_cons, if_neg hwildcard, seeing_cons, beq_iff_eq, if_neg hend.1,
      peekValue_cons, next_mk] at h
    split_ifs at h with hrange
    cases h
    refine ⟨⟨[key, colon, star, t], List.cons_ne_nil _ _, rfl, fun _ =>
      ⟨?_, fun hprecise => absurd hprecise Bool.false_ne_true⟩⟩, rfl⟩
    exact .ending hkey hstar ((IsValue.seeingRange_iff hend.1).mp hrange)

theorem readsTerm_of_parseNormalTerm {key : Token} (hkey : key.kind = .IDENTIFIER)
    (hend : ∀ t ∈ tokens, t.kind ≠ .END)
    (h : parseNormalTerm ⟨key :: tokens, inParen⟩ = some (q, p')) :
    ReadsTerm ⟨key :: tokens, inParen⟩ q p' := by
  rcases tokens with _ | ⟨colon, tokens⟩
  · simp [parseNormalTerm, skip_cons, hkey, skip_nil] at h
  by_cases hcolon : colon.kind = .COLON
  swap
  · simp [parseNormalTerm, skip_cons, hkey, hcolon] at h
  have hkeyColon : IsKey key colon := ⟨hkey, hcolon⟩
  simp only [parseNormalTerm, skip_cons, if_pos hkey, Option.getD_some, if_pos hcolon,
    Option.bind_eq_bind, Option.bind_some] at h
  rcases tokens with _ | ⟨t, tokens⟩
  · simp only [skip_nil (show TokenKind.MUL ≠ .END by decide), next] at h
    split_ifs at h with hrange
    cases h
    exact ⟨⟨[key, colon], List.cons_ne_nil _ _, rfl, fun hne => absurd rfl hne⟩, rfl⟩
  have hend' : ∀ u ∈ t :: tokens, u.kind ≠ .END := fun u hu => hend u (List.mem_cons_of_mem _ hu)
  by_cases hstar : t.kind = .MUL
  · simp only [skip_cons, if_pos hstar] at h
    exact readsTerm_of_parseSuffix hkeyColon hstar (List.forall_mem_cons.mp hend').2 h
  simp only [skip_cons, if_neg hstar, peekValue_cons, next_mk] at h
  split_ifs at h with hrange
  rw [Bool.and_eq_true, seeing_cons, Bool.not_eq_true', beq_eq_false_iff_ne] at hrange
  have hvalue : IsValue t.kind :=
    (IsValue.seeingRange_iff (hend' t List.mem_cons_self)).mp hrange.1
  by_cases hmul : peek tokens = .MUL
  · rcases tokens with _ | ⟨s, tokens⟩
    · cases hmul
    have hs : s.kind = .MUL := hmul
    simp only [skip_cons, if_pos hs] at h
    cases h
    refine ⟨⟨[key, colon, t, s], List.cons_ne_nil _ _, rfl, fun _ =>
      ⟨?_, fun hprecise => absurd hprecise Bool.false_ne_true⟩⟩, rfl⟩
    exact .starting hkeyColon hvalue hrange.2 hs
  · have hskip : skip .MUL ⟨tokens, inParen⟩ = none := skip_eq_none_iff.mpr hmul
    simp only [hskip] at h
    cases h
    exact ⟨⟨[key, colon, t], List.cons_ne_nil _ _, rfl, fun _ =>
      ⟨.precise hkeyColon hvalue hrange.2, fun _ => hmul⟩⟩, rfl⟩

/-- A term is read from the front of the tokens. -/
theorem readsTerm_of_parseTerm (hend : ∀ t ∈ p.tokens, t.kind ≠ .END)
    (h : parseTerm p = some (q, p')) : ReadsTerm p q p' := by
  obtain ⟨_ | ⟨t, tokens⟩, inParen⟩ := p
  · simp [parseTerm, Parse.seeing, skip_nil] at h
  rw [parseTerm, seeing_cons] at h
  by_cases hidentifier : t.kind = .IDENTIFIER
  · rw [if_pos (beq_iff_eq.mpr hidentifier)] at h
    exact readsTerm_of_parseNormalTerm hidentifier (List.forall_mem_cons.mp hend).2 h
  · rw [if_neg fun hkind => hidentifier (beq_iff_eq.mp hkind), skip_cons] at h
    by_cases hwildcard : t.kind = .WILDCARD
    · rw [if_pos hwildcard] at h
      exact readsTerm_of_parsePositionTerm hwildcard h
    · rw [if_neg hwildcard] at h
      cases h

end QueryParser

/-! ## Expressions -/

namespace QueryGrammar

open QueryParser

/-- The operator that a kind of token stands for. -/
def operatorOf (kind : TokenKind) : Option Operator :=
  if kind = .AND then some .AND
  else if kind = .OR then some .OR
  else if kind = .NOT then some .NOT
  else none

mutual

/-- An operand as it is written: a term or an expression in parentheses. -/
inductive Operand where
  | term (words : List Token) (q : Query) (h : IsTerm words q)
  | openTerm (words : List Token) (q : Query) (h : IsOpenTerm words q)
  | paren (l : Token) (first : Operand) (more : Operators) (r : Token) (hl : l.kind = .LPAREN)
      (hr : r.kind = .RPAREN)

/-- Operators with the operand on the right of each. -/
inductive Operators where
  | nil
  | cons (t : Token) (op : Operator) (h : operatorOf t.kind = some op) (right : Operand)
      (more : Operators)

end

mutual

/-- The tokens of an operand. -/
def Operand.tokens : Operand → List Token
  | .term words _ _ => words
  | .openTerm words _ _ => words
  | .paren l first more r _ _ => l :: (first.tokens ++ more.tokens ++ [r])

/-- The tokens of operators and their operands. -/
def Operators.tokens : Operators → List Token
  | .nil => []
  | .cons t _ _ right more => t :: (right.tokens ++ more.tokens)

end

mutual

/-- The query that an operand stands for. -/
def Operand.tree : Operand → Query
  | .term _ q _ => q
  | .openTerm _ q _ => q
  | .paren _ first more _ _ _ => more.tree first.tree

/-- The operators associate to the left. -/
def Operators.tree : Operators → Query → Query
  | .nil, left => left
  | .cons _ op _ right more, left => more.tree (.op op left right.tree)

end

/-- Whether an operand is in parentheses. -/
def Operand.isParen : Operand → Bool
  | .paren _ _ _ _ _ _ => true
  | _ => false

/-- Whether an operand is a term that a `*` may follow. -/
def Operand.isPrecise : Operand → Bool
  | .term _ q _ => q.isPrecise
  | _ => false

/-- Whether there are no operators. -/
def Operators.isNil : Operators → Bool
  | .nil => true
  | .cons _ _ _ _ _ => false

/-- The last operand of an expression. -/
def Operators.last : Operators → Operand → Operand
  | .nil, first => first
  | .cons _ _ _ right more, _ => more.last right

mutual

/-- An operand without open terms but at the very end of the text, and without parentheses around
nothing but parentheses. -/
def Operand.Plain : Operand → Bool → Prop
  | .term _ _ _, _ => True
  | .openTerm _ _ _, atEnd => atEnd = true
  | .paren _ first more _ _ _, _ =>
    ¬ (first.isParen = true ∧ more.isNil = true) ∧ first.Plain false ∧ more.Plain false

/-- The operands of operators are plain. -/
def Operators.Plain : Operators → Bool → Prop
  | .nil, _ => True
  | .cons _ _ _ right more, atEnd => right.Plain (atEnd && more.isNil) ∧ more.Plain atEnd

end

/-- A query expression as it is written. -/
structure Expression where
  first : Operand
  more : Operators

namespace Expression

/-- The tokens of an expression. -/
def tokens (e : Expression) : List Token := e.first.tokens ++ e.more.tokens

/-- The operator tree of an expression. -/
def tree (e : Expression) : Query := e.more.tree e.first.tree

/-- The operands are plain; the expression is at the end of the text or something follows it. -/
def Plain (e : Expression) (atEnd : Bool) : Prop :=
  e.first.Plain (atEnd && e.more.isNil) ∧ e.more.Plain atEnd

/-- Whether the last operand is a term that a `*` may follow. -/
def endsPrecise (e : Expression) : Bool := (e.more.last e.first).isPrecise

end Expression

end QueryGrammar

/-! ## What settles -/

namespace QueryParser

open QueryGrammar

variable {p p' p₁ p₂ : QueryParser} {words tokens rest : List Token} {inParen : Bool}
variable {q left right : Query} {r : Option (Query × QueryParser)}

theorem skipOperator_eq (p : QueryParser) :
    skipOperator p = (operatorOf (peek p.tokens)).map fun op => (op, p.next) := by
  simp only [skipOperator, operatorOf, seeing_iff]
  split_ifs <;> rfl

theorem operatorOf_eq_none_iff {kind : TokenKind} :
    operatorOf kind = none ↔ kind ≠ .AND ∧ kind ≠ .OR ∧ kind ≠ .NOT := by
  simp only [operatorOf]
  split_ifs <;> simp_all

theorem unexpectedEnd_eq_false_iff :
    p.unexpectedEnd = false ↔
      operatorOf (peek p.tokens) ≠ none ∨ peek p.tokens = .END ∨
        (peek p.tokens = .RPAREN ∧ p.parsingParenClause = true) := by
  rw [ne_eq, operatorOf_eq_none_iff]
  simp only [unexpectedEnd, Bool.and_eq_false_iff, Bool.not_eq_false', seeingAny_iff,
    Bool.and_eq_true, seeing_iff, List.mem_cons, List.not_mem_nil, or_false]
  tauto

/-- How a clause goes on behind its first operand. -/
def afterFirst (fuel : ℕ) : Option (Query × QueryParser) → Option (Option (Query × QueryParser))
  | none => some none
  | some (left, p) => if p.unexpectedEnd then some none else parseOperators fuel left p

/-- How the loop goes on behind the operand on the right of an operator. -/
def afterRight (fuel : ℕ) (op : Operator) (left : Query) :
    Option (Query × QueryParser) → Option (Option (Query × QueryParser))
  | none => some none
  | some (right, p) => parseOperators fuel (.op op left right) p

/-- What parentheses return for the clause inside them. -/
def afterClause (r : Option (Query × QueryParser)) : Option (Query × QueryParser) :=
  r.bind fun (curNode, p) =>
    (skip .RPAREN { p with parsingParenClause := false }).map fun (_, p) => (curNode, p)

theorem afterClause_some (q : Query) (p : QueryParser) :
    afterClause (some (q, p)) =
      (skip .RPAREN ⟨p.tokens, false⟩).map fun taken => (q, taken.2) := rfl

theorem parseBooleanClause_succ (fuel : ℕ) (p : QueryParser) :
    parseBooleanClause (fuel + 1) p = parseOperand fuel p >>= afterFirst fuel := by
  rw [parseBooleanClause]
  rfl

theorem parseOperators_succ {op : Operator} (h : operatorOf (peek p.tokens) = some op) (fuel : ℕ)
    (left : Query) :
    parseOperators (fuel + 1) left p = parseOperand fuel p.next >>= afterRight fuel op left := by
  rw [parseOperators, skipOperator_eq, h]
  rfl

theorem settles_clause (hfirst : Settles (parseOperand · p) (some (left, p')))
    (hexpected : p'.unexpectedEnd = false) (hmore : Settles (parseOperators · left p') r) :
    Settles (parseBooleanClause · p) r := by
  refine settles_of_succ (fun fuel => parseBooleanClause_succ fuel p) (hfirst.bind ?_)
  exact hmore.congr fun fuel => by rw [afterFirst, hexpected, if_neg Bool.false_ne_true]

theorem settles_clause_unexpected (hfirst : Settles (parseOperand · p) (some (left, p')))
    (hunexpected : p'.unexpectedEnd = true) : Settles (parseBooleanClause · p) none := by
  refine settles_of_succ (fun fuel => parseBooleanClause_succ fuel p) (hfirst.bind ?_)
  exact settles_of_eq fun fuel => by rw [afterFirst, if_pos hunexpected]

theorem settles_clause_null (hfirst : Settles (parseOperand · p) none) :
    Settles (parseBooleanClause · p) none :=
  settles_of_succ (fun fuel => parseBooleanClause_succ fuel p)
    (hfirst.bind (settles_of_eq fun _ => rfl))

theorem settles_operand_paren {v : List UInt8} (hskip : p.skip .LPAREN = some (v, p'))
    (h : Settles (parseParenClause · p') r) : Settles (parseOperand · p) r :=
  settles_of_succ (fun fuel => by rw [parseOperand, hskip]) h

theorem settles_operand_term (hpeek : peek p.tokens = .IDENTIFIER ∨ peek p.tokens = .WILDCARD) :
    Settles (parseOperand · p) (parseTerm p) := by
  have hskip : p.skip .LPAREN = none := by
    refine skip_eq_none_iff.mpr ?_
    rcases hpeek with h | h <;> rw [h] <;> decide
  refine settles_of_succ (fun fuel => by rw [parseOperand, hskip]) (settles_of_eq fun fuel => ?_)
  rw [if_pos]
  rwa [Bool.or_eq_true, seeing_iff, seeing_iff]

/-- What is neither a parenthesis nor the begin of a term is no operand. -/
theorem settles_operand_null (hparen : peek p.tokens ≠ .LPAREN)
    (hpeek : ¬ (peek p.tokens = .IDENTIFIER ∨ peek p.tokens = .WILDCARD)) :
    Settles (parseOperand · p) none := by
  refine settles_of_succ (fun fuel => by rw [parseOperand, skip_eq_none_iff.mpr hparen])
    (settles_of_eq fun fuel => ?_)
  rw [if_neg]
  rwa [Bool.or_eq_true, seeing_iff, seeing_iff]

theorem settles_operators_nil (h : operatorOf (peek p.tokens) = none) :
    Settles (parseOperators · left p) (some (left, p)) :=
  settles_of_succ (fun fuel => by rw [parseOperators, skipOperator_eq, h, Option.map_none])
    (settles_of_eq fun _ => rfl)

theorem settles_operators_cons {op : Operator} (h : operatorOf (peek p.tokens) = some op)
    (hright : Settles (parseOperand · p.next) (some (right, p')))
    (hmore : Settles (parseOperators · (.op op left right) p') r) :
    Settles (parseOperators · left p) r :=
  settles_of_succ (fun fuel => parseOperators_succ h fuel left) (hright.bind hmore)

theorem settles_operators_null {op : Operator} (h : operatorOf (peek p.tokens) = some op)
    (hright : Settles (parseOperand · p.next) none) :
    Settles (parseOperators · left p) none :=
  settles_of_succ (fun fuel => parseOperators_succ h fuel left)
    (hright.bind (settles_of_eq fun _ => rfl))

theorem settles_paren (h : Settles (parseBooleanClause · { p with parsingParenClause := true }) r) :
    Settles (parseParenClause · p) (afterClause r) :=
  settles_of_succ (fun fuel => by rw [parseParenClause]; rfl) (h.map afterClause)

/-! ## Plain expressions are parsed -/

theorem peek_of_isTerm (h : IsTerm words q) :
    peek (words ++ rest) = .IDENTIFIER ∨ peek (words ++ rest) = .WILDCARD := by
  cases h with
  | position hwildcard => exact .inr hwildcard
  | precise hkey | starting hkey | ending hkey | endingUnderscore hkey => exact .inl hkey.key

theorem peek_of_isOpenTerm (h : IsOpenTerm words q) :
    peek (words ++ rest) = .IDENTIFIER ∨ peek (words ++ rest) = .WILDCARD := by
  cases h with
  | every hkey | underscore hkey => exact .inl hkey.key

/-- The mark for parentheses behind an operand. -/
def markAfter (o : Operand) (inParen : Bool) : Bool := !o.isParen && inParen

theorem peek_tokens_cons {t : Token} {op : Operator} {h : operatorOf t.kind = some op}
    {o : Operand} {more : Operators} :
    operatorOf (peek ((Operators.cons t op h o more).tokens ++ rest)) = some op := by
  rw [Operators.tokens, List.cons_append, peek_cons, h]

theorem operatorOf_mul : operatorOf .MUL = none := rfl

theorem operatorOf_rparen : operatorOf .RPAREN = none := rfl

theorem operatorOf_end : operatorOf .END = none := rfl

/-- Whether something follows the operators. -/
theorem isEmpty_tokens_append (more : Operators) :
    (more.tokens ++ rest).isEmpty = (rest.isEmpty && more.isNil) := by
  cases more with
  | nil => rw [Operators.tokens, List.nil_append, Operators.isNil, Bool.and_true]
  | cons => rw [Operators.tokens, Operators.isNil, Bool.and_false]; rfl

/-- A precise term in front of operators is not followed by a `*`. -/
theorem peek_tokens_append {o : Operand} {more : Operators}
    (hstar : (more.last o).isPrecise = true → peek rest ≠ .MUL) (hprecise : o.isPrecise = true) :
    peek (more.tokens ++ rest) ≠ .MUL := by
  cases more with
  | nil => exact hstar hprecise
  | cons t op h right more =>
    intro hmul
    have hop : operatorOf .MUL = some op := hmul ▸ peek_tokens_cons
    cases hop

/-- An expression goes on with its operators, unless it is an operand alone that something else
follows. -/
theorem settles_expression {first : Operand} {more : Operators}
    (hfirst : Settles (parseOperand · ⟨first.tokens ++ (more.tokens ++ rest), inParen⟩)
      (some (first.tree, ⟨more.tokens ++ rest, markAfter first inParen⟩)))
    (hmore : Settles (parseOperators · first.tree ⟨more.tokens ++ rest, markAfter first inParen⟩) r)
    (halone : more.isNil = true →
      rest = [] ∨ (peek rest = .RPAREN ∧ markAfter first inParen = true)) :
    Settles (parseBooleanClause · ⟨first.tokens ++ (more.tokens ++ rest), inParen⟩) r := by
  refine settles_clause hfirst (unexpectedEnd_eq_false_iff.mpr ?_) hmore
  cases more with
  | nil =>
    rcases halone rfl with rfl | h
    · exact .inr (.inl rfl)
    · exact .inr (.inr h)
  | cons t op h right more =>
    left
    rw [peek_tokens_cons]
    exact Option.some_ne_none op

/-- The value of parentheses is the value of the expression in them. -/
theorem settles_parenthesised {l t : Token} {first : Operand} {more : Operators}
    (hl : l.kind = .LPAREN)
    (h : Settles (parseBooleanClause · ⟨first.tokens ++ (more.tokens ++ t :: rest), true⟩) r) :
    Settles (parseOperand · ⟨l :: (first.tokens ++ more.tokens ++ [t]) ++ rest, inParen⟩)
      (afterClause r) := by
  rw [List.cons_append, List.append_assoc, List.append_assoc, List.singleton_append]
  exact settles_operand_paren (by rw [skip_cons, if_pos hl]) (settles_paren h)

mutual

/-- A plain operand is read from the front of the tokens. -/
theorem settles_parseOperand : ∀ (o : Operand) (rest : List Token),
    o.Plain rest.isEmpty → (o.isPrecise = true → peek rest ≠ .MUL) → ∀ inParen : Bool,
      Settles (parseOperand · ⟨o.tokens ++ rest, inParen⟩)
        (some (o.tree, ⟨rest, markAfter o inParen⟩))
  | .term words q h, rest, _, hstar, inParen => by
    have hparse : parseTerm ⟨words ++ rest, inParen⟩ = some (q, ⟨rest, inParen⟩) :=
      parseTerm_of_isTerm h hstar
    exact hparse ▸ settles_operand_term (peek_of_isTerm h)
  | .openTerm words q h, rest, hplain, _, inParen => by
    obtain rfl : rest = [] := List.isEmpty_iff.mp hplain
    have hparse : parseTerm ⟨words ++ [], inParen⟩ = some (q, ⟨[], inParen⟩) := by
      rw [List.append_nil, parseTerm_of_isOpenTerm h]
    exact hparse ▸ settles_operand_term (peek_of_isOpenTerm h)
  | .paren l first more t hl ht, rest, hplain, _, inParen => by
    obtain ⟨hnested, hfirst, hmore⟩ := hplain
    have hstar : (more.last first).isPrecise = true → peek (t :: rest) ≠ .MUL := by
      rw [peek_cons, ht]
      exact fun _ => by decide
    have hstop : operatorOf (peek (t :: rest)) = none := by
      rw [peek_cons, ht]
      rfl
    have hfirst' : first.Plain (more.tokens ++ t :: rest).isEmpty := by
      rw [isEmpty_tokens_append]
      exact hfirst
    obtain ⟨mark, hoperators⟩ := settles_parseOperators more (t :: rest) first hmore hstar hstop
      first.tree (markAfter first true)
    have hclause := settles_expression
      (settles_parseOperand first (more.tokens ++ t :: rest) hfirst' (peek_tokens_append hstar)
        true) hoperators fun hnil => .inr ⟨ht, by
        rw [markAfter, Bool.and_true, Bool.not_eq_true']
        exact Bool.eq_false_iff.mpr fun hparen => hnested ⟨hparen, hnil⟩⟩
    have hafter : afterClause (some (more.tree first.tree, ⟨t :: rest, mark⟩)) =
        some (more.tree first.tree, ⟨rest, false⟩) := by
      rw [afterClause_some, skip_cons, if_pos ht, Option.map_some]
    exact hafter ▸ settles_parenthesised hl hclause

/-- Operators with plain operands are read from the front of the tokens. -/
theorem settles_parseOperators : ∀ (more : Operators) (rest : List Token) (first : Operand),
    more.Plain rest.isEmpty → ((more.last first).isPrecise = true → peek rest ≠ .MUL) →
    operatorOf (peek rest) = none → ∀ (left : Query) (inParen : Bool),
      ∃ mark, Settles (parseOperators · left ⟨more.tokens ++ rest, inParen⟩)
        (some (more.tree left, ⟨rest, mark⟩))
  | .nil, rest, _, _, _, hstop, left, inParen => ⟨inParen, settles_operators_nil hstop⟩
  | .cons t op h right more, rest, _, hplain, hstar, hstop, left, inParen => by
    have hright' : right.Plain (more.tokens ++ rest).isEmpty := by
      rw [isEmpty_tokens_append]
      exact hplain.1
    obtain ⟨mark, hmore⟩ := settles_parseOperators more rest right hplain.2 hstar hstop
      (.op op left right.tree) (markAfter right inParen)
    have hright := settles_parseOperand right (more.tokens ++ rest) hright'
      (peek_tokens_append hstar) inParen
    refine ⟨mark, settles_operators_cons peek_tokens_cons ?_ hmore⟩
    rw [Operators.tokens, List.cons_append, List.append_assoc, next_mk]
    exact hright

end

/-! ## Other expressions are not parsed -/

/-- What may follow an operand in an expression. -/
def Follows (rest : List Token) : Prop :=
  rest = [] ∨ operatorOf (peek rest) ≠ none ∨ peek rest = .RPAREN

/-- An operator or a closing parenthesis does not go on with a term. -/
theorem not_value_of_follows {kind : TokenKind}
    (h : operatorOf kind ≠ none ∨ kind = .RPAREN) :
    kind ≠ .END ∧ ¬ IsValue kind ∧ kind ≠ .WILDCARD := by
  have hkind : kind = .AND ∨ kind = .OR ∨ kind = .NOT ∨ kind = .RPAREN := by
    rw [ne_eq, operatorOf_eq_none_iff] at h
    tauto
  rcases hkind with rfl | rfl | rfl | rfl <;>
    exact ⟨by decide, fun h => absurd h.1 (by decide), by decide⟩

theorem follows_append {more : Operators} (h : rest = [] ∨ peek rest = .RPAREN) :
    Follows (more.tokens ++ rest) := by
  cases more with
  | nil => exact h.imp_right .inr
  | cons t op hop right more =>
    right
    left
    rw [peek_tokens_cons]
    exact Option.some_ne_none op

theorem peek_ne_mul (h : rest = [] ∨ peek rest = .RPAREN) : peek rest ≠ .MUL := by
  rcases h with rfl | h
  · decide
  · rw [h]
    decide

mutual

/-- On an operand that is not plain the parser is null. -/
theorem settles_parseOperand_null : ∀ (o : Operand) (rest : List Token),
    ¬ o.Plain rest.isEmpty → Follows rest → ∀ inParen : Bool,
      Settles (parseOperand · ⟨o.tokens ++ rest, inParen⟩) none
  | .term words q h, rest, hplain, _, inParen => absurd trivial hplain
  | .openTerm words q h, rest, hplain, hfollows, inParen => by
    have hne : rest ≠ [] := fun hnil => hplain (List.isEmpty_iff.mpr hnil)
    obtain ⟨t, rest, rfl⟩ := List.exists_cons_of_ne_nil hne
    obtain ⟨hend, hvalue, hwildcard⟩ := not_value_of_follows (hfollows.resolve_left hne)
    have hparse : parseTerm ⟨words ++ t :: rest, inParen⟩ = none :=
      parseTerm_of_isOpenTerm_null h hend hvalue hwildcard
    exact hparse ▸ settles_operand_term (peek_of_isOpenTerm h)
  | .paren l first more t hl ht, rest, hplain, _, inParen => by
    suffices hclause : Settles
        (parseBooleanClause · ⟨first.tokens ++ (more.tokens ++ t :: rest), true⟩) none from
      settles_parenthesised hl hclause
    have hstop : t :: rest = [] ∨ peek (t :: rest) = .RPAREN := .inr ht
    have hempty : (more.tokens ++ t :: rest).isEmpty = false := by rw [isEmpty_tokens_append]; rfl
    by_cases hfirst : first.Plain false
    · have hoperand := settles_parseOperand first (more.tokens ++ t :: rest) (hempty ▸ hfirst)
        (peek_tokens_append fun _ => peek_ne_mul hstop) true
      by_cases hmore : more.Plain false
      · -- nothing but parentheses in parentheses: the mark of the outer ones is gone
        have hnested : first.isParen = true ∧ more.isNil = true :=
          not_not.mp fun hnested => hplain ⟨hnested, hfirst, hmore⟩
        refine settles_clause_unexpected hoperand ?_
        cases more with
        | cons => cases hnested.2
        | nil =>
          refine Bool.eq_true_of_not_eq_false fun hexpected => ?_
          rw [unexpectedEnd_eq_false_iff, Operators.tokens, List.nil_append, peek_cons, ht,
            markAfter, hnested.1] at hexpected
          rcases hexpected with hoperator | hend | hmark
          · exact hoperator rfl
          · cases hend
          · exact Bool.false_ne_true hmark.2
      · refine settles_expression hoperand
          (settles_parseOperators_null more (t :: rest) hmore hstop _ _) fun hnil => ?_
        cases more with
        | cons => cases hnil
        | nil => exact absurd trivial hmore
    · exact settles_clause_null (settles_parseOperand_null first (more.tokens ++ t :: rest)
        (hempty ▸ hfirst) (follows_append hstop) true)

/-- On operators with an operand that is not plain the parser is null. -/
theorem settles_parseOperators_null : ∀ (more : Operators) (rest : List Token),
    ¬ more.Plain rest.isEmpty → rest = [] ∨ peek rest = .RPAREN →
    ∀ (left : Query) (inParen : Bool),
      Settles (parseOperators · left ⟨more.tokens ++ rest, inParen⟩) none
  | .nil, rest, hplain, _, left, inParen => absurd trivial hplain
  | .cons t op h right more, rest, hplain, hstop, left, inParen => by
    have htokens : (Operators.cons t op h right more).tokens ++ rest =
        t :: (right.tokens ++ (more.tokens ++ rest)) := by
      rw [Operators.tokens, List.cons_append, List.append_assoc]
    by_cases hright : right.Plain (rest.isEmpty && more.isNil)
    · have hmore : ¬ more.Plain rest.isEmpty := fun hmore => hplain ⟨hright, hmore⟩
      rw [← isEmpty_tokens_append] at hright
      have hoperand := settles_parseOperand right (more.tokens ++ rest) hright
        (peek_tokens_append fun _ => peek_ne_mul hstop) inParen
      rw [htokens]
      exact settles_operators_cons h hoperand
        (settles_parseOperators_null more rest hmore hstop _ _)
    · rw [← isEmpty_tokens_append] at hright
      rw [htokens]
      exact settles_operators_null h (settles_parseOperand_null right (more.tokens ++ rest) hright
        (follows_append hstop) inParen)

end

/-! ## What is parsed -/

/-- The parser returns; if it is not null, what it returns is related to where it stands. -/
def Returns (f : ℕ → Option (Option (Query × QueryParser)))
    (reads : Query → QueryParser → Prop) : Prop :=
  ∃ r, Settles f r ∧ ∀ q p', r = some (q, p') → reads q p'

theorem returns_null {f : ℕ → Option (Option (Query × QueryParser))}
    {reads : Query → QueryParser → Prop} (h : Settles f none) : Returns f reads :=
  ⟨none, h, fun _ _ hnull => absurd hnull.symm (Option.some_ne_none _)⟩

theorem returns_some {f : ℕ → Option (Option (Query × QueryParser))}
    {reads : Query → QueryParser → Prop} (h : Settles f (some (q, p'))) (hreads : reads q p') :
    Returns f reads :=
  ⟨some (q, p'), h, fun _ _ heq => by cases heq; exact hreads⟩

/-- The `END` token is not among the tokens. -/
def NoEnd (p : QueryParser) : Prop := ∀ t ∈ p.tokens, t.kind ≠ .END

theorem NoEnd.of_append (h : NoEnd p) {taken : List Token}
    (htokens : p.tokens = taken ++ p'.tokens) : NoEnd p' :=
  fun t ht => h t (htokens ▸ List.mem_append_right taken ht)

/-- What is read as an operand: some tokens, which are a plain operand if there are tokens left. -/
structure ReadsOperand (p : QueryParser) (q : Query) (p' : QueryParser) : Prop where
  tokens : ∃ taken, taken ≠ [] ∧ p.tokens = taken ++ p'.tokens
  plain : p'.tokens ≠ [] → ∃ o : Operand, o.Plain false ∧ o.tree = q ∧
    p.tokens = o.tokens ++ p'.tokens ∧
    p'.parsingParenClause = markAfter o p.parsingParenClause ∧
    (o.isPrecise = true → peek p'.tokens ≠ .MUL)

/-- What is read as operators, behind the query on their left. -/
structure ReadsOperators (left : Query) (p : QueryParser) (q : Query) (p' : QueryParser) :
    Prop where
  tokens : ∃ taken, p.tokens = taken ++ p'.tokens
  stops : operatorOf (peek p'.tokens) = none
  plain : p'.tokens ≠ [] → ∃ more : Operators, more.Plain false ∧ more.tree left = q ∧
    p.tokens = more.tokens ++ p'.tokens ∧ (more.isNil = true → p' = p) ∧
    ∀ first : Operand, (first.isPrecise = true → peek p.tokens ≠ .MUL) →
      (more.last first).isPrecise = true → peek p'.tokens ≠ .MUL

/-- What is read as an expression. -/
structure ReadsExpression (p : QueryParser) (q : Query) (p' : QueryParser) : Prop where
  tokens : ∃ taken, taken ≠ [] ∧ p.tokens = taken ++ p'.tokens
  stops : operatorOf (peek p'.tokens) = none
  plain : p'.tokens ≠ [] → ∃ e : Expression, e.Plain false ∧ e.tree = q ∧
    p.tokens = e.tokens ++ p'.tokens ∧ (e.endsPrecise = true → peek p'.tokens ≠ .MUL) ∧
    (e.more.isNil = true →
      peek p'.tokens = .RPAREN ∧ markAfter e.first p.parsingParenClause = true)

theorem ReadsTerm.readsOperand (h : ReadsTerm p q p') : ReadsOperand p q p' := by
  obtain ⟨⟨words, hne, htokens, hterm⟩, hmark⟩ := h
  refine ⟨⟨words, hne, htokens⟩, fun hrest => ?_⟩
  obtain ⟨hterm, hstar⟩ := hterm hrest
  exact ⟨.term words q hterm, trivial, rfl, htokens, hmark, hstar⟩

/-- An operand is read if the expressions behind a parenthesis are. -/
theorem returns_operand_of (hend : NoEnd p)
    (hclause : ∀ l tokens, p.tokens = l :: tokens →
      Returns (parseBooleanClause · ⟨tokens, true⟩) (ReadsExpression ⟨tokens, true⟩)) :
    Returns (parseOperand · p) (ReadsOperand p) := by
  by_cases hparen : peek p.tokens = .LPAREN
  · obtain ⟨_ | ⟨l, tokens⟩, inParen⟩ := p
    · cases hparen
    have hl : l.kind = .LPAREN := hparen
    obtain ⟨r, hr, hreads⟩ := hclause l tokens rfl
    refine ⟨afterClause r, settles_operand_paren (by rw [skip_cons, if_pos hl]) (settles_paren hr),
      fun q p' hafter => ?_⟩
    obtain ⟨⟨q₁, ⟨tokens₁, mark⟩⟩, rfl, hskip⟩ := Option.bind_eq_some_iff.mp hafter
    obtain ⟨⟨v, p₂⟩, htaken, heq⟩ := Option.map_eq_some_iff.mp hskip
    obtain ⟨t, ht, -, hp₁⟩ := skip_eq_some (by decide) htaken
    cases heq
    obtain ⟨rfl, hmark⟩ := QueryParser.mk.inj hp₁
    obtain ⟨⟨taken, -, htokens⟩, -, hplain⟩ := hreads _ _ rfl
    refine ⟨⟨l :: (taken ++ [t]), List.cons_ne_nil _ _, ?_⟩, fun _ => ?_⟩
    · have htaken : tokens = taken ++ t :: p'.tokens := htokens
      rw [htaken, List.cons_append, List.append_assoc, List.singleton_append]
    obtain ⟨e, ⟨hfirst, hmore⟩, htree, hetokens, -, halone⟩ := hplain (List.cons_ne_nil _ _)
    refine ⟨.paren l e.first e.more t hl ht, ⟨?_, hfirst, hmore⟩, htree, ?_, hmark.symm, ?_⟩
    · rintro ⟨hisParen, hnil⟩
      have hmark := (halone hnil).2
      rw [markAfter, hisParen] at hmark
      cases hmark
    · have htaken : tokens = e.tokens ++ t :: p'.tokens := hetokens
      rw [htaken, Operand.tokens, Expression.tokens, List.cons_append, List.append_assoc,
        List.append_assoc, List.append_assoc, List.singleton_append]
    · exact fun hprecise => absurd hprecise Bool.false_ne_true
  · by_cases hterm : peek p.tokens = .IDENTIFIER ∨ peek p.tokens = .WILDCARD
    · refine ⟨parseTerm p, settles_operand_term hterm, fun q p' hparse => ?_⟩
      exact (readsTerm_of_parseTerm hend hparse).readsOperand
    · exact returns_null (settles_operand_null hparen hterm)

/-- Operators are read if operands are. -/
theorem returns_operators {n : ℕ}
    (hoperand : ∀ p : QueryParser, p.tokens.length ≤ n → NoEnd p →
      Returns (parseOperand · p) (ReadsOperand p)) :
    ∀ (m : ℕ) (p : QueryParser) (left : Query), p.tokens.length ≤ m → m ≤ n → NoEnd p →
      Returns (parseOperators · left p) (ReadsOperators left p) := by
  intro m
  induction m with
  | zero =>
    intro p left hlength _ _
    have hnil : p.tokens = [] := List.eq_nil_of_length_eq_zero (Nat.le_zero.mp hlength)
    have hstop : operatorOf (peek p.tokens) = none := by rw [hnil]; rfl
    refine returns_some (settles_operators_nil hstop) ⟨⟨[], rfl⟩, hstop, fun hne => absurd hnil hne⟩
  | succ m ih =>
    intro p left hlength hm hend
    cases hop : operatorOf (peek p.tokens) with
    | none =>
      exact returns_some (settles_operators_nil hop) ⟨⟨[], rfl⟩, hop, fun _ =>
        ⟨.nil, trivial, rfl, rfl, fun _ => rfl, fun _ hfirst => hfirst⟩⟩
    | some op =>
      obtain ⟨_ | ⟨t, tokens⟩, inParen⟩ := p
      · cases hop
      have hlength' : tokens.length ≤ m := Nat.le_of_succ_le_succ hlength
      have hend' : NoEnd ⟨tokens, inParen⟩ := fun u hu => hend u (List.mem_cons_of_mem t hu)
      obtain ⟨_ | ⟨right, p₁⟩, hright, hreads⟩ := hoperand ⟨tokens, inParen⟩
        (hlength'.trans (Nat.le_of_succ_le hm)) hend'
      · exact returns_null (settles_operators_null hop hright)
      obtain ⟨⟨taken, hne, htaken⟩, hoperandPlain⟩ := hreads right p₁ rfl
      have hlength₁ : p₁.tokens.length ≤ m := by
        have := congrArg List.length htaken
        rw [List.length_append] at this
        exact (Nat.le_add_left _ _).trans (this ▸ hlength')
      obtain ⟨r, hmore, hreads⟩ := ih p₁ (.op op left right) hlength₁ (Nat.le_of_succ_le hm)
        (hend'.of_append htaken)
      refine ⟨r, settles_operators_cons hop hright hmore, fun q p' hr => ?_⟩
      obtain ⟨⟨taken', htaken'⟩, hstop, hmorePlain⟩ := hreads q p' hr
      refine ⟨⟨t :: (taken ++ taken'), ?_⟩, hstop, fun hrest => ?_⟩
      · rw [List.cons_append, List.append_assoc, ← htaken', ← htaken]
      · obtain ⟨more, hplain, htree, htokens, hnil, hlast⟩ := hmorePlain hrest
        have hrest₁ : p₁.tokens ≠ [] := by
          rw [htokens]
          exact List.append_ne_nil_of_right_ne_nil _ hrest
        obtain ⟨o, hoPlain, rfl, hotokens, -, hostar⟩ := hoperandPlain hrest₁
        refine ⟨.cons t op hop o more, ⟨hoPlain, hplain⟩, htree, ?_, ?_, ?_⟩
        · have hright : tokens = o.tokens ++ (more.tokens ++ p'.tokens) := by
            rw [← htokens]
            exact hotokens
          show t :: tokens = t :: (o.tokens ++ more.tokens) ++ p'.tokens
          rw [hright, List.cons_append, List.append_assoc]
        · exact fun hnil => absurd hnil Bool.false_ne_true
        · exact fun _ _ => hlast o hostar

/-- An expression is read if operands are. -/
theorem returns_expression {n : ℕ}
    (hoperand : ∀ p : QueryParser, p.tokens.length ≤ n → NoEnd p →
      Returns (parseOperand · p) (ReadsOperand p)) (hlength : p.tokens.length ≤ n)
    (hend : NoEnd p) : Returns (parseBooleanClause · p) (ReadsExpression p) := by
  obtain ⟨_ | ⟨first, p₁⟩, hfirst, hreads⟩ := hoperand p hlength hend
  · exact returns_null (settles_clause_null hfirst)
  obtain ⟨⟨taken, hne, htaken⟩, hfirstPlain⟩ := hreads first p₁ rfl
  by_cases hexpected : p₁.unexpectedEnd = true
  · exact returns_null (settles_clause_unexpected hfirst hexpected)
  rw [Bool.not_eq_true] at hexpected
  have hlength₁ : p₁.tokens.length ≤ n := by
    have hsum := congrArg List.length htaken
    rw [List.length_append] at hsum
    exact (Nat.le_add_left _ _).trans (hsum ▸ hlength)
  obtain ⟨r, hmore, hreads⟩ := returns_operators hoperand n p₁ first hlength₁ le_rfl
    (hend.of_append htaken)
  refine ⟨r, settles_clause hfirst hexpected hmore, fun q p' hr => ?_⟩
  obtain ⟨⟨taken', htaken'⟩, hstop, hmorePlain⟩ := hreads q p' hr
  refine ⟨⟨taken ++ taken', List.append_ne_nil_of_left_ne_nil hne _, ?_⟩, hstop, fun hrest => ?_⟩
  · rw [List.append_assoc, ← htaken', ← htaken]
  obtain ⟨more, hplain, htree, htokens, hnil, hlast⟩ := hmorePlain hrest
  have hrest₁ : p₁.tokens ≠ [] := by
    rw [htokens]
    exact List.append_ne_nil_of_right_ne_nil _ hrest
  obtain ⟨o, hoPlain, rfl, hotokens, hmark, hostar⟩ := hfirstPlain hrest₁
  refine ⟨⟨o, more⟩, ⟨hoPlain, hplain⟩, htree, ?_, hlast o hostar, fun halone => ?_⟩
  · rw [Expression.tokens, List.append_assoc, ← htokens, ← hotokens]
  · obtain rfl := hnil halone
    have hpeek : peek p'.tokens ≠ .END := by
      obtain ⟨t, tokens, htokens'⟩ := List.exists_cons_of_ne_nil hrest
      rw [htokens', peek_cons]
      exact hend t (by rw [htaken, htokens']; exact List.mem_append_right _ List.mem_cons_self)
    obtain hoperator | hatEnd | hparen := unexpectedEnd_eq_false_iff.mp hexpected
    · exact absurd hstop hoperator
    · exact absurd hatEnd hpeek
    · rwa [hmark] at hparen

/-- An operand is read or refused. -/
theorem returns_operand (n : ℕ) : ∀ p : QueryParser, p.tokens.length ≤ n → NoEnd p →
    Returns (parseOperand · p) (ReadsOperand p) := by
  induction n with
  | zero =>
    intro p hlength hend
    refine returns_operand_of hend fun l tokens htokens => ?_
    rw [htokens] at hlength
    cases hlength
  | succ n ih =>
    intro p hlength hend
    refine returns_operand_of hend fun l tokens htokens => returns_expression ih ?_ ?_
    · rw [htokens] at hlength
      exact Nat.le_of_succ_le_succ hlength
    · exact fun t ht => hend t (htokens ▸ List.mem_cons_of_mem l ht)

/-! ## Texts -/

/-- What the lexer delivers of a text: the `END` token is behind the tokens, not among them. -/
structure Text where
  tokens : List Token
  noEnd : ∀ t ∈ tokens, t.kind ≠ .END

/-- The parser terminates on the text; if the text is a query expression, it reads all of it and
returns its operator tree, and it is null where tokens would be left. -/
def ParsesWhole (text : Text) : Prop :=
  ∃ r, Settles (parse · text.tokens) r ∧
    (∀ e : Expression, e.tokens = text.tokens → ∃ p, r = some (e.tree, p) ∧ p.tokens = []) ∧
    ∀ q p, r = some (q, p) → p.tokens = []

/-- The text is a plain expression with an operator in it, and then something that the expression
does not go on with. -/
def StopsInside (text : Text) : Prop :=
  ∃ (e : Expression) (rest : List Token), e.Plain false ∧ e.more.isNil = false ∧ rest ≠ [] ∧
    text.tokens = e.tokens ++ rest ∧ operatorOf (peek rest) = none ∧
    (e.endsPrecise = true → peek rest ≠ .MUL)

/-- A plain expression is parsed to its tree. -/
theorem settles_parse {e : Expression} (hplain : e.Plain rest.isEmpty)
    (hstar : e.endsPrecise = true → peek rest ≠ .MUL) (hstop : operatorOf (peek rest) = none)
    (halone : e.more.isNil = true → rest = []) :
    ∃ mark, Settles (parse · (e.tokens ++ rest)) (some (e.tree, ⟨rest, mark⟩)) := by
  obtain ⟨mark, hmore⟩ := settles_parseOperators e.more rest e.first hplain.2 hstar hstop
    e.first.tree (markAfter e.first false)
  have hfirst' : e.first.Plain (e.more.tokens ++ rest).isEmpty := by
    rw [isEmpty_tokens_append]
    exact hplain.1
  have hfirst := settles_parseOperand e.first (e.more.tokens ++ rest) hfirst'
    (peek_tokens_append hstar) false
  refine ⟨mark, ?_⟩
  rw [Expression.tokens, List.append_assoc]
  exact settles_expression hfirst hmore fun hnil => .inl (halone hnil)

/-- On the text of an expression that is not plain the parser is null. -/
theorem settles_parse_null {e : Expression} (hplain : ¬ e.Plain true) :
    Settles (parse · e.tokens) none := by
  have hempty : ([] : List Token).isEmpty = true := rfl
  have htokens : e.tokens = e.first.tokens ++ (e.more.tokens ++ []) := by
    rw [List.append_nil, Expression.tokens]
  rw [htokens]
  by_cases hfirst : e.first.Plain (true && e.more.isNil)
  · have hmore : ¬ e.more.Plain true := fun hmore => hplain ⟨hfirst, hmore⟩
    have hoperand := settles_parseOperand e.first (e.more.tokens ++ [])
      (by rw [isEmpty_tokens_append]; exact hfirst)
      (peek_tokens_append fun _ => by decide) false
    exact settles_expression hoperand
      (settles_parseOperators_null e.more [] hmore (.inl rfl) _ _) fun _ => .inl rfl
  · exact settles_clause_null (settles_parseOperand_null e.first (e.more.tokens ++ [])
      (by rw [isEmpty_tokens_append]; exact hfirst) (follows_append (.inl rfl)) false)

/-- A text that is an expression, but not a plain one, is refused. -/
theorem not_parsesWhole_of_not_plain {text : Text} {e : Expression}
    (htokens : e.tokens = text.tokens) (hplain : ¬ e.Plain true) : ¬ ParsesWhole text := by
  rintro ⟨r, hr, htree, -⟩
  obtain ⟨p, rfl, -⟩ := htree e htokens
  have hnull : Settles (parse · text.tokens) none := htokens ▸ settles_parse_null hplain
  exact absurd (hr.unique hnull) (Option.some_ne_none _)

/-- A text in which the parser stops inside is taken for the expression in front. -/
theorem not_parsesWhole_of_stopsInside {text : Text} (h : StopsInside text) :
    ¬ ParsesWhole text := by
  obtain ⟨e, rest, hplain, hop, hrest, htokens, hstop, hstar⟩ := h
  rintro ⟨r, hr, -, hwhole⟩
  obtain ⟨mark, hparse⟩ := settles_parse (List.isEmpty_eq_false_iff.mpr hrest ▸ hplain) hstar
    hstop fun hnil => absurd (hop.symm.trans hnil) Bool.false_ne_true
  rw [← htokens] at hparse
  exact hrest (hwhole e.tree ⟨rest, mark⟩ (hr.unique hparse))

/-- The expressions of the grammar are parsed as wholes, and nothing is returned with tokens left,
if and only if the text is no expression but a plain one and the parser does not stop inside. -/
theorem parsesWhole_iff (text : Text) :
    ParsesWhole text ↔
      (∀ e : Expression, e.tokens = text.tokens → e.Plain true) ∧ ¬ StopsInside text := by
  constructor
  · refine fun hwhole => ⟨fun e htokens => ?_, fun hstops => ?_⟩
    · by_contra hplain
      exact not_parsesWhole_of_not_plain htokens hplain hwhole
    · exact not_parsesWhole_of_stopsInside hstops hwhole
  · rintro ⟨hplain, hstops⟩
    have hreturns : Returns (parse · text.tokens) (ReadsExpression ⟨text.tokens, false⟩) :=
      returns_expression (returns_operand text.tokens.length) le_rfl text.noEnd
    obtain ⟨r, hr, hreads⟩ := hreturns
    refine ⟨r, hr, fun e htokens => ?_, fun q p hsome => ?_⟩
    · obtain ⟨mark, hparse⟩ : ∃ mark, Settles (parse · (e.tokens ++ []))
          (some (e.tree, ⟨[], mark⟩)) :=
        settles_parse (hplain e htokens) (fun _ => by decide) rfl fun _ => rfl
      rw [List.append_nil, htokens] at hparse
      exact ⟨⟨[], mark⟩, hr.unique hparse, rfl⟩
    · by_contra hrest
      obtain ⟨-, hstop, hexpression⟩ := hreads q p hsome
      obtain ⟨e, heplain, -, htokens, hstar, halone⟩ := hexpression hrest
      refine hstops ⟨e, p.tokens, heplain, ?_, hrest, htokens, hstop, hstar⟩
      refine Bool.eq_false_iff.mpr fun hnil => ?_
      have hmark := (halone hnil).2
      rw [markAfter, Bool.and_false] at hmark
      cases hmark

/-- A token in the first line. -/
def tokenAt (kind : TokenKind) (value : List UInt8) (column : ℕ) : Token where
  kind
  delimiterNum := 1
  isSingleQuote := false
  commentForMacroDebug := false
  value
  beginPos := ⟨1, 1, BitVec.ofNat 32 column⟩
  endPos := ⟨1, 1, BitVec.ofNat 32 (column + value.length)⟩

/-- The text `((a:1))`. -/
def nestedParens : Text where
  tokens := [tokenAt .LPAREN [40] 1, tokenAt .LPAREN [40] 2, tokenAt .IDENTIFIER [97] 3,
    tokenAt .COLON [58] 4, tokenAt .INTEGER_LITERAL [49] 5, tokenAt .RPAREN [41] 6,
    tokenAt .RPAREN [41] 7]
  noEnd := by decide

/-- The text `a:1 && b:2 c:3`. -/
def missingOperator : Text where
  tokens := [tokenAt .IDENTIFIER [97] 1, tokenAt .COLON [58] 2, tokenAt .INTEGER_LITERAL [49] 3,
    tokenAt .AND [38, 38] 5, tokenAt .IDENTIFIER [98] 8, tokenAt .COLON [58] 9,
    tokenAt .INTEGER_LITERAL [50] 10, tokenAt .IDENTIFIER [99] 12, tokenAt .COLON [58] 13,
    tokenAt .INTEGER_LITERAL [51] 14]
  noEnd := by decide

theorem isValue_integerLiteral : IsValue .INTEGER_LITERAL := ⟨by decide, by decide, by decide⟩

/-- A term `key:number`. -/
def numberTerm (key number : UInt8) (column : ℕ) : Operand :=
  .term [tokenAt .IDENTIFIER [key] column, tokenAt .COLON [58] (column + 1),
      tokenAt .INTEGER_LITERAL [number] (column + 2)] _
    (.precise ⟨rfl, rfl⟩ isValue_integerLiteral
      (show TokenKind.INTEGER_LITERAL ≠ .DOLLAR by decide))

/-- Two pairs of parentheses are refused, and what stands behind `a:1 && b:2` is left. -/
theorem not_parsesWhole_nestedParens :
    ¬ ParsesWhole nestedParens ∧ ¬ ParsesWhole missingOperator := by
  constructor
  · let inner : Operand := .paren (tokenAt .LPAREN [40] 2) (numberTerm 97 49 3) .nil
      (tokenAt .RPAREN [41] 6) rfl rfl
    let outer : Operand := .paren (tokenAt .LPAREN [40] 1) inner .nil (tokenAt .RPAREN [41] 7) rfl
      rfl
    have hplain : ¬ (Expression.mk outer .nil).Plain true := fun h => h.1.1 ⟨rfl, rfl⟩
    exact not_parsesWhole_of_not_plain rfl hplain
  · let more : Operators := .cons (tokenAt .AND [38, 38] 5) .AND rfl (numberTerm 98 50 8) .nil
    refine not_parsesWhole_of_stopsInside ⟨⟨numberTerm 97 49 1, more⟩, [tokenAt .IDENTIFIER [99] 12,
      tokenAt .COLON [58] 13, tokenAt .INTEGER_LITERAL [51] 14], ?_, rfl, List.cons_ne_nil _ _, rfl,
      rfl, fun _ => by decide⟩
    exact ⟨trivial, trivial, trivial⟩

end QueryParser

end Cangjie
