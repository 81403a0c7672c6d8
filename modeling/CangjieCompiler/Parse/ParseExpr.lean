import CangjieCompiler.Parse.ParserUtils
import Mathlib

/-!
# Expressions of binary operators

How the parser reads operands with binary operators between them (`ParseExpr`): a loop takes the
operators that bind at least as tight as the incoming one and parses the right operand of each with
that operator as the incoming one.  Operands are items of their own, as `ParseBaseExpr` reads them;
of the parser's state there is what is in front of it and the lines of the last token.

The types behind `is` and `as` are not modelled, nor the warnings about line ends in front of an
operator; of the diagnostics there are those for chained operators, of the others only the marks
that they leave on expressions.
-/

namespace Cangjie.Parse

/-! ## Operators -/

/-- The column of precedences in `Tokens.inc`; 0 is `INVALID_PRECEDENCE`. -/
def precedence : TokenKind → ℕ
  | .EXP => 16
  | .MUL | .MOD | .DIV => 15
  | .ADD | .SUB => 14
  | .LSHIFT | .RSHIFT => 13
  | .RANGEOP | .CLOSEDRANGEOP => 11
  | .LT | .GT | .LE | .GE | .IS | .AS => 10
  | .NOTEQ | .EQUAL => 9
  | .BITAND => 8
  | .BITXOR => 7
  | .BITOR => 6
  | .AND => 5
  | .OR => 3
  | .COALESCING => 2
  | .PIPELINE | .COMPOSITION | .QUEST => 1
  | _ => 0

/-- `IsCompoundAssign` -/
def isCompoundAssign (kind : TokenKind) : Bool :=
  decide (TokenKind.ADD_ASSIGN.toNat ≤ kind.toNat ∧ kind.toNat ≤ TokenKind.RSHIFT_ASSIGN.toNat)

/-- Whether a kind is an assignment. -/
def isAssign (kind : TokenKind) : Bool := isCompoundAssign kind || kind == .ASSIGN

/-- The operators whose levels do not associate (`NONE_ASSO_OPS`). -/
def noneAssoOps : List TokenKind := [.ASSIGN, .RANGEOP, .EQUAL, .LT]

/-- `IsNoneAssociative` -/
def isNoneAssociative (tok : Token) : Bool :=
  noneAssoOps.any fun op => precedence op == precedence tok.kind

/-- `LookupSeenCombinator`: operators that are several tokens, the longest first. -/
def lookupSeenCombinator (tokens : List Token) : Option (TokenKind × List UInt8) :=
  if seeingCombinator [.GT, .GT, .ASSIGN] tokens then some (.RSHIFT_ASSIGN, [62, 62, 61])
  else if seeingCombinator [.GT, .GT] tokens then some (.RSHIFT, [62, 62])
  else if seeingCombinator [.GT, .ASSIGN] tokens then some (.GE, [62, 61])
  else if seeingCombinator [.QUEST, .QUEST] tokens then some (.COALESCING, [63, 63])
  else none

/-- `SeeingExprOperator`, with no line end skipped. -/
def seeingExprOperator (tokens : List Token) : Bool :=
  (lookupSeenCombinator tokens).isSome || precedence (peek tokens) != 0 || isAssign (peek tokens)

/-- The token behind the last one. -/
def endToken : Token where
  kind := .END
  delimiterNum := 1
  isSingleQuote := false
  commentForMacroDebug := false
  value := []
  beginPos := ⟨0, 0, 0⟩
  endPos := ⟨0, 0, 0⟩

/-- `GetExprOperator`: the next token, or the operator that it begins. -/
def getExprOperator (tokens : List Token) : Token :=
  let token := tokens.head?.getD endToken
  match lookupSeenCombinator tokens with
  | some (kind, value) => { token with kind, value, endPos := token.beginPos.advance value.length }
  | none => token

/-- The number of tokens that `SkipExprOperator` skips. -/
def exprOperatorLength (tokens : List Token) : ℕ :=
  match lookupSeenCombinator tokens with
  | some (_, value) => value.length
  | none => 1

/-! ## Operands and expressions -/

/-- The attributes `HAS_BROKEN` and `IS_BROKEN`. -/
structure Attributes where
  hasBroken : Bool := false
  isBroken : Bool := false
  deriving DecidableEq, Repr

/-- An operand as `ParseBaseExpr` reads it: what the parser asks of its expression, and the lines of
its tokens. -/
structure Operand where
  attributes : Attributes
  /-- `IsLeftValueExpression` -/
  isLeftValue : Bool
  /-- `hasQuestSuffix` -/
  hasQuestSuffix : Bool
  /-- an increment or decrement of an expression with `hasQuestSuffix` -/
  isQuestIncOrDec : Bool
  /-- macro calls around a declaration -/
  isMacroDecl : Bool
  /-- the lines of its wildcards -/
  wildcardLines : List (BitVec 32)
  /-- the line of its first token -/
  beginLine : BitVec 32
  /-- the lines of the begin and of the end of its last token -/
  lastToken : BitVec 32 × BitVec 32
  /-- a line end in front of it, or one of the tokens `)`, `,` and `}` in it -/
  hasRecoveryPoint : Bool
  deriving DecidableEq, Repr

/-- What is in front of the parser. -/
inductive Item where
  | operand (o : Operand)
  | token (t : Token)
  deriving DecidableEq, Repr

/-- The tokens in front of the next operand. -/
def leadingTokens : List Item → List Token
  | .token t :: items => t :: leadingTokens items
  | _ => []

/-- Expressions. -/
inductive Expr where
  | base (attributes : Attributes) (o : Operand)
  | optionalChain (attributes : Attributes) (e : Expr)
  | operator (attributes : Attributes) (tok : Token) (left right : Expr)
  | step (attributes : Attributes) (range stepExpr : Expr)
  deriving DecidableEq, Repr

namespace Expr

/-- The attributes of the root. -/
def attributes : Expr → Attributes
  | base attributes _ => attributes
  | optionalChain attributes _ => attributes
  | operator attributes _ _ _ => attributes
  | step attributes _ _ => attributes

/-- `EnableAttr` -/
def enableAttr (attrs : Attributes) : Expr → Expr
  | base a o => base (merge a) o
  | optionalChain a e => optionalChain (merge a) e
  | operator a tok left right => operator (merge a) tok left right
  | step a range stepExpr => step (merge a) range stepExpr
where
  /-- The attributes with those to be enabled. -/
  merge (a : Attributes) : Attributes :=
    ⟨a.hasBroken || attrs.hasBroken, a.isBroken || attrs.isBroken⟩

/-- `hasQuestSuffix`; an assignment that takes it over is wrapped at once. -/
def hasQuestSuffix : Expr → Bool
  | base _ o => o.hasQuestSuffix
  | _ => false

/-- `IsLeftValueExpression` -/
def isLeftValue : Expr → Bool
  | base _ o => o.isLeftValue
  | optionalChain _ _ => true
  | _ => false

/-- `CheckMacroExprRules` -/
def checkMacroExprRules : Expr → Bool
  | base _ o => !o.isMacroDecl
  | _ => true

/-- The lines of the wildcards that the walk of `CheckWildcardInExpr` comes to. -/
def wildcardLines : Expr → List (BitVec 32)
  | base _ o => o.wildcardLines
  | optionalChain _ e => e.wildcardLines
  | operator _ tok left right =>
    if tok.kind = .ASSIGN then [] else left.wildcardLines ++ right.wildcardLines
  | step _ range stepExpr => range.wildcardLines ++ stepExpr.wildcardLines

end Expr

/-! ## The parser -/

/-- The state of the parser: the items in front, the lines of the begin and of the end of the last
token, and the chained operators that were reported. -/
structure State where
  items : List Item
  lastToken : BitVec 32 × BitVec 32
  chained : List (Token × Token)
  deriving DecidableEq, Repr

namespace State

/-- The tokens that the parser sees. -/
def tokens (s : State) : List Token := leadingTokens s.items

/-- The line of the token in front; the end of the text is where the last token ends. -/
def lookaheadLine (s : State) : BitVec 32 :=
  match s.items with
  | [] => s.lastToken.2
  | .operand o :: _ => o.beginLine
  | .token t :: _ => t.beginPos.line

/-- `Next`, past a token. -/
def next (s : State) : State :=
  match s.items with
  | .token t :: items => { s with items, lastToken := (t.beginPos.line, t.endPos.line) }
  | _ => s

/-- `SkipExprOperator` -/
def skipExprOperator (s : State) : State := next^[exprOperatorLength s.tokens] s

/-- The tokens to which `CheckWildcardInExpr` skips, besides a line end. -/
def recoveryKinds : List TokenKind := [.RPAREN, .COMMA, .RCURL]

/-- `ConsumeUntilAny` of a line end and of `recoveryKinds`.  What is left of an operand with such a
token in it stands for the operand. -/
def consumeUntilAny (s : State) : List Item → State
  | .operand o :: items =>
    if o.hasRecoveryPoint then { s with items := .operand o :: items }
    else consumeUntilAny { s with lastToken := o.lastToken } items
  | .token t :: items =>
    if t.kind ∈ recoveryKinds then { s with items := .token t :: items }
    else consumeUntilAny { s with lastToken := (t.beginPos.line, t.endPos.line) } items
  | [] => { s with items := [] }

/-- A wildcard in the line of the token in front and of the last token: the rest of the line is
skipped. -/
def skipBehindWildcard (s : State) (line : BitVec 32) : State :=
  if line = s.lookaheadLine ∧ s.lookaheadLine = s.lastToken.1 then s.consumeUntilAny s.items else s

/-- `CheckWildcardInExpr` -/
def checkWildcardInExpr (e : Expr) (s : State) : State :=
  e.wildcardLines.foldl skipBehindWildcard s

end State

/-- `IsZero` -/
def isZero (p : Position) : Bool := p.line == 0 && p.column == 0

/-- `IsNeedToCreateOptionalChain` -/
def isNeedToCreateOptionalChain (kind : TokenKind) (o : Operand) : Bool :=
  (!isAssign kind && o.hasQuestSuffix) || o.isQuestIncOrDec

/-- `ParseBaseExpr`, when an operand is in front. -/
def parseBaseExpr (s : State) : Option (Expr × State) :=
  match s.items with
  | .operand o :: items =>
    let s := { s with items, lastToken := o.lastToken }
    if isNeedToCreateOptionalChain (getExprOperator s.tokens).kind o then
      some (.optionalChain {} (.base o.attributes o), s)
    else some (.base o.attributes o, s)
  | _ => none

/-- `CheckLeftExpression` -/
def checkLeftExpression (preT : Token) (base : Expr) (tok : Token) (s : State) : Expr × State :=
  if isZero preT.beginPos then
    if !base.isLeftValue && !base.attributes.hasBroken && precedence tok.kind == 0 then
      (base.enableAttr ⟨true, true⟩, s)
    else (base, s)
  else if isNoneAssociative tok && !base.attributes.hasBroken then
    (base.enableAttr ⟨true, false⟩, { s with chained := s.chained ++ [(preT, tok)] })
  else (base, s)

/-- `CheckLeftExpression` is asked for operators of equal precedence. -/
def checkOperator (preT : Token) (base : Expr) (tok : Token) (s : State) : Expr × State :=
  if precedence preT.kind = precedence tok.kind then checkLeftExpression preT base tok s
  else (base, s)

/-- `MakeOperatorExpr`, with the right operand that `ParseExprWithRightExprOrType` registers, and
the marks that the two set. -/
def makeOperatorExpr (base : Expr) (tok : Token) (rExpr : Expr) : Expr :=
  .operator
    { hasBroken := !base.checkMacroExprRules || !rExpr.checkMacroExprRules ||
        rExpr.attributes.hasBroken || rExpr.attributes.isBroken
      isBroken := base.attributes.isBroken } tok base rExpr

/-- An assignment to an expression with `hasQuestSuffix` is an optional chain. -/
def wrapAssign (base : Expr) (tok : Token) (e : Expr) : Expr :=
  if isAssign tok.kind && base.hasQuestSuffix then .optionalChain {} e else e

/-- The operator is behind an expression that is complete for the incoming operator. -/
def endsExpr (preT tok : Token) : Bool :=
  precedence tok.kind < precedence preT.kind ||
    (precedence preT.kind == precedence tok.kind &&
      (tok.kind != .COALESCING && tok.kind != .EXP &&
        !(isZero preT.beginPos && precedence tok.kind == 0)))

mutual

/-- `ParseExpr` of an ordinary expression; `preT` is the incoming operator. -/
def parseExpr : ℕ → Token → State → Option (Expr × State)
  | 0, _, _ => none
  | fuel + 1, preT, s =>
    (parseBaseExpr s).bind fun r => parseOperators fuel preT r.1 r.2

/-- The loop of `ParseExpr`. -/
def parseOperators : ℕ → Token → Expr → State → Option (Expr × State)
  | 0, _, _, _ => none
  | fuel + 1, preT, base, s =>
    if !seeingExprOperator s.tokens then some (base, s)
    else
      let tok := getExprOperator s.tokens
      let checked := checkOperator preT base tok s
      if endsExpr preT tok then some checked
      else
        (parseExprWithRightExpr fuel checked.1 tok checked.2).bind fun r =>
          parseOperators fuel preT r.1 r.2

/-- `ParseExprWithRightExprOrType`, but for the types behind `is` and `as`. -/
def parseExprWithRightExpr : ℕ → Expr → Token → State → Option (Expr × State)
  | 0, _, _, _ => none
  | fuel + 1, base, tok, s =>
    if tok.kind = .IS ∨ tok.kind = .AS then none
    else
      (parseExpr fuel tok s.skipExprOperator).bind fun r =>
        (registerRightExpr fuel base tok r.1 r.2).map fun r => (wrapAssign base tok r.1, r.2)

/-- `RegisterRightExpr`; a range may have a step. -/
def registerRightExpr : ℕ → Expr → Token → Expr → State → Option (Expr × State)
  | 0, _, _, _, _ => none
  | fuel + 1, base, tok, rExpr, s =>
    let s := if tok.kind = .ASSIGN then s.checkWildcardInExpr rExpr else s
    let e := makeOperatorExpr base tok rExpr
    if (tok.kind = .RANGEOP ∨ tok.kind = .CLOSEDRANGEOP) ∧ seeing .COLON s.tokens then
      (parseExpr fuel tok s.next).map fun r => (.step e.attributes e r.1, r.2)
    else some (e, s)

end

/-- The incoming operator of a whole expression: a token without a position. -/
def outermost : Token where
  kind := .DOT
  delimiterNum := 1
  isSingleQuote := false
  commentForMacroDebug := false
  value := []
  beginPos := ⟨0, 0, 0⟩
  endPos := ⟨0, 0, 0⟩

end Cangjie.Parse
