import CangjieCompiler.Parse.ParserUtils
import CangjieCompiler.Utils.StdUtils

/-!
# Queries and their parser

A query asks the searcher for symbols; it is a tree of terms under `&&`, `||` and `!`
(`Query.h`).  The parser (`QueryParser`) reads it by recursive descent: a clause is an operand and
then operators with an operand each, an operand is a term or a clause in parentheses.

The parser is null where the source returns a null pointer (and reports an error); the recursion of
clauses and parentheses runs on fuel.
-/

namespace Cangjie

open Parse

/-! ## Queries -/

/-- Operations on the query node. -/
inductive Operator where
  | AND
  | OR
  | NOT
  deriving DecidableEq, Repr

/-- The type of a query node. -/
inductive QueryType where
  | OP
  | STRING
  | POS
  | NONE
  deriving DecidableEq, Repr

/-- How the value of a search term is matched. -/
inductive MatchKind where
  | PRECISE
  | PREFIX
  | SUFFIX
  deriving DecidableEq, Repr

/-- The fields of a leaf of the query tree. -/
structure QueryTerm where
  key : List UInt8 := []
  value : List UInt8 := []
  pos : Position := ⟨0, 0, 0⟩
  sign : String := "="
  type : QueryType := .NONE
  matchKind : MatchKind := .PRECISE
  deriving DecidableEq, Repr

/-- The query tree. -/
inductive Query where
  | leaf (term : QueryTerm)
  | op (op : Operator) (left right : Query)
  deriving DecidableEq, Repr

/-- The type of the root of a query. -/
def Query.type : Query → QueryType
  | leaf term => term.type
  | op _ _ _ => .OP

/-! ## The parser -/

/-- The tokens in front of the parser, and whether it is inside parentheses. -/
structure QueryParser where
  tokens : List Token
  parsingParenClause : Bool
  deriving DecidableEq, Repr

namespace QueryParser

/-- `Next` -/
def next (p : QueryParser) : QueryParser := { p with tokens := p.tokens.tail }

/-- `Skip`: takes the next token if it is of the kind.  The value of the token taken is what
`LookAhead` still shows. -/
def skip (kind : TokenKind) (p : QueryParser) : Option (List UInt8 × QueryParser) :=
  if seeing kind p.tokens then some (peekValue p.tokens, p.next) else none

/-- The text of the token `_`. -/
def wildcardText : List UInt8 := [95]

/-- The characters of a value. -/
def chars (value : List UInt8) : List Char := value.map fun b => Char.ofNat b.toNat

/-- `ParseComparator` -/
def parseComparator (p : QueryParser) : Option (String × QueryParser) :=
  if seeing .ASSIGN p.tokens then some ("=", p.next)
  else if seeing .LT p.tokens then some ("<", p.next)
  else if seeing .LE p.tokens then some ("<=", p.next)
  else if seeingCombinator [.GT, .ASSIGN] p.tokens then some (">=", p.next.next)
  else if seeing .GT p.tokens then some (">", p.next)
  else none

/-- `ParsePositionTerm` -/
def parsePositionTerm (p : QueryParser) : Option (Query × QueryParser) := do
  let (sign, p) ← parseComparator p
  let (_, p) ← p.skip .LPAREN
  let (fileID, p) ← p.skip .INTEGER_LITERAL
  let (_, p) ← p.skip .COMMA
  let (line, p) ← p.skip .INTEGER_LITERAL
  let (_, p) ← p.skip .COMMA
  let (column, p) ← p.skip .INTEGER_LITERAL
  let (_, p) ← p.skip .RPAREN
  let pos : Position :=
    { fileID := (StdUtils.stoui (chars fileID) 10).getD 0
      line := (StdUtils.stoi (chars line) 10).getD 0
      column := (StdUtils.stoi (chars column) 10).getD 0 }
  return (.leaf { key := wildcardText, pos, sign, type := .POS }, p)

/-- The value behind `*`: an optional `_` and a token, or nothing at the end of the text. -/
def parseSuffix (key : List UInt8) (p : QueryParser) : Option (Query × QueryParser) :=
  let (written, p) := match p.skip .WILDCARD with
    | some (_, p) => (wildcardText, p)
    | none => ([], p)
  let term (value : List UInt8) : Query :=
    .leaf { key, value, type := .STRING, matchKind := .SUFFIX }
  if seeing .END p.tokens then some (term written, p)
  else if seeingRange .INT8 .RUNE_LITERAL p.tokens then
    some (term (written ++ peekValue p.tokens), p.next)
  else none

/-- `ParseNormalTerm` -/
def parseNormalTerm (p : QueryParser) : Option (Query × QueryParser) := do
  let (key, p) := (p.skip .IDENTIFIER).getD ([], p)
  let (_, p) ← p.skip .COLON
  match p.skip .MUL with
  | some (_, p) => parseSuffix key p
  | none =>
    if seeingRange .INT8 .RUNE_LITERAL p.tokens && !seeing .DOLLAR p.tokens then
      let value := peekValue p.tokens
      let p := p.next
      match p.skip .MUL with
      | some (_, p) => some (.leaf { key, value, type := .STRING, matchKind := .PREFIX }, p)
      | none => some (.leaf { key, value, type := .STRING }, p)
    else none

/-- `ParseTerm` -/
def parseTerm (p : QueryParser) : Option (Query × QueryParser) :=
  if seeing .IDENTIFIER p.tokens then parseNormalTerm p
  else (p.skip .WILDCARD).bind fun (_, p) => parsePositionTerm p

/-- The operator that is next, if one is. -/
def skipOperator (p : QueryParser) : Option (Operator × QueryParser) :=
  if seeing .AND p.tokens then some (.AND, p.next)
  else if seeing .OR p.tokens then some (.OR, p.next)
  else if seeing .NOT p.tokens then some (.NOT, p.next)
  else none

/-- What follows the first operand of a clause is neither an operator nor the end of the clause. -/
def unexpectedEnd (p : QueryParser) : Bool :=
  !seeingAny [.AND, .OR, .NOT, .END] p.tokens && !(seeing .RPAREN p.tokens && p.parsingParenClause)

mutual

/-- `ParseBooleanClause` -/
def parseBooleanClause : ℕ → QueryParser → Option (Option (Query × QueryParser))
  | 0, _ => none
  | fuel + 1, p =>
    (parseOperand fuel p).bind fun
      | none => some none
      | some (left, p) => if p.unexpectedEnd then some none else parseOperators fuel left p

/-- An operand: a clause in parentheses or a term. -/
def parseOperand : ℕ → QueryParser → Option (Option (Query × QueryParser))
  | 0, _ => none
  | fuel + 1, p =>
    match p.skip .LPAREN with
    | some (_, p) => parseParenClause fuel p
    | none =>
      if seeing .IDENTIFIER p.tokens || seeing .WILDCARD p.tokens then some (parseTerm p)
      else some none

/-- The loop of `ParseBooleanClause` over the operators. -/
def parseOperators : ℕ → Query → QueryParser → Option (Option (Query × QueryParser))
  | 0, _, _ => none
  | fuel + 1, left, p =>
    match skipOperator p with
    | none => some (some (left, p))
    | some (op, p) =>
      (parseOperand fuel p).bind fun
        | none => some none
        | some (right, p) => parseOperators fuel (.op op left right) p

/-- `ParseParenClause` -/
def parseParenClause : ℕ → QueryParser → Option (Option (Query × QueryParser))
  | 0, _ => none
  | fuel + 1, p =>
    (parseBooleanClause fuel { p with parsingParenClause := true }).map fun r =>
      r.bind fun (curNode, p) =>
        (skip .RPAREN { p with parsingParenClause := false }).map fun (_, p) => (curNode, p)

end

/-- `Parse` of a text, given by its tokens. -/
def parse (fuel : ℕ) (tokens : List Token) : Option (Option (Query × QueryParser)) :=
  parseBooleanClause fuel ⟨tokens, false⟩

end QueryParser

end Cangjie
