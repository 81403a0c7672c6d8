import CangjieCompiler.Lex.Token

/-!
# Looking at the next tokens

What the parsers see of the tokens in front of them.  The tokens are those that the lexer delivers
up to the end of the text; line ends and comments are left out, as `Peek` and `Next` skip them.
Behind the last token there is the `END` token, however often it is read.
-/

namespace Cangjie.Parse

/-- `Peek`: the kind of the next token. -/
def peek (tokens : List Token) : TokenKind := (tokens.head?.map Token.kind).getD .END

/-- `Seeing` of one kind. -/
def seeing (kind : TokenKind) (tokens : List Token) : Bool := peek tokens == kind

/-- `Seeing` of a range of kinds, by the numbers of the kinds. -/
def seeingRange (rangeLeft rangeRight : TokenKind) (tokens : List Token) : Bool :=
  decide (rangeLeft.toNat ≤ (peek tokens).toNat ∧ (peek tokens).toNat ≤ rangeRight.toNat)

/-- `SeeingAny` -/
def seeingAny (kinds : List TokenKind) (tokens : List Token) : Bool := kinds.contains (peek tokens)

/-- The value of the next token; the `END` token has none. -/
def peekValue (tokens : List Token) : List UInt8 := (tokens.head?.map Token.value).getD []

/-- The token `b` begins one column behind the token `a`, in the same line. -/
def adjacent (a b : Token) : Bool :=
  b.beginPos.line == a.beginPos.line && b.beginPos.column == a.beginPos.column + 1

/-- Every token begins one column behind the one before. -/
def allAdjacent : List Token → Bool
  | a :: b :: tokens => adjacent a b && allAdjacent (b :: tokens)
  | _ => true

/-- `SeeingCombinator`: several tokens without space between them. -/
def seeingCombinator (kinds : List TokenKind) (tokens : List Token) : Bool :=
  (tokens.take kinds.length).map Token.kind == kinds && allAdjacent (tokens.take kinds.length)

section

variable {kind : TokenKind} {kinds : List TokenKind} {t : Token} {tokens : List Token}

@[simp] theorem peek_nil : peek [] = .END := rfl

@[simp] theorem peek_cons : peek (t :: tokens) = t.kind := rfl

@[simp] theorem peekValue_cons : peekValue (t :: tokens) = t.value := rfl

@[simp] theorem seeing_cons : seeing kind (t :: tokens) = (t.kind == kind) := rfl

theorem seeing_iff : seeing kind tokens = true ↔ peek tokens = kind := beq_iff_eq

theorem seeingAny_iff : seeingAny kinds tokens = true ↔ peek tokens ∈ kinds := List.contains_iff_mem

theorem kinds_of_seeingCombinator (h : seeingCombinator kinds tokens = true) :
    (tokens.take kinds.length).map Token.kind = kinds :=
  beq_iff_eq.mp (Bool.and_eq_true_iff.mp h).1

/-- A combinator needs as many tokens as it has. -/
theorem seeingCombinator_of_length_lt (h : tokens.length < kinds.length) :
    seeingCombinator kinds tokens = false := by
  refine Bool.eq_false_iff.mpr fun hseeing => ?_
  have hlength := congrArg List.length (kinds_of_seeingCombinator hseeing)
  rw [List.length_map, List.length_take] at hlength
  exact absurd hlength (Nat.ne_of_lt (lt_of_le_of_lt (Nat.min_le_right _ _) h))

/-- Combinators of one length exclude each other. -/
theorem seeingCombinator_of_ne {kinds' : List TokenKind} (h : seeingCombinator kinds tokens = true)
    (hlength : kinds.length = kinds'.length) (hne : kinds ≠ kinds') :
    seeingCombinator kinds' tokens = false := by
  refine Bool.eq_false_iff.mpr fun hseeing => hne ?_
  rw [← kinds_of_seeingCombinator h, hlength, kinds_of_seeingCombinator hseeing]

theorem seeingCombinator_pair_iff {kind' : TokenKind} :
    seeingCombinator [kind, kind'] tokens = true ↔
      ∃ a b rest, tokens = a :: b :: rest ∧ a.kind = kind ∧ b.kind = kind' ∧
        adjacent a b = true := by
  rcases tokens with _ | ⟨a, _ | ⟨b, rest⟩⟩
  · simp [seeingCombinator]
  · simp [seeingCombinator]
  · simp [seeingCombinator, allAdjacent, and_assoc]

end

end Cangjie.Parse
