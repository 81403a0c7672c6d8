import CangjieCompiler.Foundations.ByteCodec
import CangjieCompiler.Lex.Token

/-!
# Serialization of tokens for macros

Tokens travel between the compiler and a macro as bytes: the number of tokens, and for each token
its kind, the length and the bytes of its value, its begin position, the quote style and, for raw
strings, the number of delimiters.  The end position is not written; the reader computes it from
the length of the value.  Numbers are little-endian, as in the memory of the supported machines.
-/

namespace Cangjie.TokenSerialization

open ByteCodec

/-- The kinds of tokens that can be escaped in a quote expression. -/
def getEscapeTokenKinds : List TokenKind := [.DOLLAR_IDENTIFIER, .AT, .DOLLAR, .LPAREN, .RPAREN]

/-- The number of columns of a token whose value has the given size. -/
def getTokenLength (originalSize : ℕ) (kind : TokenKind) (delimiterNum : BitVec 32) : ℕ :=
  match kind with
  | .NL => 1
  | .STRING_LITERAL => originalSize + 2
  | .RUNE_LITERAL => originalSize + 2 + 1
  | .JSTRING_LITERAL => originalSize + 2 + 1
  | .MULTILINE_STRING => originalSize + 6
  | .MULTILINE_RAW_STRING => originalSize + ((delimiterNum + 1) <<< 1).toNat
  | _ => originalSize

/-! ## Writing -/

/-- The column that is written: an escaped token begins after its backslash. -/
def writtenColumn (tk : Token) : BitVec 32 :=
  let column := tk.beginPos.column
  if tk.kind ∈ getEscapeTokenKinds ∧
      column + 1 + BitVec.ofNat 32 tk.value.length = tk.endPos.column then
    column + 1
  else column

/-- The bytes of one token.  Two bytes are taken from the place of `isSingleQuote`; the second one
is the flag that follows it in the token. -/
def getTokenBytes (tk : Token) : List UInt8 :=
  writeLE 2 tk.kind.toNat ++
  (writeLE 4 tk.value.length ++
  (tk.value ++
  (writeLE 4 tk.beginPos.fileID.toNat ++
  (writeLE 4 tk.beginPos.line.toNat ++
  (writeLE 4 (writtenColumn tk).toNat ++
  (writeLE 2 (tk.isSingleQuote.toNat + 256 * tk.commentForMacroDebug.toNat) ++
  (if tk.kind = .MULTILINE_RAW_STRING then writeLE 2 tk.delimiterNum.toNat else [])))))))

/-- The bytes of a list of tokens. -/
def getTokensBytes (tokens : List Token) : List UInt8 :=
  if tokens.isEmpty then []
  else writeLE 4 tokens.length ++ tokens.flatMap getTokenBytes

/-! ## Reading -/

/-- A string from bytes, with every NUL byte written as a backslash and a zero. -/
def getStringFromBytes (bytes : List UInt8) : List UInt8 :=
  bytes.flatMap fun b => if b = 0 then [92, 48] else [b]

/-- The number of delimiters, present for raw strings only.  The two bytes overwrite the low half
of the default `1`. -/
def readDelimiterNum (kind : TokenKind) : Reader (BitVec 32) :=
  if kind = .MULTILINE_RAW_STRING then do
    let delimiterNum ← readLE 2
    pure (BitVec.ofNat 32 delimiterNum)
  else pure 1

/-- The end of a token that begins at the given position. -/
def computedEnd (begin : Position) (length : ℕ) : Position :=
  if begin.beq INVALID_POSITION then INVALID_POSITION else begin.advance length

/-- Reading one token.  A number that names no kind is outside of the model. -/
def readToken : Reader Token := do
  let kindNumber ← readLE 2
  let kind ← StateT.lift (TokenKind.ofNat? kindNumber)
  let strLen ← readLE 4
  let bytes ← readMany readByte strLen
  let fileID ← readLE 4
  let line ← readLE 4
  let column ← readLE 4
  let isSingle ← readLE 2
  let delimiterNum ← readDelimiterNum kind
  let value := getStringFromBytes bytes
  let begin : Position := ⟨BitVec.ofNat 32 fileID, BitVec.ofNat 32 line, BitVec.ofNat 32 column⟩
  pure
    { kind := kind
      delimiterNum := delimiterNum
      isSingleQuote := isSingle == 1
      commentForMacroDebug := false
      value := value
      beginPos := begin
      endPos := computedEnd begin (getTokenLength value.length kind delimiterNum) }

/-- Reading a list of tokens. -/
def readTokens : Reader (List Token) := do
  let numberOfTokens ← readLE 4
  readMany readToken numberOfTokens

/-- The place where the bytes of a vector start, which is null for an empty vector. -/
def data (bytes : List UInt8) : Option (List UInt8) := if bytes.isEmpty then none else some bytes

/-- The tokens from bytes.  The result is `none` when the bytes end too early. -/
def getTokensFromBytes (pBuffer : Option (List UInt8)) : Option (List Token) :=
  match pBuffer with
  | none => some []
  | some bytes => (readTokens bytes).map Prod.fst

end Cangjie.TokenSerialization
