import CangjieCompiler.Macro.TokenSerialization

/-!
# The round trip of tokens through bytes

The reader consumes exactly the bytes that were written for each token, so the lists have the same
length and every field that is written is read back.  Two fields are not the ones of the original:
a NUL byte in a value becomes a backslash and a zero, and the end position is computed as if the
token were on one line.
-/

namespace Cangjie.TokenSerialization

open ByteCodec

/-- The rule for a value that is known without reading. -/
theorem reads_lift {α : Type} {answer : Option α} {a : α} (h : answer = some a) :
    Reads (StateT.lift answer) [] a := by
  subst h
  exact fun _ => rfl

/-- What the lexer guarantees of a token, and the sizes that the format can hold. -/
structure Lexed (tk : Token) : Prop where
  value_length : tk.value.length < 2 ^ 32
  delimiterNum_lt : tk.delimiterNum.toNat < 2 ^ 16
  delimiterNum_default : tk.kind ≠ .MULTILINE_RAW_STRING → tk.delimiterNum = 1
  not_debug : tk.commentForMacroDebug = false

/-- The begin position that is written. -/
def writtenBegin (tk : Token) : Position := { tk.beginPos with column := writtenColumn tk }

/-- The token that is read back. -/
def readBack (tk : Token) : Token :=
  { tk with
    value := getStringFromBytes tk.value
    beginPos := writtenBegin tk
    endPos := computedEnd (writtenBegin tk)
      (getTokenLength (getStringFromBytes tk.value).length tk.kind tk.delimiterNum) }

section Token

variable {tk : Token}

theorem reads_readDelimiterNum (h : Lexed tk) :
    Reads (readDelimiterNum tk.kind)
      (if tk.kind = .MULTILINE_RAW_STRING then writeLE 2 tk.delimiterNum.toNat else [])
      tk.delimiterNum := by
  rw [readDelimiterNum]
  split_ifs with hraw
  · have hread := (reads_readLE_of_lt (k := 2) h.delimiterNum_lt).map (f := BitVec.ofNat 32)
    rwa [BitVec.ofNat_toNat, BitVec.setWidth_eq] at hread
  · rw [h.delimiterNum_default hraw]
    exact Reads.pure 1

/-- The flag after the quote style is false for tokens of the lexer, so the two bytes are the
quote style. -/
theorem quoteStyle_eq (h : Lexed tk) :
    tk.isSingleQuote.toNat + 256 * tk.commentForMacroDebug.toNat = tk.isSingleQuote.toNat := by
  rw [h.not_debug]
  rfl

/-- The reader consumes exactly the bytes that were written for a token. -/
theorem reads_readToken (h : Lexed tk) : Reads readToken (getTokenBytes tk) (readBack tk) := by
  have hword : ∀ v : BitVec 32, Reads (readLE 4) (writeLE 4 v.toNat) v.toNat := fun v =>
    reads_readLE_of_lt v.isLt
  have hkind : tk.kind.toNat < 256 ^ 2 := tk.kind.toNat_lt.trans (by decide)
  have hquote : tk.isSingleQuote.toNat < 256 ^ 2 := by
    cases tk.isSingleQuote <;> decide
  have hresult : readBack tk =
      { kind := tk.kind
        delimiterNum := tk.delimiterNum
        isSingleQuote := tk.isSingleQuote.toNat == 1
        commentForMacroDebug := false
        value := getStringFromBytes tk.value
        beginPos := ⟨BitVec.ofNat 32 tk.beginPos.fileID.toNat,
          BitVec.ofNat 32 tk.beginPos.line.toNat, BitVec.ofNat 32 (writtenColumn tk).toNat⟩
        endPos := computedEnd ⟨BitVec.ofNat 32 tk.beginPos.fileID.toNat,
            BitVec.ofNat 32 tk.beginPos.line.toNat, BitVec.ofNat 32 (writtenColumn tk).toNat⟩
          (getTokenLength (getStringFromBytes tk.value).length tk.kind tk.delimiterNum) } := by
    have hsingle : (tk.isSingleQuote.toNat == 1) = tk.isSingleQuote := by
      cases tk.isSingleQuote <;> rfl
    simp only [BitVec.ofNat_toNat, BitVec.setWidth_eq, hsingle, readBack, writtenBegin,
      h.not_debug]
  have hlift : Reads (StateT.lift (TokenKind.ofNat? tk.kind.toNat)) [] tk.kind :=
    reads_lift tk.kind.ofNat?_toNat
  rw [readToken, getTokenBytes, hresult, quoteStyle_eq h]
  refine (reads_readLE_of_lt hkind).bind ?_
  refine hlift.bind ?_
  refine (reads_readLE_of_lt h.value_length).bind ?_
  refine (reads_bytes tk.value).bind ?_
  refine (hword _).bind ?_
  refine (hword _).bind ?_
  refine (hword _).bind ?_
  refine (reads_readLE_of_lt hquote).bind ?_
  exact (reads_readDelimiterNum h).map

end Token

/-! ## Lists of tokens -/

/-- What is read back for a token, up to its value and its end. -/
structure ReadAs (tk back : Token) : Prop where
  kind : back.kind = tk.kind
  isSingleQuote : back.isSingleQuote = tk.isSingleQuote
  delimiterNum : back.delimiterNum = tk.delimiterNum
  beginPos : back.beginPos = writtenBegin tk

/-- A string is unchanged exactly when it has no NUL byte. -/
theorem getStringFromBytes_eq_iff (bytes : List UInt8) :
    getStringFromBytes bytes = bytes ↔ 0 ∉ bytes := by
  have hlength : ∀ bytes, bytes.length ≤ (getStringFromBytes bytes).length := by
    intro bytes
    induction bytes with
    | nil => exact le_rfl
    | cons b bytes ih =>
      have hone : 1 ≤ (if b = 0 then ([92, 48] : List UInt8) else [b]).length := by
        split_ifs <;> simp
      rw [getStringFromBytes, List.flatMap_cons, List.length_append, List.length_cons]
      rw [getStringFromBytes] at ih
      omega
  induction bytes with
  | nil => simp [getStringFromBytes]
  | cons b bytes ih =>
    have hcons : getStringFromBytes (b :: bytes) =
        (if b = 0 then [92, 48] else [b]) ++ getStringFromBytes bytes := List.flatMap_cons
    rw [hcons, List.mem_cons, not_or]
    by_cases hb : b = 0
    · rw [if_pos hb]
      refine iff_of_false (fun heq => ?_) fun h => h.1 hb.symm
      have hlen := congrArg List.length heq
      have hle := hlength bytes
      rw [List.length_append, List.length_cons, List.length_cons, List.length_nil,
        List.length_cons] at hlen
      omega
    · rw [if_neg hb, List.singleton_append, List.cons_inj_right]
      exact ih.trans (and_iff_right (Ne.symm hb)).symm

theorem readAs_readBack (tk : Token) : ReadAs tk (readBack tk) := ⟨rfl, rfl, rfl, rfl⟩

/-- The bytes of the tokens of the lexer are read back token by token: the fields that are written
return unchanged, a value returns unchanged exactly when it has no NUL byte, and the end is the
computed one. -/
theorem getTokensFromBytes_getTokensBytes (tokens : List Token) (hcount : tokens.length < 2 ^ 32)
    (hlexed : ∀ tk ∈ tokens, Lexed tk) :
    (∀ tk ∈ tokens, Reads readToken (getTokenBytes tk) (readBack tk)) ∧
      ∃ back, getTokensFromBytes (data (getTokensBytes tokens)) = some back ∧
        List.Forall₂ (fun tk back => ReadAs tk back ∧
          back.value = getStringFromBytes tk.value ∧ (back.value = tk.value ↔ 0 ∉ tk.value) ∧
          back.endPos = computedEnd (writtenBegin tk)
            (getTokenLength back.value.length tk.kind tk.delimiterNum)) tokens back := by
  refine ⟨fun tk htk => reads_readToken (hlexed tk htk), tokens.map readBack, ?_, ?_⟩
  · cases tokens with
    | nil => rfl
    | cons tk rest =>
      have hbytes : getTokensBytes (tk :: rest) =
          writeLE 4 (tk :: rest).length ++ (tk :: rest).flatMap getTokenBytes := rfl
      have hmany := reads_readMany fun t ht => reads_readToken (hlexed t ht)
      have hread := (reads_readLE_of_lt (k := 4) hcount).bind (f := readMany readToken) hmany []
      have hdata : data (getTokensBytes (tk :: rest)) = some (getTokensBytes (tk :: rest)) := rfl
      rw [List.append_nil, ← hbytes] at hread
      rw [hdata, getTokensFromBytes, readTokens]
      exact congrArg (Option.map Prod.fst) hread
  · rw [List.forall₂_map_right_iff, List.forall₂_same]
    exact fun tk _ => ⟨readAs_readBack tk, rfl, getStringFromBytes_eq_iff tk.value, rfl⟩

/-- The token of a multi-line string whose text is one line with the letter `a`. -/
def multilineString : Token :=
  { kind := .MULTILINE_STRING
    delimiterNum := 1
    isSingleQuote := false
    commentForMacroDebug := false
    value := [97, 10]
    beginPos := ⟨1, 1, 1⟩
    endPos := ⟨1, 3, 4⟩ }

theorem lexed_multilineString : Lexed multilineString :=
  ⟨by decide, by decide, fun _ => rfl, rfl⟩

/-- The end of a multi-line string, on its third line, is not read back. -/
theorem getTokensFromBytes_end_lost :
    ¬∀ tokens : List Token, tokens.length < 2 ^ 32 → (∀ tk ∈ tokens, Lexed tk) →
      ∃ back, getTokensFromBytes (data (getTokensBytes tokens)) = some back ∧
        List.Forall₂ (fun tk back => ReadAs tk back ∧ back.value = tk.value ∧
          back.endPos = tk.endPos) tokens back := by
  intro hall
  obtain ⟨back, hback, hsame⟩ := hall [multilineString] (by decide)
    fun tk htk => List.mem_singleton.mp htk ▸ lexed_multilineString
  have hread : getTokensFromBytes (data (getTokensBytes [multilineString])) =
      some [readBack multilineString] := by decide
  obtain rfl := Option.some.inj (hread.symm.trans hback)
  rw [List.forall₂_cons] at hsame
  exact absurd hsame.1.2.2 (by decide)

theorem getTokensFromBytes_getTokensBytes_multilineString :
    (∀ tk ∈ [multilineString], Reads readToken (getTokenBytes tk) (readBack tk)) ∧
      ∃ back, getTokensFromBytes (data (getTokensBytes [multilineString])) = some back ∧
        List.Forall₂ (fun tk back => ReadAs tk back ∧
          back.value = getStringFromBytes tk.value ∧ (back.value = tk.value ↔ 0 ∉ tk.value) ∧
          back.endPos = computedEnd (writtenBegin tk)
            (getTokenLength back.value.length tk.kind tk.delimiterNum)) [multilineString] back :=
  getTokensFromBytes_getTokensBytes [multilineString] (by decide)
    fun tk htk => List.mem_singleton.mp htk ▸ lexed_multilineString

end Cangjie.TokenSerialization
