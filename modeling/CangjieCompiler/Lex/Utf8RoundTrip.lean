import CangjieCompiler.Lex.Utf8Decoding

/-!
# Writing and reading characters

`StringConvertor::CodepointToUTF8` writes a code point in as many bytes as it needs, and the scanner
reads characters.  A text that was written character by character is read as these characters, where
a carriage return and the line feed after it are read as one, and a diagnostic is given exactly for
the unsecure ones.
-/

namespace Cangjie

/-! ## Writing -/

def LOW_6_BIT_MASK : UInt32 := 0x3f
def LOW_5_BIT_MASK : UInt32 := 0x1f
def LOW_4_BIT_MASK : UInt32 := 0x0f
def LOW_3_BIT_MASK : UInt32 := 0x07
def LOW_2_BIT_MASK : UInt32 := 0x03
def LOW_1_BIT_MASK : UInt32 := 0x01

def UTF8_1_MAX : UInt32 := 0x7f
def UTF8_2_MAX : UInt32 := 0x07ff
def UTF8_3_MAX : UInt32 := 0xffff
def UTF8_4_MAX : UInt32 := 0x10ffff
def UTF8_5_MAX : UInt32 := 0x3ffffff
def UTF8_6_MAX : UInt32 := 0x7fffffff

/-- The masked bits of a word with the flag of a byte. -/
def flaggedByte (bits mask flag : UInt32) : UInt8 := ((bits &&& mask) ||| flag).toUInt8

/-- A byte that is not the first one of a character. -/
def continuationByte (bits : UInt32) : UInt8 := flaggedByte bits LOW_6_BIT_MASK 0x80

/-- `StringConvertor::CodepointToUTF8` -/
def codepointToUTF8 (pointValue : UInt32) : List UInt8 :=
  if pointValue ≤ UTF8_1_MAX then [pointValue.toUInt8]
  else if pointValue ≤ UTF8_2_MAX then
    [flaggedByte (pointValue >>> 6) LOW_5_BIT_MASK 0xc0, continuationByte pointValue]
  else if pointValue ≤ UTF8_3_MAX then
    [flaggedByte (pointValue >>> 12) LOW_4_BIT_MASK 0xe0, continuationByte (pointValue >>> 6),
      continuationByte pointValue]
  else if pointValue ≤ UTF8_4_MAX then
    [flaggedByte (pointValue >>> 18) LOW_3_BIT_MASK 0xf0, continuationByte (pointValue >>> 12),
      continuationByte (pointValue >>> 6), continuationByte pointValue]
  else if pointValue ≤ UTF8_5_MAX then
    [flaggedByte (pointValue >>> 24) LOW_2_BIT_MASK 0xf8, continuationByte (pointValue >>> 18),
      continuationByte (pointValue >>> 12), continuationByte (pointValue >>> 6),
      continuationByte pointValue]
  else if pointValue ≤ UTF8_6_MAX then
    [flaggedByte (pointValue >>> 30) LOW_1_BIT_MASK 0xfc, continuationByte (pointValue >>> 24),
      continuationByte (pointValue >>> 18), continuationByte (pointValue >>> 12),
      continuationByte (pointValue >>> 6), continuationByte pointValue]
  else []

lemma flaggedByte_eq (bits mask flag : UInt32) :
    flaggedByte bits mask flag = bits.toUInt8 &&& mask.toUInt8 ||| flag.toUInt8 := by
  rw [flaggedByte, UInt32.toUInt8_or, UInt32.toUInt8_and]

/-- A character is written in its encoding. -/
lemma codepointToUTF8_val (ch : Char) : codepointToUTF8 ch.val = String.utf8EncodeChar ch := by
  have hmax : ch.val ≤ UTF8_4_MAX := by
    have hlt := char_toNat_lt ch
    rw [UInt32.le_iff_toNat_le]
    exact Nat.le_of_lt_succ hlt
  rw [String.utf8EncodeChar_eq_utf8EncodeCharFast, String.utf8EncodeCharFast, codepointToUTF8,
    if_pos hmax]
  simp only [continuationByte, flaggedByte_eq]
  rfl

/-! ## Reading -/

namespace Cursor

/-- The characters that are read up to the end of the text, and whether no diagnostic was given. -/
def readChars (input : LexerInput) : ℕ → Cursor → List ℤ × Bool
  | 0, c => ([], c.success)
  | n + 1, c =>
    let c' := c.readUTF8Char input
    if c'.currentChar = -1 then ([], c.success)
    else (c'.currentChar :: (readChars input n c').1, (readChars input n c').2)

/-- A line feed after a carriage return is not read on its own. -/
def mergeLineEnds : List Char → List Char
  | [] => []
  | [ch] => [ch]
  | ch :: ch' :: chars =>
    if ch = '\r' ∧ ch' = '\n' then ch :: mergeLineEnds chars else ch :: mergeLineEnds (ch' :: chars)

lemma mergeLineEnds_cons {ch : Char} {chars : List Char}
    (h : ¬(ch = '\r' ∧ ∃ rest, chars = '\n' :: rest)) :
    mergeLineEnds (ch :: chars) = ch :: mergeLineEnds chars := by
  cases chars with
  | nil => rfl
  | cons ch' rest =>
    rw [mergeLineEnds, if_neg]
    rintro ⟨hcr, rfl⟩
    exact h ⟨hcr, rest, rfl⟩

/-- The encodings of characters one after the other. -/
def encode (chars : List Char) : List UInt8 := chars.flatMap String.utf8EncodeChar

section Text

variable {input : LexerInput} {offset : ℕ} {ch : Char} {chars : List Char}

lemma startsWith_of_encode (h : input.text.drop offset = encode (ch :: chars)) :
    StartsWith input.text offset ch := by
  rw [StartsWith, h, encode, List.flatMap_cons]
  exact List.prefix_append _ _

lemma drop_encode (h : input.text.drop offset = encode (ch :: chars)) :
    input.text.drop (offset + (String.utf8EncodeChar ch).length) = encode chars := by
  rw [← List.drop_drop, h, encode, List.flatMap_cons, List.drop_left]
  rfl

/-- A first byte that is an ASCII character is the whole character. -/
lemma toNat_of_startsWith (h : StartsWith input.text offset ch) {byte : ℕ}
    (hbyte : byteAt input.text offset = byte) (hascii : byte ≤ 0x7f) : ch.toNat = byte := by
  have hcases := startsWith_iff.mp h
  omega

lemma byteAt_of_startsWith (h : StartsWith input.text offset ch) (hascii : ch.toNat ≤ 0x7f) :
    byteAt input.text offset = ch.toNat := by
  have hcases := startsWith_iff.mp h
  omega

lemma lt_length_of_startsWith (h : StartsWith input.text offset ch) :
    offset < input.text.length := by
  have hcases := startsWith_iff.mp h
  omega

/-- A line end of two bytes is read exactly at a carriage return before a line feed. -/
lemma lineTerminator_iff (h : input.text.drop offset = encode (ch :: chars)) :
    getLineTerminatorLength input.text offset = 2 ↔ ch = '\r' ∧ ∃ rest, chars = '\n' :: rest := by
  have hstarts := startsWith_of_encode h
  have hrest := drop_encode h
  rw [getLineTerminatorLength_eq_two_iff]
  constructor
  · rintro ⟨hcr, hinside, hlf⟩
    obtain rfl : ch = '\r' := Char.toNat_inj.mp (toNat_of_startsWith hstarts hcr (by decide))
    refine ⟨rfl, ?_⟩
    cases chars with
    | nil =>
      have hlength := List.drop_eq_nil_iff.mp hrest
      exact absurd hinside (Nat.not_lt.mpr hlength)
    | cons ch' rest =>
      obtain rfl : ch' = '\n' :=
        Char.toNat_inj.mp (toNat_of_startsWith (startsWith_of_encode hrest) hlf (by decide))
      exact ⟨rest, rfl⟩
  · rintro ⟨rfl, rest, rfl⟩
    have hnext := startsWith_of_encode hrest
    exact ⟨byteAt_of_startsWith hstarts (by decide), lt_length_of_startsWith hnext,
      byteAt_of_startsWith hnext (by decide)⟩

/-- Reading from the place where the encodings of characters begin. -/
lemma readChars_encode (n : ℕ) {c : Cursor} (h : input.text.drop c.pNext = encode chars)
    (hn : chars.length < n) :
    readChars input n c = ((mergeLineEnds chars).map fun ch => (ch.toNat : ℤ),
      c.success && (mergeLineEnds chars).all fun ch => checkUnicodeSecurity ch.toNat) := by
  induction n generalizing c chars with
  | zero => exact absurd hn (Nat.not_lt_zero _)
  | succ n ih =>
    cases chars with
    | nil =>
      have hend : input.text.length ≤ c.pNext := List.drop_eq_nil_iff.mp h
      have hread : (c.readUTF8Char input).currentChar = -1 := by
        rw [Scanning.readUTF8Char_of_end input c hend]
      rw [readChars, if_pos hread, mergeLineEnds, List.all_nil, Bool.and_true]
      rfl
    | cons ch chars =>
      obtain ⟨hcurrent, hnext, hsuccess⟩ :=
        readUTF8Char_of_startsWith input (startsWith_of_encode h)
      have hne : (c.readUTF8Char input).currentChar ≠ -1 := by
        rw [hcurrent]
        omega
      have hlength : chars.length < n := Nat.lt_of_succ_lt_succ hn
      rw [readChars, if_neg hne]
      by_cases hcrlf : ch = '\r' ∧ ∃ rest, chars = '\n' :: rest
      · obtain ⟨rfl, rest, rfl⟩ := hcrlf
        have hplace : (c.readUTF8Char input).pNext = c.pNext + 1 + 1 := by
          rw [hnext, offsetAfter, if_pos ((lineTerminator_iff h).mpr ⟨rfl, rest, rfl⟩)]
        have hrest : input.text.drop (c.readUTF8Char input).pNext = encode rest := by
          rw [hplace]
          exact drop_encode (drop_encode h)
        rw [ih hrest (Nat.lt_of_succ_lt hlength), hcurrent, hsuccess, mergeLineEnds,
          if_pos ⟨rfl, rfl⟩, List.map_cons, List.all_cons, Bool.and_assoc]
      · have hrest : input.text.drop (c.readUTF8Char input).pNext = encode chars := by
          rw [hnext, offsetAfter, if_neg fun hline => hcrlf ((lineTerminator_iff h).mp hline)]
          exact drop_encode h
        rw [ih hrest hlength, hcurrent, hsuccess, mergeLineEnds_cons hcrlf, List.map_cons,
          List.all_cons, Bool.and_assoc]

end Text

/-- A text that was written character by character is read as these characters, with a line feed
after a carriage return as part of it, and no diagnostic is given unless one of them is unsecure. -/
theorem readChars_codepointToUTF8 (chars : List Char) (posBase : Position) (n : ℕ) :
    readChars ⟨chars.flatMap fun ch => codepointToUTF8 ch.val, posBase⟩ (chars.length + 1 + n)
        start =
      ((mergeLineEnds chars).map fun ch => (ch.toNat : ℤ),
        (mergeLineEnds chars).all fun ch => checkUnicodeSecurity ch.toNat) := by
  have hencode : (chars.flatMap fun ch => codepointToUTF8 ch.val) = encode chars := by
    rw [encode]
    exact congrArg (fun f => List.flatMap f chars) (funext codepointToUTF8_val)
  have hstart : (encode chars).drop start.pNext = encode chars := rfl
  rw [hencode]
  exact readChars_encode (chars.length + 1 + n) hstart (by omega)

end Cursor

end Cangjie
