import Mathlib

/-!
# Reading a character

The scanner reads the bytes of a text that ends with a zero byte.  A character is one to four bytes
long; bytes that are no character are eaten up together.  Of the diagnostics only the flag that one
was given is kept.
-/

namespace Cangjie

def BYTE_X_FLAG : ℕ := 0x80
def BYTE_2_FLAG : ℕ := 0xc0
def BYTE_3_FLAG : ℕ := 0xe0
def BYTE_4_FLAG : ℕ := 0xf0
def BYTE_2_BASE : ℤ := 128
def BYTE_3_BASE : ℤ := 2048
def BYTE_4_BASE : ℤ := 65536

/-- The character that stands for illegal bytes. -/
def ERROR_UTF8 : ℤ := -2

/-- The byte at an offset of a text. -/
def byteAt (text : List UInt8) (offset : ℕ) : ℕ := (text.getD offset 0).toNat

/-- The length of the line terminator at an offset of a text. -/
def getLineTerminatorLength (text : List UInt8) (offset : ℕ) : ℕ :=
  if byteAt text offset = 0x0a then 1
  else if byteAt text offset = 0x0d ∧ offset + 1 ≤ text.length ∧ byteAt text (offset + 1) = 0x0a then 2
  else 0

/-- Whether a character is none of the unsecure ones. -/
def checkUnicodeSecurity (c : ℤ) : Bool :=
  let within (low high : ℤ) : Bool := decide (low ≤ c ∧ c ≤ high)
  let isOneOf (chars : List ℤ) : Bool := decide (c ∈ chars)
  let isControlPictures := within 0x2400 0x243F
  let isPrivateUseAreas :=
    within 0xE000 0xF8FF || within 0xF0000 0xFFFFD || within 0x100000 0x10FFFD
  let isSpecials := within 0xFFF0 0xFFFB
  let isTags := within 0xE0000 0xE007F
  let isBidirectionalNeutralFormatting := isOneOf [0x061C, 0x200E, 0x200F]
  let isBidirectionalGeneralFormatting := within 0x202A 0x202E || within 0x2066 0x2069
  let isInterlinearAnnotationChar := isOneOf [0xFFF9, 0xFFFA, 0xFFFB]
  let isPrefixedFormatControl :=
    within 0x0600 0x0605 || isOneOf [0x06DD, 0x070F, 0x0890, 0x0891, 0x110BD, 0x110CD]
  let isEgyptianHieroglyphs := within 0x13430 0x13438
  let isBrahmi := isOneOf [0x1107F, 0x094D, 0x09CD, 0x0A4D, 0x0ACD, 0x0B4D, 0x0BCD, 0x0C4D, 0x0CCD,
    0x0D3B, 0x0D3C, 0x0D4D, 0x0DCA, 0x0E3A, 0x0E4E, 0x0EBA, 0x1039, 0x1714, 0x1715, 0x1734, 0x17D1,
    0x17D2, 0x1A60, 0x1A7A, 0x1B44, 0x1BAA, 0x1BAB, 0x1BF2, 0x1BF3, 0xA806, 0xA82C, 0xA8C4, 0xA953,
    0xA9C0, 0xAAF6, 0x10A3F, 0x11046, 0x11070, 0x110B9, 0x11133, 0x111C0, 0x11235, 0x112EA, 0x1134D,
    0x11442, 0x114C2, 0x115BF, 0x1163F, 0x116B6, 0x1172B, 0x11839, 0x1193D, 0x1193E, 0x119E0, 0x11A34,
    0x11A47, 0x11A99, 0x11C3F, 0x11D44, 0x11D45, 0x11D97]
  let isHistoricalViramas := isOneOf [0x0F84, 0x103A, 0x193B, 0xABED, 0x11134]
  let isMongolianVariation := within 0x180B 0x180E
  let isGenericVariation := within 0xFE00 0xFE0F || within 0xE0100 0xE01EF
  let isTagCharacters := within 0xE0020 0xE007F || isOneOf [0xE0001, 0x2D7F, 0x1680]
  let isIdeographic := within 0x2FF0 0x2FFB || isOneOf [0x303E]
  let isMusicalFormatControl := within 0x1D173 0x1D17A
  let isShorthandFormat := within 0x1BCA0 0x1BCA3
  let isDeprecatedAlternate := within 0x206A 0x206F
  let isOther := isOneOf [0xFFFC, 0xFFFD]
  !(isControlPictures || isPrivateUseAreas || isSpecials || isTags ||
    isBidirectionalNeutralFormatting || isBidirectionalGeneralFormatting ||
    isInterlinearAnnotationChar || isPrefixedFormatControl || isEgyptianHieroglyphs || isBrahmi ||
    isHistoricalViramas || isMongolianVariation || isGenericVariation || isTagCharacters ||
    isIdeographic || isMusicalFormatControl || isShorthandFormat || isDeprecatedAlternate || isOther)

/-- Whether a byte may follow the first one of a character. -/
def isContinuation (byte : ℕ) : Bool := decide (BYTE_X_FLAG ≤ byte ∧ byte < BYTE_2_FLAG)

/-- A character that was read, the offset after it, and whether no diagnostic was given. -/
structure ReadChar where
  ch : ℤ
  pNext : ℕ
  success : Bool

/-- The character of a number of bytes, unless it needs fewer. -/
def readChar (pNext : ℕ) (success : Bool) (base value : ℤ) : ReadChar where
  ch := if value < base then ERROR_UTF8 else value
  pNext := pNext
  success := success && checkUnicodeSecurity value

/-- The character at an offset when the text ends before it does. -/
def readTruncated (text : List UInt8) : ReadChar where
  ch := ERROR_UTF8
  pNext := text.length
  success := false

/-- Reading a character of several bytes, of which the first is given. -/
def readUTF8CharFromMultiBytes (text : List UInt8) (pNext : ℕ) (success : Bool) (byte1 : ℕ) :
    ReadChar :=
  let byte (k : ℕ) := byteAt text (pNext + k)
  let low6 (k : ℕ) : ℕ := byte k % 2 ^ 6
  if text.length < pNext + 2 then readTruncated text
  else
    let success := success && isContinuation (byte 1)
    if !isContinuation (byte 1) then
      { ch := ERROR_UTF8
        pNext := if byte 1 < BYTE_X_FLAG then pNext + 1 else pNext + 2
        success := success }
    else if BYTE_4_FLAG ≤ byte1 then
      if text.length < pNext + 4 then readTruncated text
      else
        readChar (pNext + 4) (success && isContinuation (byte 2) && isContinuation (byte 3)) BYTE_4_BASE
          (byte1 % 2 ^ 3 * 2 ^ 18 + low6 1 * 2 ^ 12 + low6 2 * 2 ^ 6 + low6 3 : ℕ)
    else if BYTE_3_FLAG ≤ byte1 then
      if text.length < pNext + 3 then readTruncated text
      else
        readChar (pNext + 3) (success && isContinuation (byte 2)) BYTE_3_BASE
          (byte1 % 2 ^ 4 * 2 ^ 12 + low6 1 * 2 ^ 6 + low6 2 : ℕ)
    else
      readChar (pNext + 2) success BYTE_2_BASE (byte1 % 2 ^ 5 * 2 ^ 6 + low6 1 : ℕ)

/-- Reading a character of several bytes advances, and stays within the text. -/
lemma lt_readUTF8CharFromMultiBytes (text : List UInt8) {pNext : ℕ} (success : Bool) (byte1 : ℕ)
    (h : pNext < text.length) :
    pNext < (readUTF8CharFromMultiBytes text pNext success byte1).pNext ∧
      (readUTF8CharFromMultiBytes text pNext success byte1).pNext ≤ text.length := by
  unfold readUTF8CharFromMultiBytes readTruncated readChar
  dsimp only
  split_ifs <;> constructor <;> dsimp only <;> omega

end Cangjie
