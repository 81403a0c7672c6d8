import CangjieCompiler.Lex.LineOffsets

/-!
# Scanning the symbols that are split

The symbols that begin with `>` or `?` are scanned with the flag that splits ambiguous tokens, and no
other token depends on the flag.  With the flag only the first character is taken.  Without it the
scanner of `>` reads one character too far and goes back to where this character was found, which is
after the illegal bytes that were eaten up before it.
-/

namespace Cangjie

namespace Cursor

/-- Going back to the current character. -/
def back (c : Cursor) : Cursor := { c with pNext := c.pCurrent }

/-- Looking at a character ahead, with zero past the end. -/
def getNextChar (input : LexerInput) (c : Cursor) (index : ℕ) : ℕ :=
  if input.text.length ≤ c.pNext + index then 0 else byteAt input.text (c.pNext + index)

def scanSymbolGreaterThan (input : LexerInput) (splitAmbiguousToken : Bool) (c : Cursor) : Cursor :=
  if splitAmbiguousToken then c
  else
    let c := c.readUTF8Char input
    if c.currentChar = 0x3e then
      let c := c.readUTF8Char input
      if c.currentChar = 0x3d then c else c.back
    else if c.currentChar = 0x3d then c
    else c.back

def scanSymbolQuest (input : LexerInput) (splitAmbiguousToken : Bool) (c : Cursor) : Cursor :=
  if splitAmbiguousToken then c
  else if c.getNextChar input 0 = 0x3f then c.readUTF8Char input
  else c

/-! ## Characters -/

/-- A character that was read is illegal or has several bytes. -/
lemma readUTF8CharFromMultiBytes_ch (text : List UInt8) (pNext : ℕ) (success : Bool) (byte1 : ℕ) :
    (readUTF8CharFromMultiBytes text pNext success byte1).ch = ERROR_UTF8 ∨
      128 ≤ (readUTF8CharFromMultiBytes text pNext success byte1).ch := by
  have hbase : ∀ pNext success base value, 128 ≤ base →
      (readChar pNext success base value).ch = ERROR_UTF8 ∨
        128 ≤ (readChar pNext success base value).ch := by
    intro pNext success base value hbase
    unfold readChar
    dsimp only
    split_ifs with hvalue
    · exact Or.inl rfl
    · exact Or.inr (hbase.trans (not_lt.mp hvalue))
  unfold readUTF8CharFromMultiBytes
  dsimp only
  split_ifs
  · exact Or.inl rfl
  · exact Or.inl rfl
  · exact Or.inl rfl
  · exact Or.inl rfl
  · exact hbase _ _ _ _ (by decide)
  · exact Or.inl rfl
  · exact hbase _ _ _ _ (by decide)
  · exact hbase _ _ _ _ (by decide)

lemma skipIllegal_ch (text : List UInt8) (fuel pCurrent : ℕ) {r : ReadChar}
    (hr : r.ch = ERROR_UTF8 ∨ 128 ≤ r.ch) :
    (skipIllegal text fuel pCurrent r).2.ch = ERROR_UTF8 ∨
      128 ≤ (skipIllegal text fuel pCurrent r).2.ch := by
  induction fuel generalizing r with
  | zero => exact hr
  | succ fuel ih =>
    unfold skipIllegal
    dsimp only
    split_ifs
    · exact Or.inl rfl
    · exact ih (readUTF8CharFromMultiBytes_ch _ _ _ _)
    · exact hr

/-- An ASCII character other than a carriage return is one byte, and no line begins after it but
after a line feed. -/
lemma readUTF8Char_ascii (input : LexerInput) {c : Cursor} {ch : ℕ}
    (h : (c.readUTF8Char input).currentChar = ch) (hch : ch < 128) (hcr : ch ≠ 0x0d)
    (hlf : ch ≠ 0x0a) :
    c.pNext < input.text.length ∧ byteAt input.text c.pNext = ch ∧
      c.readUTF8Char input = { c with
        pCurrent := c.pNext
        currentChar := ch
        pNext := c.pNext + 1 } := by
  by_cases hend : input.text.length ≤ c.pNext
  · rw [Scanning.readUTF8Char_of_end input c hend] at h
    exact absurd h (by dsimp only; omega)
  · by_cases hascii : byteAt input.text c.pNext < BYTE_2_FLAG
    · have hread := h
      unfold readUTF8Char at hread ⊢
      dsimp only at hread ⊢
      rw [if_neg hend, if_pos hascii] at hread ⊢
      rw [(Scanning.tryRegisterLineOffset_pNext input _).2.2] at hread
      have hbyte : byteAt input.text c.pNext = ch := Int.ofNat_inj.mp hread
      have hterminator : getLineTerminatorLength input.text c.pNext = 0 := by
        unfold getLineTerminatorLength
        rw [hbyte, if_neg hlf, if_neg fun h => hcr h.1]
      have hsuccess : (c.success && decide (ch < BYTE_X_FLAG)) = c.success := by
        rw [decide_eq_true (show ch < BYTE_X_FLAG from hch), Bool.and_true]
      refine ⟨Nat.not_le.mp hend, hbyte, ?_⟩
      rw [hbyte, if_neg fun h => hcr h.1, hsuccess]
      rcases tryRegisterLineOffset_cases input { c with
          pCurrent := c.pNext
          currentChar := (ch : ℤ)
          pNext := c.pNext + 1 } with hsame | ⟨hpos, -, -⟩
      · exact hsame
      · rw [hterminator] at hpos
        exact absurd hpos (lt_irrefl _)
    · unfold readUTF8Char at h
      dsimp only at h
      rw [if_neg hend, if_neg hascii] at h
      dsimp only at h
      rcases skipIllegal_ch input.text input.text.length c.pNext (readUTF8CharFromMultiBytes_ch
          input.text c.pNext c.success (byteAt input.text c.pNext)) with herror | hlarge
      · rw [herror] at h
        exact absurd h (by unfold ERROR_UTF8; omega)
      · rw [h] at hlarge
        omega

/-! ## Steps of the two scanners -/

lemma le_scanSymbolGreaterThan (input : LexerInput) (split : Bool) (c : Cursor) :
    c.pNext ≤ (c.scanSymbolGreaterThan input split).pNext := by
  obtain ⟨hcurrent, hnext⟩ := readUTF8Char_le input c
  obtain ⟨hcurrent', hnext'⟩ := readUTF8Char_le input (c.readUTF8Char input)
  unfold scanSymbolGreaterThan
  dsimp only
  split_ifs
  · exact le_rfl
  · exact ((hcurrent.trans hnext).trans hcurrent').trans hnext'
  · exact (hcurrent.trans hnext).trans hcurrent'
  · exact hcurrent.trans hnext
  · exact hcurrent

lemma registers_scanSymbolGreaterThan (input : LexerInput) (split : Bool) (c : Cursor) :
    Registers c (c.scanSymbolGreaterThan input split) := by
  have hfirst := registers_readUTF8Char input c
  have hsecond : Registers c ((c.readUTF8Char input).readUTF8Char input) :=
    hfirst.trans (registers_readUTF8Char input _)
      ((readUTF8Char_le input c).1.trans (readUTF8Char_le input c).2)
  unfold scanSymbolGreaterThan
  dsimp only
  split_ifs
  · exact Registers.refl c
  · exact hsecond
  · exact ⟨hsecond.ascending, hsecond.later⟩
  · exact hfirst
  · exact ⟨hfirst.ascending, hfirst.later⟩

/-- The scanner of `>` takes more characters, or goes back after reading one. -/
lemma scanSymbolGreaterThan_cases (input : LexerInput) (c : Cursor) :
    c.pNext < input.text.length ∧ c.pNext < (c.scanSymbolGreaterThan input false).pNext ∨
      c.scanSymbolGreaterThan input false = (c.readUTF8Char input).back := by
  have hascii : ∀ ch : ℕ, ch = 0x3e ∨ ch = 0x3d → (c.readUTF8Char input).currentChar = ch →
      c.pNext < input.text.length ∧ c.pNext < (c.readUTF8Char input).pNext := by
    intro ch hch hread
    obtain ⟨hlt, -, heq⟩ := readUTF8Char_ascii input hread (by omega) (by omega) (by omega)
    rw [heq]
    exact ⟨hlt, Nat.lt_succ_self _⟩
  obtain ⟨hcurrent', hnext'⟩ := readUTF8Char_le input (c.readUTF8Char input)
  unfold scanSymbolGreaterThan
  rw [if_neg Bool.false_ne_true]
  dsimp only
  split_ifs with hgt hassign hassign
  · obtain ⟨hlt, hnext⟩ := hascii 0x3e (Or.inl rfl) hgt
    exact Or.inl ⟨hlt, hnext.trans_le (hcurrent'.trans hnext')⟩
  · obtain ⟨hlt, hnext⟩ := hascii 0x3e (Or.inl rfl) hgt
    exact Or.inl ⟨hlt, hnext.trans_le hcurrent'⟩
  · obtain ⟨hlt, hnext⟩ := hascii 0x3d (Or.inr rfl) hassign
    exact Or.inl ⟨hlt, hnext⟩
  · exact Or.inr rfl

lemma le_scanSymbolQuest (input : LexerInput) (split : Bool) (c : Cursor) :
    c.pNext ≤ (c.scanSymbolQuest input split).pNext := by
  obtain ⟨hcurrent, hnext⟩ := readUTF8Char_le input c
  unfold scanSymbolQuest
  split_ifs
  · exact le_rfl
  · exact hcurrent.trans hnext
  · exact le_rfl

lemma registers_scanSymbolQuest (input : LexerInput) (split : Bool) (c : Cursor) :
    Registers c (c.scanSymbolQuest input split) := by
  unfold scanSymbolQuest
  split_ifs
  · exact Registers.refl c
  · exact registers_readUTF8Char input c
  · exact Registers.refl c

/-- The scanner of `?` takes a second character, or none. -/
lemma scanSymbolQuest_cases (input : LexerInput) (c : Cursor) :
    c.pNext < input.text.length ∧ c.pNext < (c.scanSymbolQuest input false).pNext ∨
      c.scanSymbolQuest input false = c := by
  unfold scanSymbolQuest
  rw [if_neg Bool.false_ne_true]
  split_ifs with hquest
  · have hlt : c.pNext < input.text.length := by
      by_contra hend
      rw [getNextChar, if_pos (by omega)] at hquest
      exact absurd hquest (by decide)
    obtain ⟨hcurrent, hnext⟩ := Scanning.readUTF8Char_advances input c hlt
    exact Or.inl ⟨hlt, hcurrent.trans_lt hnext⟩
  · exact Or.inr rfl

end Cursor

/-! ## Tokens -/

/-- `LookupKeyword` on the values that begin with `>` or `?`. -/
def lookupSymbol (literal : List UInt8) : TokenKind :=
  if literal = [0x3e] then .GT
  else if literal = [0x3e, 0x3e] then .RSHIFT
  else if literal = [0x3e, 0x3e, 0x3d] then .RSHIFT_ASSIGN
  else if literal = [0x3e, 0x3d] then .GE
  else if literal = [0x3f] then .QUEST
  else if literal = [0x3f, 0x3f] then .COALESCING
  else .IDENTIFIER

/-- The bytes of a text from one offset up to another one. -/
def textBetween (text : List UInt8) (pStart pNext : ℕ) : List UInt8 :=
  (text.drop pStart).take (pNext - pStart)

def getSymbolToken (input : LexerInput) (pStart : ℕ) (pos : Position) (c : Cursor) :
    Token × Cursor :=
  let value := textBetween input.text pStart c.pNext
  let kind := lookupSymbol value
  if kind = .IDENTIFIER then
    (Token.make .ILLEGAL value pos (c.getPos input c.pNext), { c with success := false })
  else (Token.make kind value pos (c.getPos input c.pNext), c)

lemma getSymbolToken_kind_ne_end (input : LexerInput) (pStart : ℕ) (pos : Position) (c : Cursor) :
    (getSymbolToken input pStart pos c).1.kind ≠ .END := by
  unfold getSymbolToken lookupSymbol
  dsimp only
  split_ifs <;> exact TokenKind.noConfusion

lemma getSymbolToken_cursor (input : LexerInput) (pStart : ℕ) (pos : Position) (c : Cursor) :
    (getSymbolToken input pStart pos c).2.pNext = c.pNext ∧
      (getSymbolToken input pStart pos c).2.lineOffsetsFromBase = c.lineOffsetsFromBase := by
  unfold getSymbolToken
  dsimp only
  split_ifs <;> exact ⟨rfl, rfl⟩

/-- A scanner of tokens that keeps the lines ascending. -/
structure OtherScanner extends TokenScanner where
  ascending : ∀ input split pos c, Cursor.Ascending c.lineOffsetsFromBase →
    Cursor.Ascending (scan input split pos c).2.lineOffsetsFromBase

namespace OtherScanner

/-- Scanning a token from its first character on.  The tokens that do not begin with `>` or `?` are
scanned by another scanner, which does not read the flag. -/
def scanToken (other : OtherScanner) (input : LexerInput) (split : Bool) (pos : Position)
    (c : Cursor) : Token × Cursor :=
  if c.currentChar = 0x3e then
    getSymbolToken input c.pCurrent pos (c.scanSymbolGreaterThan input split)
  else if c.currentChar = 0x3f then
    getSymbolToken input c.pCurrent pos (c.scanSymbolQuest input split)
  else other.scan input false pos c

variable (other : OtherScanner)

/-- The scanner of all tokens. -/
def scanner : TokenScanner where
  scan := other.scanToken
  advances input split pos c h := by
    unfold scanToken
    split_ifs
    · rw [(getSymbolToken_cursor input _ pos _).1]
      exact h.trans_le (c.le_scanSymbolGreaterThan input split)
    · rw [(getSymbolToken_cursor input _ pos _).1]
      exact h.trans_le (c.le_scanSymbolQuest input split)
    · exact other.advances input false pos c h
  keepsLines input split pos c := by
    unfold scanToken
    split_ifs
    · obtain ⟨more, hlines, -⟩ := (c.registers_scanSymbolGreaterThan input split).later
      rw [(getSymbolToken_cursor input _ pos _).2, hlines]
      exact List.prefix_append _ _
    · obtain ⟨more, hlines, -⟩ := (c.registers_scanSymbolQuest input split).later
      rw [(getSymbolToken_cursor input _ pos _).2, hlines]
      exact List.prefix_append _ _
    · exact other.keepsLines input false pos c
  notEnd input split pos c := by
    unfold scanToken
    split_ifs
    · exact getSymbolToken_kind_ne_end input _ pos _
    · exact getSymbolToken_kind_ne_end input _ pos _
    · exact other.notEnd input false pos c

lemma scanToken_ascending {input : LexerInput} {split : Bool} {pos : Position} {c : Cursor}
    (h : Cursor.Ascending c.lineOffsetsFromBase) :
    Cursor.Ascending (other.scanToken input split pos c).2.lineOffsetsFromBase := by
  unfold scanToken
  split_ifs
  · rw [(getSymbolToken_cursor input _ pos _).2]
    exact (c.registers_scanSymbolGreaterThan input split).ascending h
  · rw [(getSymbolToken_cursor input _ pos _).2]
    exact (c.registers_scanSymbolQuest input split).ascending h
  · exact other.ascending input false pos c h

end OtherScanner

end Cangjie
