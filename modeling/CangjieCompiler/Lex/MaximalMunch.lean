import CangjieCompiler.Foundations.SpellingTable
import CangjieCompiler.Lex.ScannedLines
import CangjieCompiler.Lex.SymbolScanner
import Mathlib

/-!
# Symbols are scanned by maximal munch

The scanner of a symbol reads on as long as a character goes on with a symbol, and gives the last
character back.  The token that it makes is the longest spelling at its place, but for the spellings
of overflowing operators, which begin with `+&`, `-&`, `*&` and `**&` and are no tokens any more.

The symbol `!in` counts as a spelling only before a blank or the end of a line, and a dollar before an
identifier or a backquote is taken together with it.  The scanning of these is a parameter.
-/

namespace Cangjie

namespace Symbols

open Scanning SpellingTable

/-! ## Spellings -/

/-- The operators and the punctuation. -/
def symbolTable : List (List UInt8 × TokenKind) :=
  [(bytes ".", .DOT), (bytes ",", .COMMA), (bytes "(", .LPAREN), (bytes ")", .RPAREN),
    (bytes "[", .LSQUARE), (bytes "]", .RSQUARE), (bytes "\x7b", .LCURL), (bytes "\x7d", .RCURL),
    (bytes "**", .EXP), (bytes "*", .MUL), (bytes "%", .MOD), (bytes "/", .DIV), (bytes "+", .ADD),
    (bytes "-", .SUB), (bytes "++", .INCR), (bytes "--", .DECR), (bytes "&&", .AND),
    (bytes "||", .OR), (bytes "??", .COALESCING), (bytes "|>", .PIPELINE),
    (bytes "~>", .COMPOSITION), (bytes "!", .NOT), (bytes "&", .BITAND), (bytes "|", .BITOR),
    (bytes "^", .BITXOR), (bytes "~", .BITNOT), (bytes "<<", .LSHIFT), (bytes ">>", .RSHIFT),
    (bytes ":", .COLON), (bytes ";", .SEMI), (bytes "=", .ASSIGN), (bytes "+=", .ADD_ASSIGN),
    (bytes "-=", .SUB_ASSIGN), (bytes "*=", .MUL_ASSIGN), (bytes "**=", .EXP_ASSIGN),
    (bytes "/=", .DIV_ASSIGN), (bytes "%=", .MOD_ASSIGN), (bytes "&&=", .AND_ASSIGN),
    (bytes "||=", .OR_ASSIGN), (bytes "&=", .BITAND_ASSIGN), (bytes "|=", .BITOR_ASSIGN),
    (bytes "^=", .BITXOR_ASSIGN), (bytes "<<=", .LSHIFT_ASSIGN), (bytes ">>=", .RSHIFT_ASSIGN),
    (bytes "->", .ARROW), (bytes "<-", .BACKARROW), (bytes "=>", .DOUBLE_ARROW),
    (bytes "..", .RANGEOP), (bytes "..=", .CLOSEDRANGEOP), (bytes "...", .ELLIPSIS),
    (bytes "#", .HASH), (bytes "@", .AT), (bytes "?", .QUEST), (bytes "<", .LT), (bytes ">", .GT),
    (bytes "<=", .LE), (bytes ">=", .GE), (bytes "!=", .NOTEQ), (bytes "==", .EQUAL),
    (bytes "$", .DOLLAR), (bytes "!in", .NOT_IN), (bytes "<:", .UPPERBOUND), (bytes "@!", .AT_EXCL),
    (bytes "::", .DOUBLE_COLON)]

/-- The kind of a spelling that begins like a symbol. -/
def lookupKeyword (literal : List UInt8) : TokenKind :=
  ((symbolTable.find? fun e => e.1 = literal).map Prod.snd).getD .IDENTIFIER

/-- A symbol is spelled at an offset; the operator `!in` is only before a blank or a line end. -/
def Spelled (text : List UInt8) (pStart : ℕ) (spelling : List UInt8) : Prop :=
  spelling <+: text.drop pStart ∧
    (spelling = bytes "!in" → byteAt text (pStart + 3) ∈ [0x20, 0x0d, 0x0a])

/-- The longest symbol that is spelled at an offset. -/
structure IsLongest (text : List UInt8) (pStart : ℕ) (spelling : List UInt8) (kind : TokenKind) :
    Prop where
  listed : (spelling, kind) ∈ symbolTable
  spelled : Spelled text pStart spelling
  longest : ∀ e ∈ symbolTable, Spelled text pStart e.1 → e.1.length ≤ spelling.length

/-- The begins of the overflowing operators, which are no tokens. -/
def overflowing : List (List UInt8) := [bytes "+&", bytes "-&", bytes "*&", bytes "**&"]

/-! ## The scanner -/

/-- What is done with the character that was read: to go back before it, or to take it if it is a
given one, at the end of the symbol or before another one. -/
inductive Choice where
  | back
  | take (ch : UInt8) (other : Choice)
  | takeThen (ch : UInt8) (more other : Choice)

/-- Choosing by the current character. -/
def choose (input : LexerInput) : Choice → Cursor → Cursor
  | .back, c => c.back
  | .take ch other, c => if c.currentChar = ch.toNat then c else choose input other c
  | .takeThen ch more other, c =>
    if c.currentChar = ch.toNat then choose input more (c.readUTF8Char input)
    else choose input other c

/-- Reading a character and choosing by it. -/
def readAndChoose (choice : Choice) (input : LexerInput) (c : Cursor) : Cursor :=
  choose input choice (c.readUTF8Char input)

/-- What follows the begin of an overflowing operator. -/
def overflowAssign : Choice := .take 0x3d .back

def plusChoice : Choice := .take 0x2b (.takeThen 0x26 overflowAssign (.take 0x3d .back))

def scanSymbolPlus : LexerInput → Cursor → Cursor := readAndChoose plusChoice

def hyphenChoice : Choice :=
  .take 0x2d (.take 0x3d (.takeThen 0x26 overflowAssign (.take 0x3e .back)))

def scanSymbolHyphen : LexerInput → Cursor → Cursor := readAndChoose hyphenChoice

def asteriskChoice : Choice :=
  .takeThen 0x2a (.takeThen 0x26 overflowAssign (.take 0x3d .back))
    (.take 0x3d (.takeThen 0x26 overflowAssign .back))

def scanSymbolAsterisk : LexerInput → Cursor → Cursor := readAndChoose asteriskChoice

def ampersandChoice : Choice := .takeThen 0x26 (.take 0x3d .back) (.take 0x3d .back)

def scanSymbolAmpersand : LexerInput → Cursor → Cursor := readAndChoose ampersandChoice

def equalAfter : Choice := .take 0x3d .back

def scanSymbolExclamation (input : LexerInput) (c : Cursor) : Cursor :=
  if c.getNextChar input 0 = 0x69 ∧ c.getNextChar input 1 = 0x6e ∧
      c.getNextChar input 2 ∈ [0x20, 0x0d, 0x0a] then
    (c.readUTF8Char input).readUTF8Char input
  else readAndChoose equalAfter input c

def lessThanChoice : Choice :=
  .takeThen 0x3c (.take 0x3d .back) (.take 0x3d (.take 0x3a (.take 0x2d .back)))

def scanSymbolLessThan : LexerInput → Cursor → Cursor := readAndChoose lessThanChoice

def atChoice : Choice := .take 0x21 .back

def scanSymbolAt : LexerInput → Cursor → Cursor := readAndChoose atChoice

def equalChoice : Choice := .take 0x3d (.take 0x3e .back)

def scanSymbolEqual : LexerInput → Cursor → Cursor := readAndChoose equalChoice

def scanSymbolPercentSign : LexerInput → Cursor → Cursor := readAndChoose equalAfter

def verticalBarChoice : Choice :=
  .takeThen 0x7c (.take 0x3d .back) (.take 0x3d (.take 0x3e .back))

def scanSymbolVerticalBar : LexerInput → Cursor → Cursor := readAndChoose verticalBarChoice

def tildeChoice : Choice := .take 0x3e .back

def scanSymbolTilde : LexerInput → Cursor → Cursor := readAndChoose tildeChoice

def scanSymbolCaret (input : LexerInput) (c : Cursor) : Cursor :=
  if c.getNextChar input 0 = 0x3d then c.readUTF8Char input else c

def colonChoice : Choice := .take 0x3a .back

def scanSymbolColon : LexerInput → Cursor → Cursor := readAndChoose colonChoice

/-- The scanner of a symbol by the lowest byte of its first character. -/
def scanSymbolStrategy (input : LexerInput) (splitAmbiguousToken : Bool) (c : Cursor) : Cursor :=
  let ch := c.currentChar % 256
  if ch = 0x7e then scanSymbolTilde input c
  else if ch = 0x2b then scanSymbolPlus input c
  else if ch = 0x2d then scanSymbolHyphen input c
  else if ch = 0x2a then scanSymbolAsterisk input c
  else if ch = 0x26 then scanSymbolAmpersand input c
  else if ch = 0x5e then scanSymbolCaret input c
  else if ch = 0x21 then scanSymbolExclamation input c
  else if ch = 0x3c then scanSymbolLessThan input c
  else if ch = 0x3e then c.scanSymbolGreaterThan input splitAmbiguousToken
  else if ch = 0x3d then scanSymbolEqual input c
  else if ch = 0x25 then scanSymbolPercentSign input c
  else if ch = 0x7c then scanSymbolVerticalBar input c
  else if ch = 0x3f then c.scanSymbolQuest input splitAmbiguousToken
  else if ch = 0x40 then scanSymbolAt input c
  else if ch = 0x3a then scanSymbolColon input c
  else c

/-- The token of a symbol. -/
def getSymbolToken (input : LexerInput) (pStart : ℕ) (pos : Position) (c : Cursor) :
    Token × Cursor :=
  let value := textBetween input.text pStart c.pNext
  let kind := lookupKeyword value
  if kind = .IDENTIFIER then
    (Token.make .ILLEGAL value pos (c.getPos input c.pNext), { c with success := false })
  else (Token.make kind value pos (c.getPos input c.pNext), c)

/-- The scanning of identifiers, which begin with certain characters: the value of the one at an
offset, and the cursor after it. -/
structure IdentifierScanner where
  isCJXIDStart : ℤ → Bool
  scanIdentifier : LexerInput → ℕ → Cursor → List UInt8 × Cursor

def scanSymbol (d : IdentifierScanner) (input : LexerInput) (splitAmbiguousToken : Bool)
    (pStart : ℕ) (pos : Position) (c : Cursor) : Token × Cursor :=
  if c.currentChar = 0x24 then
    let c := c.readUTF8Char input
    if d.isCJXIDStart c.currentChar ∨ c.currentChar = 0x60 then
      let (value, c) := d.scanIdentifier input (pStart + 1) c
      (Token.make .DOLLAR_IDENTIFIER (0x24 :: value) pos (c.getPos input c.pNext), c)
    else getSymbolToken input pStart pos c.back
  else getSymbolToken input pStart pos (scanSymbolStrategy input splitAmbiguousToken c)

/-- Whether the first character of a token begins a symbol. -/
def beginsSymbol (d : IdentifierScanner) (input : LexerInput) (c : Cursor) : Bool :=
  let isOneOf (chars : List ℤ) : Bool := decide (c.currentChar ∈ chars)
  let isCharOrString :=
    (isOneOf [0x62] && c.getNextChar input 0 = 0x27) ||
      (isOneOf [0x72] && (c.getNextChar input 0 = 0x27 || c.getNextChar input 0 = 0x22)) ||
      isOneOf [0x23, 0x27, 0x22]
  let isDigit := decide (0x30 ≤ c.currentChar ∧ c.currentChar ≤ 0x39)
  let isMacroEscape := decide (c.getNextChar input 0 ∈ [0x24, 0x40, 0x28, 0x29, 0x5b, 0x5d])
  !(isOneOf [-1, 0x0a] || getLineTerminatorLength input.text c.pCurrent = 2 || isCharOrString ||
    (isOneOf [0x4a] && c.getNextChar input 0 = 0x22) || d.isCJXIDStart c.currentChar ||
    isOneOf [0x60] || isDigit || isOneOf [0x2e, 0x2f] || (isOneOf [0x5c] && isMacroEscape))

/-! ## Characters of symbols -/

/-- A character that reads as one byte and ends no line. -/
def IsSymbolChar (ch : UInt8) : Prop := 0x20 < ch.toNat ∧ ch.toNat < 0x80

instance (ch : UInt8) : Decidable (IsSymbolChar ch) := inferInstanceAs (Decidable (_ ∧ _))

variable {input : LexerInput} {pStart : ℕ} {c : Cursor}

/-- Reading a byte that is a character. -/
lemma readUTF8Char_of_ascii (hlt : c.pNext < input.text.length)
    (hascii : byteAt input.text c.pNext < 0x80) :
    (c.readUTF8Char input).currentChar = byteAt input.text c.pNext ∧
      (c.readUTF8Char input).pNext =
        c.pNext + (if getLineTerminatorLength input.text c.pNext = 2 then 2 else 1) := by
  obtain ⟨ch, hch⟩ := exists_char (v := byteAt input.text c.pNext) (by unfold Nat.isValidChar; omega)
  have hstarts : StartsWith input.text c.pNext ch :=
    startsWith_iff.mpr (Or.inl ⟨by omega, hlt, hch.symm⟩)
  obtain ⟨hcurrent, hnext, -⟩ := c.readUTF8Char_of_startsWith input hstarts
  have hone : (String.utf8EncodeChar ch).length = 1 := by
    rw [length_utf8EncodeChar, if_pos (by omega)]
  rw [Cursor.offsetAfter, hone] at hnext
  refine ⟨by rw [hcurrent, hch], ?_⟩
  rw [hnext]
  split_ifs <;> rfl

/-- Reading a byte that is a character of a symbol. -/
lemma readUTF8Char_of_byteAt {ch : UInt8} (hch : IsSymbolChar ch)
    (hbyte : byteAt input.text c.pNext = ch.toNat) :
    c.pNext < input.text.length ∧ (c.readUTF8Char input).currentChar = ch.toNat ∧
      (c.readUTF8Char input).pNext = c.pNext + 1 := by
  obtain ⟨hlow, hhigh⟩ := hch
  have hlt : c.pNext < input.text.length := by
    by_contra hge
    rw [byteAt, List.getD_eq_default _ _ (Nat.not_lt.mp hge)] at hbyte
    rw [← hbyte] at hlow
    exact absurd hlow (by decide)
  obtain ⟨hcurrent, hnext⟩ := readUTF8Char_of_ascii hlt (hbyte ▸ hhigh)
  have hcrlf : getLineTerminatorLength input.text c.pNext ≠ 2 := by
    rw [Ne, Cursor.getLineTerminatorLength_eq_two_iff]
    omega
  rw [if_neg hcrlf] at hnext
  exact ⟨hlt, by rw [hcurrent, hbyte], hnext⟩

/-- The character that was read is one of a symbol exactly when the byte is. -/
lemma currentChar_readUTF8Char_iff {ch : UInt8} (hch : IsSymbolChar ch) :
    (c.readUTF8Char input).currentChar = ch.toNat ↔ byteAt input.text c.pNext = ch.toNat := by
  refine ⟨fun h => ?_, fun h => (readUTF8Char_of_byteAt hch h).2.1⟩
  obtain ⟨hlow, hhigh⟩ := hch
  exact (c.readUTF8Char_ascii input h hhigh (by omega) (by omega)).2.1

/-- In a text that encodes characters, reading and going back changes nothing. -/
lemma pCurrent_readUTF8Char (htext : IsEncoded input.text) :
    (c.readUTF8Char input).pCurrent = c.pNext := by
  rcases Nat.lt_or_ge c.pNext input.text.length with hinside | hend
  · by_cases hlead : byteAt input.text c.pNext < BYTE_2_FLAG
    · unfold Cursor.readUTF8Char
      dsimp only
      rw [if_neg (Nat.not_le.mpr hinside), if_pos hlead,
        (tryRegisterLineOffset_pNext input _).1]
    · obtain ⟨ch, hstarts⟩ := htext.exists_startsWith (Nat.not_lt.mp hlead)
      unfold Cursor.readUTF8Char
      dsimp only
      rw [if_neg (Nat.not_le.mpr hinside), if_neg hlead,
        readUTF8CharFromMultiBytes_of_startsWith hstarts (Nat.not_lt.mp hlead),
        Cursor.skipIllegal_of_ne]
      exact ne_of_gt (lt_of_lt_of_le (by decide) (Int.natCast_nonneg _))
  · rw [readUTF8Char_of_end input c hend]

/-! ## Choices -/

/-- The words of a table. -/
def spellings : List (List UInt8) := symbolTable.map Prod.fst

/-- Whether the choices after a word follow the table: they go on with all characters that extend
the word, and give back the others.  The characters `failed` were tried before. -/
def follows : List UInt8 → List UInt8 → Choice → Bool
  | word, failed, .back =>
    decide (word ∈ spellings) && (extensions spellings word).all fun ch => decide (ch ∈ failed)
  | word, failed, .take ch other =>
    decide (IsSymbolChar ch) && decide (word ++ [ch] ∈ spellings) &&
      (extensions spellings (word ++ [ch])).isEmpty && follows word (ch :: failed) other
  | word, failed, .takeThen ch more other =>
    decide (IsSymbolChar ch) &&
      (decide (word ++ [ch] ∈ overflowing) || follows (word ++ [ch]) [] more) &&
      follows word (ch :: failed) other

/-- A word at an offset that is a spelling and that the text does not extend. -/
structure Takes (text : List UInt8) (pStart pNext : ℕ) (word : List UInt8) : Prop where
  listed : word ∈ spellings
  begins : word <+: text.drop pStart
  ends : pNext = pStart + word.length
  notExtended : ∀ ch ∈ extensions spellings word, byteAt text pNext ≠ ch.toNat

/-- The text goes on with a character after a word. -/
lemma append_prefix {text word : List UInt8} {pNext : ℕ} (hword : word <+: text.drop pStart)
    (hend : pNext = pStart + word.length) {ch : UInt8} (hlt : pNext < text.length)
    (hbyte : byteAt text pNext = ch.toNat) : word ++ [ch] <+: text.drop pStart := by
  obtain ⟨rest, hrest⟩ := hword
  have hdrop : rest = text.drop pNext := by
    rw [hend, ← List.drop_drop, ← hrest, List.drop_left]
  have hch : text[pNext] = ch := by
    rw [byteAt, List.getD_eq_getElem text 0 hlt] at hbyte
    exact UInt8.toNat_inj.mp hbyte
  refine ⟨text.drop (pNext + 1), ?_⟩
  rw [← hrest, hdrop, List.drop_eq_getElem_cons hlt, hch, List.append_assoc, List.singleton_append]

/-- Choices that follow the table take the longest spelling. -/
lemma takes_choose (htext : IsEncoded input.text)
    (hoverflow : ∀ word ∈ overflowing, ¬word <+: input.text.drop pStart) {word failed : List UInt8}
    {choice : Choice} (hfollows : follows word failed choice = true)
    (hword : word <+: input.text.drop pStart) (hend : c.pNext = pStart + word.length)
    (hfailed : ∀ ch ∈ failed, byteAt input.text c.pNext ≠ ch.toNat) :
    ∃ word, Takes input.text pStart (choose input choice (c.readUTF8Char input)).pNext word := by
  induction choice generalizing word failed c with
  | back =>
    rw [follows, Bool.and_eq_true, decide_eq_true_eq, List.all_eq_true] at hfollows
    have hnext : (choose input .back (c.readUTF8Char input)).pNext = c.pNext :=
      pCurrent_readUTF8Char htext
    refine ⟨word, hfollows.1, hword, hnext.trans hend, fun ch hch => ?_⟩
    rw [hnext]
    exact hfailed ch (of_decide_eq_true (hfollows.2 ch hch))
  | take ch other ih =>
    simp only [follows, Bool.and_eq_true, decide_eq_true_eq, List.isEmpty_iff] at hfollows
    obtain ⟨⟨⟨hch, hlisted⟩, hextensions⟩, hother⟩ := hfollows
    rw [choose]
    by_cases hbyte : byteAt input.text c.pNext = ch.toNat
    · obtain ⟨hlt, hcurrent, hnext⟩ := readUTF8Char_of_byteAt hch hbyte
      rw [if_pos hcurrent, hnext]
      refine ⟨word ++ [ch], hlisted, append_prefix hword hend hlt hbyte, ?_, ?_⟩
      · rw [hend, List.length_append, List.length_singleton, Nat.add_assoc]
      · rw [hextensions]
        exact fun _ h => absurd h List.not_mem_nil
    · rw [if_neg fun h => hbyte ((currentChar_readUTF8Char_iff hch).mp h)]
      refine ih hother hword hend fun ch' hch' => ?_
      rcases List.mem_cons.mp hch' with rfl | hch'
      · exact hbyte
      · exact hfailed ch' hch'
  | takeThen ch more other ihmore ih =>
    simp only [follows, Bool.and_eq_true, Bool.or_eq_true, decide_eq_true_eq] at hfollows
    obtain ⟨⟨hch, hmore⟩, hother⟩ := hfollows
    rw [choose]
    by_cases hbyte : byteAt input.text c.pNext = ch.toNat
    · obtain ⟨hlt, hcurrent, hnext⟩ := readUTF8Char_of_byteAt hch hbyte
      have hlonger := append_prefix hword hend hlt hbyte
      rw [if_pos hcurrent]
      rcases hmore with hover | hmore
      · exact absurd hlonger (hoverflow _ hover)
      · refine ihmore hmore hlonger ?_ fun _ h => absurd h List.not_mem_nil
        rw [hnext, hend, List.length_append, List.length_singleton, Nat.add_assoc]
    · rw [if_neg fun h => hbyte ((currentChar_readUTF8Char_iff hch).mp h)]
      refine ih hother hword hend fun ch' hch' => ?_
      rcases List.mem_cons.mp hch' with rfl | hch'
      · exact hbyte
      · exact hfailed ch' hch'

/-! ## Tokens -/

/-- The token of a symbol is the longest spelling, or illegal when there is none. -/
def Munches (text : List UInt8) (pStart : ℕ) (t : Token) (pNext : ℕ) : Prop :=
  t.kind = .ILLEGAL ∧ (∀ e ∈ symbolTable, ¬Spelled text pStart e.1) ∨
    IsLongest text pStart t.value t.kind ∧ pNext = pStart + t.value.length

lemma lookupKeyword_mem {word : List UInt8} (h : word ∈ spellings) :
    (word, lookupKeyword word) ∈ symbolTable := by
  obtain ⟨e, he, rfl⟩ := List.mem_map.mp h
  have hfound : (symbolTable.find? fun e' => e'.1 = e.1).isSome :=
    List.find?_isSome.mpr ⟨e, he, decide_eq_true rfl⟩
  obtain ⟨found, hfind⟩ := Option.isSome_iff_exists.mp hfound
  have hword : found.1 = e.1 := by
    simpa using List.find?_some hfind
  rw [lookupKeyword, hfind, Option.map_some, Option.getD_some, ← hword]
  exact List.mem_of_find?_eq_some hfind

/-- The kinds in the table are kinds of symbols. -/
lemma kind_ne_identifier {e : List UInt8 × TokenKind} (he : e ∈ symbolTable) :
    e.2 ≠ .IDENTIFIER := by
  have hall : symbolTable.all (fun e => decide (e.2 ≠ .IDENTIFIER)) = true := by decide
  exact of_decide_eq_true (List.all_eq_true.mp hall e he)

lemma lookupKeyword_eq_identifier_iff {word : List UInt8} :
    lookupKeyword word = .IDENTIFIER ↔ word ∉ spellings := by
  constructor
  · intro h hmem
    exact kind_ne_identifier (lookupKeyword_mem hmem) h
  · intro h
    have hnone : (symbolTable.find? fun e => e.1 = word) = none := by
      refine List.find?_eq_none.mpr fun e he heq => h ?_
      exact List.mem_map.mpr ⟨e, he, of_decide_eq_true heq⟩
    rw [lookupKeyword, hnone]
    rfl

/-- The text up to the end of a word. -/
lemma textBetween_eq {text word : List UInt8} {pNext : ℕ} (hword : word <+: text.drop pStart)
    (hend : pNext = pStart + word.length) : textBetween text pStart pNext = word := by
  rw [textBetween, hend, Nat.add_sub_cancel_left]
  exact (List.prefix_iff_eq_take.mp hword).symm

/-- A word that is taken is the longest one. -/
lemma munches_of_takes (pos : Position) (word : List UInt8)
    (h : Takes input.text pStart c.pNext word)
    (hin : word = bytes "!in" → byteAt input.text (pStart + 3) ∈ [0x20, 0x0d, 0x0a]) :
    Munches input.text pStart (getSymbolToken input pStart pos c).1
      (getSymbolToken input pStart pos c).2.pNext := by
  have hkind : lookupKeyword word ≠ .IDENTIFIER := fun hkind =>
    lookupKeyword_eq_identifier_iff.mp hkind h.listed
  have hvalue := textBetween_eq h.begins h.ends
  rw [getSymbolToken, hvalue, if_neg hkind]
  refine Or.inr ⟨⟨lookupKeyword_mem h.listed, ⟨h.begins, hin⟩, fun e he hspelled => ?_⟩, h.ends⟩
  refine length_le_of_extensions h.begins (fun ch hch hnext => ?_) (List.mem_map_of_mem he)
    hspelled.1
  rw [List.getElem?_drop, ← h.ends] at hnext
  refine h.notExtended ch hch ?_
  rw [byteAt, List.getD_eq_getElem?_getD, hnext, Option.getD_some]

/-- The first byte of a spelling is an ASCII character. -/
lemma spelling_cons {e : List UInt8 × TokenKind} (he : e ∈ symbolTable) :
    ∃ ch rest, e.1 = ch :: rest ∧ ch.toNat < 0x80 := by
  have hall : symbolTable.all (fun e => e.1.head?.any fun ch => decide (ch.toNat < 0x80)) = true := by
    decide
  have hhead := List.all_eq_true.mp hall e he
  cases hword : e.1 with
  | nil =>
    rw [hword] at hhead
    exact absurd hhead Bool.false_ne_true
  | cons ch rest =>
    rw [hword] at hhead
    exact ⟨ch, rest, rfl, of_decide_eq_true hhead⟩

/-- No symbol begins with a byte of another character. -/
lemma munches_of_not_ascii (pos : Position) (hbyte : 0x80 ≤ byteAt input.text pStart) :
    Munches input.text pStart (getSymbolToken input pStart pos c).1
      (getSymbolToken input pStart pos c).2.pNext := by
  have hnone : ∀ e ∈ symbolTable, ¬e.1 <+: input.text.drop pStart := by
    intro e he hword
    obtain ⟨ch, rest, hcons, hch⟩ := spelling_cons he
    rw [hcons, cons_prefix_drop_iff] at hword
    omega
  have hkind : lookupKeyword (textBetween input.text pStart c.pNext) = .IDENTIFIER := by
    rw [lookupKeyword_eq_identifier_iff]
    intro hmem
    obtain ⟨e, he, hword⟩ := List.mem_map.mp hmem
    exact hnone e he (by rw [hword]; exact List.take_prefix _ _)
  rw [getSymbolToken, hkind, if_pos rfl]
  exact Or.inl ⟨rfl, fun e he hspelled => hnone e he hspelled.1⟩

lemma ne_notIn {word : List UInt8} (h : word.length ≠ 3) : word ≠ bytes "!in" := by
  rintro rfl
  exact h (by decide)

/-- A character that begins no longer symbol. -/
lemma munches_of_single (pos : Position) (ch : UInt8) (hlt : pStart < input.text.length)
    (hbyte : byteAt input.text pStart = ch.toNat) (hnext : c.pNext = pStart + 1)
    (hsingle : ∀ e ∈ symbolTable, Spelled input.text pStart e.1 → e.1 = [ch]) :
    Munches input.text pStart (getSymbolToken input pStart pos c).1
      (getSymbolToken input pStart pos c).2.pNext := by
  have hword : [ch] <+: input.text.drop pStart :=
    cons_prefix_drop_iff.mpr ⟨hlt, hbyte, List.nil_prefix⟩
  have hvalue : textBetween input.text pStart c.pNext = [ch] := textBetween_eq hword hnext
  by_cases hlisted : [ch] ∈ spellings
  · have hkind : lookupKeyword [ch] ≠ .IDENTIFIER := fun hkind =>
      lookupKeyword_eq_identifier_iff.mp hkind hlisted
    rw [getSymbolToken, hvalue, if_neg hkind]
    refine Or.inr ⟨⟨lookupKeyword_mem hlisted, ⟨hword, fun hin => ?_⟩, fun e he hspelled => ?_⟩,
      hnext⟩
    · exact absurd hin (ne_notIn (Nat.succ_ne_succ_iff.mpr (Nat.succ_ne_zero 1).symm))
    · change e.1.length ≤ [ch].length
      rw [hsingle e he hspelled]
  · have hkind := lookupKeyword_eq_identifier_iff.mpr hlisted
    rw [getSymbolToken, hvalue, hkind, if_pos rfl]
    refine Or.inl ⟨rfl, fun e he hspelled => hlisted ?_⟩
    rw [← hsingle e he hspelled]
    exact List.mem_map_of_mem he

lemma getNextChar_eq (n : ℕ) : c.getNextChar input n = byteAt input.text (c.pNext + n) := by
  rw [Cursor.getNextChar]
  split_ifs with hend
  · rw [byteAt, List.getD_eq_default _ _ hend]
    rfl
  · rfl

/-- The characters that begin symbols of several characters, and those that are scanned apart. -/
def longBegins : List UInt8 := bytes "~+-*&^!<>=%|?@:./"

/-- A symbol that begins otherwise is its first character. -/
lemma eq_singleton_of_spelled {ch : UInt8} (hch : ch ∉ longBegins)
    (hbyte : byteAt input.text pStart = ch.toNat) {e : List UInt8 × TokenKind}
    (he : e ∈ symbolTable) (hspelled : Spelled input.text pStart e.1) : e.1 = [ch] := by
  have hall : symbolTable.all (fun e => decide (e.1.length = 1) ||
      e.1.head?.any fun ch => decide (ch ∈ longBegins)) = true := by decide
  obtain ⟨first, rest, hcons, -⟩ := spelling_cons he
  have hword := hspelled.1
  rw [hcons, cons_prefix_drop_iff] at hword
  obtain rfl : first = ch := UInt8.toNat_inj.mp (hword.2.1.symm.trans hbyte)
  have hentry := List.all_eq_true.mp hall e he
  rw [hcons] at hentry ⊢
  rcases Bool.or_eq_true_iff.mp hentry with hlength | hhead
  · have hrest : rest = [] := List.length_eq_zero_iff.mp (Nat.succ_inj.mp (of_decide_eq_true hlength))
    rw [hrest]
  · exact absurd (of_decide_eq_true hhead) hch

/-! ## The scanners of symbols -/

/-- A scanner whose choices follow the table. -/
lemma munches_of_follows (htext : IsEncoded input.text)
    (hoverflow : ∀ word ∈ overflowing, ¬word <+: input.text.drop pStart) (pos : Position)
    {ch : UInt8} {choice : Choice} (hlt : pStart < input.text.length)
    (hbyte : byteAt input.text pStart = ch.toNat) (hnext : c.pNext = pStart + 1)
    (hfollows : follows [ch] [] choice = true) (hch : ch ≠ 0x21) :
    Munches input.text pStart (getSymbolToken input pStart pos (readAndChoose choice input c)).1
      (getSymbolToken input pStart pos (readAndChoose choice input c)).2.pNext := by
  have hword : [ch] <+: input.text.drop pStart :=
    cons_prefix_drop_iff.mpr ⟨hlt, hbyte, List.nil_prefix⟩
  obtain ⟨word, htakes⟩ := takes_choose htext hoverflow hfollows hword hnext
    fun _ h => absurd h List.not_mem_nil
  refine munches_of_takes pos word htakes fun hin => ?_
  -- The operator `!in` begins with another character.
  have hbegin := htakes.begins
  rw [hin] at hbegin
  have hfirst : byteAt input.text pStart = (0x21 : UInt8).toNat :=
    (cons_prefix_drop_iff.mp hbegin).2.1
  exact absurd (UInt8.toNat_inj.mp (hbyte.symm.trans hfirst)) hch

/-- A scanner that takes one more character, if it is a given one. -/
lemma munches_of_next (pos : Position) {ch : UInt8} (next : UInt8) (hlt : pStart < input.text.length)
    (hbyte : byteAt input.text pStart = ch.toNat) (hnext : c.pNext = pStart + 1)
    (hnextChar : IsSymbolChar next) (hlisted : [ch] ∈ spellings) (hlisted' : [ch, next] ∈ spellings)
    (hext : extensions spellings [ch] = [next]) (hext' : extensions spellings [ch, next] = []) :
    Munches input.text pStart
      (getSymbolToken input pStart pos
        (if c.getNextChar input 0 = next.toNat then c.readUTF8Char input else c)).1
      (getSymbolToken input pStart pos
        (if c.getNextChar input 0 = next.toNat then c.readUTF8Char input else c)).2.pNext := by
  have hword : [ch] <+: input.text.drop pStart :=
    cons_prefix_drop_iff.mpr ⟨hlt, hbyte, List.nil_prefix⟩
  rw [getNextChar_eq, Nat.add_zero]
  split_ifs with hbyte'
  · obtain ⟨hlt', -, hnext'⟩ := readUTF8Char_of_byteAt hnextChar hbyte'
    refine munches_of_takes pos [ch, next] ⟨hlisted', append_prefix hword hnext hlt' hbyte',
      by rw [hnext', hnext]; rfl, ?_⟩ fun hin => absurd hin (ne_notIn (Nat.succ_ne_self 2).symm)
    rw [hext']
    exact fun _ h => absurd h List.not_mem_nil
  · refine munches_of_takes pos [ch] ⟨hlisted, hword, hnext, ?_⟩
      fun hin => absurd hin (ne_notIn (Nat.succ_ne_succ_iff.mpr (Nat.succ_ne_zero 1).symm))
    rw [hext]
    intro ch' hch'
    rw [List.mem_singleton.mp hch']
    exact hbyte'

/-- The scanner of `!`. -/
lemma munches_exclamation (htext : IsEncoded input.text) (pos : Position)
    (hlt : pStart < input.text.length) (hbyte : byteAt input.text pStart = 0x21)
    (hnext : c.pNext = pStart + 1) :
    Munches input.text pStart
      (getSymbolToken input pStart pos (scanSymbolExclamation input c)).1
      (getSymbolToken input pStart pos (scanSymbolExclamation input c)).2.pNext := by
  have hword : [0x21] <+: input.text.drop pStart :=
    cons_prefix_drop_iff.mpr ⟨hlt, hbyte, List.nil_prefix⟩
  rw [scanSymbolExclamation, getNextChar_eq, getNextChar_eq, getNextChar_eq, Nat.add_zero]
  split_ifs with hin
  · obtain ⟨hi, hn, hblank⟩ := hin
    obtain ⟨hlti, -, hnexti⟩ := readUTF8Char_of_byteAt (show IsSymbolChar 0x69 by decide) hi
    have hn' : byteAt input.text (c.readUTF8Char input).pNext = (0x6e : UInt8).toNat := by
      rw [hnexti]
      exact hn
    obtain ⟨hltn, -, hnextn⟩ := readUTF8Char_of_byteAt (show IsSymbolChar 0x6e by decide) hn'
    have hwordi : [0x21] ++ [0x69] <+: input.text.drop pStart := append_prefix hword hnext hlti hi
    have hwordn := append_prefix hwordi (by rw [hnexti, hnext]; rfl) hltn hn'
    refine munches_of_takes pos (bytes "!in") ⟨by decide, hwordn,
      by rw [hnextn, hnexti, hnext]; rfl, ?_⟩ fun _ => ?_
    · have hext : extensions spellings (bytes "!in") = [] := by decide
      rw [hext]
      exact fun _ h => absurd h List.not_mem_nil
    · rw [hnext, Nat.add_assoc] at hblank
      exact hblank
  · rw [readAndChoose, equalAfter, choose]
    by_cases hassign : byteAt input.text c.pNext = (0x3d : UInt8).toNat
    · obtain ⟨hlt', hcurrent, hnext'⟩ := readUTF8Char_of_byteAt (by decide) hassign
      rw [if_pos hcurrent]
      refine munches_of_takes pos (bytes "!=") ⟨by decide,
        append_prefix hword hnext hlt' hassign, by rw [hnext', hnext]; rfl, ?_⟩
        fun hin => absurd hin (by decide)
      have hext : extensions spellings (bytes "!=") = [] := by decide
      rw [hext]
      exact fun _ h => absurd h List.not_mem_nil
    · rw [if_neg fun h => hassign ((currentChar_readUTF8Char_iff (by decide)).mp h), choose]
      have hback : ((c.readUTF8Char input).back).pNext = pStart + 1 :=
        (pCurrent_readUTF8Char htext).trans hnext
      refine munches_of_single pos 0x21 hlt hbyte hback fun e he hspelled => ?_
      have hall : symbolTable.all (fun e => !decide (e.1.head? = some 0x21) ||
          decide (e.1 ∈ [bytes "!", bytes "!=", bytes "!in"])) = true := by decide
      obtain ⟨first, rest, hcons, -⟩ := spelling_cons he
      have hbegin := hspelled.1
      rw [hcons, cons_prefix_drop_iff] at hbegin
      obtain rfl : first = 0x21 := UInt8.toNat_inj.mp (hbegin.2.1.symm.trans hbyte)
      have hentry := List.all_eq_true.mp hall e he
      rw [hcons, List.head?_cons, decide_eq_true rfl, Bool.not_true, Bool.false_or,
        decide_eq_true_eq, ← hcons] at hentry
      simp only [List.mem_cons, List.not_mem_nil, or_false] at hentry
      rcases hentry with hone | hassign' | hin'
      · exact hone
      · have hwords : bytes "!=" = [0x21, 0x3d] := rfl
        have hbegins := hspelled.1
        rw [hassign', hwords, cons_prefix_drop_iff, cons_prefix_drop_iff, ← hnext] at hbegins
        exact absurd hbegins.2.2.2.1 hassign
      · have hwords : bytes "!in" = [0x21, 0x69, 0x6e] := rfl
        have hbegins := hspelled.1
        rw [hin', hwords, cons_prefix_drop_iff, cons_prefix_drop_iff, cons_prefix_drop_iff,
          ← hnext] at hbegins
        obtain ⟨-, -, -, hi, -, hn, -⟩ := hbegins
        refine absurd ⟨hi, hn, ?_⟩ hin
        have hblank := hspelled.2 hin'
        rwa [← Nat.add_assoc pStart 1 2, ← hnext] at hblank

/-- The scanner of `>`, when symbols are not split. -/
def greaterThanChoice : Choice := .takeThen 0x3e (.take 0x3d .back) (.take 0x3d .back)

lemma scanSymbolGreaterThan_eq :
    c.scanSymbolGreaterThan input false = readAndChoose greaterThanChoice input c := by
  unfold Cursor.scanSymbolGreaterThan readAndChoose greaterThanChoice choose choose choose
  rfl

/-! Each of the scanners follows the table. -/

lemma follows_tilde : follows [0x7e] [] tildeChoice = true := by decide

lemma follows_plus : follows [0x2b] [] plusChoice = true := by decide

lemma follows_hyphen : follows [0x2d] [] hyphenChoice = true := by decide

lemma follows_asterisk : follows [0x2a] [] asteriskChoice = true := by decide

lemma follows_ampersand : follows [0x26] [] ampersandChoice = true := by decide

lemma follows_lessThan : follows [0x3c] [] lessThanChoice = true := by decide

lemma follows_greaterThan : follows [0x3e] [] greaterThanChoice = true := by decide

lemma follows_equal : follows [0x3d] [] equalChoice = true := by decide

lemma follows_percentSign : follows [0x25] [] equalAfter = true := by decide

lemma follows_verticalBar : follows [0x7c] [] verticalBarChoice = true := by decide

lemma follows_at : follows [0x40] [] atChoice = true := by decide

lemma follows_colon : follows [0x3a] [] colonChoice = true := by decide

/-- The token of a symbol by the scanner of its first character. -/
lemma munches_strategy (htext : IsEncoded input.text)
    (hoverflow : ∀ word ∈ overflowing, ¬word <+: input.text.drop pStart) (pos : Position)
    {ch : UInt8} (hlt : pStart < input.text.length) (hbyte : byteAt input.text pStart = ch.toNat)
    (hascii : ch.toNat < 0x80) (hcurrent : c.currentChar = ch.toNat) (hnext : c.pNext = pStart + 1)
    (hdot : ch ≠ 0x2e) (hdiv : ch ≠ 0x2f) :
    Munches input.text pStart
      (getSymbolToken input pStart pos (scanSymbolStrategy input false c)).1
      (getSymbolToken input pStart pos (scanSymbolStrategy input false c)).2.pNext := by
  have hchar {n : UInt8} (h : c.currentChar % 256 = n.toNat) : ch = n := by
    refine UInt8.toNat_inj.mp ?_
    have hn := n.toNat_lt
    omega
  have hfollows (n : UInt8) (choice : Choice) (h : c.currentChar % 256 = n.toNat)
      (hchoice : follows [n] [] choice = true) (hne : n ≠ 0x21) :=
    munches_of_follows htext hoverflow pos (c := c) hlt (hchar h ▸ hbyte) hnext hchoice hne
  unfold scanSymbolStrategy
  dsimp only
  by_cases h1 : c.currentChar % 256 = 0x7e
  · rw [if_pos h1]
    exact hfollows 0x7e tildeChoice h1 follows_tilde (by decide)
  rw [if_neg h1]
  by_cases h2 : c.currentChar % 256 = 0x2b
  · rw [if_pos h2]
    exact hfollows 0x2b plusChoice h2 follows_plus (by decide)
  rw [if_neg h2]
  by_cases h3 : c.currentChar % 256 = 0x2d
  · rw [if_pos h3]
    exact hfollows 0x2d hyphenChoice h3 follows_hyphen (by decide)
  rw [if_neg h3]
  by_cases h4 : c.currentChar % 256 = 0x2a
  · rw [if_pos h4]
    exact hfollows 0x2a asteriskChoice h4 follows_asterisk (by decide)
  rw [if_neg h4]
  by_cases h5 : c.currentChar % 256 = 0x26
  · rw [if_pos h5]
    exact hfollows 0x26 ampersandChoice h5 follows_ampersand (by decide)
  rw [if_neg h5]
  by_cases h6 : c.currentChar % 256 = 0x5e
  · rw [if_pos h6]
    obtain rfl : ch = 0x5e := hchar h6
    exact munches_of_next pos 0x3d hlt hbyte hnext (by decide) (by decide)
      (by decide) (by decide) (by decide)
  rw [if_neg h6]
  by_cases h7 : c.currentChar % 256 = 0x21
  · rw [if_pos h7]
    obtain rfl : ch = 0x21 := hchar h7
    exact munches_exclamation htext pos hlt hbyte hnext
  rw [if_neg h7]
  by_cases h8 : c.currentChar % 256 = 0x3c
  · rw [if_pos h8]
    exact hfollows 0x3c lessThanChoice h8 follows_lessThan (by decide)
  rw [if_neg h8]
  by_cases h9 : c.currentChar % 256 = 0x3e
  · rw [if_pos h9]
    rw [scanSymbolGreaterThan_eq]
    exact hfollows 0x3e greaterThanChoice h9 follows_greaterThan (by decide)
  rw [if_neg h9]
  by_cases h10 : c.currentChar % 256 = 0x3d
  · rw [if_pos h10]
    exact hfollows 0x3d equalChoice h10 follows_equal (by decide)
  rw [if_neg h10]
  by_cases h11 : c.currentChar % 256 = 0x25
  · rw [if_pos h11]
    exact hfollows 0x25 equalAfter h11 follows_percentSign (by decide)
  rw [if_neg h11]
  by_cases h12 : c.currentChar % 256 = 0x7c
  · rw [if_pos h12]
    exact hfollows 0x7c verticalBarChoice h12 follows_verticalBar (by decide)
  rw [if_neg h12]
  by_cases h13 : c.currentChar % 256 = 0x3f
  · rw [if_pos h13]
    obtain rfl : ch = 0x3f := hchar h13
    exact munches_of_next pos 0x3f hlt hbyte hnext (by decide) (by decide)
      (by decide) (by decide) (by decide)
  rw [if_neg h13]
  by_cases h14 : c.currentChar % 256 = 0x40
  · rw [if_pos h14]
    exact hfollows 0x40 atChoice h14 follows_at (by decide)
  rw [if_neg h14]
  by_cases h15 : c.currentChar % 256 = 0x3a
  · rw [if_pos h15]
    exact hfollows 0x3a colonChoice h15 follows_colon (by decide)
  rw [if_neg h15]
  refine munches_of_single pos ch hlt hbyte hnext fun e he hspelled =>
    eq_singleton_of_spelled (fun hmem => ?_) hbyte he hspelled
  have hnats : longBegins.map UInt8.toNat = [0x7e, 0x2b, 0x2d, 0x2a, 0x26, 0x5e, 0x21, 0x3c, 0x3e,
    0x3d, 0x25, 0x7c, 0x3f, 0x40, 0x3a, 0x2e, 0x2f] := by decide
  have hnat : ch.toNat ∈ longBegins.map UInt8.toNat := List.mem_map_of_mem hmem
  have hdot' : ch.toNat ≠ 0x2e := fun h => hdot (UInt8.toNat_inj.mp h)
  have hdiv' : ch.toNat ≠ 0x2f := fun h => hdiv (UInt8.toNat_inj.mp h)
  rw [hnats] at hnat
  simp only [List.mem_cons, List.not_mem_nil, or_false] at hnat
  omega

/-- What the begin of a symbol is not. -/
lemma beginsSymbol_spec {d : IdentifierScanner} (h : beginsSymbol d input c = true) :
    c.currentChar ≠ -1 ∧ getLineTerminatorLength input.text c.pCurrent ≠ 2 ∧
      c.currentChar ≠ 0x2e ∧ c.currentChar ≠ 0x2f := by
  unfold beginsSymbol at h
  simp only [Bool.not_eq_true', Bool.or_eq_false_iff, decide_eq_false_iff_not, List.mem_cons,
    List.not_mem_nil, or_false, not_or] at h
  obtain ⟨⟨⟨⟨⟨⟨⟨⟨⟨hend, -⟩, hcrlf⟩, -⟩, -⟩, -⟩, -⟩, -⟩, hdot, hdiv⟩, -⟩ := h
  exact ⟨hend, hcrlf, hdot, hdiv⟩

/-- A dollar is taken together with the identifier or the backquote after it. -/
def TakesDollar (d : IdentifierScanner) (input : LexerInput) (c : Cursor) : Prop :=
  c.currentChar = 0x24 ∧
    (d.isCJXIDStart (c.readUTF8Char input).currentChar = true ∨
      (c.readUTF8Char input).currentChar = 0x60)

/-- For every place at which a symbol is scanned, when symbols are not split: but for the overflowing
operators, the token is the longest spelling at the place, and the cursor is after it. -/
theorem scanSymbol_munches (d : IdentifierScanner) (input : LexerInput)
    (htext : IsEncoded input.text) (c : Cursor) (pos : Position)
    (hbegins : beginsSymbol d input (c.readUTF8Char input) = true)
    (hoverflow : ∀ word ∈ overflowing, ¬word <+: input.text.drop c.pNext) :
    (TakesDollar d input (c.readUTF8Char input) →
        (scanSymbol d input false c.pNext pos (c.readUTF8Char input)).1.kind = .DOLLAR_IDENTIFIER) ∧
      (¬TakesDollar d input (c.readUTF8Char input) →
        Munches input.text c.pNext (scanSymbol d input false c.pNext pos (c.readUTF8Char input)).1
          (scanSymbol d input false c.pNext pos (c.readUTF8Char input)).2.pNext) := by
  obtain ⟨hend, hcrlf, hdot, hdiv⟩ := beginsSymbol_spec hbegins
  have hinside : c.pNext < input.text.length := by
    by_contra hge
    rw [readUTF8Char_of_end input c (Nat.not_lt.mp hge)] at hend
    exact hend rfl
  refine ⟨fun ⟨hdollar, hnext⟩ => ?_, fun hdollar => ?_⟩
  · rw [scanSymbol, if_pos hdollar]
    dsimp only
    rw [if_pos hnext]
    rfl
  · rcases Nat.lt_or_ge (byteAt input.text c.pNext) 0x80 with hascii | hhigh
    · have hbyte : byteAt input.text c.pNext = (input.text[c.pNext]).toNat := by
        rw [byteAt, List.getD_eq_getElem input.text 0 hinside]
      obtain ⟨hcurrent, hnext⟩ := readUTF8Char_of_ascii hinside hascii
      rw [pCurrent_readUTF8Char htext] at hcrlf
      rw [if_neg hcrlf] at hnext
      rw [hbyte] at hcurrent hascii
      rw [scanSymbol]
      dsimp only
      by_cases hsign : (c.readUTF8Char input).currentChar = 0x24
      · rw [if_pos hsign, if_neg fun h => hdollar ⟨hsign, h⟩]
        have hfirst : byteAt input.text c.pNext = (0x24 : UInt8).toNat := by
          rw [hsign] at hcurrent
          rw [hbyte]
          exact (Int.ofNat_inj.mp hcurrent).symm
        refine munches_of_single pos 0x24 hinside hfirst
          ((pCurrent_readUTF8Char htext).trans hnext) fun e he hspelled => ?_
        exact eq_singleton_of_spelled (by decide) hfirst he hspelled
      · rw [if_neg hsign]
        refine munches_strategy htext hoverflow pos hinside hbyte hascii hcurrent hnext ?_ ?_
        · rintro hch
          rw [hch] at hcurrent
          exact hdot hcurrent
        · rintro hch
          rw [hch] at hcurrent
          exact hdiv hcurrent
    · rw [scanSymbol]
      dsimp only
      split_ifs with hsign hnext
      · exact absurd ⟨hsign, hnext⟩ hdollar
      · exact munches_of_not_ascii pos hhigh
      · exact munches_of_not_ascii pos hhigh

/-- The scanning of identifiers that begin with ASCII letters and are one character long. -/
def letterScanner : IdentifierScanner where
  isCJXIDStart ch := decide (0x41 ≤ ch ∧ ch ≤ 0x5a ∨ 0x61 ≤ ch ∧ ch ≤ 0x7a ∨ ch = 0x5f)
  scanIdentifier input pStart c := (textBetween input.text pStart c.pNext, c)

/-- A text of ASCII characters encodes them. -/
lemma isEncoded_of_chars (chars : List Char) : IsEncoded (chars.flatMap String.utf8EncodeChar) :=
  ⟨chars, rfl⟩

/-- The operator `**=` before a letter. -/
def expAssign : LexerInput := ⟨['*', '*', '=', 'x'].flatMap String.utf8EncodeChar, ⟨0, 1, 1⟩⟩

/-- The operator `**=` is taken as a whole. -/
theorem scanSymbol_munches_expAssign :
    (TakesDollar letterScanner expAssign (Cursor.start.readUTF8Char expAssign) →
        (scanSymbol letterScanner expAssign false Cursor.start.pNext ⟨0, 1, 1⟩
          (Cursor.start.readUTF8Char expAssign)).1.kind = .DOLLAR_IDENTIFIER) ∧
      (¬TakesDollar letterScanner expAssign (Cursor.start.readUTF8Char expAssign) →
        Munches expAssign.text Cursor.start.pNext
          (scanSymbol letterScanner expAssign false Cursor.start.pNext ⟨0, 1, 1⟩
            (Cursor.start.readUTF8Char expAssign)).1
          (scanSymbol letterScanner expAssign false Cursor.start.pNext ⟨0, 1, 1⟩
            (Cursor.start.readUTF8Char expAssign)).2.pNext) :=
  scanSymbol_munches letterScanner expAssign (isEncoded_of_chars _) Cursor.start ⟨0, 1, 1⟩ (by decide)
    (by decide)

/-- The operator `!in` before a parenthesis. -/
def notInCall : LexerInput := ⟨['!', 'i', 'n', '('].flatMap String.utf8EncodeChar, ⟨0, 1, 1⟩⟩

/-- The spelling `!in` is at the begin of a text, but the token is `!`. -/
theorem not_longest_notInCall :
    ¬∀ (d : IdentifierScanner) (input : LexerInput) (c : Cursor) (pos : Position),
      beginsSymbol d input (c.readUTF8Char input) = true →
        ∀ e ∈ symbolTable, e.1 <+: input.text.drop c.pNext →
          e.1.length ≤
            (scanSymbol d input false c.pNext pos (c.readUTF8Char input)).1.value.length := by
  intro h
  have hlength := h letterScanner notInCall Cursor.start ⟨0, 1, 1⟩ (by decide)
    (bytes "!in", .NOT_IN) (lookupKeyword_mem (by decide)) (by decide)
  exact absurd hlength (by decide)

end Symbols

end Cangjie
