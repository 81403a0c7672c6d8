import CangjieCompiler.Foundations.LookAhead
import CangjieCompiler.Lex.Token
import CangjieCompiler.Lex.Utf8
import Mathlib

/-!
# The lexer

The lexer delivers tokens either from a text, which it scans, or from a vector of tokens, which it
splits where a token is ambiguous.  Tokens that were looked at ahead wait in a queue.  A reset point
saves the state of the lexer to go back to.

The scanning of a single token that is no line end is a parameter.  Diagnostics, the comments, the
parts of strings and the collected tokens are left out, since nothing that is delivered depends on
them.
-/

namespace Cangjie

/-- A text to scan and the position of its first character. -/
structure LexerInput where
  text : List UInt8
  posBase : Position

/-- The place in the text up to which the lexer scanned, its current character, and the offsets of
the lines seen so far. -/
structure Cursor where
  pCurrent : ℕ
  pNext : ℕ
  currentChar : ℤ
  success : Bool
  lineOffsetsFromBase : List ℕ

namespace Cursor

/-- The cursor at the start of a text. -/
def start : Cursor where
  pCurrent := 0
  pNext := 0
  currentChar := -1
  success := true
  lineOffsetsFromBase := [0]

/-- Registering the offset of the next line when the current character ends a line. -/
def tryRegisterLineOffset (input : LexerInput) (c : Cursor) : Cursor :=
  let terminateOffset := if 0 < getLineTerminatorLength input.text c.pCurrent then c.pNext else 0
  if c.lineOffsetsFromBase.getLastD 0 < terminateOffset then
    { c with lineOffsetsFromBase := c.lineOffsetsFromBase ++ [terminateOffset] }
  else c

/-- Eating up illegal bytes after an illegal character.  The fuel bounds the number of characters.
-/
def skipIllegal (text : List UInt8) : ℕ → ℕ → ReadChar → ℕ × ReadChar
  | 0, pCurrent, r => (pCurrent, r)
  | fuel + 1, pCurrent, r =>
    if r.ch = ERROR_UTF8 ∧ r.pNext < text.length then
      let ch := byteAt text r.pNext
      if ch < BYTE_X_FLAG then
        (r.pNext, { ch := ERROR_UTF8, pNext := r.pNext + 1, success := r.success })
      else skipIllegal text fuel pCurrent (readUTF8CharFromMultiBytes text r.pNext r.success ch)
    else (pCurrent, r)

/-- Reading a character. -/
def readUTF8Char (input : LexerInput) (c : Cursor) : Cursor :=
  let text := input.text
  if text.length ≤ c.pNext then { c with pCurrent := c.pNext, currentChar := -1 }
  else
    let ch := byteAt text c.pNext
    if ch < BYTE_2_FLAG then
      let step :=
        if ch = 0x0d ∧ c.pNext + 1 < text.length ∧ byteAt text (c.pNext + 1) = 0x0a then 2 else 1
      tryRegisterLineOffset input
        { c with
          pCurrent := c.pNext
          currentChar := ch
          pNext := c.pNext + step
          success := c.success && decide (ch < BYTE_X_FLAG) }
    else
      let (pCurrent, r) := skipIllegal text text.length c.pNext
        (readUTF8CharFromMultiBytes text c.pNext c.success ch)
      { c with pCurrent := pCurrent, currentChar := r.ch, pNext := r.pNext, success := r.success }

/-- The position of an offset. -/
def getPos (input : LexerInput) (c : Cursor) (current : ℕ) : Position :=
  let text := input.text
  let lines := c.lineOffsetsFromBase
  let offset := min current text.length
  let loc :=
    if offset < lines.getLastD 0 then (lines.takeWhile (· ≤ offset)).length - 1
    else lines.length - 1
  let atEnd : Bool := decide (0 < text.length ∧ current = text.length ∧ loc ≠ 0)
  let lastIsLF : Bool := byteAt text (current - 1) = 0x0a
  let lastIsCRLF : Bool := decide (2 ≤ current) && decide (byteAt text (current - 2) = 0x0d) && lastIsLF
  let offset := if atEnd && lastIsCRLF then offset - 1 else offset
  let loc := if atEnd && lastIsLF then loc - 1 else loc
  let columnBase := if loc = 0 then input.posBase.column else 1
  { fileID := input.posBase.fileID
    line := input.posBase.line + BitVec.ofNat 32 loc
    column := columnBase + (BitVec.ofNat 32 offset - BitVec.ofNat 32 (lines.getD loc 0)) }

end Cursor

/-- A token that the scanner makes. -/
def Token.make (kind : TokenKind) (value : List UInt8) (beginPos endPos : Position) : Token where
  kind := kind
  delimiterNum := 1
  isSingleQuote := false
  commentForMacroDebug := false
  value := value
  beginPos := beginPos
  endPos := endPos

/-- The scanning of identifiers, numbers, literals, comments and symbols, from the cursor after
their first character.  It depends on the flag that splits ambiguous tokens and on the position of
the token.  It ends after the first character, and registers further lines only. -/
structure TokenScanner where
  scan : LexerInput → Bool → Position → Cursor → Token × Cursor
  advances : ∀ input split pos c, c.pCurrent < c.pNext →
    c.pCurrent < (scan input split pos c).2.pNext
  keepsLines : ∀ input split pos c,
    c.lineOffsetsFromBase <+: (scan input split pos c).2.lineOffsetsFromBase
  notEnd : ∀ input split pos c, (scan input split pos c).1.kind ≠ .END

/-! ## Scanning -/

/-- What scanning reads and changes. -/
structure Scanning where
  input : LexerInput
  scanner : TokenScanner
  cursor : Cursor
  pos : Position
  splitAmbiguousToken : Bool
  enableScan : Bool
  tokens : List Token
  curToken : ℕ

namespace Scanning

/-- The two tokens that an ambiguous token stands for: kinds and values. -/
def lookupAmbiTokenDeg : TokenKind → Option (TokenKind × String × TokenKind × String)
  | .COALESCING => some (.QUEST, "?", .QUEST, "?")
  | .RSHIFT_ASSIGN => some (.GT, ">", .GE, ">=")
  | .RSHIFT => some (.GT, ">", .GT, ">")
  | .GE => some (.GT, ">", .ASSIGN, "=")
  | _ => none

/-- The bytes of a string. -/
def bytes (value : String) : List UInt8 := value.toUTF8.data.toList

/-- The rest of an ambiguous token after its first half. -/
def rest (t : Token) (kind : TokenKind) (value : String) : Token :=
  { t with
    kind := kind
    value := bytes value
    beginPos := t.beginPos.advance 1
    endPos := t.endPos.advance 1 }

/-- The next token of the vector.  An ambiguous token is replaced by its second half. -/
def scanFromTokens (s : Scanning) : Token × Scanning :=
  match s.tokens[s.curToken]? with
  | none => (Token.make .END [] s.pos s.pos, s)
  | some t =>
    match (if s.splitAmbiguousToken then lookupAmbiTokenDeg t.kind else none) with
    | some (lkind, lval, rkind, rval) =>
      (Token.make lkind (bytes lval) t.beginPos t.endPos,
        { s with tokens := s.tokens.set s.curToken (rest t rkind rval) })
    | none => (t, { s with curToken := s.curToken + 1 })

/-- The cursor after the first character of a token. -/
def firstChar (s : Scanning) : Cursor := ({ s.cursor with success := true }).readUTF8Char s.input

/-- The next token of the text after blanks. -/
def scanBase (s : Scanning) : Token × Scanning :=
  let pStart := s.cursor.pNext
  let c := s.firstChar
  let pos := c.getPos s.input pStart
  let s := { s with cursor := c, pos := pos }
  if c.currentChar = -1 then (Token.make .END [] pos pos, s)
  else if c.currentChar = 0x0a then (Token.make .NL (bytes "\n") pos (pos.advance 1), s)
  else if getLineTerminatorLength s.input.text c.pCurrent = 2 then
    (Token.make .NL (bytes "\r\n") pos (pos.advance 1), s)
  else
    let (t, c) := s.scanner.scan s.input s.splitAmbiguousToken pos c
    (t, { s with cursor := c })

/-- Whether a byte is a blank. -/
def isBlank (byte : UInt8) : Bool := byte == 0x20 || byte == 0x09 || byte == 0x0c

/-- Skipping blanks. -/
def skipBlanks (s : Scanning) : Scanning :=
  let blanks := (s.input.text.drop s.cursor.pNext).takeWhile isBlank
  { s with cursor := { s.cursor with pNext := s.cursor.pNext + blanks.length } }

/-- The next token. -/
def scan (s : Scanning) : Token × Scanning :=
  if !s.enableScan then s.scanFromTokens
  else if s.input.text.length = 0 then (Token.make .END [] s.input.posBase s.input.posBase, s)
  else if s.input.text.length ≤ s.cursor.pNext then
    (Token.make .END [] (s.cursor.getPos s.input s.cursor.pNext)
      (s.cursor.getPos s.input s.cursor.pNext), s)
  else s.skipBlanks.scanBase

/-! ## Progress -/

/-- How often a token can be split. -/
def splitsLeft : TokenKind → ℕ
  | .RSHIFT_ASSIGN => 2
  | .COALESCING | .RSHIFT | .GE => 1
  | _ => 0

lemma splitsLeft_of_lookup {kind lkind rkind : TokenKind} {lval rval : String}
    (h : lookupAmbiTokenDeg kind = some (lkind, lval, rkind, rval)) :
    lkind ≠ .END ∧ splitsLeft rkind < splitsLeft kind := by
  unfold lookupAmbiTokenDeg at h
  split at h
  all_goals
    cases h
    try exact ⟨by decide, by decide⟩

lemma skipIllegal_advances (text : List UInt8) (fuel : ℕ) {pStart pCurrent : ℕ} {r : ReadChar}
    (hstart : pStart ≤ pCurrent) (hr : pCurrent < r.pNext) (hlength : r.pNext ≤ text.length) :
    pStart ≤ (Cursor.skipIllegal text fuel pCurrent r).1 ∧
      (Cursor.skipIllegal text fuel pCurrent r).1 < (Cursor.skipIllegal text fuel pCurrent r).2.pNext := by
  induction fuel generalizing r with
  | zero => exact ⟨hstart, hr⟩
  | succ fuel ih =>
    unfold Cursor.skipIllegal
    split
    · rename_i hcond
      dsimp only
      split
      · exact ⟨Nat.le_of_lt (Nat.lt_of_le_of_lt hstart hr), Nat.lt_succ_self _⟩
      · obtain ⟨hadvance, hbound⟩ :=
          lt_readUTF8CharFromMultiBytes text r.success (byteAt text r.pNext) hcond.2
        exact ih (Nat.lt_trans hr hadvance) hbound
    · exact ⟨hstart, hr⟩

lemma tryRegisterLineOffset_pNext (input : LexerInput) (c : Cursor) :
    (c.tryRegisterLineOffset input).pCurrent = c.pCurrent ∧
      (c.tryRegisterLineOffset input).pNext = c.pNext ∧
      (c.tryRegisterLineOffset input).currentChar = c.currentChar := by
  unfold Cursor.tryRegisterLineOffset
  dsimp only
  split_ifs <;> exact ⟨rfl, rfl, rfl⟩

/-- Reading a character advances, unless the text is at its end. -/
lemma readUTF8Char_advances (input : LexerInput) (c : Cursor) (h : c.pNext < input.text.length) :
    c.pNext ≤ (c.readUTF8Char input).pCurrent ∧
      (c.readUTF8Char input).pCurrent < (c.readUTF8Char input).pNext := by
  unfold Cursor.readUTF8Char
  dsimp only
  rw [if_neg (Nat.not_le.mpr h)]
  split
  · obtain ⟨hcurrent, hnext, -⟩ := tryRegisterLineOffset_pNext input _
    rw [hcurrent, hnext]
    dsimp only
    refine ⟨Nat.le_refl _, ?_⟩
    split <;> exact Nat.lt_add_of_pos_right (by decide)
  · obtain ⟨hadvance, hbound⟩ :=
      lt_readUTF8CharFromMultiBytes input.text c.success (byteAt input.text c.pNext) h
    exact skipIllegal_advances input.text _ (Nat.le_refl _) hadvance hbound

lemma readUTF8Char_of_end (input : LexerInput) (c : Cursor) (h : input.text.length ≤ c.pNext) :
    c.readUTF8Char input = { c with pCurrent := c.pNext, currentChar := -1 } := by
  unfold Cursor.readUTF8Char
  dsimp only
  rw [if_pos h]

/-- The tokens of the vector that are still to come. -/
def pending (s : Scanning) : List Token := s.tokens.drop s.curToken

/-- The two halves of a token, when it is ambiguous and such tokens are split. -/
def deg (s : Scanning) (t : Token) : Option (TokenKind × String × TokenKind × String) :=
  if s.splitAmbiguousToken then lookupAmbiTokenDeg t.kind else none

/-- What scanning the vector can do: nothing at its end, to go on after a token, or to replace a
token by its second half. -/
lemma scanFromTokens_cases (s : Scanning) :
    (s.pending = [] ∧ s.scanFromTokens = (Token.make .END [] s.pos s.pos, s)) ∨
    (∃ t more, s.pending = t :: more ∧ s.deg t = none ∧
      s.scanFromTokens = (t, { s with curToken := s.curToken + 1 }) ∧
      ({ s with curToken := s.curToken + 1 }).pending = more) ∨
    ∃ t more lkind lval rkind rval, s.pending = t :: more ∧
      s.deg t = some (lkind, lval, rkind, rval) ∧
      s.scanFromTokens = (Token.make lkind (bytes lval) t.beginPos t.endPos,
        { s with tokens := s.tokens.set s.curToken (rest t rkind rval) }) ∧
      ({ s with tokens := s.tokens.set s.curToken (rest t rkind rval) }).pending =
        rest t rkind rval :: more := by
  unfold scanFromTokens pending
  cases htoken : s.tokens[s.curToken]? with
  | none => exact Or.inl ⟨List.drop_eq_nil_of_le (List.getElem?_eq_none_iff.mp htoken), rfl⟩
  | some t =>
    obtain ⟨hlt, ht⟩ := List.getElem?_eq_some_iff.mp htoken
    have hdrop : s.tokens.drop s.curToken = t :: s.tokens.drop (s.curToken + 1) := by
      rw [List.drop_eq_getElem_cons hlt, ht]
    refine Or.inr ?_
    cases hdeg : s.deg t with
    | none =>
      have hif : (if s.splitAmbiguousToken then lookupAmbiTokenDeg t.kind else none) = none := hdeg
      refine Or.inl ⟨t, _, hdrop, hdeg, ?_, rfl⟩
      dsimp only
      rw [hif]
    | some halves =>
      obtain ⟨lkind, lval, rkind, rval⟩ := halves
      have hif : (if s.splitAmbiguousToken then lookupAmbiTokenDeg t.kind else none) =
          some (lkind, lval, rkind, rval) := hdeg
      refine Or.inr ⟨t, _, lkind, lval, rkind, rval, hdrop, hdeg, ?_, ?_⟩
      · dsimp only
        rw [hif]
      · dsimp only
        rw [List.drop_set, if_neg (Nat.lt_irrefl _), Nat.sub_self, hdrop, List.set_cons_zero]

lemma lookup_of_deg {s : Scanning} {t : Token}
    {halves : TokenKind × String × TokenKind × String} (h : s.deg t = some halves) :
    lookupAmbiTokenDeg t.kind = some halves := by
  unfold deg at h
  split at h
  · exact h
  · exact absurd h (by simp)

/-- A bound on the number of tokens that a vector stands for. -/
def tokensLeft (ts : List Token) : ℕ := (ts.map fun t => 1 + splitsLeft t.kind).sum

lemma tokensLeft_cons (t : Token) (ts : List Token) :
    tokensLeft (t :: ts) = 1 + splitsLeft t.kind + tokensLeft ts := by
  rw [tokensLeft, List.map_cons, List.sum_cons, tokensLeft]

/-- A bound on the number of tokens before the end. -/
def rank (s : Scanning) : ℕ :=
  if s.enableScan then s.input.text.length - s.cursor.pNext else tokensLeft s.pending

/-- A token of the vector that is not the end leaves fewer to come. -/
lemma scanFromTokens_progress (s : Scanning) :
    (s.scanFromTokens).1.kind = .END ∨
      tokensLeft (s.scanFromTokens).2.pending < tokensLeft s.pending := by
  rcases s.scanFromTokens_cases with ⟨-, hscan⟩ | ⟨t, more, hpending, -, hscan, hmore⟩ |
    ⟨t, more, lkind, lval, rkind, rval, hpending, hdeg, hscan, hmore⟩
  · rw [hscan]
    exact Or.inl rfl
  · rw [hscan, hmore, hpending, tokensLeft_cons]
    exact Or.inr (Nat.lt_add_of_pos_left (Nat.lt_of_lt_of_le Nat.zero_lt_one (Nat.le_add_right _ _)))
  · rw [hscan, hmore, hpending, tokensLeft_cons, tokensLeft_cons]
    have hsplits := (splitsLeft_of_lookup (lookup_of_deg hdeg)).2
    have hrest : (rest t rkind rval).kind = rkind := rfl
    rw [hrest]
    exact Or.inr (Nat.add_lt_add_right (Nat.add_lt_add_left hsplits 1) _)

lemma firstChar_of_end (s : Scanning) (h : s.input.text.length ≤ s.cursor.pNext) :
    s.firstChar.currentChar = -1 ∧ s.firstChar.pNext = s.cursor.pNext := by
  unfold firstChar
  rw [readUTF8Char_of_end s.input { s.cursor with success := true } h]
  exact ⟨rfl, rfl⟩

/-- Scanning the text after blanks ends it, or advances. -/
lemma scanBase_progress (s : Scanning) :
    (s.scanBase).1.kind = .END ∧ (s.scanBase).2.cursor.pNext = s.cursor.pNext ∨
      s.cursor.pNext < (s.scanBase).2.cursor.pNext := by
  by_cases hend : s.input.text.length ≤ s.cursor.pNext
  · obtain ⟨hchar, hnext⟩ := s.firstChar_of_end hend
    refine Or.inl ?_
    unfold scanBase
    dsimp only
    rw [if_pos hchar]
    exact ⟨rfl, hnext⟩
  · refine Or.inr ?_
    have hadvances : s.cursor.pNext ≤ s.firstChar.pCurrent ∧
        s.firstChar.pCurrent < s.firstChar.pNext :=
      readUTF8Char_advances s.input { s.cursor with success := true } (Nat.not_le.mp hend)
    unfold scanBase
    dsimp only
    split_ifs
    · exact Nat.lt_of_le_of_lt hadvances.1 hadvances.2
    · exact Nat.lt_of_le_of_lt hadvances.1 hadvances.2
    · exact Nat.lt_of_le_of_lt hadvances.1 hadvances.2
    · exact Nat.lt_of_le_of_lt hadvances.1 (s.scanner.advances _ _ _ _ hadvances.2)

lemma scanBase_input (s : Scanning) :
    (s.scanBase).2.input = s.input ∧ (s.scanBase).2.enableScan = s.enableScan := by
  unfold scanBase
  dsimp only
  split_ifs <;> exact ⟨rfl, rfl⟩

lemma scanFromTokens_enableScan (s : Scanning) : (s.scanFromTokens).2.enableScan = s.enableScan := by
  rcases s.scanFromTokens_cases with ⟨-, hscan⟩ | ⟨_, _, -, -, hscan, -⟩ |
    ⟨_, _, _, _, _, _, -, -, hscan, -⟩
  all_goals rw [hscan]

lemma skipBlanks_pNext (s : Scanning) : s.cursor.pNext ≤ s.skipBlanks.cursor.pNext :=
  Nat.le_add_right _ _

/-- A token that is not the end leaves fewer to come. -/
theorem scan_progress (s : Scanning) :
    (s.scan).1.kind = .END ∨ (s.scan).2.rank < s.rank := by
  unfold scan
  cases hmode : s.enableScan with
  | false =>
    rw [Bool.not_false, if_pos rfl]
    refine s.scanFromTokens_progress.imp_right fun hlt => ?_
    unfold rank
    rwa [s.scanFromTokens_enableScan, hmode, if_neg Bool.false_ne_true, if_neg Bool.false_ne_true]
  | true =>
    rw [Bool.not_true, if_neg Bool.false_ne_true]
    split_ifs with hempty hend
    · exact Or.inl rfl
    · exact Or.inl rfl
    · obtain ⟨hinput, hscan⟩ := s.skipBlanks.scanBase_input
      refine s.skipBlanks.scanBase_progress.imp (fun h => h.1) fun hlt => ?_
      have hinput : (s.skipBlanks.scanBase).2.input = s.input := hinput
      have hscan : (s.skipBlanks.scanBase).2.enableScan = true := hscan.trans hmode
      unfold rank
      rw [hscan, hmode, if_pos rfl, if_pos rfl, hinput]
      exact Nat.sub_lt_sub_left (Nat.not_le.mp hend)
        (Nat.lt_of_le_of_lt s.skipBlanks_pNext hlt)

lemma scan_enableScan (s : Scanning) : (s.scan).2.enableScan = s.enableScan := by
  unfold scan
  split_ifs
  · exact s.scanFromTokens_enableScan
  · rfl
  · rfl
  · exact (s.skipBlanks.scanBase_input).2

/-- The tokens that scanning delivers, which come to an end. -/
def source : ItemSource Scanning Token where
  read := scan
  isEnd := fun t => decide (t.kind = .END)
  rank := rank
  progress := fun s h => (s.scan_progress).resolve_left (of_decide_eq_false h)

end Scanning

/-! ## The lexer -/

/-- The lexer: what scanning reads, the tokens that were looked at ahead, and the reset point. -/
structure LexerImpl where
  scanning : Scanning
  lookAheadCache : List Token
  pResetCurrent : ℕ
  pResetNext : ℕ
  resetLookAheadCache : List Token
  lineResetOffsetsFromBase : ℕ
  resetToken : ℕ

namespace LexerImpl

open Scanning

/-- The lexer of a text. -/
def ofText (scanner : TokenScanner) (input : LexerInput) (split : Bool) : LexerImpl where
  scanning :=
    { input := input
      scanner := scanner
      cursor := Cursor.start
      pos := ⟨0, 0, 0⟩
      splitAmbiguousToken := split
      enableScan := true
      tokens := []
      curToken := 0 }
  lookAheadCache := []
  pResetCurrent := 0
  pResetNext := 0
  resetLookAheadCache := []
  lineResetOffsetsFromBase := 0
  resetToken := 0

/-- The lexer of a vector of tokens, in which identifiers that are keywords were lexed anew. -/
def ofTokens (scanner : TokenScanner) (input : LexerInput) (tokens : List Token) (split : Bool) :
    LexerImpl where
  scanning :=
    { input := input
      scanner := scanner
      cursor := Cursor.start
      pos := ⟨0, 0, 0⟩
      splitAmbiguousToken := split
      enableScan := false
      tokens := tokens
      curToken := 0 }
  lookAheadCache := []
  pResetCurrent := 0
  pResetNext := 0
  resetLookAheadCache := []
  lineResetOffsetsFromBase := 0
  resetToken := 0

/-- The next token, from the queue or from the source. -/
def next (l : LexerImpl) : Token × LexerImpl :=
  match l.lookAheadCache with
  | [] => ((l.scanning.scan).1, { l with scanning := (l.scanning.scan).2 })
  | token :: rest => (token, { l with lookAheadCache := rest })

/-- Filling the queue. -/
def fill (l : LexerImpl) (f : Filling source) (needed : ℕ) : LexerImpl :=
  let (scanning, cache) := source.fill f needed l.scanning l.lookAheadCache
  { l with scanning := scanning, lookAheadCache := cache }

/-- Looking ahead keeps all tokens but comments and stops at the end. -/
def lookAheadFilling : Filling source where
  keep := fun token => decide (token.kind ≠ .COMMENT)
  count := fun token => decide (token.kind ≠ .COMMENT)
  stop := fun token => decide (token.kind = .END)
  count_end := fun t h => by
    have hend : t.kind = .END := of_decide_eq_true h
    rw [hend]
    decide

/-- The queue with a number of tokens, or up to the end. -/
def lookAhead (l : LexerImpl) (num : ℕ) : List Token × LexerImpl :=
  let l := l.fill lookAheadFilling (num - l.lookAheadCache.length)
  (l.lookAheadCache, l)

/-- Reserving keeps all tokens but comments, if these are skipped, and counts those that are kept
but newlines, if these are skipped. -/
def reserveFilling (skipNewline skipComments : Bool) : Filling source where
  keep := fun token => !(decide (token.kind = .COMMENT) && skipComments)
  count := fun token =>
    !(decide (token.kind = .COMMENT) && skipComments) &&
      (!skipNewline || decide (token.kind ≠ .NL))
  stop := fun _ => false
  count_end := fun t h => by
    have hend : t.kind = .END := of_decide_eq_true h
    rw [hend]
    simp

/-- Filling the queue up to a number of tokens, or of tokens but newlines. -/
def reserveToken (l : LexerImpl) (num : ℕ) (skipNewline skipComments : Bool) : LexerImpl :=
  let index :=
    if skipNewline then l.lookAheadCache.countP fun token => decide (token.kind ≠ .NL)
    else l.lookAheadCache.length
  l.fill (reserveFilling skipNewline skipComments) (num - index)

/-- Whether the first tokens are of the given kinds.  There is no result past the end. -/
def equalKinds : List TokenKind → List Token → Option Bool
  | [], _ => some true
  | _ :: _, [] => none
  | kind :: kinds, token :: rest => if kind = token.kind then equalKinds kinds rest else some false

/-- Whether the first tokens but newlines are of the given kinds.  There is no result past the end.
-/
def equalKindsSkipNL : List TokenKind → List Token → Option Bool
  | [], _ => some true
  | _ :: _, [] => none
  | kind :: kinds, token :: rest =>
    if token.kind = .NL then equalKindsSkipNL (kind :: kinds) rest
    else if kind ≠ token.kind then some false
    else equalKindsSkipNL kinds rest

/-- Whether the next tokens are of the given kinds. -/
def seeing (l : LexerImpl) (kinds : List TokenKind) (skipNewline skipComments : Bool) :
    Option Bool × LexerImpl :=
  let l := l.reserveToken (kinds.length + 1) skipNewline skipComments
  if skipNewline then (equalKindsSkipNL kinds l.lookAheadCache, l)
  else (equalKinds kinds l.lookAheadCache, l)

/-- Looking ahead without newlines keeps all tokens but comments, counts those that are no newlines,
and stops at the end. -/
def lookAheadSkipNLFilling : Filling source where
  keep := fun token => decide (token.kind ≠ .COMMENT)
  count := fun token => decide (token.kind ≠ .COMMENT) && decide (token.kind ≠ .NL)
  stop := fun token => decide (token.kind = .END)
  count_end := fun t h => by
    have hend : t.kind = .END := of_decide_eq_true h
    rw [hend]
    decide

/-- The first tokens of the queue that are no newlines.  The number of them is compared after a
token of the queue only. -/
def firstNotNL (num : ℕ) (cache : List Token) : List Token :=
  let cache := if num = 0 then cache.take 1 else cache
  (cache.filter fun token => decide (token.kind ≠ .NL)).take (max num 1)

/-- The next tokens but newlines, a number of them or up to the end. -/
def lookAheadSkipNL (l : LexerImpl) (num : ℕ) : List Token × LexerImpl :=
  let ret := l.lookAheadCache.countP fun token => decide (token.kind ≠ .NL)
  let l := l.fill lookAheadSkipNLFilling (num - ret)
  (firstNotNL num l.lookAheadCache, l)

/-- Saving the state. -/
def setResetPoint (l : LexerImpl) : LexerImpl :=
  { l with
    pResetCurrent := l.scanning.cursor.pCurrent
    pResetNext := l.scanning.cursor.pNext
    resetLookAheadCache := l.lookAheadCache
    lineResetOffsetsFromBase := l.scanning.cursor.lineOffsetsFromBase.length
    resetToken := l.scanning.curToken }

/-- Going back to the saved state. -/
def reset (l : LexerImpl) : LexerImpl :=
  { l with
    scanning :=
      { l.scanning with
        cursor :=
          { l.scanning.cursor with
            pCurrent := l.pResetCurrent
            pNext := l.pResetNext
            lineOffsetsFromBase :=
              l.scanning.cursor.lineOffsetsFromBase.take l.lineResetOffsetsFromBase }
        curToken := l.resetToken }
    lookAheadCache := l.resetLookAheadCache }

/-- Changing the flag that splits ambiguous tokens. -/
def setSplit (l : LexerImpl) (split : Bool) : LexerImpl :=
  { l with scanning := { l.scanning with splitAmbiguousToken := split } }

end LexerImpl

end Cangjie
