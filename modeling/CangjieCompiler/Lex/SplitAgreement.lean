import CangjieCompiler.Lex.ScanningState
import CangjieCompiler.Lex.SymbolScanner

/-!
# Splitting tokens of a text and of a vector

A text is lexed without splitting, and the tokens are read again from the vector while splitting is
switched on and off.  The text itself can be lexed under the same switches.  As soon as a token is
split, the two ways deliver different tokens: the first half of a token of the vector ends where the
whole token ends.  A token of illegal bytes after `>` is split in the text only.
-/

namespace Cangjie

open Cursor

/-! ## Symbols of one and of more characters -/

/-- The cursor after the first byte of a symbol. -/
structure AtSymbol (input : LexerInput) (c : Cursor) (byte : ℕ) : Prop where
  next : c.pNext = c.pCurrent + 1
  lt : c.pCurrent < input.text.length
  byteAt : byteAt input.text c.pCurrent = byte
  ne_lf : byte ≠ 0x0a
  success : c.success = true
  lines : c.lineOffsetsFromBase ≠ []
  ascending : Ascending c.lineOffsetsFromBase

variable {input : LexerInput} {c u : Cursor} {byte : ℕ} {pos : Position}

lemma length_textBetween (text : List UInt8) (pStart pNext : ℕ) :
    (textBetween text pStart pNext).length = min (pNext - pStart) (text.length - pStart) := by
  rw [textBetween, List.length_take, List.length_drop]

lemma AtSymbol.textBetween (h : AtSymbol input c byte) :
    textBetween input.text c.pCurrent c.pNext = [UInt8.ofNat byte] := by
  have hlt := h.lt
  have hget : UInt8.ofNat (Cangjie.byteAt input.text c.pCurrent) = input.text[c.pCurrent] := by
    rw [Cangjie.byteAt, List.getD_eq_getElem _ _ hlt, UInt8.ofNat_toNat]
  rw [h.byteAt] at hget
  rw [Cangjie.textBetween, h.next, Nat.add_sub_cancel_left, List.drop_eq_getElem_cons hlt,
    List.take_succ_cons, List.take_zero, hget]

lemma AtSymbol.byteAt_ne_lf (h : AtSymbol input c byte) :
    Cangjie.byteAt input.text (c.pNext - 1) ≠ 0x0a := by
  rw [h.next, Nat.add_sub_cancel, h.byteAt]
  exact h.ne_lf

/-- The position after the symbol does not depend on the characters that were read after it. -/
lemma AtSymbol.getPos_eq (h : AtSymbol input c byte) (hu : Registers c u) :
    u.getPos input c.pNext = c.getPos input c.pNext := by
  obtain ⟨more, hlines, hmore⟩ := hu.later
  exact getPos_append input (hu.ascending h.ascending) hlines h.lines hmore h.byteAt_ne_lf

/-- A symbol of one character is the same token. -/
lemma AtSymbol.getSymbolToken_eq (h : AtSymbol input c byte) (pos : Position) (hu : Registers c u)
    (hnext : u.pNext = c.pNext) :
    (getSymbolToken input c.pCurrent pos u).1 = (getSymbolToken input c.pCurrent pos c).1 := by
  have hpos := h.getPos_eq hu
  unfold getSymbolToken
  dsimp only
  rw [hnext, hpos]
  split_ifs <;> rfl

/-- The token of a symbol of one character. -/
lemma AtSymbol.getSymbolToken_kind (h : AtSymbol input c byte) (pos : Position) :
    (byte = 0x3e → (getSymbolToken input c.pCurrent pos c).1.kind = .GT) ∧
      (byte = 0x3f → (getSymbolToken input c.pCurrent pos c).1.kind = .QUEST) ∧
      (getSymbolToken input c.pCurrent pos c).1.value.length = 1 := by
  unfold getSymbolToken
  dsimp only
  rw [h.textBetween]
  refine ⟨?_, ?_, ?_⟩
  · rintro rfl
    rfl
  · rintro rfl
    rfl
  · split_ifs <;> rfl

/-- A token of these two kinds has one character. -/
lemma length_of_getSymbolToken_kind {pStart : ℕ}
    (h : (getSymbolToken input pStart pos c).1.kind = .GT ∨
      (getSymbolToken input pStart pos c).1.kind = .QUEST) :
    (getSymbolToken input pStart pos c).1.value.length = 1 := by
  have hvalue : ∀ literal, lookupSymbol literal = .GT ∨ lookupSymbol literal = .QUEST →
      literal.length = 1 := by
    intro literal hkind
    unfold lookupSymbol at hkind
    split_ifs at hkind with h₁ h₂ h₃ h₄ h₅ h₆
    · rw [h₁]; rfl
    · exact absurd hkind (by decide)
    · exact absurd hkind (by decide)
    · exact absurd hkind (by decide)
    · rw [h₅]; rfl
    · exact absurd hkind (by decide)
    · exact absurd hkind (by decide)
  unfold getSymbolToken at h ⊢
  dsimp only at h ⊢
  split_ifs at h ⊢
  · exact absurd h (by simp [Token.make])
  · exact hvalue _ h

/-- The kinds of the tokens that are split, with their values. -/
lemma value_of_lookupAmbiTokenDeg {literal : List UInt8}
    {halves : TokenKind × String × TokenKind × String}
    (h : Scanning.lookupAmbiTokenDeg (lookupSymbol literal) = some halves) :
    1 < literal.length ∧ literal.length ≤ 3 ∧ ∀ b ∈ literal, b.toNat ≠ 0x0a := by
  unfold lookupSymbol at h
  split_ifs at h with h₁ h₂ h₃ h₄ h₅ h₆
  · exact absurd h (by simp [Scanning.lookupAmbiTokenDeg])
  · rw [h₂]; simp
  · rw [h₃]; simp
  · rw [h₄]; simp
  · exact absurd h (by simp [Scanning.lookupAmbiTokenDeg])
  · rw [h₆]; simp
  · exact absurd h (by simp [Scanning.lookupAmbiTokenDeg])

/-- A byte before the end of a token that is split does not end a line. -/
lemma byteAt_ne_lf_of_value {text : List UInt8} {pStart pNext : ℕ} (hlt : pStart < pNext)
    (h : ∀ b ∈ textBetween text pStart pNext, b.toNat ≠ 0x0a) :
    Cangjie.byteAt text (pNext - 1) ≠ 0x0a := by
  unfold Cangjie.byteAt
  by_cases hend : pNext - 1 < text.length
  · rw [List.getD_eq_getElem _ _ hend]
    refine h _ ?_
    have hindex : pNext - 1 = pStart + (pNext - pStart - 1) := by omega
    have hlength : pNext - pStart - 1 < (textBetween text pStart pNext).length := by
      rw [length_textBetween]
      omega
    have hget : (textBetween text pStart pNext)[pNext - pStart - 1] = text[pNext - 1] := by
      simp only [textBetween, List.getElem_take, List.getElem_drop]
      congr 1
      omega
    rw [← hget]
    exact List.getElem_mem hlength
  · rw [List.getD_eq_default _ _ (Nat.not_lt.mp hend)]
    decide

/-- A symbol of more characters is another token than the first character, with another end if it
is split. -/
lemma AtSymbol.getSymbolToken_ne (h : AtSymbol input c byte) (pos : Position) (hu : Registers c u)
    (hend : c.pNext < input.text.length) (hnext : c.pNext < u.pNext) :
    1 < (getSymbolToken input c.pCurrent pos u).1.value.length ∧
      ∀ halves, Scanning.lookupAmbiTokenDeg (getSymbolToken input c.pCurrent pos u).1.kind =
        some halves → (getSymbolToken input c.pCurrent pos u).1.endPos ≠ c.getPos input c.pNext := by
  have hlength : 1 < (Cangjie.textBetween input.text c.pCurrent u.pNext).length := by
    have := h.next
    rw [length_textBetween]
    omega
  refine ⟨?_, fun halves hhalves => ?_⟩
  · unfold getSymbolToken
    dsimp only
    split_ifs <;> exact hlength
  · have hkind : Scanning.lookupAmbiTokenDeg
        (lookupSymbol (Cangjie.textBetween input.text c.pCurrent u.pNext)) = some halves ∧
        (getSymbolToken input c.pCurrent pos u).1.endPos = u.getPos input u.pNext := by
      unfold getSymbolToken at hhalves ⊢
      dsimp only at hhalves ⊢
      split_ifs at hhalves ⊢
      · exact absurd hhalves (by simp [Token.make, Scanning.lookupAmbiTokenDeg])
      · exact ⟨hhalves, rfl⟩
    obtain ⟨hlong, hshort, hbytes⟩ := value_of_lookupAmbiTokenDeg hkind.1
    rw [length_textBetween] at hlong hshort
    rw [hkind.2, ← h.getPos_eq hu]
    have hstart := h.next
    refine (getPos_ne (n := min u.pNext input.text.length - c.pNext) input
      (hu.ascending h.ascending) hend.le ?_ ?_ ?_ h.byteAt_ne_lf ?_).symm
    · omega
    · omega
    · omega
    · exact byteAt_ne_lf_of_value (by omega) hbytes

namespace Scanning

/-! ## Scanning from the first character on -/

/-- Changing the flag that splits ambiguous tokens. -/
def setSplit (s : Scanning) (split : Bool) : Scanning := { s with splitAmbiguousToken := split }

/-- The token that begins with a character, and the cursor after it. -/
def scanFrom (s : Scanning) (pos : Position) (c : Cursor) : Token × Cursor :=
  if c.currentChar = -1 then (Token.make .END [] pos pos, c)
  else if c.currentChar = 0x0a then (Token.make .NL (bytes "\n") pos (pos.advance 1), c)
  else if getLineTerminatorLength s.input.text c.pCurrent = 2 then
    (Token.make .NL (bytes "\r\n") pos (pos.advance 1), c)
  else s.scanner.scan s.input s.splitAmbiguousToken pos c

/-- The position of the next token. -/
def nextPos (s : Scanning) : Position :=
  s.skipBlanks.firstChar.getPos s.input s.skipBlanks.cursor.pNext

lemma scanBase_eq (s : Scanning) :
    s.scanBase =
      ((s.scanFrom (s.firstChar.getPos s.input s.cursor.pNext) s.firstChar).1,
        { s with
          cursor := (s.scanFrom (s.firstChar.getPos s.input s.cursor.pNext) s.firstChar).2
          pos := s.firstChar.getPos s.input s.cursor.pNext }) := by
  unfold scanBase scanFrom
  dsimp only
  split_ifs <;> rfl

/-- Scanning a text that is not at its end. -/
lemma scan_eq {s : Scanning} (hscan : s.enableScan = true)
    (hend : s.cursor.pNext < s.input.text.length) :
    s.scan =
      ((s.scanFrom s.nextPos s.skipBlanks.firstChar).1,
        { s with
          cursor := (s.scanFrom s.nextPos s.skipBlanks.firstChar).2
          pos := s.nextPos }) := by
  have hmode : (!s.enableScan) = false := by rw [hscan]; rfl
  unfold scan
  rw [hmode, if_neg Bool.false_ne_true, if_neg (by omega), if_neg (Nat.not_le.mpr hend), scanBase_eq]
  rfl

lemma scan_of_end {s : Scanning} (hscan : s.enableScan = true)
    (hend : s.input.text.length ≤ s.cursor.pNext) : s.scan.1.kind = .END := by
  unfold scan
  rw [hscan, Bool.not_true, if_neg Bool.false_ne_true]
  split_ifs
  · rfl
  · rfl

variable {other : OtherScanner}

/-- The cursor after `>` or `?` was read. -/
lemma atSymbol_of_readUTF8Char {c₀ : Cursor} (hc : c = c₀.readUTF8Char input)
    (hsuccess : c₀.success = true) (hbyte : byte = 0x3e ∨ byte = 0x3f) (hchar : c.currentChar = byte)
    (hlines : c.lineOffsetsFromBase ≠ []) (hascending : Ascending c.lineOffsetsFromBase) :
    AtSymbol input c byte := by
  rw [hc] at hchar
  obtain ⟨hlt, hat, heq⟩ := readUTF8Char_ascii input hchar (by omega) (by omega) (by omega)
  rw [← hc] at heq
  have hcurrent : c.pCurrent = c₀.pNext := by rw [heq]
  have hnext : c.pNext = c₀.pNext + 1 := by rw [heq]
  exact
    { next := by rw [hnext, hcurrent]
      lt := by rwa [hcurrent]
      byteAt := by rwa [hcurrent]
      ne_lf := by omega
      success := by rw [heq]; exact hsuccess
      lines := hlines
      ascending := hascending }

/-- A symbol that begins with `>` or `?` is left to the scanner. -/
lemma scanFrom_of_symbol {s : Scanning} (h : AtSymbol s.input c byte)
    (hbyte : byte = 0x3e ∨ byte = 0x3f) (hchar : c.currentChar = byte) :
    s.scanFrom pos c = s.scanner.scan s.input s.splitAmbiguousToken pos c := by
  have hterminator : getLineTerminatorLength s.input.text c.pCurrent ≠ 2 := by
    unfold getLineTerminatorLength
    rw [h.byteAt, if_neg h.ne_lf, if_neg (by omega)]
    decide
  unfold scanFrom
  rw [hchar, if_neg (by omega), if_neg (by omega), if_neg hterminator]

/-- What splitting can change: nothing, or a symbol that begins with `>` or `?`, of which only the
first character is taken. -/
lemma scanFrom_cases (s s' : Scanning)
    (hscanner : s.scanner = other.scanner ∧ s'.scanner = s.scanner) (hinput : s'.input = s.input)
    (hflag : s.splitAmbiguousToken = false) {c₀ : Cursor} (hc : c = c₀.readUTF8Char s.input) (hsuccess : c₀.success = true)
    (hlines : c.lineOffsetsFromBase ≠ []) (hascending : Ascending c.lineOffsetsFromBase)
    (pos : Position) :
    (s'.scanFrom pos c = s.scanFrom pos c ∧ (s'.splitAmbiguousToken = true →
        c.currentChar ≠ 0x3e ∧ c.currentChar ≠ 0x3f)) ∨
      ∃ (byte : ℕ) (u : Cursor), (byte = 0x3e ∨ byte = 0x3f) ∧ c.currentChar = byte ∧
        s'.splitAmbiguousToken = true ∧ AtSymbol s.input c byte ∧ Registers c u ∧
        s.scanFrom pos c = getSymbolToken s.input c.pCurrent pos u ∧
        s'.scanFrom pos c = getSymbolToken s.input c.pCurrent pos c ∧
        (c.pNext < s.input.text.length ∧ c.pNext < u.pNext ∨ u = c ∨
          u = (c.readUTF8Char s.input).back) := by
  cases hsplit : s'.splitAmbiguousToken with
  | false =>
    refine Or.inl ⟨?_, fun h => Bool.noConfusion h⟩
    unfold scanFrom
    rw [hinput, hscanner.2, hflag, hsplit]
  | true =>
    by_cases hgt : c.currentChar = 0x3e
    · have hat : AtSymbol s.input c 0x3e :=
        atSymbol_of_readUTF8Char hc hsuccess (Or.inl rfl) hgt hlines hascending
      have hat' : AtSymbol s'.input c 0x3e := by rwa [hinput]
      refine Or.inr ⟨0x3e, c.scanSymbolGreaterThan s.input false, Or.inl rfl, hgt, rfl, hat,
        c.registers_scanSymbolGreaterThan s.input false, ?_, ?_, ?_⟩
      · rw [scanFrom_of_symbol hat (Or.inl rfl) hgt, hscanner.1, hflag]
        exact if_pos hgt
      · rw [scanFrom_of_symbol hat' (Or.inl rfl) hgt, hscanner.2, hscanner.1, hsplit, hinput]
        exact if_pos hgt
      · exact (scanSymbolGreaterThan_cases s.input c).imp_right Or.inr
    · by_cases hquest : c.currentChar = 0x3f
      · have hat : AtSymbol s.input c 0x3f :=
          atSymbol_of_readUTF8Char hc hsuccess (Or.inr rfl) hquest hlines hascending
        have hat' : AtSymbol s'.input c 0x3f := by rwa [hinput]
        refine Or.inr ⟨0x3f, c.scanSymbolQuest s.input false, Or.inr rfl, hquest, rfl, hat,
          c.registers_scanSymbolQuest s.input false, ?_, ?_, ?_⟩
        · rw [scanFrom_of_symbol hat (Or.inr rfl) hquest, hscanner.1, hflag]
          exact (if_neg hgt).trans (if_pos hquest)
        · rw [scanFrom_of_symbol hat' (Or.inr rfl) hquest, hscanner.2, hscanner.1, hsplit, hinput]
          exact (if_neg hgt).trans (if_pos hquest)
        · exact (scanSymbolQuest_cases s.input c).imp_right Or.inl
      · refine Or.inl ⟨?_, fun _ => ⟨hgt, hquest⟩⟩
        unfold scanFrom
        rw [hinput, hscanner.2, hscanner.1, hflag, hsplit]
        have hscan : ∀ split, other.scanner.scan s.input split pos c =
            other.scan s.input false pos c :=
          fun split => (if_neg hgt).trans (if_neg hquest)
        rw [hscan, hscan]

/-! ## States that go on in the same way -/

/-- Two states of a text from which the same first character is read. -/
structure SameRest (other : OtherScanner) (s s' : Scanning) : Prop where
  text : s.enableScan = true ∧ s'.enableScan = true
  input : s'.input = s.input
  scanner : s.scanner = other.scanner ∧ s'.scanner = s.scanner
  pNext : s'.cursor.pNext = s.cursor.pNext
  firstChar : s'.skipBlanks.firstChar = s.skipBlanks.firstChar
  lines : s.cursor.lineOffsetsFromBase ≠ []
  ascending : Ascending s.cursor.lineOffsetsFromBase

lemma firstChar_lines {s : Scanning} (hlines : s.cursor.lineOffsetsFromBase ≠ [])
    (h : Ascending s.cursor.lineOffsetsFromBase) :
    s.firstChar.lineOffsetsFromBase ≠ [] ∧ Ascending s.firstChar.lineOffsetsFromBase := by
  have hregisters := registers_readUTF8Char s.input { s.cursor with success := true }
  obtain ⟨more, hmore, -⟩ := hregisters.later
  refine ⟨?_, hregisters.ascending h⟩
  unfold firstChar
  rw [hmore]
  exact List.append_ne_nil_of_left_ne_nil hlines _

lemma scanFrom_lines (s : Scanning) (pos : Position) (hscanner : s.scanner = other.scanner)
    (hlines : c.lineOffsetsFromBase ≠ []) (h : Ascending c.lineOffsetsFromBase) :
    (s.scanFrom pos c).2.lineOffsetsFromBase ≠ [] ∧
      Ascending (s.scanFrom pos c).2.lineOffsetsFromBase := by
  have hprefix := other.scanner.keepsLines s.input s.splitAmbiguousToken pos c
  unfold scanFrom
  rw [hscanner]
  split_ifs
  · exact ⟨hlines, h⟩
  · exact ⟨hlines, h⟩
  · exact ⟨hlines, h⟩
  · refine ⟨fun hnil => hlines ?_, other.scanToken_ascending h⟩
    rw [hnil] at hprefix
    exact List.prefix_nil.mp hprefix

lemma firstChar_eq_of_lines {s s' : Scanning} (hinput : s'.input = s.input)
    (hnext : s'.cursor.pNext = s.cursor.pNext)
    (hlines : s'.cursor.lineOffsetsFromBase = s.cursor.lineOffsetsFromBase) :
    s'.skipBlanks.firstChar = s.skipBlanks.firstChar := by
  unfold firstChar skipBlanks
  dsimp only
  rw [hinput, hnext]
  exact readUTF8Char_congr s.input rfl hlines rfl

/-- A blank registers no line. -/
lemma readUTF8Char_lines_of_blank {c : Cursor} (hlt : c.pNext < input.text.length)
    (h : isBlank input.text[c.pNext] = true) :
    (c.readUTF8Char input).lineOffsetsFromBase = c.lineOffsetsFromBase := by
  have hbyte : byteAt input.text c.pNext = (input.text[c.pNext]).toNat := by
    rw [byteAt, List.getD_eq_getElem _ _ hlt]
  have hterminator : getLineTerminatorLength input.text c.pNext = 0 := by
    unfold getLineTerminatorLength
    rw [hbyte]
    simp only [isBlank, Bool.or_eq_true, beq_iff_eq] at h
    rcases h with (h | h) | h <;> rw [h] <;> rfl
  rcases readUTF8Char_cases input c with hend | ⟨c₁, hlines, hcurrent, -, hread, -⟩ | ⟨hlines, -⟩
  · omega
  · rw [hread]
    rcases tryRegisterLineOffset_cases input c₁ with hsame | ⟨hpos, -, -⟩
    · rw [hsame, hlines]
    · rw [hcurrent, hterminator] at hpos
      exact absurd hpos (lt_irrefl _)
  · exact hlines

/-- The character that was read too far is read again. -/
lemma firstChar_eq_of_again {s s' : Scanning} (hinput : s'.input = s.input)
    (hnext : s'.cursor.pNext = s.cursor.pNext)
    (hlines : s.cursor.lineOffsetsFromBase =
      (({ s'.cursor with success := true }).readUTF8Char s.input).lineOffsetsFromBase) :
    s'.skipBlanks.firstChar = s.skipBlanks.firstChar := by
  rcases hblanks : (s.input.text.drop s.cursor.pNext).takeWhile isBlank with _ | ⟨blank, blanks⟩
  · unfold firstChar skipBlanks
    dsimp only
    rw [hinput, hnext, hblanks, List.length_nil, Nat.add_zero]
    symm
    refine readUTF8Char_again s.input ?_ ?_ ?_
    · rfl
    · rfl
    rw [hlines]
    exact congrArg Cursor.lineOffsetsFromBase (readUTF8Char_congr s.input hnext rfl rfl)
  · refine firstChar_eq_of_lines hinput hnext ?_
    have hlt : s.cursor.pNext < s.input.text.length := by
      by_contra hend
      rw [List.drop_eq_nil_of_le (Nat.not_lt.mp hend)] at hblanks
      exact absurd hblanks (by simp)
    have hblank : isBlank s.input.text[s.cursor.pNext] = true := by
      rw [List.drop_eq_getElem_cons hlt, List.takeWhile_cons] at hblanks
      split_ifs at hblanks with h
      exact h
    rw [hlines]
    refine (readUTF8Char_lines_of_blank (c := { s'.cursor with success := true }) ?_ ?_).symm
    · rw [← hnext] at hlt
      exact hlt
    · simp only [hnext]
      exact hblank

/-- The character that a token begins with. -/
def nextChar (s : Scanning) : ℤ := s.skipBlanks.firstChar.currentChar

lemma scanFrom_kind_ne_end (s : Scanning) (pos : Position) (h : c.currentChar ≠ -1) :
    (s.scanFrom pos c).1.kind ≠ .END := by
  unfold scanFrom
  rw [if_neg h]
  split_ifs
  · exact TokenKind.noConfusion
  · exact TokenKind.noConfusion
  · exact s.scanner.notEnd _ _ _ _

/-- The states after the same token. -/
lemma SameRest.next {s s' : Scanning} (h : SameRest other s s') {c c' : Cursor} {pos pos' : Position}
    {split split' : Bool} (hnext : c'.pNext = c.pNext)
    (hlines : c.lineOffsetsFromBase ≠ [] ∧ Ascending c.lineOffsetsFromBase)
    (hagain : c'.lineOffsetsFromBase = c.lineOffsetsFromBase ∨ c.lineOffsetsFromBase =
      (({ c' with success := true }).readUTF8Char s.input).lineOffsetsFromBase) :
    SameRest other { s.setSplit split with cursor := c, pos := pos }
      { s'.setSplit split' with cursor := c', pos := pos' } where
  text := h.text
  input := h.input
  scanner := h.scanner
  pNext := hnext
  firstChar := by
    rcases hagain with hlines | hagain
    · exact firstChar_eq_of_lines h.input hnext hlines
    · exact firstChar_eq_of_again h.input hnext hagain
  lines := hlines.1
  ascending := hlines.2

/-- A symbol of one character that is scanned with another cursor. -/
lemma again_of_symbol {input : LexerInput} {c u c' u' : Cursor} {byte : ℕ}
    (h : AtSymbol input c byte) (hu : u = c ∨ u = (c.readUTF8Char input).back)
    (hc' : c'.pNext = c.pNext ∧ c'.lineOffsetsFromBase = c.lineOffsetsFromBase)
    (hu' : u'.lineOffsetsFromBase = u.lineOffsetsFromBase) :
    c'.lineOffsetsFromBase = u'.lineOffsetsFromBase ∨ u'.lineOffsetsFromBase =
      (({ c' with success := true }).readUTF8Char input).lineOffsetsFromBase := by
  rcases hu with rfl | rfl
  · exact Or.inl (hc'.2.trans hu'.symm)
  · refine Or.inr (hu'.trans ?_)
    have hread : ({ c' with success := true }).readUTF8Char input = c.readUTF8Char input :=
      readUTF8Char_congr input hc'.1 hc'.2 h.success.symm
    exact (congrArg Cursor.lineOffsetsFromBase hread).symm

/-- A token of which splitting takes the first character only. -/
def IsSplit (ch : ℤ) (t : Token) : Prop := ch = 0x3e ∧ t.kind ≠ .GT ∨ ch = 0x3f ∧ t.kind ≠ .QUEST

/-- A symbol is the same token when only its first character is taken, or it is split. -/
lemma symbol_cases (pos : Position) (h : AtSymbol input c byte) (hbyte : byte = 0x3e ∨ byte = 0x3f)
    (hregisters : Registers c u)
    (hu : c.pNext < input.text.length ∧ c.pNext < u.pNext ∨ u = c ∨
      u = (c.readUTF8Char input).back) :
    (u.pNext = c.pNext ∧ (u = c ∨ u = (c.readUTF8Char input).back) ∧
        (getSymbolToken input c.pCurrent pos u).1 = (getSymbolToken input c.pCurrent pos c).1 ∧
        ¬ IsSplit byte (getSymbolToken input c.pCurrent pos u).1) ∨
      IsSplit byte (getSymbolToken input c.pCurrent pos u).1 ∧
        1 < (getSymbolToken input c.pCurrent pos u).1.value.length ∧
        (getSymbolToken input c.pCurrent pos c).1.value.length = 1 ∧
        ∀ halves, lookupAmbiTokenDeg (getSymbolToken input c.pCurrent pos u).1.kind = some halves →
          (getSymbolToken input c.pCurrent pos u).1.endPos ≠
            (getSymbolToken input c.pCurrent pos c).1.endPos := by
  obtain ⟨hgt, hquest, hlength⟩ := h.getSymbolToken_kind pos
  by_cases hsame : u.pNext = c.pNext
  · have htoken := h.getSymbolToken_eq pos hregisters hsame
    refine Or.inl ⟨hsame, hu.resolve_left fun hlonger => ?_, htoken, ?_⟩
    · exact absurd hsame (ne_of_gt hlonger.2)
    · rw [htoken]
      rintro (⟨hch, hne⟩ | ⟨hch, hne⟩)
      · exact hne (hgt (Int.ofNat_inj.mp hch))
      · exact hne (hquest (Int.ofNat_inj.mp hch))
  · -- More characters were taken, or illegal bytes were eaten up.
    obtain ⟨hlonger, hmore⟩ : c.pNext < input.text.length ∧ c.pNext < u.pNext := by
      rcases hu with hu | rfl | rfl
      · exact hu
      · exact absurd rfl hsame
      · refine ⟨?_, lt_of_le_of_ne (readUTF8Char_le input c).1 (Ne.symm hsame)⟩
        by_contra hover
        exact hsame (by rw [readUTF8Char_of_end input c (Nat.not_lt.mp hover)]; rfl)
    obtain ⟨hlong, hends⟩ := h.getSymbolToken_ne pos hregisters hlonger hmore
    have hkind : ∀ kind, kind = TokenKind.GT ∨ kind = .QUEST →
        (getSymbolToken input c.pCurrent pos u).1.kind ≠ kind := by
      rintro kind hkind rfl
      exact absurd (length_of_getSymbolToken_kind hkind) (ne_of_gt hlong)
    have hend : (getSymbolToken input c.pCurrent pos c).1.endPos = c.getPos input c.pNext := by
      unfold getSymbolToken
      dsimp only
      split_ifs <;> rfl
    refine Or.inr ⟨?_, hlong, hlength, fun halves hhalves => ?_⟩
    · rcases hbyte with rfl | rfl
      · exact Or.inl ⟨rfl, hkind _ (Or.inl rfl)⟩
      · exact Or.inr ⟨rfl, hkind _ (Or.inr rfl)⟩
    · rw [hend]
      exact hends halves hhalves

/-- What scanning the same rest without splitting and with some flag can do: end, deliver the same
token, or split it. -/
lemma SameRest.scan_cases {s s' : Scanning} (h : SameRest other s s') (split : Bool) :
    ((s.setSplit false).scan.1.kind = .END ∧ (s'.setSplit split).scan.1.kind = .END) ∨
      (s.setSplit false).scan.1.kind ≠ .END ∧ (s'.setSplit split).scan.1.kind ≠ .END ∧
        ((s'.setSplit split).scan.1 = (s.setSplit false).scan.1 ∧
            SameRest other (s.setSplit false).scan.2 (s'.setSplit split).scan.2 ∧
            (split = true → ¬ IsSplit s.nextChar (s.setSplit false).scan.1) ∨
          split = true ∧ IsSplit s.nextChar (s.setSplit false).scan.1 ∧
            1 < (s.setSplit false).scan.1.value.length ∧
            (s'.setSplit split).scan.1.value.length = 1 ∧
            ∀ halves, lookupAmbiTokenDeg (s.setSplit false).scan.1.kind = some halves →
              (s.setSplit false).scan.1.endPos ≠ (s'.setSplit split).scan.1.endPos) := by
  by_cases hend : s.input.text.length ≤ s.cursor.pNext
  · refine Or.inl ⟨scan_of_end h.text.1 hend, scan_of_end h.text.2 ?_⟩
    change s'.input.text.length ≤ s'.cursor.pNext
    rwa [h.input, h.pNext]
  · have hlt : s.cursor.pNext < s.input.text.length := Nat.not_le.mp hend
    have hlt' : s'.cursor.pNext < s'.input.text.length := by rwa [h.input, h.pNext]
    have hpos : s'.nextPos = s.nextPos := by
      unfold nextPos
      rw [h.firstChar, h.input]
      unfold skipBlanks
      dsimp only
      rw [h.input, h.pNext]
    have hscan : (s.setSplit false).scan =
        (((s.setSplit false).scanFrom s.nextPos s.skipBlanks.firstChar).1,
          { s.setSplit false with
            cursor := ((s.setSplit false).scanFrom s.nextPos s.skipBlanks.firstChar).2
            pos := s.nextPos }) := scan_eq h.text.1 hlt
    have hscan' : (s'.setSplit split).scan =
        (((s'.setSplit split).scanFrom s.nextPos s.skipBlanks.firstChar).1,
          { s'.setSplit split with
            cursor := ((s'.setSplit split).scanFrom s.nextPos s.skipBlanks.firstChar).2
            pos := s.nextPos }) := by
      rw [← hpos, ← h.firstChar]
      exact scan_eq h.text.2 hlt'
    obtain ⟨hlines, hascending⟩ : s.skipBlanks.firstChar.lineOffsetsFromBase ≠ [] ∧
        Ascending s.skipBlanks.firstChar.lineOffsetsFromBase :=
      firstChar_lines (s := s.skipBlanks) h.lines h.ascending
    have hread : s.skipBlanks.firstChar =
        ({ s.skipBlanks.cursor with success := true }).readUTF8Char s.input := rfl
    have hnext := scanFrom_lines (s.setSplit false) s.nextPos h.scanner.1 hlines hascending
    rw [hscan, hscan']
    rcases scanFrom_cases (s.setSplit false) (s'.setSplit split) h.scanner h.input rfl hread rfl
        hlines hascending s.nextPos with ⟨heq, hchar⟩ |
      ⟨byte, u, hbyte, hchar, hsplit, hat, hregisters, hwhole, hfirst, hu⟩
    · rw [heq]
      by_cases hlast : s.skipBlanks.firstChar.currentChar = -1
      · refine Or.inl ⟨?_, ?_⟩ <;> unfold scanFrom <;> rw [if_pos hlast] <;> rfl
      · refine Or.inr ⟨scanFrom_kind_ne_end _ _ hlast, scanFrom_kind_ne_end _ _ hlast,
          Or.inl ⟨rfl, ?_, fun hsplit => ?_⟩⟩
        · exact h.next rfl hnext (Or.inl rfl)
        · obtain ⟨hgt, hquest⟩ := hchar hsplit
          rintro (⟨hch, -⟩ | ⟨hch, -⟩)
          · exact hgt hch
          · exact hquest hch
    · rw [hwhole] at hnext
      rw [hwhole, hfirst]
      have hcursor := getSymbolToken_cursor s.input s.skipBlanks.firstChar.pCurrent s.nextPos
      refine Or.inr ⟨getSymbolToken_kind_ne_end _ _ _ _, getSymbolToken_kind_ne_end _ _ _ _, ?_⟩
      rcases symbol_cases s.nextPos hat hbyte hregisters hu with
        ⟨hsame, hback, htoken, hwhole⟩ | ⟨hsplits, hlong, hlength, hends⟩
      · refine Or.inl ⟨htoken.symm, ?_, fun _ => ?_⟩
        · refine h.next ?_ hnext ?_
          · exact (hcursor _).1.trans (hsame.symm.trans (hcursor _).1.symm)
          · exact again_of_symbol hat hback (hcursor _) (hcursor _).2
        · rw [nextChar, hchar]
          exact hwhole
      · refine Or.inr ⟨hsplit, ?_, hlong, hlength, hends⟩
        rw [nextChar, hchar]
        exact hsplits

end Scanning

end Cangjie
