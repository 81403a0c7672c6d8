import CangjieCompiler.Lex.Backtracking
import CangjieCompiler.Lex.LineOffsets
import CangjieCompiler.Lex.Utf8Decoding
import Mathlib

/-!
# Positions are exact

While it scans, the lexer reads characters, goes over the bytes of identifiers and blanks, goes back,
and saves and restores its state.  Whatever the order, the lines seen so far are those that begin in
the part of the text that was read, each of them once, and so the position of an offset of this part
is found by counting line feeds.  Only the end of a text that ends a line has a position of its own,
one column after the begin of the last line terminator.

Ill-formed bytes can hide a line feed, so the text is the encoding of characters here.
-/

namespace Cangjie

/-! ## Lines -/

/-- The offset of a line other than the first one. -/
def IsLineStart (text : List UInt8) (offset : ℕ) : Prop :=
  0 < offset ∧ byteAt text (offset - 1) = 0x0a

instance (text : List UInt8) (offset : ℕ) : Decidable (IsLineStart text offset) :=
  inferInstanceAs (Decidable (_ ∧ _))

/-- The number of line terminators before an offset.  Each of them, alone or after a carriage
return, ends with a line feed. -/
def lineCount (text : List UInt8) : ℕ → ℕ
  | 0 => 0
  | offset + 1 => lineCount text offset + if byteAt text offset = 0x0a then 1 else 0

/-- The offset after the last line terminator before an offset. -/
def lineStart (text : List UInt8) : ℕ → ℕ
  | 0 => 0
  | offset + 1 => if byteAt text offset = 0x0a then offset + 1 else lineStart text offset

/-- The position of an offset by the line terminators before it. -/
def exactPos (input : LexerInput) (offset : ℕ) : Position where
  fileID := input.posBase.fileID
  line := input.posBase.line + BitVec.ofNat 32 (lineCount input.text offset)
  column := (if lineCount input.text offset = 0 then input.posBase.column else 1) +
    BitVec.ofNat 32 (offset - lineStart input.text offset)

/-- The begin of the line terminator at the end of a text. -/
def lastTerminator (text : List UInt8) : ℕ :=
  if 2 ≤ text.length ∧ byteAt text (text.length - 2) = 0x0d then text.length - 2
  else text.length - 1

/-- The position that is given for an offset. -/
def givenPos (input : LexerInput) (offset : ℕ) : Position :=
  if offset = input.text.length ∧ IsLineStart input.text offset then
    (exactPos input (lastTerminator input.text)).advance 1
  else exactPos input offset

/-- The lines that begin in the part of a text up to an offset. -/
structure Exact (text : List UInt8) (lines : List ℕ) (scanned : ℕ) : Prop where
  ascending : Cursor.Ascending lines
  mem_iff : ∀ x, x ∈ lines ↔ x = 0 ∨ IsLineStart text x ∧ x ≤ scanned

variable {text : List UInt8} {lines : List ℕ} {scanned : ℕ}

lemma Exact.start : Exact text [0] 0 where
  ascending := List.pairwise_singleton _ _
  mem_iff x := by
    rw [List.mem_singleton]
    exact ⟨Or.inl, fun h => h.elim id fun h => Nat.le_zero.mp h.2⟩

/-- Bytes other than line feeds begin no line. -/
lemma Exact.extend (h : Exact text lines scanned) {scanned' : ℕ} (hle : scanned ≤ scanned')
    (hbytes : ∀ k, scanned ≤ k → k < scanned' → byteAt text k ≠ 0x0a) :
    Exact text lines scanned' where
  ascending := h.ascending
  mem_iff x := by
    rw [h.mem_iff]
    refine or_congr_right (and_congr_right fun hstart => ⟨fun hx => hx.trans hle, fun hx => ?_⟩)
    by_contra hlt
    exact hbytes (x - 1) (by omega) (by have := hstart.1; omega) hstart.2

lemma mem_le_getLastD (h : Cursor.Ascending lines) {x : ℕ} (hx : x ∈ lines) :
    x ≤ lines.getLastD 0 := by
  have hall := Cursor.countP_eq_length_of_last h (le_refl (lines.getLastD 0))
  exact of_decide_eq_true (List.countP_eq_length.mp hall x hx)

lemma Exact.getLastD_le (h : Exact text lines scanned) : lines.getLastD 0 ≤ scanned := by
  rcases List.eq_nil_or_concat lines with rfl | ⟨init, last, rfl⟩
  · exact Nat.zero_le _
  · rw [List.concat_eq_append, List.getLastD_concat]
    have hlast := (h.mem_iff last).mp (by simp)
    rcases hlast with rfl | hlast
    · exact Nat.zero_le _
    · exact hlast.2

/-- The line that begins after a line feed. -/
lemma Exact.register (h : Exact text lines scanned) {start : ℕ} (hstart : IsLineStart text start)
    (hlt : scanned < start)
    (hbytes : ∀ k, scanned ≤ k → k < start - 1 → byteAt text k ≠ 0x0a) :
    Exact text (lines ++ [start]) start where
  ascending := Cursor.ascending_concat h.ascending (h.getLastD_le.trans_lt hlt)
  mem_iff x := by
    have hbefore : Exact text lines (start - 1) := h.extend (by omega) hbytes
    rw [List.mem_append, List.mem_singleton, hbefore.mem_iff, or_assoc]
    refine or_congr_right ⟨?_, fun hx => ?_⟩
    · rintro (hx | rfl)
      · exact ⟨hx.1, by omega⟩
      · exact ⟨hstart, le_rfl⟩
    · rcases hx.2.lt_or_eq with hxlt | rfl
      · exact Or.inl ⟨hx.1, by omega⟩
      · exact Or.inr rfl

/-- The line of an offset in the part that was read. -/
lemma Exact.lineOf_eq (h : Exact text lines scanned) {offset : ℕ} (hoffset : offset ≤ scanned) :
    lines.countP (fun x => decide (x ≤ offset)) = lineCount text offset + 1 := by
  have hnodup : lines.Nodup := h.ascending.imp fun hlt => ne_of_lt hlt
  have hzero : 0 ∈ lines := (h.mem_iff 0).mpr (Or.inl rfl)
  induction offset with
  | zero =>
    have hcount : lines.countP (fun x => decide (x ≤ 0)) = lines.count 0 := by
      rw [List.count_eq_countP]
      refine List.countP_congr fun x _ => ?_
      simp
    rw [hcount, List.count_eq_one_of_mem hnodup hzero]
    rfl
  | succ offset ih =>
    rw [Cursor.countP_le_succ, ih (by omega), lineCount]
    split_ifs with hlf
    · have hmem : offset + 1 ∈ lines :=
        (h.mem_iff _).mpr (Or.inr ⟨⟨Nat.succ_pos _, hlf⟩, hoffset⟩)
      rw [List.count_eq_one_of_mem hnodup hmem]
    · have hnot : offset + 1 ∉ lines := by
        rw [h.mem_iff]
        rintro (hx | hx)
        · exact absurd hx (Nat.succ_ne_zero _)
        · exact hlf hx.1.2
      rw [List.count_eq_zero_of_not_mem hnot]

variable (text) in
lemma lineStart_le (offset : ℕ) : lineStart text offset ≤ offset := by
  induction offset with
  | zero => exact le_rfl
  | succ offset ih =>
    rw [lineStart]
    split_ifs
    · exact le_rfl
    · exact ih.trans (Nat.le_succ _)

variable (text) in
/-- The last line that begins before an offset. -/
lemma lineStart_spec (offset : ℕ) :
    (lineStart text offset = 0 ∨ IsLineStart text (lineStart text offset)) ∧
      ∀ x, IsLineStart text x → x ≤ offset → x ≤ lineStart text offset := by
  induction offset with
  | zero => exact ⟨Or.inl rfl, fun x hx hle => hle⟩
  | succ offset ih =>
    rw [lineStart]
    split_ifs with hlf
    · exact ⟨Or.inr ⟨Nat.succ_pos _, hlf⟩, fun x _ hle => hle⟩
    · refine ⟨ih.1, fun x hx hle => ih.2 x hx ?_⟩
      rcases hle.lt_or_eq with hlt | rfl
      · omega
      · exact absurd hx.2 hlf

/-- In an ascending list the elements up to a bound end with the greatest of them. -/
lemma getD_countP (h : Cursor.Ascending lines) {bound x : ℕ} (hx : x ∈ lines) (hle : x ≤ bound)
    (hgreatest : ∀ y ∈ lines, y ≤ bound → y ≤ x) :
    lines.getD (lines.countP (fun y => decide (y ≤ bound)) - 1) 0 = x := by
  induction lines with
  | nil => exact absurd hx List.not_mem_nil
  | cons y lines ih =>
    obtain ⟨hfirst, hrest⟩ := List.pairwise_cons.mp h
    rcases List.mem_cons.mp hx with rfl | hmem
    · -- All others are beyond the bound.
      have hzero : lines.countP (fun y => decide (y ≤ bound)) = 0 := by
        rw [List.countP_eq_zero]
        intro y hy hyle
        have hbefore := hgreatest y (List.mem_cons_of_mem _ hy) (of_decide_eq_true hyle)
        exact absurd (hfirst y hy) (Nat.not_lt.mpr hbefore)
      rw [List.countP_cons_of_pos (by simpa using hle), hzero]
      rfl
    · have hy : y ≤ bound := (hfirst x hmem).le.trans hle
      have hpos : 0 < lines.countP (fun y => decide (y ≤ bound)) :=
        List.countP_pos_iff.mpr ⟨x, hmem, decide_eq_true hle⟩
      have hrec := ih hrest hmem fun z hz => hgreatest z (List.mem_cons_of_mem _ hz)
      rw [List.countP_cons_of_pos (by simpa using hy), Nat.add_sub_cancel,
        ← Nat.sub_add_cancel hpos, List.getD_cons_succ]
      exact hrec

/-- The begin of the line of an offset in the part that was read. -/
lemma Exact.getD_eq (h : Exact text lines scanned) {offset : ℕ} (hoffset : offset ≤ scanned) :
    lines.getD (lineCount text offset) 0 = lineStart text offset := by
  obtain ⟨hstart, hgreatest⟩ := lineStart_spec text offset
  have hle : lineStart text offset ≤ offset := lineStart_le text offset
  have hmem : lineStart text offset ∈ lines :=
    (h.mem_iff _).mpr (hstart.imp_right fun hx => ⟨hx, hle.trans hoffset⟩)
  have hget := getD_countP h.ascending hmem hle fun y hy hyle => by
    rcases (h.mem_iff y).mp hy with rfl | hy
    · exact Nat.zero_le _
    · exact hgreatest y hy.1 hyle
  rwa [h.lineOf_eq hoffset, Nat.add_sub_cancel] at hget

/-! ## Positions -/

lemma lineCount_pos {offset : ℕ} (h : IsLineStart text offset) : 0 < lineCount text offset := by
  obtain ⟨offset, rfl⟩ := Nat.exists_eq_succ_of_ne_zero (Nat.pos_iff_ne_zero.mp h.1)
  have hlf : byteAt text offset = 0x0a := h.2
  rw [Nat.succ_eq_add_one, lineCount, if_pos hlf]
  exact Nat.succ_pos _

/-- The line terminator at the end of a text is on the line before. -/
lemma lastTerminator_spec (h : IsLineStart text text.length) :
    lastTerminator text < text.length ∧
      lineCount text text.length = lineCount text (lastTerminator text) + 1 ∧
      (lastTerminator text + 1 = text.length ∨
        lastTerminator text + 2 = text.length ∧ byteAt text (lastTerminator text) = 0x0d) := by
  obtain ⟨hpos, hlf⟩ := h
  unfold lastTerminator
  split_ifs with hcr
  · obtain ⟨last, hlast⟩ : ∃ last, text.length = last + 2 := ⟨text.length - 2, by omega⟩
    rw [hlast] at hlf hcr ⊢
    have hfirst : byteAt text last = 0x0d := hcr.2
    have hsecond : byteAt text (last + 1) = 0x0a := hlf
    refine ⟨by omega, ?_, Or.inr ⟨rfl, hfirst⟩⟩
    rw [lineCount, lineCount, if_pos hsecond, Nat.add_sub_cancel, hfirst]
    rfl
  · obtain ⟨last, hlast⟩ : ∃ last, text.length = last + 1 := ⟨text.length - 1, by omega⟩
    rw [hlast] at hlf ⊢
    have hbyte : byteAt text last = 0x0a := hlf
    refine ⟨by omega, ?_, Or.inl rfl⟩
    rw [lineCount, if_pos hbyte, Nat.add_sub_cancel]

lemma ofNat_sub_ofNat {a b : ℕ} (h : a ≤ b) :
    BitVec.ofNat 32 b - BitVec.ofNat 32 a = BitVec.ofNat 32 (b - a) := by
  rw [sub_eq_iff_eq_add, ← BitVec.ofNat_add, Nat.sub_add_cancel h]

namespace Cursor

/-- The position of an offset, when the lines in front of it were seen. -/
lemma getPos_eq_givenPos (input : LexerInput) {c : Cursor}
    (h : Exact input.text c.lineOffsetsFromBase scanned) (hscanned : scanned ≤ input.text.length)
    {offset : ℕ} (hoffset : offset ≤ scanned) : c.getPos input offset = givenPos input offset := by
  have hle : offset ≤ input.text.length := hoffset.trans hscanned
  have hloc : (if min offset input.text.length < c.lineOffsetsFromBase.getLastD 0 then
      (c.lineOffsetsFromBase.takeWhile (· ≤ min offset input.text.length)).length - 1
      else c.lineOffsetsFromBase.length - 1) = lineCount input.text offset := by
    rw [Nat.min_eq_left hle, length_takeWhile_of_ascending h.ascending, h.lineOf_eq hoffset]
    split_ifs with hlast
    · rfl
    · rw [← countP_eq_length_of_last h.ascending (Nat.not_lt.mp hlast), h.lineOf_eq hoffset]
      rfl
  unfold getPos
  dsimp only
  rw [hloc, Nat.min_eq_left hle]
  by_cases hend : offset = input.text.length ∧ IsLineStart input.text offset
  · obtain ⟨rfl, hstart⟩ := hend
    obtain ⟨hlt, hcount, hterminator⟩ := lastTerminator_spec hstart
    have hlf := hstart.2
    have hne : lineCount input.text input.text.length ≠ 0 := (lineCount_pos hstart).ne'
    have hbegin : (if (decide (2 ≤ input.text.length) &&
        decide (byteAt input.text (input.text.length - 2) = 0x0d)) = true then
          input.text.length - 1 else input.text.length) = lastTerminator input.text + 1 := by
      unfold lastTerminator
      simp only [Bool.and_eq_true, decide_eq_true_eq]
      have hpos := hstart.1
      split_ifs <;> omega
    have hcolumn : BitVec.ofNat 32 (lastTerminator input.text + 1) -
        BitVec.ofNat 32 (lineStart input.text (lastTerminator input.text)) =
          BitVec.ofNat 32 (lastTerminator input.text -
            lineStart input.text (lastTerminator input.text)) + BitVec.ofNat 32 1 := by
      have hbefore := lineStart_le input.text (lastTerminator input.text)
      rw [ofNat_sub_ofNat (by omega), ← BitVec.ofNat_add]
      congr 1
      omega
    have hgiven : givenPos input input.text.length =
        (exactPos input (lastTerminator input.text)).advance 1 := if_pos ⟨rfl, hstart⟩
    simp only [hstart.1, hlf, hne, ne_eq, not_false_eq_true, and_self, decide_true, Bool.and_true,
      Bool.true_and, if_true]
    rw [hbegin, hcount, Nat.add_sub_cancel, h.getD_eq (by omega), hcolumn, hgiven,
      exactPos, Position.advance, add_assoc]
  · have hinside : ¬(0 < input.text.length ∧ offset = input.text.length ∧
        lineCount input.text offset ≠ 0) ∨ byteAt input.text (offset - 1) ≠ 0x0a := by
      by_contra hnot
      push Not at hnot
      exact hend ⟨hnot.1.2.1, by rw [hnot.1.2.1]; exact hnot.1.1, hnot.2⟩
    rw [givenPos, if_neg hend, exactPos, ← ofNat_sub_ofNat (lineStart_le input.text offset),
      ← h.getD_eq hoffset]
    rcases hinside with hinside | hlf
    · simp only [hinside, decide_false, Bool.false_and, Bool.false_eq_true, if_false]
    · simp only [hlf, decide_false, Bool.and_false, Bool.false_eq_true, if_false]

end Cursor

/-! ## Reading a character -/

/-- A text that encodes characters. -/
def IsEncoded (text : List UInt8) : Prop :=
  ∃ chars : List Char, text = chars.flatMap String.utf8EncodeChar

lemma StartsWith.length_le {offset : ℕ} {ch : Char} (h : StartsWith text offset ch) :
    offset + (String.utf8EncodeChar ch).length ≤ text.length := by
  rw [length_utf8EncodeChar]
  have hcases := startsWith_iff.mp h
  split_ifs <;> omega

lemma StartsWith.continuation {offset : ℕ} {ch : Char} (h : StartsWith text offset ch) {k : ℕ}
    (hpos : 0 < k) (hk : k < (String.utf8EncodeChar ch).length) :
    0x80 ≤ byteAt text (offset + k) ∧ byteAt text (offset + k) < 0xc0 := by
  rw [length_utf8EncodeChar] at hk
  have hle : k ≤ 3 := by
    split_ifs at hk <;> omega
  rcases startsWith_iff.mp h with hone | htwo | hthree | hfour
  · rw [if_pos hone.1] at hk
    omega
  · rw [if_neg (by omega), if_pos htwo.2.1] at hk
    obtain rfl : k = 1 := by omega
    omega
  · rw [if_neg (by omega), if_neg (by omega), if_pos hthree.2.1] at hk
    obtain rfl | rfl : k = 1 ∨ k = 2 := by omega
    · omega
    · omega
  · obtain rfl | rfl | rfl : k = 1 ∨ k = 2 ∨ k = 3 := by omega
    · omega
    · omega
    · omega

/-- A first byte of several in a text that encodes characters is the first one of a character. -/
lemma IsEncoded.exists_startsWith (htext : IsEncoded text) {offset : ℕ}
    (hlead : BYTE_2_FLAG ≤ byteAt text offset) : ∃ ch, StartsWith text offset ch := by
  obtain ⟨chars, rfl⟩ := htext
  induction chars generalizing offset with
  | nil => exact absurd hlead (by rw [List.flatMap_nil, byteAt, List.getD_nil]; decide)
  | cons ch chars ih =>
    rw [List.flatMap_cons] at hlead ⊢
    have hfirst : StartsWith (String.utf8EncodeChar ch ++ chars.flatMap String.utf8EncodeChar) 0 ch :=
      List.prefix_append _ _
    rcases Nat.lt_or_ge offset (String.utf8EncodeChar ch).length with hlt | hge
    · rcases Nat.eq_zero_or_pos offset with rfl | hpos
      · exact ⟨ch, hfirst⟩
      · have hcontinuation := (hfirst.continuation hpos hlt).2
        rw [Nat.zero_add] at hcontinuation
        exact absurd hlead (Nat.not_le.mpr hcontinuation)
    · obtain ⟨rest, rfl⟩ := Nat.exists_eq_add_of_le hge
      rw [byteAt, List.getD_append_right _ _ _ _ hge, Nat.add_sub_cancel_left] at hlead
      obtain ⟨ch', hch'⟩ := ih hlead
      refine ⟨ch', ?_⟩
      rw [StartsWith, List.drop_append, List.drop_eq_nil_of_le hge, List.nil_append,
        Nat.add_sub_cancel_left]
      exact hch'

namespace Cursor

/-- Reading a character of one byte. -/
lemma readUTF8Char_single (input : LexerInput) (c : Cursor) (hinside : c.pNext < input.text.length)
    (hlead : byteAt input.text c.pNext < BYTE_2_FLAG) :
    (c.readUTF8Char input).pNext =
        c.pNext + (if getLineTerminatorLength input.text c.pNext = 2 then 2 else 1) ∧
      (c.readUTF8Char input).lineOffsetsFromBase =
        if 0 < getLineTerminatorLength input.text c.pNext ∧
            c.lineOffsetsFromBase.getLastD 0 < (c.readUTF8Char input).pNext then
          c.lineOffsetsFromBase ++ [(c.readUTF8Char input).pNext]
        else c.lineOffsetsFromBase := by
  have hstep : (if byteAt input.text c.pNext = 0x0d ∧ c.pNext + 1 < input.text.length ∧
      byteAt input.text (c.pNext + 1) = 0x0a then 2 else 1) =
        if getLineTerminatorLength input.text c.pNext = 2 then 2 else 1 :=
    if_congr getLineTerminatorLength_eq_two_iff.symm rfl rfl
  unfold readUTF8Char
  dsimp only
  rw [if_neg (Nat.not_le.mpr hinside), if_pos hlead, hstep]
  obtain ⟨-, hnext, -⟩ := Scanning.tryRegisterLineOffset_pNext input
    { c with
      pCurrent := c.pNext
      currentChar := byteAt input.text c.pNext
      pNext := c.pNext + if getLineTerminatorLength input.text c.pNext = 2 then 2 else 1
      success := c.success && decide (byteAt input.text c.pNext < BYTE_X_FLAG) }
  refine ⟨hnext, ?_⟩
  rw [hnext]
  unfold tryRegisterLineOffset
  dsimp only
  by_cases hterminator : 0 < getLineTerminatorLength input.text c.pNext
  · simp only [hterminator, if_true, true_and]
    split_ifs <;> rfl
  · simp only [hterminator, if_false, false_and, Nat.not_lt_zero]

/-- Reading a character goes over bytes that are no line feeds, or to the begin of a line. -/
lemma readUTF8Char_lines (input : LexerInput) (htext : IsEncoded input.text) (c : Cursor)
    (hinside : c.pNext < input.text.length) :
    c.pNext ≤ (c.readUTF8Char input).pNext ∧
      (c.readUTF8Char input).pNext ≤ input.text.length ∧
      ((∀ k, c.pNext ≤ k → k < (c.readUTF8Char input).pNext → byteAt input.text k ≠ 0x0a) ∧
          (c.readUTF8Char input).lineOffsetsFromBase = c.lineOffsetsFromBase ∨
        (∀ k, c.pNext ≤ k → k < (c.readUTF8Char input).pNext - 1 → byteAt input.text k ≠ 0x0a) ∧
          IsLineStart input.text (c.readUTF8Char input).pNext ∧
          (c.readUTF8Char input).lineOffsetsFromBase =
            if c.lineOffsetsFromBase.getLastD 0 < (c.readUTF8Char input).pNext then
              c.lineOffsetsFromBase ++ [(c.readUTF8Char input).pNext]
            else c.lineOffsetsFromBase) := by
  by_cases hlead : byteAt input.text c.pNext < BYTE_2_FLAG
  · obtain ⟨hnext, hlines⟩ := readUTF8Char_single input c hinside hlead
    by_cases hcrlf : getLineTerminatorLength input.text c.pNext = 2
    · obtain ⟨hcr, hsecond, hlf⟩ := getLineTerminatorLength_eq_two_iff.mp hcrlf
      rw [if_pos hcrlf] at hnext
      rw [hcrlf] at hlines
      refine ⟨by omega, by omega, Or.inr ⟨fun k hle hlt => ?_, ⟨by omega, ?_⟩, ?_⟩⟩
      · obtain rfl : k = c.pNext := by omega
        rw [hcr]
        decide
      · rw [hnext]
        exact hlf
      · rw [hlines]
        simp only [Nat.zero_lt_two, true_and]
    · rw [if_neg hcrlf] at hnext
      by_cases hlf : byteAt input.text c.pNext = 0x0a
      · have hone : getLineTerminatorLength input.text c.pNext = 1 := if_pos hlf
        rw [hone] at hlines
        refine ⟨by omega, by omega, Or.inr ⟨fun k hle hlt => by omega, ⟨by omega, ?_⟩, ?_⟩⟩
        · rw [hnext]
          exact hlf
        · rw [hlines]
          simp only [Nat.zero_lt_one, true_and]
      · have hzero : getLineTerminatorLength input.text c.pNext = 0 := by
          unfold getLineTerminatorLength at hcrlf ⊢
          rw [if_neg hlf] at hcrlf ⊢
          split_ifs at hcrlf ⊢
          · exact absurd rfl hcrlf
          · rfl
        rw [hzero] at hlines
        refine ⟨by omega, by omega, Or.inl ⟨fun k hle hlt => ?_, ?_⟩⟩
        · obtain rfl : k = c.pNext := by omega
          exact hlf
        · rw [hlines, if_neg fun h => absurd h.1 (lt_irrefl 0)]
  · obtain ⟨ch, hstarts⟩ := htext.exists_startsWith (Nat.not_lt.mp hlead)
    obtain ⟨-, hnext, -⟩ := readUTF8Char_of_startsWith input hstarts
    have hcrlf : getLineTerminatorLength input.text c.pNext ≠ 2 := by
      rw [Ne, getLineTerminatorLength_eq_two_iff]
      rintro ⟨hcr, -⟩
      rw [hcr] at hlead
      exact hlead (by decide)
    rw [offsetAfter, if_neg hcrlf] at hnext
    have hlength := hstarts.length_le
    refine ⟨by omega, by omega, Or.inl ⟨fun k hle hlt => ?_, ?_⟩⟩
    · obtain ⟨n, rfl⟩ := Nat.exists_eq_add_of_le hle
      rcases Nat.eq_zero_or_pos n with rfl | hpos
      · intro hlf
        rw [Nat.add_zero] at hlf
        rw [hlf] at hlead
        exact hlead (by decide)
      · have hcontinuation := (hstarts.continuation hpos (by omega)).1
        omega
    · unfold readUTF8Char
      dsimp only
      rw [if_neg (Nat.not_le.mpr hinside), if_neg hlead]

/-- Reading a character keeps the lines those of the part that was read. -/
lemma exact_readUTF8Char {input : LexerInput} (htext : IsEncoded input.text) {c : Cursor}
    (h : Exact input.text c.lineOffsetsFromBase scanned) (hnext : c.pNext ≤ scanned)
    (hscanned : scanned ≤ input.text.length) :
    Exact input.text (c.readUTF8Char input).lineOffsetsFromBase
        (max scanned (c.readUTF8Char input).pNext) ∧
      max scanned (c.readUTF8Char input).pNext ≤ input.text.length ∧
      ∃ more, (c.readUTF8Char input).lineOffsetsFromBase = c.lineOffsetsFromBase ++ more := by
  rcases Nat.lt_or_ge c.pNext input.text.length with hinside | hend
  · obtain ⟨hadvance, hlength, hlines⟩ := readUTF8Char_lines input htext c hinside
    refine ⟨?_, Nat.max_le.mpr ⟨hscanned, hlength⟩, ?_⟩
    · rcases hlines with ⟨hbytes, hsame⟩ | ⟨hbytes, hstart, hlines⟩
      · rw [hsame]
        exact h.extend (Nat.le_max_left _ _) fun k hle hlt => hbytes k (by omega) (by omega)
      · rcases Nat.lt_or_ge scanned (c.readUTF8Char input).pNext with hnew | hold
        · rw [hlines, if_pos (h.getLastD_le.trans_lt hnew), Nat.max_eq_right hnew.le]
          exact h.register hstart hnew fun k hle hlt => hbytes k (by omega) hlt
        · -- The line was seen before.
          have hmem := (h.mem_iff _).mpr (Or.inr ⟨hstart, hold⟩)
          rw [hlines, if_neg (Nat.not_lt.mpr (mem_le_getLastD h.ascending hmem)),
            Nat.max_eq_left hold]
          exact h
    · rcases hlines with ⟨-, hsame⟩ | ⟨-, -, hlines⟩
      · exact ⟨[], by rw [hsame, List.append_nil]⟩
      · rw [hlines]
        split_ifs
        · exact ⟨_, rfl⟩
        · exact ⟨[], (List.append_nil _).symm⟩
  · rw [Scanning.readUTF8Char_of_end input c hend]
    refine ⟨?_, Nat.max_le.mpr ⟨hscanned, hnext.trans hscanned⟩, [], (List.append_nil _).symm⟩
    rw [Nat.max_eq_left hnext]
    exact h

end Cursor

/-! ## Runs of the lexer -/

/-- The lexer with another place in the text. -/
def LexerImpl.withCursor (l : LexerImpl) (c : Cursor) : LexerImpl :=
  { l with scanning := { l.scanning with cursor := c } }

/-- A lexer, the end of the part of the text that it read, and this end at the reset point.  Going
back to the reset point takes the reading since then back. -/
structure Reading where
  lexer : LexerImpl
  scanned : ℕ
  resetScanned : Option ℕ

namespace Reading

def cursor (r : Reading) : Cursor := r.lexer.scanning.cursor

def input (r : Reading) : LexerInput := r.lexer.scanning.input

/-- What the lexer does to its place in the text, in any order. -/
inductive Step : Reading → Reading → Prop where
  /-- Reading a character. -/
  | readUTF8Char (r : Reading) :
      Step r
        { r with
          lexer := r.lexer.withCursor (r.cursor.readUTF8Char r.input)
          scanned := max r.scanned (r.cursor.readUTF8Char r.input).pNext }
  /-- A new token, or a diagnostic. -/
  | success (r : Reading) (success : Bool) :
      Step r { r with lexer := r.lexer.withCursor { r.cursor with success := success } }
  /-- Going back to the begin of the current character. -/
  | back (r : Reading) :
      Step r { r with lexer := r.lexer.withCursor { r.cursor with pNext := r.cursor.pCurrent } }
  /-- Going back to a place that was read: the dot of a number, or the begin of a raw string. -/
  | goBack (r : Reading) (pCurrent pNext : ℕ) (hcurrent : pCurrent ≤ pNext)
      (hnext : pNext ≤ r.scanned) :
      Step r
        { r with lexer := r.lexer.withCursor { r.cursor with pCurrent := pCurrent, pNext := pNext } }
  /-- Going over blanks, or over the bytes of an identifier or a suffix, none of them a line feed.
  -/
  | goOver (r : Reading) (pCurrent pNext : ℕ) (currentChar : ℤ) (hcurrent : pCurrent ≤ pNext)
      (hadvance : r.cursor.pNext ≤ pNext) (hinside : pNext ≤ r.input.text.length)
      (hbytes : ∀ k, r.cursor.pNext ≤ k → k < pNext → byteAt r.input.text k ≠ 0x0a) :
      Step r
        { r with
          lexer := r.lexer.withCursor
            { r.cursor with pCurrent := pCurrent, pNext := pNext, currentChar := currentChar }
          scanned := max r.scanned pNext }
  /-- Looking ahead, or taking a token that was looked at. -/
  | lookAhead (r : Reading) (lookAheadCache : List Token) :
      Step r { r with lexer := { r.lexer with lookAheadCache := lookAheadCache } }
  | setResetPoint (r : Reading) :
      Step r { r with lexer := r.lexer.setResetPoint, resetScanned := some r.scanned }
  /-- Going back to the reset point, when there is one. -/
  | reset (r : Reading) (resetScanned : ℕ) (hset : r.resetScanned = some resetScanned) :
      Step r { r with lexer := r.lexer.reset, scanned := resetScanned }

/-- The lexer of a text before it reads. -/
def start (scanner : TokenScanner) (input : LexerInput) (split : Bool) : Reading where
  lexer := LexerImpl.ofText scanner input split
  scanned := 0
  resetScanned := none

/-- What holds whatever the lexer did. -/
structure Sound (input : LexerInput) (r : Reading) : Prop where
  sameInput : r.input = input
  current_le : r.cursor.pCurrent ≤ r.scanned
  next_le : r.cursor.pNext ≤ r.scanned
  scanned_le : r.scanned ≤ input.text.length
  exact : Exact input.text r.cursor.lineOffsetsFromBase r.scanned
  saved : ∀ resetScanned, r.resetScanned = some resetScanned →
    r.lexer.pResetCurrent ≤ resetScanned ∧ r.lexer.pResetNext ≤ resetScanned ∧
      resetScanned ≤ input.text.length ∧
      r.lexer.lineResetOffsetsFromBase ≤ r.cursor.lineOffsetsFromBase.length ∧
      Exact input.text (r.cursor.lineOffsetsFromBase.take r.lexer.lineResetOffsetsFromBase)
        resetScanned

variable {input : LexerInput} {r r' : Reading}

lemma Sound.start (scanner : TokenScanner) (split : Bool) :
    Sound input (start scanner input split) where
  sameInput := rfl
  current_le := le_rfl
  next_le := le_rfl
  scanned_le := Nat.zero_le _
  exact := Exact.start
  saved _ h := absurd h (Option.some_ne_none _).symm

/-- A step keeps it. -/
lemma Sound.step (htext : IsEncoded input.text) (h : Sound input r) (hstep : Step r r') :
    Sound input r' := by
  obtain ⟨hinput, hcurrent, hnext, hscanned, hexact, hsaved⟩ := h
  cases hstep with
  | readUTF8Char =>
    subst hinput
    obtain ⟨hread, hlength, more, hmore⟩ := Cursor.exact_readUTF8Char htext hexact hnext hscanned
    have hbegin : (r.cursor.readUTF8Char r.input).pCurrent ≤
        (r.cursor.readUTF8Char r.input).pNext := (Cursor.readUTF8Char_le r.input r.cursor).2
    refine ⟨rfl, hbegin.trans (Nat.le_max_right _ _), Nat.le_max_right _ _, hlength, hread, ?_⟩
    intro resetScanned hset
    obtain ⟨hresetCurrent, hresetNext, hresetLe, hlines, hreset⟩ := hsaved resetScanned hset
    refine ⟨hresetCurrent, hresetNext, hresetLe, ?_, ?_⟩
    · change _ ≤ (r.cursor.readUTF8Char r.input).lineOffsetsFromBase.length
      rw [hmore, List.length_append]
      exact Nat.le_add_right_of_le hlines
    · change Exact _ ((r.cursor.readUTF8Char r.input).lineOffsetsFromBase.take
        r.lexer.lineResetOffsetsFromBase) _
      rw [hmore, List.take_append_of_le_length hlines]
      exact hreset
  | success => exact ⟨hinput, hcurrent, hnext, hscanned, hexact, hsaved⟩
  | back => exact ⟨hinput, hcurrent, hcurrent, hscanned, hexact, hsaved⟩
  | goBack pCurrent pNext hle hback =>
    exact ⟨hinput, hle.trans hback, hback, hscanned, hexact, hsaved⟩
  | goOver pCurrent pNext currentChar hle hadvance hinside hbytes =>
    subst hinput
    refine ⟨rfl, hle.trans (Nat.le_max_right _ _), Nat.le_max_right _ _,
      Nat.max_le.mpr ⟨hscanned, hinside⟩, ?_, hsaved⟩
    refine hexact.extend (Nat.le_max_left _ _) fun k hfrom hto => hbytes k ?_ ?_
    · exact hnext.trans hfrom
    · exact (lt_max_iff.mp hto).resolve_left (Nat.not_lt.mpr hfrom)
  | lookAhead => exact ⟨hinput, hcurrent, hnext, hscanned, hexact, hsaved⟩
  | setResetPoint =>
    refine ⟨hinput, hcurrent, hnext, hscanned, hexact, fun resetScanned hset => ?_⟩
    obtain rfl := Option.some.inj hset
    refine ⟨hcurrent, hnext, hscanned, le_rfl, ?_⟩
    change Exact _ (r.cursor.lineOffsetsFromBase.take r.cursor.lineOffsetsFromBase.length) _
    rw [List.take_length]
    exact hexact
  | reset resetScanned hset =>
    obtain ⟨hresetCurrent, hresetNext, hresetLe, hlines, hreset⟩ := hsaved resetScanned hset
    refine ⟨hinput, hresetCurrent, hresetNext, hresetLe, hreset, fun resetScanned' hset' => ?_⟩
    obtain rfl := Option.some.inj (hset.symm.trans hset')
    refine ⟨hresetCurrent, hresetNext, hresetLe, ?_, ?_⟩
    · change _ ≤ (r.cursor.lineOffsetsFromBase.take r.lexer.lineResetOffsetsFromBase).length
      rw [List.length_take, Nat.min_eq_left hlines]
      exact le_rfl
    · change Exact _ ((r.cursor.lineOffsetsFromBase.take r.lexer.lineResetOffsetsFromBase).take
        r.lexer.lineResetOffsetsFromBase) _
      rw [List.take_take, Nat.min_self]
      exact hreset

/-- A letter and a line feed. -/
def lineInput : LexerInput := ⟨[0x61, 0x0a], ⟨0, 1, 1⟩⟩

lemma isEncoded_lineInput : IsEncoded lineInput.text := ⟨['a', Char.ofNat 0x0a], by decide⟩

/-- The lexer after a number of characters of a text. -/
def afterChars (scanner : TokenScanner) (input : LexerInput) (split : Bool) : ℕ → Reading
  | 0 => start scanner input split
  | n + 1 =>
    let r := afterChars scanner input split n
    { r with
      lexer := r.lexer.withCursor (r.cursor.readUTF8Char r.input)
      scanned := max r.scanned (r.cursor.readUTF8Char r.input).pNext }

lemma run_afterChars (scanner : TokenScanner) (input : LexerInput) (split : Bool) (n : ℕ) :
    Relation.ReflTransGen Step (start scanner input split) (afterChars scanner input split n) := by
  induction n with
  | zero => exact Relation.ReflTransGen.refl
  | succ n ih => exact ih.tail (Step.readUTF8Char _)

end Reading

end Cangjie
