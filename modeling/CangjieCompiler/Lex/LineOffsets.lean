import CangjieCompiler.Lex.LexerImpl
import Mathlib.Data.List.GetD
import Mathlib.Data.List.Nodup

/-!
# Positions and the lines seen so far

The offsets of the lines seen so far are ascending, and reading a character registers at most one
line, which begins after the character.  Lines that begin later do not change a position, so that a
position is the same before and after more characters are read, and positions of near offsets
differ.
-/

namespace Cangjie

namespace Cursor

/-- The lines seen so far begin one after the other. -/
def Ascending (lines : List ℕ) : Prop := lines.Pairwise (· < ·)

/-- The number of the line with an offset. -/
def lineOf (lines : List ℕ) (offset : ℕ) : ℕ := lines.countP (fun x => decide (x ≤ offset)) - 1

/-! ## Counting lines -/

lemma length_takeWhile_of_ascending {lines : List ℕ} (h : Ascending lines) (offset : ℕ) :
    (lines.takeWhile (· ≤ offset)).length = lines.countP (fun x => decide (x ≤ offset)) := by
  induction lines with
  | nil => rfl
  | cons x lines ih =>
    obtain ⟨hfirst, hrest⟩ := List.pairwise_cons.mp h
    by_cases hx : x ≤ offset
    · rw [List.takeWhile_cons, if_pos (decide_eq_true hx), List.length_cons, ih hrest,
        List.countP_cons_of_pos (by simpa using hx)]
    · have hzero : lines.countP (fun y => decide (y ≤ offset)) = 0 := by
        rw [List.countP_eq_zero]
        intro y hy
        have hlt := hfirst y hy
        simpa using (Nat.not_le.mp hx).trans hlt
      rw [List.takeWhile_cons, if_neg (by simpa using hx), List.countP_cons_of_neg (by simpa using hx),
        hzero]
      rfl

lemma countP_eq_length_of_last {lines : List ℕ} (h : Ascending lines) {offset : ℕ}
    (hlast : lines.getLastD 0 ≤ offset) :
    lines.countP (fun x => decide (x ≤ offset)) = lines.length := by
  rw [List.countP_eq_length]
  intro x hx
  rw [decide_eq_true_eq]
  refine le_trans ?_ hlast
  rcases List.eq_nil_or_concat lines with rfl | ⟨init, last, rfl⟩
  · exact absurd hx List.not_mem_nil
  · rw [List.concat_eq_append] at h hx ⊢
    rw [List.getLastD_concat]
    rcases List.mem_append.mp hx with hinit | hlast
    · exact ((List.pairwise_append.mp h).2.2 x hinit last (List.mem_singleton_self last)).le
    · exact (List.mem_singleton.mp hlast).le

/-- Lines that begin after an offset do not change its line. -/
lemma lineOf_append {lines more : List ℕ} {offset : ℕ} (h : ∀ x ∈ more, offset < x) :
    lineOf (lines ++ more) offset = lineOf lines offset := by
  have hmore : more.countP (fun x => decide (x ≤ offset)) = 0 := by
    rw [List.countP_eq_zero]
    intro x hx
    simpa using h x hx
  rw [lineOf, lineOf, List.countP_append, hmore, Nat.add_zero]

lemma lineOf_lt {lines : List ℕ} (h : lines ≠ []) (offset : ℕ) :
    lineOf lines offset < lines.length := by
  have hpos : 0 < lines.length := List.length_pos_iff.mpr h
  have hle : lines.countP (fun x => decide (x ≤ offset)) ≤ lines.length := List.countP_le_length
  unfold lineOf
  omega

lemma countP_le_succ (lines : List ℕ) (b : ℕ) :
    lines.countP (fun x => decide (x ≤ b + 1)) =
      lines.countP (fun x => decide (x ≤ b)) + lines.count (b + 1) := by
  induction lines with
  | nil => rfl
  | cons x lines ih =>
    rw [List.countP_cons, List.countP_cons, List.count_cons, ih]
    simp only [decide_eq_true_eq, beq_iff_eq]
    split_ifs <;> omega

/-- From one offset to another one there are at most as many lines as bytes. -/
lemma lineOf_le_add {lines : List ℕ} (h : Ascending lines) (a n : ℕ) :
    lineOf lines a ≤ lineOf lines (a + n) ∧ lineOf lines (a + n) ≤ lineOf lines a + n := by
  have hcount : ∀ x, lines.count x ≤ 1 :=
    List.nodup_iff_count_le_one.mp (h.imp fun hlt => ne_of_lt hlt)
  have hbound : lines.countP (fun x => decide (x ≤ a)) ≤ lines.countP (fun x => decide (x ≤ a + n)) ∧
      lines.countP (fun x => decide (x ≤ a + n)) ≤
        lines.countP (fun x => decide (x ≤ a)) + n := by
    induction n with
    | zero => exact ⟨le_rfl, le_rfl⟩
    | succ n ih =>
      have hstep := countP_le_succ lines (a + n)
      have hone := hcount (a + n + 1)
      rw [← Nat.add_assoc, hstep]
      omega
  unfold lineOf
  omega

/-! ## Positions -/

/-- The position of an offset that does not follow a line feed. -/
lemma getPos_of_ne_lf (input : LexerInput) {c : Cursor} (h : Ascending c.lineOffsetsFromBase)
    {current : ℕ} (hlf : byteAt input.text (current - 1) ≠ 0x0a) :
    c.getPos input current =
      { fileID := input.posBase.fileID
        line := input.posBase.line +
          BitVec.ofNat 32 (lineOf c.lineOffsetsFromBase (min current input.text.length))
        column :=
          (if lineOf c.lineOffsetsFromBase (min current input.text.length) = 0 then
            input.posBase.column else 1) +
            (BitVec.ofNat 32 (min current input.text.length) -
              BitVec.ofNat 32 (c.lineOffsetsFromBase.getD
                (lineOf c.lineOffsetsFromBase (min current input.text.length)) 0)) } := by
  have hloc : (if min current input.text.length < c.lineOffsetsFromBase.getLastD 0 then
      (c.lineOffsetsFromBase.takeWhile (· ≤ min current input.text.length)).length - 1
      else c.lineOffsetsFromBase.length - 1) =
        lineOf c.lineOffsetsFromBase (min current input.text.length) := by
    unfold lineOf
    split_ifs with hlast
    · rw [length_takeWhile_of_ascending h]
    · rw [countP_eq_length_of_last h (Nat.not_lt.mp hlast)]
  unfold getPos
  dsimp only
  rw [hloc]
  simp only [hlf, decide_false, Bool.and_false, Bool.false_eq_true, if_false]

/-- Lines that begin after an offset do not change its position. -/
lemma getPos_append (input : LexerInput) {c c' : Cursor} {more : List ℕ}
    (h : Ascending c'.lineOffsetsFromBase) (hlines : c'.lineOffsetsFromBase = c.lineOffsetsFromBase ++ more)
    (hne : c.lineOffsetsFromBase ≠ []) {current : ℕ} (hmore : ∀ x ∈ more, current < x)
    (hlf : byteAt input.text (current - 1) ≠ 0x0a) :
    c'.getPos input current = c.getPos input current := by
  have hascending : Ascending c.lineOffsetsFromBase := by
    rw [hlines] at h
    exact (List.pairwise_append.mp h).1
  have hlineOf : lineOf c'.lineOffsetsFromBase (min current input.text.length) =
      lineOf c.lineOffsetsFromBase (min current input.text.length) := by
    rw [hlines]
    exact lineOf_append fun x hx => (Nat.min_le_left _ _).trans_lt (hmore x hx)
  have hgetD : c'.lineOffsetsFromBase.getD
      (lineOf c.lineOffsetsFromBase (min current input.text.length)) 0 =
        c.lineOffsetsFromBase.getD
          (lineOf c.lineOffsetsFromBase (min current input.text.length)) 0 := by
    rw [hlines, List.getD_append _ _ _ _ (lineOf_lt hne _)]
  rw [getPos_of_ne_lf input h hlf, getPos_of_ne_lf input hascending hlf, hlineOf, hgetD]

/-- Near offsets have different positions. -/
lemma getPos_ne (input : LexerInput) {c : Cursor} (h : Ascending c.lineOffsetsFromBase)
    {a current n : ℕ} (ha : a ≤ input.text.length) (hcurrent : min current input.text.length = a + n)
    (hpos : 0 < n) (hn : n < 2 ^ 32) (hlf : byteAt input.text (a - 1) ≠ 0x0a)
    (hlf' : byteAt input.text (current - 1) ≠ 0x0a) :
    c.getPos input a ≠ c.getPos input current := by
  obtain ⟨hmono, hle⟩ := lineOf_le_add h a n
  rw [getPos_of_ne_lf input h hlf, getPos_of_ne_lf input h hlf', hcurrent, Nat.min_eq_left ha]
  intro heq
  have hline := congrArg Position.line heq
  have hcolumn := congrArg Position.column heq
  dsimp only at hline hcolumn
  have hsame : lineOf c.lineOffsetsFromBase a = lineOf c.lineOffsetsFromBase (a + n) := by
    have hmod := congrArg BitVec.toNat (BitVec.add_right_inj _ |>.mp hline)
    rw [BitVec.toNat_ofNat, BitVec.toNat_ofNat] at hmod
    omega
  rw [← hsame] at hcolumn
  have hmod := congrArg BitVec.toNat
    ((BitVec.sub_left_inj _).mp ((BitVec.add_right_inj _).mp hcolumn))
  rw [BitVec.toNat_ofNat, BitVec.toNat_ofNat] at hmod
  omega

/-! ## Reading a character -/

lemma readUTF8Char_le (input : LexerInput) (c : Cursor) :
    c.pNext ≤ (c.readUTF8Char input).pCurrent ∧
      (c.readUTF8Char input).pCurrent ≤ (c.readUTF8Char input).pNext := by
  by_cases hend : input.text.length ≤ c.pNext
  · rw [Scanning.readUTF8Char_of_end input c hend]
    exact ⟨le_rfl, le_rfl⟩
  · obtain ⟨hcurrent, hnext⟩ := Scanning.readUTF8Char_advances input c (Nat.not_le.mp hend)
    exact ⟨hcurrent, hnext.le⟩

lemma tryRegisterLineOffset_cases (input : LexerInput) (c : Cursor) :
    c.tryRegisterLineOffset input = c ∨
      0 < getLineTerminatorLength input.text c.pCurrent ∧ c.lineOffsetsFromBase.getLastD 0 < c.pNext ∧
        c.tryRegisterLineOffset input =
          { c with lineOffsetsFromBase := c.lineOffsetsFromBase ++ [c.pNext] } := by
  unfold tryRegisterLineOffset
  dsimp only
  by_cases hterminator : 0 < getLineTerminatorLength input.text c.pCurrent
  · rw [if_pos hterminator]
    by_cases hlast : c.lineOffsetsFromBase.getLastD 0 < c.pNext
    · rw [if_pos hlast]
      exact Or.inr ⟨hterminator, hlast, rfl⟩
    · rw [if_neg hlast]
      exact Or.inl rfl
  · rw [if_neg hterminator, if_neg (Nat.not_lt_zero _)]
    exact Or.inl rfl

/-- What reading a character does: nothing at the end of the text, one step over an ASCII character,
or reading several bytes, which registers no line. -/
lemma readUTF8Char_cases (input : LexerInput) (c : Cursor) :
    input.text.length ≤ c.pNext ∨
      (∃ c₁ : Cursor, c₁.lineOffsetsFromBase = c.lineOffsetsFromBase ∧ c₁.pCurrent = c.pNext ∧
        c.pNext < c₁.pNext ∧ c.readUTF8Char input = c₁.tryRegisterLineOffset input ∧
        ∀ c' : Cursor, c'.pNext = c.pNext → c'.success = c.success →
          c'.readUTF8Char input = ({ c₁ with
            lineOffsetsFromBase := c'.lineOffsetsFromBase }).tryRegisterLineOffset input) ∨
      (c.readUTF8Char input).lineOffsetsFromBase = c.lineOffsetsFromBase ∧
        ∀ c' : Cursor, c'.pNext = c.pNext → c'.success = c.success →
          c'.readUTF8Char input = { c.readUTF8Char input with
            lineOffsetsFromBase := c'.lineOffsetsFromBase } := by
  refine (le_or_gt input.text.length c.pNext).imp_right fun hend => ?_
  by_cases hascii : byteAt input.text c.pNext < BYTE_2_FLAG
  · let step := if byteAt input.text c.pNext = 0x0d ∧ c.pNext + 1 < input.text.length ∧
      byteAt input.text (c.pNext + 1) = 0x0a then 2 else 1
    have hstep : 0 < step := by
      unfold step
      split_ifs <;> decide
    refine Or.inl ⟨{ c with
      pCurrent := c.pNext
      currentChar := byteAt input.text c.pNext
      pNext := c.pNext + step
      success := c.success && decide (byteAt input.text c.pNext < BYTE_X_FLAG) }, rfl, rfl,
      Nat.lt_add_of_pos_right hstep, ?_, ?_⟩
    · unfold readUTF8Char
      dsimp only
      rw [if_neg (Nat.not_le.mpr hend), if_pos hascii]
    · intro c' hnext hsuccess
      unfold readUTF8Char
      dsimp only
      rw [hnext, hsuccess, if_neg (Nat.not_le.mpr hend), if_pos hascii]
  · refine Or.inr ⟨?_, ?_⟩
    · unfold readUTF8Char
      dsimp only
      rw [if_neg (Nat.not_le.mpr hend), if_neg hascii]
    · intro c' hnext hsuccess
      unfold readUTF8Char
      dsimp only
      rw [hnext, hsuccess, if_neg (Nat.not_le.mpr hend), if_neg hascii, if_neg (Nat.not_le.mpr hend),
        if_neg hascii]

/-- New lines begin after the place that was read from, and the lines remain ascending. -/
structure Registers (c c' : Cursor) : Prop where
  ascending : Ascending c.lineOffsetsFromBase → Ascending c'.lineOffsetsFromBase
  later : ∃ more, c'.lineOffsetsFromBase = c.lineOffsetsFromBase ++ more ∧ ∀ x ∈ more, c.pNext < x

lemma Registers.refl (c : Cursor) : Registers c c :=
  ⟨fun h => h, [], (List.append_nil _).symm, fun _ hx => absurd hx List.not_mem_nil⟩

lemma Registers.trans {c c' c'' : Cursor} (h : Registers c c') (h' : Registers c' c'')
    (hnext : c.pNext ≤ c'.pNext) : Registers c c'' := by
  obtain ⟨more, hlines, hmore⟩ := h.later
  obtain ⟨more', hlines', hmore'⟩ := h'.later
  refine ⟨fun hc => h'.ascending (h.ascending hc), more ++ more', ?_, fun x hx => ?_⟩
  · rw [hlines', hlines, List.append_assoc]
  · rcases List.mem_append.mp hx with hx | hx
    · exact hmore x hx
    · exact hnext.trans_lt (hmore' x hx)

lemma ascending_concat {lines : List ℕ} (h : Ascending lines) {offset : ℕ}
    (hlast : lines.getLastD 0 < offset) : Ascending (lines ++ [offset]) := by
  refine List.pairwise_append.mpr ⟨h, List.pairwise_singleton _ _, fun x hx y hy => ?_⟩
  rw [List.mem_singleton.mp hy]
  refine lt_of_le_of_lt ?_ hlast
  have hall := countP_eq_length_of_last h (le_refl (lines.getLastD 0))
  exact of_decide_eq_true (List.countP_eq_length.mp hall x hx)

lemma registers_readUTF8Char (input : LexerInput) (c : Cursor) :
    Registers c (c.readUTF8Char input) := by
  rcases readUTF8Char_cases input c with hend | ⟨c₁, hlines, -, hnext, hread, -⟩ | ⟨hlines, -⟩
  · rw [Scanning.readUTF8Char_of_end input c hend]
    exact ⟨fun h => h, [], (List.append_nil _).symm, fun _ hx => absurd hx List.not_mem_nil⟩
  · rw [hread]
    rcases tryRegisterLineOffset_cases input c₁ with hsame | ⟨-, hlast, hsame⟩
    · rw [hsame]
      exact ⟨fun h => by rwa [hlines], [], by rw [hlines, List.append_nil],
        fun _ hx => absurd hx List.not_mem_nil⟩
    · rw [hsame]
      rw [hlines] at hlast ⊢
      refine ⟨fun h => ascending_concat h hlast, _, rfl, fun x hx => ?_⟩
      rw [List.mem_singleton.mp hx]
      exact hnext
  · exact ⟨fun h => by rwa [hlines], [], by rw [hlines, List.append_nil],
      fun _ hx => absurd hx List.not_mem_nil⟩

/-- A character that is read again from the same place registers nothing more. -/
lemma readUTF8Char_again (input : LexerInput) {c c' : Cursor} (hnext : c'.pNext = c.pNext)
    (hsuccess : c'.success = c.success)
    (hlines : c'.lineOffsetsFromBase = (c.readUTF8Char input).lineOffsetsFromBase) :
    c'.readUTF8Char input = c.readUTF8Char input := by
  rcases readUTF8Char_cases input c with hend | ⟨c₁, -, -, -, hread, hagain⟩ | ⟨-, hagain⟩
  · rw [Scanning.readUTF8Char_of_end input c hend] at hlines ⊢
    rw [Scanning.readUTF8Char_of_end input c' (by rwa [hnext])]
    cases c
    cases c'
    simp_all
  · rw [hagain c' hnext hsuccess, hread]
    rw [hread] at hlines
    rcases tryRegisterLineOffset_cases input c₁ with hsame | ⟨-, -, hsame⟩
    · rw [hlines, hsame, hsame]
    · rw [hsame] at hlines ⊢
      rw [hlines]
      -- The line that was registered is the last one now.
      rcases tryRegisterLineOffset_cases input
          { c₁ with lineOffsetsFromBase := c₁.lineOffsetsFromBase ++ [c₁.pNext] } with
        hsame' | ⟨-, hlast, -⟩
      · exact hsame'
      · rw [List.getLastD_concat] at hlast
        exact absurd hlast (lt_irrefl _)
  · rw [hagain c' hnext hsuccess, hlines]

end Cursor

end Cangjie
