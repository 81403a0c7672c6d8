import CangjieCompiler.Lex.Token
import Mathlib

/-!
# Positions as strings

The symbol index keeps the positions of symbols as strings of a fixed width: file, line and column
in decimal digits, filled up with zeros on the left (`posToStr`).  The widths only grow, with the
package that is analysed (`PosLimits.updatePosLimit`).

Within the widths the string order is the order by file, line and column
(`posToStr_lt_posToStr_iff`).
-/

namespace Cangjie

/-! ## Positions -/

namespace Position

/-- `operator<`: by line and column, whatever the file. -/
instance : LT Position := ⟨fun p q =>
  p.line.toInt < q.line.toInt ∨
    (p.line.toInt = q.line.toInt ∧ p.column.toInt < q.column.toInt)⟩

/-- `operator<=`. -/
instance : LE Position := ⟨fun p q =>
  p.line.toInt < q.line.toInt ∨
    (p.line.toInt = q.line.toInt ∧ p.column.toInt ≤ q.column.toInt)⟩

theorem lt_iff {p q : Position} :
    p < q ↔ p.line.toInt < q.line.toInt ∨
      (p.line.toInt = q.line.toInt ∧ p.column.toInt < q.column.toInt) := Iff.rfl

theorem le_iff {p q : Position} :
    p ≤ q ↔ p.line.toInt < q.line.toInt ∨
      (p.line.toInt = q.line.toInt ∧ p.column.toInt ≤ q.column.toInt) := Iff.rfl

instance : DecidableRel (α := Position) (· < ·) := fun p q =>
  inferInstanceAs (Decidable (p.line.toInt < q.line.toInt ∨
    (p.line.toInt = q.line.toInt ∧ p.column.toInt < q.column.toInt)))

instance : DecidableRel (α := Position) (· ≤ ·) := fun p q =>
  inferInstanceAs (Decidable (p.line.toInt < q.line.toInt ∨
    (p.line.toInt = q.line.toInt ∧ p.column.toInt ≤ q.column.toInt)))

/-- A position is its three numbers. -/
theorem eq_iff {p q : Position} :
    p = q ↔ p.fileID.toNat = q.fileID.toNat ∧ p.line.toInt = q.line.toInt ∧
      p.column.toInt = q.column.toInt := by
  refine ⟨fun h => by rw [h]; exact ⟨rfl, rfl, rfl⟩, fun ⟨hfile, hline, hcolumn⟩ => ?_⟩
  obtain ⟨pf, pl, pc⟩ := p
  obtain ⟨qf, ql, qc⟩ := q
  rw [mk.injEq]
  exact ⟨BitVec.eq_of_toNat_eq hfile, BitVec.eq_of_toInt_eq hline, BitVec.eq_of_toInt_eq hcolumn⟩

end Position

/-! ## Numbers of a fixed width -/

/-- `FillZero`: a number filled up with zeros on the left, before a sign too. -/
def fillZero (num : ℤ) (len : ℕ) : List Char := (toString num).toList.leftpad len '0'

/-- The lowest digits of a number, as many as asked for. -/
def fixedDigits : ℕ → ℕ → List Char
  | 0, _ => []
  | width + 1, n => fixedDigits width (n / 10) ++ [Nat.digitChar (n % 10)]

theorem length_le_fillZero (num : ℤ) (len : ℕ) : len ≤ (fillZero num len).length := by
  rw [fillZero, List.leftpad, List.length_append, List.length_replicate]
  omega

@[simp]
theorem length_fixedDigits (width n : ℕ) : (fixedDigits width n).length = width := by
  induction width generalizing n with
  | zero => rfl
  | succ width ih => rw [fixedDigits, List.length_append, ih, List.length_singleton]

theorem fixedDigits_zero (width : ℕ) : fixedDigits width 0 = List.replicate width '0' := by
  induction width with
  | zero => rfl
  | succ width ih =>
    rw [fixedDigits, Nat.zero_div, ih, List.replicate_succ']
    rfl

theorem leftpad_append_singleton (width : ℕ) (c d : Char) (l : List Char) :
    (l ++ [d]).leftpad (width + 1) c = l.leftpad width c ++ [d] := by
  rw [List.leftpad, List.leftpad, List.length_append, List.length_singleton, Nat.add_sub_add_right,
    List.append_assoc]

/-- A number that fits is written with exactly the asked number of digits. -/
theorem fillZero_eq_fixedDigits {width n : ℕ} (hwidth : 0 < width) (hn : n < 10 ^ width) :
    fillZero n width = fixedDigits width n := by
  have htext : (toString (n : ℤ)).toList = Nat.toDigits 10 n := Nat.toList_repr
  rw [fillZero, htext]
  clear htext
  induction width generalizing n with
  | zero => exact absurd hwidth (lt_irrefl 0)
  | succ width ih =>
    rw [fixedDigits]
    rcases Nat.lt_or_ge n 10 with hsmall | hlarge
    · rw [Nat.toDigits_of_lt_base hsmall, Nat.div_eq_of_lt hsmall, Nat.mod_eq_of_lt hsmall,
        fixedDigits_zero]
      simp [List.leftpad]
    · have hwidth' : 0 < width := by
        rcases Nat.eq_zero_or_pos width with rfl | h
        · omega
        · exact h
      have hdiv : n / 10 < 10 ^ width := by
        rw [Nat.div_lt_iff_lt_mul (by omega), ← pow_succ]
        exact hn
      rw [Nat.toDigits_of_base_le (by omega) hlarge, leftpad_append_singleton, ih hwidth' hdiv]

theorem digitChar_lt_iff {a b : ℕ} (ha : a < 10) (hb : b < 10) :
    Nat.digitChar a < Nat.digitChar b ↔ a < b := by
  have hall : ∀ x y : Fin 10, Nat.digitChar x < Nat.digitChar y ↔ x < y := by decide
  exact hall ⟨a, ha⟩ ⟨b, hb⟩

theorem digitChar_inj_iff {a b : ℕ} (ha : a < 10) (hb : b < 10) :
    Nat.digitChar a = Nat.digitChar b ↔ a = b := by
  have hall : ∀ x y : Fin 10, Nat.digitChar x = Nat.digitChar y → x = y := by decide
  exact ⟨fun h => congrArg Fin.val (hall ⟨a, ha⟩ ⟨b, hb⟩ h), fun h => by rw [h]⟩

/-- Words of one length in front decide first. -/
theorem append_lt_append_iff {κ : Type} [LinearOrder κ] {a b : List κ} (h : a.length = b.length)
    (c d : List κ) : a ++ c < b ++ d ↔ a < b ∨ (a = b ∧ c < d) := by
  induction a generalizing b with
  | nil =>
    obtain rfl := List.length_eq_zero_iff.mp h.symm
    simp
  | cons x a ih =>
    cases b with
    | nil => cases h
    | cons y b =>
      rw [List.cons_append, List.cons_append, List.cons_lt_cons_iff, List.cons_lt_cons_iff,
        ih (Nat.succ.inj h), List.cons.injEq]
      tauto

/-- Written with one width, numbers are ordered as their digits are. -/
theorem fixedDigits_lt_iff {width m n : ℕ} (hm : m < 10 ^ width) (hn : n < 10 ^ width) :
    (fixedDigits width m < fixedDigits width n ↔ m < n) ∧
      (fixedDigits width m = fixedDigits width n ↔ m = n) := by
  induction width generalizing m n with
  | zero =>
    rw [pow_zero] at hm hn
    obtain rfl : m = 0 := by omega
    obtain rfl : n = 0 := by omega
    simp [fixedDigits]
  | succ width ih =>
    have hdiv : ∀ {k : ℕ}, k < 10 ^ (width + 1) → k / 10 < 10 ^ width := by
      intro k hk
      rw [Nat.div_lt_iff_lt_mul (by omega), ← pow_succ]
      exact hk
    obtain ⟨hlt, heq⟩ := ih (hdiv hm) (hdiv hn)
    have hlen : (fixedDigits width (m / 10)).length = (fixedDigits width (n / 10)).length := by
      rw [length_fixedDigits, length_fixedDigits]
    have hlast := digitChar_lt_iff (Nat.mod_lt m (show 0 < 10 by omega))
      (Nat.mod_lt n (show 0 < 10 by omega))
    have hlast' := digitChar_inj_iff (Nat.mod_lt m (show 0 < 10 by omega))
      (Nat.mod_lt n (show 0 < 10 by omega))
    rw [fixedDigits, fixedDigits, append_lt_append_iff hlen, hlt, heq, List.cons_lt_cons_iff, hlast,
      List.append_eq_append_iff_of_size_eq_left hlen, heq, List.cons.injEq, hlast']
    simp only [List.lt_irrefl, and_false, or_false, and_true]
    omega

/-- The numbers from zero that are written with a number of digits. -/
def Fits (width : ℕ) (num : ℤ) : Prop := 0 ≤ num ∧ num < 10 ^ width

theorem fillZero_eq_of_fits {width : ℕ} (hwidth : 0 < width) {num : ℤ} (h : Fits width num) :
    fillZero num width = fixedDigits width num.toNat ∧ num.toNat < 10 ^ width := by
  have hnat : (num.toNat : ℤ) = num := Int.toNat_of_nonneg h.1
  have hlt : num.toNat < 10 ^ width := by
    have hnum := h.2
    rw [← hnat] at hnum
    exact_mod_cast hnum
  refine ⟨?_, hlt⟩
  conv_lhs => rw [← hnat]
  exact fillZero_eq_fixedDigits hwidth hlt

theorem length_fillZero {width : ℕ} (hwidth : 0 < width) {num : ℤ} (h : Fits width num) :
    (fillZero num width).length = width := by
  rw [(fillZero_eq_of_fits hwidth h).1, length_fixedDigits]

/-- Numbers that fit are ordered as their strings are. -/
theorem fillZero_lt_iff {width : ℕ} (hwidth : 0 < width) {a b : ℤ} (ha : Fits width a)
    (hb : Fits width b) : fillZero a width < fillZero b width ↔ a < b := by
  obtain ⟨hta, hla⟩ := fillZero_eq_of_fits hwidth ha
  obtain ⟨htb, hlb⟩ := fillZero_eq_of_fits hwidth hb
  rw [hta, htb, (fixedDigits_lt_iff hla hlb).1]
  have h1 := ha.1
  have h2 := hb.1
  omega

theorem fillZero_inj {width : ℕ} (hwidth : 0 < width) {a b : ℤ} (ha : Fits width a)
    (hb : Fits width b) : fillZero a width = fillZero b width ↔ a = b := by
  obtain ⟨hta, hla⟩ := fillZero_eq_of_fits hwidth ha
  obtain ⟨htb, hlb⟩ := fillZero_eq_of_fits hwidth hb
  rw [hta, htb, (fixedDigits_lt_iff hla hlb).2]
  have h1 := ha.1
  have h2 := hb.1
  omega

/-! ## Positions within the limits -/

/-- The static limits of `PosSearchApi`: the widths of the three numbers, which never fall below
their initial values. -/
structure PosLimits where
  maxDigitsFile : ℕ
  maxDigitsLine : ℕ
  maxDigitsColumn : ℕ
  four_le_file : 4 ≤ maxDigitsFile
  five_le_line : 5 ≤ maxDigitsLine
  five_le_column : 5 ≤ maxDigitsColumn

namespace PosLimits

/-- The initial limits. -/
def initial : PosLimits := ⟨4, 5, 5, le_rfl, le_rfl, le_rfl⟩

/-- `PosSearchApi::UpdatePosLimit`: the widths grow to those of the greatest numbers of a
package. -/
def updatePosLimit (lim : PosLimits) (fileId line column : BitVec 32) : PosLimits where
  maxDigitsFile := max lim.maxDigitsFile (fillZero fileId.toNat 0).length
  maxDigitsLine := max lim.maxDigitsLine (fillZero line.toInt 0).length
  maxDigitsColumn := max lim.maxDigitsColumn (fillZero column.toInt 0).length
  four_le_file := le_max_of_le_left lim.four_le_file
  five_le_line := le_max_of_le_left lim.five_le_line
  five_le_column := le_max_of_le_left lim.five_le_column

/-- `PosSearchApi::GetMaxDigitsPostion`. -/
def maxDigitsPostion (lim : PosLimits) : ℕ :=
  lim.maxDigitsFile + lim.maxDigitsLine + lim.maxDigitsColumn

/-- The numbers of a position have at most the digits of the limits. -/
structure Within (lim : PosLimits) (p : Position) : Prop where
  file : Fits lim.maxDigitsFile p.fileID.toNat
  line : Fits lim.maxDigitsLine p.line.toInt
  column : Fits lim.maxDigitsColumn p.column.toInt

theorem pos (lim : PosLimits) :
    0 < lim.maxDigitsFile ∧ 0 < lim.maxDigitsLine ∧ 0 < lim.maxDigitsColumn := by
  have hfile := lim.four_le_file
  have hline := lim.five_le_line
  have hcolumn := lim.five_le_column
  omega

end PosLimits

/-- `PosSearchApi::PosToStr`. -/
def posToStr (lim : PosLimits) (pos : Position) : List Char :=
  fillZero pos.fileID.toNat lim.maxDigitsFile ++ fillZero pos.line.toInt lim.maxDigitsLine ++
    fillZero pos.column.toInt lim.maxDigitsColumn

variable {lim : PosLimits}

theorem maxDigitsPostion_le_length (pos : Position) :
    lim.maxDigitsPostion ≤ (posToStr lim pos).length := by
  have hfile := length_le_fillZero pos.fileID.toNat lim.maxDigitsFile
  have hline := length_le_fillZero pos.line.toInt lim.maxDigitsLine
  have hcolumn := length_le_fillZero pos.column.toInt lim.maxDigitsColumn
  rw [posToStr, List.length_append, List.length_append, PosLimits.maxDigitsPostion]
  omega

theorem length_posToStr {p : Position} (hp : lim.Within p) :
    (posToStr lim p).length = lim.maxDigitsPostion := by
  rw [posToStr, List.length_append, List.length_append, length_fillZero lim.pos.1 hp.file,
    length_fillZero lim.pos.2.1 hp.line, length_fillZero lim.pos.2.2 hp.column,
    PosLimits.maxDigitsPostion]

/-- Positions within the limits are ordered by file, line and column as their strings are. -/
theorem posToStr_lt_posToStr_iff {p q : Position} (hp : lim.Within p) (hq : lim.Within q) :
    posToStr lim p < posToStr lim q ↔
      p.fileID.toNat < q.fileID.toNat ∨ (p.fileID.toNat = q.fileID.toNat ∧ p < q) := by
  obtain ⟨hfile, hline, hcolumn⟩ := lim.pos
  have hlen1 : (fillZero p.fileID.toNat lim.maxDigitsFile).length =
      (fillZero q.fileID.toNat lim.maxDigitsFile).length := by
    rw [length_fillZero hfile hp.file, length_fillZero hfile hq.file]
  have hlen2 : (fillZero p.line.toInt lim.maxDigitsLine).length =
      (fillZero q.line.toInt lim.maxDigitsLine).length := by
    rw [length_fillZero hline hp.line, length_fillZero hline hq.line]
  rw [posToStr, posToStr, List.append_assoc, List.append_assoc, append_lt_append_iff hlen1,
    append_lt_append_iff hlen2, fillZero_lt_iff hfile hp.file hq.file,
    fillZero_inj hfile hp.file hq.file, fillZero_lt_iff hline hp.line hq.line,
    fillZero_inj hline hp.line hq.line, fillZero_lt_iff hcolumn hp.column hq.column,
    Position.lt_iff, Nat.cast_lt, Nat.cast_inj]

/-- Positions within the limits have strings of their own. -/
theorem posToStr_inj {p q : Position} (hp : lim.Within p) (hq : lim.Within q) :
    posToStr lim p = posToStr lim q ↔ p = q := by
  refine ⟨fun h => ?_, fun h => by rw [h]⟩
  have hle : ¬ posToStr lim p < posToStr lim q := by rw [h]; exact lt_irrefl _
  have hge : ¬ posToStr lim q < posToStr lim p := by rw [h]; exact lt_irrefl _
  rw [posToStr_lt_posToStr_iff hp hq, Position.lt_iff] at hle
  rw [posToStr_lt_posToStr_iff hq hp, Position.lt_iff] at hge
  rw [Position.eq_iff]
  omega

end Cangjie
