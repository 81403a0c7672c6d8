import CangjieCompiler.Foundations.StableSort
import Mathlib.Data.List.DropRight
import Mathlib.Data.Nat.Notation

/-!
# The composed canonical form

What Unicode says about canonical decomposition and composition, over the data of its characters:
combining classes, full decompositions and composites.  Hangul syllables are decomposed and composed
by arithmetic.

Decomposing what was composed gives back the decomposition, and so composing is idempotent.
-/

namespace Cangjie.Unicode

/-! ## Hangul -/

def SBASE : ℕ := 0xAC00
def LBASE : ℕ := 0x1100
def VBASE : ℕ := 0x1161
def TBASE : ℕ := 0x11A7
def LCOUNT : ℕ := 19
def VCOUNT : ℕ := 21
def TCOUNT : ℕ := 28
def NCOUNT : ℕ := VCOUNT * TCOUNT
def SCOUNT : ℕ := LCOUNT * NCOUNT
def SLAST : ℕ := SBASE + SCOUNT - 1
def LLAST : ℕ := LBASE + LCOUNT - 1
def VLAST : ℕ := VBASE + VCOUNT - 1
def TLAST : ℕ := TBASE + TCOUNT - 1
def TFIRST : ℕ := TBASE + 1

def isHangulSyllable (c : Char) : Bool := decide (SBASE ≤ c.toNat ∧ c.toNat < SBASE + SCOUNT)

/-- A conjoining letter of a syllable. -/
def IsJamo (c : Char) : Prop := LBASE ≤ c.toNat ∧ c.toNat ≤ TLAST

/-- The letters of a syllable. -/
def decomposeHangul (c : Char) : List Char :=
  let sindex := c.toNat - SBASE
  let lindex := sindex / NCOUNT
  let vindex := sindex % NCOUNT / TCOUNT
  let tindex := sindex % TCOUNT
  [Char.ofNat (LBASE + lindex), Char.ofNat (VBASE + vindex)] ++
    if 0 < tindex then [Char.ofNat (TBASE + tindex)] else []

/-- The syllable of two letters, or of a syllable without last letter and a last letter. -/
def composeHangul (a b : Char) : Option Char :=
  if LBASE ≤ a.toNat ∧ a.toNat ≤ LLAST ∧ VBASE ≤ b.toNat ∧ b.toNat ≤ VLAST then
    let lindex := a.toNat - LBASE
    let vindex := b.toNat - VBASE
    let lvindex := lindex * NCOUNT + vindex * TCOUNT
    some (Char.ofNat (SBASE + lvindex))
  else if SBASE ≤ a.toNat ∧ a.toNat ≤ SLAST ∧ TFIRST ≤ b.toNat ∧ b.toNat ≤ TLAST ∧
      (a.toNat - SBASE) % TCOUNT = 0 then
    some (Char.ofNat (a.toNat + b.toNat - TBASE))
  else none

/-! ## The data of characters -/

/-- The byte order mark, which is also a character. -/
def BYTE_ORDER_MARK : Char := Char.ofNat 0xFEFF

/-- The full canonical decomposition of a character, given the table of those that are not Hangul
syllables. -/
def fullDecomposition (decomposed : Char → Option (List Char)) (c : Char) : List Char :=
  if isHangulSyllable c then decomposeHangul c else (decomposed c).getD [c]

/-- The primary composite of two characters, given the table of those that are not Hangul
syllables. -/
def primaryComposite (composition : Char → Char → Option Char) (a b : Char) : Option Char :=
  match composeHangul a b with
  | some h => some h
  | none => composition a b

/-- The tables of Unicode: combining classes, full canonical decompositions and primary composites,
with what the standard guarantees of them. -/
structure UnicodeData where
  ccc : Char → ℕ
  decomposed : Char → Option (List Char)
  composition : Char → Char → Option Char
  ascii : ∀ c, c.toNat ≤ 0x7f → decomposed c = none
  jamo : ∀ c, IsJamo c → decomposed c = none
  syllable_starter : ∀ c, isHangulSyllable c = true → ccc c = 0
  byteOrderMark_starter : ccc BYTE_ORDER_MARK = 0
  byteOrderMark : decomposed BYTE_ORDER_MARK = none
  nonempty : ∀ c ds, decomposed c = some ds → ds ≠ [] ∧ BYTE_ORDER_MARK ∉ ds
  full : ∀ c ds, decomposed c = some ds → ∀ d ∈ ds, fullDecomposition decomposed d = [d]
  composite_starter : ∀ a b p, composition a b = some p → ccc p = 0
  composite_full : ∀ a b p, composition a b = some p → fullDecomposition decomposed p =
    fullDecomposition decomposed a ++ fullDecomposition decomposed b

namespace UnicodeData

variable (D : UnicodeData)

/-- The full canonical decomposition of a character. -/
def decomposition (c : Char) : List Char := fullDecomposition D.decomposed c

/-- The primary composite of two characters. -/
def composite (a b : Char) : Option Char := primaryComposite D.composition a b

/-! ## The normal forms -/

/-- The characters after a run of characters with nonzero class, each maximal run stably sorted by
class. -/
def canonicalOrderFrom (run : List Char) : List Char → List Char
  | [] => stableSort D.ccc run
  | c :: cs =>
    if D.ccc c = 0 then stableSort D.ccc run ++ c :: canonicalOrderFrom [] cs
    else canonicalOrderFrom (run ++ [c]) cs

def canonicalOrder (cs : List Char) : List Char := D.canonicalOrderFrom [] cs

/-- The canonical decomposition of a string. -/
def toNFD (s : List Char) : List Char := D.canonicalOrder (s.flatMap D.decomposition)

/-- A character is blocked from a starter by a character between them. -/
def Blocked (between : List Char) (c : Char) : Prop :=
  ∃ b ∈ between, D.ccc b = 0 ∨ D.ccc c ≤ D.ccc b

instance (between : List Char) (c : Char) : Decidable (D.Blocked between c) :=
  List.decidableBEx (fun b => D.ccc b = 0 ∨ D.ccc c ≤ D.ccc b) between

/-- One step of the composition algorithm: the next character is composed with the last starter
before it unless it is blocked from it. -/
def composeStep (before : List Char) (c : Char) : List Char :=
  let between := before.rtakeWhile fun b => D.ccc b ≠ 0
  let upTo := before.rdropWhile fun b => D.ccc b ≠ 0
  match upTo.getLast? with
  | none => before ++ [c]
  | some starter =>
    if D.Blocked between c then before ++ [c]
    else
      match D.composite starter c with
      | none => before ++ [c]
      | some p => upTo.dropLast ++ p :: between

/-- The composition of a decomposed string. -/
def canonicalCompose (cs : List Char) : List Char := cs.foldl D.composeStep []

/-- The composed canonical form of a string. -/
def toNFC (s : List Char) : List Char := D.canonicalCompose (D.toNFD s)

/-! ## Hangul syllables -/

lemma toNat_ofNat {n : ℕ} (h : n < 0xD800) : (Char.ofNat n).toNat = n := by
  have hvalid : n.isValidChar := Or.inl h
  rw [Char.ofNat, dif_pos hvalid]
  rfl

lemma decomposition_of_jamo {c : Char} (h : IsJamo c) : D.decomposition c = [c] := by
  have hnot : isHangulSyllable c = false := by
    obtain ⟨-, hle⟩ := h
    simp only [TLAST, TBASE, TCOUNT] at hle
    refine decide_eq_false fun hsyllable => ?_
    simp only [SBASE] at hsyllable
    omega
  rw [decomposition, fullDecomposition, hnot, if_neg Bool.false_ne_true, D.jamo c h]
  rfl

/-- The letters of a syllable by the numbers of the letters. -/
lemma decomposition_syllable {l v t : ℕ} (hl : l < LCOUNT) (hv : v < VCOUNT) (ht : t < TCOUNT) :
    D.decomposition (Char.ofNat (SBASE + (l * NCOUNT + v * TCOUNT + t))) =
      [Char.ofNat (LBASE + l), Char.ofNat (VBASE + v)] ++
        if 0 < t then [Char.ofNat (TBASE + t)] else [] := by
  simp only [LCOUNT, VCOUNT, TCOUNT] at hl hv ht
  have hnat : (Char.ofNat (SBASE + (l * NCOUNT + v * TCOUNT + t))).toNat =
      SBASE + (l * NCOUNT + v * TCOUNT + t) := by
    refine toNat_ofNat ?_
    simp only [SBASE, NCOUNT, VCOUNT, TCOUNT]
    omega
  have hsyllable : isHangulSyllable (Char.ofNat (SBASE + (l * NCOUNT + v * TCOUNT + t))) = true := by
    rw [isHangulSyllable, hnat, decide_eq_true_eq]
    simp only [SBASE, SCOUNT, LCOUNT, NCOUNT, VCOUNT, TCOUNT]
    omega
  have hlindex : (l * NCOUNT + v * TCOUNT + t) / NCOUNT = l := by
    simp only [NCOUNT, VCOUNT, TCOUNT]
    omega
  have hvindex : (l * NCOUNT + v * TCOUNT + t) % NCOUNT / TCOUNT = v := by
    simp only [NCOUNT, VCOUNT, TCOUNT]
    omega
  have htindex : (l * NCOUNT + v * TCOUNT + t) % TCOUNT = t := by
    simp only [NCOUNT, VCOUNT, TCOUNT]
    omega
  rw [decomposition, fullDecomposition, hsyllable, if_pos rfl, decomposeHangul, hnat,
    Nat.add_sub_cancel_left, hlindex, hvindex, htindex]

lemma isHangulSyllable_syllable {l v t : ℕ} (hl : l < LCOUNT) (hv : v < VCOUNT)
    (ht : t < TCOUNT) :
    isHangulSyllable (Char.ofNat (SBASE + (l * NCOUNT + v * TCOUNT + t))) = true := by
  simp only [LCOUNT, VCOUNT, TCOUNT] at hl hv ht
  rw [isHangulSyllable, toNat_ofNat, decide_eq_true_eq]
  all_goals
    simp only [SBASE, SCOUNT, LCOUNT, NCOUNT, VCOUNT, TCOUNT]
    omega

/-- A syllable is decomposed into the letters it is composed from. -/
lemma composeHangul_spec {a b p : Char} (h : composeHangul a b = some p) :
    D.decomposition p = D.decomposition a ++ D.decomposition b ∧ isHangulSyllable p = true := by
  rw [composeHangul] at h
  split_ifs at h with hlv hlvt
  · -- two letters
    obtain rfl := Option.some.inj h
    obtain ⟨l, hl⟩ := Nat.exists_eq_add_of_le hlv.1
    obtain ⟨v, hv⟩ := Nat.exists_eq_add_of_le hlv.2.2.1
    have hl' : l < LCOUNT := by
      have hle := hlv.2.1
      simp only [hl, LLAST, LCOUNT, LBASE] at hle ⊢
      omega
    have hv' : v < VCOUNT := by
      have hle := hlv.2.2.2
      simp only [hv, VLAST, VCOUNT, VBASE] at hle ⊢
      omega
    have ha : IsJamo a := by
      simp only [IsJamo, hl, LBASE, TLAST, TBASE, TCOUNT, LCOUNT] at hl' ⊢
      omega
    have hb : IsJamo b := by
      simp only [IsJamo, hv, LBASE, VBASE, TLAST, TBASE, TCOUNT, VCOUNT] at hv' ⊢
      omega
    have htcount : 0 < TCOUNT := by decide
    have hsyllable := isHangulSyllable_syllable hl' hv' htcount
    have hdecomposition := D.decomposition_syllable hl' hv' htcount
    rw [hl, hv, Nat.add_sub_cancel_left, Nat.add_sub_cancel_left]
    rw [Nat.add_zero] at hsyllable hdecomposition
    refine ⟨?_, hsyllable⟩
    rw [hdecomposition, D.decomposition_of_jamo ha, D.decomposition_of_jamo hb, ← hl, ← hv,
      Char.ofNat_toNat, Char.ofNat_toNat]
    rfl
  · -- a syllable and its last letter
    obtain rfl := Option.some.inj h
    obtain ⟨hafirst, halast, hbfirst, hblast, hmod⟩ := hlvt
    obtain ⟨n, hn⟩ := Nat.exists_eq_add_of_le hafirst
    obtain ⟨t, ht⟩ := Nat.exists_eq_add_of_le hbfirst
    rw [hn, Nat.add_sub_cancel_left] at hmod
    have hl : n / NCOUNT < LCOUNT := by
      simp only [hn, SLAST, SBASE, SCOUNT, LCOUNT, NCOUNT, VCOUNT, TCOUNT] at halast ⊢
      omega
    have hv : n % NCOUNT / TCOUNT < VCOUNT := by
      simp only [NCOUNT, VCOUNT, TCOUNT]
      omega
    have ht' : 1 + t < TCOUNT := by
      simp only [ht, TFIRST, TLAST, TBASE, TCOUNT] at hblast ⊢
      omega
    have hsplit : n = n / NCOUNT * NCOUNT + n % NCOUNT / TCOUNT * TCOUNT + 0 := by
      simp only [NCOUNT, VCOUNT, TCOUNT] at hmod ⊢
      omega
    have hb : IsJamo b := by
      simp only [IsJamo, ht, TFIRST, LBASE, TLAST, TBASE, TCOUNT] at ht' ⊢
      omega
    have htcount : 0 < TCOUNT := by decide
    have hwhole : a.toNat + b.toNat - TBASE =
        SBASE + (n / NCOUNT * NCOUNT + n % NCOUNT / TCOUNT * TCOUNT + (1 + t)) := by
      have hsum : a.toNat + b.toNat - TBASE = SBASE + (n + (1 + t)) := by
        simp only [hn, ht, TFIRST]
        omega
      rw [hsum]
      omega
    have hdecomposition := D.decomposition_syllable hl hv ht'
    have hlv' := D.decomposition_syllable hl hv htcount
    rw [← hsplit, ← hn, Char.ofNat_toNat] at hlv'
    have hlast : Char.ofNat (TBASE + (1 + t)) = b := by
      rw [← Nat.add_assoc]
      change Char.ofNat (TFIRST + t) = b
      rw [← ht, Char.ofNat_toNat]
    have hpos : 0 < 1 + t := Nat.succ_le_iff.mp (Nat.le_add_right 1 t)
    rw [hwhole]
    refine ⟨?_, isHangulSyllable_syllable hl hv ht'⟩
    rw [hdecomposition, hlv', D.decomposition_of_jamo hb, if_pos hpos, hlast]
    rfl

end UnicodeData

end Cangjie.Unicode
