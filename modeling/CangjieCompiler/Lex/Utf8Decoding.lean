import CangjieCompiler.Lex.LexerImpl

/-!
# Which bytes are read as a character

The bytes that are read without a diagnostic are compared with the UTF-8 encoding of a Unicode
scalar value.  A scalar value is read back from its encoding unless it is an unsecure one.  What is
read otherwise is a first byte with as many continuation bytes as it asks for, that encodes no
scalar value: nothing checks for surrogates, for the largest scalar value and for a first byte that
is too large, and an over-long form gives no diagnostic of its own.
-/

namespace Cangjie

/-- The text has the encoding of a character at an offset. -/
def StartsWith (text : List UInt8) (offset : ℕ) (ch : Char) : Prop :=
  String.utf8EncodeChar ch <+: text.drop offset

/-- The number of bytes that a first byte asks for. -/
def sequenceLength (lead : ℕ) : ℕ :=
  if lead < BYTE_2_FLAG then 1
  else if lead < BYTE_3_FLAG then 2
  else if lead < BYTE_4_FLAG then 3
  else 4

/-- A first byte of several is followed by the continuation bytes that it asks for. -/
structure IsSequence (text : List UInt8) (offset : ℕ) : Prop where
  lead : BYTE_2_FLAG ≤ byteAt text offset
  length_le : offset + sequenceLength (byteAt text offset) ≤ text.length
  continuation : ∀ k, 0 < k → k < sequenceLength (byteAt text offset) →
    isContinuation (byteAt text (offset + k)) = true

/-- The first two bytes of an over-long form, of a surrogate or of more than the largest scalar
value. -/
def EncodesNoScalar (lead second : ℕ) : Prop :=
  lead = 0xC0 ∨ lead = 0xC1 ∨ lead = 0xE0 ∧ second < 0xA0 ∨ lead = 0xED ∧ 0xA0 ≤ second ∨
    lead = 0xF0 ∧ second < 0x90 ∨ lead = 0xF4 ∧ 0x90 ≤ second ∨ 0xF5 ≤ lead

/-- A complete sequence of bytes that encodes no scalar value. -/
structure IsIllSequence (text : List UInt8) (offset : ℕ) : Prop extends IsSequence text offset where
  noScalar : EncodesNoScalar (byteAt text offset) (byteAt text (offset + 1))

/-! ## The encoding of a character -/

lemma cons_prefix_drop_iff {text bytes : List UInt8} {offset : ℕ} {byte : UInt8} :
    byte :: bytes <+: text.drop offset ↔
      offset < text.length ∧ byteAt text offset = byte.toNat ∧ bytes <+: text.drop (offset + 1) := by
  rcases Nat.lt_or_ge offset text.length with hlt | hge
  · have hbyte : byteAt text offset = (text[offset]).toNat := by
      rw [byteAt, List.getD_eq_getElem text 0 hlt]
    rw [List.drop_eq_getElem_cons hlt, List.cons_prefix_cons, hbyte, UInt8.toNat_inj]
    constructor
    · rintro ⟨rfl, hrest⟩
      exact ⟨hlt, rfl, hrest⟩
    · rintro ⟨-, hsame, hrest⟩
      exact ⟨hsame.symm, hrest⟩
  · rw [List.drop_eq_nil_of_le hge, List.prefix_nil]
    constructor
    · intro h
      exact absurd h (List.cons_ne_nil byte bytes)
    · rintro ⟨hlt, -⟩
      exact absurd hlt (Nat.not_lt.mpr hge)

lemma char_toNat_lt (ch : Char) : ch.toNat < 0x110000 := by
  have hvalid := ch.valid
  rw [UInt32.isValidChar, Nat.isValidChar] at hvalid
  unfold Char.toNat
  omega

/-- The byte of a continuation holds six bits. -/
lemma continuation_mod (n : ℕ) : (n % 0x40 + 0x80) % 2 ^ 8 = n % 64 + 0x80 := by omega

/-- The first byte holds what is left in front of the continuations. -/
lemma lead_mod {n bound flag : ℕ} (hn : n < bound) (hbound : bound + flag ≤ 2 ^ 8) :
    (n % bound + flag) % 2 ^ 8 = n + flag := by
  rw [Nat.mod_eq_of_lt hn, Nat.mod_eq_of_lt (by omega)]

/-- The bytes of a character are those of the smallest number of bytes that holds it. -/
lemma startsWith_iff {text : List UInt8} {offset : ℕ} {ch : Char} :
    StartsWith text offset ch ↔
      ch.toNat ≤ 0x7f ∧ offset < text.length ∧ byteAt text offset = ch.toNat ∨
      0x7f < ch.toNat ∧ ch.toNat ≤ 0x7ff ∧ offset + 1 < text.length ∧
        byteAt text offset = ch.toNat / 64 + 0xc0 ∧
        byteAt text (offset + 1) = ch.toNat % 64 + 0x80 ∨
      0x7ff < ch.toNat ∧ ch.toNat ≤ 0xffff ∧ offset + 2 < text.length ∧
        byteAt text offset = ch.toNat / 4096 + 0xe0 ∧
        byteAt text (offset + 1) = ch.toNat / 64 % 64 + 0x80 ∧
        byteAt text (offset + 2) = ch.toNat % 64 + 0x80 ∨
      0xffff < ch.toNat ∧ offset + 3 < text.length ∧
        byteAt text offset = ch.toNat / 262144 + 0xf0 ∧
        byteAt text (offset + 1) = ch.toNat / 4096 % 64 + 0x80 ∧
        byteAt text (offset + 2) = ch.toNat / 64 % 64 + 0x80 ∧
        byteAt text (offset + 3) = ch.toNat % 64 + 0x80 := by
  have hmax := char_toNat_lt ch
  unfold StartsWith String.utf8EncodeChar
  unfold Char.toNat at *
  generalize ch.val.toNat = v at *
  dsimp only
  split_ifs with h1 h2 h3
  · have hnot : ¬0x7f < v ∧ ¬0x7ff < v ∧ ¬0xffff < v := by omega
    have hv : v % 2 ^ 8 = v := by omega
    simp only [cons_prefix_drop_iff, List.nil_prefix, and_true, UInt8.toNat_ofNat', hv, h1, hnot,
      true_and, false_and, or_false]
  · have hnot : 0x7f < v ∧ ¬0x7ff < v ∧ ¬0xffff < v := by omega
    have hlead : (v / 64 % 0x20 + 0xc0) % 2 ^ 8 = v / 64 + 0xc0 :=
      lead_mod (Nat.div_lt_of_lt_mul (Nat.lt_succ_of_le h2)) (by decide)
    have hsecond := continuation_mod v
    simp only [cons_prefix_drop_iff, List.nil_prefix, and_true, UInt8.toNat_ofNat', hlead, hsecond,
      h1, h2, hnot, true_and, false_and, or_false, false_or]
    constructor
    · rintro ⟨-, hb, hl, hs⟩
      exact ⟨hl, hb, hs⟩
    · rintro ⟨hl, hb, hs⟩
      exact ⟨by omega, hb, hl, hs⟩
  · have hnot : 0x7ff < v ∧ ¬0xffff < v := by omega
    have hlead : (v / 4096 % 0x10 + 0xe0) % 2 ^ 8 = v / 4096 + 0xe0 :=
      lead_mod (Nat.div_lt_of_lt_mul (Nat.lt_succ_of_le h3)) (by decide)
    have hsecond := continuation_mod (v / 64)
    have hthird := continuation_mod v
    simp only [cons_prefix_drop_iff, List.nil_prefix, and_true, UInt8.toNat_ofNat', Nat.add_assoc,
      Nat.reduceAdd, hlead, hsecond, hthird, h1, h2, h3, hnot, true_and, false_and, and_false,
      or_false, false_or]
    constructor
    · rintro ⟨-, hb, -, hs, hl, ht⟩
      exact ⟨hl, hb, hs, ht⟩
    · rintro ⟨hl, hb, hs, ht⟩
      exact ⟨by omega, hb, by omega, hs, hl, ht⟩
  · have hgt : 0xffff < v := by omega
    have hlead : (v / 262144 % 0x08 + 0xf0) % 2 ^ 8 = v / 262144 + 0xf0 :=
      lead_mod (Nat.div_lt_of_lt_mul (Nat.lt_of_lt_of_le hmax (by decide))) (by decide)
    have hsecond := continuation_mod (v / 4096)
    have hthird := continuation_mod (v / 64)
    have hfourth := continuation_mod v
    simp only [cons_prefix_drop_iff, List.nil_prefix, and_true, UInt8.toNat_ofNat', Nat.add_assoc,
      Nat.reduceAdd, hlead, hsecond, hthird, hfourth, h1, h2, h3, hgt, true_and, false_and,
      and_false, false_or]
    constructor
    · rintro ⟨-, hb, -, hs, -, ht, hl, hf⟩
      exact ⟨hl, hb, hs, ht, hf⟩
    · rintro ⟨hl, hb, hs, ht, hf⟩
      exact ⟨by omega, hb, by omega, hs, by omega, ht, hl, hf⟩

lemma length_utf8EncodeChar (ch : Char) :
    (String.utf8EncodeChar ch).length =
      if ch.toNat ≤ 0x7f then 1 else if ch.toNat ≤ 0x7ff then 2
      else if ch.toNat ≤ 0xffff then 3 else 4 := by
  unfold String.utf8EncodeChar Char.toNat
  dsimp only
  split_ifs <;> rfl

/-- A character with a valid value. -/
lemma exists_char {v : ℕ} (h : v.isValidChar) : ∃ ch : Char, ch.toNat = v :=
  ⟨Char.ofNat v, by rw [Char.toNat_ofNat, if_pos h]⟩

/-- A complete sequence that is none of the ill ones encodes a character. -/
lemma exists_startsWith {text : List UInt8} {offset : ℕ} (h : IsSequence text offset)
    (hscalar : ¬EncodesNoScalar (byteAt text offset) (byteAt text (offset + 1))) :
    ∃ ch, StartsWith text offset ch := by
  obtain ⟨hlead, hlength, hcontinuation⟩ := h
  unfold EncodesNoScalar at hscalar
  have htail (k : ℕ) (hpos : 0 < k) (hk : k < sequenceLength (byteAt text offset)) :
      0x80 ≤ byteAt text (offset + k) ∧ byteAt text (offset + k) < 0xc0 :=
    of_decide_eq_true (hcontinuation k hpos hk)
  unfold sequenceLength BYTE_2_FLAG BYTE_3_FLAG BYTE_4_FLAG at *
  rw [if_neg (Nat.not_lt.mpr hlead)] at hlength htail
  rcases Nat.lt_or_ge (byteAt text offset) 0xe0 with htwo | hthree
  · rw [if_pos htwo] at hlength htail
    have hsecond := htail 1 (by decide) (by decide)
    obtain ⟨ch, hch⟩ := exists_char
      (v := byteAt text offset % 32 * 64 + byteAt text (offset + 1) % 64)
      (by unfold Nat.isValidChar; omega)
    refine ⟨ch, startsWith_iff.mpr (Or.inr (Or.inl ?_))⟩
    omega
  · rw [if_neg (Nat.not_lt.mpr hthree)] at hlength htail
    rcases Nat.lt_or_ge (byteAt text offset) 0xf0 with hthree' | hfour
    · rw [if_pos hthree'] at hlength htail
      have hsecond := htail 1 (by decide) (by decide)
      have hthird := htail 2 (by decide) (by decide)
      obtain ⟨ch, hch⟩ := exists_char
        (v := byteAt text offset % 16 * 4096 + byteAt text (offset + 1) % 64 * 64 +
          byteAt text (offset + 2) % 64) (by unfold Nat.isValidChar; omega)
      refine ⟨ch, startsWith_iff.mpr (Or.inr (Or.inr (Or.inl ?_)))⟩
      omega
    · rw [if_neg (Nat.not_lt.mpr hfour)] at hlength htail
      have hsecond := htail 1 (by decide) (by decide)
      have hthird := htail 2 (by decide) (by decide)
      have hfourth := htail 3 (by decide) (by decide)
      obtain ⟨ch, hch⟩ := exists_char
        (v := byteAt text offset % 8 * 262144 + byteAt text (offset + 1) % 64 * 4096 +
          byteAt text (offset + 2) % 64 * 64 + byteAt text (offset + 3) % 64)
        (by unfold Nat.isValidChar; omega)
      refine ⟨ch, startsWith_iff.mpr (Or.inr (Or.inr (Or.inr ?_)))⟩
      omega

/-! ## Reading several bytes -/

/-- The encoding of a character of several bytes is read as the character, with a diagnostic if it
is unsecure. -/
lemma readUTF8CharFromMultiBytes_of_startsWith {text : List UInt8} {offset : ℕ} {ch : Char}
    (h : StartsWith text offset ch) (hlead : BYTE_2_FLAG ≤ byteAt text offset) (success : Bool) :
    readUTF8CharFromMultiBytes text offset success (byteAt text offset) =
      { ch := ch.toNat
        pNext := offset + (String.utf8EncodeChar ch).length
        success := success && checkUnicodeSecurity ch.toNat } := by
  rw [length_utf8EncodeChar]
  unfold BYTE_2_FLAG at hlead
  unfold readUTF8CharFromMultiBytes isContinuation BYTE_X_FLAG BYTE_2_FLAG BYTE_3_FLAG BYTE_4_FLAG
  dsimp only
  have hvalue {base value : ℤ} {n m : ℕ} {continued : Bool} (hbase : base ≤ value)
      (hv : value = ch.toNat) (hn : n = m) (hcontinued : continued = success) :
      readChar n continued base value =
        { ch := ch.toNat, pNext := m, success := success && checkUnicodeSecurity ch.toNat } := by
    rw [readChar, if_neg (Int.not_lt.mpr hbase), hv, hn, hcontinued]
  have hmax := char_toNat_lt ch
  rcases startsWith_iff.mp h with hone | htwo | hthree | hfour
  · omega
  · obtain ⟨hlow, hhigh, hlength, hb, hs⟩ := htwo
    rw [if_neg (by omega), if_neg (by simp; omega), if_neg (by omega), if_neg (by omega)]
    refine hvalue ?_ ?_ ?_ ?_
    · unfold BYTE_2_BASE
      omega
    · omega
    · rw [if_neg (by omega), if_pos hhigh]
    · rw [Bool.and_eq_left_iff_imp]
      intro _
      exact decide_eq_true (by omega)
  · obtain ⟨hlow, hhigh, hlength, hb, hs, ht⟩ := hthree
    rw [if_neg (by omega), if_neg (by simp; omega), if_neg (by omega), if_pos (by omega),
      if_neg (by omega)]
    refine hvalue ?_ ?_ ?_ ?_
    · unfold BYTE_3_BASE
      omega
    · omega
    · rw [if_neg (by omega), if_neg (by omega), if_pos hhigh]
    · rw [decide_eq_true (by omega), decide_eq_true (by omega), Bool.and_true, Bool.and_true]
  · obtain ⟨hlow, hlength, hb, hs, ht, hf⟩ := hfour
    rw [if_neg (by omega), if_neg (by simp; omega), if_pos (by omega), if_neg (by omega)]
    refine hvalue ?_ ?_ ?_ ?_
    · unfold BYTE_4_BASE
      omega
    · omega
    · rw [if_neg (by omega), if_neg (by omega), if_neg (by omega)]
    · rw [decide_eq_true (by omega), decide_eq_true (by omega), decide_eq_true (by omega),
        Bool.and_true, Bool.and_true, Bool.and_true]

/-- Several bytes that are read without a diagnostic have the continuation bytes that they need. -/
lemma readUTF8CharFromMultiBytes_success {text : List UInt8} {offset byte1 : ℕ} {success : Bool}
    (h : (readUTF8CharFromMultiBytes text offset success byte1).success = true) :
    success = true ∧ (offset + 2 ≤ text.length ∧ isContinuation (byteAt text (offset + 1)) = true) ∧
      (BYTE_3_FLAG ≤ byte1 →
        offset + 3 ≤ text.length ∧ isContinuation (byteAt text (offset + 2)) = true) ∧
      (BYTE_4_FLAG ≤ byte1 →
        offset + 4 ≤ text.length ∧ isContinuation (byteAt text (offset + 3)) = true) := by
  have hflags : BYTE_3_FLAG ≤ BYTE_4_FLAG := by decide
  have hread {n : ℕ} {continued : Bool} {base value : ℤ}
      (h : (readChar n continued base value).success = true) : continued = true :=
    (Bool.and_eq_true_iff.mp h).1
  have htruncated : ¬(readTruncated text).success = true := Bool.false_ne_true
  unfold readUTF8CharFromMultiBytes at h
  dsimp only at h
  by_cases hlength : text.length < offset + 2
  · rw [if_pos hlength] at h
    exact absurd h htruncated
  rw [if_neg hlength] at h
  by_cases hfirst : isContinuation (byteAt text (offset + 1)) = true
  case neg =>
    rw [Bool.not_eq_true] at hfirst
    rw [hfirst, Bool.and_false] at h
    exact absurd h Bool.false_ne_true
  rw [hfirst, if_neg (by decide)] at h
  by_cases hfour : BYTE_4_FLAG ≤ byte1
  · rw [if_pos hfour] at h
    by_cases hlength' : text.length < offset + 4
    · rw [if_pos hlength'] at h
      exact absurd h htruncated
    · rw [if_neg hlength'] at h
      have hall := hread h
      simp only [Bool.and_eq_true] at hall
      obtain ⟨⟨⟨hsuccess, -⟩, ht⟩, hf⟩ := hall
      exact ⟨hsuccess, ⟨by omega, hfirst⟩, fun _ => ⟨by omega, ht⟩, fun _ => ⟨by omega, hf⟩⟩
  rw [if_neg hfour] at h
  by_cases hthree : BYTE_3_FLAG ≤ byte1
  · rw [if_pos hthree] at h
    by_cases hlength' : text.length < offset + 3
    · rw [if_pos hlength'] at h
      exact absurd h htruncated
    · rw [if_neg hlength'] at h
      have hall := hread h
      simp only [Bool.and_eq_true] at hall
      obtain ⟨⟨hsuccess, -⟩, ht⟩ := hall
      exact ⟨hsuccess, ⟨by omega, hfirst⟩, fun _ => ⟨by omega, ht⟩,
        fun hlead => absurd hlead hfour⟩
  · rw [if_neg hthree] at h
    have hall := hread h
    rw [Bool.and_eq_true] at hall
    exact ⟨hall.1, ⟨by omega, hfirst⟩, fun hlead => absurd hlead hthree,
      fun hlead => absurd hlead hfour⟩

/-- Several bytes that are read without a diagnostic are a complete sequence. -/
lemma isSequence_of_success {text : List UInt8} {offset : ℕ} {success : Bool}
    (hlead : BYTE_2_FLAG ≤ byteAt text offset)
    (h : (readUTF8CharFromMultiBytes text offset success (byteAt text offset)).success = true) :
    IsSequence text offset := by
  obtain ⟨-, ⟨htwo, hs⟩, hthree, hfour⟩ := readUTF8CharFromMultiBytes_success h
  have hlengths : sequenceLength (byteAt text offset) =
      if byteAt text offset < BYTE_3_FLAG then 2
      else if byteAt text offset < BYTE_4_FLAG then 3 else 4 := by
    rw [sequenceLength, if_neg (Nat.not_lt.mpr hlead)]
  have hflags : BYTE_3_FLAG ≤ BYTE_4_FLAG := by decide
  refine ⟨hlead, ?_, fun k hpos hk => ?_⟩
  · rw [hlengths]
    split_ifs with h3 h4
    · exact htwo
    · exact (hthree (Nat.not_lt.mp h3)).1
    · exact (hfour (Nat.not_lt.mp h4)).1
  · rw [hlengths] at hk
    have hfourth : k = 3 → BYTE_4_FLAG ≤ byteAt text offset := by
      split_ifs at hk <;> omega
    have hthird : k = 2 → BYTE_3_FLAG ≤ byteAt text offset := by
      split_ifs at hk <;> omega
    have hle : k ≤ 3 := by
      split_ifs at hk <;> omega
    obtain rfl | rfl | rfl : k = 1 ∨ k = 2 ∨ k = 3 := by omega
    · exact hs
    · exact (hthree (hthird rfl)).2
    · exact (hfour (hfourth rfl)).2

namespace Cursor

/-- Eating up illegal bytes gives no diagnostic back. -/
lemma success_of_skipIllegal (text : List UInt8) {fuel pCurrent : ℕ} {r : ReadChar}
    (h : (skipIllegal text fuel pCurrent r).2.success = true) : r.success = true := by
  induction fuel generalizing pCurrent r with
  | zero => exact h
  | succ fuel ih =>
    unfold skipIllegal at h
    dsimp only at h
    split_ifs at h with hillegal hascii
    · exact h
    · exact (readUTF8CharFromMultiBytes_success (ih h)).1
    · exact h

/-- A legal character is the one that is read. -/
lemma skipIllegal_of_ne (text : List UInt8) {fuel pCurrent : ℕ} {r : ReadChar}
    (h : r.ch ≠ ERROR_UTF8) : skipIllegal text fuel pCurrent r = (pCurrent, r) := by
  cases fuel with
  | zero => rfl
  | succ fuel =>
    unfold skipIllegal
    rw [if_neg fun hillegal => h hillegal.1]

/-! ## Reading a character -/

/-- The character at the cursor is read without a diagnostic and is no illegal one. -/
def Accepts (input : LexerInput) (c : Cursor) : Prop :=
  (c.readUTF8Char input).success = true ∧ (c.readUTF8Char input).currentChar ≠ ERROR_UTF8

/-- The offset after a character; a carriage return is read together with a line feed. -/
def offsetAfter (text : List UInt8) (offset : ℕ) (ch : Char) : ℕ :=
  if getLineTerminatorLength text offset = 2 then offset + 2
  else offset + (String.utf8EncodeChar ch).length

lemma getLineTerminatorLength_eq_two_iff {text : List UInt8} {offset : ℕ} :
    getLineTerminatorLength text offset = 2 ↔
      byteAt text offset = 0x0d ∧ offset + 1 < text.length ∧ byteAt text (offset + 1) = 0x0a := by
  -- A line feed after the text would be read as a zero byte.
  have hend : byteAt text (offset + 1) = 0x0a → offset + 1 < text.length := by
    intro hlf
    by_contra hge
    rw [byteAt, List.getD_eq_default _ _ (Nat.not_lt.mp hge)] at hlf
    exact absurd hlf (by decide)
  unfold getLineTerminatorLength
  split_ifs with hlf hcrlf
  · omega
  · exact ⟨fun _ => ⟨hcrlf.1, hend hcrlf.2.2, hcrlf.2.2⟩, fun _ => rfl⟩
  · exact ⟨fun h => absurd h (by decide), fun h => absurd ⟨h.1, h.2.1.le, h.2.2⟩ hcrlf⟩

lemma tryRegisterLineOffset_success (input : LexerInput) (c : Cursor) :
    (c.tryRegisterLineOffset input).success = c.success := by
  unfold tryRegisterLineOffset
  dsimp only
  split_ifs <;> rfl

lemma checkUnicodeSecurity_ascii {v : ℕ} (h : v ≤ 0x7f) : checkUnicodeSecurity v = true := by
  unfold checkUnicodeSecurity
  simp
  omega

/-- The encoding of a character is read as the character, with a diagnostic if it is unsecure. -/
lemma readUTF8Char_of_startsWith (input : LexerInput) {c : Cursor} {ch : Char}
    (h : StartsWith input.text c.pNext ch) :
    (c.readUTF8Char input).currentChar = ch.toNat ∧
      (c.readUTF8Char input).pNext = offsetAfter input.text c.pNext ch ∧
      (c.readUTF8Char input).success = (c.success && checkUnicodeSecurity ch.toNat) := by
  have hcases := startsWith_iff.mp h
  have hinside : c.pNext < input.text.length := by omega
  unfold readUTF8Char offsetAfter
  dsimp only
  rw [if_neg (Nat.not_le.mpr hinside)]
  by_cases hlead : byteAt input.text c.pNext < BYTE_2_FLAG
  · have hascii : ch.toNat ≤ 0x7f ∧ byteAt input.text c.pNext = ch.toNat := by
      unfold BYTE_2_FLAG at hlead
      omega
    obtain ⟨-, hnext, hcurrent⟩ := Scanning.tryRegisterLineOffset_pNext input
      { c with
        pCurrent := c.pNext
        currentChar := byteAt input.text c.pNext
        pNext := c.pNext + if byteAt input.text c.pNext = 0x0d ∧
          c.pNext + 1 < input.text.length ∧ byteAt input.text (c.pNext + 1) = 0x0a then 2 else 1
        success := c.success && decide (byteAt input.text c.pNext < BYTE_X_FLAG) }
    rw [if_pos hlead, hnext, hcurrent, tryRegisterLineOffset_success]
    refine ⟨?_, ?_, ?_⟩
    · dsimp only
      rw [hascii.2]
    · dsimp only
      rw [length_utf8EncodeChar, if_pos hascii.1]
      by_cases hcrlf : getLineTerminatorLength input.text c.pNext = 2
      · rw [if_pos hcrlf, if_pos (getLineTerminatorLength_eq_two_iff.mp hcrlf)]
      · rw [if_neg hcrlf, if_neg fun h => hcrlf (getLineTerminatorLength_eq_two_iff.mpr h)]
    · dsimp only
      rw [checkUnicodeSecurity_ascii hascii.1, decide_eq_true]
      rw [hascii.2]
      exact Nat.lt_succ_of_le hascii.1
  · rw [if_neg hlead, readUTF8CharFromMultiBytes_of_startsWith h (Nat.not_lt.mp hlead),
      skipIllegal_of_ne]
    · refine ⟨rfl, ?_, rfl⟩
      rw [if_neg fun hcrlf => hlead ?_]
      rw [(getLineTerminatorLength_eq_two_iff.mp hcrlf).1]
      decide
    · exact ne_of_gt (lt_of_lt_of_le (by decide) (Int.natCast_nonneg _))

/-- Bytes that are read without a diagnostic, and are no ill sequence, encode a character. -/
lemma exists_startsWith_of_success (input : LexerInput) {c : Cursor}
    (hinside : c.pNext < input.text.length) (hill : ¬IsIllSequence input.text c.pNext)
    (h : (c.readUTF8Char input).success = true) : ∃ ch, StartsWith input.text c.pNext ch := by
  unfold readUTF8Char at h
  dsimp only at h
  rw [if_neg (Nat.not_le.mpr hinside)] at h
  by_cases hlead : byteAt input.text c.pNext < BYTE_2_FLAG
  · rw [if_pos hlead, tryRegisterLineOffset_success, Bool.and_eq_true] at h
    have hascii : byteAt input.text c.pNext < 0x80 := of_decide_eq_true h.2
    obtain ⟨ch, hch⟩ := exists_char (v := byteAt input.text c.pNext)
      (by unfold Nat.isValidChar; omega)
    exact ⟨ch, startsWith_iff.mpr (Or.inl ⟨by omega, hinside, hch.symm⟩)⟩
  · rw [if_neg hlead] at h
    have hsequence := isSequence_of_success (Nat.not_lt.mp hlead) (success_of_skipIllegal _ h)
    exact exists_startsWith hsequence fun hscalar => hill ⟨hsequence, hscalar⟩

end Cursor

end Cangjie
