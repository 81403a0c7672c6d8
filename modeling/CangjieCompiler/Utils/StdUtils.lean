import Mathlib

/-!
# Numbers from strings

The wrappers of the C++ conversions from strings to integers (`stoi`, `stoll`, `stoull`), which
return no value where the conversion throws.  A conversion skips white space, reads a sign and then
the longest run of digits of the base; it fails when there is no digit or when the number does not
fit the result.  The unsigned conversion negates a number behind a minus sign modulo `2 ^ 64`.
-/

namespace Cangjie.StdUtils

/-! ## Digits -/

/-- The value of a character as a digit of base 36. -/
def digitValue (c : Char) : Option ℕ :=
  if '0' ≤ c ∧ c ≤ '9' then some (c.toNat - 48)
  else if 'a' ≤ c ∧ c ≤ 'z' then some (c.toNat - 87)
  else if 'A' ≤ c ∧ c ≤ 'Z' then some (c.toNat - 55)
  else none

/-- The value of a digit of a base. -/
def digit? (base : ℕ) (c : Char) : Option ℕ := (digitValue c).filter fun d => d < base

/-- The longest run of digits at the beginning of a string. -/
def leadingDigits (base : ℕ) : List Char → List ℕ
  | [] => []
  | c :: s =>
    match digit? base c with
    | some d => d :: leadingDigits base s
    | none => []

/-- The number with given digits. -/
def numberOf (base : ℕ) (digits : List ℕ) : ℕ := digits.foldl (fun n d => n * base + d) 0

/-! ## Conversions -/

/-- `isspace` -/
def isSpace (c : Char) : Bool :=
  c == ' ' || c == '\t' || c == '\n' || c == '\r' || c == Char.ofNat 11 || c == Char.ofNat 12

/-- An optional sign. -/
def readSign : List Char → Bool × List Char
  | [] => (false, [])
  | c :: s => if c = '-' then (true, s) else if c = '+' then (false, s) else (false, c :: s)

/-- An optional mark of a hexadecimal number in front of its digits. -/
def dropHexMark : List Char → List Char
  | '0' :: x :: d :: s =>
    if (x == 'x' || x == 'X') && (digit? 16 d).isSome then d :: s else '0' :: x :: d :: s
  | s => s

/-- The sign and the number at the beginning of a string, when there is a digit. -/
def subject (s : List Char) (base : ℕ) : Option (Bool × ℕ) :=
  let signed := readSign (s.dropWhile isSpace)
  let digits := leadingDigits base (if base = 16 then dropHexMark signed.2 else signed.2)
  if digits = [] then none else some (signed.1, numberOf base digits)

/-- The integer of a sign and a number. -/
def signedValue (neg : Bool) (n : ℕ) : ℤ := if neg then -(n : ℤ) else n

/-- `Stoi` -/
def stoi (s : List Char) (base : ℕ) : Option (BitVec 32) :=
  (subject s base).bind fun (neg, n) =>
    if -2 ^ 31 ≤ signedValue neg n ∧ signedValue neg n < 2 ^ 31 then
      some (BitVec.ofInt 32 (signedValue neg n))
    else none

/-- `Stoui`: a minus sign is rejected. -/
def stoui (s : List Char) (base : ℕ) : Option (BitVec 32) :=
  (subject s base).bind fun (neg, n) =>
    if neg = false ∧ n < 2 ^ 32 then some (BitVec.ofNat 32 n) else none

/-- `Stoll` -/
def stoll (s : List Char) (base : ℕ) : Option (BitVec 64) :=
  (subject s base).bind fun (neg, n) =>
    if -2 ^ 63 ≤ signedValue neg n ∧ signedValue neg n < 2 ^ 63 then
      some (BitVec.ofInt 64 (signedValue neg n))
    else none

/-- `Stoull` -/
def stoull (s : List Char) (base : ℕ) : Option (BitVec 64) :=
  (subject s base).bind fun (neg, n) =>
    if n < 2 ^ 64 then some (BitVec.ofInt 64 (signedValue neg n)) else none

/-! ## Strings of digits -/

theorem digitValue_of_isSpace {c : Char} (h : isSpace c = true) : digitValue c = none := by
  simp only [isSpace, Bool.or_eq_true, beq_iff_eq] at h
  rcases h with ((((rfl | rfl) | rfl) | rfl) | rfl) | rfl <;> rfl

theorem digit?_eq_none {base : ℕ} {c : Char} (h : digitValue c = none) : digit? base c = none := by
  rw [digit?, h]
  rfl

/-- A digit is no space and no sign. -/
theorem not_space_of_digit {base : ℕ} {c : Char} (h : (digit? base c).isSome) :
    isSpace c = false ∧ c ≠ '-' ∧ c ≠ '+' := by
  refine ⟨Bool.eq_false_iff.mpr fun hspace => ?_, ?_, ?_⟩
  · rw [digit?_eq_none (digitValue_of_isSpace hspace)] at h
    cases h
  · rintro rfl
    rw [digit?_eq_none rfl] at h
    cases h
  · rintro rfl
    rw [digit?_eq_none rfl] at h
    cases h

/-- In a string of digits the run of digits is all of it. -/
theorem leadingDigits_of_digits {base : ℕ} {s : List Char}
    (hs : ∀ c ∈ s, (digit? base c).isSome) : leadingDigits base s = s.filterMap (digit? base) := by
  induction s with
  | nil => rfl
  | cons c s ih =>
    obtain ⟨d, hd⟩ := Option.isSome_iff_exists.mp (hs c List.mem_cons_self)
    rw [leadingDigits, hd, List.filterMap_cons, hd, ih fun c hc => hs c (List.mem_cons_of_mem _ hc)]

/-- Hexadecimal digits do not begin with a mark. -/
theorem dropHexMark_of_digits {s : List Char} (hs : ∀ c ∈ s, (digit? 16 c).isSome) :
    dropHexMark s = s := by
  rw [dropHexMark.eq_def]
  split
  · rename_i x d s
    have hx : x ≠ 'x' ∧ x ≠ 'X' := by
      have hdigit := hs x (List.mem_cons_of_mem _ List.mem_cons_self)
      constructor <;> · rintro rfl; exact absurd hdigit (by decide)
    rw [if_neg]
    simp [hx.1, hx.2]
  · rfl

/-- A string of digits behind a sign is read as its number. -/
theorem subject_of_digits {base : ℕ} {s : List Char} (hne : s ≠ [])
    (hs : ∀ c ∈ s, (digit? base c).isSome) (neg : Bool) :
    subject (if neg then '-' :: s else s) base =
      some (neg, numberOf base (s.filterMap (digit? base))) := by
  have hdigits : leadingDigits base (if base = 16 then dropHexMark s else s) =
      s.filterMap (digit? base) := by
    by_cases hbase : base = 16
    · subst hbase
      rw [if_pos rfl, dropHexMark_of_digits hs, leadingDigits_of_digits hs]
    · rw [if_neg hbase, leadingDigits_of_digits hs]
  have hnil : s.filterMap (digit? base) ≠ [] := by
    cases s with
    | nil => exact absurd rfl hne
    | cons c s =>
      obtain ⟨d, hd⟩ := Option.isSome_iff_exists.mp (hs c List.mem_cons_self)
      rw [List.filterMap_cons, hd]
      exact List.cons_ne_nil _ _
  have hsign : readSign ((if neg then '-' :: s else s).dropWhile isSpace) = (neg, s) := by
    cases neg with
    | true => rfl
    | false =>
      cases s with
      | nil => rfl
      | cons c s =>
        obtain ⟨hspace, hminus, hplus⟩ := not_space_of_digit (hs c List.mem_cons_self)
        rw [if_neg Bool.false_ne_true, List.dropWhile_cons_of_neg (by rw [hspace]; decide),
          readSign, if_neg hminus, if_neg hplus]
  rw [subject, hsign, hdigits, if_neg hnil]

end Cangjie.StdUtils
