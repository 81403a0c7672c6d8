import CangjieCompiler.Utils.StdUtils
import Mathlib

/-!
# Integer literals

An integer literal is read from its text twice, as an unsigned and as a signed number of 64 bits
(`initIntLiteral`); each reading may fail.  When its type is known, the number of the sign's side is
compared with the limit of the type (`setOutOfRange`).

The texts that the lexer admits are given with the number that they write (`IntegerText`).  The
flag is exact for all of them, and so is the unsigned number; the signed one is when it fits 63
bits and zero otherwise (`setOutOfRange_initIntLiteral`).
-/

namespace Cangjie.Literal

open StdUtils

/-! ## Types -/

/-- The kinds of the integer types. -/
inductive TypeKind where
  | TYPE_INT8
  | TYPE_INT16
  | TYPE_INT32
  | TYPE_INT64
  | TYPE_INT_NATIVE
  | TYPE_IDEAL_INT
  | TYPE_UINT8
  | TYPE_UINT16
  | TYPE_UINT32
  | TYPE_UINT64
  | TYPE_UINT_NATIVE
  deriving DecidableEq

/-- An integer type; the native ones have the width of the machine. -/
structure PrimitiveTy where
  kind : TypeKind
  bitness : ℕ
  native : kind = .TYPE_INT_NATIVE ∨ kind = .TYPE_UINT_NATIVE → bitness = 32 ∨ bitness = 64

/-- `INTEGER_TO_MAX_VALUE` -/
def INTEGER_TO_MAX_VALUE : TypeKind → Option (BitVec 64)
  | .TYPE_INT8 => some 0x7f
  | .TYPE_INT16 => some 0x7fff
  | .TYPE_INT32 => some 0x7fffffff
  | .TYPE_INT64 => some 0x7fffffffffffffff
  | .TYPE_UINT8 => some 0xff
  | .TYPE_UINT16 => some 0xffff
  | .TYPE_UINT32 => some 0xffffffff
  | .TYPE_UINT64 => some 0xffffffffffffffff
  | .TYPE_IDEAL_INT => some 0xffffffffffffffff
  | .TYPE_INT_NATIVE => none
  | .TYPE_UINT_NATIVE => none

/-- `INTEGER_TO_MIN_VALUE`, which has the keys of the other table. -/
def INTEGER_TO_MIN_VALUE : TypeKind → ℤ
  | .TYPE_INT8 => -2 ^ 7
  | .TYPE_INT16 => -2 ^ 15
  | .TYPE_INT32 => -2 ^ 31
  | .TYPE_INT64 => -2 ^ 63
  | .TYPE_IDEAL_INT => -2 ^ 63
  | _ => 0

/-- `GetRealTypeKindOfNative` -/
def getRealTypeKindOfNative (ty : PrimitiveTy) : TypeKind :=
  if ty.kind = .TYPE_INT_NATIVE then
    if ty.bitness = 64 then .TYPE_INT64 else .TYPE_INT32
  else if ty.kind = .TYPE_UINT_NATIVE then
    if ty.bitness = 64 then .TYPE_UINT64 else .TYPE_UINT32
  else ty.kind

/-! ## Reading -/

/-- `EscapeCharacterToInt` -/
def escapeCharacterToInt (c : Char) : BitVec 32 :=
  if c = 't' then 9
  else if c = 'b' then 8
  else if c = 'r' then 13
  else if c = 'n' then 10
  else if c = '\'' then 39
  else if c = '"' then 34
  else if c = '\\' then 92
  else if c = 'f' then 12
  else if c = 'v' then 11
  else if c = '0' then 0
  else -1

/-- A character as a signed number; characters are ASCII. -/
def charToInt (c : Char) : BitVec 32 := BitVec.ofNat 32 c.toNat

/-- The index of the last occurrence of a character. -/
def lastIdxOf? (c : Char) (s : List Char) : Option ℕ :=
  (s.reverse.idxOf? c).map fun i => s.length - 1 - i

/-- `ParseByteIntLitString`: `-1` for an error. -/
def parseByteIntLitString (val : List Char) : BitVec 32 :=
  match val.idxOf? '\'', lastIdxOf? '\'' val with
  | some startQuote, some endQuote =>
    if endQuote - startQuote < 2 then -1
    else
      let lit := (val.drop (startQuote + 1)).take (endQuote - startQuote - 1)
      if lit.length = 1 then charToInt (lit.getD 0 default)
      else if lit.length = 2 ∧ lit.getD 0 default = '\\' then
        escapeCharacterToInt (lit.getD 1 default)
      else if 2 < lit.length ∧ lit.getD 1 default = 'u' then
        match val.idxOf? '\x7b', val.idxOf? '\x7d' with
        | some lCurlPos, some rCurlPos =>
          -- the positions are subtracted as unsigned numbers
          let gap := (BitVec.ofNat 64 rCurlPos - BitVec.ofNat 64 lCurlPos).toNat
          if gap ≤ 1 then -1
          else (stoi ((val.drop (lCurlPos + 1)).take (gap - 1)) 16).getD (-1)
        | _, _ => -1
      else -1
  | _, _ => -1

/-- The part of `GetBaseAndPureStringValue` behind the sign: the base of the mark, and the digits
without the mark and the underscores. -/
def splitMark (stringValue : List Char) : ℕ × List Char :=
  let mark := if 2 < stringValue.length then (stringValue.take 2).map Char.toLower else []
  let erased := stringValue.filter fun c => c != '_'
  if mark = ['0', 'b'] then (2, erased.drop 2)
  else if mark = ['0', 'o'] then (8, erased.drop 2)
  else if mark = ['0', 'x'] then (16, erased.drop 2)
  else (10, erased)

/-- `GetBaseAndPureStringValue` -/
def getBaseAndPureStringValue (stringVal : List Char) : ℕ × List Char :=
  let isNegNum := stringVal.head? == some '-'
  let marked := splitMark (if isNegNum then stringVal.drop 1 else stringVal)
  (marked.1, if isNegNum then '-' :: marked.2 else marked.2)

/-- An integer literal, with the fields that its reading sets. -/
structure IntLiteral where
  sign : ℤ := 1
  int64Val : BitVec 64 := 0
  uint64Val : BitVec 64 := 0
  outOfRange : Bool := false
  type : TypeKind := .TYPE_IDEAL_INT

namespace IntLiteral

/-- `IntLiteral::InitIntLiteral` -/
def initIntLiteral (self : IntLiteral) (stringVal : List Char) (kind : TypeKind) : IntLiteral :=
  if stringVal = [] then self
  else
    let sign := if stringVal.head? == some '-' then -1 else self.sign
    let parsed := getBaseAndPureStringValue stringVal
    if stringVal.head? == some 'b' then
      let byte := (parseByteIntLitString stringVal).signExtend 64
      let int64Val := if byte = -1 then 0 else byte
      { sign, int64Val, uint64Val := int64Val, outOfRange := byte == -1, type := kind }
    else
      let ul := stoull parsed.2 parsed.1
      let il := stoll parsed.2 parsed.1
      { sign, int64Val := il.getD 0, uint64Val := ul.getD 0,
        outOfRange := if sign = -1 then il.isNone else ul.isNone, type := kind }

/-- `IntLiteral::CheckOverflow` -/
def checkOverflow (self : IntLiteral) : Bool :=
  match INTEGER_TO_MAX_VALUE self.type with
  | none => false
  | some maxValue =>
    if self.sign = 1 then maxValue.toNat < self.uint64Val.toNat
    else self.int64Val.toInt < INTEGER_TO_MIN_VALUE self.type

/-- `IntLiteral::SetOutOfRange` -/
def setOutOfRange (self : IntLiteral) (ty : PrimitiveTy) : IntLiteral :=
  let self := { self with type := getRealTypeKindOfNative ty }
  { self with outOfRange := self.outOfRange || self.checkOverflow }

end IntLiteral

/-! ## Texts -/

/-- The bases of numbers. -/
inductive Radix where
  | decimal
  | binary
  | octal
  | hexadecimal

namespace Radix

def base : Radix → ℕ
  | decimal => 10
  | binary => 2
  | octal => 8
  | hexadecimal => 16

/-- The mark in front of the digits, in either case. -/
def mark : Radix → Bool → List Char
  | decimal, _ => []
  | binary, upper => ['0', if upper then 'B' else 'b']
  | octal, upper => ['0', if upper then 'O' else 'o']
  | hexadecimal, upper => ['0', if upper then 'X' else 'x']

end Radix

/-- Digits of a base: a digit, then digits and underscores. -/
structure Numeral (base : ℕ) where
  first : Char
  rest : List Char
  isSome_first : (digit? base first).isSome = true
  digit_or_underscore : ∀ c ∈ rest, c = '_' ∨ (digit? base c).isSome = true

namespace Numeral

variable {base : ℕ}

def spelling (n : Numeral base) : List Char := n.first :: n.rest

/-- The number that the digits write, the underscores left out. -/
def value (n : Numeral base) : ℕ := numberOf base (n.spelling.filterMap (digit? base))

end Numeral

/-- The escapes of a byte literal. -/
def legalEscapes : List (Char × ℕ) :=
  [('t', 9), ('b', 8), ('r', 13), ('n', 10), ('f', 12), ('v', 11), ('0', 0), ('\'', 39), ('"', 34),
    ('\\', 92)]

/-- The texts of integer literals that the lexer admits. -/
inductive IntegerText where
  | number (neg : Bool) (radix : Radix) (upper : Bool) (body : Numeral radix.base)
  /-- A byte literal of a character. -/
  | byteChar (c : Char) (ascii : c.toNat < 128) (plain : c ∉ ['\'', '\\', '\n', '\r'])
  /-- A byte literal of an escape. -/
  | byteEscape (c : Char) (n : ℕ) (legal : (c, n) ∈ legalEscapes)
  /-- A byte literal of a code point, with one or two hexadecimal digits. -/
  | byteUnicode (digits : List Char) (short : digits.length = 1 ∨ digits.length = 2)
    (hex : ∀ c ∈ digits, (digit? 16 c).isSome = true)

namespace IntegerText

def spelling : IntegerText → List Char
  | number neg radix upper body =>
    (if neg then ['-'] else []) ++ radix.mark upper ++ body.spelling
  | byteChar c _ _ => ['b', '\'', c, '\'']
  | byteEscape c _ _ => ['b', '\'', '\\', c, '\'']
  | byteUnicode digits _ _ =>
    ['b', '\'', '\\', 'u', '\x7b'] ++ digits ++ ['\x7d', '\'']

/-- The number that a text writes. -/
def value : IntegerText → ℤ
  | number neg _ _ body => signedValue neg body.value
  | byteChar c _ _ => c.toNat
  | byteEscape _ n _ => n
  | byteUnicode digits _ _ => numberOf 16 (digits.filterMap (digit? 16))

end IntegerText

/-- The least and the greatest number of an integer type. -/
def PrimitiveTy.limits (ty : PrimitiveTy) : ℤ × ℤ :=
  match ty.kind with
  | .TYPE_INT8 => (-2 ^ 7, 2 ^ 7 - 1)
  | .TYPE_INT16 => (-2 ^ 15, 2 ^ 15 - 1)
  | .TYPE_INT32 => (-2 ^ 31, 2 ^ 31 - 1)
  | .TYPE_INT64 => (-2 ^ 63, 2 ^ 63 - 1)
  | .TYPE_INT_NATIVE => (-2 ^ (ty.bitness - 1), 2 ^ (ty.bitness - 1) - 1)
  | .TYPE_UINT8 => (0, 2 ^ 8 - 1)
  | .TYPE_UINT16 => (0, 2 ^ 16 - 1)
  | .TYPE_UINT32 => (0, 2 ^ 32 - 1)
  | .TYPE_UINT64 => (0, 2 ^ 64 - 1)
  | .TYPE_UINT_NATIVE => (0, 2 ^ ty.bitness - 1)
  | .TYPE_IDEAL_INT => (-2 ^ 63, 2 ^ 64 - 1)

/-- A number is representable in a type. -/
def PrimitiveTy.Represents (ty : PrimitiveTy) (v : ℤ) : Prop := ty.limits.1 ≤ v ∧ v ≤ ty.limits.2

/-! ## The numbers -/

section Number

variable {radix : Radix}

/-- Without its underscores a numeral is a string of digits. -/
theorem digits_of_filter (body : Numeral radix.base) :
    ∀ c ∈ body.spelling.filter (fun c => c != '_'), (digit? radix.base c).isSome := by
  intro c hc
  obtain ⟨hmem, hne⟩ := List.mem_filter.mp hc
  rcases List.mem_cons.mp hmem with rfl | hrest
  · exact body.isSome_first
  · exact (body.digit_or_underscore c hrest).resolve_left (bne_iff_ne.mp hne)

theorem first_ne_underscore (body : Numeral radix.base) : body.first ≠ '_' := by
  intro h
  have hfirst := body.isSome_first
  rw [h, digit?_eq_none rfl] at hfirst
  cases hfirst

/-- Underscores have no part in the number. -/
theorem filterMap_filter (body : Numeral radix.base) :
    (body.spelling.filter fun c => c != '_').filterMap (digit? radix.base) =
      body.spelling.filterMap (digit? radix.base) := by
  rw [List.filterMap_filter]
  refine List.filterMap_congr fun c _ => ?_
  by_cases hc : c = '_'
  · subst hc
    rw [digit?_eq_none rfl]
    rfl
  · rw [if_pos (bne_iff_ne.mpr hc)]

/-- A decimal digit is one of the ten digits. -/
theorem toNat_of_decimal {c : Char} (h : (digit? 10 c).isSome) : 48 ≤ c.toNat ∧ c.toNat ≤ 57 := by
  have hle : ∀ a b : Char, a ≤ b ↔ a.toNat ≤ b.toNat := fun a b => UInt32.le_iff_toNat_le
  rw [digit?, digitValue] at h
  split_ifs at h with h0 ha hA
  · rw [hle, hle] at h0
    exact h0
  · rw [hle, hle] at ha
    have h97 : 97 ≤ c.toNat := ha.1
    simp only [Option.filter_some, decide_eq_true_eq, Option.isSome_ite] at h
    omega
  · rw [hle, hle] at hA
    have h65 : 65 ≤ c.toNat := hA.1
    simp only [Option.filter_some, decide_eq_true_eq, Option.isSome_ite] at h
    omega
  · cases h

/-- The second character of a decimal number is no mark. -/
theorem not_mark_of_decimal {c : Char} (h : c = '_' ∨ (digit? 10 c).isSome) :
    c.toLower ≠ 'b' ∧ c.toLower ≠ 'o' ∧ c.toLower ≠ 'x' := by
  rcases h with rfl | h
  · decide
  · obtain ⟨hlo, hhi⟩ := toNat_of_decimal h
    have hlower : c.toLower = c := by
      rw [Char.toLower, dif_neg]
      rintro ⟨hA, -⟩
      have h65 : 65 ≤ c.toNat := UInt32.le_iff_toNat_le.mp hA
      omega
    rw [hlower]
    refine ⟨?_, ?_, ?_⟩ <;>
      · rintro rfl
        exact absurd hhi (by decide)

/-- An unsigned number does not begin with a sign or a byte's letter. -/
theorem head?_unsigned (upper : Bool) (body : Numeral radix.base) :
    (radix.mark upper ++ body.spelling).head? ≠ some '-' ∧
      (radix.mark upper ++ body.spelling).head? ≠ some 'b' := by
  cases radix with
  | decimal =>
    obtain ⟨hlo, hhi⟩ := toNat_of_decimal body.isSome_first
    constructor
    · intro h
      have hfirst : body.first = '-' := Option.some.inj h
      rw [hfirst] at hlo
      exact absurd hlo (by decide)
    · intro h
      have hfirst : body.first = 'b' := Option.some.inj h
      rw [hfirst] at hhi
      exact absurd hhi (by decide)
  | binary => exact ⟨by simp [Radix.mark], by simp [Radix.mark]⟩
  | octal => exact ⟨by simp [Radix.mark], by simp [Radix.mark]⟩
  | hexadecimal => exact ⟨by simp [Radix.mark], by simp [Radix.mark]⟩

/-- The sign is taken off. -/
theorem unsigned_number (neg upper : Bool) (body : Numeral radix.base) :
    ((IntegerText.number neg radix upper body).spelling.head? == some '-') = neg ∧
      (if neg then (IntegerText.number neg radix upper body).spelling.drop 1
        else (IntegerText.number neg radix upper body).spelling) =
        radix.mark upper ++ body.spelling := by
  cases neg with
  | true => exact ⟨rfl, rfl⟩
  | false => exact ⟨beq_eq_false_iff_ne.mpr (head?_unsigned upper body).1, rfl⟩

/-- The base and the digits of a number are found behind its mark. -/
theorem splitMark_number (upper : Bool) (body : Numeral radix.base) :
    splitMark (radix.mark upper ++ body.spelling) =
      (radix.base, body.spelling.filter fun c => c != '_') := by
  cases radix with
  | decimal =>
    have hmark : ∀ m : Char, (m = 'b' ∨ m = 'o' ∨ m = 'x') →
        (if 2 < body.spelling.length then (body.spelling.take 2).map Char.toLower else []) ≠
          ['0', m] := by
      intro m hm h
      split_ifs at h with hlen
      obtain ⟨first, rest, hfirst, hrest⟩ := body
      cases rest with
      | nil => exact absurd hlen (by simp [Numeral.spelling])
      | cons c rest =>
        obtain ⟨hb, ho, hx⟩ := not_mark_of_decimal (hrest c List.mem_cons_self)
        simp only [Numeral.spelling, List.take_succ_cons, List.take_zero, List.map_cons,
          List.map_nil, List.cons.injEq, and_true] at h
        rcases hm with rfl | rfl | rfl
        · exact hb h.2
        · exact ho h.2
        · exact hx h.2
    rw [Radix.mark, List.nil_append, splitMark]
    rw [if_neg (hmark 'b' (Or.inl rfl)), if_neg (hmark 'o' (Or.inr (Or.inl rfl))),
      if_neg (hmark 'x' (Or.inr (Or.inr rfl)))]
    rfl
  | binary => cases upper <;> simp [splitMark, Radix.mark, Radix.base, Numeral.spelling]
  | octal => cases upper <;> simp [splitMark, Radix.mark, Radix.base, Numeral.spelling]
  | hexadecimal => cases upper <;> simp [splitMark, Radix.mark, Radix.base, Numeral.spelling]

theorem getBaseAndPureStringValue_number (neg upper : Bool) (body : Numeral radix.base) :
    getBaseAndPureStringValue (IntegerText.number neg radix upper body).spelling =
      (radix.base, if neg then '-' :: body.spelling.filter (fun c => c != '_')
        else body.spelling.filter fun c => c != '_') := by
  obtain ⟨hneg, hunsigned⟩ := unsigned_number neg upper body
  rw [getBaseAndPureStringValue]
  simp only [hneg, hunsigned, splitMark_number]

end Number

/-! ## The literal of a text -/

/-- What a literal holds when a number has been read. -/
structure Reads (lit : IntLiteral) (v : ℤ) : Prop where
  sign : (lit.sign = 1 ∧ 0 ≤ v) ∨ (lit.sign = -1 ∧ v ≤ 0)
  int64Val : lit.int64Val = if -2 ^ 63 ≤ v ∧ v < 2 ^ 63 then BitVec.ofInt 64 v else 0
  uint64Val : v.natAbs < 2 ^ 64 → lit.uint64Val = BitVec.ofInt 64 v
  outOfRange : lit.outOfRange = true ↔
    (lit.sign = 1 ∧ 2 ^ 64 ≤ v) ∨ (lit.sign = -1 ∧ v < -2 ^ 63)

theorem natAbs_signedValue (neg : Bool) (n : ℕ) : (signedValue neg n).natAbs = n := by
  cases neg
  · exact Int.natAbs_natCast n
  · exact (Int.natAbs_neg _).trans (Int.natAbs_natCast n)

theorem reads_number (neg : Bool) (radix : Radix) (upper : Bool) (body : Numeral radix.base)
    (kind : TypeKind) :
    Reads (IntLiteral.initIntLiteral {} (IntegerText.number neg radix upper body).spelling kind)
      (IntegerText.number neg radix upper body).value := by
  obtain ⟨hneg, -⟩ := unsigned_number neg upper body
  have hsubject := subject_of_digits (s := body.spelling.filter fun c => c != '_')
    (by simp [Numeral.spelling, first_ne_underscore body]) (digits_of_filter body) neg
  rw [filterMap_filter] at hsubject
  have hull : stoull (getBaseAndPureStringValue
      (IntegerText.number neg radix upper body).spelling).2 (getBaseAndPureStringValue
      (IntegerText.number neg radix upper body).spelling).1 =
      if body.value < 2 ^ 64 then some (BitVec.ofInt 64 (signedValue neg body.value))
      else none := by
    rw [getBaseAndPureStringValue_number, stoull, hsubject]
    rfl
  have hll : stoll (getBaseAndPureStringValue
      (IntegerText.number neg radix upper body).spelling).2 (getBaseAndPureStringValue
      (IntegerText.number neg radix upper body).spelling).1 =
      if -2 ^ 63 ≤ signedValue neg body.value ∧ signedValue neg body.value < 2 ^ 63 then
        some (BitVec.ofInt 64 (signedValue neg body.value)) else none := by
    rw [getBaseAndPureStringValue_number, stoll, hsubject]
    rfl
  have hnil : (IntegerText.number neg radix upper body).spelling ≠ [] :=
    List.append_ne_nil_of_right_ne_nil _ (List.cons_ne_nil _ _)
  have hb : ((IntegerText.number neg radix upper body).spelling.head? == some 'b') = false := by
    cases neg with
    | true => rfl
    | false => exact beq_eq_false_iff_ne.mpr (head?_unsigned upper body).2
  have hvalue : (IntegerText.number neg radix upper body).value = signedValue neg body.value := rfl
  rw [IntLiteral.initIntLiteral, if_neg hnil, hvalue]
  simp only [hneg, hb, hull, hll, Bool.false_eq_true, if_false]
  have hget : ∀ (P : Prop) [Decidable P] (x : BitVec 64),
      (if P then some x else none).getD 0 = if P then x else 0 := by
    intro P _ x
    split_ifs <;> rfl
  have hnone : ∀ (P : Prop) [Decidable P] (x : BitVec 64),
      (if P then some x else none).isNone = true ↔ ¬ P := by
    intro P _ x
    split_ifs with hP <;> simp [hP]
  refine ⟨?_, hget _ _, fun hsmall => ?_, ?_⟩
  · cases neg with
    | true => exact Or.inr ⟨rfl, Int.neg_nonpos_of_nonneg (Int.natCast_nonneg _)⟩
    | false => exact Or.inl ⟨rfl, Int.natCast_nonneg _⟩
  · rw [natAbs_signedValue] at hsmall
    exact (hget _ _).trans (if_pos hsmall)
  · cases neg with
    | true =>
      refine (hnone _ _).trans ?_
      change ¬ (-2 ^ 63 ≤ -(body.value : ℤ) ∧ -(body.value : ℤ) < 2 ^ 63) ↔
        ((-1 : ℤ) = 1 ∧ 2 ^ 64 ≤ -(body.value : ℤ)) ∨
          ((-1 : ℤ) = -1 ∧ -(body.value : ℤ) < -2 ^ 63)
      omega
    | false =>
      refine (hnone _ _).trans ?_
      change ¬ body.value < 2 ^ 64 ↔ ((1 : ℤ) = 1 ∧ 2 ^ 64 ≤ (body.value : ℤ)) ∨
        ((1 : ℤ) = -1 ∧ (body.value : ℤ) < -2 ^ 63)
      omega

/-- A byte literal holds its byte when the body is read without an error. -/
theorem reads_byte {body : List Char} {n : ℕ} (hn : n < 2 ^ 31)
    (hparse : parseByteIntLitString ('b' :: body) = BitVec.ofNat 32 n) (kind : TypeKind) :
    Reads (IntLiteral.initIntLiteral {} ('b' :: body) kind) n := by
  have hsigned : (parseByteIntLitString ('b' :: body)).signExtend 64 = BitVec.ofInt 64 n := by
    rw [hparse, BitVec.signExtend]
    congr 1
    rw [BitVec.toInt_eq_toNat_of_lt (by rw [BitVec.toNat_ofNat]; omega), BitVec.toNat_ofNat,
      Nat.mod_eq_of_lt (by omega)]
  have hne : BitVec.ofInt 64 (n : ℤ) ≠ -1 := by
    intro h
    have hnat := congrArg BitVec.toNat h
    rw [BitVec.ofInt_natCast, BitVec.toNat_ofNat, Nat.mod_eq_of_lt (by omega)] at hnat
    change n = 2 ^ 64 - 1 at hnat
    omega
  have hlit : IntLiteral.initIntLiteral {} ('b' :: body) kind =
      { sign := 1, int64Val := BitVec.ofInt 64 n, uint64Val := BitVec.ofInt 64 n,
        outOfRange := false, type := kind } := by
    have hminus : ((some 'b' : Option Char) == some '-') = false := by decide
    rw [IntLiteral.initIntLiteral, if_neg (List.cons_ne_nil _ _)]
    simp only [List.head?_cons, hsigned, if_neg hne, hminus, beq_self_eq_true, if_true,
      beq_eq_false_iff_ne.mpr hne, Bool.false_eq_true, if_false]
  rw [hlit]
  refine ⟨Or.inl ⟨rfl, Int.natCast_nonneg n⟩, ?_, fun _ => rfl, ?_⟩
  · rw [if_pos]
    omega
  · simp only [Bool.false_eq_true, false_iff]
    omega

theorem parse_byteChar (c : Char) :
    parseByteIntLitString ['b', '\'', c, '\''] = BitVec.ofNat 32 c.toNat := rfl

theorem parse_byteEscape {c : Char} {n : ℕ} (h : (c, n) ∈ legalEscapes) :
    n < 2 ^ 31 ∧
      parseByteIntLitString ['b', '\'', '\\', c, '\''] = BitVec.ofNat 32 n := by
  have hbody : parseByteIntLitString ['b', '\'', '\\', c, '\''] = escapeCharacterToInt c := rfl
  have hall : (legalEscapes.all fun e =>
      decide (e.2 < 2 ^ 31 ∧ escapeCharacterToInt e.1 = BitVec.ofNat 32 e.2)) = true := by decide
  rw [hbody]
  exact of_decide_eq_true (List.all_eq_true.mp hall (c, n) h)

theorem digit?_lt {base d : ℕ} {c : Char} (h : digit? base c = some d) : d < base := by
  rw [digit?, Option.filter_eq_some_iff] at h
  exact of_decide_eq_true h.2

/-- One or two hexadecimal digits write a byte. -/
theorem numberOf_hex_lt {digits : List Char} (hlen : digits.length = 1 ∨ digits.length = 2)
    (hhex : ∀ c ∈ digits, (digit? 16 c).isSome) :
    numberOf 16 (digits.filterMap (digit? 16)) < 2 ^ 31 := by
  rcases hlen with hlen | hlen
  · obtain ⟨c, rfl⟩ := List.length_eq_one_iff.mp hlen
    obtain ⟨d, hd⟩ := Option.isSome_iff_exists.mp (hhex c List.mem_cons_self)
    have hlt := digit?_lt hd
    simp only [List.filterMap_cons, hd, List.filterMap_nil, numberOf, List.foldl_cons,
      List.foldl_nil]
    omega
  · obtain ⟨c, c', rfl⟩ := List.length_eq_two.mp hlen
    obtain ⟨d, hd⟩ := Option.isSome_iff_exists.mp (hhex c List.mem_cons_self)
    obtain ⟨d', hd'⟩ := Option.isSome_iff_exists.mp
      (hhex c' (List.mem_cons_of_mem _ List.mem_cons_self))
    have hlt := digit?_lt hd
    have hlt' := digit?_lt hd'
    simp only [List.filterMap_cons, hd, hd', List.filterMap_nil, numberOf, List.foldl_cons,
      List.foldl_nil]
    omega

theorem stoi_hex {digits : List Char} (hlen : digits.length = 1 ∨ digits.length = 2)
    (hhex : ∀ c ∈ digits, (digit? 16 c).isSome) :
    stoi digits 16 = some (BitVec.ofNat 32 (numberOf 16 (digits.filterMap (digit? 16)))) := by
  have hne : digits ≠ [] := by
    rintro rfl
    simp at hlen
  have hsubject := subject_of_digits hne hhex false
  rw [if_neg Bool.false_ne_true] at hsubject
  have hlt := numberOf_hex_lt hlen hhex
  have hvalue : signedValue false (numberOf 16 (digits.filterMap (digit? 16))) =
      (numberOf 16 (digits.filterMap (digit? 16)) : ℕ) := rfl
  rw [stoi, hsubject, Option.bind_some]
  simp only [hvalue]
  rw [if_pos (by omega), BitVec.ofInt_natCast]

theorem parse_byteUnicode {digits : List Char} (hlen : digits.length = 1 ∨ digits.length = 2)
    (hhex : ∀ c ∈ digits, (digit? 16 c).isSome) :
    parseByteIntLitString (['b', '\'', '\\', 'u', '\x7b'] ++ digits ++ ['\x7d', '\'']) =
      BitVec.ofNat 32 (numberOf 16 (digits.filterMap (digit? 16))) := by
  have hread := stoi_hex hlen hhex
  have hcurl : ∀ c ∈ digits, c ≠ '\x7d' := by
    rintro c hc rfl
    exact absurd (hhex _ hc) (by decide)
  rcases hlen with hlen | hlen
  · obtain ⟨d, rfl⟩ := List.length_eq_one_iff.mp hlen
    have hd := hcurl d List.mem_cons_self
    have hend : lastIdxOf? '\'' ['b', '\'', '\\', 'u', '\x7b', d, '\x7d', '\''] = some 7 := rfl
    simp [parseByteIntLitString, List.idxOf?, List.findIdx?_cons, hend, hd, hread]
  · obtain ⟨d, e, rfl⟩ := List.length_eq_two.mp hlen
    have hd := hcurl d List.mem_cons_self
    have he := hcurl e (List.mem_cons_of_mem _ List.mem_cons_self)
    have hend : lastIdxOf? '\'' ['b', '\'', '\\', 'u', '\x7b', d, e, '\x7d', '\''] = some 8 :=
      rfl
    simp [parseByteIntLitString, List.idxOf?, List.findIdx?_cons, hend, hd, he, hread]

/-- The literal of every text holds its number. -/
theorem reads_text (text : IntegerText) (kind : TypeKind) :
    Reads (IntLiteral.initIntLiteral {} text.spelling kind) text.value := by
  cases text with
  | number neg radix upper body => exact reads_number neg radix upper body kind
  | byteChar c ascii plain => exact reads_byte (by omega) (parse_byteChar c) kind
  | byteEscape c n legal =>
    obtain ⟨hn, hparse⟩ := parse_byteEscape legal
    exact reads_byte hn hparse kind
  | byteUnicode digits short hex =>
    exact reads_byte (numberOf_hex_lt short hex) (parse_byteUnicode short hex) kind

/-! ## The range of the type -/

/-- The two tables hold the limits of a type, under its real kind. -/
theorem tables_of_limits (ty : PrimitiveTy) :
    (∃ maxValue, INTEGER_TO_MAX_VALUE (getRealTypeKindOfNative ty) = some maxValue ∧
      (maxValue.toNat : ℤ) = ty.limits.2) ∧
      INTEGER_TO_MIN_VALUE (getRealTypeKindOfNative ty) = ty.limits.1 := by
  obtain ⟨kind, bitness, native⟩ := ty
  cases kind with
  | TYPE_INT_NATIVE =>
    rcases native (Or.inl rfl) with rfl | rfl
    · exact ⟨⟨_, rfl, rfl⟩, rfl⟩
    · exact ⟨⟨_, rfl, rfl⟩, rfl⟩
  | TYPE_UINT_NATIVE =>
    rcases native (Or.inr rfl) with rfl | rfl
    · exact ⟨⟨_, rfl, rfl⟩, rfl⟩
    · exact ⟨⟨_, rfl, rfl⟩, rfl⟩
  | _ => exact ⟨⟨_, rfl, rfl⟩, rfl⟩

/-- Every limit fits the numbers that a literal holds. -/
theorem limits_bounds (ty : PrimitiveTy) :
    -2 ^ 63 ≤ ty.limits.1 ∧ ty.limits.1 ≤ 0 ∧ 0 ≤ ty.limits.2 ∧ ty.limits.2 < 2 ^ 64 := by
  obtain ⟨kind, bitness, native⟩ := ty
  cases kind with
  | TYPE_INT_NATIVE =>
    rcases native (Or.inl rfl) with rfl | rfl
    · norm_num [PrimitiveTy.limits]
    · norm_num [PrimitiveTy.limits]
  | TYPE_UINT_NATIVE =>
    rcases native (Or.inr rfl) with rfl | rfl
    · norm_num [PrimitiveTy.limits]
    · norm_num [PrimitiveTy.limits]
  | _ => norm_num [PrimitiveTy.limits]

/-- The check compares the number of the sign's side with the limit of the type. -/
theorem checkOverflow_iff (lit : IntLiteral) (ty : PrimitiveTy) :
    ({ lit with type := getRealTypeKindOfNative ty } : IntLiteral).checkOverflow = true ↔
      if lit.sign = 1 then ty.limits.2 < lit.uint64Val.toNat
      else lit.int64Val.toInt < ty.limits.1 := by
  obtain ⟨⟨maxValue, hmax, hmaxNat⟩, hmin⟩ := tables_of_limits ty
  rw [IntLiteral.checkOverflow]
  simp only [hmax, hmin, ← hmaxNat]
  split_ifs
  · rw [decide_eq_true_iff, Nat.cast_lt]
  · rw [decide_eq_true_iff]

/-- The flag is exact for every text and every integer type; without it the unsigned number is the
number of the text, and the signed one is when it fits. -/
theorem setOutOfRange_initIntLiteral (text : IntegerText) (kind : TypeKind) (ty : PrimitiveTy) :
    let lit := (IntLiteral.initIntLiteral {} text.spelling kind).setOutOfRange ty
    (lit.outOfRange = true ↔ ¬ ty.Represents text.value) ∧
      (lit.outOfRange = false → lit.uint64Val = BitVec.ofInt 64 text.value ∧
        lit.int64Val = if text.value < 2 ^ 63 then BitVec.ofInt 64 text.value else 0) := by
  have hreads := reads_text text kind
  generalize IntLiteral.initIntLiteral {} text.spelling kind = lit at hreads ⊢
  generalize text.value = v at hreads ⊢
  obtain ⟨hsign, hint, huint, hrange⟩ := hreads
  obtain ⟨hlo, hlo0, hhi0, hhi⟩ := limits_bounds ty
  have hflag : (lit.setOutOfRange ty).outOfRange = true ↔ ¬ ty.Represents v := by
    rw [IntLiteral.setOutOfRange, Bool.or_eq_true, checkOverflow_iff, PrimitiveTy.Represents]
    simp only [hrange]
    rcases hsign with ⟨hsign, hv⟩ | ⟨hsign, hv⟩
    · by_cases hbig : v < 2 ^ 64
      · have hnat : (lit.uint64Val.toNat : ℤ) = v := by
          rw [huint (by omega), BitVec.toNat_ofInt]
          omega
        rw [if_pos hsign, hnat]
        omega
      · rw [if_pos hsign]
        omega
    · have hne : lit.sign ≠ 1 := by omega
      by_cases hsmall : -2 ^ 63 ≤ v
      · have hnum : lit.int64Val.toInt = v := by
          rw [hint, if_pos ⟨hsmall, by omega⟩, BitVec.toInt_ofInt, Int.bmod_eq_of_le] <;> omega
        rw [if_neg hne, hnum]
        omega
      · rw [if_neg hne]
        omega
  refine ⟨hflag, fun hfalse => ?_⟩
  have hrep : ty.Represents v := by
    by_contra hnot
    rw [hflag.mpr hnot] at hfalse
    cases hfalse
  have hlow : -2 ^ 63 ≤ v := hlo.trans hrep.1
  have hhigh : v < 2 ^ 64 := lt_of_le_of_lt hrep.2 hhi
  refine ⟨huint (by omega), hint.trans ?_⟩
  simp only [hlow, true_and]

/-! ## Numbers of 64 bits -/

/-- The text of `2 ^ 63`. -/
def twoPow63 : IntegerText :=
  .number false .hexadecimal false ⟨'8', List.replicate 15 '0', by decide, fun c hc => by
    rw [List.eq_of_mem_replicate hc]
    decide⟩

/-- The signed number of a literal beyond 63 bits is not its number modulo `2 ^ 64`. -/
theorem not_int64Val_twoPow63 :
    let lit := (IntLiteral.initIntLiteral {} twoPow63.spelling .TYPE_UINT64).setOutOfRange
      ⟨.TYPE_UINT64, 64, by simp⟩
    lit.outOfRange = false ∧ lit.int64Val ≠ BitVec.ofInt 64 twoPow63.value := by
  have hvalue : twoPow63.value = 2 ^ 63 := rfl
  refine ⟨rfl, ?_⟩
  rw [hvalue]
  change (0 : BitVec 64) ≠ BitVec.ofInt 64 (2 ^ 63)
  decide

end Cangjie.Literal
