import CangjieCompiler.Foundations.StateInvariant
import CangjieCompiler.Utils.StdUtils

/-!
# The demangler

The recursive descent of the demangler, in the build whose strings are `StdString`.  A unit of the
mangled name is read by `demangleByPrefix`; the routines it calls take it as the parameter
`byPrefix`, so that each of them is a definition of its own, and the recursion is tied at the end on
fuel, which the loops use too.  The cursor and the flag are the state.  A run also leaves a log of
the characters it reads, of the subtractions from the length, of its rejections and of the steps it
takes; nothing reads the log.

The kind `GENERIC_CONSTRAINTS`, which nothing builds, is left out with the name it would get.
-/

namespace Cangjie.Demangle

/-- A string of the demangler: its bytes. -/
abbrev StdString := List Char

/-! ## Constants -/

def MANGLE_GENERIC_PREFIX : Char := 'I'
def MANGLE_FUNCTION_PREFIX : Char := 'H'
def MANGLE_COUNT_PREFIX : Char := 'K'
def MANGLE_FILE_ID_PREFIX : Char := 'U'
def MANGLE_EXTEND_PREFIX : Char := 'X'
def MANGLE_LAMBDA_PREFIX : Char := 'L'
def MANGLE_UNDERSCORE_PREFIX : Char := '_'
def MANGLE_NESTED_PREFIX : Char := 'N'
def MANGLE_TUPLE_PREFIX : Char := 'T'
def MANGLE_ARRAY_PREFIX : Char := 'A'
def MANGLE_VARRAY_PREFIX : Char := 'V'
def MANGLE_PTR_PREFIX : Char := 'P'
def MANGLE_CSTRING_PREFIX : Char := 'k'
def MANGLE_VOID_PREFIX : Char := 'v'
def MANGLE_GTY_PREFIX : Char := 'G'
def MANGLE_DEFAULT_PARAM_FUNCTION_PREFIX : Char := '$'
def END : Char := 'E'
def MANGLE_END : Char := '$'
def ARGS_DELIMITER : StdString := [',', ' ']
def ARGS_DELIMITER_TYPE : StdString := [',']
def LEFT_BRACKET : StdString := ['(']
def RIGHT_BRACKET : StdString := [')']
def MODULE_SPLIT : StdString := ['/']
def MANGLE_MODULE_SPLIT : StdString := ['$']
def MANGLE_FUNCTY_PREFIX : StdString := ['F', '0']
def MANGLE_C_FUNCTY_PREFIX : StdString := ['F', 'C']
def MANGLE_FLOAT16_PREFIX : StdString := ['D', 'h']
def MANGLE_SET_PREFIX : StdString := ['p', 's']
def MANGLE_GET_PREFIX : StdString := ['p', 'g']
def GLOBAL_VARIABLE_INIT_PREFIX : StdString := ['G', 'V']
def MANGLE_TUPLE_STR : StdString := "Tuple".toList
def MANGLE_ARRAY_STR : StdString := "RawArray".toList
def MANGLE_VARRAY_STR : StdString := "VArray".toList
def MANGLE_PTR_STR : StdString := "CPointer".toList
def MANGLE_CSTRING_STR : StdString := "CString".toList
def BASE62_CHARS : StdString :=
  "0123456789ABCDEFGHIJKLMNOPQRSTUVWXYZabcdefghijklmnopqrstuvwxyz".toList
def FILE_HASH_LEN : ℕ := 13
def SPECIAL_NAME_LEN : ℕ := 2
def MANGLE_CHAR_LEN : ℕ := 1

/-- The abbreviations of the standard packages. -/
def MANGLE_STDPKG_MAP : List (String × String) :=
  [("ab", "std.sync"), ("ac", "std.collection"), ("ad", "std.deriving"), ("ae", "std.database"),
   ("af", "std.net"), ("ag", "std.chirad"), ("ah", "std.io"), ("ai", "std.convert"),
   ("aj", "std.ffi"), ("ak", "std.argopt"), ("al", "std.objectpool"), ("am", "std.reflect"),
   ("an", "std.fs"), ("ao", "std.runtime"), ("ap", "std.overflow"), ("aq", "std.unittest"),
   ("ar", "std.binary"), ("as", "std.unicode"), ("at", "std.core"), ("au", "std.console"),
   ("av", "std.random"), ("aw", "std.sort"), ("ax", "std.ast"), ("ay", "std.env"),
   ("ba", "std.process"), ("bb", "std.time"), ("bc", "std.regex"), ("bd", "std.posix"),
   ("be", "std.crypto"), ("bf", "std.ref"), ("bg", "std.math"),
   ("bh", "std.collection.concurrent"), ("bi", "std.collection.concurrent.native"),
   ("bj", "std.deriving.impl"), ("bk", "std.deriving.builtins"), ("bl", "std.deriving.api"),
   ("bm", "std.deriving.resolve"), ("bn", "std.database.sql"), ("bo", "std.net.native"),
   ("bq", "std.convert.native"), ("bs", "std.objectpool.native"), ("bt", "std.fs.native"),
   ("bu", "std.runtime.native"), ("bv", "std.unittest.mock"), ("bw", "std.unittest.testmacro"),
   ("bx", "std.unittest.prop_test"), ("by", "std.unittest.common"), ("ca", "std.unittest.native"),
   ("cb", "std.unittest.diff"), ("cc", "std.unittest.mock.mockmacro"),
   ("cd", "std.unittest.mock.internal"), ("ce", "std.core.native"), ("cf", "std.random.native"),
   ("cg", "std.ast.native"), ("ch", "std.env.native"), ("ci", "std.process.native"),
   ("cj", "std.time.native"), ("ck", "std.regex.native"), ("cl", "std.posix.native"),
   ("cm", "std.crypto.digest"), ("cn", "std.crypto.cipher"), ("co", "std.math.numeric"),
   ("cp", "std.math.native"), ("cq", "std.math.numeric.native"), ("cr", "std.concurrent")]

/-- The package an abbreviation stands for. -/
def stdPackage (abbreviation : StdString) : Option StdString :=
  (MANGLE_STDPKG_MAP.find? fun entry => entry.1.toList == abbreviation).map fun entry =>
    entry.2.toList

/-! ## Characters and strings -/

def getPrimitiveDemangleMap (t : Char) : StdString :=
  match t with
  | 'u' => "Unit".toList
  | 'n' => "Nothing".toList
  | 'b' => "Bool".toList
  | 'D' => "Float16".toList
  | 'f' => "Float32".toList
  | 'd' => "Float64".toList
  | 'c' => "Rune".toList
  | 'a' => "Int8".toList
  | 's' => "Int16".toList
  | 'i' => "Int32".toList
  | 'l' => "Int64".toList
  | 'h' => "UInt8".toList
  | 't' => "UInt16".toList
  | 'j' => "UInt32".toList
  | 'm' => "UInt64".toList
  | 'q' => "IntNative".toList
  | 'r' => "UIntNative".toList
  | _ => []

/-- The operator of a value of `OperatorKind`. -/
def operatorOfKind (kind : ℕ) : StdString :=
  match kind with
  | 279 => "[]".toList
  | 435 => "!".toList
  | 422 => "-".toList
  | 502 => "**".toList
  | 395 => "*".toList
  | 117 => "/".toList
  | 556 => "%".toList
  | 491 => "+".toList
  | 370 => "<<".toList
  | 562 => ">>".toList
  | 371 => "<".toList
  | 211 => ">".toList
  | 356 => "<=".toList
  | 196 => ">=".toList
  | 144 => "==".toList
  | 420 => "!=".toList
  | 13 => "&".toList
  | 142 => "^".toList
  | 465 => "|".toList
  | 75 => "()".toList
  | _ => []

/-- `GetOperatorNameMap`, which is called with two characters. -/
def getOperatorNameMap : StdString → StdString
  | [a, b] =>
    if ('a' ≤ a ∧ a ≤ 'z') ∧ ('a' ≤ b ∧ b ≤ 'z') then
      operatorOfKind ((a.toNat - 97) * 2 ^ 5 + b.toNat - 97)
    else []
  | _ => []

def isPrimitive (ch : Char) : Bool := getPrimitiveDemangleMap ch != []

def isCurrentCharDigit (ch : Char) : Bool := decide ('0' ≤ ch ∧ ch ≤ '9')

def isGeneric (ch : Char) : Bool := ch == MANGLE_GENERIC_PREFIX

def isFunction (ch : Char) : Bool := ch == MANGLE_FUNCTION_PREFIX

/-- `SubStr` -/
def subStr (str : StdString) (index len : ℕ) : StdString := (str.drop index).take len

/-- `Find` of a character, whose result is a 32-bit integer. -/
def find (str : StdString) (pattern : Char) : ℤ :=
  match str.findIdx? (· == pattern) with
  | none => -1
  | some pos => Int.bmod pos (2 ^ 32)

/-- `Truncate` to a smaller length. -/
def truncate (str : StdString) (index : ℕ) : StdString := str.take index

/-- The decimal digits of a number, the last one first in line for the recursion on fuel. -/
def uintDigits : ℕ → ℕ → StdString → StdString
  | 0, _, result => result
  | fuel + 1, value, result =>
    if value ≠ 0 then uintDigits fuel (value / 10) (Nat.digitChar (value % 10) :: result)
    else result

/-- `UIntToString` of a 64-bit number, which has at most 20 digits. -/
def uintToString (value : ℕ) : StdString :=
  if value = 0 then ['0'] else uintDigits 20 value []

/-- The value of a character of base 62. -/
def base62Digit (c : Char) : Option ℕ := BASE62_CHARS.findIdx? fun digit => c == digit

/-! ## What a unit is demangled to -/

inductive TypeKind where
  | NAME | PRIMITIVE | CSTRING | CLASS | STRUCT | INTERFACE | ENUM | RAW_ARRAY | VARRAY | TUPLE
  | CPOINTER | FUNCTION | COMMON_DECL | FUNCTION_DECL | FUNCTION_PARAMETER_TYPES | LAMBDA_FUNCTION
  | GENERIC_TYPES | WRAPPED_FUNCTION
  deriving DecidableEq

structure DemangleInfo where
  type : TypeKind := .NAME
  pkgName : StdString := []
  args : StdString := []
  genericConstraints : StdString := []
  genericTypes : StdString := []
  functionParameterTypes : StdString := []
  demangled : StdString := []
  isPrivateDeclaration : Bool := false
  isValid : Bool := true
  deriving DecidableEq

namespace DemangleInfo

variable (di : DemangleInfo)

def isFunctionLike : Bool :=
  di.type == .FUNCTION_DECL || di.type == .LAMBDA_FUNCTION || di.type == .FUNCTION ||
    di.type == .WRAPPED_FUNCTION

/-- `GetIdentifier`: angle brackets around the identifier are dropped. -/
def getIdentifier : StdString :=
  if di.demangled.head? = some '<' ∧ di.demangled.getLast? = some '>' then
    subStr di.demangled 1 (di.demangled.length - 2)
  else di.demangled

def getArgTypesName (argsNum : ℕ) : StdString :=
  if di.args = [] then if di.isFunctionLike then "()".toList else []
  else if di.isFunctionLike then '(' :: di.args ++ [')']
  else if argsNum ≠ 0 then '<' :: di.args ++ ",$".toList ++ (Nat.toDigits 10 argsNum) ++ ['>']
  else '<' :: di.args ++ ['>']

def getFunctionName : StdString := di.getArgTypesName 0 ++ " -> ".toList ++ di.demangled

def getFullName (scopeRes : StdString) (argsNum : ℕ := 0) : StdString :=
  match di.type with
  | .FUNCTION => di.getFunctionName
  | type =>
    let name :=
      if !di.isFunctionLike && type != .COMMON_DECL then
        if di.pkgName ≠ [] ∧ di.getIdentifier ≠ [] then
          di.pkgName ++ scopeRes ++ di.getIdentifier
        else di.pkgName ++ di.getIdentifier
      else di.getIdentifier
    name ++ di.genericTypes ++ di.getArgTypesName argsNum ++ di.genericConstraints

end DemangleInfo

/-! ## The state of a run -/

/-- The places of a run that a condition on the run may speak of. -/
inductive Step where
  | demangleByPrefix
  | demangleClass
  | demanglePackageName
  | demangleRawArray
  | localCounter
  | iteration
  deriving DecidableEq

/-- What the log records: a read `mangledName[k]`, a subtraction of `k` from the length, a
rejection, and a step. -/
inductive Event where
  | read (k : ℕ)
  | subtract (k : ℕ)
  | rejected
  | step (step : Step)
  deriving DecidableEq

/-- An event with the cursor and the flag right after it. -/
structure Entry where
  event : Event
  currentIndex : ℕ
  isValid : Bool
  deriving DecidableEq

/-- The cursor and the flag, and the log with the latest entry first. -/
structure State where
  currentIndex : ℕ
  isValid : Bool := true
  log : List Entry := []
  deriving DecidableEq

/-- The state with one more entry in the log. -/
def State.logged (s : State) (event : Event) : State :=
  { s with log := ⟨event, s.currentIndex, s.isValid⟩ :: s.log }

/-- A routine of the demangler, which may run out of fuel. -/
abbrev Routine := Prog State

/-- What a demangler is built with. -/
structure Demangler where
  mangledName : StdString
  genericTypefilter : StdString → StdString := id
  scopeResolution : StdString := "::".toList
  genericVec : List StdString := []

namespace Demangler

variable (d : Demangler)

/-- The state before anything is read. -/
def start (index : ℕ) : State where
  currentIndex := index

def dumpDi : DemangleInfo where
  demangled := d.mangledName
  isValid := false

def outOfFuel {α : Type} : Routine α := fun _ => none

def record (event : Event) : Routine Unit := modify fun s => s.logged event

def step (step : Step) : Routine Unit := record (.step step)

/-- `mangledName[k]`, where the character behind the string is the terminating one. -/
def charAt (k : ℕ) : Routine Char := do
  record (.read k)
  return d.mangledName.getD k (Char.ofNat 0)

/-- `mangledName[currentIndex]` -/
def currentChar : Routine Char := do d.charAt (← get).currentIndex

/-- `currentIndex += n` -/
def advance (n : ℕ) : Routine Unit :=
  modify fun s => { s with currentIndex := s.currentIndex + n }

section

variable {α : Type} (s : State)

theorem get_bind (f : State → Routine α) : (get >>= f) s = f s s := rfl

theorem step_bind (step : Step) (f : Unit → Routine α) :
    (Demangler.step step >>= f) s = f () (s.logged (.step step)) := rfl

theorem currentChar_bind (f : Char → Routine α) :
    (d.currentChar >>= f) s =
      f (d.mangledName.getD s.currentIndex (Char.ofNat 0)) (s.logged (.read s.currentIndex)) := rfl

theorem advance_bind (n : ℕ) (f : Unit → Routine α) :
    (advance n >>= f) s = f () { s with currentIndex := s.currentIndex + n } := rfl

end

/-- `isValid = value` -/
def setValid (value : Bool) : Routine Unit := modify fun s => { s with isValid := value }

/-- `isValid = false` where a unit is given up. -/
def invalidate : Routine Unit := do
  setValid false
  record .rejected

def reject : Routine DemangleInfo := do
  let s ← get
  if s.currentIndex = d.mangledName.length ∧ s.isValid = false then return d.dumpDi
  else
    invalidate
    modify fun s => { s with currentIndex := d.mangledName.length }
    return d.dumpDi

/-! ## Looking at the mangled name -/

/-- The part of the mangled name with a given length at the cursor. -/
def ahead (len : ℕ) : Routine StdString := do
  return subStr d.mangledName (← get).currentIndex len

def isNotEndOfMangledName : Routine Bool := do
  if (← get).currentIndex < d.mangledName.length then return (← d.currentChar) != END
  else return false

def isMaybeDefaultFuncParamFunction : Routine Bool := do
  if (← get).currentIndex < d.mangledName.length then
    return (← d.currentChar) == MANGLE_DEFAULT_PARAM_FUNCTION_PREFIX
  else return false

def isProp : Routine Bool := do
  if (← get).currentIndex + MANGLE_CHAR_LEN < d.mangledName.length then
    let str ← d.ahead SPECIAL_NAME_LEN
    return str == MANGLE_SET_PREFIX || str == MANGLE_GET_PREFIX
  else return false

def isOperatorName : Routine Bool := do
  let id := (← get).currentIndex + SPECIAL_NAME_LEN
  if id < d.mangledName.length ∧ getOperatorNameMap (← d.ahead SPECIAL_NAME_LEN) ≠ [] then
    let ch ← d.charAt id
    return ch == MANGLE_GENERIC_PREFIX || ch == MANGLE_FUNCTION_PREFIX || ch == MANGLE_COUNT_PREFIX
  else return false

/-- Whether a character and the one behind it are a prefix of a qualified type. -/
def isQualifiedPair (index : ℕ) (ch : Char) : Routine Bool := do
  if index + MANGLE_CHAR_LEN < d.mangledName.length then
    let next ← d.charAt (index + MANGLE_CHAR_LEN)
    return (ch == 'D' && next == 'h') || (ch == 'F' && next == '0') || (ch == 'F' && next == 'C')
  else return false

def isQualifiedType : Routine Bool := do
  let index := (← get).currentIndex
  if index < d.mangledName.length then
    let ch ← d.charAt index
    let pair ← d.isQualifiedPair index ch
    return pair || isPrimitive ch || ['C', 'R', 'F', 'N', 'T', 'P', 'A', 'k', 'V', 'G'].contains ch
  else return false

def matchForward (pattern : StdString) : Routine Bool := do
  let index := (← get).currentIndex
  record (.subtract index)
  let len := min pattern.length (d.mangledName.length - index)
  return subStr d.mangledName index len == pattern

def peekChar : Routine (Option Char) := do
  if (← get).currentIndex < d.mangledName.length then return some (← d.currentChar)
  else return none

def getChar : Routine (Option Char) := do
  match ← d.peekChar with
  | some ch =>
    advance 1
    return some ch
  | none => return none

def skipChar (ch : Char) : Routine Unit := do
  if (← get).currentIndex < d.mangledName.length then
    if (← d.currentChar) = ch then advance 1 else discard d.reject
  else discard d.reject

def skipOptionalChar (ch : Char) : Routine Unit := do
  if (← get).currentIndex < d.mangledName.length then
    if (← d.currentChar) = ch then advance 1

def skipString : StdString → Routine Unit
  | [] => return
  | ch :: pattern => do
    d.skipChar ch
    if (← get).isValid then skipString pattern

/-! ## Numbers and names -/

/-- The digits at the cursor.  The flag is set by each of them. -/
def lengthDigits : ℕ → StdString → Routine StdString
  | 0, _ => outOfFuel
  | fuel + 1, numStr => do
    step .iteration
    if (← get).currentIndex < d.mangledName.length then
      let ch ← d.currentChar
      if isCurrentCharDigit ch then
        advance 1
        setValid true
        lengthDigits fuel (numStr ++ [ch])
      else return numStr
    else return numStr

/-- The number of a string of digits, if it fits 32 bits. -/
def lengthOf (numStr : StdString) : ℕ :=
  match StdUtils.stoll numStr 10 with
  | none => 0
  | some num => if 2 ^ 32 - 1 < num.toInt ∨ num.toInt < 0 then 0 else num.toInt.toNat

def demangleLength (fuel : ℕ) : Routine ℕ := do
  if (← get).currentIndex < d.mangledName.length then
    if (← d.currentChar) = '0' then
      advance 1
      return 0
    else
      setValid false
      return lengthOf (← d.lengthDigits fuel [])
  else
    discard d.reject
    return 0

def demangleStringName (fuel : ℕ) : Routine StdString := do
  let identifyLength ← d.demangleLength fuel
  if identifyLength = 0 then
    discard d.reject
    return []
  else
    let index := (← get).currentIndex
    record (.subtract index)
    if d.mangledName.length - index < identifyLength then
      discard d.reject
      return []
    else
      let name ← d.ahead identifyLength
      advance identifyLength
      return name

def demangleProp : Routine StdString := do
  let str ← d.ahead SPECIAL_NAME_LEN
  advance SPECIAL_NAME_LEN
  return if str = MANGLE_SET_PREFIX then "::set".toList else "::get".toList

/-- The characters of a mangling number up to the underscore behind it. -/
def manglingNumberContent : ℕ → StdString → Routine (Option StdString)
  | 0, _ => outOfFuel
  | fuel + 1, content => do
    step .iteration
    match ← d.getChar with
    | none =>
      discard d.reject
      return none
    | some c =>
      if c = MANGLE_UNDERSCORE_PREFIX then return some content
      else manglingNumberContent fuel (content ++ [c])

/-- The value of a mangling number, from the least significant character. -/
def manglingNumberValue : StdString → ℕ → ℕ → Routine ℕ
  | [], value, _ => return (value + 1) % 2 ^ 64
  | c :: content, value, power => do
    step .iteration
    match base62Digit c with
    | none =>
      discard d.reject
      return 0
    | some i => manglingNumberValue content ((value + i * power) % 2 ^ 64) (power * 62 % 2 ^ 64)

def demangleManglingNumber (fuel : ℕ) : Routine ℕ := do
  match ← d.manglingNumberContent fuel [] with
  | none => return 0
  | some content =>
    if content = [] then return 0 else d.manglingNumberValue content.reverse 0 1

/-- The characters of the number of a file: thirteen of them, or those in front of a dollar sign,
in which case nothing is left to be checked. -/
def fileNameNumberContent : ℕ → StdString → Routine (Option StdString)
  | 0, _ => outOfFuel
  | fuel + 1, content => do
    step .iteration
    if content.length = FILE_HASH_LEN then return some content
    else
      match ← d.getChar with
      | none =>
        discard d.reject
        return none
      | some c =>
        if c = MANGLE_END then return none else fileNameNumberContent fuel (content ++ [c])

/-- Each character of the number of a file must be one of base 62. -/
def checkFileNameNumber : StdString → Routine Unit
  | [] => return
  | c :: content => do
    step .iteration
    if (base62Digit c).isSome then checkFileNameNumber content else discard d.reject

def demangleFileNameNumber (fuel : ℕ) : Routine Unit := do
  match ← d.fileNameNumberContent fuel [] with
  | none => return
  | some content => d.checkFileNameNumber content.reverse

def isFileName : Routine Bool := do return (← d.peekChar) == some MANGLE_FILE_ID_PREFIX

def demangleFileName (fuel : ℕ) : Routine Unit := do
  d.skipChar MANGLE_FILE_ID_PREFIX
  d.demangleFileNameNumber fuel

/-- The file of a declaration, if it is given. -/
def skipFileName (fuel : ℕ) : Routine Bool := do
  if ← d.isFileName then
    d.demangleFileName fuel
    return true
  else return false

def skipLocalCounter (fuel : ℕ) : Routine Unit := do
  if (← d.peekChar) = some MANGLE_COUNT_PREFIX then
    d.skipChar MANGLE_COUNT_PREFIX
    discard (d.demangleManglingNumber fuel)

/-! ## Packages -/

/-- A colon inside a package name is doubled, where something follows it. -/
def doubleColon (pkg : StdString) : StdString :=
  let pos := find pkg ':'
  if -1 < pos ∧ 1 < pkg.length - pos.toNat then
    subStr pkg 0 pos.toNat ++ [':'] ++ subStr pkg pos.toNat (pkg.length - pos.toNat)
  else pkg

/-- `ReplaceString` of a pattern of one character: the first occurrence is replaced until there is
none. -/
def replaceString (pattern : Char) (replacement : StdString) : ℕ → StdString → Routine StdString
  | 0, _ => outOfFuel
  | fuel + 1, str => do
    step .iteration
    let pos := find str pattern
    if -1 < pos ∧ pos.toNat + 1 ≤ str.length then
      replaceString pattern replacement fuel
        (subStr str 0 pos.toNat ++ replacement ++
          subStr str (pos.toNat + 1) (str.length - pos.toNat - 1))
    else return str

/-- The name of a package that has no abbreviation. -/
def packageString (fuel : ℕ) (pkg : Option StdString) : Routine StdString := do
  match pkg with
  | some pkg => return pkg
  | none => return doubleColon (← d.demangleStringName fuel)

/-- What follows the abbreviation of a package: a zero, or the name and a file. -/
def packageNameRest (fuel : ℕ) (pkg : Option StdString) : Routine DemangleInfo := do
  if (← d.currentChar) = '0' then
    advance 1
    return { type := .COMMON_DECL }
  else
    let pkg ← d.packageString fuel pkg
    let isPrivateDeclaration ← d.skipFileName fuel
    let pkgName ← replaceString '$' MODULE_SPLIT fuel pkg
    return { type := .COMMON_DECL, pkgName, isPrivateDeclaration }

def demanglePackageName (fuel : ℕ) : Routine DemangleInfo := do
  step .demanglePackageName
  if (← get).currentIndex < d.mangledName.length then
    match stdPackage (← d.ahead SPECIAL_NAME_LEN) with
    | some pkg =>
      advance SPECIAL_NAME_LEN
      d.packageNameRest fuel (some pkg)
    | none =>
      if isCurrentCharDigit (← d.currentChar) then d.packageNameRest fuel none
      else
        discard d.reject
        return { type := .COMMON_DECL }
  else
    discard d.reject
    return { type := .COMMON_DECL }

/-! ## Lists of types -/

section

variable (byPrefix : Routine DemangleInfo)

def demangleNextUnit : Routine DemangleInfo := do
  let di ← byPrefix
  if (← get).isValid then return di else d.reject

/-- The slots of a routine that reads a list: how many elements it has read, the text so far and
the last elements. -/
structure Slots where
  i : UInt32 := 0
  result : StdString := []
  argsArr : Vector StdString 16 := Vector.replicate 16 []

/-- The elements in the slots are moved to the text, each with a delimiter. -/
def Slots.flush (slots : Slots) (delimiter : StdString) : Slots where
  i := slots.i
  result := slots.argsArr.toList.foldl (fun result arg => result ++ (arg ++ delimiter)) slots.result
  argsArr := Vector.replicate 16 []

/-- `argsArr[i % MAX_ARGS_SIZE] = arg`, and `i` counts it. -/
def Slots.write (slots : Slots) (arg : StdString) : Slots where
  i := slots.i + 1
  result := slots.result
  argsArr := slots.argsArr.set (slots.i.toNat % 16) arg (Nat.mod_lt _ (by decide))

/-- Whether the slots are in use again from the first one on. -/
def Slots.wraps (slots : Slots) : Bool := slots.i.toNat % 16 == 0 && slots.i != 0

def getArgTypesFullName (args : Vector StdString 16) (argSize : ℕ) (delimiter : StdString) :
    StdString :=
  match args.toList.take argSize with
  | [] => []
  | arg :: rest => rest.foldl (fun name arg => name ++ (delimiter ++ arg)) arg

/-- Generic constraints are separated with an underscore. -/
def skipConstraintSeparator : Routine Unit := do
  if (← d.currentChar) = MANGLE_UNDERSCORE_PREFIX then d.skipChar MANGLE_UNDERSCORE_PREFIX

/-- The next argument type: none at the end of the list, and none without a value at an invalid
one. -/
inductive ArgType where
  | done
  | invalid
  | read (di : DemangleInfo)

def nextArgType (more : Bool) : Routine ArgType := do
  step .iteration
  if (← d.isNotEndOfMangledName) && more then
    d.skipConstraintSeparator
    if ← d.isMaybeDefaultFuncParamFunction then return .done
    else
      let curDi ← d.demangleNextUnit byPrefix
      if (← get).isValid then return .read curDi else return .invalid
  else return .done

/-- The loop of `DemangleArgTypes`, which leaves off with nothing at an invalid argument. -/
def argTypesLoop (delimiter : StdString) (size : UInt32) : ℕ → Slots → Routine (Option Slots)
  | 0, _ => outOfFuel
  | fuel + 1, slots => do
    match ← d.nextArgType byPrefix (slots.i < size) with
    | .done => return some slots
    | .invalid => return none
    | .read curDi =>
      let slots := if slots.wraps then slots.flush delimiter else slots
      argTypesLoop delimiter size fuel (slots.write (curDi.getFullName d.scopeResolution))

/-- The text at the end of `DemangleArgTypes`.  What remains in the slots is at least one element,
so that the delimiter behind the last flush is never cut off. -/
def argTypesText (delimiter : StdString) (slots : Slots) : StdString :=
  if slots.i = 0 then slots.result
  else
    slots.result ++
      getArgTypesFullName slots.argsArr ((slots.i - 1).toNat % 16 + 1) delimiter

/-- The letter for no argument types, at the end of the name. -/
def isVoidAtEnd : Routine Bool := do
  if (← get).currentIndex + 1 = d.mangledName.length then
    return (← d.currentChar) == MANGLE_VOID_PREFIX
  else return false

def demangleArgTypes (fuel : ℕ) (delimiter : StdString) (size : UInt32 := -1) :
    Routine StdString := do
  if ← d.isVoidAtEnd then
    d.skipChar MANGLE_VOID_PREFIX
    return []
  else
    match ← d.argTypesLoop byPrefix delimiter size fuel {} with
    | none => return []
    | some slots => return argTypesText delimiter slots

/-- Whether a generic type may follow. -/
def isNotEndOfGenericTypes : Routine Bool := do
  if ← d.isNotEndOfMangledName then
    let ch ← d.currentChar
    if isCurrentCharDigit ch || isFunction ch then return false else return !(← d.isOperatorName)
  else return false

/-- Whether a parameter type may follow. -/
def isNotEndOfParameterTypes : Routine Bool := do
  if ← d.isNotEndOfMangledName then return !isCurrentCharDigit (← d.currentChar)
  else return false

/-- The loop over the types of a list without slots. -/
def typesLoop (more : Routine Bool) (delimiter : StdString) :
    ℕ → Bool → StdString → Routine StdString
  | 0, _, _ => outOfFuel
  | fuel + 1, firstIteration, argTypesFullName => do
    step .iteration
    if ← more then
      let curDi ← d.demangleNextUnit byPrefix
      if (← get).isValid then
        typesLoop more delimiter fuel false
          (argTypesFullName ++ (if firstIteration then [] else delimiter) ++
            curDi.getFullName d.scopeResolution)
      else return argTypesFullName
    else return argTypesFullName

def demangleGenericTypes (fuel : ℕ) : Routine DemangleInfo := do
  let args ← d.typesLoop byPrefix d.isNotEndOfGenericTypes ARGS_DELIMITER_TYPE fuel true []
  return { type := .GENERIC_TYPES, args }

/-- Whether the letter for no parameter types follows. -/
def isVoid : Routine Bool := do
  if ← d.isNotEndOfMangledName then return (← d.currentChar) == MANGLE_VOID_PREFIX
  else return false

def demangleFunctionParameterTypes (fuel : ℕ) : Routine DemangleInfo := do
  if ← d.isVoid then
    advance MANGLE_CHAR_LEN
    return { type := .FUNCTION_PARAMETER_TYPES }
  else
    let args ← d.typesLoop byPrefix d.isNotEndOfParameterTypes ARGS_DELIMITER fuel true []
    return { type := .FUNCTION_PARAMETER_TYPES, args }

/-! ## Nested declarations -/

/-- A component of a path with the text for its slot.  A lambda, an extend and a name at the end of
the mangled name (the last component of all) are written into the slot at once; before the others
the slots are flushed when they are in use again. -/
inductive Component where
  | lambda (text : StdString)
  | extend (text : StdString)
  | last (text : StdString)
  | decl (text : StdString) (typeKind : TypeKind) (curDi : DemangleInfo)

def Component.isLast : Component → Bool
  | .last _ => true
  | _ => false

/-- What is read next of a path: nothing at its end, nothing where it is rejected, or a
component. -/
inductive NextComponent where
  | done
  | rejected
  | component (c : Component)

/-- The name of a component: an operator, or an identifier that may be a property. -/
def componentName (fuel : ℕ) : Routine DemangleInfo := do
  if ← d.isOperatorName then
    let demangled := getOperatorNameMap (← d.ahead SPECIAL_NAME_LEN)
    let isValid := (← get).isValid
    advance SPECIAL_NAME_LEN
    return { type := .NAME, demangled, isValid }
  else
    let demangled ← d.demangleStringName fuel
    let isValid := (← get).isValid
    if ← d.isProp then
      let prop ← d.demangleProp
      return { type := .NAME, demangled := demangled ++ prop, isValid }
    else return { type := .NAME, demangled, isValid }

/-- The end of the generic types of a component, which is left to a class. -/
def skipGenericEnd (isClass : Bool) : Routine Unit := do
  if !isClass then d.skipOptionalChar END

/-- The generic types behind the name of a component. -/
def componentGenerics (fuel : ℕ) (isClass : Bool) (curDi : DemangleInfo) :
    Routine DemangleInfo := do
  if isGeneric (← d.currentChar) then
    d.skipChar MANGLE_GENERIC_PREFIX
    let generic ← d.demangleGenericTypes byPrefix fuel
    d.skipGenericEnd isClass
    let genericTypes := d.genericTypefilter (generic.getFullName d.scopeResolution)
    return { curDi with genericTypes }
  else return curDi

/-- The parameter types behind a component that is a function. -/
def componentParameters (fuel : ℕ) (curDi : DemangleInfo) :
    Routine (TypeKind × DemangleInfo) := do
  if (← d.peekChar) = some MANGLE_FUNCTION_PREFIX then
    d.skipChar MANGLE_FUNCTION_PREFIX
    let funcTys ← d.demangleFunctionParameterTypes byPrefix fuel
    d.skipOptionalChar END
    return (.FUNCTION_DECL, { curDi with functionParameterTypes := funcTys.args })
  else return (.COMMON_DECL, curDi)

/-- The text of a component, with its parameter types where a parameter of it is what is named. -/
def componentText (isParamInit : Bool) (curDi : DemangleInfo) : Routine StdString := do
  let fullName := curDi.getFullName d.scopeResolution
  if isParamInit then
    if (← d.isNotEndOfMangledName) && 0 < curDi.functionParameterTypes.length then
      return fullName ++ LEFT_BRACKET ++ curDi.functionParameterTypes ++ RIGHT_BRACKET
    else return fullName
  else return fullName

/-- A component that begins with its name. -/
def namedComponent (fuel : ℕ) (isClass isParamInit : Bool) : Routine NextComponent := do
  let curDi ← d.componentName fuel
  if (← get).currentIndex < d.mangledName.length then
    step .localCounter
    d.skipLocalCounter fuel
    if (← get).isValid then
      let curDi ← d.componentGenerics byPrefix fuel isClass curDi
      let (typeKind, curDi) ← d.componentParameters byPrefix fuel curDi
      return .component (.decl (← d.componentText isParamInit curDi) typeKind curDi)
    else
      discard d.reject
      return .rejected
  else return .component (.last (curDi.getFullName d.scopeResolution))

/-- The type that is extended. -/
def extendComponent (fuel : ℕ) : Routine NextComponent := do
  advance 1
  if ← d.isQualifiedType then
    let curDi ← d.demangleNextUnit byPrefix
    discard (d.skipFileName fuel)
    d.skipLocalCounter fuel
    return .component (.extend curDi.getIdentifier)
  else
    discard d.reject
    return .rejected

def nextComponent (fuel : ℕ) (isClass isParamInit : Bool) : Routine NextComponent := do
  step .iteration
  if ← d.isNotEndOfMangledName then
    let ch ← d.currentChar
    if ch = MANGLE_LAMBDA_PREFIX then
      advance 1
      let lambdaID ← d.demangleManglingNumber fuel
      return .component (.lambda ("lambda.".toList ++ uintToString lambdaID))
    else if ch = MANGLE_EXTEND_PREFIX then d.extendComponent byPrefix fuel
    else d.namedComponent byPrefix fuel isClass isParamInit
  else return .done

/-- The flush before a declaration is written, behind which the last delimiter is cut off. -/
def Slots.flushCut (slots : Slots) (delimiter : StdString) : Slots :=
  let flushed := slots.flush delimiter
  { flushed with result := truncate flushed.result (flushed.result.length - delimiter.length) }

/-- What `DemangleNestedDecls` keeps between two components. -/
structure Nested where
  slots : Slots := {}
  typeKind : TypeKind := .COMMON_DECL
  lastElement : DemangleInfo := {}

/-- A component goes into its slot. -/
def Nested.write (delimiter : StdString) (nested : Nested) : Component → Nested
  | .lambda text =>
    { nested with slots := nested.slots.write text, typeKind := .LAMBDA_FUNCTION }
  | .extend text => { nested with slots := nested.slots.write text, typeKind := .COMMON_DECL }
  | .last text => { nested with slots := nested.slots.write text, typeKind := .COMMON_DECL }
  | .decl text typeKind curDi =>
    let slots := if nested.slots.wraps then nested.slots.flushCut delimiter else nested.slots
    { slots := slots.write text, typeKind, lastElement := curDi }

/-- The loop of `DemangleNestedDecls`, which returns nothing where the path is rejected. -/
def nestedDeclsLoop (callFuel : ℕ) (isClass isParamInit : Bool) :
    ℕ → Nested → Routine (Option Nested)
  | 0, _ => outOfFuel
  | fuel + 1, nested => do
    match ← d.nextComponent byPrefix callFuel isClass isParamInit with
    | .done => return some nested
    | .rejected => return none
    | .component c =>
      let nested := nested.write d.scopeResolution c
      if c.isLast then return some nested
      else nestedDeclsLoop callFuel isClass isParamInit fuel nested

/-- The text at the end of `DemangleNestedDecls`. -/
def nestedText (delimiter : StdString) (slots : Slots) : StdString :=
  slots.result ++
    getArgTypesFullName slots.argsArr
      (if slots.i = 0 then 0 else (slots.i - 1).toNat % 16 + 1) delimiter

def demangleNestedDecls (fuel : ℕ) (isClass : Bool := false) (isParamInit : Bool := false) :
    Routine DemangleInfo := do
  match ← d.nestedDeclsLoop byPrefix fuel isClass isParamInit fuel {} with
  | none => return d.dumpDi
  | some nested =>
    return { type := nested.typeKind
             demangled := nestedText d.scopeResolution nested.slots
             isValid := (← get).isValid
             functionParameterTypes := nested.lastElement.functionParameterTypes }

/-! ## Units -/

/-- The prefix of a declaration; the result tells the one of the initialization of a variable. -/
def commonDeclPrefix : Routine Bool := do
  if (← d.currentChar) = MANGLE_NESTED_PREFIX then
    d.skipString [MANGLE_NESTED_PREFIX]
    return false
  else
    d.skipString GLOBAL_VARIABLE_INIT_PREFIX
    return true

def demangleCommonDecl (fuel : ℕ) (isClass : Bool := false) : Routine DemangleInfo := do
  let isGlobalVariableInitPrefix ← d.commonDeclPrefix
  if (← get).isValid then
    let pkgDi ← d.demanglePackageName fuel
    let nestedDi ← d.demangleNestedDecls byPrefix fuel isClass
    if (← get).isValid = false ∨ nestedDi.demangled = [] then d.reject
    else
      return { type := if isGlobalVariableInitPrefix then .COMMON_DECL else nestedDi.type
               pkgName := pkgDi.pkgName
               isPrivateDeclaration := pkgDi.isPrivateDeclaration
               demangled := nestedDi.demangled
               args := if nestedDi.type = .FUNCTION_DECL then nestedDi.functionParameterTypes
                       else nestedDi.args }
  else d.reject

/-- The end of a class, if it follows. -/
def skipClassEnd : Routine Unit := do
  if (← d.peekChar) = some END then d.skipChar END

def demangleClass (fuel : ℕ) (typeKind : TypeKind) : Routine DemangleInfo := do
  step .demangleClass
  advance 1
  let di ← d.demangleCommonDecl byPrefix fuel true
  d.skipClassEnd
  return { di with type := typeKind }

/-- `DemangleCFuncType` and `DemangleFunction`, which differ in the prefix. -/
def demangleFunctionType (fuel : ℕ) (pattern : StdString) : Routine DemangleInfo := do
  d.skipString pattern
  let returnType ← d.demangleNextUnit byPrefix
  let args ← d.demangleArgTypes byPrefix fuel ARGS_DELIMITER
  d.skipChar END
  return { type := .FUNCTION, demangled := returnType.getFullName d.scopeResolution, args }

def demangleCFuncType (fuel : ℕ) : Routine DemangleInfo :=
  d.demangleFunctionType byPrefix fuel MANGLE_C_FUNCTY_PREFIX

def demangleFunction (fuel : ℕ) : Routine DemangleInfo :=
  d.demangleFunctionType byPrefix fuel MANGLE_FUNCTY_PREFIX

def demangleTuple (fuel : ℕ) : Routine DemangleInfo := do
  d.skipChar MANGLE_TUPLE_PREFIX
  discard (d.demangleManglingNumber fuel)
  let generic ← d.demangleGenericTypes byPrefix fuel
  d.skipChar END
  return { type := .TUPLE, demangled := MANGLE_TUPLE_STR
           genericTypes := d.genericTypefilter (generic.getFullName d.scopeResolution) }

/-- The brackets of an array, one pair for each dimension. -/
def arrayBrackets : ℕ → StdString → Routine StdString
  | 0, brackets => return brackets
  | dim + 1, brackets => do
    step .iteration
    arrayBrackets dim (brackets ++ "[]".toList)

def demangleRawArray (fuel : ℕ) : Routine DemangleInfo := do
  step .demangleRawArray
  d.skipChar MANGLE_ARRAY_PREFIX
  let dim ← d.demangleManglingNumber fuel
  let genericConstraints ← arrayBrackets dim []
  let element ← d.demangleNextUnit byPrefix
  return { type := .RAW_ARRAY, demangled := MANGLE_ARRAY_STR, genericConstraints
           args := element.getFullName d.scopeResolution }

def demangleVArray (fuel : ℕ) : Routine DemangleInfo := do
  d.skipChar MANGLE_VARRAY_PREFIX
  let num ← d.demangleManglingNumber fuel
  let generic ← d.demangleGenericTypes byPrefix fuel
  return { type := .TUPLE, demangled := MANGLE_VARRAY_STR
           genericTypes := generic.getFullName d.scopeResolution (num % 2 ^ 32) }

def demangleType : Routine DemangleInfo := do
  if ← d.isQualifiedType then
    let curDi ← d.demangleNextUnit byPrefix
    if (← get).isValid then
      return { type := .GENERIC_TYPES, args := curDi.getFullName d.scopeResolution }
    else
      invalidate
      return { type := .GENERIC_TYPES }
  else
    invalidate
    return { type := .GENERIC_TYPES }

def demangleCPointer : Routine DemangleInfo := do
  d.skipChar MANGLE_PTR_PREFIX
  let generic ← d.demangleType byPrefix
  return { type := .CPOINTER, demangled := MANGLE_PTR_STR
           genericTypes := d.genericTypefilter (generic.getFullName d.scopeResolution) }

def demanglePrimitive : Routine DemangleInfo := do
  if (← get).currentIndex < d.mangledName.length then
    let ch ← d.currentChar
    if ← d.matchForward MANGLE_FLOAT16_PREFIX then
      d.skipString MANGLE_FLOAT16_PREFIX
      return { type := .PRIMITIVE, demangled := getPrimitiveDemangleMap ch }
    else if ch = 'D' then d.reject
    else
      d.skipChar ch
      return { type := .PRIMITIVE, demangled := getPrimitiveDemangleMap ch }
  else d.reject

def demangleCStringType : Routine DemangleInfo := do
  d.skipChar MANGLE_CSTRING_PREFIX
  return { type := .CSTRING, demangled := MANGLE_CSTRING_STR, isValid := (← get).isValid }

def demangleGenericType (fuel : ℕ) : Routine DemangleInfo := do
  d.skipChar MANGLE_GTY_PREFIX
  let gNumber ← d.demangleManglingNumber fuel
  if d.genericVec = [] then
    return { type := .GENERIC_TYPES, demangled := MANGLE_TUPLE_PREFIX :: uintToString gNumber
             isValid := (← get).isValid }
  else
    match d.genericVec[gNumber]? with
    | some name =>
      return { type := .GENERIC_TYPES, demangled := name, isValid := (← get).isValid }
    | none =>
      invalidate
      return { type := .GENERIC_TYPES, isValid := (← get).isValid }

/-- A unit that begins with a digit, a primitive type or an operator. -/
def demangleName (fuel : ℕ) (ch : Char) : Routine DemangleInfo := do
  if isCurrentCharDigit ch then
    let demangled ← d.demangleStringName fuel
    return { type := .NAME, demangled, isValid := (← get).isValid }
  else if isPrimitive ch then d.demanglePrimitive
  else if ← d.isOperatorName then
    let demangled := getOperatorNameMap (← d.ahead SPECIAL_NAME_LEN)
    let isValid := (← get).isValid
    advance SPECIAL_NAME_LEN
    return { type := .NAME, demangled, isValid }
  else d.reject

/-- The function types, told apart by the character behind the prefix. -/
def demangleFunctionPrefix (fuel : ℕ) : Routine DemangleInfo := do
  let index := (← get).currentIndex
  if index + MANGLE_CHAR_LEN < d.mangledName.length then
    let ch ← d.charAt (index + MANGLE_CHAR_LEN)
    if ch = '0' then d.demangleFunction byPrefix fuel
    else if ch = 'C' then d.demangleCFuncType byPrefix fuel
    else d.reject
  else d.reject

/-- The routine for the first character of a unit. -/
def demangleUnit (fuel : ℕ) (ch : Char) : Routine DemangleInfo :=
  match ch with
  | 'C' => d.demangleClass byPrefix fuel .CLASS
  | 'R' => d.demangleClass byPrefix fuel .STRUCT
  | 'F' => d.demangleFunctionPrefix byPrefix fuel
  | 'N' => d.demangleClass byPrefix fuel .ENUM
  | 'T' => d.demangleTuple byPrefix fuel
  | 'P' => d.demangleCPointer byPrefix
  | '_' => d.reject
  | 'A' => d.demangleRawArray byPrefix fuel
  | 'V' => d.demangleVArray byPrefix fuel
  | 'k' => d.demangleCStringType
  | 'G' => d.demangleGenericType fuel
  | ch => d.demangleName fuel ch

end

def demangleByPrefix : ℕ → Routine DemangleInfo
  | 0 => outOfFuel
  | fuel + 1 => do
    step .demangleByPrefix
    if (← get).currentIndex < d.mangledName.length then
      d.demangleUnit (demangleByPrefix fuel) fuel (← d.currentChar)
    else d.reject

end Demangler

end Cangjie.Demangle
