import CangjieCompiler.Lex.Token
import Mathlib

/-!
# The format of macro messages

The tables of the schema for the messages between the compiler and the process that evaluates
macros.  No field of a table is required: a field that is not a number may be absent from a
message, and is then read as null.  The elements of a vector are always present.

The bytes are made and read by FlatBuffers and by code generated from the schema.
-/

namespace Cangjie.MacroMsgFormat

/-- A string is a list of bytes. -/
abbrev Str := List UInt8

structure Position where
  file_id : BitVec 32
  line : BitVec 32
  column : BitVec 32
  deriving DecidableEq, Repr

structure Token where
  kind : UInt8
  value : Option Str
  beginPos : Option Position
  endPos : Option Position
  delimiterNum : BitVec 32 := 1
  deriving DecidableEq, Repr

structure IdInfo where
  name : Option Str
  pos : Option Position
  deriving DecidableEq, Repr

structure TokensValue where
  val : Option (List Token)
  deriving DecidableEq, Repr

/-- The value of an item, of the type that its tag says; `other` is a tag of no type. -/
inductive OptionValue where
  | sValue (value : Option Str)
  | iValue (value : Option (BitVec 64))
  | bValue (value : Option Bool)
  | tValue (value : Option TokensValue)
  | other (tag : UInt8)
  deriving DecidableEq, Repr

structure ItemInfo where
  key : Option Str
  value : OptionValue
  deriving DecidableEq, Repr

structure ChildMsg where
  childName : Option Str
  items : Option (List ItemInfo)
  deriving DecidableEq, Repr

structure DefLib where
  paths : Option (List Str)
  deriving DecidableEq, Repr

structure Diagnostic where
  diagSeverity : BitVec 32
  beginPos : Option Position
  endPos : Option Position
  errorMessage : Option Str
  mainHint : Option Str
  deriving DecidableEq, Repr

structure MacroCall where
  id : Option IdInfo
  hasAttrs : Bool
  args : Option (List Token)
  attrs : Option (List Token)
  parentNames : Option (List Str)
  childMsges : Option (List ChildMsg)
  methodName : Option Str
  packageName : Option Str
  libPath : Option Str
  beginPos : Option Position
  endPos : Option Position
  deriving DecidableEq, Repr

structure MacroResult where
  id : Option IdInfo
  status : UInt8
  tks : Option (List Token)
  items : Option (List ItemInfo)
  assertParents : Option (List Str)
  diags : Option (List Diagnostic)
  deriving DecidableEq, Repr

structure MultiMacroCalls where
  calls : Option (List MacroCall)
  deriving DecidableEq, Repr

/-- The content of a message, of the type that its tag says; `other` is a tag of no type. -/
inductive MsgContent where
  | defLib (content : Option DefLib)
  | multiCalls (content : Option MultiMacroCalls)
  | macroResult (content : Option MacroResult)
  | exitTask (flag : Option Bool)
  | other (tag : UInt8)
  deriving DecidableEq, Repr

structure MacroMsg where
  content : MsgContent
  deriving DecidableEq, Repr

/-! ## The number of tables -/

/-- The number of tables in a field that may be absent. -/
def tablesOf {α : Type} (tables : α → ℕ) : Option α → ℕ
  | none => 0
  | some a => tables a

/-- The number of tables in a vector of tables. -/
def tablesIn {α : Type} (tables : α → ℕ) (as : List α) : ℕ := (as.map tables).sum

def Token.tables (_ : Token) : ℕ := 1

def IdInfo.tables (_ : IdInfo) : ℕ := 1

def Diagnostic.tables (_ : Diagnostic) : ℕ := 1

def DefLib.tables (_ : DefLib) : ℕ := 1

def TokensValue.tables (t : TokensValue) : ℕ := 1 + tablesOf (tablesIn Token.tables) t.val

def OptionValue.tables : OptionValue → ℕ
  | .tValue value => tablesOf TokensValue.tables value
  | _ => 0

def ItemInfo.tables (item : ItemInfo) : ℕ := 1 + item.value.tables

def ChildMsg.tables (msg : ChildMsg) : ℕ := 1 + tablesOf (tablesIn ItemInfo.tables) msg.items

def MacroCall.tables (call : MacroCall) : ℕ :=
  1 + tablesOf IdInfo.tables call.id + tablesOf (tablesIn Token.tables) call.args +
    tablesOf (tablesIn Token.tables) call.attrs +
    tablesOf (tablesIn ChildMsg.tables) call.childMsges

def MacroResult.tables (result : MacroResult) : ℕ :=
  1 + tablesOf IdInfo.tables result.id + tablesOf (tablesIn Token.tables) result.tks +
    tablesOf (tablesIn ItemInfo.tables) result.items +
    tablesOf (tablesIn Diagnostic.tables) result.diags

def MultiMacroCalls.tables (calls : MultiMacroCalls) : ℕ :=
  1 + tablesOf (tablesIn MacroCall.tables) calls.calls

def MsgContent.tables : MsgContent → ℕ
  | .defLib content => tablesOf DefLib.tables content
  | .multiCalls content => tablesOf MultiMacroCalls.tables content
  | .macroResult content => tablesOf MacroResult.tables content
  | _ => 0

/-- The number of tables of a message. -/
def MacroMsg.tables (msg : MacroMsg) : ℕ := 1 + msg.content.tables

/-- The tables of a message are nested at most this deep: a token of the value of an item of a
child message of a macro call. -/
def deepestNesting : ℕ := 7

/-! ## FlatBuffers -/

/-- What FlatBuffers and the generated code offer: the bytes of a message, the verification of
bytes with a limit for the depth and one for the number of tables, and the message in verified
bytes. -/
structure FlatBuffers where
  Finish : MacroMsg → List UInt8
  VerifyMacroMsgBuffer : ℕ → ℕ → List UInt8 → Bool
  GetMacroMsg : List UInt8 → MacroMsg

/-- FlatBuffers returns the fields it was given, from bytes that pass the verification exactly when
the message has no more tables than allowed. -/
structure FlatBuffers.Stores (fb : FlatBuffers) (msg : MacroMsg) : Prop where
  nonempty : fb.Finish msg ≠ []
  returned : fb.GetMacroMsg (fb.Finish msg) = msg
  verified : ∀ maxDepth maxTables, deepestNesting ≤ maxDepth →
    (fb.VerifyMacroMsgBuffer maxDepth maxTables (fb.Finish msg) = true ↔ msg.tables ≤ maxTables)

end Cangjie.MacroMsgFormat
