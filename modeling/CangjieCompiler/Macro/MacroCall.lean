import CangjieCompiler.Lex.Token
import Mathlib.Data.List.Basic

/-!
# Macro calls

What the evaluation of macros keeps for a macro call: its invocation with the tokens before and
after the evaluation, the items that it has set for the macros around it, the messages of its
children, and the diagnostics.
-/

namespace Cangjie

inductive MacroEvalStatus where
  | INIT | READY | EVAL | SUCCESS | FAIL | REEVAL | FINISH | ANNOTATION | REEVALFAILED
  deriving DecidableEq, Repr

def MacroEvalStatus.toNat (status : MacroEvalStatus) : ℕ := status.ctorIdx

inductive ItemKind where
  | STRING | INT | BOOL | TKS
  deriving DecidableEq, Repr

/-- The kind with the given number, which starts from one. -/
def ItemKind.ofByte? (type : UInt8) : Option ItemKind :=
  if type = 1 then some .STRING
  else if type = 2 then some .INT
  else if type = 3 then some .BOOL
  else if type = 4 then some .TKS
  else none

/-- An item of the context of a macro.  The kind is `none` where no kind has been set. -/
structure ItemInfo where
  key : List UInt8 := []
  kind : Option ItemKind := none
  sValue : List UInt8 := []
  iValue : BitVec 64 := 0
  bValue : Bool := false
  tValue : List Token := []
  deriving DecidableEq, Repr

instance : Inhabited ItemInfo := ⟨{}⟩

structure ChildMessage where
  childName : List UInt8 := []
  items : List ItemInfo := []
  deriving DecidableEq, Repr

instance : Inhabited ChildMessage := ⟨{}⟩

structure MacroCallDiagInfo where
  fullName : List UInt8 := []
  identifier : List UInt8
  identifierPos : Position
  deriving DecidableEq, Repr

structure MacroInvocation where
  macroCallDiagInfo : MacroCallDiagInfo
  attrs : List Token
  args : List Token
  newTokens : List Token := []
  hasAttr : Bool
  deriving DecidableEq, Repr

/-- A pointer to memory of the foreign function interface, which may be null. -/
abbrev HANDLE := Option (List UInt8)

/-- The call of a macro, with its invocation present.  The recorded information is one list of
triples: a key, a value and the number of a kind. -/
structure MacroCall where
  invocation : MacroInvocation
  beginPos : Position
  endPos : Position
  status : MacroEvalStatus := .INIT
  recordMacroInfo : List HANDLE := []
  methodName : List UInt8
  packageName : List UInt8
  libPath : List UInt8
  parentNames : List (List UInt8) := []
  items : List ItemInfo := []
  childMessages : List ChildMessage := []
  assertParents : List (List UInt8) := []
  children : List MacroCall := []

def MacroCall.getFullName (call : MacroCall) : List UInt8 :=
  call.invocation.macroCallDiagInfo.fullName

/-! ## Diagnostics -/

inductive DiagSeverity where
  | DS_ERROR | DS_WARNING | DS_NOTE | DS_HINT
  deriving DecidableEq, Repr

def DiagSeverity.toNat (severity : DiagSeverity) : ℕ := severity.ctorIdx

def DEFAULT_POSITION : Position := ⟨0, -1, -1⟩

structure Range where
  beginPos : Position := DEFAULT_POSITION
  endPos : Position := DEFAULT_POSITION
  deriving DecidableEq, Repr

structure IntegratedString where
  range : Range := {}
  str : List UInt8 := []
  deriving DecidableEq, Repr

/-- A diagnostic.  The range of the main hint is where it is shown. -/
structure Diagnostic where
  diagSeverity : DiagSeverity
  start : Position := ⟨0, 0, 0⟩
  endPos : Position := ⟨0, 0, 0⟩
  errorMessage : List UInt8 := []
  mainHint : IntegratedString := {}
  deriving DecidableEq, Repr

end Cangjie
