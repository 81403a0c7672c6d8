import CangjieCompiler.Foundations.PartialLoop
import CangjieCompiler.Macro.MacroCall
import CangjieCompiler.Macro.MacroMsgFormat
import CangjieCompiler.Macro.TokenSerialization

/-!
# The serializer of macro messages

The writers build the tables of a message; the readers take a message apart.  A reader that goes
through a field that is absent dereferences a null pointer: its result is then `none`.  A writer
without result has aborted or has dereferenced a null pointer.

Enumerations are read from numbers by a cast.  A number that names no member, which the writers
never produce, is read as the last one here.
-/

namespace Cangjie.MacroEvalMsgSerializer

open MacroMsgFormat (FlatBuffers MacroMsg MsgContent)
open PartialLoop

/-! ## Verified messages -/

def MACRO_MSG_MAX_DEPTH : ℕ := 128

def MACRO_MSG_MAX_TABLES : ℕ := 2000000

/-- The message in a buffer, or null when the buffer is malformed. -/
def getVerifiedMacroMsg (fb : FlatBuffers) (bufferData : List UInt8) : Option MacroMsg :=
  if bufferData.isEmpty then none
  else if !fb.VerifyMacroMsgBuffer MACRO_MSG_MAX_DEPTH MACRO_MSG_MAX_TABLES bufferData then none
  else some (fb.GetMacroMsg bufferData)

def content_as_defLib : MsgContent → Option MacroMsgFormat.DefLib
  | .defLib content => content
  | _ => none

def content_as_multiCalls : MsgContent → Option MacroMsgFormat.MultiMacroCalls
  | .multiCalls content => content
  | _ => none

def content_as_macroResult : MsgContent → Option MacroMsgFormat.MacroResult
  | .macroResult content => content
  | _ => none

/-- The result in a buffer, or null when the buffer is malformed or holds no result. -/
def getVerifiedMacroResult (fb : FlatBuffers) (bufferData : List UInt8) :
    Option MacroMsgFormat.MacroResult :=
  match getVerifiedMacroMsg fb bufferData with
  | none => none
  | some msg => content_as_macroResult msg.content

/-! ## Writing -/

def createPosition (pos : Position) : MacroMsgFormat.Position := ⟨pos.fileID, pos.line, pos.column⟩

def createToken (tk : Token) : MacroMsgFormat.Token where
  kind := UInt8.ofNat tk.kind.toNat
  value := some tk.value
  beginPos := some (createPosition tk.beginPos)
  endPos := some (createPosition tk.endPos)
  delimiterNum := tk.delimiterNum

def createTokenVec (tks : List Token) : List MacroMsgFormat.Token := tks.map createToken

def createIdInfo (info : MacroCallDiagInfo) : MacroMsgFormat.IdInfo :=
  ⟨some info.identifier, some (createPosition info.identifierPos)⟩

mutual

/-- The messages of the children of a macro call, every child before its own children. -/
def getChildMessages (macCall : MacroCall) : List ChildMessage :=
  match macCall with
  | ⟨_, _, _, _, _, _, _, _, _, _, _, _, children⟩ => childMessagesOf children

def childMessagesOf : List MacroCall → List ChildMessage
  | [] => []
  | child :: children =>
    (if child.items.isEmpty then [] else [⟨child.getFullName, child.items⟩]) ++
      getChildMessages child ++ childMessagesOf children

end

/-- An item without a kind aborts. -/
def creatItemInfo (it : ItemInfo) : Option MacroMsgFormat.ItemInfo :=
  match it.kind with
  | some .STRING => some ⟨some it.key, .sValue (some it.sValue)⟩
  | some .INT => some ⟨some it.key, .iValue (some it.iValue)⟩
  | some .BOOL => some ⟨some it.key, .bValue (some it.bValue)⟩
  | some .TKS => some ⟨some it.key, .tValue (some ⟨some (createTokenVec it.tValue)⟩)⟩
  | none => none

def creatItemInfoVec (items : List ItemInfo) : Option (List MacroMsgFormat.ItemInfo) :=
  items.mapM creatItemInfo

def createDiag (diag : Diagnostic) : MacroMsgFormat.Diagnostic where
  diagSeverity := BitVec.ofNat 32 diag.diagSeverity.toNat
  beginPos := some (createPosition diag.mainHint.range.beginPos)
  endPos := some (createPosition diag.mainHint.range.endPos)
  errorMessage := some diag.errorMessage
  mainHint := some diag.mainHint.str

def createDiagVec (diags : List Diagnostic) : List MacroMsgFormat.Diagnostic := diags.map createDiag

def createChildMsg (msg : ChildMessage) : Option MacroMsgFormat.ChildMsg := do
  let items ← creatItemInfoVec msg.items
  pure ⟨some msg.childName, some items⟩

def createMacroCall (macCall : MacroCall) : Option MacroMsgFormat.MacroCall := do
  let childMsges ← (getChildMessages macCall).mapM createChildMsg
  pure
    { id := some (createIdInfo macCall.invocation.macroCallDiagInfo)
      hasAttrs := macCall.invocation.hasAttr
      args := some (createTokenVec macCall.invocation.args)
      attrs := some (createTokenVec macCall.invocation.attrs)
      parentNames := some macCall.parentNames
      childMsges := some childMsges
      methodName := some macCall.methodName
      packageName := some macCall.packageName
      libPath := some macCall.libPath
      beginPos := some (createPosition macCall.beginPos)
      endPos := some (createPosition macCall.endPos) }

/-- The string in memory, which ends before the first NUL byte. -/
def cString (memory : List UInt8) : List UInt8 := memory.takeWhile (· ≠ 0)

/-- The number of eight bytes in memory. -/
def int64At (memory : List UInt8) : Option (BitVec 64) :=
  (ByteCodec.readLE 8 memory).map fun read => BitVec.ofNat 64 read.1

/-- The tables of one recorded triple.  There is none for a key that is null and for a number that
names no kind. -/
def createRecordedItem (pKey pValue pType : HANDLE) : Option (List MacroMsgFormat.ItemInfo) :=
  match pKey with
  | none => some []
  | some memory => do
    let key := some (cString memory)
    let typeMemory ← pType
    let type ← typeMemory.head?
    match ItemKind.ofByte? type with
    | some .STRING => do
      let value ← pValue
      pure [⟨key, .sValue (some (cString value))⟩]
    | some .INT => do
      let value ← pValue
      let iValue ← int64At value
      pure [⟨key, .iValue (some iValue)⟩]
    | some .BOOL => do
      let value ← pValue
      let byte ← value.head?
      pure [⟨key, .bValue (some (byte ≠ 0))⟩]
    | some .TKS =>
      match pValue with
      | none => pure [⟨key, .tValue (some ⟨some (createTokenVec [])⟩)⟩]
      | some value => do
        -- the tokens come after the number of their bytes
        let tokens ← TokenSerialization.getTokensFromBytes (some (value.drop 4))
        pure [⟨key, .tValue (some ⟨some (createTokenVec tokens)⟩)⟩]
    | none => pure []

def createItemsVecFromRecordMacroInfo : List HANDLE → Option (List MacroMsgFormat.ItemInfo)
  | pKey :: pValue :: pType :: recordMacroInfo => do
    let items ← createRecordedItem pKey pValue pType
    let itemsVec ← createItemsVecFromRecordMacroInfo recordMacroInfo
    pure (items ++ itemsVec)
  | _ => some []

/-! ## The messages that are written -/

def serializeDeflibMsg (macrolibs : List (List UInt8)) : MacroMsg :=
  ⟨.defLib (some ⟨some macrolibs⟩)⟩

def serializeMacroCallMsg (macCall : MacroCall) : Option MacroMsg := do
  let call ← createMacroCall macCall
  pure ⟨.multiCalls (some ⟨some [call]⟩)⟩

def serializeMultiCallsMsg (macCalls : List MacroCall) : Option MacroMsg := do
  let calls ← macCalls.mapM createMacroCall
  pure ⟨.multiCalls (some ⟨some calls⟩)⟩

/-- The items of a result are those of the macro call, or else the recorded ones. -/
def createResultItems (macCall : MacroCall) : Option (List MacroMsgFormat.ItemInfo) :=
  if !macCall.items.isEmpty then creatItemInfoVec macCall.items
  else if macCall.recordMacroInfo.length / 3 > 0 then
    createItemsVecFromRecordMacroInfo macCall.recordMacroInfo
  else some []

/-- The message of a result; `diags` are the parse diagnostics of the instance that evaluates. -/
def serializeMacroCallResultMsg (macCall : MacroCall) (diags : List Diagnostic) :
    Option MacroMsg := do
  let items ← createResultItems macCall
  pure ⟨.macroResult (some
    { id := some (createIdInfo macCall.invocation.macroCallDiagInfo)
      status := UInt8.ofNat macCall.status.toNat
      tks := some (createTokenVec macCall.invocation.newTokens)
      items := some items
      assertParents := some macCall.assertParents
      diags := some (createDiagVec diags) })⟩

/-! ## Reading -/

def deserializePositionFromPositionBuf (posBuf : MacroMsgFormat.Position) : Position :=
  ⟨posBuf.file_id, posBuf.line, posBuf.column⟩

/-- Reads into the given token; the quote style is left as it is. -/
def deserializeTokenFromTokenBuf (tk : Token) (tkBuffer : MacroMsgFormat.Token) :
    Option Token := do
  let beginBuf ← tkBuffer.beginPos
  let endBuf ← tkBuffer.endPos
  let value ← tkBuffer.value
  pure
    { tk with
      kind := TokenKind.ofNat tkBuffer.kind.toNat
      delimiterNum := tkBuffer.delimiterNum
      value := value
      beginPos := deserializePositionFromPositionBuf beginBuf
      endPos := deserializePositionFromPositionBuf endBuf }

/-- A token of the given kind with nothing else set. -/
def tokenOfKind (kind : TokenKind) : Token where
  kind := kind
  delimiterNum := 1
  isSingleQuote := false
  commentForMacroDebug := false
  value := []
  beginPos := INVALID_POSITION
  endPos := INVALID_POSITION

def deserializeTokensFromOffsetTokenVec (offsetVec : List MacroMsgFormat.Token) :
    Option (List Token) :=
  readReusing deserializeTokenFromTokenBuf (tokenOfKind .ILLEGAL) offsetVec

/-- Reads into the given diagnostic; the range of the main hint is left as it is. -/
def deserializeDiagFromDiagBuf (diag : Diagnostic) (diagBuffer : MacroMsgFormat.Diagnostic) :
    Option Diagnostic := do
  let beginBuf ← diagBuffer.beginPos
  let endBuf ← diagBuffer.endPos
  let errorMessage ← diagBuffer.errorMessage
  let mainHint ← diagBuffer.mainHint
  pure
    { diag with
      start := deserializePositionFromPositionBuf beginBuf
      endPos := deserializePositionFromPositionBuf endBuf
      errorMessage := errorMessage
      mainHint := { diag.mainHint with str := mainHint }
      diagSeverity := DiagSeverity.ofNat (diagBuffer.diagSeverity.toNat % 256) }

def deserializeDiagsFromOffsetDiagVec (offsetVec : List MacroMsgFormat.Diagnostic) :
    Option (List Diagnostic) :=
  readReusing deserializeDiagFromDiagBuf { diagSeverity := .DS_ERROR } offsetVec

/-- Reads into the given item, which is left as it is when the key is absent. -/
def deserializeItemFromItemBuf (item : ItemInfo) (itemBuf : MacroMsgFormat.ItemInfo) :
    Option ItemInfo :=
  match itemBuf.key with
  | none => some item
  | some key =>
    match itemBuf.value with
    | .sValue value => do
      let sValue ← value
      pure { item with key := key, kind := some .STRING, sValue := sValue }
    | .iValue value => do
      let iValue ← value
      pure { item with key := key, kind := some .INT, iValue := iValue }
    | .bValue value => do
      let bValue ← value
      pure { item with key := key, kind := some .BOOL, bValue := bValue }
    | .tValue value => do
      let tValue ← value
      let offsetVec ← tValue.val
      let tks ← deserializeTokensFromOffsetTokenVec offsetVec
      pure { item with key := key, kind := some .TKS, tValue := tks }
    | .other _ => some { item with key := key }

def deserializeItemsFromItemsBuf (items : List ItemInfo) (itemsBuf : List MacroMsgFormat.ItemInfo) :
    Option (List ItemInfo) :=
  readInto deserializeItemFromItemBuf items itemsBuf

/-! ## Reading the libraries -/

def deSerializeDeflibMsg (fb : FlatBuffers) (bufferData : List UInt8) :
    Option (List (List UInt8)) :=
  match getVerifiedMacroMsg fb bufferData with
  | none => some []
  | some msg =>
    match content_as_defLib msg.content with
    | none => some []
    | some defLib =>
      match defLib.paths with
      | none => some []
      | some paths => some paths

/-! ## Reading macro calls -/

def deSerializeRangeFromCall (callFmt : MacroMsgFormat.MacroCall) :
    Option (Position × Position) := do
  let beginBuf ← callFmt.beginPos
  let endBuf ← callFmt.endPos
  pure (deserializePositionFromPositionBuf beginBuf, deserializePositionFromPositionBuf endBuf)

def deSerializeIdInfoFromCall (callFmt : MacroMsgFormat.MacroCall) :
    Option (List UInt8 × Position) := do
  let info ← callFmt.id
  let name ← info.name
  let posBuf ← info.pos
  pure (name, deserializePositionFromPositionBuf posBuf)

def deSerializeArgsFromCall (callFmt : MacroMsgFormat.MacroCall) : Option (List Token) := do
  let args ← callFmt.args
  deserializeTokensFromOffsetTokenVec args

def deSerializeAttrsFromCall (callFmt : MacroMsgFormat.MacroCall) : Option (List Token) := do
  let attrs ← callFmt.attrs
  deserializeTokensFromOffsetTokenVec attrs

def deSerializeParentNamesFromCall (callFmt : MacroMsgFormat.MacroCall) :
    Option (List (List UInt8)) :=
  callFmt.parentNames

def deserializeChildMsg (msg : ChildMessage) (msgBuf : MacroMsgFormat.ChildMsg) :
    Option ChildMessage := do
  let childName ← msgBuf.childName
  let itemsBuf ← msgBuf.items
  let items ← deserializeItemsFromItemsBuf msg.items itemsBuf
  pure ⟨childName, items⟩

def deSerializeChildMsgesFromCall (childMsges : List ChildMessage)
    (callFmt : MacroMsgFormat.MacroCall) : Option (List ChildMessage) := do
  let msgesBuf ← callFmt.childMsges
  readInto deserializeChildMsg childMsges msgesBuf

/-- The macro call that the evaluating process makes from a table. -/
def deSerializeMacroCall (callFmt : MacroMsgFormat.MacroCall) : Option MacroCall := do
  let range ← deSerializeRangeFromCall callFmt
  let idInfo ← deSerializeIdInfoFromCall callFmt
  let args ← deSerializeArgsFromCall callFmt
  let attrs ← deSerializeAttrsFromCall callFmt
  let parentNames ← deSerializeParentNamesFromCall callFmt
  let childMessages ← deSerializeChildMsgesFromCall [] callFmt
  let methodName ← callFmt.methodName
  let packageName ← callFmt.packageName
  let libPath ← callFmt.libPath
  pure
    { invocation :=
        { macroCallDiagInfo := { identifier := idInfo.1, identifierPos := idInfo.2 }
          args := args
          attrs := attrs
          hasAttr := callFmt.hasAttrs }
      beginPos := range.1
      endPos := range.2
      parentNames := parentNames
      childMessages := childMessages
      methodName := methodName
      packageName := packageName
      libPath := libPath }

/-- The macro calls that the evaluating process takes from a buffer.  The tag of the content is
taken from the verified message, the content from the buffer. -/
def evalMacroCall (fb : FlatBuffers) (msg : List UInt8) : Option (List MacroCall) :=
  match getVerifiedMacroMsg fb msg with
  | some ⟨.multiCalls _⟩ => do
    let callsOffset ← content_as_multiCalls (fb.GetMacroMsg msg).content
    let calls ← callsOffset.calls
    calls.mapM deSerializeMacroCall
  | _ => some []

/-! ## Reading results -/

/-- Reads into the given name and position, which are left as they are when something is absent. -/
def deSerializeIdInfoFromResult (fb : FlatBuffers) (id : List UInt8) (pos : Position)
    (bufferData : List UInt8) : Option (List UInt8 × Position) :=
  match getVerifiedMacroResult fb bufferData with
  | none => some (id, pos)
  | some result =>
    match result.id with
    | none => some (id, pos)
    | some rId =>
      match rId.name, rId.pos with
      | none, _ => some (id, pos)
      | some _, none => some (id, pos)
      | some name, some posBuf => some (name, deserializePositionFromPositionBuf posBuf)

/-- Reads one vector of a result into a list that was cleared before.  The list stays empty when
the message is dropped and when the vector is absent. -/
def readFromResult {α β : Type} (field : MacroMsgFormat.MacroResult → Option α)
    (read : α → Option (List β)) (fb : FlatBuffers) (bufferData : List UInt8) :
    Option (List β) :=
  match getVerifiedMacroResult fb bufferData with
  | none => some []
  | some result =>
    match field result with
    | none => some []
    | some a => read a

def deSerializeTksFromResult : FlatBuffers → List UInt8 → Option (List Token) :=
  readFromResult (·.tks) deserializeTokensFromOffsetTokenVec

def deSerializeDiagsFromResult : FlatBuffers → List UInt8 → Option (List Diagnostic) :=
  readFromResult (·.diags) deserializeDiagsFromOffsetDiagVec

def deSerializeStatusFromResult (fb : FlatBuffers) (bufferData : List UInt8) : MacroEvalStatus :=
  match getVerifiedMacroResult fb bufferData with
  | none => .REEVALFAILED
  | some result => MacroEvalStatus.ofNat result.status.toNat

def deSerializeItemsFromResult : FlatBuffers → List UInt8 → Option (List ItemInfo) :=
  readFromResult (·.items) (deserializeItemsFromItemsBuf [])

def deSerializeAssertParentsFromResult : FlatBuffers → List UInt8 → Option (List (List UInt8)) :=
  readFromResult (·.assertParents) some

end Cangjie.MacroEvalMsgSerializer
