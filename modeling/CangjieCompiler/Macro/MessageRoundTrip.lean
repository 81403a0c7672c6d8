import CangjieCompiler.Macro.MacroEvalMsgSerializer

/-!
# The round trip of macro messages

A macro call travels to the evaluating process and its result back.  Reading returns every field
that was written, one by one; the message is dropped as a whole when it has more tables than the
verification allows.  One thing is not written: whether a token was in single quotes.  So a message
round-trips exactly when it is small enough and none of its tokens is in single quotes.

The positions of a diagnostic are those of the range of its main hint.  The reader puts them into
the start and the end of the diagnostic, from where they are reported.
-/

namespace Cangjie.MacroEvalMsgSerializer

open MacroMsgFormat (FlatBuffers MacroMsg MsgContent)
open PartialLoop

/-! ## The messages of nested macro calls -/

mutual

/-- The macro calls inside a macro call, at every depth, each before those inside of it. -/
def descendants (macCall : MacroCall) : List MacroCall :=
  match macCall with
  | ⟨_, _, _, _, _, _, _, _, _, _, _, _, children⟩ => descendantsOf children

def descendantsOf : List MacroCall → List MacroCall
  | [] => []
  | child :: children => child :: descendants child ++ descendantsOf children

end

/-- The messages of macro calls: those calls have one that have set items. -/
def messagesOf (calls : List MacroCall) : List ChildMessage :=
  (calls.filter fun call => !call.items.isEmpty).map fun call => ⟨call.getFullName, call.items⟩

theorem messagesOf_append (calls calls' : List MacroCall) :
    messagesOf (calls ++ calls') = messagesOf calls ++ messagesOf calls' := by
  rw [messagesOf, List.filter_append, List.map_append]
  rfl

theorem messagesOf_cons (call : MacroCall) (calls : List MacroCall) :
    messagesOf (call :: calls) =
      (if call.items.isEmpty then [] else [⟨call.getFullName, call.items⟩]) ++
        messagesOf calls := by
  rw [messagesOf, List.filter_cons]
  cases call.items.isEmpty <;> rfl

/-- The child messages that are written are those of all macro calls inside. -/
theorem getChildMessages_eq (macCall : MacroCall) :
    getChildMessages macCall = messagesOf (descendants macCall) := by
  -- the second induction is on the lists of children
  refine @MacroCall.rec (fun call => getChildMessages call = messagesOf (descendants call))
    (fun calls => childMessagesOf calls = messagesOf (descendantsOf calls))
    (fun _ _ _ _ _ _ _ _ _ _ _ _ _ ih => ih) rfl (fun child children ih ihRest => ?_) macCall
  rw [childMessagesOf, descendantsOf, List.cons_append, messagesOf_cons, messagesOf_append, ih,
    ihRest, List.append_assoc]

/-! ## What is the same -/

/-- What printing and lexing again use of a token is the same. -/
structure SameToken (tk back : Token) : Prop where
  kind : back.kind = tk.kind
  value : back.value = tk.value
  beginPos : back.beginPos = tk.beginPos
  endPos : back.endPos = tk.endPos
  delimiterNum : back.delimiterNum = tk.delimiterNum
  isSingleQuote : back.isSingleQuote = tk.isSingleQuote

/-- The value that the kind of an item announces is the same. -/
def SameValue (item back : ItemInfo) : Prop :=
  match item.kind with
  | some .STRING => back.sValue = item.sValue
  | some .INT => back.iValue = item.iValue
  | some .BOOL => back.bValue = item.bValue
  | some .TKS => List.Forall₂ SameToken item.tValue back.tValue
  | none => True

structure SameItem (item back : ItemInfo) : Prop where
  key : back.key = item.key
  kind : back.kind = item.kind
  value : SameValue item back

structure SameChildMessage (msg back : ChildMessage) : Prop where
  childName : back.childName = msg.childName
  items : List.Forall₂ SameItem msg.items back.items

/-- The positions of the main hint come back as start and end. -/
structure SameDiagnostic (diag back : Diagnostic) : Prop where
  diagSeverity : back.diagSeverity = diag.diagSeverity
  start : back.start = diag.mainHint.range.beginPos
  endPos : back.endPos = diag.mainHint.range.endPos
  errorMessage : back.errorMessage = diag.errorMessage
  mainHint : back.mainHint.str = diag.mainHint.str

/-- What the evaluation of a macro call uses is the same; the messages of the macro calls inside
come back as one list. -/
structure SameCall (call back : MacroCall) : Prop where
  identifier : back.invocation.macroCallDiagInfo.identifier =
    call.invocation.macroCallDiagInfo.identifier
  identifierPos : back.invocation.macroCallDiagInfo.identifierPos =
    call.invocation.macroCallDiagInfo.identifierPos
  hasAttr : back.invocation.hasAttr = call.invocation.hasAttr
  args : List.Forall₂ SameToken call.invocation.args back.invocation.args
  attrs : List.Forall₂ SameToken call.invocation.attrs back.invocation.attrs
  parentNames : back.parentNames = call.parentNames
  childMessages : List.Forall₂ SameChildMessage (messagesOf (descendants call)) back.childMessages
  methodName : back.methodName = call.methodName
  packageName : back.packageName = call.packageName
  libPath : back.libPath = call.libPath
  beginPos : back.beginPos = call.beginPos
  endPos : back.endPos = call.endPos

/-! ## Double quotes -/

def DoubleQuoted (tks : List Token) : Prop := ∀ tk ∈ tks, tk.isSingleQuote = false

def ItemDoubleQuoted (item : ItemInfo) : Prop :=
  item.kind = some .TKS → DoubleQuoted item.tValue

/-- No token that travels with a macro call is in single quotes. -/
def CallDoubleQuoted (call : MacroCall) : Prop :=
  DoubleQuoted call.invocation.args ∧ DoubleQuoted call.invocation.attrs ∧
  ∀ msg ∈ messagesOf (descendants call), ∀ item ∈ msg.items, ItemDoubleQuoted item

/-! ## Tokens -/

/-- The token that is read back. -/
def tokenBack (tk : Token) : Token :=
  { tk with isSingleQuote := false, commentForMacroDebug := false }

/-- What reading a token does not touch, in a token that nothing has touched. -/
def Untouched (tk : Token) : Prop := tk.isSingleQuote = false ∧ tk.commentForMacroDebug = false

theorem kind_back (kind : TokenKind) : TokenKind.ofNat (UInt8.ofNat kind.toNat).toNat = kind := by
  rw [UInt8.toNat_ofNat_of_lt' kind.toNat_lt]
  exact TokenKind.ofNat_ctorIdx kind

theorem deserializeToken_createToken (tk : Token) {tmp : Token} (htmp : Untouched tmp) :
    deserializeTokenFromTokenBuf tmp (createToken tk) = some (tokenBack tk) := by
  obtain ⟨hquote, hdebug⟩ := htmp
  have hread : deserializeTokenFromTokenBuf tmp (createToken tk) =
      some { tk with
        kind := TokenKind.ofNat (UInt8.ofNat tk.kind.toNat).toNat
        isSingleQuote := tmp.isSingleQuote
        commentForMacroDebug := tmp.commentForMacroDebug } := rfl
  rw [hread, hquote, hdebug, kind_back, tokenBack]

theorem deserializeTokens_createTokenVec (tks : List Token) :
    deserializeTokensFromOffsetTokenVec (createTokenVec tks) = some (tks.map tokenBack) :=
  readReusing_map_eq (fun tk _ _ htmp => deserializeToken_createToken tk htmp)
    (fun _ _ => ⟨rfl, rfl⟩) (⟨rfl, rfl⟩ : Untouched (tokenOfKind .ILLEGAL))

theorem sameToken_back_iff (tk : Token) : SameToken tk (tokenBack tk) ↔ tk.isSingleQuote = false :=
  ⟨fun h => h.isSingleQuote.symm, fun h => ⟨rfl, rfl, rfl, rfl, rfl, h.symm⟩⟩

/-- What is read back for the elements of a list is the same when it is the same for each. -/
theorem forall₂_map_back_iff {α β : Type} {R : α → β → Prop} {back : α → β} {P : α → Prop}
    (h : ∀ a, R a (back a) ↔ P a) (as : List α) :
    List.Forall₂ R as (as.map back) ↔ ∀ a ∈ as, P a := by
  rw [List.forall₂_map_right_iff, List.forall₂_same]
  exact forall₂_congr fun a _ => h a

theorem sameTokens_back_iff (tks : List Token) :
    List.Forall₂ SameToken tks (tks.map tokenBack) ↔ DoubleQuoted tks :=
  forall₂_map_back_iff sameToken_back_iff tks

/-! ## Items and child messages -/

/-- The item that is read back. -/
def itemBack (item : ItemInfo) : ItemInfo :=
  match item.kind with
  | some .STRING => { key := item.key, kind := some .STRING, sValue := item.sValue }
  | some .INT => { key := item.key, kind := some .INT, iValue := item.iValue }
  | some .BOOL => { key := item.key, kind := some .BOOL, bValue := item.bValue }
  | some .TKS => { key := item.key, kind := some .TKS, tValue := item.tValue.map tokenBack }
  | none => { key := item.key }

theorem deserializeItem_creatItemInfo {item : ItemInfo} {itemBuf : MacroMsgFormat.ItemInfo}
    (h : creatItemInfo item = some itemBuf) :
    deserializeItemFromItemBuf default itemBuf = some (itemBack item) := by
  obtain ⟨key, kind, sValue, iValue, bValue, tValue⟩ := item
  cases kind with
  | none => cases h
  | some kind =>
    cases kind with
    | TKS =>
      cases h
      change ((deserializeTokensFromOffsetTokenVec (createTokenVec tValue)).bind fun tks =>
        some ({ key := key, kind := some .TKS, tValue := tks } : ItemInfo)) = _
      rw [deserializeTokens_createTokenVec]
      rfl
    | _ =>
      cases h
      rfl

theorem deserializeItems_creatItemInfoVec {items : List ItemInfo}
    {itemsBuf : List MacroMsgFormat.ItemInfo} (h : creatItemInfoVec items = some itemsBuf) :
    deserializeItemsFromItemsBuf [] itemsBuf = some (items.map itemBack) :=
  readInto_mapM_eq h fun _ _ _ hitem => deserializeItem_creatItemInfo hitem

theorem sameItem_back_iff (item : ItemInfo) :
    SameItem item (itemBack item) ↔ ItemDoubleQuoted item := by
  obtain ⟨key, kind, sValue, iValue, bValue, tValue⟩ := item
  have hnone : kind ≠ some .TKS →
      ItemDoubleQuoted ⟨key, kind, sValue, iValue, bValue, tValue⟩ := fun hkind heq =>
    (hkind heq).elim
  cases kind with
  | none => exact ⟨fun _ => hnone nofun, fun _ => ⟨rfl, rfl, trivial⟩⟩
  | some kind =>
    cases kind with
    | TKS =>
      have hvalue := sameTokens_back_iff tValue
      exact ⟨fun h _ => hvalue.mp h.value, fun h => ⟨rfl, rfl, hvalue.mpr (h rfl)⟩⟩
    | _ => exact ⟨fun _ => hnone nofun, fun _ => ⟨rfl, rfl, rfl⟩⟩

/-- The child message that is read back. -/
def childBack (msg : ChildMessage) : ChildMessage := ⟨msg.childName, msg.items.map itemBack⟩

theorem deserializeChildMsg_createChildMsg {msg : ChildMessage} {msgBuf : MacroMsgFormat.ChildMsg}
    (h : createChildMsg msg = some msgBuf) :
    deserializeChildMsg default msgBuf = some (childBack msg) := by
  obtain ⟨itemsBuf, hitems, hbuf⟩ := Option.bind_eq_some_iff.mp h
  cases hbuf
  change ((deserializeItemsFromItemsBuf [] itemsBuf).bind fun items =>
    some (⟨msg.childName, items⟩ : ChildMessage)) = _
  rw [deserializeItems_creatItemInfoVec hitems]
  rfl

theorem sameChildMessage_back_iff (msg : ChildMessage) :
    SameChildMessage msg (childBack msg) ↔ ∀ item ∈ msg.items, ItemDoubleQuoted item := by
  have hitems := forall₂_map_back_iff sameItem_back_iff msg.items
  exact ⟨fun h => hitems.mp h.items, fun h => ⟨rfl, hitems.mpr h⟩⟩

/-! ## Diagnostics -/

/-- The diagnostic that is read back. -/
def diagBack (diag : Diagnostic) : Diagnostic where
  diagSeverity := diag.diagSeverity
  start := diag.mainHint.range.beginPos
  endPos := diag.mainHint.range.endPos
  errorMessage := diag.errorMessage
  mainHint := { str := diag.mainHint.str }

theorem severity_back (severity : DiagSeverity) :
    DiagSeverity.ofNat ((BitVec.ofNat 32 severity.toNat).toNat % 256) = severity := by
  cases severity <;> rfl

theorem deserializeDiag_createDiag (diag : Diagnostic) {tmp : Diagnostic}
    (htmp : tmp.mainHint.range = {}) :
    deserializeDiagFromDiagBuf tmp (createDiag diag) = some (diagBack diag) := by
  have hread : deserializeDiagFromDiagBuf tmp (createDiag diag) =
      some { diagBack diag with
        mainHint := ⟨tmp.mainHint.range, diag.mainHint.str⟩
        diagSeverity :=
          DiagSeverity.ofNat ((BitVec.ofNat 32 diag.diagSeverity.toNat).toNat % 256) } := rfl
  rw [hread, htmp, severity_back, diagBack]

theorem deserializeDiags_createDiagVec (diags : List Diagnostic) :
    deserializeDiagsFromOffsetDiagVec (createDiagVec diags) = some (diags.map diagBack) :=
  readReusing_map_eq (I := fun tmp => tmp.mainHint.range = {})
    (fun diag _ _ htmp => deserializeDiag_createDiag diag htmp) (fun _ _ => rfl) rfl

theorem sameDiagnostics_back (diags : List Diagnostic) :
    List.Forall₂ SameDiagnostic diags (diags.map diagBack) :=
  (forall₂_map_back_iff (P := fun _ => True)
    (fun _ => ⟨fun _ => trivial, fun _ => ⟨rfl, rfl, rfl, rfl, rfl⟩⟩) diags).mpr
    fun _ _ => trivial

/-! ## Macro calls -/

/-- The macro call that is read back. -/
def callBack (call : MacroCall) : MacroCall where
  invocation :=
    { macroCallDiagInfo :=
        { identifier := call.invocation.macroCallDiagInfo.identifier
          identifierPos := call.invocation.macroCallDiagInfo.identifierPos }
      args := call.invocation.args.map tokenBack
      attrs := call.invocation.attrs.map tokenBack
      hasAttr := call.invocation.hasAttr }
  beginPos := call.beginPos
  endPos := call.endPos
  parentNames := call.parentNames
  childMessages := (messagesOf (descendants call)).map childBack
  methodName := call.methodName
  packageName := call.packageName
  libPath := call.libPath

theorem deSerializeMacroCall_createMacroCall {call : MacroCall}
    {callFmt : MacroMsgFormat.MacroCall} (h : createMacroCall call = some callFmt) :
    deSerializeMacroCall callFmt = some (callBack call) := by
  obtain ⟨childMsges, hchildren, hcall⟩ := Option.bind_eq_some_iff.mp h
  have hmsges : readInto deserializeChildMsg [] childMsges =
      some ((messagesOf (descendants call)).map childBack) := by
    rw [getChildMessages_eq] at hchildren
    exact readInto_mapM_eq hchildren fun _ _ _ hmsg => deserializeChildMsg_createChildMsg hmsg
  cases hcall
  rw [deSerializeMacroCall]
  simp only [deSerializeRangeFromCall, deSerializeIdInfoFromCall, deSerializeArgsFromCall,
    deSerializeAttrsFromCall, deSerializeParentNamesFromCall, deSerializeChildMsgesFromCall,
    createIdInfo, deserializeTokens_createTokenVec, hmsges, Option.bind_eq_bind, Option.bind_some,
    Option.pure_def]
  rfl

theorem sameCall_back_iff (call : MacroCall) :
    SameCall call (callBack call) ↔ CallDoubleQuoted call := by
  have hargs := sameTokens_back_iff call.invocation.args
  have hattrs := sameTokens_back_iff call.invocation.attrs
  have hchildren := forall₂_map_back_iff sameChildMessage_back_iff (messagesOf (descendants call))
  constructor
  · intro h
    exact ⟨hargs.mp h.args, hattrs.mp h.attrs, hchildren.mp h.childMessages⟩
  · rintro ⟨ha, hb, hc⟩
    exact ⟨rfl, rfl, rfl, hargs.mpr ha, hattrs.mpr hb, rfl, hchildren.mpr hc, rfl, rfl, rfl, rfl,
      rfl⟩

/-! ## Verified messages -/

section Stored

variable {fb : FlatBuffers} {msg : MacroMsg}

/-- A stored message is verified exactly when it is not too large. -/
theorem getVerifiedMacroMsg_finish (hstores : fb.Stores msg) :
    getVerifiedMacroMsg fb (fb.Finish msg) =
      if msg.tables ≤ MACRO_MSG_MAX_TABLES then some msg else none := by
  have hverified := hstores.verified MACRO_MSG_MAX_DEPTH MACRO_MSG_MAX_TABLES (by decide)
  have hempty : ¬ (fb.Finish msg).isEmpty = true := fun h =>
    hstores.nonempty (List.isEmpty_iff.mp h)
  rw [getVerifiedMacroMsg, if_neg hempty, hstores.returned]
  by_cases hsize : msg.tables ≤ MACRO_MSG_MAX_TABLES
  · rw [if_pos hsize, hverified.mpr hsize]
    rfl
  · rw [if_neg hsize, Bool.not_eq_true _ |>.mp fun h => hsize (hverified.mp h)]
    rfl

/-- What evaluating the macro calls uses comes back through the buffer. -/
def CallsRoundTrip (fb : FlatBuffers) (calls : List MacroCall) (bufferData : List UInt8) : Prop :=
  ∃ backs, evalMacroCall fb bufferData = some backs ∧ List.Forall₂ SameCall calls backs

theorem callsRoundTrip_iff {calls : List MacroCall} (hwrite : serializeMultiCallsMsg calls = some msg)
    (hstores : fb.Stores msg) :
    CallsRoundTrip fb calls (fb.Finish msg) ↔
      (∀ call ∈ calls, CallDoubleQuoted call) ∧ msg.tables ≤ MACRO_MSG_MAX_TABLES := by
  obtain ⟨callsFmt, hcalls, hmsg⟩ := Option.bind_eq_some_iff.mp hwrite
  cases hmsg
  rw [CallsRoundTrip, evalMacroCall, getVerifiedMacroMsg_finish hstores, hstores.returned]
  split_ifs with hsize
  · have hread : callsFmt.mapM deSerializeMacroCall = some (calls.map callBack) :=
      mapM_mapM_eq hcalls fun _ _ _ hcall => deSerializeMacroCall_createMacroCall hcall
    have hsame := forall₂_map_back_iff sameCall_back_iff calls
    constructor
    · rintro ⟨backs, hbacks, hforall⟩
      cases hread.symm.trans hbacks
      exact ⟨hsame.mp hforall, hsize⟩
    · rintro ⟨hquotes, -⟩
      exact ⟨_, hread, hsame.mpr hquotes⟩
  · constructor
    · -- a message that is dropped has macro calls in it
      rintro ⟨backs, hbacks, hforall⟩
      cases hbacks
      cases hforall
      cases hcalls
      exact (hsize (by decide)).elim
    · rintro ⟨-, hsmall⟩
      exact (hsize hsmall).elim

end Stored

end Cangjie.MacroEvalMsgSerializer
