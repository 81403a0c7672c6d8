import CangjieCompiler.Macro.MessageRoundTrip

/-!
# The round trip of the results of macros

The items of a result are those of the macro call or those recorded through the foreign function
interface, which are written like items.  With the results, the round trip of all messages.
-/

namespace Cangjie.MacroEvalMsgSerializer

open MacroMsgFormat (FlatBuffers MacroMsg MsgContent)
open PartialLoop

/-! ## The items of a result -/

/-- The items that one recorded triple stands for. -/
def recordedItem (pKey pValue pType : HANDLE) : Option (List ItemInfo) :=
  match pKey with
  | none => some []
  | some memory => do
    let typeMemory ← pType
    let type ← typeMemory.head?
    match ItemKind.ofByte? type with
    | some .STRING => do
      let value ← pValue
      pure [{ key := cString memory, kind := some .STRING, sValue := cString value }]
    | some .INT => do
      let value ← pValue
      let iValue ← int64At value
      pure [{ key := cString memory, kind := some .INT, iValue := iValue }]
    | some .BOOL => do
      let value ← pValue
      let byte ← value.head?
      pure [{ key := cString memory, kind := some .BOOL, bValue := byte ≠ 0 }]
    | some .TKS => do
      let tokens ← pValue.elim (some []) fun value =>
        TokenSerialization.getTokensFromBytes (some (value.drop 4))
      pure [{ key := cString memory, kind := some .TKS, tValue := tokens }]
    | none => pure []

/-- The items that the recorded information stands for. -/
def recordedItems : List HANDLE → Option (List ItemInfo)
  | pKey :: pValue :: pType :: recordMacroInfo => do
    let items ← recordedItem pKey pValue pType
    let rest ← recordedItems recordMacroInfo
    pure (items ++ rest)
  | _ => some []

/-- The items of the result of a macro call. -/
def resultItems (macCall : MacroCall) : Option (List ItemInfo) :=
  if !macCall.items.isEmpty then some macCall.items
  else recordedItems macCall.recordMacroInfo

theorem createRecordedItem_eq (pKey pValue pType : HANDLE) :
    createRecordedItem pKey pValue pType =
      (recordedItem pKey pValue pType).bind creatItemInfoVec := by
  unfold createRecordedItem recordedItem
  cases pKey with
  | none => rfl
  | some memory =>
    cases pType with
    | none => rfl
    | some typeMemory =>
      cases htype : typeMemory.head? with
      | none => simp only [Option.bind_eq_bind, Option.bind_some, htype, Option.bind_none]
      | some type =>
        simp only [Option.bind_eq_bind, Option.bind_some, htype]
        cases ItemKind.ofByte? type with
        | none => rfl
        | some kind =>
          cases kind with
          | STRING => cases pValue <;> rfl
          | INT =>
            cases pValue with
            | none => rfl
            | some value =>
              simp only [Option.bind_some]
              cases int64At value <;> rfl
          | BOOL =>
            cases pValue with
            | none => rfl
            | some value =>
              simp only [Option.bind_some]
              cases value.head? <;> rfl
          | TKS =>
            cases pValue with
            | none => rfl
            | some value =>
              simp only [Option.elim_some]
              cases TokenSerialization.getTokensFromBytes (some (value.drop 4)) <;> rfl

theorem creatItemInfoVec_append (items items' : List ItemInfo) :
    creatItemInfoVec (items ++ items') =
      (creatItemInfoVec items).bind fun itemsVec =>
        (creatItemInfoVec items').bind fun itemsVec' => some (itemsVec ++ itemsVec') :=
  List.mapM_append

/-- The recorded items are written like the items of a macro call. -/
theorem createItemsVecFromRecordMacroInfo_eq (recordMacroInfo : List HANDLE) :
    createItemsVecFromRecordMacroInfo recordMacroInfo =
      (recordedItems recordMacroInfo).bind creatItemInfoVec := by
  induction recordMacroInfo using recordedItems.induct with
  | case1 pKey pValue pType recordMacroInfo ih =>
    rw [createItemsVecFromRecordMacroInfo, recordedItems, createRecordedItem_eq, ih]
    simp only [Option.bind_eq_bind, Option.pure_def]
    cases recordedItem pKey pValue pType with
    | none => rfl
    | some items =>
      cases recordedItems recordMacroInfo with
      | none =>
        simp only [Option.bind_some, Option.bind_none]
        cases creatItemInfoVec items <;> rfl
      | some rest =>
        simp only [Option.bind_some, creatItemInfoVec_append]
  | case2 recordMacroInfo hshort =>
    rw [createItemsVecFromRecordMacroInfo, recordedItems]
    · rfl
    · exact hshort
    · exact hshort

theorem createResultItems_eq (macCall : MacroCall) :
    createResultItems macCall = (resultItems macCall).bind creatItemInfoVec := by
  rw [createResultItems, resultItems]
  split_ifs with hitems hrecord
  · rfl
  · exact createItemsVecFromRecordMacroInfo_eq macCall.recordMacroInfo
  · -- fewer than three pointers are no triple
    match hinfo : macCall.recordMacroInfo with
    | [] => rfl
    | [_] => rfl
    | [_, _] => rfl
    | _ :: _ :: _ :: rest =>
      rw [hinfo] at hrecord
      simp only [List.length_cons] at hrecord
      omega

/-! ## Results -/

/-- No token that travels with the result of a macro call is in single quotes. -/
def ResultDoubleQuoted (macCall : MacroCall) : Prop :=
  DoubleQuoted macCall.invocation.newTokens ∧
  ∀ items, resultItems macCall = some items → ∀ item ∈ items, ItemDoubleQuoted item

/-- The result comes back through the buffer. -/
structure ResultRoundTrip (fb : FlatBuffers) (macCall : MacroCall) (diags : List Diagnostic)
    (bufferData : List UInt8) : Prop where
  idInfo : ∀ id pos, deSerializeIdInfoFromResult fb id pos bufferData =
    some (macCall.invocation.macroCallDiagInfo.identifier,
      macCall.invocation.macroCallDiagInfo.identifierPos)
  tks : ∃ backs, deSerializeTksFromResult fb bufferData = some backs ∧
    List.Forall₂ SameToken macCall.invocation.newTokens backs
  status : deSerializeStatusFromResult fb bufferData = macCall.status
  items : ∃ items backs, resultItems macCall = some items ∧
    deSerializeItemsFromResult fb bufferData = some backs ∧ List.Forall₂ SameItem items backs
  assertParents : deSerializeAssertParentsFromResult fb bufferData = some macCall.assertParents
  diags : ∃ backs, deSerializeDiagsFromResult fb bufferData = some backs ∧
    List.Forall₂ SameDiagnostic diags backs

theorem status_back (status : MacroEvalStatus) :
    MacroEvalStatus.ofNat (UInt8.ofNat status.toNat).toNat = status := by
  cases status <;> rfl

section Result

variable {fb : FlatBuffers} {macCall : MacroCall} {diags : List Diagnostic} {bufferData : List UInt8}

/-- The table of a result with the given items. -/
def resultTable (macCall : MacroCall) (itemsVec : List MacroMsgFormat.ItemInfo)
    (diags : List Diagnostic) : MacroMsgFormat.MacroResult where
  id := some (createIdInfo macCall.invocation.macroCallDiagInfo)
  status := UInt8.ofNat macCall.status.toNat
  tks := some (createTokenVec macCall.invocation.newTokens)
  items := some itemsVec
  assertParents := some macCall.assertParents
  diags := some (createDiagVec diags)

/-- What the readers return for the table of a result. -/
theorem resultRoundTrip_of_verified {items : List ItemInfo}
    {itemsVec : List MacroMsgFormat.ItemInfo} (hitems : resultItems macCall = some items)
    (hwritten : creatItemInfoVec items = some itemsVec)
    (hverified : getVerifiedMacroResult fb bufferData =
      some (resultTable macCall itemsVec diags)) :
    ResultRoundTrip fb macCall diags bufferData ↔ ResultDoubleQuoted macCall := by
  have htokens : deSerializeTksFromResult fb bufferData =
      some (macCall.invocation.newTokens.map tokenBack) := by
    rw [deSerializeTksFromResult, readFromResult, hverified]
    exact deserializeTokens_createTokenVec _
  have hread : deSerializeItemsFromResult fb bufferData = some (items.map itemBack) := by
    rw [deSerializeItemsFromResult, readFromResult, hverified]
    exact deserializeItems_creatItemInfoVec hwritten
  have hsameTokens := sameTokens_back_iff macCall.invocation.newTokens
  have hsameItems := forall₂_map_back_iff sameItem_back_iff items
  constructor
  · rintro ⟨-, ⟨backs, hbacks, htks⟩, -, ⟨items', backs', hitems', hbacks', hforall⟩, -, -⟩
    cases htokens.symm.trans hbacks
    cases hitems.symm.trans hitems'
    cases hread.symm.trans hbacks'
    refine ⟨hsameTokens.mp htks, fun items' heq => ?_⟩
    cases hitems.symm.trans heq
    exact hsameItems.mp hforall
  · rintro ⟨htks, hquotes⟩
    constructor
    · intro id pos
      rw [deSerializeIdInfoFromResult, hverified]
      rfl
    · exact ⟨_, htokens, hsameTokens.mpr htks⟩
    · rw [deSerializeStatusFromResult, hverified]
      exact status_back macCall.status
    · exact ⟨items, _, hitems, hread, hsameItems.mpr (hquotes items hitems)⟩
    · rw [deSerializeAssertParentsFromResult, readFromResult, hverified]
      rfl
    · refine ⟨_, ?_, sameDiagnostics_back diags⟩
      rw [deSerializeDiagsFromResult, readFromResult, hverified]
      exact deserializeDiags_createDiagVec diags

/-- A result that is dropped comes back only when there was nothing in its vectors. -/
theorem empty_of_dropped (hdropped : getVerifiedMacroResult fb bufferData = none)
    (h : ResultRoundTrip fb macCall diags bufferData) :
    macCall.invocation.newTokens = [] ∧ resultItems macCall = some [] ∧ diags = [] := by
  obtain ⟨-, ⟨tks, htks, hsame⟩, -, ⟨items, backs, hitems, hbacks, hforall⟩, -, diags', hdiags,
    hsameDiags⟩ := h
  rw [deSerializeTksFromResult, readFromResult, hdropped] at htks
  rw [deSerializeItemsFromResult, readFromResult, hdropped] at hbacks
  rw [deSerializeDiagsFromResult, readFromResult, hdropped] at hdiags
  cases htks
  cases hbacks
  cases hdiags
  refine ⟨List.forall₂_nil_right_iff.mp hsame, ?_, List.forall₂_nil_right_iff.mp hsameDiags⟩
  rw [hitems, List.forall₂_nil_right_iff.mp hforall]

theorem resultRoundTrip_iff {msg : MacroMsg}
    (hwrite : serializeMacroCallResultMsg macCall diags = some msg) (hstores : fb.Stores msg) :
    ResultRoundTrip fb macCall diags (fb.Finish msg) ↔
      ResultDoubleQuoted macCall ∧ msg.tables ≤ MACRO_MSG_MAX_TABLES := by
  obtain ⟨itemsVec, hitemsVec, hmsg⟩ := Option.bind_eq_some_iff.mp hwrite
  rw [createResultItems_eq] at hitemsVec
  obtain ⟨items, hitems, hwritten⟩ := Option.bind_eq_some_iff.mp hitemsVec
  have htable : msg = ⟨.macroResult (some (resultTable macCall itemsVec diags))⟩ :=
    (Option.some.inj hmsg).symm
  have hverified := getVerifiedMacroMsg_finish hstores
  by_cases hsize : msg.tables ≤ MACRO_MSG_MAX_TABLES
  · rw [if_pos hsize] at hverified
    rw [and_iff_left hsize]
    refine resultRoundTrip_of_verified hitems hwritten ?_
    rw [getVerifiedMacroResult, hverified, htable]
    rfl
  · rw [if_neg hsize] at hverified
    refine ⟨fun h => ?_, fun h => (hsize h.2).elim⟩
    have hdropped : getVerifiedMacroResult fb (fb.Finish msg) = none := by
      rw [getVerifiedMacroResult, hverified]
    obtain ⟨htks, hnone, hdiags⟩ := empty_of_dropped hdropped h
    cases hitems.symm.trans hnone
    cases hwritten
    -- without tokens, items and diagnostics three tables are left
    have htables : msg.tables = 3 := by
      rw [htable, hdiags]
      simp only [MacroMsgFormat.MacroMsg.tables, MsgContent.tables, MacroMsgFormat.tablesOf,
        MacroMsgFormat.MacroResult.tables, resultTable, htks]
      rfl
    rw [htables] at hsize
    exact (hsize (by decide)).elim

end Result

/-! ## Messages -/

/-- One macro call is written like a list of one. -/
theorem serializeMacroCallMsg_eq (call : MacroCall) :
    serializeMacroCallMsg call = serializeMultiCallsMsg [call] := by
  rw [serializeMultiCallsMsg, serializeMacroCallMsg, List.mapM_cons]
  cases createMacroCall call <;> rfl

/-- Messages with macro calls and messages with a result come back exactly when no token in them is
in single quotes and they have no more tables than the verification allows. -/
theorem messages_roundTrip_iff (fb : FlatBuffers) {calls : List MacroCall} {macCall : MacroCall}
    {diags : List Diagnostic} {callsMsg resultMsg : MacroMsg}
    (hcalls : serializeMultiCallsMsg calls = some callsMsg)
    (hresult : serializeMacroCallResultMsg macCall diags = some resultMsg)
    (hstoresCalls : fb.Stores callsMsg) (hstoresResult : fb.Stores resultMsg) :
    (CallsRoundTrip fb calls (fb.Finish callsMsg) ↔
      (∀ call ∈ calls, CallDoubleQuoted call) ∧ callsMsg.tables ≤ MACRO_MSG_MAX_TABLES) ∧
    (ResultRoundTrip fb macCall diags (fb.Finish resultMsg) ↔
      ResultDoubleQuoted macCall ∧ resultMsg.tables ≤ MACRO_MSG_MAX_TABLES) :=
  ⟨callsRoundTrip_iff hcalls hstoresCalls, resultRoundTrip_iff hresult hstoresResult⟩

/-! ## A string literal in single quotes -/

/-- The literal `'a'`, or the literal `"a"`. -/
def literalA (isSingleQuote : Bool) : Token where
  kind := .STRING_LITERAL
  delimiterNum := 1
  isSingleQuote := isSingleQuote
  commentForMacroDebug := false
  value := [97]
  beginPos := ⟨1, 1, 1⟩
  endPos := ⟨1, 1, 4⟩

/-- A call of the macro `M` that was evaluated to a literal. -/
def literalCall (isSingleQuote : Bool) : MacroCall where
  invocation :=
    { macroCallDiagInfo := { identifier := [77], identifierPos := ⟨1, 1, 2⟩ }
      attrs := []
      args := []
      newTokens := [literalA isSingleQuote]
      hasAttr := false }
  beginPos := ⟨1, 1, 1⟩
  endPos := ⟨1, 1, 5⟩
  status := .SUCCESS
  methodName := []
  packageName := []
  libPath := []

/-- The table of the call, which does not hold the literal. -/
def literalCallTable : MacroMsgFormat.MacroCall where
  id := some ⟨some [77], some ⟨1, 1, 2⟩⟩
  hasAttrs := false
  args := some []
  attrs := some []
  parentNames := some []
  childMsges := some []
  methodName := some []
  packageName := some []
  libPath := some []
  beginPos := some ⟨1, 1, 1⟩
  endPos := some ⟨1, 1, 5⟩

/-- The message of the call. -/
def callMsg : MacroMsg := ⟨.multiCalls (some ⟨some [literalCallTable]⟩)⟩

/-- The message of the result, which is the same for both literals. -/
def resultMsg : MacroMsg := ⟨.macroResult (some (resultTable (literalCall false) [] []))⟩

/-- The bytes of the message of the call. -/
def callBytes : List UInt8 :=
  [12, 0, 0, 0, 8, 0, 14, 0, 7, 0, 8, 0, 8, 0, 0, 0, 0, 0, 0, 2, 12, 0, 0, 0, 0, 0, 6, 0, 8, 0, 4,
   0, 6, 0, 0, 0, 4, 0, 0, 0, 1, 0, 0, 0, 32, 0, 0, 0, 0, 0, 26, 0, 60, 0, 4, 0, 0, 0, 8, 0, 12, 0,
   16, 0, 20, 0, 24, 0, 28, 0, 32, 0, 36, 0, 48, 0, 26, 0, 0, 0, 104, 0, 0, 0, 88, 0, 0, 0, 80, 0,
   0, 0, 72, 0, 0, 0, 64, 0, 0, 0, 52, 0, 0, 0, 40, 0, 0, 0, 28, 0, 0, 0, 1, 0, 0, 0, 1, 0, 0, 0,
   1, 0, 0, 0, 1, 0, 0, 0, 1, 0, 0, 0, 5, 0, 0, 0, 0, 0, 0, 0, 0, 0, 0, 0, 0, 0, 0, 0, 0, 0, 0, 0,
   0, 0, 0, 0, 0, 0, 0, 0, 0, 0, 0, 0, 0, 0, 0, 0, 0, 0, 0, 0, 0, 0, 0, 0, 8, 0, 20, 0, 4, 0, 8, 0,
   8, 0, 0, 0, 16, 0, 0, 0, 1, 0, 0, 0, 1, 0, 0, 0, 2, 0, 0, 0, 1, 0, 0, 0, 77, 0, 0, 0]

/-- The bytes of the message of the result. -/
def resultBytes : List UInt8 :=
  [12, 0, 0, 0, 8, 0, 12, 0, 7, 0, 8, 0, 8, 0, 0, 0, 0, 0, 0, 3, 20, 0, 0, 0, 16, 0, 28, 0, 8, 0,
   7, 0, 12, 0, 16, 0, 20, 0, 24, 0, 16, 0, 0, 0, 0, 0, 0, 3, 104, 0, 0, 0, 28, 0, 0, 0, 20, 0, 0,
   0, 12, 0, 0, 0, 4, 0, 0, 0, 0, 0, 0, 0, 0, 0, 0, 0, 0, 0, 0, 0, 1, 0, 0, 0, 16, 0, 0, 0, 12, 0,
   36, 0, 7, 0, 8, 0, 12, 0, 24, 0, 12, 0, 0, 0, 0, 0, 0, 147, 28, 0, 0, 0, 1, 0, 0, 0, 1, 0, 0,
   0, 1, 0, 0, 0, 1, 0, 0, 0, 1, 0, 0, 0, 4, 0, 0, 0, 1, 0, 0, 0, 97, 0, 0, 0, 8, 0, 20, 0, 4, 0,
   8, 0, 8, 0, 0, 0, 16, 0, 0, 0, 1, 0, 0, 0, 1, 0, 0, 0, 2, 0, 0, 0, 1, 0, 0, 0, 77, 0, 0, 0]

/-- What FlatBuffers does with these two messages, which differ in the tag at the same place. -/
def literalBuffers : FlatBuffers where
  Finish
    | ⟨.multiCalls _⟩ => callBytes
    | _ => resultBytes
  VerifyMacroMsgBuffer maxDepth maxTables bufferData :=
    4 ≤ maxDepth &&
      (if bufferData[19]? = some 2 then callMsg.tables else resultMsg.tables) ≤ maxTables
  GetMacroMsg bufferData := if bufferData[19]? = some 2 then callMsg else resultMsg

theorem literalBuffers_stores {msg : MacroMsg} (hmsg : msg = callMsg ∨ msg = resultMsg) :
    literalBuffers.Stores msg := by
  have hfour : ∀ maxDepth : ℕ, MacroMsgFormat.deepestNesting ≤ maxDepth → 4 ≤ maxDepth :=
    fun _ h => le_trans (by decide) h
  have hverified : ∀ maxDepth maxTables tables : ℕ, MacroMsgFormat.deepestNesting ≤ maxDepth →
      ((decide (4 ≤ maxDepth) && decide (tables ≤ maxTables)) = true ↔ tables ≤ maxTables) := by
    intro maxDepth maxTables tables hdepth
    rw [decide_eq_true (hfour maxDepth hdepth), Bool.true_and, decide_eq_true_eq]
  rcases hmsg with rfl | rfl
  · exact ⟨nofun, rfl, fun maxDepth maxTables hdepth => hverified maxDepth maxTables _ hdepth⟩
  · exact ⟨nofun, rfl, fun maxDepth maxTables hdepth => hverified maxDepth maxTables _ hdepth⟩

/-- The call and the result with `"a"` come back. -/
theorem messages_roundTrip_doubleQuoted :
    CallsRoundTrip literalBuffers [literalCall false] (literalBuffers.Finish callMsg) ∧
    ResultRoundTrip literalBuffers (literalCall false) [] (literalBuffers.Finish resultMsg) := by
  have hroundTrip := @messages_roundTrip_iff literalBuffers [literalCall false] (literalCall false)
    [] callMsg resultMsg rfl rfl (literalBuffers_stores (Or.inl rfl))
    (literalBuffers_stores (Or.inr rfl))
  have hnone : DoubleQuoted [] := fun _ hmem => (List.not_mem_nil hmem).elim
  refine ⟨hroundTrip.1.mpr ⟨fun call hcall => ?_, by decide⟩,
    hroundTrip.2.mpr ⟨⟨fun tk htk => ?_, fun items hitems => ?_⟩, by decide⟩⟩
  · rw [List.mem_singleton.mp hcall]
    exact ⟨hnone, hnone, fun _ hmem => (List.not_mem_nil hmem).elim⟩
  · rw [List.mem_singleton.mp htk]
    rfl
  · cases hitems
    exact fun _ hmem => (List.not_mem_nil hmem).elim

/-- The quotes of `'a'` are lost. -/
theorem singleQuoted_not_roundTrip :
    serializeMacroCallResultMsg (literalCall true) [] = some resultMsg ∧
    literalBuffers.Stores resultMsg ∧
    ¬ ResultRoundTrip literalBuffers (literalCall true) [] (literalBuffers.Finish resultMsg) := by
  refine ⟨rfl, literalBuffers_stores (Or.inr rfl), fun h => ?_⟩
  obtain ⟨backs, hbacks, hforall⟩ := h.tks
  have hread : deSerializeTksFromResult literalBuffers (literalBuffers.Finish resultMsg) =
      some [literalA false] := rfl
  cases hread.symm.trans hbacks
  cases hforall with
  | cons hsame _ => exact absurd hsame.isSingleQuote (by decide)

end Cangjie.MacroEvalMsgSerializer
