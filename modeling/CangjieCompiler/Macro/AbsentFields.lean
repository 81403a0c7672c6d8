import CangjieCompiler.Macro.MacroEvalMsgSerializer

/-!
# Absent fields

Verification says nothing about which fields a message has.  The readers check some of them: the
vectors of a result, the parts of its name, the paths of the libraries and the keys of items.  The
fields of tokens and diagnostics, the values of items and everything in a macro call are read
without a check.  Here every reader is characterised by the fields that must be present for it to
return.
-/

namespace Cangjie.MacroMsgFormat

/-- A field is present and what it holds has the property. -/
def Present {α : Type} (P : α → Prop) (field : Option α) : Prop := ∃ a, field = some a ∧ P a

/-- The parts of a token are present. -/
def Token.Complete (tk : Token) : Prop :=
  tk.value.isSome ∧ tk.beginPos.isSome ∧ tk.endPos.isSome

/-- The name and the position are present. -/
def IdInfo.Complete (info : IdInfo) : Prop := info.name.isSome ∧ info.pos.isSome

/-- The tokens are present with all their parts. -/
def TokensValue.Complete (t : TokensValue) : Prop :=
  Present (fun tks => ∀ tk ∈ tks, tk.Complete) t.val

/-- The value that the tag announces is present. -/
def OptionValue.Complete : OptionValue → Prop
  | .sValue value => value.isSome
  | .iValue value => value.isSome
  | .bValue value => value.isSome
  | .tValue value => Present TokensValue.Complete value
  | .other _ => True

/-- An item with a key has its value. -/
def ItemInfo.Complete (item : ItemInfo) : Prop := item.key.isSome → item.value.Complete

/-- The name and the items are present. -/
def ChildMsg.Complete (msg : ChildMsg) : Prop :=
  msg.childName.isSome ∧ Present (fun items => ∀ item ∈ items, item.Complete) msg.items

/-- The parts of a diagnostic are present. -/
def Diagnostic.Complete (diag : Diagnostic) : Prop :=
  diag.beginPos.isSome ∧ diag.endPos.isSome ∧ diag.errorMessage.isSome ∧ diag.mainHint.isSome

/-- All fields of a macro call are present. -/
def MacroCall.Complete (call : MacroCall) : Prop :=
  (call.beginPos.isSome ∧ call.endPos.isSome) ∧
  Present IdInfo.Complete call.id ∧
  Present (fun tks => ∀ tk ∈ tks, tk.Complete) call.args ∧
  Present (fun tks => ∀ tk ∈ tks, tk.Complete) call.attrs ∧
  call.parentNames.isSome ∧
  Present (fun msges => ∀ msg ∈ msges, msg.Complete) call.childMsges ∧
  call.methodName.isSome ∧ call.packageName.isSome ∧ call.libPath.isSome

/-- Whatever vectors a result has, their elements are complete. -/
def MacroResult.Complete (result : MacroResult) : Prop :=
  (∀ tks, result.tks = some tks → ∀ tk ∈ tks, tk.Complete) ∧
  (∀ items, result.items = some items → ∀ item ∈ items, item.Complete) ∧
  (∀ diags, result.diags = some diags → ∀ diag ∈ diags, diag.Complete)

/-- The macro calls are present and complete. -/
def MultiMacroCalls.Complete (calls : MultiMacroCalls) : Prop :=
  Present (fun calls => ∀ call ∈ calls, call.Complete) calls.calls

/-- The fields that the readers need are present. -/
def MsgContent.Complete : MsgContent → Prop
  | .multiCalls content => Present MultiMacroCalls.Complete content
  | .macroResult content => ∀ result, content = some result → result.Complete
  | _ => True

end Cangjie.MacroMsgFormat

namespace Cangjie.MacroEvalMsgSerializer

open MacroMsgFormat (FlatBuffers MacroMsg MsgContent Present)
open PartialLoop

/-! ## Tokens, diagnostics and items -/

/-- Reading through a field returns exactly when the field is present and the rest returns. -/
theorem isSome_bind_present {α β : Type} {field : Option α} {f : α → Option β} {P : α → Prop}
    (h : ∀ a, (f a).isSome ↔ P a) : (field >>= f).isSome ↔ Present P field := by
  rw [isSome_bind_iff, Present]
  exact exists_congr fun a => and_congr_right fun _ => h a

/-- Reading through a field that the rest does not depend on. -/
theorem isSome_bind_and {α β : Type} {field : Option α} {f : α → Option β} {P : Prop}
    (h : ∀ a, (f a).isSome ↔ P) : (field >>= f).isSome ↔ field.isSome ∧ P := by
  rw [isSome_bind_iff, Option.isSome_iff_exists, exists_and_right.symm]
  exact exists_congr fun a => and_congr_right fun _ => h a

/-- Reading through the last field. -/
theorem isSome_bind_pure {α β : Type} {field : Option α} {f : α → β} :
    (field >>= fun a => pure (f a)).isSome ↔ field.isSome := by
  rw [isSome_bind_and fun _ => ⟨fun _ => trivial, fun _ => rfl⟩, and_true]

theorem deserializeToken_isSome_iff (tk : Token) (tkBuffer : MacroMsgFormat.Token) :
    (deserializeTokenFromTokenBuf tk tkBuffer).isSome ↔ tkBuffer.Complete := by
  rw [deserializeTokenFromTokenBuf,
    isSome_bind_and fun _ => isSome_bind_and fun _ => isSome_bind_pure,
    MacroMsgFormat.Token.Complete, ← and_assoc, and_comm]

theorem deserializeTokens_isSome_iff (offsetVec : List MacroMsgFormat.Token) :
    (deserializeTokensFromOffsetTokenVec offsetVec).isSome ↔ ∀ tk ∈ offsetVec, tk.Complete :=
  readReusing_isSome_iff deserializeToken_isSome_iff _ offsetVec

theorem deserializeDiag_isSome_iff (diag : Diagnostic) (diagBuffer : MacroMsgFormat.Diagnostic) :
    (deserializeDiagFromDiagBuf diag diagBuffer).isSome ↔ diagBuffer.Complete :=
  isSome_bind_and fun _ => isSome_bind_and fun _ => isSome_bind_and fun _ => isSome_bind_pure

theorem deserializeDiags_isSome_iff (offsetVec : List MacroMsgFormat.Diagnostic) :
    (deserializeDiagsFromOffsetDiagVec offsetVec).isSome ↔ ∀ diag ∈ offsetVec, diag.Complete :=
  readReusing_isSome_iff deserializeDiag_isSome_iff _ offsetVec

theorem deserializeItem_isSome_iff (item : ItemInfo) (itemBuf : MacroMsgFormat.ItemInfo) :
    (deserializeItemFromItemBuf item itemBuf).isSome ↔ itemBuf.Complete := by
  obtain ⟨key, value⟩ := itemBuf
  cases key with
  | none => exact ⟨fun _ hkey => (Bool.false_ne_true hkey).elim, fun _ => rfl⟩
  | some key =>
    have hkey : MacroMsgFormat.ItemInfo.Complete ⟨some key, value⟩ ↔ value.Complete :=
      ⟨fun h => h rfl, fun h _ => h⟩
    rw [hkey]
    cases value with
    | sValue value => exact isSome_bind_pure
    | iValue value => exact isSome_bind_pure
    | bValue value => exact isSome_bind_pure
    | tValue value =>
      refine isSome_bind_present fun tValue => isSome_bind_present fun offsetVec => ?_
      exact isSome_bind_pure.trans (deserializeTokens_isSome_iff offsetVec)
    | other tag => exact ⟨fun _ => trivial, fun _ => rfl⟩

theorem deserializeItems_isSome_iff (items : List ItemInfo)
    (itemsBuf : List MacroMsgFormat.ItemInfo) :
    (deserializeItemsFromItemsBuf items itemsBuf).isSome ↔ ∀ item ∈ itemsBuf, item.Complete :=
  readInto_isSome_iff deserializeItem_isSome_iff items itemsBuf

/-! ## Macro calls -/

theorem deSerializeRange_isSome_iff (callFmt : MacroMsgFormat.MacroCall) :
    (deSerializeRangeFromCall callFmt).isSome ↔ callFmt.beginPos.isSome ∧ callFmt.endPos.isSome :=
  isSome_bind_and fun _ => isSome_bind_pure

theorem deSerializeIdInfo_isSome_iff (callFmt : MacroMsgFormat.MacroCall) :
    (deSerializeIdInfoFromCall callFmt).isSome ↔
      Present MacroMsgFormat.IdInfo.Complete callFmt.id :=
  isSome_bind_present fun _ => isSome_bind_and fun _ => isSome_bind_pure

theorem deSerializeArgs_isSome_iff (callFmt : MacroMsgFormat.MacroCall) :
    (deSerializeArgsFromCall callFmt).isSome ↔
      Present (fun tks => ∀ tk ∈ tks, tk.Complete) callFmt.args :=
  isSome_bind_present deserializeTokens_isSome_iff

theorem deSerializeAttrs_isSome_iff (callFmt : MacroMsgFormat.MacroCall) :
    (deSerializeAttrsFromCall callFmt).isSome ↔
      Present (fun tks => ∀ tk ∈ tks, tk.Complete) callFmt.attrs :=
  isSome_bind_present deserializeTokens_isSome_iff

theorem deserializeChildMsg_isSome_iff (msg : ChildMessage) (msgBuf : MacroMsgFormat.ChildMsg) :
    (deserializeChildMsg msg msgBuf).isSome ↔ msgBuf.Complete :=
  isSome_bind_and fun _ => isSome_bind_present fun itemsBuf =>
    isSome_bind_pure.trans (deserializeItems_isSome_iff msg.items itemsBuf)

theorem deSerializeChildMsges_isSome_iff (childMsges : List ChildMessage)
    (callFmt : MacroMsgFormat.MacroCall) :
    (deSerializeChildMsgesFromCall childMsges callFmt).isSome ↔
      Present (fun msges => ∀ msg ∈ msges, msg.Complete) callFmt.childMsges :=
  isSome_bind_present fun msgesBuf =>
    readInto_isSome_iff deserializeChildMsg_isSome_iff childMsges msgesBuf

/-- A macro call is read exactly when it has all its fields. -/
theorem deSerializeMacroCall_isSome_iff (callFmt : MacroMsgFormat.MacroCall) :
    (deSerializeMacroCall callFmt).isSome ↔ callFmt.Complete := by
  rw [MacroMsgFormat.MacroCall.Complete, ← deSerializeRange_isSome_iff,
    ← deSerializeIdInfo_isSome_iff, ← deSerializeArgs_isSome_iff, ← deSerializeAttrs_isSome_iff,
    ← deSerializeChildMsges_isSome_iff []]
  exact isSome_bind_and fun _ => isSome_bind_and fun _ => isSome_bind_and fun _ =>
    isSome_bind_and fun _ => isSome_bind_and fun _ => isSome_bind_and fun _ =>
    isSome_bind_and fun _ => isSome_bind_and fun _ => isSome_bind_pure

/-! ## Messages -/

section Message

variable (fb : FlatBuffers) (bufferData : List UInt8)

theorem getMacroMsg_of_verified {msg : MacroMsg}
    (h : getVerifiedMacroMsg fb bufferData = some msg) : fb.GetMacroMsg bufferData = msg := by
  rw [getVerifiedMacroMsg] at h
  split_ifs at h with hempty hverify
  exact Option.some.inj h

theorem evalMacroCall_isSome_iff :
    (evalMacroCall fb bufferData).isSome ↔
      ∀ content, getVerifiedMacroMsg fb bufferData = some ⟨.multiCalls content⟩ →
        Present MacroMsgFormat.MultiMacroCalls.Complete content := by
  rw [evalMacroCall]
  split
  · next content hverified =>
    rw [getMacroMsg_of_verified fb bufferData hverified]
    have hread : (content_as_multiCalls (MsgContent.multiCalls content) >>= fun callsOffset =>
        callsOffset.calls >>= fun calls => calls.mapM deSerializeMacroCall).isSome ↔
        Present MacroMsgFormat.MultiMacroCalls.Complete content :=
      isSome_bind_present fun callsOffset => isSome_bind_present fun calls =>
        mapM_isSome_iff.trans
          (forall_congr' fun call => imp_congr_right fun _ => deSerializeMacroCall_isSome_iff call)
    refine hread.trans ⟨fun h content' heq => ?_, fun h => h content hverified⟩
    cases hverified.symm.trans heq
    exact h
  · next hother =>
    exact ⟨fun _ content heq => (hother content heq).elim, fun _ => rfl⟩

/-- A reader of a vector of a result returns exactly when it can read the vector, if there is one.
-/
theorem readFromResult_isSome_iff {α β : Type} {field : MacroMsgFormat.MacroResult → Option α}
    {read : α → Option (List β)} {P : α → Prop} (h : ∀ a, (read a).isSome ↔ P a) :
    (readFromResult field read fb bufferData).isSome ↔
      ∀ result, getVerifiedMacroResult fb bufferData = some result →
        ∀ a, field result = some a → P a := by
  rw [readFromResult]
  cases getVerifiedMacroResult fb bufferData with
  | none => exact ⟨nofun, fun _ => rfl⟩
  | some result =>
    cases hfield : field result with
    | none =>
      refine ⟨fun _ result' heq a ha => ?_, fun _ => ?_⟩
      · cases heq
        cases hfield.symm.trans ha
      · simp only [hfield, Option.isSome_some]
    | some a =>
      simp only [hfield]
      refine (h a).trans ⟨fun hP result' heq a' ha => ?_, fun hall => hall result rfl a hfield⟩
      cases heq
      cases hfield.symm.trans ha
      exact hP

theorem deSerializeTks_isSome_iff :
    (deSerializeTksFromResult fb bufferData).isSome ↔
      ∀ result, getVerifiedMacroResult fb bufferData = some result →
        ∀ tks, result.tks = some tks → ∀ tk ∈ tks, tk.Complete :=
  readFromResult_isSome_iff fb bufferData deserializeTokens_isSome_iff

theorem deSerializeDiags_isSome_iff :
    (deSerializeDiagsFromResult fb bufferData).isSome ↔
      ∀ result, getVerifiedMacroResult fb bufferData = some result →
        ∀ diags, result.diags = some diags → ∀ diag ∈ diags, diag.Complete :=
  readFromResult_isSome_iff fb bufferData deserializeDiags_isSome_iff

theorem deSerializeItems_isSome_iff :
    (deSerializeItemsFromResult fb bufferData).isSome ↔
      ∀ result, getVerifiedMacroResult fb bufferData = some result →
        ∀ items, result.items = some items → ∀ item ∈ items, item.Complete :=
  readFromResult_isSome_iff fb bufferData (deserializeItems_isSome_iff [])

theorem deSerializeAssertParents_isSome :
    (deSerializeAssertParentsFromResult fb bufferData).isSome :=
  (readFromResult_isSome_iff fb bufferData (P := fun _ => True)
    (fun _ => ⟨fun _ => trivial, fun _ => rfl⟩)).mpr fun _ _ _ _ => trivial

theorem deSerializeDeflib_isSome : (deSerializeDeflibMsg fb bufferData).isSome := by
  rw [deSerializeDeflibMsg]
  split
  · rfl
  · split
    · rfl
    · split <;> rfl

theorem deSerializeIdInfoFromResult_isSome (id : List UInt8) (pos : Position) :
    (deSerializeIdInfoFromResult fb id pos bufferData).isSome := by
  rw [deSerializeIdInfoFromResult]
  split
  · rfl
  · split
    · rfl
    · split <;> rfl

/-- Every reader returns on the buffer: it reads through no absent field.  The readers of macro
calls are applied to each call of the message. -/
structure ReadersReturn : Prop where
  deflib : (deSerializeDeflibMsg fb bufferData).isSome
  fromCall : ∀ calls, getVerifiedMacroMsg fb bufferData =
      some ⟨.multiCalls (some ⟨some calls⟩)⟩ → ∀ callFmt ∈ calls,
    (deSerializeRangeFromCall callFmt).isSome ∧ (deSerializeIdInfoFromCall callFmt).isSome ∧
    (deSerializeArgsFromCall callFmt).isSome ∧ (deSerializeAttrsFromCall callFmt).isSome ∧
    (deSerializeParentNamesFromCall callFmt).isSome ∧
    ∀ childMsges, (deSerializeChildMsgesFromCall childMsges callFmt).isSome
  macroCalls : (evalMacroCall fb bufferData).isSome
  idInfo : ∀ id pos, (deSerializeIdInfoFromResult fb id pos bufferData).isSome
  tks : (deSerializeTksFromResult fb bufferData).isSome
  items : (deSerializeItemsFromResult fb bufferData).isSome
  assertParents : (deSerializeAssertParentsFromResult fb bufferData).isSome
  diags : (deSerializeDiagsFromResult fb bufferData).isSome

/-- A buffer holds a result exactly when it holds a message with a result as its content. -/
theorem getVerifiedMacroResult_eq_some_iff {result : MacroMsgFormat.MacroResult} :
    getVerifiedMacroResult fb bufferData = some result ↔
      getVerifiedMacroMsg fb bufferData = some ⟨.macroResult (some result)⟩ := by
  rw [getVerifiedMacroResult]
  cases getVerifiedMacroMsg fb bufferData with
  | none => exact ⟨nofun, nofun⟩
  | some msg =>
    obtain ⟨content⟩ := msg
    constructor
    · intro h
      cases content with
      | macroResult content =>
        cases content with
        | none => cases h
        | some result' =>
          cases h
          rfl
      | _ => cases h
    · intro h
      cases h
      rfl

/-- The readers return exactly when the message in the buffer, if there is one, has every field that
is read without a check. -/
theorem readersReturn_iff :
    ReadersReturn fb bufferData ↔
      ∀ msg, getVerifiedMacroMsg fb bufferData = some msg → msg.content.Complete := by
  constructor
  · rintro ⟨-, -, hcalls, -, htks, hitems, -, hdiags⟩ ⟨content⟩ hmsg
    cases content with
    | multiCalls content => exact (evalMacroCall_isSome_iff fb bufferData).mp hcalls content hmsg
    | macroResult content =>
      change ∀ result, content = some result → result.Complete
      rintro result rfl
      have hverified := (getVerifiedMacroResult_eq_some_iff fb bufferData).mpr hmsg
      exact ⟨(deSerializeTks_isSome_iff fb bufferData).mp htks result hverified,
        (deSerializeItems_isSome_iff fb bufferData).mp hitems result hverified,
        (deSerializeDiags_isSome_iff fb bufferData).mp hdiags result hverified⟩
    | _ => trivial
  · intro hcomplete
    have hresult : ∀ result, getVerifiedMacroResult fb bufferData = some result →
        result.Complete := fun result hverified =>
      hcomplete _ ((getVerifiedMacroResult_eq_some_iff fb bufferData).mp hverified) result rfl
    have hcalls : ∀ calls, getVerifiedMacroMsg fb bufferData =
        some ⟨.multiCalls (some ⟨some calls⟩)⟩ → ∀ callFmt ∈ calls, callFmt.Complete := by
      intro calls hmsg
      obtain ⟨content, hcontent, calls', hcalls', hall⟩ := hcomplete _ hmsg
      cases hcontent
      cases hcalls'
      exact hall
    constructor
    · exact deSerializeDeflib_isSome fb bufferData
    · intro calls hmsg callFmt hmem
      obtain ⟨hrange, hid, hargs, hattrs, hparents, hchildren, -⟩ := hcalls calls hmsg callFmt hmem
      exact ⟨(deSerializeRange_isSome_iff callFmt).mpr hrange,
        (deSerializeIdInfo_isSome_iff callFmt).mpr hid,
        (deSerializeArgs_isSome_iff callFmt).mpr hargs,
        (deSerializeAttrs_isSome_iff callFmt).mpr hattrs, hparents,
        fun childMsges => (deSerializeChildMsges_isSome_iff childMsges callFmt).mpr hchildren⟩
    · exact (evalMacroCall_isSome_iff fb bufferData).mpr fun content hmsg => hcomplete _ hmsg
    · exact deSerializeIdInfoFromResult_isSome fb bufferData
    · exact (deSerializeTks_isSome_iff fb bufferData).mpr fun result h => (hresult result h).1
    · exact (deSerializeItems_isSome_iff fb bufferData).mpr fun result h => (hresult result h).2.1
    · exact deSerializeAssertParents_isSome fb bufferData
    · exact (deSerializeDiags_isSome_iff fb bufferData).mpr fun result h => (hresult result h).2.2

end Message

/-! ## A result with an empty token -/

/-- The bytes of a result whose tokens are one token without any field. -/
def emptyTokenBytes : List UInt8 :=
  [12, 0, 0, 0,
   -- the message: the tag of a result and the offset of the result
   8, 0, 12, 0, 8, 0, 4, 0, 8, 0, 0, 0, 20, 0, 0, 0, 3, 0, 0, 0,
   -- the result, of which only the tokens are present
   10, 0, 8, 0, 0, 0, 0, 0, 4, 0, 0, 0, 12, 0, 0, 0, 4, 0, 0, 0,
   -- one token, without any field
   1, 0, 0, 0, 8, 0, 0, 0, 4, 0, 4, 0, 4, 0, 0, 0]

/-- A token without any field. -/
def emptyToken : MacroMsgFormat.Token where
  kind := 0
  value := none
  beginPos := none
  endPos := none

/-- The message in these bytes. -/
def emptyTokenMsg : MacroMsg :=
  ⟨.macroResult (some ⟨none, 0, some [emptyToken], none, none, none⟩)⟩

/-- What FlatBuffers does with these bytes. -/
def emptyTokenBuffers : FlatBuffers where
  Finish _ := emptyTokenBytes
  VerifyMacroMsgBuffer _ _ bufferData := bufferData == emptyTokenBytes
  GetMacroMsg _ := emptyTokenMsg

/-- The bytes pass the verification, and the reader of the tokens crashes. -/
theorem emptyToken_not_read : ¬ ReadersReturn emptyTokenBuffers emptyTokenBytes := fun h =>
  absurd h.tks (by decide)

end Cangjie.MacroEvalMsgSerializer
