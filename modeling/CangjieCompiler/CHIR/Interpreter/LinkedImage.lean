import CangjieCompiler.CHIR.Interpreter.LinkerGrowth
import Mathlib.Data.List.GetD
import Mathlib.Tactic.NormNum

/-!
# The linked image

Linking the operation at an index appends what the instruction at that index is linked to, whatever
the bytecode is.  For a definition that consists of instructions the loop therefore visits the
starts of the instructions and appends the linked instructions one after the other.
-/

namespace Cangjie.CHIR.Interpreter

open SymbolicImage

/-! ## Operands of an operation -/

/-- There is a kind for each operand. -/
lemma length_operandKinds (op : OpCode) (arg : ℕ → ByteCodeContent) :
    (operandKinds op arg).length = operandCount op arg := by
  cases op <;> simp [operandKinds, BCHIRLinker.linkerCase, operandCount, getOpCodeArgSize] <;> omega

/-- The kinds depend on the operands only, not on what follows them. -/
lemma operandKinds_congr {op : OpCode} {arg arg' : ℕ → ByteCodeContent}
    (h : ∀ k < operandCount op arg', arg k = arg' k) : operandKinds op arg = operandKinds op arg' := by
  cases op <;> simp [operandKinds, BCHIRLinker.linkerCase, operandCount] at h ⊢
  case FIELD_TPL => rw [h 0 (by omega)]
  case GETREF => rw [h 0 (by omega)]
  case STOREINREF => rw [h 0 (by omega)]
  case CAPPLY => rw [h 0 (by omega)]
  case SYSCALL => rw [h 1 (by omega)]
  case SWITCH => rw [h 1 (by omega)]

/-- The number of operands of an operation of fixed length. -/
lemma operandCount_eq_argSize {op : OpCode} (arg : ℕ → ByteCodeContent)
    (hfixed : BCHIRLinker.linkerCase op ∉
      [BCHIRLinker.LinkerCase.syscall, .switch, .capply, .path]) :
    operandCount op arg = getOpCodeArgSize op := by
  cases op <;> first | rfl | exact absurd hfixed (by decide)

/-! The operations of the cases that have one operation only. -/

lemma op_of_linkerCase_gvar {op : OpCode} (h : BCHIRLinker.linkerCase op = .gvar) :
    op = .GVAR := by
  cases op <;> first | rfl | cases h

lemma op_of_linkerCase_syscall {op : OpCode} (h : BCHIRLinker.linkerCase op = .syscall) :
    op = .SYSCALL := by
  cases op <;> first | rfl | cases h

lemma op_of_linkerCase_switch {op : OpCode} (h : BCHIRLinker.linkerCase op = .switch) :
    op = .SWITCH := by
  cases op <;> first | rfl | cases h

lemma op_of_linkerCase_capply {op : OpCode} (h : BCHIRLinker.linkerCase op = .capply) :
    op = .CAPPLY := by
  cases op <;> first | rfl | cases h

/-- The operations with a path have one operand before it. -/
lemma argSize_of_linkerCase_path {op : OpCode} (h : BCHIRLinker.linkerCase op = .path)
    (arg : ℕ → ByteCodeContent) :
    getOpCodeArgSize op = 1 ∧ operandCount op arg = arg 0 + 1 := by
  cases op <;> first | exact ⟨rfl, rfl⟩ | cases h

namespace BCHIRLinker

lemma length_cellsBetween (d : Definition) (first last : ℕ) :
    (cellsBetween d first last).length = last - first := by
  simp [cellsBetween]

lemma cellsBetween_append (d : Definition) {first last : ℕ} (middle : ℕ) (h : first ≤ middle)
    (h' : middle ≤ last) :
    cellsBetween d first last = cellsBetween d first middle ++ cellsBetween d middle last := by
  have hcount : last - first = (middle - first) + (last - middle) := by omega
  have hmiddle : middle = first + (middle - first) := by omega
  unfold cellsBetween
  rw [hcount, ← List.range'_append_1, List.map_append, ← hmiddle]

lemma cellsBetween_zero (d : Definition) (first : ℕ) : cellsBetween d first first = [] := by
  simp [cellsBetween]

lemma cellsBetween_succ (d : Definition) (first n : ℕ) :
    cellsBetween d first (first + (n + 1)) =
      d.get first :: cellsBetween d (first + 1) (first + 1 + n) := by
  simp [cellsBetween, List.range'_succ]

/-- The cells of the operands that are all of one kind. -/
lemma zipWith_replicate {α : Type} (f : OperandKind → ByteCodeContent → α) (kind : OperandKind)
    (cells : List ByteCodeContent) {n : ℕ} (h : cells.length = n) :
    List.zipWith f (List.replicate n kind) cells = cells.map (f kind) := by
  induction cells generalizing n with
  | nil => simp
  | cons c rest ih =>
    obtain ⟨m, rfl⟩ : ∃ m, n = m + 1 := ⟨rest.length, by simpa using h.symm⟩
    rw [List.replicate_succ, List.zipWith_cons_cons, ih (by simpa using h), List.map_cons]

/-- Two 32-bit cells are read and written back as they are. -/
lemma push8bytes_get8bytes (d : Definition) (hcells : ∀ c ∈ d.bytecode, c < 2 ^ 32) (k : ℕ) :
    push8bytes (d.get8bytes k) = [d.get k, d.get (k + 1)] := by
  have hlt : d.get k < 2 ^ 32 := by
    unfold Definition.get
    by_cases hk : k < d.bytecode.length
    · rw [List.getD_eq_getElem _ _ hk]
      exact hcells _ (List.getElem_mem hk)
    · rw [List.getD_eq_default _ _ (Nat.le_of_not_lt hk)]
      norm_num
  unfold push8bytes Definition.get8bytes
  rw [Nat.add_mul_mod_self_right, Nat.mod_eq_of_lt hlt, Nat.add_mul_div_right _ _ (by norm_num),
    Nat.div_eq_of_lt hlt, Nat.zero_add]

/-- The values of a switch are copied as they are. -/
lemma flatMap_push8bytes (d : Definition) (hcells : ∀ c ∈ d.bytecode, c < 2 ^ 32) (first cases : ℕ) :
    (List.range cases).flatMap (fun j => push8bytes (d.get8bytes (first + 2 * j))) =
      cellsBetween d first (first + cases * 2) := by
  induction cases with
  | zero => simp [cellsBetween]
  | succ n ih =>
    have hlast : first + (n + 1) * 2 = first + n * 2 + (0 + 1 + 1) := by omega
    have hpair : cellsBetween d (first + n * 2) (first + (n + 1) * 2) =
        [d.get (first + n * 2), d.get (first + n * 2 + 1)] := by
      rw [hlast, cellsBetween_succ, cellsBetween_succ]
      simp [cellsBetween]
    rw [List.range_succ, List.flatMap_append, ih, List.flatMap_singleton,
      push8bytes_get8bytes d hcells, Nat.mul_comm 2 n, ← hpair]
    exact (cellsBetween_append d (first + n * 2) (by omega) (by omega)).symm

/-! ## Identifiers as the final tables have them -/

/-- The resolution has the identifiers of the names that have one, for the given indices of types
and strings. -/
structure ResolvedBy (l : BCHIRLinker) (r : Resolution) : Prop where
  gvar : r.gvar = l.mName2GvarId
  classId : ∀ name id, l.mName2ClassId name = some id → r.classId name = id
  methodId : ∀ name id, l.mName2MethodId name = some id → r.methodId name = id

lemma ResolvedBy.of_grows {l l' : BCHIRLinker} {r : Resolution} (h : l'.ResolvedBy r)
    (hgrows : Grows l l') : l.ResolvedBy r where
  gvar := h.gvar.trans hgrows.gvars
  classId := fun name id hname => h.classId name id (hgrows.classes name id hname)
  methodId := fun name id hname => h.methodId name id (hgrows.methods name id hname)

/-- Linking an operation adds to the tables of names and to the image, and to nothing else. -/
structure BodyStep (l l' : BCHIRLinker) : Prop where
  grows : Grows l l'
  funcs : l'.mName2FuncBodyIdx = l.mName2FuncBodyIdx
  strings : l'.strings = l.strings
  types : l'.types = l.types

lemma BodyStep.refl (l : BCHIRLinker) : BodyStep l l := ⟨Grows.refl l, rfl, rfl, rfl⟩

lemma BodyStep.trans {l l' l'' : BCHIRLinker} (h : BodyStep l l') (h' : BodyStep l' l'') :
    BodyStep l l'' :=
  ⟨h.grows.trans h'.grows, h'.funcs.trans h.funcs, h'.strings.trans h.strings,
    h'.types.trans h.types⟩

lemma SameCode.bodyStep {l l' : BCHIRLinker} (h : SameCode l l') (hgrows : Grows l l') :
    BodyStep l l' := ⟨hgrows, h.funcs, h.strings, h.types⟩

lemma push_bodyStep (l : BCHIRLinker) (words : List ByteCodeContent) :
    BodyStep l (l.push words) :=
  ⟨⟨rfl, rfl, fun _ _ h => h, fun _ _ h => h, fun _ _ h => h, id⟩, rfl, rfl, rfl⟩

lemma pushFunc_bodyStep (l : BCHIRLinker) (name : String) : BodyStep l (l.pushFunc name) := by
  unfold pushFunc addToMName2FuncBodyIdxPlaceHolder
  cases l.mName2FuncBodyIdx name with
  | some idx => exact push_bodyStep l [idx]
  | none =>
    cases l.mName2FuncBodyIdxPlaceHolder name <;>
      exact ⟨⟨rfl, rfl, fun _ _ h => h, fun _ _ h => h, fun _ _ h => h, id⟩, rfl, rfl, rfl⟩

lemma getClassId_bodyStep (l : BCHIRLinker) (name : String) : BodyStep l (l.getClassId name).2 :=
  (getClassId_sameCode l name).bodyStep (getClassId_grows l name)

lemma getMethodId_bodyStep (l : BCHIRLinker) (name : String) :
    BodyStep l (l.getMethodId name).2 :=
  (getMethodId_sameCode l name).bodyStep (getMethodId_grows l name)

/-- The operation of a global variable that is taken as a function. -/
lemma set_push (l : BCHIRLinker) (word value : ByteCodeContent) :
    (l.push [word]).set ((l.push [word]).nextIndex - 1) value = l.push [value] := by
  have hindex : (l.push [word]).nextIndex - 1 = l.topDef.length := by
    simp [nextIndex, push]
  rw [hindex]
  simp [set, push]

/-- Registering a class that an operation names. -/
def linkNamedClass (l : BCHIRLinker) (bchir : Bchir) (name : String) : BCHIRLinker :=
  if (bchir.getSClass name).isNone then linkClass bchir (linkDepth bchir) l name else l

lemma linkNamedClass_sameCode (l : BCHIRLinker) (bchir : Bchir) (name : String) :
    SameCode l (l.linkNamedClass bchir name) := by
  unfold linkNamedClass
  split
  · exact linkClass_sameCode bchir (linkDepth bchir) l name
  · exact SameCode.refl l

lemma linkNamedClass_grows (l : BCHIRLinker) (bchir : Bchir) (name : String) :
    Grows l (l.linkNamedClass bchir name) := by
  unfold linkNamedClass
  split
  · exact linkClass_grows bchir (linkDepth bchir) l name
  · exact Grows.refl l

/-! ## One operation -/

/-- Linking an operation adds to the tables of names and to the image only. -/
lemma linkOperation_bodyStep (bchir : Bchir) (d : Definition) (typeMap stringMap : List ℕ)
    (offset curr : ℕ) (l : BCHIRLinker) :
    BodyStep l (l.linkOperation bchir d typeMap stringMap offset curr).1 := by
  unfold linkOperation
  dsimp only
  generalize hop : OpCode.ofNat (d.get curr) = op
  generalize hname : d.getMangledNameAnnotation curr = name
  have hpush := push_bodyStep l [op.toCell]
  generalize hl : l.push [op.toCell] = l₁ at hpush ⊢
  cases hcase : linkerCase op with
  | gvar =>
    cases hgvar : l₁.mName2GvarId name with
    | some id => exact hpush.trans (push_bodyStep _ _)
    | none =>
      have hset : l₁.set (l₁.nextIndex - 1) OpCode.FUNC.toCell = l.push [OpCode.FUNC.toCell] := by
        rw [← hl, set_push]
      simp only [hset]
      exact (push_bodyStep l _).trans (pushFunc_bodyStep _ _)
  | func => exact hpush.trans (pushFunc_bodyStep _ _)
  | allocateClass => exact (hpush.trans (getClassId_bodyStep _ _)).trans (push_bodyStep _ _)
  | allocateClassExc => exact (hpush.trans (getClassId_bodyStep _ _)).trans (push_bodyStep _ _)
  | boxOrInstanceof =>
    exact ((hpush.trans (getClassId_bodyStep _ name)).trans
      ((linkNamedClass_sameCode _ bchir name).bodyStep (linkNamedClass_grows _ bchir name))).trans
      (push_bodyStep _ _)
  | invokeExc => exact (hpush.trans (getMethodId_bodyStep _ _)).trans (push_bodyStep _ _)
  | invoke => exact (hpush.trans (getMethodId_bodyStep _ _)).trans (push_bodyStep _ _)
  | _ => exact hpush.trans (push_bodyStep _ _)

/-! ## The instruction at an index -/

lemma encode_length_instrAt (d : Definition) (curr : ℕ) :
    (d.instrAt curr).encode.length =
      operandCount (OpCode.ofNat (d.get curr)) (fun k => d.get (curr + 1 + k)) + 1 := by
  simp [Instr.encode, Definition.instrAt, length_cellsBetween]

/-- The operands at an index are the cells that follow. -/
lemma instrAt_arg (d : Definition) (curr k : ℕ)
    (hk : k < operandCount (OpCode.ofNat (d.get curr)) fun k => d.get (curr + 1 + k)) :
    (d.instrAt curr).arg k = d.get (curr + 1 + k) := by
  have hlt : k < (d.instrAt curr).operands.length := by
    simpa [Definition.instrAt, length_cellsBetween] using hk
  unfold Instr.arg
  rw [List.getD_eq_getElem _ _ hlt]
  simp [Definition.instrAt, cellsBetween]

/-- The cells that the instruction at an index is linked to. -/
lemma linkInstr_instrAt (r : Resolution) (offset : ℕ) (d : Definition) (curr : ℕ) {op : OpCode}
    {name : String} (hop : OpCode.ofNat (d.get curr) = op)
    (hname : d.getMangledNameAnnotation curr = name) :
    linkInstr r offset (d.instrAt curr) =
      .word (linkOp r op name).toCell :: List.zipWith (linkOperand r offset name)
        (operandKinds op fun k => d.get (curr + 1 + k))
        (cellsBetween d (curr + 1)
          (curr + 1 + operandCount op fun k => d.get (curr + 1 + k))) := by
  have hkinds : operandKinds op (d.instrAt curr).arg =
      operandKinds op fun k => d.get (curr + 1 + k) := by
    apply operandKinds_congr
    intro k hk
    subst hop
    exact instrAt_arg d curr k hk
  subst hop hname
  unfold linkInstr
  rw [show (d.instrAt curr).op = OpCode.ofNat (d.get curr) from rfl, hkinds]
  rfl

/-! ## The image after one operation -/

section Operation

variable {cells : List (Cell String)} {l : BCHIRLinker} {op : OpCode} {name : String}
  {r : Resolution} {offset : ℕ} {d : Definition} {curr : ℕ}

lemma linkOp_of_ne (h : linkerCase op ≠ .gvar) : linkOp r op name = op := by
  unfold linkOp
  rw [if_neg]
  rintro ⟨rfl, -⟩
  exact h rfl

/-- The operands of an operation without names and tables of types are words. -/
lemma Means.push_operands (h : l.Means (cells ++ [.word op.toCell])) (hop : linkerCase op ≠ .gvar)
    {kinds : List OperandKind} {operands words : List ByteCodeContent}
    (hwords : List.zipWith (linkOperand r offset name) kinds operands = words.map .word) :
    (l.push words).Means (cells ++ .word (linkOp r op name).toCell ::
      List.zipWith (linkOperand r offset name) kinds operands) := by
  rw [hwords, linkOp_of_ne hop]
  have hpush := h.push words
  rwa [List.append_assoc, List.singleton_append] at hpush

/-- An operation of fixed length is linked to words, once its names are numbered. -/
lemma Means.push_fixed (h : l.Means (cells ++ [.word op.toCell])) {kinds : List OperandKind}
    {arg : ℕ → ByteCodeContent} (hsize : operandCount op arg = getOpCodeArgSize op)
    (hop : linkerCase op ≠ .gvar) (hkinds : operandKinds op arg = kinds)
    {words : List ByteCodeContent}
    (hwords : List.zipWith (linkOperand r offset name) kinds
      (cellsBetween d (curr + 1) (curr + 1 + kinds.length)) = words.map .word) :
    (l.push words).Means (cells ++ .word (linkOp r op name).toCell ::
        List.zipWith (linkOperand r offset name) (operandKinds op arg)
          (cellsBetween d (curr + 1) (curr + 1 + operandCount op arg))) ∧
      curr + getOpCodeArgSize op + 1 = curr + (operandCount op arg + 1) := by
  have hcount : operandCount op arg = kinds.length := by
    rw [← hkinds, length_operandKinds]
  refine ⟨?_, by rw [hsize, Nat.add_assoc]⟩
  rw [hkinds, hcount]
  exact h.push_operands hop hwords

/-- Linking the operation at an index appends what the instruction there is linked to. -/
theorem linkOperation_means (bchir : Bchir) (d : Definition)
    (hcells : ∀ c ∈ d.bytecode, c < 2 ^ 32) (offset curr : ℕ) (l : BCHIRLinker)
    (hmeans : l.Means cells) (r : Resolution)
    (hr : (l.linkOperation bchir d r.typeMap r.stringMap offset curr).1.ResolvedBy r) :
    (l.linkOperation bchir d r.typeMap r.stringMap offset curr).1.Means
        (cells ++ linkInstr r offset (d.instrAt curr)) ∧
      (l.linkOperation bchir d r.typeMap r.stringMap offset curr).2 =
        curr + (d.instrAt curr).encode.length := by
  rw [encode_length_instrAt, linkInstr_instrAt r offset d curr rfl rfl]
  have hgrows := (linkOperation_bodyStep bchir d r.typeMap r.stringMap offset curr l).grows
  have hgvars : r.gvar = l.mName2GvarId := (hr.of_grows hgrows).gvar
  unfold linkOperation at hr ⊢
  dsimp only at hr ⊢
  generalize hop : OpCode.ofNat (d.get curr) = op at hr ⊢
  generalize hname : d.getMangledNameAnnotation curr = name at hr ⊢
  have hlength := length_operandKinds op (fun k => d.get (curr + 1 + k))
  have hpush : (l.push [op.toCell]).Means (cells ++ [.word op.toCell]) := hmeans.push [op.toCell]
  have hgvar₁ : r.gvar = (l.push [op.toCell]).mName2GvarId := hgvars
  have hset : (l.push [op.toCell]).set ((l.push [op.toCell]).nextIndex - 1) OpCode.FUNC.toCell =
      l.push [OpCode.FUNC.toCell] := set_push l _ _
  have hsize : linkerCase op ∉ [LinkerCase.syscall, .switch, .capply, .path] →
      operandCount op (fun k => d.get (curr + 1 + k)) = getOpCodeArgSize op :=
    operandCount_eq_argSize _
  generalize hl : l.push [op.toCell] = l₁ at hpush hgvar₁ hset hr ⊢
  have hkinds : operandKinds op (fun k => d.get (curr + 1 + k)) =
      operandKinds op (fun k => d.get (curr + 1 + k)) := rfl
  conv at hkinds => rhs; unfold operandKinds
  cases hcase : linkerCase op <;> simp only [hcase] at hkinds hr ⊢
  case gvar =>
    have hsize := hsize (by simp [hcase])
    have hcount : operandCount op (fun k => d.get (curr + 1 + k)) = 1 := by
      rw [← hlength, hkinds]
      rfl
    obtain rfl := op_of_linkerCase_gvar hcase
    rw [hkinds, hcount]
    cases hid : l₁.mName2GvarId name with
    | some id =>
      have hr : r.gvar name = some id := by rw [hgvar₁, hid]
      have hpushed := hpush.push [id]
      refine ⟨?_, rfl⟩
      simpa [cellsBetween, linkOperand, linkOp, hr] using hpushed
    | none =>
      have hr : r.gvar name = none := by rw [hgvar₁, hid]
      have hpushed := (hmeans.push [OpCode.FUNC.toCell]).pushFunc name
      refine ⟨?_, rfl⟩
      simp only [hset]
      simpa [cellsBetween, linkOperand, linkOp, hr] using hpushed
  case func =>
    have hsize := hsize (by simp [hcase])
    have hcount : operandCount op (fun k => d.get (curr + 1 + k)) = 1 := by
      rw [← hlength, hkinds]
      rfl
    refine ⟨?_, by rw [hsize, Nat.add_assoc]⟩
    rw [hkinds, hcount, linkOp_of_ne (by simp [hcase])]
    have hpushed := hpush.pushFunc name
    simpa [cellsBetween, linkOperand] using hpushed
  case allocateClass =>
    have hid := hr.classId name _ (getClassId_self l₁ name)
    exact (hpush.sameCode (getClassId_sameCode l₁ name)).push_fixed (hsize (by simp [hcase]))
      (by simp [hcase]) hkinds (by simp [cellsBetween, List.range'_succ, linkOperand, hid])
  case allocateClassExc =>
    have hid := hr.classId name _ (getClassId_self l₁ name)
    exact (hpush.sameCode (getClassId_sameCode l₁ name)).push_fixed (hsize (by simp [hcase]))
      (by simp [hcase]) hkinds (by simp [cellsBetween, List.range'_succ, linkOperand, hid])
  case boxOrInstanceof =>
    have hid := hr.classId name _
      ((linkNamedClass_grows (l₁.getClassId name).2 bchir name).classes name _
        (getClassId_self l₁ name))
    exact ((hpush.sameCode (getClassId_sameCode l₁ name)).sameCode
      (linkNamedClass_sameCode _ bchir name)).push_fixed (hsize (by simp [hcase]))
      (by simp [hcase]) hkinds (by simp [cellsBetween, linkOperand, hid])
  case invokeExc =>
    have hid := hr.methodId name _ (getMethodId_self l₁ name)
    exact (hpush.sameCode (getMethodId_sameCode l₁ name)).push_fixed (hsize (by simp [hcase]))
      (by simp [hcase]) hkinds (by simp [cellsBetween, List.range'_succ, linkOperand, hid])
  case invoke =>
    have hid := hr.methodId name _ (getMethodId_self l₁ name)
    exact (hpush.sameCode (getMethodId_sameCode l₁ name)).push_fixed (hsize (by simp [hcase]))
      (by simp [hcase]) hkinds (by simp [cellsBetween, List.range'_succ, linkOperand, hid])
  case syscall =>
    obtain rfl := op_of_linkerCase_syscall hcase
    have hcount : operandCount .SYSCALL (fun k => d.get (curr + 1 + k)) =
        3 + d.get (curr + 2) := rfl
    refine ⟨?_, by rw [hcount, getOpCodeArgSize]; omega⟩
    have hoperands : cellsBetween d (curr + 1) (curr + 1 + (3 + d.get (curr + 2))) =
        [d.get (curr + 1), d.get (curr + 2), d.get (curr + 3)] ++
          cellsBetween d (curr + 4) (curr + 4 + d.get (curr + 2)) := by
      rw [cellsBetween_append d (curr + 4) (by omega) (by omega)]
      have hlast : curr + 1 + (3 + d.get (curr + 2)) = curr + 4 + d.get (curr + 2) := by omega
      rw [hlast]
      simp [cellsBetween, List.range'_succ]
    rw [hkinds, hcount, hoperands]
    refine hpush.push_operands (by simp [hcase]) ?_
    rw [List.zipWith_append, zipWith_replicate]
    · simp [linkOperand]
    · rw [length_cellsBetween, Nat.add_sub_cancel_left]
    · rfl
  case switch =>
    obtain rfl := op_of_linkerCase_switch hcase
    generalize hcases : d.get (curr + 2) = cases at hkinds ⊢
    have hcount : operandCount .SWITCH (fun k => d.get (curr + 1 + k)) =
        2 + cases * 2 + (cases + 1) := by
      rw [← hcases]
      rfl
    refine ⟨?_, by rw [hcount, getOpCodeArgSize]; omega⟩
    have hoperands : cellsBetween d (curr + 1) (curr + 1 + (2 + cases * 2 + (cases + 1))) =
        [d.get (curr + 1), cases] ++ cellsBetween d (curr + 3) (curr + 3 + cases * 2) ++
          cellsBetween d (curr + 3 + cases * 2) (curr + 3 + cases * 2 + cases + 1) := by
      have hlast : curr + 1 + (2 + cases * 2 + (cases + 1)) =
          curr + 3 + cases * 2 + cases + 1 := by omega
      have hhead : cellsBetween d (curr + 1) (curr + 3) = [d.get (curr + 1), cases] := by
        rw [← hcases]
        simp [cellsBetween, List.range'_succ]
      rw [hlast, ← hhead, ← cellsBetween_append d (curr + 3) (by omega) (by omega)]
      exact cellsBetween_append d (curr + 3 + cases * 2) (by omega) (by omega)
    rw [hkinds, hcount, hoperands]
    refine hpush.push_operands (by simp [hcase]) ?_
    rw [List.zipWith_append, List.zipWith_append, zipWith_replicate, zipWith_replicate]
    · have hvalues := flatMap_push8bytes d hcells (curr + 3) cases
      have hfirst : curr + 2 + 1 = curr + 3 := rfl
      simp only [hfirst, hvalues]
      simp [linkOperand]
      rfl
    · rw [length_cellsBetween]
      omega
    · rw [length_cellsBetween]
      omega
    · rfl
    · simp [length_cellsBetween]
  case capply =>
    obtain rfl := op_of_linkerCase_capply hcase
    rw [Nat.add_zero] at hkinds
    have hcount : operandCount .CAPPLY (fun k => d.get (curr + 1 + k)) =
        d.get (curr + 1) + 2 := rfl
    refine ⟨?_, by rw [hcount]; omega⟩
    have hoperands : cellsBetween d (curr + 1) (curr + 1 + (d.get (curr + 1) + 2)) =
        d.get (curr + 1) :: cellsBetween d (curr + 2) (curr + d.get (curr + 1) + 3) := by
      rw [cellsBetween_succ]
      have hlast : curr + 1 + 1 + (d.get (curr + 1) + 1) = curr + d.get (curr + 1) + 3 := by omega
      rw [hlast]
    rw [hkinds, hcount, hoperands]
    refine hpush.push_operands (by simp [hcase]) ?_
    rw [List.zipWith_cons_cons, zipWith_replicate]
    · simp [linkOperand]
    · rw [length_cellsBetween]
      omega
  case path =>
    obtain ⟨hargs, hcount⟩ := argSize_of_linkerCase_path hcase (fun k => d.get (curr + 1 + k))
    rw [Nat.add_zero] at hkinds hcount
    refine ⟨?_, by rw [hcount, hargs]; omega⟩
    have hlast : curr + getOpCodeArgSize op + d.get (curr + 1) + 1 =
        curr + 1 + (d.get (curr + 1) + 1) := by
      rw [hargs]
      omega
    rw [hkinds, hcount, hlast, ← List.replicate_succ]
    refine hpush.push_operands (by simp [hcase]) ?_
    rw [zipWith_replicate]
    · rfl
    · rw [length_cellsBetween, Nat.add_sub_cancel_left]
  case other =>
    have hsize := hsize (by simp [hcase])
    refine ⟨?_, by rw [hsize, Nat.add_assoc]⟩
    have hlast : curr + getOpCodeArgSize op + 1 = curr + 1 + getOpCodeArgSize op := by omega
    rw [hkinds, hsize, hlast]
    refine hpush.push_operands (by simp [hcase]) ?_
    rw [zipWith_replicate]
    · rfl
    · rw [length_cellsBetween, Nat.add_sub_cancel_left]
  all_goals
    exact hpush.push_fixed (hsize (by simp [hcase])) (by simp [hcase]) hkinds
      (by simp [cellsBetween, List.range'_succ, linkOperand])

end Operation

/-! ## The body of a definition -/

/-- What the operations of a definition from an index on are linked to. -/
def linkedFrom (r : Resolution) (offset : ℕ) (d : Definition) : ℕ → ℕ → List (Cell String)
  | 0, _ => []
  | fuel + 1, curr =>
    if curr < d.nextIndex then
      linkInstr r offset (d.instrAt curr) ++
        linkedFrom r offset d fuel (curr + (d.instrAt curr).encode.length)
    else []

/-- What the body of a definition is linked to. -/
def linkedBody (r : Resolution) (offset : ℕ) (d : Definition) : List (Cell String) :=
  linkedFrom r offset d d.nextIndex 0

/-- The indices that the loop over the operations visits, each with the index of the image that is
written next. -/
def visitedFrom (bchir : Bchir) (currentDef : Definition) (typeMap stringMap : List ByteCodeContent)
    (offset : ℕ) : ℕ → ℕ → BCHIRLinker → List (ℕ × ByteCodeContent)
  | 0, _, _ => []
  | fuel + 1, curr, l =>
    if curr < currentDef.nextIndex then
      let (l', next) := l.linkOperation bchir currentDef typeMap stringMap offset curr
      (curr, l.nextIndex) ::
        visitedFrom bchir currentDef typeMap stringMap offset fuel next l'
    else []

/-- The indices that the traversal of a definition visits. -/
def visited (l : BCHIRLinker) (bchir : Bchir) (currentDef : Definition)
    (typeMap stringMap : List ByteCodeContent) : List (ℕ × ByteCodeContent) :=
  visitedFrom bchir currentDef typeMap stringMap l.nextIndex currentDef.nextIndex 0 l

lemma linkOperations_bodyStep (bchir : Bchir) (d : Definition) (typeMap stringMap : List ℕ)
    (offset fuel curr : ℕ) (l : BCHIRLinker) :
    BodyStep l (linkOperations bchir d typeMap stringMap offset fuel curr l) := by
  induction fuel generalizing curr l with
  | zero => exact BodyStep.refl l
  | succ fuel ih =>
    unfold linkOperations
    split
    · exact (linkOperation_bodyStep bchir d typeMap stringMap offset curr l).trans (ih _ _)
    · exact BodyStep.refl l

/-- The loop appends what the operations are linked to, whatever the definition is. -/
theorem linkOperations_means (bchir : Bchir) (d : Definition)
    (hcells : ∀ c ∈ d.bytecode, c < 2 ^ 32) (offset : ℕ) (r : Resolution) (fuel curr : ℕ)
    (l : BCHIRLinker) {cells : List (Cell String)} (hmeans : l.Means cells)
    (hr : (linkOperations bchir d r.typeMap r.stringMap offset fuel curr l).ResolvedBy r) :
    (linkOperations bchir d r.typeMap r.stringMap offset fuel curr l).Means
      (cells ++ linkedFrom r offset d fuel curr) := by
  induction fuel generalizing curr l cells with
  | zero => simpa [linkOperations, linkedFrom] using hmeans
  | succ fuel ih =>
    unfold linkOperations at hr ⊢
    unfold linkedFrom
    by_cases hlt : curr < d.nextIndex
    · simp only [hlt, if_true] at hr ⊢
      have hlast := linkOperations_bodyStep bchir d r.typeMap r.stringMap offset fuel
        (l.linkOperation bchir d r.typeMap r.stringMap offset curr).2
        (l.linkOperation bchir d r.typeMap r.stringMap offset curr).1
      obtain ⟨hstep, hnext⟩ := linkOperation_means bchir d hcells offset curr l hmeans r
        (hr.of_grows hlast.grows)
      have hrest := ih _ _ hstep hr
      rw [hnext] at hrest ⊢
      rwa [List.append_assoc] at hrest
    · simpa [hlt] using hmeans

/-! ## A definition that consists of instructions -/

lemma get_append (d : Definition) (front back : List ByteCodeContent)
    (h : d.bytecode = front ++ back) (k : ℕ) : d.get (front.length + k) = back.getD k 0 := by
  unfold Definition.get
  rw [h, List.getD_append_right _ _ _ _ (Nat.le_add_right _ _), Nat.add_sub_cancel_left]

lemma cellsBetween_eq (d : Definition) (front middle back : List ByteCodeContent)
    (h : d.bytecode = front ++ (middle ++ back)) :
    cellsBetween d front.length (front.length + middle.length) = middle := by
  induction middle generalizing front with
  | nil => simp [cellsBetween]
  | cons c rest ih =>
    have hget := get_append d front _ h 0
    have hrest := ih (front ++ [c]) (by simpa using h)
    rw [List.length_append, List.length_singleton] at hrest
    rw [List.length_cons, cellsBetween_succ, hrest]
    rw [Nat.add_zero] at hget
    rw [hget]
    rfl

/-- The instruction at the start of an instruction is that instruction. -/
lemma instrAt_append (d : Definition) (front : List ByteCodeContent) (i : Instr)
    (back : List ByteCodeContent) (h : d.bytecode = front ++ (i.encode ++ back))
    (hi : i.WellFormed) (hname : d.getMangledNameAnnotation front.length = i.mangledName) :
    d.instrAt front.length = i := by
  have hop : OpCode.ofNat (d.get front.length) = i.op := by
    have hget := get_append d front _ h 0
    rw [Nat.add_zero] at hget
    rw [hget]
    exact OpCode.ofNat_toCell i.op
  have hafter : d.bytecode = (front ++ [i.op.toCell]) ++ (i.operands ++ back) := by
    simpa [Instr.encode] using h
  have harg : ∀ k < operandCount i.op i.arg, d.get (front.length + 1 + k) = i.arg k := by
    intro k hk
    have hlt : k < i.operands.length := hi.symm ▸ hk
    have hget := get_append d _ _ hafter k
    rw [List.length_append, List.length_singleton] at hget
    rw [hget, List.getD_append _ _ _ _ hlt]
    rfl
  have hcount : operandCount i.op (fun k => d.get (front.length + 1 + k)) = i.operands.length := by
    rw [hi, ← length_operandKinds, operandKinds_congr harg, length_operandKinds]
  have hoperands := cellsBetween_eq d _ _ _ hafter
  rw [List.length_append, List.length_singleton] at hoperands
  unfold Definition.instrAt
  rw [hop, hcount, hoperands, hname]

/-- A list of instructions from an index of the definition on. -/
lemma linkedFrom_eq (r : Resolution) (offset : ℕ) (d : Definition) (front : List ByteCodeContent)
    (instrs : List Instr) (h : d.bytecode = front ++ instrs.flatMap Instr.encode)
    (hwf : ∀ i ∈ instrs, i.WellFormed)
    (hname : ∀ p ∈ (startsFrom front.length instrs).zip instrs,
      d.getMangledNameAnnotation p.1 = p.2.mangledName) (fuel : ℕ)
    (hfuel : d.nextIndex ≤ front.length + fuel) :
    linkedFrom r offset d fuel front.length = instrs.flatMap (linkInstr r offset) := by
  induction instrs generalizing front fuel with
  | nil =>
    have hge : ¬ front.length < d.nextIndex := by
      simp [Definition.nextIndex, h]
    cases fuel with
    | zero => rfl
    | succ fuel => simp [linkedFrom, hge]
  | cons i rest ih =>
    have hlength : d.nextIndex = front.length + (i.encode ++ rest.flatMap Instr.encode).length := by
      rw [Definition.nextIndex, h, List.flatMap_cons, List.length_append]
    have hencode : 0 < i.encode.length := by simp [Instr.encode]
    rw [List.length_append] at hlength
    obtain ⟨fuel, rfl⟩ : ∃ n, fuel = n + 1 := ⟨fuel - 1, by omega⟩
    have hinstr : d.instrAt front.length = i :=
      instrAt_append d front i _ h (hwf i List.mem_cons_self)
        (hname (front.length, i) (by simp [startsFrom]))
    have hrest := ih (front ++ i.encode) (by rw [h, List.flatMap_cons, List.append_assoc])
      (fun j hj => hwf j (List.mem_cons_of_mem _ hj))
      (fun p hp => hname p (by
        rw [List.length_append] at hp
        exact List.mem_cons_of_mem _ hp)) fuel (by rw [List.length_append]; omega)
    rw [List.length_append] at hrest
    unfold linkedFrom
    rw [if_pos (by omega), hinstr, hrest, List.flatMap_cons]

/-- The body of a definition that consists of instructions is linked to what these are linked to. -/
theorem linkedBody_eq (r : Resolution) (offset : ℕ) {d : Definition} {instrs : List Instr}
    (h : d.Consists instrs) :
    linkedBody r offset d = instrs.flatMap (linkInstr r offset) :=
  linkedFrom_eq r offset d [] instrs h.bytecode_eq h.wellFormed h.mangledName d.nextIndex
    (by simp)

lemma length_linkInstr (r : Resolution) (offset : ℕ) {i : Instr} (hi : i.WellFormed) :
    (linkInstr r offset i).length = i.encode.length := by
  unfold linkInstr Instr.encode
  rw [List.length_cons, List.length_zipWith, length_operandKinds, List.length_cons, hi,
    Nat.min_self]

/-- The traversal visits the starts of the instructions, and writes each at its distance from the
start of the definition. -/
lemma visitedFrom_eq (bchir : Bchir) (d : Definition) (hcells : ∀ c ∈ d.bytecode, c < 2 ^ 32)
    (r : Resolution) (offset : ℕ) (front : List ByteCodeContent) (instrs : List Instr)
    (h : d.bytecode = front ++ instrs.flatMap Instr.encode) (hwf : ∀ i ∈ instrs, i.WellFormed)
    (hname : ∀ p ∈ (startsFrom front.length instrs).zip instrs,
      d.getMangledNameAnnotation p.1 = p.2.mangledName) (fuel : ℕ)
    (hfuel : d.nextIndex ≤ front.length + fuel) (l : BCHIRLinker) {cells : List (Cell String)}
    (hmeans : l.Means cells) (hindex : l.nextIndex = offset + front.length)
    (hr : (linkOperations bchir d r.typeMap r.stringMap offset fuel front.length l).ResolvedBy r) :
    visitedFrom bchir d r.typeMap r.stringMap offset fuel front.length l =
      (startsFrom front.length instrs).map fun start => (start, offset + start) := by
  induction instrs generalizing front fuel l cells with
  | nil =>
    have hge : ¬ front.length < d.nextIndex := by
      simp [Definition.nextIndex, h]
    cases fuel with
    | zero => rfl
    | succ fuel => simp [visitedFrom, hge, startsFrom]
  | cons i rest ih =>
    have hlength : d.nextIndex = front.length + (i.encode ++ rest.flatMap Instr.encode).length := by
      rw [Definition.nextIndex, h, List.flatMap_cons, List.length_append]
    have hencode : 0 < i.encode.length := by simp [Instr.encode]
    rw [List.length_append] at hlength
    obtain ⟨fuel, rfl⟩ : ∃ n, fuel = n + 1 := ⟨fuel - 1, by omega⟩
    have hinstr : d.instrAt front.length = i :=
      instrAt_append d front i _ h (hwf i List.mem_cons_self)
        (hname (front.length, i) (by simp [startsFrom]))
    have hlt : front.length < d.nextIndex := by omega
    unfold linkOperations at hr
    simp only [hlt, if_true] at hr
    have hlast := linkOperations_bodyStep bchir d r.typeMap r.stringMap offset fuel
      (l.linkOperation bchir d r.typeMap r.stringMap offset front.length).2
      (l.linkOperation bchir d r.typeMap r.stringMap offset front.length).1
    obtain ⟨hstep, hnext⟩ := linkOperation_means bchir d hcells offset front.length l hmeans r
      (hr.of_grows hlast.grows)
    rw [hinstr] at hstep hnext
    have hindex' : (l.linkOperation bchir d r.typeMap r.stringMap offset front.length).1.nextIndex =
        offset + (front ++ i.encode).length := by
      rw [hstep.nextIndex_eq, List.length_append, ← hmeans.nextIndex_eq, hindex,
        length_linkInstr r offset (hwf i List.mem_cons_self), List.length_append, Nat.add_assoc]
    rw [hnext, ← List.length_append] at hr
    have hrest := ih (front ++ i.encode) (by rw [h, List.flatMap_cons, List.append_assoc])
      (fun j hj => hwf j (List.mem_cons_of_mem _ hj))
      (fun p hp => hname p (by
        rw [List.length_append] at hp
        exact List.mem_cons_of_mem _ hp)) fuel (by rw [List.length_append]; omega)
      _ hstep hindex' hr
    unfold visitedFrom
    simp only [hlt, if_true, hnext, startsFrom, List.map_cons, hindex]
    rw [← List.length_append, hrest]

end BCHIRLinker

end Cangjie.CHIR.Interpreter
