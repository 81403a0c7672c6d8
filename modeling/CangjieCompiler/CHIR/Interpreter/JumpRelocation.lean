import CangjieCompiler.CHIR.Interpreter.LinkedRun

/-!
# Relocation of jumps

The body of a function is appended at an offset of the image, so every operand that the interpreter
takes as a place to go on has to be shifted by that offset, and no other number may be.  The linker
does so for the operations its switch names.  An operation with an exception handler that the switch
does not name is copied as it is: its handler then is an index of another function.
-/

namespace Cangjie.CHIR.Interpreter.BCHIRLinker

open SymbolicImage

/-! ## Kinds and places to go on -/

/-- The operations with an exception handler that the switch of the linker does not name. -/
def notRelocated : List OpCode :=
  [.ALLOCATE_RAW_ARRAY_EXC, .ALLOCATE_RAW_ARRAY_LITERAL_EXC, .TYPECAST_EXC, .RAISE_EXC,
    .INTRINSIC0_EXC, .INTRINSIC1_EXC, .INTRINSIC2_EXC, .SPAWN_EXC]

/-- The kinds of a switch: its type, its number of cases and its values, then its targets. -/
lemma operandKinds_switch (arg : ℕ → ByteCodeContent) :
    operandKinds .SWITCH arg =
      List.replicate (2 + arg 1 * 2) .plain ++ List.replicate (arg 1 + 1) .target := by
  rw [List.replicate_add]
  rfl

/-- The linker takes every place to go on for one, except in the operations it does not name. -/
lemma operandKinds_target {op : OpCode} {arg : ℕ → ByteCodeContent} {k : ℕ}
    (hop : op ∉ notRelocated) (h : isTarget op arg k) :
    (operandKinds op arg)[k]? = some .target := by
  cases op <;> simp [notRelocated, isTarget, opHasExceptionHandler, getOpCodeArgSize] at hop h
  case SWITCH =>
    rw [operandKinds_switch, List.getElem?_append_right (by simpa using h.1), List.length_replicate,
      List.getElem?_replicate, if_pos (by omega)]
  case BRANCH => rcases h with rfl | rfl <;> rfl
  all_goals
    obtain rfl := h
    rfl

/-- The linker copies an operand that is neither a place to go on nor an index into a table. -/
lemma operandKinds_plain {op : OpCode} {arg : ℕ → ByteCodeContent} {k : ℕ}
    (hk : k < operandCount op arg) (h : ¬ isTarget op arg k) (h' : ¬ isTableIndex op k) :
    (operandKinds op arg)[k]? = some .plain := by
  have hother : linkerCase op = .other → (operandKinds op arg)[k]? = some .plain := by
    intro hcase
    have hkinds : operandKinds op arg = List.replicate (operandCount op arg) .plain := by
      rw [operandCount_eq_argSize arg (by simp [hcase])]
      unfold operandKinds
      rw [hcase]
    rw [hkinds, List.getElem?_replicate, if_pos hk]
  cases op
  case SWITCH =>
    simp only [isTarget, not_and, not_lt] at h
    have hlt : k < 2 + arg 1 * 2 := by
      by_contra hge
      exact absurd (h (Nat.le_of_not_lt hge)) (Nat.not_le_of_lt hk)
    rw [operandKinds_switch, List.getElem?_append_left (by simpa using hlt),
      List.getElem?_replicate, if_pos hlt]
  case FIELD_TPL | GETREF | STOREINREF =>
    have hpath : k < arg 0 + 1 := hk
    simp [operandKinds, linkerCase, ← List.replicate_succ, hpath]
  -- the operations of fixed length: at most four operands
  all_goals first
    | exact hother rfl
    | simp only [isTarget, isTableIndex, opHasExceptionHandler, getOpCodeArgSize, operandCount,
        Bool.false_eq_true, true_and, false_and, not_false_eq_true, not_not, not_or] at h h' hk
  all_goals
    rcases k with _ | _ | _ | _ | k <;> first | rfl | (exfalso; omega)

/-- An operation that the linker does not name has a place to go on, which is copied. -/
lemma exists_target_plain {op : OpCode} (arg : ℕ → ByteCodeContent) (hop : op ∈ notRelocated) :
    ∃ k, isTarget op arg k ∧ (operandKinds op arg)[k]? = some .plain := by
  refine ⟨getOpCodeArgSize op - 1, ?_⟩
  simp only [notRelocated, List.mem_cons, List.not_mem_nil, or_false] at hop
  rcases hop with rfl | rfl | rfl | rfl | rfl | rfl | rfl | rfl <;> exact ⟨⟨rfl, rfl⟩, rfl⟩

/-! ## A relocated function -/

/-- An instruction that is written at its distance from the offset, with every place to go on
shifted by the offset and every other number as it was. -/
structure InstrRelocated (image : List ByteCodeContent) (offset start : ℕ) (i : Instr) : Prop where
  op : image[offset + start]? = some i.op.toCell ∨
    i.op = .GVAR ∧ image[offset + start]? = some OpCode.FUNC.toCell
  target : ∀ k < i.operands.length, isTarget i.op i.arg k →
    image[offset + start + 1 + k]? = some (i.arg k + offset)
  number : ∀ k < i.operands.length, ¬ isTarget i.op i.arg k → ¬ isTableIndex i.op k →
    image[offset + start + 1 + k]? = some (i.arg k)

/-- A function of a package whose instructions are visited one after the other, written at their
distance from the offset, and relocated in the final image. -/
structure Relocated (forConstEval : Bool) (packages earlier : List Bchir) (p : Bchir)
    (fs : List (String × Definition)) (f : String × Definition) (instrs : List Instr) : Prop where
  visits :
    let l := (beforeFunction forConstEval packages earlier p fs).beforeBody f
    let first := beforePackage forConstEval packages earlier
    l.visited p f.2 (first.packageTypes p) (first.packageStrings p) =
      (startsFrom 0 instrs).map fun start => (start, l.nextIndex + start)
  length :
    let l := (beforeFunction forConstEval packages earlier p fs).beforeBody f
    let first := beforePackage forConstEval packages earlier
    (l.traverseAndLink p f.2 (first.packageTypes p) (first.packageStrings p)).nextIndex =
      l.nextIndex + f.2.nextIndex
  instrs : ∀ q ∈ (startsFrom 0 instrs).zip instrs,
    InstrRelocated (run forConstEval packages).topDef
      ((beforeFunction forConstEval packages earlier p fs).beforeBody f).nextIndex q.1 q.2

/-- The instructions before an instruction of a list, and where it starts. -/
lemma mem_zip_startsFrom {start : ℕ} {instrs : List Instr} {q : ℕ × Instr}
    (h : q ∈ (startsFrom start instrs).zip instrs) :
    ∃ front back, instrs = front ++ q.2 :: back ∧
      q.1 = start + (front.flatMap Instr.encode).length := by
  induction instrs generalizing start with
  | nil => simp [startsFrom] at h
  | cons i rest ih =>
    rw [startsFrom, List.zip_cons_cons, List.mem_cons] at h
    rcases h with rfl | h
    · exact ⟨[], rest, rfl, rfl⟩
    · obtain ⟨front, back, hrest, hstart⟩ := ih h
      refine ⟨i :: front, back, by rw [hrest]; rfl, ?_⟩
      rw [hstart, List.flatMap_cons, List.length_append, Nat.add_assoc]

/-- Every instruction of a list starts somewhere. -/
lemma exists_start (start : ℕ) {instrs : List Instr} {i : Instr} (hi : i ∈ instrs) :
    ∃ s, (s, i) ∈ (startsFrom start instrs).zip instrs := by
  induction instrs generalizing start with
  | nil => simp at hi
  | cons j rest ih =>
    rw [startsFrom, List.zip_cons_cons]
    rcases List.mem_cons.mp hi with rfl | hi
    · exact ⟨start, List.mem_cons_self⟩
    · obtain ⟨s, hs⟩ := ih (start + j.encode.length) hi
      exact ⟨s, List.mem_cons_of_mem _ hs⟩

lemma length_flatMap_linkInstr (r : Resolution) (offset : ℕ) {instrs : List Instr}
    (hwf : ∀ i ∈ instrs, i.WellFormed) :
    (instrs.flatMap (linkInstr r offset)).length = (instrs.flatMap Instr.encode).length := by
  induction instrs with
  | nil => rfl
  | cons i rest ih =>
    rw [List.flatMap_cons, List.flatMap_cons, List.length_append, List.length_append,
      length_linkInstr r offset (hwf i List.mem_cons_self),
      ih fun j hj => hwf j (List.mem_cons_of_mem _ hj)]

/-- The cell of an operand of a linked instruction. -/
lemma getElem?_linkInstr_operand (r : Resolution) (offset : ℕ) {i : Instr} {k : ℕ}
    (hk : k < i.operands.length) {kind : OperandKind}
    (hkind : (operandKinds i.op i.arg)[k]? = some kind) :
    (linkInstr r offset i)[1 + k]? = some (linkOperand r offset i.mangledName kind (i.arg k)) := by
  have harg : i.operands[k]? = some (i.arg k) := by
    rw [List.getElem?_eq_getElem hk, Instr.arg, List.getD_eq_getElem _ _ hk]
  unfold linkInstr
  rw [Nat.add_comm, List.getElem?_cons_succ, List.getElem?_zipWith, hkind, harg]

section Relocation

variable (forConstEval : Bool) {packages earlier later : List Bchir} {p : Bchir}
  {fs rest : List (String × Definition)} {f : String × Definition} {instrs : List Instr}
  (hpackages : packages = earlier ++ p :: later)
  (hfunctions : p.functions = fs ++ f :: rest) (hwords : ∀ q ∈ packages, HasWords q)

include hpackages hfunctions hwords

lemma offset_pos :
    0 < ((beforeFunction forConstEval packages earlier p fs).beforeBody f).nextIndex := by
  obtain ⟨cells, hcells⟩ := beforeFunction_means forConstEval hpackages hfunctions hwords
  rw [(beforeBody_means hcells f).nextIndex_eq]
  simp

/-- The final image has, at the start of an instruction, the cells the instruction is linked to. -/
lemma run_instr {r : Resolution} (hr : Resolves forConstEval packages earlier p r)
    (hconsists : f.2.Consists instrs) {q : ℕ × Instr}
    (hq : q ∈ (startsFrom 0 instrs).zip instrs) {j : ℕ} (hj : j < q.2.encode.length) :
    (run forConstEval packages).topDef[
        ((beforeFunction forConstEval packages earlier p fs).beforeBody f).nextIndex + q.1 + j]? =
      ((linkInstr r
        ((beforeFunction forConstEval packages earlier p fs).beforeBody f).nextIndex q.2)[j]?).map
        (Cell.resolve (run forConstEval packages).mName2FuncBodyIdx
          (run forConstEval packages).dummyAbortFuncIdx) := by
  obtain ⟨cells, hcells⟩ := beforeFunction_means forConstEval hpackages hfunctions hwords
  obtain ⟨before, after, -, hlength, hrun⟩ :=
    run_function forConstEval hpackages hfunctions hwords hr
  have hindex : ((beforeFunction forConstEval packages earlier p fs).beforeBody f).nextIndex =
      before.length + 2 := by
    rw [(beforeBody_means hcells f).nextIndex_eq, List.length_append, ← hcells.nextIndex_eq,
      hlength]
    rfl
  obtain ⟨front, back, hsplit, hstart⟩ := mem_zip_startsFrom hq
  have hwf : ∀ i ∈ front, i.WellFormed := fun i hi =>
    hconsists.wellFormed i (hsplit ▸ List.mem_append_left _ hi)
  have hwfq : q.2.WellFormed :=
    hconsists.wellFormed q.2 (hsplit ▸ List.mem_append_right _ List.mem_cons_self)
  rw [hindex]
  have hcells : before ++ (functionCells r before.length f ++ after) =
      (before ++ [.word OpCode.FRAME.toCell, .word f.2.numLVars] ++
        front.flatMap (linkInstr r (before.length + 2))) ++
      (linkInstr r (before.length + 2) q.2 ++
        (back.flatMap (linkInstr r (before.length + 2)) ++ after)) := by
    unfold functionCells
    rw [linkedBody_eq r _ hconsists]
    nth_rewrite 1 [hsplit]
    simp only [List.flatMap_append, List.flatMap_cons, List.append_assoc]
  have hfront : before.length + 2 + q.1 =
      (before ++ [Cell.word OpCode.FRAME.toCell, .word f.2.numLVars] ++
        front.flatMap (linkInstr r (before.length + 2))).length := by
    rw [List.length_append, List.length_append, length_flatMap_linkInstr r _ hwf, hstart]
    simp
  have hlt : j < (linkInstr r (before.length + 2) q.2).length := by
    rwa [length_linkInstr r _ hwfq]
  rw [hrun.image_eq, hcells, List.getElem?_map, hfront,
    List.getElem?_append_right (Nat.le_add_right _ _), Nat.add_sub_cancel_left,
    List.getElem?_append_left hlt]

/-- The final cell of an operand of an instruction. -/
lemma run_operand {r : Resolution} (hr : Resolves forConstEval packages earlier p r)
    (hconsists : f.2.Consists instrs) {q : ℕ × Instr}
    (hq : q ∈ (startsFrom 0 instrs).zip instrs) {k : ℕ} (hk : k < q.2.operands.length)
    {kind : OperandKind} (hkind : (operandKinds q.2.op q.2.arg)[k]? = some kind) :
    (run forConstEval packages).topDef[
        ((beforeFunction forConstEval packages earlier p fs).beforeBody f).nextIndex + q.1 + 1 +
          k]? =
      some ((linkOperand r
        ((beforeFunction forConstEval packages earlier p fs).beforeBody f).nextIndex
        q.2.mangledName kind (q.2.arg k)).resolve (run forConstEval packages).mName2FuncBodyIdx
          (run forConstEval packages).dummyAbortFuncIdx) := by
  have hj : 1 + k < q.2.encode.length := by
    rw [Instr.encode, List.length_cons, Nat.add_comm]
    exact Nat.succ_lt_succ hk
  have hrun := run_instr forConstEval hpackages hfunctions hwords hr hconsists hq hj
  rw [getElem?_linkInstr_operand _ _ hk hkind, ← Nat.add_assoc] at hrun
  exact hrun

/-- Every instruction whose operation the linker names is relocated. -/
lemma instrRelocated (hconsists : f.2.Consists instrs) {q : ℕ × Instr}
    (hq : q ∈ (startsFrom 0 instrs).zip instrs) (hop : q.2.op ∉ notRelocated) :
    InstrRelocated (run forConstEval packages).topDef
      ((beforeFunction forConstEval packages earlier p fs).beforeBody f).nextIndex q.1 q.2 where
  op := by
    have hrun := run_instr forConstEval hpackages hfunctions hwords
      (finalResolution_resolves forConstEval packages earlier p) hconsists hq
      (j := 0) (by simp [Instr.encode])
    rw [Nat.add_zero] at hrun
    rw [hrun]
    by_cases hgvar : q.2.op = .GVAR ∧
        (finalResolution forConstEval packages earlier p).gvar q.2.mangledName = none
    · refine Or.inr ⟨hgvar.1, ?_⟩
      simp [linkInstr, linkOp, hgvar, Cell.resolve]
    · refine Or.inl ?_
      simp [linkInstr, linkOp, hgvar, Cell.resolve]
  target := fun k hk htarget => by
    have hkind := operandKinds_target hop htarget
    rw [run_operand forConstEval hpackages hfunctions hwords
      (finalResolution_resolves forConstEval packages earlier p) hconsists hq hk hkind]
    rfl
  number := fun k hk htarget hindex => by
    have hwf := hconsists.wellFormed q.2 (List.of_mem_zip hq).2
    have hkind := operandKinds_plain (hwf ▸ hk) htarget hindex
    rw [run_operand forConstEval hpackages hfunctions hwords
      (finalResolution_resolves forConstEval packages earlier p) hconsists hq hk hkind]
    rfl

/-- The instructions are visited one after the other and written with their lengths. -/
lemma visited_eq (hconsists : f.2.Consists instrs) (typeMap stringMap : List ByteCodeContent) :
    let l := (beforeFunction forConstEval packages earlier p fs).beforeBody f
    l.visited p f.2 typeMap stringMap =
        ((startsFrom 0 instrs).map fun start => (start, l.nextIndex + start)) ∧
      (l.traverseAndLink p f.2 typeMap stringMap).nextIndex = l.nextIndex + f.2.nextIndex := by
  intro l
  obtain ⟨cells, hcells⟩ := beforeFunction_means forConstEval hpackages hfunctions hwords
  have hmeans : l.Means _ := beforeBody_means hcells f
  have hp : HasWords p := hwords p (hpackages ▸ List.mem_append_right _ List.mem_cons_self)
  have hf : ∀ c ∈ f.2.bytecode, c < 2 ^ 32 :=
    hp f (hfunctions ▸ List.mem_append_right _ List.mem_cons_self)
  let r := (l.traverseAndLink p f.2 typeMap stringMap).resolution typeMap stringMap
  have hr : (linkOperations p f.2 r.typeMap r.stringMap l.nextIndex f.2.nextIndex 0 l).ResolvedBy
      r := resolvedBy_resolution _ typeMap stringMap
  refine ⟨?_, ?_⟩
  · exact visitedFrom_eq p f.2 hf r l.nextIndex [] instrs hconsists.bytecode_eq
      hconsists.wellFormed hconsists.mangledName f.2.nextIndex (by simp) l hmeans (by simp) hr
  · have hlinked := linkOperations_means p f.2 hf l.nextIndex r f.2.nextIndex 0 l hmeans hr
    have hbody := linkedBody_eq r l.nextIndex hconsists
    have hlength := hlinked.nextIndex_eq
    rw [List.length_append, ← hmeans.nextIndex_eq] at hlength
    rw [linkedBody] at hbody
    rw [hbody, length_flatMap_linkInstr _ _ hconsists.wellFormed, ← hconsists.bytecode_eq]
      at hlength
    exact hlength

/-- An operation with an exception handler that the linker does not name keeps its old handler. -/
lemma not_relocated_of_mem (hconsists : f.2.Consists instrs) {i : Instr} (hi : i ∈ instrs)
    (hop : i.op ∈ notRelocated) : ¬ Relocated forConstEval packages earlier p fs f instrs := by
  intro hrelocated
  obtain ⟨start, hq⟩ := exists_start 0 hi
  obtain ⟨k, htarget, hkind⟩ := exists_target_plain i.arg hop
  have hk : k < i.operands.length := by
    rw [hconsists.wellFormed i hi, ← length_operandKinds]
    exact (List.getElem?_eq_some_iff.mp hkind).1
  have hshifted := (hrelocated.instrs _ hq).target k hk htarget
  have hcopied := run_operand forConstEval hpackages hfunctions hwords
    (finalResolution_resolves forConstEval packages earlier p) hconsists hq hk hkind
  have heq := Option.some.inj (hshifted.symm.trans hcopied)
  have hpos := offset_pos forConstEval hpackages hfunctions hwords
  exact absurd heq (Nat.ne_of_gt (Nat.lt_add_of_pos_right hpos))

/-- A function that consists of instructions is relocated exactly when the linker names every
operation with an exception handler in it. -/
theorem relocated_iff (hconsists : f.2.Consists instrs) :
    Relocated forConstEval packages earlier p fs f instrs ↔
      ∀ i ∈ instrs, i.op ∉ notRelocated := by
  constructor
  · intro hrelocated i hi hop
    exact not_relocated_of_mem forConstEval hpackages hfunctions hwords hconsists hi hop hrelocated
  · intro hop
    obtain ⟨hvisits, hlength⟩ := visited_eq forConstEval hpackages hfunctions hwords hconsists
      ((beforePackage forConstEval packages earlier).packageTypes p)
      ((beforePackage forConstEval packages earlier).packageStrings p)
    exact ⟨hvisits, hlength, fun q hq => instrRelocated forConstEval hpackages hfunctions hwords
      hconsists hq (hop q.2 (List.of_mem_zip hq).2)⟩

end Relocation

/-! ## A function that raises an exception to a handler -/

/-- A package with one function. -/
def packageOf (f : String × Definition) : Bchir where
  strings := []
  types := []
  functions := [f]
  globalVars := []
  sClassTable := []
  initFuncsForConsts := []

/-- A function of one operation with one operand, which is `0`. -/
def singleOp (name : String) (op : OpCode) (mangledName : Option String) : String × Definition :=
  (name, { numLVars := 0
           bytecode := [op.toCell, 0]
           mangledNamesAnnotations := fun _ => mangledName })

/-- The instruction of such a function. -/
def singleInstr (op : OpCode) (mangledName : Option String) : Instr where
  op := op
  operands := [0]
  mangledName := mangledName.getD ""

lemma consists_single (name : String) {op : OpCode} (mangledName : Option String)
    (hcount : ∀ arg, operandCount op arg = 1) (htarget : ∀ arg k, isTarget op arg k → k = 0) :
    (singleOp name op mangledName).2.Consists [singleInstr op mangledName] where
  bytecode_eq := rfl
  wellFormed := fun i hi => by
    obtain rfl := List.mem_singleton.mp hi
    exact (hcount _).symm
  mangledName := fun q hq => by
    obtain rfl := List.mem_singleton.mp hq
    rfl
  target := fun i hi k hk => by
    obtain rfl := List.mem_singleton.mp hi
    obtain rfl := htarget _ k hk
    exact List.mem_singleton_self 0

lemma hasWords_single (name : String) {op : OpCode} (mangledName : Option String)
    (hop : op.toCell < 2 ^ 32) : HasWords (packageOf (singleOp name op mangledName)) := by
  intro f hf c hc
  obtain rfl := List.mem_singleton.mp hf
  rcases List.mem_cons.mp hc with rfl | hc
  · exact hop
  · obtain rfl := List.mem_singleton.mp hc
    norm_num

/-- A function that jumps to its own start. -/
def looping : String × Definition := singleOp "f" .JUMP none

/-- A function that raises an exception with its own start as the handler. -/
def raising : String × Definition := singleOp "f" .RAISE_EXC none

/-- The function that jumps to its own start is relocated. -/
theorem relocated_iff_looping :
    Relocated true [packageOf looping] [] (packageOf looping) [] looping
      [singleInstr .JUMP none] := by
  have hpackages : [packageOf looping] = [] ++ packageOf looping :: [] := rfl
  have hfunctions : (packageOf looping).functions = [] ++ looping :: [] := rfl
  have hwords : ∀ q ∈ [packageOf looping], HasWords q := fun q hq =>
    List.mem_singleton.mp hq ▸ hasWords_single "f" none (by decide)
  have hconsists : looping.2.Consists [singleInstr .JUMP none] :=
    consists_single "f" none (fun _ => rfl) (fun _ _ h => h)
  exact (relocated_iff true hpackages hfunctions hwords hconsists).mpr (by decide)

/-- The handler of an exception that a function raises is not relocated. -/
theorem raising_not_relocated :
    ¬ ∀ (forConstEval : Bool) (packages earlier later : List Bchir) (p : Bchir)
      (fs rest : List (String × Definition)) (f : String × Definition) (instrs : List Instr),
      packages = earlier ++ p :: later → p.functions = fs ++ f :: rest →
      (∀ q ∈ packages, HasWords q) → f.2.Consists instrs →
      Relocated forConstEval packages earlier p fs f instrs := by
  intro h
  have hpackages : [packageOf raising] = [] ++ packageOf raising :: [] := rfl
  have hfunctions : (packageOf raising).functions = [] ++ raising :: [] := rfl
  have hwords : ∀ q ∈ [packageOf raising], HasWords q := fun q hq =>
    List.mem_singleton.mp hq ▸ hasWords_single "f" none (by decide)
  have hconsists : raising.2.Consists [singleInstr .RAISE_EXC none] :=
    consists_single "f" none (fun _ => rfl) (fun _ _ h => Nat.succ.inj h.2)
  exact not_relocated_of_mem true hpackages hfunctions hwords hconsists List.mem_cons_self
    (by decide) (h true _ _ _ _ _ _ _ _ hpackages hfunctions hwords hconsists)

end Cangjie.CHIR.Interpreter.BCHIRLinker
