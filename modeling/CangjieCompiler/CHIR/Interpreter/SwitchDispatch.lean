import CangjieCompiler.CHIR.Interpreter.CHIR2BCHIR
import CangjieCompiler.Foundations.LowerBound

/-!
# Dispatch over values

The interpreter looks the value of the selector up in the values of the operation, which the linker
has copied, and goes on at the target that the linker has shifted.  It keeps only the lowest byte of
the value, so it goes on where the lowest byte leads to.
-/

namespace Cangjie.CHIR.Interpreter

open SymbolicImage BinarySearch

/-! ## The operation -/

/-- The branch as one instruction, for the indices that the blocks have in the end. -/
def MultiBranch.instr {β : Type} (branch : MultiBranch β) (blockIndex : β → ByteCodeContent)
    (mangledName : String) : Instr where
  op := .SWITCH
  operands := [branch.selectorType.tyKind.toCell, branch.caseVals.length] ++
    (branch.casesToSuccessors.flatMap fun it => BCHIRLinker.push8bytes it.1.toNat) ++
    (branch.defaultBlock :: branch.casesToSuccessors.map Prod.snd).map blockIndex
  mangledName := mangledName

/-- The cells of the translation are the instruction, once the blocks have their indices. -/
theorem MultiBranch.encode_instr {β : Type} (branch : MultiBranch β)
    (blockIndex : β → ByteCodeContent) (mangledName : String) :
    (branch.instr blockIndex mangledName).encode =
      branch.cells.map (Cell.resolve (fun bb => some (blockIndex bb)) 0) := by
  have hwords : ∀ words : List ByteCodeContent, (words.map (Cell.word (ν := β))).map
      (Cell.resolve (fun bb => some (blockIndex bb)) 0) = words := fun words => by
    rw [List.map_map]
    exact List.map_id words
  have hrefs : (branch.casesToSuccessors.map fun it => Cell.ref it.2).map
      (Cell.resolve (fun bb => some (blockIndex bb)) 0) =
        (branch.casesToSuccessors.map Prod.snd).map blockIndex := by
    rw [List.map_map, List.map_map]
    rfl
  unfold MultiBranch.instr MultiBranch.cells Instr.encode
  rw [List.map_append, List.map_append, List.map_append, hwords, hrefs, List.append_assoc,
    List.append_assoc, List.append_assoc]
  rfl

/-- The state in which every block has its index. -/
def Context.resolved {β : Type} (blockIndex : β → ByteCodeContent) : Context β where
  bytecode := []
  bb2Index := fun bb => some (blockIndex bb)
  bb2IndexPlaceHolder := fun _ => none

/-- With all indices known, the translation of a branch is the cells of the instruction. -/
theorem Context.translateMultiBranch_resolved {β : Type} [DecidableEq β] (branch : MultiBranch β)
    (blockIndex : β → ByteCodeContent) (mangledName : String) :
    ((Context.resolved blockIndex).translateMultiBranch branch).bytecode =
      (branch.instr blockIndex mangledName).encode := by
  have hstart : (Context.resolved blockIndex).Means [] :=
    ⟨rfl, fun bb hbb => absurd hbb (Option.some_ne_none _), fun _ _ => rfl⟩
  have hmeans := Context.translateMultiBranch_means hstart branch
  rw [branch.encode_instr, hmeans.image_eq, List.nil_append,
    Context.translateMultiBranch_bb2Index]
  rfl

/-! ## The interpreter -/

/-- The cell of the linked bytecode at an index. -/
def linkedCell (bytecode : List ByteCodeContent) (index : ℕ) : ByteCodeContent :=
  bytecode.getD index 0

/-- The value of 8 bytes that starts at an index, read in place. -/
def linkedWord (bytecode : List ByteCodeContent) (index : ℕ) : ℕ :=
  linkedCell bytecode index + linkedCell bytecode (index + 1) * 2 ^ 32

/-- Where the interpreter goes on, with the content of the selector. -/
def interpretSwitchWithType (bytecode : List ByteCodeContent) (pc : ℕ) (content : ℤ) : ℕ :=
  -- the content is converted to `unsigned char`, whatever its type is
  let realValue := (toUnsigned 8 content).toNat
  let casesIdx := pc + 1
  let cases := linkedCell bytecode casesIdx
  let word (i : ℕ) := linkedWord bytecode (casesIdx + 1 + 2 * i)
  let found := lowerBound (fun i => decide (word i < realValue)) 0 cases
  if found = cases ∨ word found ≠ realValue then linkedCell bytecode (casesIdx + 1 + cases * 2)
  else linkedCell bytecode (casesIdx + 1 + cases * 2 + 1 + found)

/-- The content that is popped for a type kind.  Popping a value of another type fails. -/
def argsPop : SwitchKind → IVal → Option ℤ
  | .integer kind, .IInt kind' content =>
    if kind = kind' then (IVal.IInt kind' content).integer? else none
  | .TYPE_RUNE, .IRune content => (IVal.IRune content).integer?
  | .TYPE_BOOLEAN, .IBool content => (IVal.IBool content).integer?
  | _, _ => none

/-- The operation at an index, with the value on top of the stack. -/
def interpretSwitch (bytecode : List ByteCodeContent) (pc : ℕ) (arg : IVal) : Option ℕ := do
  let kind ← SwitchKind.ofCell (linkedCell bytecode (pc + 1))
  let content ← argsPop kind arg
  pure (interpretSwitchWithType bytecode (pc + 1) content)

/-! ## Searching the linked values -/

/-- The linked operation at an index: the sorted values and the shifted targets. -/
structure LinkedSwitch {β : Type} (bytecode : List ByteCodeContent) (pc : ℕ)
    (branch : MultiBranch β) (target : β → ℕ) : Prop where
  kind : linkedCell bytecode (pc + 1) = branch.selectorType.tyKind.toCell
  cases : linkedCell bytecode (pc + 2) = branch.casesToSuccessors.length
  word : ∀ i it, branch.casesToSuccessors[i]? = some it →
    linkedWord bytecode (pc + 3 + 2 * i) = it.1.toNat
  default : linkedCell bytecode (pc + 3 + branch.casesToSuccessors.length * 2) =
    target branch.defaultBlock
  target : ∀ i it, branch.casesToSuccessors[i]? = some it →
    linkedCell bytecode (pc + 3 + branch.casesToSuccessors.length * 2 + 1 + i) = target it.2

namespace LinkedSwitch

variable {β : Type} {bytecode : List ByteCodeContent} {pc : ℕ} {branch : MultiBranch β}
  {target : β → ℕ}

/-- The values ascend. -/
lemma word_lt (h : LinkedSwitch bytecode pc branch target) {i j : ℕ} (hij : i < j)
    (hj : j < branch.casesToSuccessors.length) :
    linkedWord bytecode (pc + 3 + 2 * i) < linkedWord bytecode (pc + 3 + 2 * j) := by
  have hi : i < branch.casesToSuccessors.length := Nat.lt_trans hij hj
  rw [h.word i _ (List.getElem?_eq_getElem hi), h.word j _ (List.getElem?_eq_getElem hj)]
  exact List.pairwise_iff_getElem.mp branch.pairwise_casesToSuccessors i j hi hj hij

/-- The interpreter goes on where the lowest byte of the content leads to. -/
theorem interpretSwitchWithType_eq (h : LinkedSwitch bytecode pc branch target) (content : ℤ) :
    interpretSwitchWithType bytecode (pc + 1) content =
      target (branch.successor ((toUnsigned 8 content).setWidth 64)) := by
  have hbyte : ((toUnsigned 8 content).setWidth 64).toNat = (toUnsigned 8 content).toNat := by
    rw [BitVec.toNat_setWidth]
    exact Nat.mod_eq_of_lt (Nat.lt_of_lt_of_le (toUnsigned 8 content).isLt (by norm_num))
  have hascend : ∀ i j, i < j → j < branch.casesToSuccessors.length →
      linkedWord bytecode (pc + 3 + 2 * i) < linkedWord bytecode (pc + 3 + 2 * j) :=
    fun i j hij hj => h.word_lt hij hj
  unfold interpretSwitchWithType
  dsimp only
  rw [h.cases]
  by_cases hcase : ∃ it ∈ branch.casesToSuccessors,
      it.1 = (toUnsigned 8 content).setWidth 64
  · obtain ⟨it, hit, hword⟩ := hcase
    obtain ⟨k, hk⟩ := List.getElem?_of_mem hit
    have hlt : k < branch.casesToSuccessors.length := (List.getElem?_eq_some_iff.mp hk).1
    have hvalue : linkedWord bytecode (pc + 3 + 2 * k) = (toUnsigned 8 content).toNat := by
      rw [h.word k it hk, hword, hbyte]
    have hfound := lowerBound_of_key hascend hlt hvalue
    have hsuccessor : branch.successor ((toUnsigned 8 content).setWidth 64) = it.2 :=
      branch.successor_of_mem (by
        rw [← hword]
        exact branch.perm_casesToSuccessors.mem_iff.mp hit)
    rw [hfound, if_neg (by simp [Nat.ne_of_lt hlt, hvalue]), hsuccessor]
    exact h.target k it hk
  · have hmiss : ∀ k < branch.casesToSuccessors.length,
        linkedWord bytecode (pc + 3 + 2 * k) ≠ (toUnsigned 8 content).toNat := by
      intro k hk hvalue
      refine hcase ⟨_, List.getElem_mem hk, ?_⟩
      rw [h.word k _ (List.getElem?_eq_getElem hk), ← hbyte] at hvalue
      exact BitVec.eq_of_toNat_eq hvalue
    have hsuccessor : branch.successor ((toUnsigned 8 content).setWidth 64) =
        branch.defaultBlock := branch.successor_of_notMem fun p hp heq =>
      hcase ⟨p, branch.perm_casesToSuccessors.mem_iff.mpr hp, heq⟩
    obtain ⟨hend, _⟩ := lowerBound_key_spec (x := (toUnsigned 8 content).toNat) hascend
    rw [if_pos, hsuccessor]
    · exact h.default
    · rcases Nat.eq_or_lt_of_le hend with heq | hlt
      · exact Or.inl heq
      · exact Or.inr (hmiss _ hlt)

end LinkedSwitch

/-! ## The linked operation -/

/-- The two cells of the value at an index. -/
lemma getElem?_flatMap_push8bytes {β : Type} {its : List (BitVec 64 × β)} {i : ℕ}
    {it : BitVec 64 × β} (h : its[i]? = some it) :
    (its.flatMap fun it => BCHIRLinker.push8bytes it.1.toNat)[2 * i]? =
        some (it.1.toNat % 2 ^ 32) ∧
      (its.flatMap fun it => BCHIRLinker.push8bytes it.1.toNat)[2 * i + 1]? =
        some (it.1.toNat / 2 ^ 32) := by
  induction its generalizing i with
  | nil => exact absurd h (by simp)
  | cons head its ih =>
    rw [List.flatMap_cons]
    cases i with
    | zero =>
      rw [List.getElem?_cons_zero, Option.some.injEq] at h
      rw [h]
      exact ⟨rfl, rfl⟩
    | succ i => exact ih h

lemma length_flatMap_push8bytes {β : Type} (its : List (BitVec 64 × β)) :
    (its.flatMap fun it => BCHIRLinker.push8bytes it.1.toNat).length = its.length * 2 := by
  induction its with
  | nil => rfl
  | cons it its ih =>
    rw [List.flatMap_cons, List.length_append, ih, List.length_cons, Nat.add_mul, Nat.add_comm]
    rfl

namespace MultiBranch

variable {β : Type} (branch : MultiBranch β) (blockIndex : β → ByteCodeContent) (name : String)

lemma arg_count : (branch.instr blockIndex name).arg 1 = branch.casesToSuccessors.length :=
  branch.length_casesToSuccessors.symm

lemma instr_wellFormed : (branch.instr blockIndex name).WellFormed := by
  unfold Instr.WellFormed
  rw [show (branch.instr blockIndex name).op = .SWITCH from rfl, operandCount, branch.arg_count]
  unfold instr
  dsimp only
  rw [List.length_append, List.length_append, length_flatMap_push8bytes, List.length_map]
  simp

lemma arg_word {i : ℕ} {it : BitVec 64 × β} (h : branch.casesToSuccessors[i]? = some it) :
    (branch.instr blockIndex name).arg (2 + 2 * i) = it.1.toNat % 2 ^ 32 ∧
      (branch.instr blockIndex name).arg (2 + 2 * i + 1) = it.1.toNat / 2 ^ 32 := by
  have hlt : i < branch.casesToSuccessors.length := (List.getElem?_eq_some_iff.mp h).1
  obtain ⟨hlow, hhigh⟩ := getElem?_flatMap_push8bytes h
  have hwords : ∀ k, k < branch.casesToSuccessors.length * 2 →
      (branch.instr blockIndex name).arg (2 + k) =
        ((branch.casesToSuccessors.flatMap fun it =>
          BCHIRLinker.push8bytes it.1.toNat)[k]?).getD 0 := by
    intro k hk
    unfold Instr.arg instr
    dsimp only
    rw [List.getD_eq_getElem?_getD, List.append_assoc, List.getElem?_append_right (by simp),
      List.getElem?_append_left (by rw [length_flatMap_push8bytes]; simpa using hk)]
    simp
  rw [hwords (2 * i) (by omega), Nat.add_assoc, hwords (2 * i + 1) (by omega), hlow, hhigh]
  exact ⟨rfl, rfl⟩

lemma arg_target {k : ℕ} {bb : β}
    (h : (branch.defaultBlock :: branch.casesToSuccessors.map Prod.snd)[k]? = some bb) :
    (branch.instr blockIndex name).arg (2 + branch.casesToSuccessors.length * 2 + k) =
      blockIndex bb := by
  unfold Instr.arg instr
  dsimp only
  rw [List.getD_eq_getElem?_getD, List.getElem?_append_right (by
    rw [List.length_append, length_flatMap_push8bytes]
    simp), List.length_append, length_flatMap_push8bytes, List.getElem?_map]
  have hindex : 2 + branch.casesToSuccessors.length * 2 + k -
      ([branch.selectorType.tyKind.toCell, branch.caseVals.length].length +
        branch.casesToSuccessors.length * 2) = k := Nat.add_sub_cancel_left _ k
  rw [hindex, h]
  rfl

/-- An instruction that is relocated is the linked operation. -/
theorem linkedSwitch_of_relocated {bytecode : List ByteCodeContent} {offset start : ℕ}
    (h : BCHIRLinker.InstrRelocated bytecode offset start (branch.instr blockIndex name)) :
    LinkedSwitch bytecode (offset + start) branch fun bb => blockIndex bb + offset := by
  have hlength : (branch.instr blockIndex name).operands.length =
      2 + branch.casesToSuccessors.length * 2 + (branch.casesToSuccessors.length + 1) := by
    rw [branch.instr_wellFormed blockIndex name, ← branch.arg_count blockIndex name]
    rfl
  have hnumber : ∀ k, k < 2 + branch.casesToSuccessors.length * 2 →
      linkedCell bytecode (offset + start + 1 + k) = (branch.instr blockIndex name).arg k := by
    intro k hk
    have hplain : ¬ isTarget .SWITCH (branch.instr blockIndex name).arg k := by
      unfold isTarget
      rw [branch.arg_count]
      exact fun htarget => absurd htarget.1 (Nat.not_le.mpr hk)
    rw [linkedCell, List.getD_eq_getElem?_getD, h.number k (by omega) hplain id]
    rfl
  have htarget : ∀ k bb,
      (branch.defaultBlock :: branch.casesToSuccessors.map Prod.snd)[k]? = some bb →
      linkedCell bytecode
        (offset + start + 1 + (2 + branch.casesToSuccessors.length * 2 + k)) =
          blockIndex bb + offset := by
    intro k bb hbb
    have hk : k < branch.casesToSuccessors.length + 1 := by
      simpa using (List.getElem?_eq_some_iff.mp hbb).1
    have htarget : isTarget .SWITCH (branch.instr blockIndex name).arg
        (2 + branch.casesToSuccessors.length * 2 + k) := by
      unfold isTarget
      rw [branch.arg_count]
      exact ⟨Nat.le_add_right _ _, Nat.add_lt_add_left hk _⟩
    rw [linkedCell, List.getD_eq_getElem?_getD, h.target _ (by omega) htarget,
      branch.arg_target blockIndex name hbb]
    rfl
  refine ⟨?_, ?_, ?_, ?_, ?_⟩
  · exact hnumber 0 (by omega)
  · rw [← branch.arg_count blockIndex name]
    exact hnumber 1 (by omega)
  · intro i it hit
    have hi : i < branch.casesToSuccessors.length := (List.getElem?_eq_some_iff.mp hit).1
    obtain ⟨hlow, hhigh⟩ := branch.arg_word blockIndex name hit
    have hfirst := hnumber (2 + 2 * i) (by omega)
    have hsecond := hnumber (2 + 2 * i + 1) (by omega)
    rw [hlow] at hfirst
    rw [hhigh] at hsecond
    rw [linkedWord, show offset + start + 3 + 2 * i = offset + start + 1 + (2 + 2 * i) by omega,
      hfirst, Nat.add_assoc, hsecond, Nat.mul_comm]
    exact Nat.mod_add_div _ _
  · have hdefault := htarget 0 branch.defaultBlock rfl
    rw [← hdefault]
    congr 1
    omega
  · intro i it hit
    have hcase := htarget (i + 1) it.2 (by
      rw [List.getElem?_cons_succ, List.getElem?_map, hit]
      rfl)
    rw [← hcase]
    congr 1
    omega

end MultiBranch

/-! ## Dispatch in a linked package -/

namespace BCHIRLinker

/-- The lowest byte of the content, read as a number without sign, is the content, or leads to the
same index as the content. -/
def LowestByteDecides {β : Type} (branch : MultiBranch β) (blockIndex : β → ByteCodeContent)
    (content : ℤ) : Prop :=
  (0 ≤ content ∧ content < 256) ∨
    blockIndex (branch.successor (toUnsigned 64 (content % 256))) =
      blockIndex (branch.successor (toUnsigned 64 content))

lemma setWidth_toUnsigned_byte (content : ℤ) :
    (toUnsigned 8 content).setWidth 64 = toUnsigned 64 (content % 256) := by
  refine BitVec.eq_of_toNat_eq ?_
  unfold toUnsigned
  rw [BitVec.toNat_setWidth, BitVec.toNat_ofInt, BitVec.toNat_ofInt]
  omega

lemma lowestByteDecides_iff {β : Type} (branch : MultiBranch β) (blockIndex : β → ByteCodeContent)
    (content : ℤ) :
    LowestByteDecides branch blockIndex content ↔
      blockIndex (branch.successor ((toUnsigned 8 content).setWidth 64)) =
        blockIndex (branch.successor (toUnsigned 64 content)) := by
  rw [setWidth_toUnsigned_byte]
  refine ⟨?_, Or.inr⟩
  rintro (⟨hlo, hhi⟩ | heq)
  · rw [Int.emod_eq_of_lt hlo hhi]
  · exact heq

section Dispatch

variable (forConstEval : Bool) {packages earlier later : List Bchir} {p : Bchir}
  {fs rest : List (String × Definition)} {f : String × Definition} {instrs : List Instr}
  (hpackages : packages = earlier ++ p :: later)
  (hfunctions : p.functions = fs ++ f :: rest) (hwords : ∀ q ∈ packages, HasWords q)

include hpackages hfunctions hwords

/-- In the linked image a translated branch goes on where the lowest byte of the selector leads to.
-/
lemma interpretSwitch_eq {β : Type} [DecidableEq β] (hconsists : f.2.Consists instrs)
    {start : ℕ} {i : Instr} (hi : (start, i) ∈ (startsFrom 0 instrs).zip instrs)
    {branch : MultiBranch β} {blockIndex : β → ByteCodeContent}
    (htranslated : i.encode =
      ((Context.resolved blockIndex).translateMultiBranch branch).bytecode)
    {arg : IVal} {content : ℤ} (harg : argsPop branch.selectorType.tyKind arg = some content) :
    interpretSwitch (run forConstEval packages).topDef
        (((beforeFunction forConstEval packages earlier p fs).beforeBody f).nextIndex + start)
        arg =
      some (blockIndex (branch.successor ((toUnsigned 8 content).setWidth 64)) +
        ((beforeFunction forConstEval packages earlier p fs).beforeBody f).nextIndex) := by
  obtain ⟨op, operands, mangledName⟩ := i
  rw [Context.translateMultiBranch_resolved branch blockIndex mangledName] at htranslated
  obtain ⟨hop, hoperands⟩ := List.cons.inj htranslated
  have hop : op = .SWITCH := by
    rw [← OpCode.ofNat_toCell op, ← OpCode.ofNat_toCell .SWITCH]
    exact congrArg OpCode.ofNat hop
  have hinstr : (⟨op, operands, mangledName⟩ : Instr) = branch.instr blockIndex mangledName := by
    rw [hop, show operands = _ from hoperands]
    rfl
  rw [hinstr] at hi
  have hrelocated := instrRelocated forConstEval hpackages hfunctions hwords hconsists hi
    (by simp [MultiBranch.instr, notRelocated])
  have hlinked := branch.linkedSwitch_of_relocated blockIndex mangledName hrelocated
  unfold interpretSwitch
  rw [hlinked.kind, SwitchKind.ofCell_toCell, Option.bind_eq_bind, Option.bind_some, harg,
    Option.bind_eq_bind, Option.bind_some, hlinked.interpretSwitchWithType_eq]
  rfl

/-- In the linked image a translated branch goes on at the block of the selector's case, or at the
default block if there is none, exactly when the lowest byte decides. -/
theorem interpretSwitch_eq_iff {β : Type} [DecidableEq β] (hconsists : f.2.Consists instrs)
    {start : ℕ} {i : Instr} (hi : (start, i) ∈ (startsFrom 0 instrs).zip instrs)
    {branch : MultiBranch β} {blockIndex : β → ByteCodeContent}
    (htranslated : i.encode =
      ((Context.resolved blockIndex).translateMultiBranch branch).bytecode)
    {arg : IVal} {content : ℤ} (harg : argsPop branch.selectorType.tyKind arg = some content) :
    interpretSwitch (run forConstEval packages).topDef
        (((beforeFunction forConstEval packages earlier p fs).beforeBody f).nextIndex + start)
        arg =
      some (blockIndex (branch.successor (toUnsigned 64 content)) +
        ((beforeFunction forConstEval packages earlier p fs).beforeBody f).nextIndex) ↔
    LowestByteDecides branch blockIndex content := by
  rw [interpretSwitch_eq forConstEval hpackages hfunctions hwords hconsists hi htranslated harg,
    Option.some.injEq, Nat.add_right_cancel_iff, lowestByteDecides_iff]

end Dispatch

/-! ## A branch with one case -/

/-- A branch over an `Int64` with the case `1`, whose blocks are told apart by a flag. -/
def oneCase : MultiBranch Bool where
  selectorType := .integer .TYPE_INT64
  caseVals := [1]
  defaultBlock := false
  normalBlocks := [true]
  length_eq := rfl
  nodup := List.nodup_singleton 1

/-- The block of the case is the branch itself, the default block comes after it. -/
def oneCaseIndex (block : Bool) : ByteCodeContent := if block then 0 else 7

/-- The branch, and a jump back to it. -/
def oneCaseInstrs : List Instr :=
  [oneCase.instr oneCaseIndex "", { op := .JUMP, operands := [0], mangledName := "" }]

/-- The function that consists of these. -/
def switching : String × Definition :=
  ("f", { numLVars := 0
          bytecode := oneCaseInstrs.flatMap Instr.encode
          mangledNamesAnnotations := fun _ => none })

lemma oneCase_operands : (oneCase.instr oneCaseIndex "").operands = [4, 1, 1, 0, 7, 0] := by
  simp [MultiBranch.instr, MultiBranch.casesToSuccessors, MultiBranch.cases, oneCase, oneCaseIndex,
    push8bytes, SelectorType.tyKind, SwitchKind.toCell, TypeKind.ctorIdx]

lemma startsFrom_oneCaseInstrs : startsFrom 0 oneCaseInstrs = [0, 7] := by
  simp [oneCaseInstrs, startsFrom, Instr.encode, oneCase_operands]

lemma switching_consists : switching.2.Consists oneCaseInstrs where
  bytecode_eq := rfl
  wellFormed := fun i hi => by
    rcases List.mem_cons.mp hi with rfl | hi
    · exact oneCase.instr_wellFormed oneCaseIndex ""
    · obtain rfl := List.mem_singleton.mp hi
      rfl
  mangledName := fun q hq => by
    rcases List.mem_cons.mp (List.of_mem_zip hq).2 with heq | hmem
    · rw [heq]
      rfl
    · rw [List.mem_singleton.mp hmem]
      rfl
  target := fun i hi k hk => by
    rw [startsFrom_oneCaseInstrs]
    rcases List.mem_cons.mp hi with rfl | hi
    · unfold isTarget at hk
      rw [show (oneCase.instr oneCaseIndex "").op = .SWITCH from rfl] at hk
      dsimp only at hk
      unfold Instr.arg at hk ⊢
      rw [oneCase_operands] at hk ⊢
      have hlo : 2 + 1 * 2 ≤ k := hk.1
      have hhi : k < 2 + 1 * 2 + (1 + 1) := hk.2
      have hcases : k = 4 ∨ k = 5 := by omega
      rcases hcases with rfl | rfl <;> decide
    · obtain rfl := List.mem_singleton.mp hi
      obtain rfl : k = 0 := hk
      exact List.mem_cons_self

lemma switching_hasWords : ∀ q ∈ [packageOf switching], HasWords q := by
  intro q hq f hf c hc
  obtain rfl := List.mem_singleton.mp hq
  obtain rfl := List.mem_singleton.mp hf
  have hcells : switching.2.bytecode =
      [OpCode.SWITCH.toCell, 4, 1, 1, 0, 7, 0, OpCode.JUMP.toCell, 0] := by
    unfold switching oneCaseInstrs
    dsimp only
    rw [List.flatMap_cons, List.flatMap_cons, Instr.encode, oneCase_operands]
    rfl
  rw [hcells] at hc
  have hsmall : ∀ c ∈ [OpCode.SWITCH.toCell, 4, 1, 1, 0, 7, 0, OpCode.JUMP.toCell, 0],
      c < 2 ^ 32 := by decide
  exact hsmall c hc

lemma switching_mem : (0, oneCase.instr oneCaseIndex "") ∈
    (startsFrom 0 oneCaseInstrs).zip oneCaseInstrs := List.mem_cons_self

/-- The selector `1` goes on at its case. -/
theorem interpretSwitch_eq_iff_oneCase :
    interpretSwitch (run true [packageOf switching]).topDef
        (((beforeFunction true [packageOf switching] [] (packageOf switching) []).beforeBody
          switching).nextIndex + 0) (.IInt .TYPE_INT64 1) =
      some (oneCaseIndex (oneCase.successor (toUnsigned 64 1)) +
        ((beforeFunction true [packageOf switching] [] (packageOf switching) []).beforeBody
          switching).nextIndex) :=
  have hpackages : [packageOf switching] = [] ++ packageOf switching :: [] := rfl
  have hfunctions : (packageOf switching).functions = [] ++ switching :: [] := rfl
  have harg : argsPop oneCase.selectorType.tyKind (.IInt .TYPE_INT64 1) = some 1 := rfl
  (interpretSwitch_eq_iff true hpackages hfunctions switching_hasWords switching_consists
    switching_mem (Context.translateMultiBranch_resolved oneCase oneCaseIndex "").symm
    harg).mpr (Or.inl ⟨by decide, by decide⟩)

/-- Not every selector goes on at its case or at the default block: `257` goes on at the case `1`.
-/
theorem exists_wrong_dispatch :
    ¬ ∀ (forConstEval : Bool) (packages earlier later : List Bchir) (p : Bchir)
      (fs rest : List (String × Definition)) (f : String × Definition) (instrs : List Instr)
      (start : ℕ) (i : Instr) (branch : MultiBranch Bool) (blockIndex : Bool → ByteCodeContent)
      (arg : IVal) (content : ℤ),
      packages = earlier ++ p :: later → p.functions = fs ++ f :: rest →
      (∀ q ∈ packages, HasWords q) → f.2.Consists instrs →
      (start, i) ∈ (startsFrom 0 instrs).zip instrs →
      i.encode = ((Context.resolved blockIndex).translateMultiBranch branch).bytecode →
      argsPop branch.selectorType.tyKind arg = some content →
      interpretSwitch (run forConstEval packages).topDef
          (((beforeFunction forConstEval packages earlier p fs).beforeBody f).nextIndex + start)
          arg =
        some (blockIndex (branch.successor (toUnsigned 64 content)) +
          ((beforeFunction forConstEval packages earlier p fs).beforeBody f).nextIndex) := by
  intro h
  have hclaim := h true [packageOf switching] [] [] (packageOf switching) [] [] switching
    oneCaseInstrs 0 _ oneCase oneCaseIndex (.IInt .TYPE_INT64 257) 257 rfl rfl switching_hasWords
    switching_consists switching_mem
    (Context.translateMultiBranch_resolved oneCase oneCaseIndex "").symm rfl
  have hpackages : [packageOf switching] = [] ++ packageOf switching :: [] := rfl
  have hfunctions : (packageOf switching).functions = [] ++ switching :: [] := rfl
  have harg : argsPop oneCase.selectorType.tyKind (.IInt .TYPE_INT64 257) = some 257 := rfl
  rw [interpretSwitch_eq true hpackages hfunctions switching_hasWords switching_consists
    switching_mem (Context.translateMultiBranch_resolved oneCase oneCaseIndex "").symm harg,
    Option.some.injEq, Nat.add_right_cancel_iff] at hclaim
  exact absurd hclaim (by decide)

end BCHIRLinker

end Cangjie.CHIR.Interpreter
