import CangjieCompiler.CHIR.Interpreter.InterpreterValue
import CangjieCompiler.CHIR.Interpreter.JumpRelocation

/-!
# Translating branches over values

A terminator that branches over the values of its selector is translated to one operation, with the
sorted values and the index of the block that each leads to.  The index of a block that is not
translated yet is patched in when it is, so the cells are those of an image with forward references.
-/

namespace Cangjie.CHIR.Interpreter

open SymbolicImage

/-- The types that a selector can have. -/
inductive SelectorType where
  | integer (kind : TypeKind)
  | rune
  | boolean
  | enum
  deriving DecidableEq, Repr

/-- The type kind that the operation is given.  An enum is read as `UInt64`. -/
inductive SwitchKind where
  | integer (kind : TypeKind)
  | TYPE_RUNE
  | TYPE_BOOLEAN
  deriving DecidableEq, Repr

def SelectorType.tyKind : SelectorType → SwitchKind
  | integer kind => .integer kind
  | rune => .TYPE_RUNE
  | boolean => .TYPE_BOOLEAN
  | enum => .integer .TYPE_UINT64

/-- The number of a type kind. -/
def SwitchKind.toCell : SwitchKind → ByteCodeContent
  | integer kind => kind.ctorIdx + 1
  | TYPE_RUNE => 14
  | TYPE_BOOLEAN => 15

/-- The type kind of a number. -/
def SwitchKind.ofCell (cell : ByteCodeContent) : Option SwitchKind :=
  if cell = 0 then none
  else if cell ≤ 10 then some (.integer (TypeKind.ofNat (cell - 1)))
  else if cell = 14 then some .TYPE_RUNE
  else if cell = 15 then some .TYPE_BOOLEAN
  else none

lemma SwitchKind.ofCell_toCell (kind : SwitchKind) : SwitchKind.ofCell kind.toCell = some kind := by
  cases kind with
  | integer kind => cases kind <;> rfl
  | TYPE_RUNE => rfl
  | TYPE_BOOLEAN => rfl

/-- A branch over the values of a selector: every value has a block, and no value occurs twice. -/
structure MultiBranch (β : Type) where
  selectorType : SelectorType
  caseVals : List (BitVec 64)
  defaultBlock : β
  normalBlocks : List β
  length_eq : normalBlocks.length = caseVals.length
  nodup : caseVals.Nodup

namespace MultiBranch

variable {β : Type} (branch : MultiBranch β)

/-- The values with their blocks. -/
def cases : List (BitVec 64 × β) := branch.caseVals.zip branch.normalBlocks

/-- The values with their blocks, sorted by the values. -/
def casesToSuccessors : List (BitVec 64 × β) :=
  branch.cases.mergeSort fun left right => decide (left.1 ≤ right.1)

/-- The block that a word leads to: the one of its case, or the default one. -/
def successor (word : BitVec 64) : β := (branch.cases.lookup word).getD branch.defaultBlock

/-! ## The sorted values -/

lemma map_fst_cases : branch.cases.map Prod.fst = branch.caseVals :=
  List.map_fst_zip (Nat.le_of_eq branch.length_eq.symm)

lemma perm_casesToSuccessors : branch.casesToSuccessors.Perm branch.cases :=
  List.mergeSort_perm _ _

lemma length_casesToSuccessors : branch.casesToSuccessors.length = branch.caseVals.length := by
  rw [branch.perm_casesToSuccessors.length_eq, ← List.length_map, branch.map_fst_cases]

/-- The sorted values ascend. -/
lemma pairwise_casesToSuccessors :
    branch.casesToSuccessors.Pairwise fun left right => left.1 < right.1 := by
  have htrans : ∀ a b c : BitVec 64 × β, decide (a.1 ≤ b.1) = true → decide (b.1 ≤ c.1) = true →
      decide (a.1 ≤ c.1) = true := fun a b c hab hbc =>
    decide_eq_true (BitVec.le_trans (of_decide_eq_true hab) (of_decide_eq_true hbc))
  have htotal : ∀ a b : BitVec 64 × β, (decide (a.1 ≤ b.1) || decide (b.1 ≤ a.1)) = true := by
    intro a b
    rw [Bool.or_eq_true, decide_eq_true_eq, decide_eq_true_eq]
    exact BitVec.le_total a.1 b.1
  have hle := List.pairwise_mergeSort htrans htotal branch.cases
  have hnodup : (branch.casesToSuccessors.map Prod.fst).Nodup := by
    rw [(branch.perm_casesToSuccessors.map Prod.fst).nodup_iff, branch.map_fst_cases]
    exact branch.nodup
  have hne : branch.casesToSuccessors.Pairwise fun left right => left.1 ≠ right.1 :=
    List.pairwise_map.mp hnodup
  exact (List.Pairwise.and hle hne).imp fun h => BitVec.lt_of_le_ne (of_decide_eq_true h.1) h.2

lemma successor_of_mem {word : BitVec 64} {block : β} (h : (word, block) ∈ branch.cases) :
    branch.successor word = block := by
  obtain ⟨front, back, hsplit⟩ := List.append_of_mem h
  have hnodup : (branch.cases.map Prod.fst).Nodup := by
    rw [branch.map_fst_cases]
    exact branch.nodup
  have hlookup : branch.cases.lookup word = some block := by
    refine List.lookup_eq_some_iff.mpr ⟨front, back, hsplit, fun p hp => ?_⟩
    rw [hsplit, List.map_append, List.map_cons] at hnodup
    have hne : p.1 ≠ word := fun heq =>
      (List.nodup_append.mp hnodup).2.2 p.1 (List.mem_map_of_mem hp) word
        List.mem_cons_self heq
    exact bne_iff_ne.mpr hne.symm
  rw [successor, hlookup, Option.getD_some]

lemma successor_of_notMem {word : BitVec 64} (h : ∀ p ∈ branch.cases, p.1 ≠ word) :
    branch.successor word = branch.defaultBlock := by
  have hlookup : branch.cases.lookup word = none :=
    List.lookup_eq_none_iff.mpr fun p hp => bne_iff_ne.mpr (h p hp).symm
  rw [successor, hlookup, Option.getD_none]

end MultiBranch

/-! ## The translation -/

/-- The state of translating a function: its bytecode, the indices of the blocks translated so far,
and the cells that wait for the index of a block. -/
structure Context (β : Type) where
  bytecode : List ByteCodeContent
  bb2Index : β → Option ByteCodeContent
  bb2IndexPlaceHolder : β → Option (List ByteCodeContent)

namespace Context

variable {β : Type} [DecidableEq β]

def nextIndex (ctx : Context β) : ByteCodeContent := ctx.bytecode.length

def push (ctx : Context β) (cells : List ByteCodeContent) : Context β :=
  { ctx with bytecode := ctx.bytecode ++ cells }

/-- The index of a block.  If there is none yet, the cell at `indexPlaceHolder` waits for it. -/
def blockIndex (ctx : Context β) (bb : β) (indexPlaceHolder : ByteCodeContent) :
    ByteCodeContent × Context β :=
  match ctx.bb2Index bb with
  | some idx => (idx, ctx)
  | none =>
    match ctx.bb2IndexPlaceHolder bb with
    | none =>
      (0, { ctx with bb2IndexPlaceHolder :=
        Function.update ctx.bb2IndexPlaceHolder bb (some [indexPlaceHolder]) })
    | some vec =>
      (0, { ctx with bb2IndexPlaceHolder :=
        Function.update ctx.bb2IndexPlaceHolder bb (some (vec ++ [indexPlaceHolder])) })

/-- Appending the index of a block. -/
def pushBlockIndex (ctx : Context β) (bb : β) : Context β :=
  let (idx, ctx) := ctx.blockIndex bb ctx.nextIndex
  ctx.push [idx]

/-- Setting the index of a block, and patching the cells that wait for it. -/
def resolveBB2IndexPlaceHolder (ctx : Context β) (bb : β) (idx : ByteCodeContent) : Context β :=
  let ctx := { ctx with bb2Index := emplace ctx.bb2Index bb idx }
  let ctx := match ctx.bb2IndexPlaceHolder bb with
    | none => ctx
    | some vec => { ctx with bytecode := patch ctx.bytecode vec idx }
  { ctx with bb2IndexPlaceHolder := Function.update ctx.bb2IndexPlaceHolder bb none }

/-- Translating a branch over values. -/
def translateMultiBranch (ctx : Context β) (branch : MultiBranch β) : Context β :=
  let ctx := ctx.push [OpCode.SWITCH.toCell, branch.selectorType.tyKind.toCell,
    branch.caseVals.length]
  let ctx := branch.casesToSuccessors.foldl
    (fun ctx it => ctx.push (BCHIRLinker.push8bytes it.1.toNat)) ctx
  let ctx := ctx.pushBlockIndex branch.defaultBlock
  branch.casesToSuccessors.foldl (fun ctx it => ctx.pushBlockIndex it.2) ctx

/-! ## The indices of blocks -/

lemma pushBlockIndex_bb2Index (ctx : Context β) (bb : β) :
    (ctx.pushBlockIndex bb).bb2Index = ctx.bb2Index := by
  unfold pushBlockIndex blockIndex
  cases ctx.bb2Index bb with
  | some idx => rfl
  | none => cases ctx.bb2IndexPlaceHolder bb <;> rfl

/-- Translating a branch gives no block an index. -/
lemma translateMultiBranch_bb2Index (ctx : Context β) (branch : MultiBranch β) :
    (ctx.translateMultiBranch branch).bb2Index = ctx.bb2Index := by
  have hwords : ∀ (its : List (BitVec 64 × β)) (ctx : Context β),
      (its.foldl (fun ctx it => ctx.push (BCHIRLinker.push8bytes it.1.toNat)) ctx).bb2Index =
        ctx.bb2Index := by
    intro its
    induction its with
    | nil => exact fun ctx => rfl
    | cons it its ih => exact fun ctx => ih _
  have hblocks : ∀ (its : List (BitVec 64 × β)) (ctx : Context β),
      (its.foldl (fun ctx it => ctx.pushBlockIndex it.2) ctx).bb2Index = ctx.bb2Index := by
    intro its
    induction its with
    | nil => exact fun ctx => rfl
    | cons it its ih => exact fun ctx => (ih _).trans (ctx.pushBlockIndex_bb2Index it.2)
  unfold translateMultiBranch
  dsimp only
  rw [hblocks, pushBlockIndex_bb2Index, hwords]
  rfl

/-! ## What the bytecode means -/

/-- The bytecode stands for an image whose references to blocks are resolved as far as they are
known. -/
def Means (ctx : Context β) (cells : List (Cell β)) : Prop :=
  Represents ctx.bytecode cells ctx.bb2Index ctx.bb2IndexPlaceHolder 0

lemma Means.push {ctx : Context β} {cells : List (Cell β)} (h : ctx.Means cells)
    (words : List ByteCodeContent) : (ctx.push words).Means (cells ++ words.map .word) :=
  Represents.push h words

lemma Means.pushBlockIndex {ctx : Context β} {cells : List (Cell β)} (h : ctx.Means cells)
    (bb : β) : (ctx.pushBlockIndex bb).Means (cells ++ [.ref bb]) := by
  unfold Context.pushBlockIndex blockIndex
  cases hindex : ctx.bb2Index bb with
  | some idx => exact Represents.push_defined h hindex
  | none =>
    have hpush := Represents.push_undefined h hindex
    cases hwaiting : ctx.bb2IndexPlaceHolder bb with
    | none =>
      rw [hwaiting] at hpush
      exact hpush
    | some vec =>
      rw [hwaiting] at hpush
      exact hpush

/-- A block that is translated gets its index in all cells that wait for it. -/
theorem Means.resolve {ctx : Context β} {cells : List (Cell β)} (h : ctx.Means cells) {bb : β}
    (hundef : ctx.bb2Index bb = none) (idx : ByteCodeContent) :
    (ctx.resolveBB2IndexPlaceHolder bb idx).Means cells := by
  have hdefine := Represents.define h hundef idx
  have hemplace : emplace ctx.bb2Index bb idx = Function.update ctx.bb2Index bb (some idx) := by
    unfold emplace
    rw [hundef, Option.isSome_none, if_neg Bool.false_ne_true]
  unfold resolveBB2IndexPlaceHolder
  dsimp only
  rw [hemplace]
  cases hwaiting : ctx.bb2IndexPlaceHolder bb with
  | none =>
    rw [hwaiting] at hdefine
    exact hdefine
  | some vec =>
    rw [hwaiting] at hdefine
    exact hdefine

lemma Means.push8bytes {ctx : Context β} {cells : List (Cell β)} (h : ctx.Means cells)
    (its : List (BitVec 64 × β)) :
    (its.foldl (fun ctx it => ctx.push (BCHIRLinker.push8bytes it.1.toNat)) ctx).Means
      (cells ++ (its.flatMap fun it => BCHIRLinker.push8bytes it.1.toNat).map .word) := by
  induction its generalizing ctx cells with
  | nil =>
    rw [List.flatMap_nil, List.map_nil, List.append_nil]
    exact h
  | cons it its ih =>
    rw [List.foldl_cons, List.flatMap_cons, List.map_append, ← List.append_assoc]
    exact ih (h.push _)

lemma Means.pushBlockIndices {ctx : Context β} {cells : List (Cell β)} (h : ctx.Means cells)
    (its : List (BitVec 64 × β)) :
    (its.foldl (fun ctx it => ctx.pushBlockIndex it.2) ctx).Means
      (cells ++ its.map fun it => .ref it.2) := by
  induction its generalizing ctx cells with
  | nil =>
    rw [List.map_nil, List.append_nil]
    exact h
  | cons it its ih =>
    rw [List.foldl_cons, List.map_cons, List.append_cons]
    exact ih (h.pushBlockIndex it.2)

end Context

/-- The cells of a branch over values: the operation, the type kind, the number of values, the
sorted values, and the references to the default block and to the blocks of the values. -/
def MultiBranch.cells {β : Type} (branch : MultiBranch β) : List (Cell β) :=
  [.word OpCode.SWITCH.toCell, .word branch.selectorType.tyKind.toCell,
    .word branch.caseVals.length] ++
  (branch.casesToSuccessors.flatMap fun it => BCHIRLinker.push8bytes it.1.toNat).map .word ++
  [.ref branch.defaultBlock] ++ branch.casesToSuccessors.map fun it => .ref it.2

/-- Translating a branch appends its cells. -/
theorem Context.translateMultiBranch_means {β : Type} [DecidableEq β] {ctx : Context β}
    {cells : List (Cell β)} (h : ctx.Means cells) (branch : MultiBranch β) :
    (ctx.translateMultiBranch branch).Means (cells ++ branch.cells) := by
  have hcells := (((h.push [OpCode.SWITCH.toCell, branch.selectorType.tyKind.toCell,
    branch.caseVals.length]).push8bytes branch.casesToSuccessors).pushBlockIndex
    branch.defaultBlock).pushBlockIndices branch.casesToSuccessors
  unfold MultiBranch.cells
  rw [List.append_assoc, List.append_assoc, List.append_assoc] at hcells
  rw [List.append_assoc, List.append_assoc]
  exact hcells

end Cangjie.CHIR.Interpreter
