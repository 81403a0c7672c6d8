import CangjieCompiler.CHIR.IR.Execution
import CangjieCompiler.CHIR.Optimization.MergeBlocks

/-!
# What the rules make of the code

Each rule as a change of the code of the blocks.  Blocks and their predecessors stay in step.
-/

namespace Cangjie.CHIR.MergeBlocks

open IR IR.BlockGroup

variable {ε X : Type}

variable {g : BlockGroup ε X} {b pred target : BlockId} {c cp : Code ε X}

/-! ## Merging into the predecessor -/

/-- The code of a block at the end of its predecessor. -/
def Code.followedBy (c : Code ε X) (cp : Code ε X) : Code ε X :=
  { cp with exprs := cp.exprs ++ c.exprs, control := c.control }

def mergedCodes (codes : Codes ε X) (b pred : BlockId) (c : Code ε X) : Codes ε X :=
  (codes.modify pred (Code.followedBy c)).erase b

/-- A block that only its predecessor goes to, which only goes to the block. -/
structure SingleEntry (codes : Codes ε X) (b pred : BlockId) (c cp : Code ε X) : Prop where
  blockCode : codes.find? b = some c
  predCode : codes.find? pred = some cp
  goTo : cp.control = some (Control.GOTO b)
  only : ∀ x, EdgeIn codes x b → x = pred

lemma exists_block (h : g.codes.find? b = some c) :
    ∃ block, g.blocks.find? b = some block ∧ block.code = c := by
  rw [find?_codes] at h
  exact Option.map_eq_some_iff.mp h

/-- The last step of the rule concerns what is not executed. -/
lemma codes_setSkipCheck (g : BlockGroup ε X) (pred : BlockId) (skip : SkipKind) :
    (if skip ≠ .NO_SKIP then
      g.modifyBlock pred fun predBlock => { predBlock with skipCheck := skip } else g).codes =
      g.codes := by
  split_ifs
  · exact codes_modifyBlock_of fun _ => rfl
  · rfl

lemma linked_setSkipCheck (h : g.Linked) (skip : SkipKind) :
    (if skip ≠ .NO_SKIP then
      g.modifyBlock pred fun predBlock => { predBlock with skipCheck := skip } else g).Linked := by
  split_ifs
  · refine linked_modifyBlock h (fun _ => rfl) ?_
    exact fun _ => rfl
  · exact h

/-- The terminator and the expressions of a block moved to its predecessor. -/
def moveInto (g : BlockGroup ε X) (b pred : BlockId) (exprs : List X) (t : Terminator ε) :
    BlockGroup ε X :=
  (((g.removeTerminator pred).appendExpressions pred exprs).removeTerminator b).appendTerminator
    pred t

lemma codes_moveInto (hne : b ≠ pred) (exprs : List X) (t : Terminator ε) :
    (moveInto g b pred exprs t).codes =
      (g.codes.modify pred (Code.followedBy ⟨exprs, some t.control, false⟩)).modify b
        (Code.withControl none) := by
  refine OrderedMap.ext_find? fun y => ?_
  rw [moveInto, codes_appendTerminator, codes_removeTerminator, codes_appendExpressions,
    codes_removeTerminator]
  simp only [OrderedMap.find?_modify]
  by_cases hy : y = pred
  · have hyb : y ≠ b := fun h => hne (h.symm.trans hy)
    rw [if_pos hy, if_neg hyb, if_pos hy, if_pos hy, if_neg hyb, if_pos hy, Option.map_map,
      Option.map_map]
    rfl
  · rw [if_neg hy, if_neg hy, if_neg hy, if_neg hy]

lemma linked_moveInto (h : g.Linked) (hcode : SingleEntry g.codes b pred c cp) (hne : b ≠ pred)
    {t : Terminator ε} (ht : c.control = some t.control) (exprs : List X) :
    (moveInto g b pred exprs t).Linked := by
  have hcodes : (((g.removeTerminator pred).appendExpressions pred exprs).removeTerminator b).codes =
      ((g.codes.modify pred (Code.withControl none)).modify pred (Code.append exprs)).modify b
        (Code.withControl none) := by
    rw [codes_removeTerminator, codes_appendExpressions, codes_removeTerminator]
  have hpred : (((g.codes.modify pred (Code.withControl none)).modify pred
      (Code.append exprs)).modify b (Code.withControl none)).find? pred =
        some ⟨cp.exprs ++ exprs, none, cp.generatedFromForIn⟩ := by
    rw [OrderedMap.find?_modify, if_neg hne.symm, OrderedMap.find?_modify, if_pos rfl,
      OrderedMap.find?_modify, if_pos rfl, hcode.predCode]
    rfl
  refine linked_appendTerminator
    (linked_removeTerminator (linked_appendExpressions (linked_removeTerminator h)))
    (hcodes ▸ hpred) rfl fun s hs => ?_
  rw [hcodes, ne_eq, find?_modify_eq_none_iff, find?_modify_eq_none_iff, find?_modify_eq_none_iff]
  refine h.closed ⟨c, hcode.blockCode, ?_⟩
  rwa [Code.successors, ht]

/-- The rule in the order of its steps. -/
lemma mergeIntoPredecessor_eq {block predBlock : Block ε X} {t : Terminator ε}
    (hblock : g.blocks.find? b = some block) (hpred : g.blocks.find? pred = some predBlock)
    (ht : block.terminator = some t) :
    ∃ skip : SkipKind, mergeIntoPredecessor g b pred =
      if skip ≠ .NO_SKIP then
        ((if b = pred then g.removeTerminator pred
          else moveInto g b pred block.exprs t).removeBlock b).modifyBlock pred
          fun predBlock => { predBlock with skipCheck := skip }
      else (if b = pred then g.removeTerminator pred
          else moveInto g b pred block.exprs t).removeBlock b := by
  refine ⟨andSkip (andSkip predBlock.skipCheck
    (predBlock.terminator.elim .NO_SKIP Terminator.skipCheck)) block.skipCheck, ?_⟩
  rw [mergeIntoPredecessor, hblock, hpred]
  dsimp only
  rw [ht]
  rfl

theorem codes_mergeIntoPredecessor (h : SingleEntry g.codes b pred c cp)
    (hc : c.control ≠ none) :
    (mergeIntoPredecessor g b pred).codes =
      if b = pred then g.codes.erase b else mergedCodes g.codes b pred c := by
  obtain ⟨block, hblock, rfl⟩ := exists_block h.blockCode
  obtain ⟨predBlock, hpred, rfl⟩ := exists_block h.predCode
  obtain ⟨t, ht, -⟩ := Block.exists_terminator hc
  obtain ⟨skip, heq⟩ := mergeIntoPredecessor_eq hblock hpred ht
  rw [heq, codes_setSkipCheck, codes_removeBlock]
  split_ifs with hself
  · refine OrderedMap.ext_find? fun y => ?_
    rw [codes_removeTerminator, OrderedMap.find?_erase, OrderedMap.find?_erase,
      OrderedMap.find?_modify]
    split_ifs with hy hy'
    · rfl
    · exact absurd (hy'.trans hself.symm) hy
    · rfl
  · refine OrderedMap.ext_find? fun y => ?_
    rw [codes_moveInto hself, mergedCodes, OrderedMap.find?_erase, OrderedMap.find?_erase,
      OrderedMap.find?_modify]
    split_ifs with hy
    · rfl
    · rw [OrderedMap.find?_modify, OrderedMap.find?_modify]
      split_ifs
      · rw [Block.code, ht]
        rfl
      · rfl

theorem linked_mergeIntoPredecessor (hlinked : g.Linked) (h : SingleEntry g.codes b pred c cp)
    (hc : c.control ≠ none) : (mergeIntoPredecessor g b pred).Linked := by
  have hcode := h
  obtain ⟨block, hblock, rfl⟩ := exists_block h.blockCode
  obtain ⟨predBlock, hpred, -⟩ := exists_block h.predCode
  obtain ⟨t, ht, hcontrol⟩ := Block.exists_terminator hc
  obtain ⟨skip, heq⟩ := mergeIntoPredecessor_eq hblock hpred ht
  rw [heq]
  refine linked_setSkipCheck ?_ skip
  split_ifs with hself
  · refine linked_removeBlock (linked_removeTerminator hlinked) fun x hx => ?_
    rw [codes_removeTerminator, edgeIn_withControl_none] at hx
    exact absurd (h.only x hx.1) hx.2
  · refine linked_removeBlock (linked_moveInto hlinked hcode hself hcontrol _) fun x hx => ?_
    by_contra hxb
    rw [codes_moveInto hself, edgeIn_withControl_none] at hx
    by_cases hxp : x = pred
    · -- the predecessor now goes where the block went, which is not the block
      rw [hxp, edgeIn_modify_self h.predCode] at hx
      have hself' : EdgeIn g.codes b b := ⟨_, h.blockCode, by
        rw [Code.successors, hcontrol]
        exact hx.1⟩
      exact hself (h.only b hself')
    · rw [edgeIn_modify_ne hxp] at hx
      exact hxp (h.only x hx.1)

/-! ## Going past a block -/

def redirectedCodes (codes : Codes ε X) (b target : BlockId) : Codes ε X :=
  (codes.mapValues (Code.replace b target)).erase b

lemma Code.replace_replace (hne : target ≠ b) (c : Code ε X) :
    (c.replace b target).replace b target = c.replace b target := by
  refine Code.replace_of_not_mem fun hmem => ?_
  rcases Code.mem_successors_replace.mp hmem with ⟨-, h⟩ | ⟨h, -⟩
  · exact h rfl
  · exact hne h.symm

/-- A predecessor passes a skip on, which is not executed. -/
lemma code_passSkip (skipCheck : SkipKind) (predBlock : Block ε X) :
    Block.code { predBlock with
      terminator := predBlock.terminator.map fun t =>
        if andSkip t.skipCheck skipCheck ≠ .NO_SKIP then
          { t with skipCheck := andSkip t.skipCheck skipCheck } else t } = predBlock.code := by
  rw [Block.code, Block.code, Option.map_map]
  congr 1
  refine Option.map_congr fun t _ => ?_
  dsimp only [Function.comp]
  split_ifs <;> rfl

lemma codes_redirect (block : Block ε X) (g : BlockGroup ε X) (pred : BlockId) :
    (redirect block b target g pred).codes = g.codes.modify pred (Code.replace b target) := by
  rw [redirect]
  dsimp only
  rw [codes_modifyBlock_of, codes_replaceOperand, codes_modifyBlock_of]
  · exact fun _ => rfl
  · exact code_passSkip block.skipCheck

lemma linked_redirect (h : g.Linked) (block : Block ε X) (hlive : g.codes.find? target ≠ none)
    (pred : BlockId) : (redirect block b target g pred).Linked := by
  have hfirst : (g.modifyBlock target fun t =>
      { t with debugLocation := block.debugLocation }).Linked := by
    refine linked_modifyBlock h (fun _ => rfl) ?_
    exact fun _ => rfl
  have hcodes : (g.modifyBlock target fun t =>
      { t with debugLocation := block.debugLocation }).codes = g.codes :=
    codes_modifyBlock_of fun _ => rfl
  refine linked_modifyBlock (linked_replaceOperand hfirst (hcodes ▸ hlive)) ?_ ?_
  · exact fun predBlock => congrArg Code.successors (code_passSkip block.skipCheck predBlock)
  · exact fun _ => rfl

lemma find?_redirects (hne : target ≠ b) (block : Block ε X) (preds : List BlockId)
    (g : BlockGroup ε X) (y : BlockId) :
    (preds.foldl (redirect block b target) g).codes.find? y =
      if y ∈ preds then (g.codes.find? y).map (Code.replace b target) else g.codes.find? y := by
  induction preds generalizing g with
  | nil => rw [if_neg List.not_mem_nil, List.foldl_nil]
  | cons p preds ih =>
    rw [List.foldl_cons, ih, codes_redirect, OrderedMap.find?_modify]
    by_cases hy : y = p
    · rw [if_pos hy, if_pos (List.mem_cons.mpr (Or.inl hy))]
      split_ifs
      · rw [Option.map_map]
        exact congrFun (congrArg Option.map (funext fun c => Code.replace_replace hne c)) _
      · rfl
    · rw [if_neg hy]
      simp only [List.mem_cons, hy, false_or]

lemma linked_redirects (h : g.Linked) (hlive : g.codes.find? target ≠ none) (block : Block ε X)
    (preds : List BlockId) : (preds.foldl (redirect block b target) g).Linked := by
  induction preds generalizing g with
  | nil => exact h
  | cons p preds ih =>
    refine ih (linked_redirect h block hlive p) ?_
    rw [codes_redirect, ne_eq, find?_modify_eq_none_iff]
    exact hlive

/-- A block that only goes on to another block. -/
structure GotoOnly (codes : Codes ε X) (b target : BlockId) (c : Code ε X) : Prop where
  block : codes.find? b = some c
  exprs : c.exprs = []
  goTo : c.control = some (Control.GOTO target)
  ne : target ≠ b

lemma mergeGotoOnlyBlock_eq (h : GotoOnly g.codes b target c) :
    ∃ block, g.blocks.find? b = some block ∧ mergeGotoOnlyBlock g b =
      (block.predecessors.foldl (redirect block b target) g).removeBlock b := by
  obtain ⟨block, hblock, hcode⟩ := exists_block h.block
  refine ⟨block, hblock, ?_⟩
  have hsuccs : block.getSuccessors = [target] := by
    rw [Block.getSuccessors_eq, hcode, Code.successors, h.goTo]
    rfl
  rw [mergeGotoOnlyBlock, hblock]
  dsimp only
  rw [hsuccs]

theorem codes_mergeGotoOnlyBlock (hlinked : g.Linked) (h : GotoOnly g.codes b target c) :
    (mergeGotoOnlyBlock g b).codes = redirectedCodes g.codes b target := by
  obtain ⟨block, hblock, heq⟩ := mergeGotoOnlyBlock_eq h
  refine OrderedMap.ext_find? fun y => ?_
  rw [heq, codes_removeBlock, redirectedCodes, OrderedMap.find?_erase, OrderedMap.find?_erase,
    find?_redirects h.ne, OrderedMap.find?_mapValues]
  split_ifs with hy hmem
  · rfl
  · rfl
  · -- the other blocks do not go to the block
    cases hfind : g.codes.find? y with
    | none => rfl
    | some cy =>
      refine congrArg some (Code.replace_of_not_mem fun hb => hmem ?_).symm
      exact (hlinked.mem_predecessors_iff hblock).mpr ⟨cy, hfind, hb⟩

theorem linked_mergeGotoOnlyBlock (hlinked : g.Linked) (h : GotoOnly g.codes b target c) :
    (mergeGotoOnlyBlock g b).Linked := by
  obtain ⟨block, hblock, heq⟩ := mergeGotoOnlyBlock_eq h
  have hlive : g.codes.find? target ≠ none := by
    refine hlinked.closed ⟨c, h.block, ?_⟩
    rw [Code.successors, h.goTo]
    exact List.mem_singleton_self _
  rw [heq]
  refine linked_removeBlock (linked_redirects hlinked hlive block _) fun x hx => ?_
  exfalso
  obtain ⟨cx, hcx, hb⟩ := hx
  rw [find?_redirects h.ne] at hcx
  split_ifs at hcx with hmem
  · obtain ⟨cx', -, rfl⟩ := Option.map_eq_some_iff.mp hcx
    rcases Code.mem_successors_replace.mp hb with ⟨-, hne⟩ | ⟨heq', -⟩
    · exact hne rfl
    · exact h.ne heq'.symm
  · exact hmem ((hlinked.mem_predecessors_iff hblock).mpr ⟨cx, hcx, hb⟩)

/-! ## Copies -/

def copiedCodes (codes : Codes ε X) (b pred cpBlock : BlockId) (c : Code ε X) (exprs : List X) :
    Codes ε X :=
  (codes.emplace cpBlock { c with exprs := exprs, generatedFromForIn := false }).modify pred
    (Code.replace b cpBlock)

section Copy

variable {block : Block ε X} {exprs : List X} {t : Terminator ε}

lemma codes_copyBlock (ht : block.terminator = some t) :
    (copyBlock g block exprs).1.codes = g.codes.emplace (copyBlock g block exprs).2
      { block.code with exprs := exprs, generatedFromForIn := false } ∧
      g.codes.find? (copyBlock g block exprs).2 = none := by
  have hfresh := find?_eq_none_iff.mp (createBlock_fresh g)
  rw [copyBlock, ht]
  dsimp only
  refine ⟨?_, hfresh⟩
  rw [codes_appendTerminator, codes_appendExpressions, codes_createBlock]
  refine OrderedMap.ext_find? fun y => ?_
  rw [OrderedMap.find?_modify, OrderedMap.find?_modify, OrderedMap.find?_emplace,
    OrderedMap.find?_emplace, hfresh]
  by_cases hy : y = g.createBlock.2
  · rw [if_pos hy, if_pos hy, if_pos hy.symm, if_pos hy.symm, Block.code, ht]
    rfl
  · rw [if_neg hy, if_neg hy, if_neg (Ne.symm hy), if_neg (Ne.symm hy)]

lemma linked_copyBlock (hlinked : g.Linked) (hblock : g.blocks.find? b = some block)
    (ht : block.terminator = some t) : (copyBlock g block exprs).1.Linked := by
  have hfresh := find?_eq_none_iff.mp (createBlock_fresh g)
  have hcodes : (g.createBlock.1.appendExpressions g.createBlock.2 exprs).codes.find?
      g.createBlock.2 = some ⟨exprs, none, false⟩ := by
    rw [codes_appendExpressions, codes_createBlock, OrderedMap.find?_modify, if_pos rfl,
      OrderedMap.find?_emplace, if_pos rfl, hfresh]
    rfl
  rw [copyBlock, ht]
  dsimp only
  refine linked_appendTerminator (linked_appendExpressions (linked_createBlock hlinked)) hcodes
    rfl fun s hs => ?_
  have hlive : g.codes.find? s ≠ none := by
    refine hlinked.closed ⟨block.code, find?_codes_of_find? hblock, ?_⟩
    rw [← Block.getSuccessors_eq, Block.getSuccessors, ht]
    exact hs
  rw [codes_appendExpressions, ne_eq, find?_modify_eq_none_iff, codes_createBlock,
    OrderedMap.find?_emplace]
  split_ifs
  · exact not_false
  · exact hlive

end Copy

/-- A copy of the expressions, block and terminator for one predecessor. -/
theorem copyFor_spec {clone : X → Option X} {es : List X} (hlinked : g.Linked)
    (hc : g.codes.find? b = some c) (hcontrol : c.control ≠ none)
    (hes : c.exprs.mapM clone = some es) (pred : BlockId) :
    ∃ g' cpBlock, copyFor clone b g pred = .ok g' ∧ g.codes.find? cpBlock = none ∧
      g'.codes = copiedCodes g.codes b pred cpBlock c es ∧ g'.Linked ∧
      g'.entryBlock = g.entryBlock := by
  obtain ⟨block, hblock, rfl⟩ := exists_block hc
  obtain ⟨t, ht, -⟩ := Block.exists_terminator hcontrol
  obtain ⟨hcodes, hfresh⟩ := @codes_copyBlock _ _ g block es t ht
  have hclone : block.exprs.mapM clone = some es := hes
  refine ⟨(copyBlock g block es).1.replaceOperand pred b (copyBlock g block es).2,
    (copyBlock g block es).2, ?_, hfresh, ?_, ?_, ?_⟩
  · rw [copyFor, hblock]
    dsimp only
    rw [hclone]
  · rw [codes_replaceOperand, hcodes, copiedCodes]
  · refine linked_replaceOperand (linked_copyBlock hlinked hblock ht) ?_
    rw [hcodes, OrderedMap.find?_emplace, if_pos rfl]
    exact Option.some_ne_none _
  · rw [entryBlock_replaceOperand, copyBlock, ht]
    exact entryBlock_appendTerminator _ _ _

end Cangjie.CHIR.MergeBlocks
