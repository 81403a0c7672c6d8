import CangjieCompiler.CHIR.Optimization.MergeBlocks.Copies
import CangjieCompiler.CHIR.Optimization.MergeBlocks.Redirection
import Mathlib

/-!
# Every rule makes progress

Blocks can become more when for-in blocks are copied, but then a mark of a for-in block is gone.
The other rules keep the marks and take away a block.
-/

namespace Cangjie.CHIR.MergeBlocks

open IR IR.BlockGroup

variable {ε X : Type}

/-! ## What becomes less -/

/-- The number of marks of for-in blocks, and then the number of blocks. -/
abbrev Weight := ℕ ×ₗ ℕ

lemma Weight.zero_le (w : Weight) : 0 ≤ w := by
  refine Prod.Lex.le_iff.mpr ?_
  rcases Nat.eq_zero_or_pos (ofLex w).1 with h | h
  · exact Or.inr ⟨h.symm, Nat.zero_le _⟩
  · exact Or.inl h

/-- A block and what is in its expressions. -/
def Code.weight (weight : X → Weight) (c : Code ε X) : Weight :=
  toLex (if c.generatedFromForIn then 1 else 0, 1) + (c.exprs.map weight).sum

variable {weight : X → Weight}

lemma Code.weight_pos (c : Code ε X) : 0 < Code.weight weight c := by
  refine add_pos_of_pos_of_nonneg ?_ (Weight.zero_le _)
  refine Prod.Lex.lt_iff.mpr ?_
  cases c.generatedFromForIn
  · exact Or.inr ⟨rfl, Nat.one_pos⟩
  · exact Or.inl Nat.one_pos

section Rules

variable {codes : Codes ε X} {b pred target cpBlock : BlockId} {c cp : Code ε X}

lemma weight_erase_lt (hc : codes.find? b = some c) :
    (codes.erase b).total (Code.weight weight) < codes.total (Code.weight weight) := by
  rw [OrderedMap.total_erase _ hc]
  exact lt_add_of_pos_left _ (Code.weight_pos c)

lemma weight_merged_lt (h : SingleEntry codes b pred c cp) (hne : b ≠ pred)
    (hmark : c.generatedFromForIn = false) :
    (mergedCodes codes b pred c).total (Code.weight weight) <
      codes.total (Code.weight weight) := by
  have hfind : (codes.modify pred (Code.followedBy c)).find? b = some c := by
    rw [OrderedMap.find?_modify, if_neg hne, h.blockCode]
  have herase := OrderedMap.total_erase (Code.weight weight) hfind
  have hmodify := OrderedMap.total_modify (Code.weight weight) h.predCode (Code.followedBy c)
  have hweight : Code.weight weight (Code.followedBy c cp) + toLex (0, 1) =
      Code.weight weight cp + Code.weight weight c := by
    rw [Code.weight, Code.weight, Code.weight, hmark, Code.followedBy, List.map_append,
      List.sum_append, if_neg Bool.false_ne_true]
    ac_rfl
  have hsum : (mergedCodes codes b pred c).total (Code.weight weight) + toLex (0, 1) =
      codes.total (Code.weight weight) := by
    refine add_right_cancel (b := Code.weight weight cp + Code.weight weight c) ?_
    rw [← hweight, ← add_assoc (codes.total _), ← hmodify, herase, mergedCodes, hweight]
    ac_rfl
  rw [← hsum]
  exact lt_add_of_pos_right _ (Prod.Lex.lt_iff.mpr (Or.inr ⟨rfl, Nat.one_pos⟩))

lemma weight_redirected_lt (h : GotoOnly codes b target c) :
    (redirectedCodes codes b target).total (Code.weight weight) <
      codes.total (Code.weight weight) := by
  have hmap := OrderedMap.total_mapValues
    (fun c : Code ε X => (rfl : Code.weight weight (c.replace b target) = Code.weight weight c)) codes
  have hfind : (codes.mapValues (Code.replace b target)).find? b = some (c.replace b target) := by
    rw [OrderedMap.find?_mapValues, h.block]
    rfl
  rw [← hmap]
  exact weight_erase_lt hfind

lemma weight_copied (hfresh : codes.find? cpBlock = none)
    (hweight : ∀ e ∈ c.exprs, weight e = 0) :
    (copiedCodes codes b pred cpBlock c c.exprs).total (Code.weight weight) =
      codes.total (Code.weight weight) + toLex (0, 1) := by
  have hsum : (c.exprs.map weight).sum = 0 := List.sum_eq_zero (by simpa using hweight)
  have hmodify : ∀ codes' : Codes ε X, (codes'.modify pred (Code.replace b cpBlock)).total
      (Code.weight weight) = codes'.total (Code.weight weight) := by
    intro codes'
    cases hp : codes'.find? pred with
    | none =>
      rw [OrderedMap.modify_eq_self]
      intro v hv
      rw [hp] at hv
      exact absurd hv (Option.some_ne_none v).symm
    | some cp =>
      refine add_right_cancel (OrderedMap.total_modify (Code.weight weight) hp _)
  rw [copiedCodes, hmodify, OrderedMap.total_emplace _ _ hfresh, Code.weight, hsum, add_comm]
  rfl

end Rules

/-! ## Copies for all predecessors but one -/

section Copies

variable {clone : X → Option X} {b : BlockId} {c : Code ε X}

lemma mapM_clone {es : List X} (hclone : ∀ e ∈ es, clone e = some e) :
    es.mapM clone = some es := by
  induction es with
  | nil => rfl
  | cons e es ih =>
    obtain ⟨he, hes⟩ := List.forall_mem_cons.mp hclone
    rw [List.mapM_cons, he, ih hes]
    rfl

/-- The copies stand for the block, and the rest of the block stays. -/
lemma copies_spec {g : BlockGroup ε X} (hlinked : g.Linked) (hc : g.codes.find? b = some c)
    (hcontrol : c.control ≠ none)
    (hplain : ∀ e ∈ c.exprs, clone e = some e ∧ weight e = 0) (preds : List BlockId) :
    ∃ g' φ, preds.foldlM (copyFor clone b) g = .ok g' ∧ g'.Linked ∧
      g'.entryBlock = g.entryBlock ∧ Covers φ b g.codes g'.codes ∧
      (∃ c', g'.codes.find? b = some c' ∧ c'.exprs = c.exprs ∧
        c'.generatedFromForIn = c.generatedFromForIn) ∧
      ∃ n, g'.codes.total (Code.weight weight) =
        g.codes.total (Code.weight weight) + toLex (0, n) := by
  induction preds generalizing g c with
  | nil =>
    exact ⟨g, id, rfl, hlinked, rfl, .refl hlinked.closed, ⟨c, hc, rfl, rfl⟩, 0,
      (add_zero _).symm⟩
  | cons pred preds ih =>
    obtain ⟨g₁, cpBlock, hcopy, hfresh, hcodes, hlinked₁, hentry₁⟩ := copyFor_spec hlinked hc
      hcontrol (mapM_clone fun e he => (hplain e he).1) pred
    have hcovers₁ : Covers (original b cpBlock) b g.codes g₁.codes := by
      have hclosed : ∀ {x y}, EdgeIn g₁.codes x y → g₁.codes.find? y ≠ none := hlinked₁.closed
      rw [hcodes] at hclosed ⊢
      exact covers_copied hlinked.closed hc hfresh hclosed
    obtain ⟨c₁, hc₁, hexprs₁, hmark₁⟩ : ∃ c₁, g₁.codes.find? b = some c₁ ∧ c₁.exprs = c.exprs ∧
        c₁.generatedFromForIn = c.generatedFromForIn := by
      rw [hcodes]
      exact find?_copied_old hc hfresh
    have hcontrol₁ : c₁.control ≠ none := by
      obtain ⟨d, hd, -, hmap, -⟩ := hcovers₁.code hc₁
      rw [(hcovers₁.old (Option.ne_none_iff_exists'.mpr ⟨c, hc⟩)).2, hc] at hd
      obtain rfl := Option.some.inj hd
      rintro hnone
      rw [hnone] at hmap
      exact hcontrol hmap.symm
    obtain ⟨g₂, ψ, hfold, hlinked₂, hentry₂, hcovers₂, ⟨c₂, hc₂, hexprs₂, hmark₂⟩, n, hn⟩ :=
      ih hlinked₁ hc₁ hcontrol₁ (hexprs₁ ▸ hplain)
    refine ⟨g₂, original b cpBlock ∘ ψ, ?_, hlinked₂, hentry₂.trans hentry₁,
      hcovers₁.comp hcovers₂ (Option.ne_none_iff_exists'.mpr ⟨c, hc⟩),
      ⟨c₂, hc₂, hexprs₂.trans hexprs₁, hmark₂.trans hmark₁⟩, 1 + n, ?_⟩
    · rw [List.foldlM_cons, hcopy]
      exact hfold
    · rw [hn, hcodes, weight_copied hfresh fun e he => (hplain e he).2, add_assoc]
      rfl

/-- A block without its mark. -/
def Code.unmark (c : Code ε X) : Code ε X := { c with generatedFromForIn := false }

lemma Covers.unmark {φ : BlockId → BlockId} {codes codes' : Codes ε X}
    (h : Covers φ b codes codes') : Covers φ b codes (codes'.modify b Code.unmark) where
  code := by
    intro y c' hc'
    rw [OrderedMap.find?_modify] at hc'
    split_ifs at hc'
    · obtain ⟨c'', hc'', rfl⟩ := Option.map_eq_some_iff.mp hc'
      obtain ⟨d, hd, hexprs, hcontrol, -⟩ := h.code hc''
      exact ⟨d, hd, hexprs, hcontrol, fun hm => absurd hm Bool.false_ne_true⟩
    · exact h.code hc'
  old := by
    intro y hy
    obtain ⟨hlive, hφ⟩ := h.old hy
    exact ⟨fun hnone => hlive (find?_modify_eq_none_iff.mp hnone), hφ⟩
  new := h.new
  closed := by
    rintro x y ⟨c', hc', hy⟩ hnone
    rw [OrderedMap.find?_modify] at hc'
    refine h.closed (x := x) ?_ (find?_modify_eq_none_iff.mp hnone)
    split_ifs at hc'
    · obtain ⟨c'', hc'', rfl⟩ := Option.map_eq_some_iff.mp hc'
      exact ⟨c'', hc'', hy⟩
    · exact ⟨c', hc', hy⟩

end Copies

/-! ## Well-formed groups -/

/-- Blocks that end in terminators, an entry block without predecessors, and for-in blocks that
are reached from it and lead to plain expressions only. -/
structure WellFormed (lawful plain : X → Prop) (entry : BlockId) (g : BlockGroup ε X) : Prop where
  linked : g.Linked
  terminated : Terminated g.codes
  entryBlock : g.entryBlock = some entry
  isEntry : IsEntry g.codes entry
  forIn : ∀ {b c}, g.codes.find? b = some c → c.generatedFromForIn = true →
    b ≠ entry ∧ Relation.ReflTransGen (EdgeIn g.codes) entry b ∧ PlainFrom plain g.codes b
  inner : ∀ {b c e}, g.codes.find? b = some c → e ∈ c.exprs → lawful e

section WellFormed

variable {lawful plain : X → Prop} {entry : BlockId} {g g' : BlockGroup ε X}

lemma WellFormed.of_refines (h : WellFormed lawful plain entry g)
    (hrefines : Refines entry g.codes g'.codes) (hlinked : g'.Linked)
    (hentry : g'.entryBlock = g.entryBlock) : WellFormed lawful plain entry g' where
  linked := hlinked
  terminated := hrefines.terminated
  entryBlock := hentry.trans h.entryBlock
  isEntry := by
    obtain ⟨-, c', -, hc'⟩ := hrefines.same.exists_code
    refine ⟨Option.ne_none_iff_exists'.mpr ⟨c', hc'⟩, fun x hx => ?_⟩
    obtain ⟨x', hx'⟩ := hrefines.edges hx h.isEntry.live
    exact h.isEntry.unused x' hx'
  forIn := by
    intro b c' hc' hmark
    obtain ⟨c, hc, hmark'⟩ := hrefines.marked hc' hmark
    obtain ⟨hne, hpath, hplain⟩ := h.forIn hc hmark'
    exact ⟨hne, hrefines.reached hc' hmark hpath, hrefines.plain hc' hmark hplain⟩
  inner := by
    intro b c' e hc' he
    obtain ⟨x, c, hc, he'⟩ := hrefines.exprs hc' he
    exact h.inner hc he'

/-- What a rule makes of a group. -/
structure Progress (lawful plain : X → Prop) (weight : X → Weight) (entry : BlockId)
    (g g' : BlockGroup ε X) : Prop where
  wellFormed : WellFormed lawful plain entry g'
  same : SameFrom Eq g.codes g'.codes entry
  less : g'.codes.total (Code.weight weight) < g.codes.total (Code.weight weight)

/-- For-in blocks have predecessors. -/
lemma WellFormed.exists_predecessor (h : WellFormed lawful plain entry g) {b : BlockId}
    {block : Block ε X} (hblock : g.blocks.find? b = some block)
    (hmark : block.generatedFromForIn = true) : block.predecessors ≠ [] := by
  obtain ⟨hne, hpath, -⟩ := h.forIn (find?_codes_of_find? hblock) hmark
  rcases Relation.ReflTransGen.cases_tail hpath with heq | ⟨x, -, hedge⟩
  · exact absurd heq hne
  · have hx := (h.linked.mem_predecessors_iff hblock).mpr hedge
    exact List.ne_nil_of_mem hx

theorem mergeForInCondBlock_spec (h : WellFormed lawful plain entry g) {clone : X → Option X}
    (hplain : ∀ e, plain e → clone e = some e ∧ weight e = 0) {b : BlockId} {block : Block ε X}
    (hblock : g.blocks.find? b = some block) (hmark : block.generatedFromForIn = true) :
    ∃ g', mergeForInCondBlock clone g b = .ok g' ∧ Progress lawful plain weight entry g g' := by
  have hb := find?_codes_of_find? hblock
  obtain ⟨hne, -, hplainFrom⟩ := h.forIn hb hmark
  obtain ⟨g₁, φ, hfold, hlinked, hentry, hcovers, ⟨c₁, hc₁, -, hmark₁⟩, n, hn⟩ :=
    copies_spec h.linked hb (h.terminated hb)
      (fun e he => hplain e (hplainFrom b .refl _ hb e he)) block.predecessors.dropLast
  have hcodes : (g₁.modifyBlock b fun block => { block with generatedFromForIn := false }).codes =
      g₁.codes.modify b Code.unmark := codes_modifyBlock fun _ => rfl
  have hlinked' : (g₁.modifyBlock b fun block =>
      { block with generatedFromForIn := false }).Linked := by
    refine linked_modifyBlock hlinked (fun _ => rfl) ?_
    exact fun _ => rfl
  have hrefines : Refines entry g.codes (g₁.modifyBlock b fun block =>
      { block with generatedFromForIn := false }).codes := by
    rw [hcodes]
    refine hcovers.unmark.refines (fun c hc => ?_) h.terminated h.isEntry
    rw [OrderedMap.find?_modify, if_pos rfl, hc₁] at hc
    obtain rfl := Option.some.inj hc
    rfl
  refine ⟨g₁.modifyBlock b fun block => { block with generatedFromForIn := false }, ?_,
    h.of_refines hrefines hlinked' hentry, hrefines.same, ?_⟩
  · rw [mergeForInCondBlock, hblock]
    dsimp only
    rw [if_neg (h.exists_predecessor hblock hmark), hfold]
    rfl
  · -- the mark is gone, and only blocks have been added
    have hmark' : c₁.generatedFromForIn = true := hmark₁.trans hmark
    have hweight : Code.weight weight c₁ = toLex (1, 0) + Code.weight weight (Code.unmark c₁) := by
      rw [Code.weight, Code.weight, hmark', ← add_assoc]
      rfl
    have htotal := OrderedMap.total_modify (Code.weight weight) hc₁ Code.unmark
    rw [hweight, ← add_assoc, add_left_inj, ← hcodes, hn] at htotal
    have hfst := congrArg (fun w : Weight => (ofLex w).1) htotal
    refine Prod.Lex.lt_iff.mpr (Or.inl ?_)
    exact Nat.lt_of_succ_le hfst.le

/-! ## The other rules -/

variable {opts : GlobalOptions} {b pred : BlockId} {block : Block ε X}

lemma exists_goTo_of_removable {terminator : Option (Terminator ε)}
    (h : removableGoTo opts terminator = true) :
    ∃ d, terminator.map Terminator.control = some (.GOTO d) := by
  obtain ⟨t, rfl, ht⟩ := (Option.any_eq_true _ _).mp h
  have hgo : t.control.isGoTo = true := (Bool.and_eq_true_iff.mp ht).1
  cases hcontrol : t.control with
  | GOTO d => exact ⟨d, congrArg some hcontrol⟩
  | other label ss =>
    rw [hcontrol] at hgo
    exact absurd hgo Bool.false_ne_true

lemma singleEntry_of_check (hlinked : g.Linked) (hblock : g.blocks.find? b = some block)
    (h : checkSingleEntrySingleExit opts g block = some pred) :
    ∃ cp, SingleEntry g.codes b pred block.code cp := by
  rw [checkSingleEntrySingleExit] at h
  split_ifs at h
  split at h
  case h_2 => exact absurd h (Option.some_ne_none pred).symm
  case h_1 pred' hpreds =>
    cases hpred : g.blocks.find? pred' with
    | none =>
      rw [hpred] at h
      exact absurd h (Option.some_ne_none pred).symm
    | some predBlock =>
      rw [hpred] at h
      dsimp only at h
      split_ifs at h with hlength hremovable
      obtain rfl := Option.some.inj h
      have hmem : ∀ x, EdgeIn g.codes x b ↔ x = pred' := by
        intro x
        rw [← hlinked.mem_predecessors_iff hblock, hpreds, List.mem_singleton]
      obtain ⟨d, hd⟩ := exists_goTo_of_removable hremovable
      have hp := find?_codes_of_find? hpred
      obtain rfl : b = d := by
        obtain ⟨c', hc', hb⟩ := (hmem pred').mpr rfl
        rw [hp] at hc'
        obtain rfl := Option.some.inj hc'
        rw [Code.successors, Block.code, hd] at hb
        exact List.mem_singleton.mp hb
      exact ⟨predBlock.code, find?_codes_of_find? hblock, hp, hd, fun x hx => (hmem x).mp hx⟩

lemma gotoOnly_of_check (hlinked : g.Linked) (hblock : g.blocks.find? b = some block)
    (h : checkGotoOnly opts g b block = true) :
    g.entryBlock ≠ some b ∧ ∃ target, GotoOnly g.codes b target block.code := by
  rw [checkGotoOnly] at h
  by_cases hfirst : block.numExpressions ≠ 1 ∨ g.entryBlock = some b ∨
      skipMergeBlock opts block = true
  · rw [if_pos hfirst] at h
    exact absurd h Bool.false_ne_true
  rw [if_neg hfirst] at h
  obtain ⟨hnum, hrest⟩ := not_or.mp hfirst
  obtain ⟨hentry, -⟩ := not_or.mp hrest
  cases ht : block.terminator with
  | none =>
    rw [ht] at h
    exact absurd h Bool.false_ne_true
  | some t =>
    rw [ht] at h
    dsimp only at h
    split_ifs at h with hgo hself
    obtain ⟨d, hd⟩ := exists_goTo_of_removable h
    have hb := find?_codes_of_find? hblock
    have hd' : block.code.control = some (.GOTO d) := by rw [Block.code, ht, hd]
    refine ⟨hentry, d, hb, ?_, hd', ?_⟩
    · rw [not_not, Block.numExpressions, ht] at hnum
      exact List.length_eq_zero_iff.mp (Nat.succ.inj hnum)
    · rintro rfl
      refine hself ((hlinked.mem_predecessors_iff hblock).mpr ⟨_, hb, ?_⟩)
      rw [Code.successors, hd']
      exact List.mem_singleton_self d

lemma entryBlock_mergeIntoPredecessor {c cp : Code ε X} (h : SingleEntry g.codes b pred c cp)
    (hc : c.control ≠ none) (hentry : g.entryBlock ≠ some b) :
    (mergeIntoPredecessor g b pred).entryBlock = g.entryBlock := by
  obtain ⟨block, hblock, rfl⟩ := exists_block h.blockCode
  obtain ⟨predBlock, hpred, -⟩ := exists_block h.predCode
  obtain ⟨t, ht, -⟩ := Block.exists_terminator hc
  obtain ⟨skip, heq⟩ := mergeIntoPredecessor_eq hblock hpred ht
  have hbefore : (if b = pred then g.removeTerminator pred
      else moveInto g b pred block.exprs t).entryBlock = g.entryBlock := by
    split_ifs
    · exact entryBlock_removeTerminator g pred
    · rw [moveInto, entryBlock_appendTerminator, entryBlock_removeTerminator, appendExpressions,
        entryBlock_modifyBlock, entryBlock_removeTerminator]
  have hremove := entryBlock_removeBlock _ (hbefore ▸ hentry)
  rw [heq]
  by_cases hskip : skip ≠ .NO_SKIP
  · rw [if_pos hskip, entryBlock_modifyBlock]
    exact hremove.trans hbefore
  · rw [if_neg hskip]
    exact hremove.trans hbefore

lemma entryBlock_mergeGotoOnlyBlock {c : Code ε X} {target : BlockId}
    (h : GotoOnly g.codes b target c) (hentry : g.entryBlock ≠ some b) :
    (mergeGotoOnlyBlock g b).entryBlock = g.entryBlock := by
  obtain ⟨block, -, heq⟩ := mergeGotoOnlyBlock_eq h
  have hbefore : (block.predecessors.foldl (redirect block b target) g).entryBlock =
      g.entryBlock := by
    refine entryBlock_foldl (fun g pred => ?_) _ _
    rw [redirect, entryBlock_modifyBlock, entryBlock_replaceOperand, entryBlock_modifyBlock]
  rw [heq]
  exact (entryBlock_removeBlock _ (hbefore ▸ hentry)).trans hbefore

theorem mergeIntoPredecessor_spec (h : WellFormed lawful plain entry g)
    (hblock : g.blocks.find? b = some block) (hmark : block.generatedFromForIn = false)
    (hcheck : checkSingleEntrySingleExit opts g block = some pred) :
    Progress lawful plain weight entry g (mergeIntoPredecessor g b pred) := by
  obtain ⟨cp, hsingle⟩ := singleEntry_of_check h.linked hblock hcheck
  have hcontrol := h.terminated hsingle.blockCode
  have hgo : EdgeIn g.codes pred b := by
    refine ⟨cp, hsingle.predCode, ?_⟩
    rw [Code.successors, hsingle.goTo]
    exact List.mem_singleton_self b
  have hentry : entry ≠ b := by
    rintro rfl
    exact h.isEntry.unused pred hgo
  have hentryBlock : g.entryBlock ≠ some b := by
    rw [h.entryBlock]
    exact fun heq => hentry (Option.some.inj heq)
  have hcodes := codes_mergeIntoPredecessor hsingle hcontrol
  have hlinked := linked_mergeIntoPredecessor h.linked hsingle hcontrol
  have hkept := entryBlock_mergeIntoPredecessor hsingle hcontrol hentryBlock
  by_cases hself : b = pred
  · rw [if_pos hself] at hcodes
    have hrefines : Refines entry g.codes (mergeIntoPredecessor g b pred).codes := by
      rw [hcodes]
      refine refines_erased (fun x hx => ?_) hentry h.terminated h.isEntry
      exact (hsingle.only x hx).trans hself.symm
    refine ⟨h.of_refines hrefines hlinked hkept, hrefines.same, ?_⟩
    rw [hcodes]
    exact weight_erase_lt hsingle.blockCode
  · rw [if_neg hself] at hcodes
    have hrefines : Refines entry g.codes (mergeIntoPredecessor g b pred).codes := by
      rw [hcodes]
      exact refines_merged hsingle hself h.terminated h.isEntry
    refine ⟨h.of_refines hrefines hlinked hkept, hrefines.same, ?_⟩
    rw [hcodes]
    exact weight_merged_lt hsingle hself hmark

theorem mergeGotoOnlyBlock_spec (h : WellFormed lawful plain entry g)
    (hblock : g.blocks.find? b = some block) (hcheck : checkGotoOnly opts g b block = true) :
    Progress lawful plain weight entry g (mergeGotoOnlyBlock g b) := by
  obtain ⟨hentryBlock, target, hgoto⟩ := gotoOnly_of_check h.linked hblock hcheck
  have hlive : g.codes.find? target ≠ none := by
    refine h.linked.closed ⟨_, hgoto.block, ?_⟩
    rw [Code.successors, hgoto.goTo]
    exact List.mem_singleton_self target
  have hcodes := codes_mergeGotoOnlyBlock h.linked hgoto
  have hentry : entry ≠ b := by
    rintro rfl
    exact hentryBlock h.entryBlock
  have hrefines : Refines entry g.codes (mergeGotoOnlyBlock g b).codes := by
    rw [hcodes]
    exact refines_redirected hgoto hlive hentry h.terminated h.isEntry
  refine ⟨h.of_refines hrefines (linked_mergeGotoOnlyBlock h.linked hgoto)
    (entryBlock_mergeGotoOnlyBlock hgoto hentryBlock), hrefines.same, ?_⟩
  rw [hcodes]
  exact weight_redirected_lt hgoto

end WellFormed

end Cangjie.CHIR.MergeBlocks
