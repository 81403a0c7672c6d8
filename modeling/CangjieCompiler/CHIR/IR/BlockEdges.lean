import CangjieCompiler.CHIR.IR.BlockGroup

/-!
# What blocks execute and where they go

What a block executes is its code.  The operations of block groups change it at the blocks that
they name, and keep the predecessors in step with the successors.
-/

namespace Cangjie.CHIR.IR

variable {ε X : Type}

/-! ## Code and edges -/

/-- What a block executes, and whether it was generated for the condition of a for-in loop. -/
structure Code (ε X : Type) where
  exprs : List X
  control : Option (Control ε)
  generatedFromForIn : Bool

namespace Code

def successors (c : Code ε X) : List BlockId :=
  match c.control with
  | none => []
  | some k => k.successors

def withControl (k : Option (Control ε)) (c : Code ε X) : Code ε X := { c with control := k }

def replace (old new : BlockId) (c : Code ε X) : Code ε X :=
  { c with control := c.control.map (Control.replace old new) }

def append (es : List X) (c : Code ε X) : Code ε X := { c with exprs := c.exprs ++ es }

end Code

def Block.code (block : Block ε X) : Code ε X where
  exprs := block.exprs
  control := block.terminator.map Terminator.control
  generatedFromForIn := block.generatedFromForIn

lemma Block.getSuccessors_eq (block : Block ε X) :
    block.getSuccessors = block.code.successors := by
  rw [Block.getSuccessors, Code.successors, Block.code]
  cases block.terminator <;> rfl

lemma Block.exists_terminator {block : Block ε X} (h : block.code.control ≠ none) :
    ∃ t, block.terminator = some t ∧ block.code.control = some t.control := by
  obtain ⟨k, hk⟩ := Option.ne_none_iff_exists'.mp h
  obtain ⟨t, ht, rfl⟩ := Option.map_eq_some_iff.mp hk
  exact ⟨t, ht, hk⟩

namespace BlockGroup

variable {g : BlockGroup ε X}

/-- The code of every block. -/
def codes (g : BlockGroup ε X) : OrderedMap BlockId (Code ε X) := g.blocks.mapTo Block.code

lemma find?_codes (g : BlockGroup ε X) (b : BlockId) :
    g.codes.find? b = (g.blocks.find? b).map Block.code :=
  g.blocks.find?_mapTo Block.code b

lemma find?_codes_of_find? {b : BlockId} {block : Block ε X} (h : g.blocks.find? b = some block) :
    g.codes.find? b = some block.code := by
  rw [find?_codes, h]
  rfl

lemma find?_eq_none_iff {b : BlockId} : g.blocks.find? b = none ↔ g.codes.find? b = none := by
  rw [find?_codes, Option.map_eq_none_iff]

/-- A block goes to another one. -/
def EdgeIn (codes : OrderedMap BlockId (Code ε X)) (x y : BlockId) : Prop :=
  ∃ c, codes.find? x = some c ∧ y ∈ c.successors

/-- A block knows another one as predecessor. -/
def IsPred (g : BlockGroup ε X) (b x : BlockId) : Prop :=
  ∃ block, g.blocks.find? b = some block ∧ x ∈ block.predecessors

/-- The predecessors of every block are the blocks that go to it, and every successor is a block
of the group. -/
def Linked (g : BlockGroup ε X) : Prop := ∀ b x, g.IsPred b x ↔ EdgeIn g.codes x b

lemma Linked.closed (h : g.Linked) {x y : BlockId} (hedge : EdgeIn g.codes x y) :
    g.codes.find? y ≠ none := by
  obtain ⟨block, hfind, -⟩ := (h y x).mpr hedge
  rw [find?_codes_of_find? hfind]
  exact Option.some_ne_none _

lemma Linked.mem_predecessors_iff (h : g.Linked) {b x : BlockId} {block : Block ε X}
    (hfind : g.blocks.find? b = some block) :
    x ∈ block.predecessors ↔ EdgeIn g.codes x b := by
  rw [← h b x]
  constructor
  · exact fun hx => ⟨block, hfind, hx⟩
  · rintro ⟨block', hfind', hx⟩
    rw [hfind] at hfind'
    rwa [Option.some.inj hfind']

lemma edgeIn_codes_iff {x y : BlockId} :
    EdgeIn g.codes x y ↔ ∃ block, g.blocks.find? x = some block ∧ y ∈ block.code.successors := by
  rw [EdgeIn, find?_codes]
  cases g.blocks.find? x with
  | none => simp
  | some block => simp

/-- The links in terms of the entries. -/
lemma linked_iff : g.Linked ↔ ∀ b x,
    (∃ block, (b, block) ∈ g.blocks.entries ∧ x ∈ block.predecessors) ↔
      ∃ block, (x, block) ∈ g.blocks.entries ∧ b ∈ block.code.successors := by
  simp only [Linked, edgeIn_codes_iff, IsPred, OrderedMap.find?_eq_some_iff]

/-! ## Changes of one block -/

section Modify

variable {f : Block ε X → Block ε X} {b : BlockId}

lemma codes_modifyBlock {h : Code ε X → Code ε X} (hf : ∀ block, (f block).code = h block.code) :
    (g.modifyBlock b f).codes = g.codes.modify b h :=
  OrderedMap.mapTo_modify hf

lemma codes_modifyBlock_of (hf : ∀ block, (f block).code = block.code) :
    (g.modifyBlock b f).codes = g.codes := by
  rw [codes_modifyBlock (h := id) hf]
  exact OrderedMap.modify_eq_self fun _ _ => rfl

lemma isPred_modifyBlock (hf : ∀ block, (f block).predecessors = block.predecessors)
    (y x : BlockId) : (g.modifyBlock b f).IsPred y x ↔ g.IsPred y x := by
  rw [IsPred, IsPred, modifyBlock, OrderedMap.find?_modify]
  split_ifs
  · cases g.blocks.find? y with
    | none => exact iff_of_false (by simp) (by simp)
    | some block => simp [hf]
  · exact Iff.rfl

lemma isPred_modifyTerminator (b : BlockId) (t : Block ε X → Option (Terminator ε))
    (y x : BlockId) :
    (g.modifyBlock b fun block => { block with terminator := t block }).IsPred y x ↔
      g.IsPred y x := by
  refine isPred_modifyBlock ?_ y x
  exact fun _ => rfl

/-- A change that leaves the predecessors and the successors as they are. -/
lemma linked_modifyBlock (h : g.Linked)
    (hsuccs : ∀ block, (f block).code.successors = block.code.successors)
    (hpreds : ∀ block, (f block).predecessors = block.predecessors) :
    (g.modifyBlock b f).Linked := by
  intro y x
  rw [isPred_modifyBlock hpreds, h y x, edgeIn_codes_iff, edgeIn_codes_iff, modifyBlock,
    OrderedMap.find?_modify]
  split_ifs
  · cases g.blocks.find? x with
    | none => simp
    | some block => simp [hsuccs]
  · exact Iff.rfl

end Modify

/-! ## Predecessors -/

@[simp]
lemma codes_addPredecessor (g : BlockGroup ε X) (b pred : BlockId) :
    (g.addPredecessor b pred).codes = g.codes :=
  codes_modifyBlock_of fun block => by split_ifs <;> rfl

@[simp]
lemma codes_removePredecessor (g : BlockGroup ε X) (b pred : BlockId) :
    (g.removePredecessor b pred).codes = g.codes :=
  codes_modifyBlock_of fun _ => rfl

lemma isPred_addPredecessor (g : BlockGroup ε X) (b pred y x : BlockId) :
    (g.addPredecessor b pred).IsPred y x ↔
      g.IsPred y x ∨ (y = b ∧ x = pred ∧ g.codes.find? b ≠ none) := by
  rw [IsPred, IsPred, addPredecessor, modifyBlock, OrderedMap.find?_modify, ne_eq,
    ← find?_eq_none_iff]
  by_cases hy : y = b
  · rw [if_pos hy, hy]
    cases g.blocks.find? b with
    | none => simp
    | some block =>
      simp only [Option.map_some, Option.some.injEq, exists_eq_left', reduceCtorEq,
        not_false_eq_true, and_true, true_and]
      split_ifs with hmem
      · exact ⟨Or.inl, fun h => h.elim id fun heq => heq ▸ hmem⟩
      · simp
  · rw [if_neg hy]
    exact (or_iff_left fun h => hy h.1).symm

lemma isPred_removePredecessor (g : BlockGroup ε X) (b pred y x : BlockId) :
    (g.removePredecessor b pred).IsPred y x ↔ g.IsPred y x ∧ ¬ (y = b ∧ x = pred) := by
  rw [IsPred, IsPred, removePredecessor, modifyBlock, OrderedMap.find?_modify]
  by_cases hy : y = b
  · rw [if_pos hy, hy]
    cases g.blocks.find? b with
    | none => simp
    | some block => simp
  · rw [if_neg hy]
    exact (and_iff_left fun h => hy h.1).symm

@[simp]
lemma codes_addPredecessors (g : BlockGroup ε X) (sucs : List BlockId) (pred : BlockId) :
    (sucs.foldl (fun g suc => g.addPredecessor suc pred) g).codes = g.codes := by
  induction sucs generalizing g with
  | nil => rfl
  | cons suc sucs ih => exact (ih _).trans (codes_addPredecessor g suc pred)

@[simp]
lemma codes_removePredecessors (g : BlockGroup ε X) (sucs : List BlockId) (pred : BlockId) :
    (sucs.foldl (fun g suc => g.removePredecessor suc pred) g).codes = g.codes := by
  induction sucs generalizing g with
  | nil => rfl
  | cons suc sucs ih => exact (ih _).trans (codes_removePredecessor g suc pred)

lemma isPred_addPredecessors (g : BlockGroup ε X) (sucs : List BlockId) (pred y x : BlockId) :
    (sucs.foldl (fun g suc => g.addPredecessor suc pred) g).IsPred y x ↔
      g.IsPred y x ∨ (y ∈ sucs ∧ x = pred ∧ g.codes.find? y ≠ none) := by
  induction sucs generalizing g with
  | nil => exact (or_iff_left fun h => List.not_mem_nil h.1).symm
  | cons suc sucs ih =>
    rw [List.foldl_cons, ih, isPred_addPredecessor, codes_addPredecessor, List.mem_cons, or_assoc]
    refine or_congr_right ⟨?_, ?_⟩
    · rintro (⟨rfl, hx, hlive⟩ | ⟨hy, hx, hlive⟩)
      · exact ⟨Or.inl rfl, hx, hlive⟩
      · exact ⟨Or.inr hy, hx, hlive⟩
    · rintro ⟨rfl | hy, hx, hlive⟩
      · exact Or.inl ⟨rfl, hx, hlive⟩
      · exact Or.inr ⟨hy, hx, hlive⟩

lemma isPred_removePredecessors (g : BlockGroup ε X) (sucs : List BlockId) (pred y x : BlockId) :
    (sucs.foldl (fun g suc => g.removePredecessor suc pred) g).IsPred y x ↔
      g.IsPred y x ∧ ¬ (y ∈ sucs ∧ x = pred) := by
  induction sucs generalizing g with
  | nil => exact (and_iff_left fun h => List.not_mem_nil h.1).symm
  | cons suc sucs ih =>
    rw [List.foldl_cons, ih, isPred_removePredecessor, List.mem_cons, and_assoc, ← not_or, or_and_right]

/-! ## Terminators -/

section Terminators

variable {b : BlockId}

lemma codes_removeTerminator (g : BlockGroup ε X) (b : BlockId) :
    (g.removeTerminator b).codes = g.codes.modify b (Code.withControl none) := by
  rw [removeTerminator]
  cases hfind : g.blocks.find? b with
  | none =>
    refine (OrderedMap.modify_eq_self fun c hc => ?_).symm
    rw [find?_eq_none_iff.mp hfind] at hc
    exact absurd hc (Option.some_ne_none c).symm
  | some block =>
    dsimp only
    rw [codes_modifyBlock (h := Code.withControl none) fun _ => rfl, codes_removePredecessors]

lemma edgeIn_withControl_none {codes : OrderedMap BlockId (Code ε X)} {x y : BlockId} :
    EdgeIn (codes.modify b (Code.withControl none)) x y ↔ EdgeIn codes x y ∧ x ≠ b := by
  rw [EdgeIn, EdgeIn, OrderedMap.find?_modify]
  by_cases hx : x = b
  · rw [if_pos hx]
    refine iff_of_false ?_ fun h => h.2 hx
    rintro ⟨c, hc, hy⟩
    obtain ⟨c', -, rfl⟩ := Option.map_eq_some_iff.mp hc
    exact absurd hy List.not_mem_nil
  · rw [if_neg hx]
    exact (and_iff_left hx).symm

lemma linked_removeTerminator (h : g.Linked) : (g.removeTerminator b).Linked := by
  intro y x
  rw [codes_removeTerminator, edgeIn_withControl_none, ← h y x, removeTerminator]
  cases hfind : g.blocks.find? b with
  | none =>
    refine (and_iff_left_of_imp ?_).symm
    rintro hpred rfl
    obtain ⟨c, hc, -⟩ := (h y x).mp hpred
    rw [find?_eq_none_iff.mp hfind] at hc
    exact absurd hc (Option.some_ne_none c).symm
  | some block =>
    dsimp only
    rw [isPred_modifyTerminator, isPred_removePredecessors]
    refine and_congr_right fun hpred => not_congr ⟨fun h' => h'.2, ?_⟩
    rintro rfl
    obtain ⟨c, hc, hy⟩ := (h y x).mp hpred
    rw [find?_codes_of_find? hfind] at hc
    rw [Block.getSuccessors_eq, Option.some.inj hc]
    exact ⟨hy, rfl⟩

lemma codes_appendTerminator (g : BlockGroup ε X) (b : BlockId) (t : Terminator ε) :
    (g.appendTerminator b t).codes = g.codes.modify b (Code.withControl (some t.control)) := by
  rw [appendTerminator, codes_addPredecessors]
  exact codes_modifyBlock fun _ => rfl

lemma edgeIn_modify_ne {codes : OrderedMap BlockId (Code ε X)} {f : Code ε X → Code ε X}
    {x y : BlockId} (hx : x ≠ b) : EdgeIn (codes.modify b f) x y ↔ EdgeIn codes x y := by
  rw [EdgeIn, EdgeIn, OrderedMap.find?_modify, if_neg hx]

lemma edgeIn_modify_self {codes : OrderedMap BlockId (Code ε X)} {f : Code ε X → Code ε X}
    {c : Code ε X} (hc : codes.find? b = some c) {y : BlockId} :
    EdgeIn (codes.modify b f) b y ↔ y ∈ (f c).successors := by
  rw [EdgeIn, OrderedMap.find?_modify, if_pos rfl, hc, Option.map_some]
  simp

lemma edgeIn_modify_of_successors {codes : OrderedMap BlockId (Code ε X)}
    {f : Code ε X → Code ε X} (hf : ∀ c, (f c).successors = c.successors) {x y : BlockId} :
    EdgeIn (codes.modify b f) x y ↔ EdgeIn codes x y := by
  by_cases hx : x = b
  · cases hc : codes.find? b with
    | none => rw [OrderedMap.modify_eq_self fun c hc' => absurd (hc.symm.trans hc') (by simp)]
    | some c =>
      rw [hx, edgeIn_modify_self hc, hf, EdgeIn, hc]
      simp
  · exact edgeIn_modify_ne hx

lemma find?_modify_eq_none_iff {codes : OrderedMap BlockId (Code ε X)} {f : Code ε X → Code ε X}
    {y : BlockId} : (codes.modify b f).find? y = none ↔ codes.find? y = none := by
  rw [OrderedMap.find?_modify]
  split_ifs
  · exact Option.map_eq_none_iff
  · exact Iff.rfl

lemma linked_appendTerminator (h : g.Linked) {c : Code ε X} (hc : g.codes.find? b = some c)
    (hnone : c.control = none) {t : Terminator ε}
    (hlive : ∀ s ∈ t.control.successors, g.codes.find? s ≠ none) :
    (g.appendTerminator b t).Linked := by
  intro y x
  have hcodes : (g.modifyBlock b fun block => { block with terminator := some t }).codes =
      g.codes.modify b (Code.withControl (some t.control)) := codes_modifyBlock fun _ => rfl
  rw [codes_appendTerminator, appendTerminator, isPred_addPredecessors, hcodes,
    isPred_modifyTerminator, h y x, ne_eq, find?_modify_eq_none_iff]
  by_cases hx : x = b
  · subst hx
    rw [edgeIn_modify_self hc]
    have hno : ¬ EdgeIn g.codes x y := by
      rintro ⟨c', hc', hy⟩
      rw [hc] at hc'
      rw [← Option.some.inj hc', Code.successors, hnone] at hy
      exact absurd hy List.not_mem_nil
    rw [or_iff_right hno]
    exact ⟨fun h' => h'.1, fun hy => ⟨hy, rfl, hlive y hy⟩⟩
  · rw [edgeIn_modify_ne hx]
    exact or_iff_left fun h' => hx h'.2.1

end Terminators

/-! ## Replaced successors -/

section Replace

variable {b old new : BlockId}

lemma Control.mem_successors_replace {k : Control ε} {y : BlockId} :
    y ∈ (k.replace old new).successors ↔
      (y ∈ k.successors ∧ y ≠ old) ∨ (y = new ∧ old ∈ k.successors) := by
  have hiff : ∀ ss : List BlockId, y ∈ ss.map (fun s => if s = old then new else s) ↔
      (y ∈ ss ∧ y ≠ old) ∨ (y = new ∧ old ∈ ss) := by
    intro ss
    rw [List.mem_map]
    constructor
    · rintro ⟨s, hs, heq⟩
      split_ifs at heq with hold
      · exact Or.inr ⟨heq.symm, hold ▸ hs⟩
      · exact Or.inl ⟨heq ▸ hs, heq ▸ hold⟩
    · rintro (⟨hy, hne⟩ | ⟨rfl, hold⟩)
      · exact ⟨y, hy, if_neg hne⟩
      · exact ⟨old, hold, if_pos rfl⟩
  cases k with
  | GOTO d => exact hiff [d]
  | other label ss => exact hiff ss

lemma Control.replace_of_not_mem {k : Control ε} (h : old ∉ k.successors) :
    k.replace old new = k := by
  cases k with
  | GOTO d =>
    have hne : d ≠ old := fun heq => h (List.mem_singleton.mpr heq.symm)
    rw [Control.replace, if_neg hne]
  | other label ss =>
    have hid : ∀ s ∈ ss, (if s = old then new else s) = s := by
      intro s hs
      refine if_neg ?_
      rintro rfl
      exact h hs
    rw [Control.replace, List.map_congr_left hid, List.map_id']

lemma Control.replace_self (k : Control ε) : k.replace old old = k := by
  cases k with
  | GOTO d =>
    rw [Control.replace]
    split_ifs with heq
    · rw [heq]
    · rfl
  | other label ss =>
    have hid : ∀ s : BlockId, (if s = old then old else s) = s := by
      intro s
      split_ifs with heq
      · exact heq.symm
      · rfl
    rw [Control.replace, List.map_congr_left fun s _ => hid s, List.map_id']

lemma Code.replace_of_not_mem {c : Code ε X} (h : old ∉ c.successors) : c.replace old new = c := by
  obtain ⟨es, control, fi⟩ := c
  cases control with
  | none => rfl
  | some k => exact congrArg (fun k => Code.mk es (some k) fi) (Control.replace_of_not_mem h)

lemma Code.replace_self (c : Code ε X) : c.replace old old = c := by
  obtain ⟨es, control, fi⟩ := c
  cases control with
  | none => rfl
  | some k => exact congrArg (fun k => Code.mk es (some k) fi) (Control.replace_self k)

lemma Code.mem_successors_replace {c : Code ε X} {y : BlockId} :
    y ∈ (c.replace old new).successors ↔
      (y ∈ c.successors ∧ y ≠ old) ∨ (y = new ∧ old ∈ c.successors) := by
  obtain ⟨es, control, fi⟩ := c
  cases control with
  | none => simp [Code.successors, Code.replace]
  | some k => exact Control.mem_successors_replace

lemma codes_replaceOperand (g : BlockGroup ε X) (b old new : BlockId) :
    (g.replaceOperand b old new).codes = g.codes.modify b (Code.replace old new) := by
  rw [replaceOperand]
  cases hfind : g.blocks.find? b with
  | none =>
    refine (OrderedMap.modify_eq_self fun c hc => ?_).symm
    rw [find?_eq_none_iff.mp hfind] at hc
    exact absurd hc (Option.some_ne_none c).symm
  | some block =>
    dsimp only
    split_ifs with hsame
    · refine (OrderedMap.modify_eq_self fun c hc => ?_).symm
      rw [find?_codes_of_find? hfind] at hc
      rw [← Option.some.inj hc]
      rcases hsame with rfl | hnot
      · exact Code.replace_self _
      · rw [Block.getSuccessors_eq] at hnot
        exact Code.replace_of_not_mem hnot
    · rw [codes_addPredecessor, codes_removePredecessor]
      refine codes_modifyBlock fun block => ?_
      rw [Block.code, Code.replace, Block.code]
      dsimp only
      rw [Option.map_map, Option.map_map]
      rfl

lemma linked_replaceOperand (h : g.Linked) (hlive : g.codes.find? new ≠ none) :
    (g.replaceOperand b old new).Linked := by
  have hcodes := codes_replaceOperand g b old new
  rw [replaceOperand] at hcodes ⊢
  cases hfind : g.blocks.find? b with
  | none => exact h
  | some block =>
    rw [hfind] at hcodes
    dsimp only at hcodes ⊢
    split_ifs with hsame
    · exact h
    · rw [if_neg hsame] at hcodes
      obtain ⟨hne, hmem⟩ := not_or.mp hsame
      rw [not_not, Block.getSuccessors_eq] at hmem
      have hb := find?_codes_of_find? hfind
      intro y x
      have hmodify : (g.modifyBlock b fun block =>
          { block with terminator := block.terminator.map fun t =>
            { t with control := t.control.replace old new } }).codes =
          g.codes.modify b (Code.replace old new) := by
        rw [← hcodes, codes_addPredecessor, codes_removePredecessor]
      rw [hcodes, isPred_addPredecessor, isPred_removePredecessor, codes_removePredecessor,
        hmodify, isPred_modifyTerminator, h y x, ne_eq, find?_modify_eq_none_iff]
      by_cases hx : x = b
      · subst hx
        rw [edgeIn_modify_self hb, Code.mem_successors_replace]
        have hedge : EdgeIn g.codes x y ↔ y ∈ block.code.successors := by
          rw [EdgeIn, hb]
          simp
        rw [hedge]
        refine or_congr ?_ ?_
        · rw [and_iff_left (b := x = x) rfl]
        · exact ⟨fun h' => ⟨h'.1, hmem⟩, fun h' => ⟨h'.1, rfl, hlive⟩⟩
      · rw [edgeIn_modify_ne hx, or_iff_left fun h' => hx h'.2.1]
        exact and_iff_left fun h' => hx h'.2

end Replace

/-! ## Blocks -/

lemma codes_appendExpressions (g : BlockGroup ε X) (b : BlockId) (es : List X) :
    (g.appendExpressions b es).codes = g.codes.modify b (Code.append es) :=
  codes_modifyBlock fun _ => rfl

lemma linked_appendExpressions (h : g.Linked) {b : BlockId} {es : List X} :
    (g.appendExpressions b es).Linked := by
  refine linked_modifyBlock h (fun _ => rfl) ?_
  exact fun _ => rfl

lemma codes_removeBlock (g : BlockGroup ε X) (b : BlockId) :
    (g.removeBlock b).codes = g.codes.erase b := by
  refine OrderedMap.ext_find? fun y => ?_
  rw [find?_codes, removeBlock, OrderedMap.find?_erase, OrderedMap.find?_erase]
  split_ifs with hy
  · rfl
  · rw [← find?_codes, codes_removeTerminator, OrderedMap.find?_modify, if_neg hy]

lemma linked_removeBlock (h : g.Linked) {b : BlockId}
    (hnone : ∀ x, EdgeIn g.codes x b → x = b) : (g.removeBlock b).Linked := by
  intro y x
  have hlinked : (g.removeTerminator b).Linked := linked_removeTerminator h
  have hpred : (g.removeBlock b).IsPred y x ↔ y ≠ b ∧ (g.removeTerminator b).IsPred y x := by
    rw [IsPred, IsPred, removeBlock, OrderedMap.find?_erase]
    split_ifs with hy
    · exact iff_of_false (by simp) fun h' => h'.1 hy
    · exact (and_iff_right hy).symm
  rw [hpred, hlinked y x, codes_removeTerminator, edgeIn_withControl_none, codes_removeBlock,
    EdgeIn, EdgeIn, OrderedMap.find?_erase]
  split_ifs with hx
  · exact iff_of_false (fun h' => h'.2.2 hx) (by simp)
  · refine ⟨fun h' => h'.2.1, fun hedge => ⟨?_, hedge, hx⟩⟩
    rintro rfl
    exact hx (hnone x hedge)

/-- The code of a new block. -/
def emptyCode : Code ε X := { exprs := [], control := none, generatedFromForIn := false }

lemma createBlock_fresh (g : BlockGroup ε X) : g.blocks.find? g.createBlock.2 = none := by
  by_contra hsome
  obtain ⟨block, hblock⟩ := Option.ne_none_iff_exists'.mp hsome
  have hmem : g.createBlock.2 ∈ g.blocks.entries.map Prod.fst :=
    (g.blocks.mem_keys_iff).mpr ⟨block, hblock⟩
  have hle : ∀ (ks : List ℕ), ∀ k ∈ ks, k ≤ ks.foldr max 0 := by
    intro ks
    induction ks with
    | nil => exact fun k hk => absurd hk List.not_mem_nil
    | cons a ks ih =>
      intro k hk
      rcases List.mem_cons.mp hk with rfl | hk
      · exact le_max_left _ _
      · exact (ih k hk).trans (le_max_right _ _)
  exact absurd (hle _ _ hmem) (Nat.not_succ_le_self _)

lemma codes_createBlock (g : BlockGroup ε X) :
    g.createBlock.1.codes = g.codes.emplace g.createBlock.2 emptyCode := by
  refine OrderedMap.ext_find? fun y => ?_
  rw [find?_codes, OrderedMap.find?_emplace, createBlock]
  dsimp only
  rw [OrderedMap.find?_emplace, find?_codes, find?_codes]
  have hfresh := createBlock_fresh g
  rw [createBlock] at hfresh
  dsimp only at hfresh
  rw [hfresh]
  split_ifs <;> rfl

lemma linked_createBlock (h : g.Linked) : g.createBlock.1.Linked := by
  intro y x
  have hfresh := createBlock_fresh g
  have hpred : g.createBlock.1.IsPred y x ↔ g.IsPred y x := by
    rw [IsPred, IsPred, createBlock]
    dsimp only
    rw [OrderedMap.find?_emplace]
    rw [createBlock] at hfresh
    dsimp only at hfresh
    split_ifs with hy
    · subst hy
      rw [hfresh]
      simp
    · exact Iff.rfl
  have hedge : EdgeIn g.createBlock.1.codes x y ↔ EdgeIn g.codes x y := by
    rw [EdgeIn, EdgeIn, codes_createBlock, OrderedMap.find?_emplace]
    split_ifs with hx
    · subst hx
      rw [find?_eq_none_iff.mp hfresh]
      simp [emptyCode, Code.successors]
    · exact Iff.rfl
  rw [hpred, hedge]
  exact h y x

/-! ## The entry block -/

@[simp]
lemma entryBlock_modifyBlock (b : BlockId) (f : Block ε X → Block ε X) :
    (g.modifyBlock b f).entryBlock = g.entryBlock := rfl

@[simp]
lemma entryBlock_foldl {f : BlockGroup ε X → BlockId → BlockGroup ε X}
    (hf : ∀ g b, (f g b).entryBlock = g.entryBlock) (bs : List BlockId) (g : BlockGroup ε X) :
    (bs.foldl f g).entryBlock = g.entryBlock := by
  induction bs generalizing g with
  | nil => rfl
  | cons b bs ih => exact (ih _).trans (hf g b)

@[simp]
lemma entryBlock_appendTerminator (g : BlockGroup ε X) (b : BlockId) (t : Terminator ε) :
    (g.appendTerminator b t).entryBlock = g.entryBlock := by
  refine entryBlock_foldl ?_ _ _
  exact fun _ _ => rfl

@[simp]
lemma entryBlock_removeTerminator (g : BlockGroup ε X) (b : BlockId) :
    (g.removeTerminator b).entryBlock = g.entryBlock := by
  rw [removeTerminator]
  split
  · rfl
  · refine entryBlock_foldl ?_ _ _
    exact fun _ _ => rfl

@[simp]
lemma entryBlock_replaceOperand (g : BlockGroup ε X) (b old new : BlockId) :
    (g.replaceOperand b old new).entryBlock = g.entryBlock := by
  rw [replaceOperand]
  split
  · rfl
  · split_ifs <;> rfl

lemma entryBlock_removeBlock (g : BlockGroup ε X) {b : BlockId} (h : g.entryBlock ≠ some b) :
    (g.removeBlock b).entryBlock = g.entryBlock := by
  rw [removeBlock]
  dsimp only
  rw [entryBlock_removeTerminator, if_neg h]

end BlockGroup

end Cangjie.CHIR.IR
