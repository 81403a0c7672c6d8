import CangjieCompiler.CHIR.IR.BlockGroup

/-!
# Merging of blocks

The pass removes blocks that are reached from one place only or do nothing, and copies blocks that
were generated for the condition of a for-in loop so that the copies can be merged.  It is repeated
until no rule applies.

Expressions can hold block groups of their own, one level down, and the pass also runs on these.
-/

namespace Cangjie.CHIR.MergeBlocks

open IR

variable {ε X : Type}

/-! ## Rules -/

structure GlobalOptions where
  enableCompileDebug : Bool
  enableCoverage : Bool

/-- The runs that the pass does not finish: it fails its own check, or it copies an expression
together with block groups. -/
inductive Abort
  | noPredecessor
  | innerBlocks
deriving DecidableEq

/-- The first of two skips that is one. -/
def andSkip (l r : SkipKind) : SkipKind := if l ≠ .NO_SKIP then l else r

/-- The terminator of the only predecessor is replaced by what is in the block. -/
def mergeIntoPredecessor (g : BlockGroup ε X) (b pred : BlockId) : BlockGroup ε X :=
  match g.blocks.find? b, g.blocks.find? pred with
  | some block, some predBlock =>
    let appendSkipCheck := andSkip predBlock.skipCheck
      (predBlock.terminator.elim .NO_SKIP Terminator.skipCheck)
    -- 1) remove the terminator of predecessor
    let g := g.removeTerminator pred
    -- 2) add the expressions in the block to predecessor
    let g :=
      if b = pred then g
      else
        match block.terminator with
        | none => g.appendExpressions pred block.exprs
        | some t =>
          ((g.appendExpressions pred block.exprs).removeTerminator b).appendTerminator pred t
    -- 3) remove the block itself
    let appendSkipCheck := andSkip appendSkipCheck block.skipCheck
    let g := g.removeBlock b
    if appendSkipCheck ≠ .NO_SKIP then
      g.modifyBlock pred fun predBlock => { predBlock with skipCheck := appendSkipCheck }
    else g
  | _, _ => g

/-- A predecessor of a block goes to the target of the block. -/
def redirect (block : Block ε X) (b target : BlockId) (g : BlockGroup ε X) (pred : BlockId) :
    BlockGroup ε X :=
  let g := g.modifyBlock target fun t => { t with debugLocation := block.debugLocation }
  let g := g.replaceOperand pred b target
  g.modifyBlock pred fun predBlock =>
    { predBlock with
      terminator := predBlock.terminator.map fun t =>
        let skip := andSkip t.skipCheck block.skipCheck
        if skip ≠ .NO_SKIP then { t with skipCheck := skip } else t }

/-- The predecessors of a block that only goes on go to its target. -/
def mergeGotoOnlyBlock (g : BlockGroup ε X) (b : BlockId) : BlockGroup ε X :=
  match g.blocks.find? b with
  | none => g
  | some block =>
    match block.getSuccessors with
    | [] => g
    | target :: _ => (block.predecessors.foldl (redirect block b target) g).removeBlock b

/-- A copy of a block, given copies of its expressions, and its number. -/
def copyBlock (g : BlockGroup ε X) (block : Block ε X) (exprs : List X) :
    BlockGroup ε X × BlockId :=
  let (g, ret) := g.createBlock
  let g := g.appendExpressions ret exprs
  match block.terminator with
  | none => (g, ret)
  | some t =>
    (g.appendTerminator ret
      { control := t.control, debugLocation := DebugLocation.INVALID_LOCATION,
        skipCheck := .NO_SKIP }, ret)

/-- A predecessor of a block goes to a copy of the block. -/
def copyFor (clone : X → Option X) (b : BlockId) (g : BlockGroup ε X) (pred : BlockId) :
    Except Abort (BlockGroup ε X) :=
  match g.blocks.find? b with
  | none => .ok g
  | some block =>
    match block.exprs.mapM clone with
    | none => .error .innerBlocks
    | some exprs =>
      let (g, cpBlock) := copyBlock g block exprs
      .ok (g.replaceOperand pred b cpBlock)

/-- Every predecessor but the last one gets a copy of the block. -/
def mergeForInCondBlock (clone : X → Option X) (g : BlockGroup ε X) (b : BlockId) :
    Except Abort (BlockGroup ε X) :=
  match g.blocks.find? b with
  | none => .ok g
  | some block =>
    if block.predecessors = [] then .error .noPredecessor
    else do
      let g ← block.predecessors.dropLast.foldlM (copyFor clone b) g
      .ok (g.modifyBlock b fun block => { block with generatedFromForIn := false })

/-! ## Conditions -/

def skipMergeBlock (opts : GlobalOptions) (block : Block ε X) : Bool :=
  if block.unreachable || block.matchPattern then true
  else if !opts.enableCompileDebug then false
  else block.terminator.any fun t => !t.debugLocation.isInvalidPos

/-- Whether a terminator is a GoTo that merging may remove. -/
def removableGoTo (opts : GlobalOptions) (terminator : Option (Terminator ε)) : Bool :=
  terminator.any fun t =>
    t.control.isGoTo &&
      if opts.enableCompileDebug || opts.enableCoverage then
        t.debugLocation.beginPos.line == 0 && t.debugLocation.beginPos.column == 0
      else true

/-- The only predecessor of a block, if the block can be merged into it. -/
def checkSingleEntrySingleExit (opts : GlobalOptions) (g : BlockGroup ε X) (block : Block ε X) :
    Option BlockId :=
  if skipMergeBlock opts block then none
  else
    match block.predecessors with
    | [pred] =>
      match g.blocks.find? pred with
      | none => none
      | some predBlock =>
        if predBlock.getSuccessors.length ≠ 1 then none
        else if removableGoTo opts predBlock.terminator then some pred
        else none
    | _ => none

def checkGotoOnly (opts : GlobalOptions) (g : BlockGroup ε X) (b : BlockId)
    (block : Block ε X) : Bool :=
  if block.numExpressions ≠ 1 ∨ g.entryBlock = some b ∨ skipMergeBlock opts block = true then false
  else
    match block.terminator with
    | none => false
    | some t =>
      if !t.control.isGoTo then false
      else if b ∈ block.predecessors then false
      else removableGoTo opts block.terminator

/-! ## The pass -/

/-- What the pass does in the block groups of an expression, and whether it left them as they
are, and the copy of an expression. -/
structure Inner (X : Type) where
  visit : X → Except Abort (X × Bool)
  clone : X → Option X

variable (opts : GlobalOptions) (inner : Inner X)

/-- The rule for a block, if one applies. -/
def applyRule (g : BlockGroup ε X) (b : BlockId) (block : Block ε X) :
    Except Abort (BlockGroup ε X × Bool) :=
  if block.generatedFromForIn then
    (mergeForInCondBlock inner.clone g b).map fun g => (g, false)
  else
    match checkSingleEntrySingleExit opts g block with
    | some pred => .ok (mergeIntoPredecessor g b pred, false)
    | none =>
      if checkGotoOnly opts g b block then .ok (mergeGotoOnlyBlock g b, false)
      else .ok (g, true)

/-- Visits one after the other, and whether all of them left things as they are. -/
def visitEach {α : Type} (visit : α → Except Abort (α × Bool)) :
    List α → Except Abort (List α × Bool)
  | [] => .ok ([], true)
  | a :: as => do
    let (a, stable) ← visit a
    let (as, stables) ← visitEach visit as
    .ok (a :: as, stable && stables)

/-- A visit of the expressions of a block, if the block is still there. -/
def visitExpressions (g : BlockGroup ε X) (b : BlockId) : Except Abort (BlockGroup ε X × Bool) :=
  match g.blocks.find? b with
  | none => .ok (g, true)
  | some block => do
    let (exprs, stable) ← visitEach inner.visit block.exprs
    .ok (g.modifyBlock b fun block => { block with exprs := exprs }, stable)

/-- A visit of a block: a rule, and then what is in its expressions. -/
def visitBlock (g : BlockGroup ε X) (b : BlockId) : Except Abort (BlockGroup ε X × Bool) :=
  match g.blocks.find? b with
  | none => .ok (g, true)
  | some block => do
    let (g, stable) ← applyRule opts inner g b block
    let (g, stables) ← visitExpressions inner g b
    .ok (g, stable && stables)

def visitBlocks : List BlockId → BlockGroup ε X → Except Abort (BlockGroup ε X × Bool)
  | [], g => .ok (g, true)
  | b :: bs, g => do
    let (g, stable) ← visitBlock opts inner g b
    let (g, stables) ← visitBlocks bs g
    .ok (g, stable && stables)

/-- A visit of the blocks that a group has at its beginning. -/
def visitGroup (g : BlockGroup ε X) : Except Abort (BlockGroup ε X × Bool) :=
  visitBlocks opts inner (g.blocks.entries.map Prod.fst) g

/-! ## Expressions with block groups -/

/-- Expressions with block groups up to a depth. -/
def Expression (ε : Type) : ℕ → Type
  | 0 => ε
  | depth + 1 => ε × List (BlockGroup ε (Expression ε depth))

/-- The inner visit and the copy at a depth.  The copy of an expression with block groups is left
out: in the source its inner blocks go on to the blocks they are copied from. -/
def innerAt : (depth : ℕ) → Inner (Expression ε depth)
  | 0 => { visit := fun e => .ok (e, true), clone := some }
  | depth + 1 =>
    { visit := fun e => do
        let (groups, stable) ← visitEach (visitGroup opts (innerAt depth)) e.2
        .ok ((e.1, groups), stable)
      clone := fun e => if e.2.isEmpty then some e else none }

/-- The pass on the body of a function, in fewer than `fuel` rounds. -/
def runOnFunc (depth : ℕ) : ℕ → BlockGroup ε (Expression ε depth) →
    Option (Except Abort (BlockGroup ε (Expression ε depth)))
  | 0, _ => none
  | fuel + 1, body =>
    match visitGroup opts (innerAt opts depth) body with
    | .error a => some (.error a)
    | .ok (body, isStable) => if isStable then some (.ok body) else runOnFunc depth fuel body

end Cangjie.CHIR.MergeBlocks
