import CangjieCompiler.Foundations.OrderedMap
import Mathlib.Data.Nat.Basic
import Mathlib.Logic.Relation

/-!
# Block groups

Blocks end in a terminator that names their successors, and know their predecessors.  The
operations that add, move and remove terminators and blocks keep both in step.

Blocks are numbered in the order of their group.  Expressions that are not terminators are left
open, and of a terminator other than GoTo only its successors are known.
-/

namespace Cangjie.CHIR.IR

variable {ε X : Type}

/-! ## Data -/

structure Position where
  line : ℕ
  column : ℕ
deriving DecidableEq

structure DebugLocation where
  beginPos : Position
  endPos : Position
deriving DecidableEq

def DebugLocation.INVALID_LOCATION : DebugLocation where
  beginPos := { line := 0, column := 0 }
  endPos := { line := 0, column := 0 }

def DebugLocation.isInvalidPos (l : DebugLocation) : Bool :=
  l.beginPos.line == 0 || l.beginPos.column == 0 || l.endPos.line == 0 || l.endPos.column == 0

inductive SkipKind
  | NO_SKIP
  | SKIP_DCE_WARNING
  | SKIP_FORIN_EXIT
  | SKIP_VIC
deriving DecidableEq

abbrev BlockId := ℕ

/-- What a terminator does: it goes to its successor, or it executes an expression and goes to one
of its successors. -/
inductive Control (ε : Type)
  | GOTO (destination : BlockId)
  | other (label : ε) (successors : List BlockId)

namespace Control

def successors : Control ε → List BlockId
  | GOTO destination => [destination]
  | other _ successors => successors

/-- One block taken in place of another one as successor. -/
def replace (old new : BlockId) : Control ε → Control ε
  | GOTO destination => GOTO (if destination = old then new else destination)
  | other label successors => other label (successors.map fun s => if s = old then new else s)

def isGoTo : Control ε → Bool
  | GOTO _ => true
  | other _ _ => false

end Control

structure Terminator (ε : Type) where
  control : Control ε
  debugLocation : DebugLocation
  skipCheck : SkipKind

/-- A block, its terminator apart from the expressions before it. -/
structure Block (ε X : Type) where
  exprs : List X
  terminator : Option (Terminator ε)
  predecessors : List BlockId
  unreachable : Bool
  matchPattern : Bool
  generatedFromForIn : Bool
  debugLocation : DebugLocation
  skipCheck : SkipKind

namespace Block

def getSuccessors (block : Block ε X) : List BlockId :=
  match block.terminator with
  | none => []
  | some t => t.control.successors

/-- The number of expressions, with the terminator. -/
def numExpressions (block : Block ε X) : ℕ :=
  block.exprs.length + block.terminator.toList.length

end Block

structure BlockGroup (ε X : Type) where
  entryBlock : Option BlockId
  blocks : OrderedMap BlockId (Block ε X)

namespace BlockGroup

variable (g : BlockGroup ε X)

/-! ## Operations -/

def modifyBlock (b : BlockId) (f : Block ε X → Block ε X) : BlockGroup ε X :=
  { g with blocks := g.blocks.modify b f }

/-- A new block at the end of the group, and its number. -/
def createBlock : BlockGroup ε X × BlockId :=
  let b := (g.blocks.entries.map Prod.fst).foldr max 0 + 1
  let block : Block ε X :=
    { exprs := [], terminator := none, predecessors := [], unreachable := false,
      matchPattern := false, generatedFromForIn := false,
      debugLocation := DebugLocation.INVALID_LOCATION, skipCheck := .NO_SKIP }
  ({ g with blocks := g.blocks.emplace b block }, b)

def addPredecessor (b pred : BlockId) : BlockGroup ε X :=
  g.modifyBlock b fun block =>
    if pred ∈ block.predecessors then block
    else { block with predecessors := block.predecessors ++ [pred] }

def removePredecessor (b pred : BlockId) : BlockGroup ε X :=
  g.modifyBlock b fun block =>
    { block with predecessors := block.predecessors.filter fun p => p ≠ pred }

def appendExpressions (b : BlockId) (exprs : List X) : BlockGroup ε X :=
  g.modifyBlock b fun block => { block with exprs := block.exprs ++ exprs }

/-- A terminator put at the end of a block that has none. -/
def appendTerminator (b : BlockId) (t : Terminator ε) : BlockGroup ε X :=
  t.control.successors.foldl (fun g suc => g.addPredecessor suc b)
    (g.modifyBlock b fun block => { block with terminator := some t })

/-- The terminator of a block taken out of it. -/
def removeTerminator (b : BlockId) : BlockGroup ε X :=
  match g.blocks.find? b with
  | none => g
  | some block =>
    (block.getSuccessors.foldl (fun g suc => g.removePredecessor suc b) g).modifyBlock b
      fun block => { block with terminator := none }

/-- One block taken in place of another one as successor of a block. -/
def replaceOperand (b old new : BlockId) : BlockGroup ε X :=
  match g.blocks.find? b with
  | none => g
  | some block =>
    if old = new ∨ old ∉ block.getSuccessors then g
    else
      ((g.modifyBlock b fun block =>
        { block with
          terminator := block.terminator.map fun t =>
            { t with control := t.control.replace old new } }).removePredecessor old b).addPredecessor
        new b

/-- A block taken out of its group, with its terminator. -/
def removeBlock (b : BlockId) : BlockGroup ε X :=
  let g := g.removeTerminator b
  { entryBlock := if g.entryBlock = some b then none else g.entryBlock
    blocks := g.blocks.erase b }

end BlockGroup

end Cangjie.CHIR.IR
