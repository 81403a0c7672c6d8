import CangjieCompiler.CHIR.Analysis.ActiveStatePool
import CangjieCompiler.Foundations.LinkedChain

/-!
# The active pool with its nodes

The members of the pool as the source has them: the map of the values, the map of the nodes, and
the links to the first and to the last node.  The nodes of all pools are in one heap, and the map of
the nodes gives a key the address of its node.

An operation is `none` where the source would follow a null link or a link to a node that is gone,
or would not find a key that it asks a map for.  A move leaves both maps empty.  The node that an
insertion returns is left out.
-/

namespace Cangjie.CHIR

open LinkedChain

/-- The members of `ActiveStatePool`. -/
structure LinkedStatePool (V : Type) where
  data : OrderedMap Value (ValueDomain V)
  obj2StateNode : OrderedMap Value ℕ
  first : Option ℕ
  tails : Option ℕ

namespace LinkedStatePool

variable {V : Type}

def empty : LinkedStatePool V := ⟨OrderedMap.empty, OrderedMap.empty, none, none⟩

/-- The nodes of a pool freed, as they are when the map of the nodes is cleared. -/
def freeNodes (heap : Heap Value) (p : LinkedStatePool V) : Heap Value :=
  heap.freeAll (p.obj2StateNode.entries.map Prod.snd)

/-! ## Insertion -/

/-- One round of the loop of `CheckPoolOverflow`. -/
def evictFirst (heap : Heap Value) (p : LinkedStatePool V) :
    Option (Heap Value × LinkedStatePool V) := do
  let stateFirst ← p.first
  let node ← heap.nodes stateFirst
  let next ← node.next
  let nextNode ← heap.nodes next
  let heap := heap.write next { nextNode with prev := none }
  let obj := node.value
  let heap :=
    match p.obj2StateNode.find? obj with
    | some a => heap.free a
    | none => heap
  return (heap,
    { p with
      data := p.data.erase obj
      obj2StateNode := p.obj2StateNode.erase obj
      first := some next })

/-- The loop of `CheckPoolOverflow`, with a bound on the number of rounds. -/
def evictLoop : ℕ → Heap Value → LinkedStatePool V → Option (Heap Value × LinkedStatePool V)
  | 0, heap, p => if BASE_STATE_POOL_SIZE < p.data.size then none else some (heap, p)
  | rounds + 1, heap, p =>
    if BASE_STATE_POOL_SIZE < p.data.size then do
      let (heap, p) ← evictFirst heap p
      evictLoop rounds heap p
    else some (heap, p)

/-- `CheckPoolOverflow`; every round removes an entry. -/
def checkPoolOverflow (heap : Heap Value) (p : LinkedStatePool V) :
    Option (Heap Value × LinkedStatePool V) :=
  if p.data.size < MAX_STATE_POOL_SIZE then some (heap, p)
  else evictLoop p.data.size heap p

/-- `obj2StateNode[obj] = node`: the heap, the map and the address of the node. -/
def assignNode (heap : Heap Value) (nodeMap : OrderedMap Value ℕ) (obj : Value)
    (node : Node Value) : Heap Value × OrderedMap Value ℕ × ℕ :=
  match nodeMap.find? obj with
  | some a => (heap.write a node, nodeMap, a)
  | none => (heap.alloc node, nodeMap.emplace obj heap.nextAddress, heap.nextAddress)

def insert (heap : Heap Value) (p : LinkedStatePool V) (obj : Value) (domain : ValueDomain V) :
    Option (Heap Value × LinkedStatePool V) :=
  if p.data.find? obj ≠ none then (p.obj2StateNode.find? obj).map fun _ => (heap, p)
  else
    let (heap, nodeMap, stateNode) := assignNode heap p.obj2StateNode obj ⟨p.tails, none, obj⟩
    let data := p.data.emplace obj domain
    match p.tails with
    | none =>
      if p.first = none then
        checkPoolOverflow heap ⟨data, nodeMap, some stateNode, some stateNode⟩
      else none
    | some tails => do
      let last ← heap.nodes tails
      let heap := heap.write tails { last with next := some stateNode }
      checkPoolOverflow heap ⟨data, nodeMap, p.first, some stateNode⟩

def emplace (heap : Heap Value) (p : LinkedStatePool V) (obj : Value) (domain : ValueDomain V) :
    Option (Heap Value × LinkedStatePool V) :=
  insert heap p obj domain

/-! ## Joins -/

section Join

variable [AbstractValue V]

/-- One entry of the operand. -/
def joinEntry (heap : Heap Value) (p : LinkedStatePool V) (e : Value × ValueDomain V) :
    Option (Heap Value × LinkedStatePool V × Bool) :=
  match p.data.find? e.1 with
  | some d =>
    some (heap, { p with data := p.data.modify e.1 fun _ => (d.join e.2).1 }, (d.join e.2).2)
  | none =>
    if e.2.isRef then some (heap, p, false)
    else (insert heap p e.1 e.2).map fun (heap, p) => (heap, p, false)

/-- The second loop of `Join`. -/
def joinLoop (heap : Heap Value) (p : LinkedStatePool V) :
    List (Value × ValueDomain V) → Option (Heap Value × LinkedStatePool V × Bool)
  | [] => some (heap, p, false)
  | e :: es => do
    let (heap, p, changed) ← joinEntry heap p e
    let (heap, p, rest) ← joinLoop heap p es
    return (heap, p, changed || rest)

end Join

/-- The first loop of `Join`. -/
def untrustRefs (p : LinkedStatePool V) : LinkedStatePool V :=
  { p with data := p.data.mapValues ActiveStatePool.untrusted }

/-! ## Copies -/

/-- `obj2StateNode = other.obj2StateNode`: a node of its own for every entry, with the links of the
old one. -/
def copyNodes (heap : Heap Value) (nodeMap : OrderedMap Value ℕ) :
    List (Value × ℕ) → Option (Heap Value × OrderedMap Value ℕ)
  | [] => some (heap, nodeMap)
  | (k, a) :: es => do
    let node ← heap.nodes a
    copyNodes (heap.alloc node) (nodeMap.emplace k heap.nextAddress) es

/-- `&obj2StateNode.at(link->value)` -/
def targetOf (heap : Heap Value) (nodeMap : OrderedMap Value ℕ) (link : ℕ) : Option ℕ := do
  let node ← heap.nodes link
  nodeMap.find? node.value

/-- A link of the new node at `b` set to the copy of the node that a link of the old node leads
to, unless that link is null. -/
def setLink (heap : Heap Value) (nodeMap : OrderedMap Value ℕ) (b : ℕ) (link : Option ℕ)
    (set : ℕ → Node Value → Node Value) : Option (Heap Value) :=
  match link with
  | none => some heap
  | some a => do
    let target ← targetOf heap nodeMap a
    let newNode ← heap.nodes b
    return heap.write b (set target newNode)

/-- The loop of a copy over the keys of the operand. -/
def relink (heap : Heap Value) (nodeMap other : OrderedMap Value ℕ) :
    List Value → Option (Heap Value)
  | [] => some heap
  | k :: ks => do
    let b ← nodeMap.find? k
    let a ← other.find? k
    let node ← heap.nodes a
    let heap ← setLink heap nodeMap b node.prev fun target n => { n with prev := some target }
    let heap ← setLink heap nodeMap b node.next fun target n => { n with next := some target }
    relink heap nodeMap other ks

/-- What the copy constructor and the copy assignment make of a pool after `init`. -/
def copyFrom (heap : Heap Value) (other : LinkedStatePool V) :
    Option (Heap Value × LinkedStatePool V) :=
  match other.first with
  | none => some (heap, empty)
  | some otherFirst => do
    let (heap, nodeMap) ← copyNodes heap OrderedMap.empty other.obj2StateNode.entries
    let heap ← relink heap nodeMap other.obj2StateNode (other.data.entries.map Prod.fst)
    let first ← targetOf heap nodeMap otherFirst
    match other.tails with
    | none => return (heap, ⟨other.data, nodeMap, some first, none⟩)
    | some otherTails => do
      let tails ← targetOf heap nodeMap otherTails
      return (heap, ⟨other.data, nodeMap, some first, some tails⟩)

end LinkedStatePool

/-! ## Operations on pools -/

/-- The heap and all pools; a pool that nothing has happened to is empty. -/
structure PoolWorld (V : Type) where
  heap : Heap Value
  pools : ℕ → LinkedStatePool V

/-- The operations on pools.  A join visits the entries of its operand in some order. -/
inductive PoolOperation (V : Type) where
  | insert (this : ℕ) (obj : Value) (domain : ValueDomain V)
  | emplace (this : ℕ) (obj : Value) (domain : ValueDomain V)
  | join (this other : ℕ) (visit : List (Value × ValueDomain V) → List (Value × ValueDomain V))
    (isPerm : ∀ es, (visit es).Perm es)
  | copyConstruct (this other : ℕ) (isNew : this ≠ other)
  | copyAssign (this other : ℕ)
  | moveConstruct (this other : ℕ) (isNew : this ≠ other)
  | moveAssign (this other : ℕ) (isNew : this ≠ other)

namespace PoolWorld

open LinkedStatePool

variable {V : Type}

def initial : PoolWorld V := ⟨Heap.empty, fun _ => LinkedStatePool.empty⟩

def set (w : PoolWorld V) (this : ℕ) (out : Heap Value × LinkedStatePool V) : PoolWorld V :=
  ⟨out.1, Function.update w.pools this out.2⟩

/-- A copy into a pool, whose old nodes are freed first. -/
def copyInto (w : PoolWorld V) (this other : ℕ) : Option (PoolWorld V) :=
  let cleared := w.set this (freeNodes w.heap (w.pools this), LinkedStatePool.empty)
  (copyFrom cleared.heap (cleared.pools other)).map (cleared.set this)

/-- A move into a pool, whose old nodes are freed. -/
def moveInto (w : PoolWorld V) (this other : ℕ) : PoolWorld V :=
  let moved := w.set this (freeNodes w.heap (w.pools this), w.pools other)
  moved.set other (moved.heap, LinkedStatePool.empty)

/-- A join of two pools, which may be one pool. -/
def joinInto [AbstractValue V] (w : PoolWorld V) (this other : ℕ)
    (visit : List (Value × ValueDomain V) → List (Value × ValueDomain V)) :
    Option (PoolWorld V × Bool) :=
  let trusted := w.set this (w.heap, (w.pools this).untrustRefs)
  (joinLoop trusted.heap (trusted.pools this) (visit (trusted.pools other).data.entries)).map
    fun (heap, p, changed) => (trusted.set this (heap, p), changed)

def step [AbstractValue V] (w : PoolWorld V) : PoolOperation V → Option (PoolWorld V)
  | .insert this obj domain => (insert w.heap (w.pools this) obj domain).map (w.set this)
  | .emplace this obj domain => (emplace w.heap (w.pools this) obj domain).map (w.set this)
  | .join this other visit _ => (w.joinInto this other visit).map Prod.fst
  | .copyConstruct this other _ => w.copyInto this other
  | .copyAssign this other => w.copyInto this other
  | .moveConstruct this other _ => some (w.moveInto this other)
  | .moveAssign this other _ => some (w.moveInto this other)

def run [AbstractValue V] (w : PoolWorld V) : List (PoolOperation V) → Option (PoolWorld V)
  | [] => some w
  | op :: ops => (w.step op).bind fun w' => w'.run ops

end PoolWorld

end Cangjie.CHIR
