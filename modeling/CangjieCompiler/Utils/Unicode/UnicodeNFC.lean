import CangjieCompiler.Foundations.Iterator
import CangjieCompiler.Utils.Unicode.NormalForm

/-!
# Canonical decomposition and recomposition of strings

`CanonicalDecompose` and `CanonicalRecompose` over the tables of characters.  Both halves are
iterators with a buffer: `Decompositions` gives the characters of the decomposition in canonical
order, `Recompositions` composes them.

A string is the list of its scalar values.  Converting the decomposition back to UTF-8 skips a byte
order mark in front, composing converts one character at a time.
-/

namespace Cangjie.Unicode

namespace UnicodeData

variable (D : UnicodeData)

/-- The characters that are emitted for one character. -/
def decomposeCanonical (c : Char) : List Char :=
  -- ASCII never decomposes
  if c.toNat ≤ 0x7f then [c]
  else if isHangulSyllable c then decomposeHangul c
  else
    match D.decomposed c with
    | some d => d
    | none => [c]

def compose (a b : Char) : Option Char :=
  match composeHangul a b with
  | some h => some h
  | none => D.composition a b

end UnicodeData

/-! ## Decompositions -/

/-- Range class, upper exclusive. -/
structure Range where
  start : ℕ
  stop : ℕ

/-- The characters that are not yet read, those that are decomposed with their classes, and which
of these may be given. -/
structure Decompositions where
  cur : List Char
  buffer : List (ℕ × Char)
  ready : Range

namespace Decompositions

variable (D : UnicodeData)

def ofString (s : List Char) : Decompositions where
  cur := s
  buffer := []
  ready := { start := 0, stop := 0 }

def sortPending (d : Decompositions) : Decompositions :=
  if d.ready.stop < d.buffer.length then
    { d with
      buffer := d.buffer.take d.ready.stop ++ stableSort Prod.fst (d.buffer.drop d.ready.stop) }
  else d

def pushBack (d : Decompositions) (c : Char) : Decompositions :=
  let cc := D.ccc c
  if cc = 0 then
    let d := d.sortPending
    let buffer := d.buffer ++ [(cc, c)]
    { d with buffer := buffer, ready := { d.ready with stop := buffer.length } }
  else { d with buffer := d.buffer ++ [(cc, c)] }

def resetBuffer (d : Decompositions) : Decompositions :=
  { d with buffer := d.buffer.drop d.ready.stop, ready := { start := 0, stop := 0 } }

def incrementNextReady (d : Decompositions) : Decompositions :=
  let next := d.ready.start + 1
  if next = d.ready.stop then d.resetBuffer
  else { d with ready := { d.ready with start := next } }

/-- Reads characters until some are ready, or all are read. -/
def fillReady : List Char → Decompositions → Decompositions
  | [], d =>
    if d.ready.stop = 0 ∧ d.buffer ≠ [] then
      let d := d.sortPending
      { d with cur := [], ready := { d.ready with stop := d.buffer.length } }
    else { d with cur := [] }
  | codepoint :: cur, d =>
    if d.ready.stop = 0 then fillReady cur ((D.decomposeCanonical codepoint).foldl (pushBack D) d)
    else { d with cur := codepoint :: cur }

/-- The next character of the decomposition. -/
def next (d : Decompositions) : Option (Char × Decompositions) :=
  let d := fillReady D d.cur d
  if d.ready.stop = 0 then none
  else d.buffer[d.ready.start]?.map fun e => (e.2, d.incrementNextReady)

/-- The decomposition of a string, read in fewer than `fuel` steps. -/
def get (fuel : ℕ) (s : List Char) : Option (List Char) := drain (next D) fuel (ofString s)

end Decompositions

/-! ## Recompositions -/

inductive V
  | COMPOSING
  | PURGING
  | FINISHED

structure RecompositionState where
  sz : ℕ
  v : V

/-- The characters that are not yet composed, the starter before them with the marks that are not
composed with it, and the class of the last of these. -/
structure Recompositions where
  cur : List Char
  state : RecompositionState
  buffer : List Char
  composee : Option Char
  lastccc : Option ℕ

namespace Recompositions

variable (D : UnicodeData)

def ofSource (s : List Char) : Recompositions where
  cur := s
  state := { sz := 0, v := .COMPOSING }
  buffer := []
  composee := none
  lastccc := none

/-- The loop of the composing state: a character to give, or none at the end. -/
def composing : List Char → Recompositions → Option Char × Recompositions
  | [], r => (none, { r with cur := [] })
  | ch :: cur, r =>
    let cc := D.ccc ch
    match r.composee with
    | none =>
      if cc ≠ 0 then (some ch, { r with cur := cur })
      else composing cur { r with composee := some ch }
    | some k =>
      match r.lastccc with
      | none =>
        match D.compose k ch with
        | some comp => composing cur { r with composee := some comp }
        | none =>
          if cc = 0 then (some k, { r with cur := cur, composee := some ch })
          else composing cur { r with buffer := r.buffer ++ [ch], lastccc := some cc }
      | some lclass =>
        if lclass ≥ cc then
          -- ch is blocked from composee
          if cc = 0 then
            (some k, { r with
              cur := cur, composee := some ch, lastccc := none
              state := { sz := 0, v := .PURGING } })
          else composing cur { r with buffer := r.buffer ++ [ch], lastccc := some cc }
        else
          match D.compose k ch with
          | some comp => composing cur { r with composee := some comp }
          | none => composing cur { r with buffer := r.buffer ++ [ch], lastccc := some cc }

def nextFinished (r : Recompositions) : Option (Char × Recompositions) :=
  match r.buffer[r.state.sz]? with
  | none => r.composee.map fun comp => (comp, { r with buffer := [], composee := none })
  | some b => some (b, { r with state := { r.state with sz := r.state.sz + 1 } })

def nextComposing (r : Recompositions) : Option (Char × Recompositions) :=
  match composing D r.cur r with
  | (some ch, r) => some (ch, r)
  | (none, r) =>
    let r := { r with state := { sz := 0, v := .FINISHED } }
    match r.composee with
    | some b => some (b, { r with composee := none })
    | none => r.nextFinished

def nextPurging (r : Recompositions) : Option (Char × Recompositions) :=
  match r.buffer[r.state.sz]? with
  | none => nextComposing D { r with buffer := [], state := { r.state with v := .COMPOSING } }
  | some b => some (b, { r with state := { r.state with sz := r.state.sz + 1 } })

/-- The next character of the composition. -/
def next (r : Recompositions) : Option (Char × Recompositions) :=
  match r.state.v with
  | .COMPOSING => nextComposing D r
  | .PURGING => nextPurging D r
  | .FINISHED => r.nextFinished

/-- The composition of a decomposed string, read in fewer than `fuel` steps. -/
def get (fuel : ℕ) (source : List Char) : Option (List Char) :=
  drain (next D) fuel (ofSource source)

end Recompositions

/-! ## Strings -/

/-- The string of some characters. -/
def convertUTF32ToUTF8String : List Char → List Char
  | [] => []
  | c :: cs =>
    -- Skip the BOM for conversion
    if c = BYTE_ORDER_MARK then cs else c :: cs

def canonicalDecompose (D : UnicodeData) (fuel : ℕ) (s : List Char) : Option (List Char) := do
  let decomposed ← Decompositions.get D fuel s
  some (convertUTF32ToUTF8String decomposed)

def canonicalRecompose (D : UnicodeData) (fuel : ℕ) (s : List Char) : Option (List Char) := do
  let decomposed ← Decompositions.get D fuel s
  Recompositions.get D fuel decomposed

/-- The composition of the decomposition of a string. -/
def recomposeDecomposed (D : UnicodeData) (fuel : ℕ) (s : List Char) : Option (List Char) := do
  let decomposed ← canonicalDecompose D fuel s
  canonicalRecompose D fuel decomposed

end Cangjie.Unicode
