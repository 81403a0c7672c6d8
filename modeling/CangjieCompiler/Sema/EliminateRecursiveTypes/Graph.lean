import CangjieCompiler.Foundations.OrderedSet
import CangjieCompiler.Foundations.StateInvariant
import CangjieCompiler.Foundations.TarjanCorrect
import Mathlib

/-!
# The graph of value types

Structs and enums contain the types of their fields and constructor parameters by value.  A cycle
of containment through an enum is broken by boxing the enum: fields of its type get its reference
type instead.  Which enums are boxed is decided on a graph of the declarations, by components, and
in each by the number of arcs into an enum.

Declarations are ordered by their packages and positions; the order is a parameter here.
-/

namespace Cangjie.EliminateRecursiveTypes

variable {δ : Type}

/-! ## Types and declarations -/

/-- A type.  The type of a struct or an enum without type arguments is given by its declaration. -/
inductive Ty (δ : Type) where
  | primitive (name : String)
  | reference (name : String)
  | value (decl : δ)
  | refEnum (decl : δ)
  | tuple (typeArgs : List (Ty δ))

/-- A member of a struct; it is a field if it is a variable that is not static. -/
structure Member (δ : Type) where
  isVarDecl : Bool
  isStatic : Bool
  ty : Ty δ

/-- A constructor of an enum, with or without parameters. -/
inductive Constructor (δ : Type) where
  | varDecl
  | funcDecl (params : List (Ty δ))

inductive Decl (δ : Type) where
  | structDecl (decls : List (Member δ))
  | enumDecl (constructors : List (Constructor δ))

namespace Decl

/-- A member that the containment counts. -/
def isField (m : Member δ) : Bool := m.isVarDecl && !m.isStatic

/-- The types of the parameters of a constructor. -/
def paramTys : Constructor δ → List (Ty δ)
  | .varDecl => []
  | .funcDecl params => params

/-- The types of the fields of a struct or of the constructor parameters of an enum. -/
def fieldTys : Decl δ → List (Ty δ)
  | structDecl decls => (decls.filter isField).map Member.ty
  | enumDecl constructors => constructors.flatMap paramTys

def isEnum : Decl δ → Bool
  | structDecl _ => false
  | enumDecl _ => true

/-- The types of the fields replaced by what a function makes of them. -/
def mapFieldTys (f : Ty δ → Ty δ) : Decl δ → Decl δ
  | structDecl decls => structDecl (decls.map fun m => if isField m then { m with ty := f m.ty } else m)
  | enumDecl constructors => enumDecl (constructors.map fun
    | .varDecl => .varDecl
    | .funcDecl params => .funcDecl (params.map f))

end Decl

/-! ## The graph -/

variable [LinearOrder δ]

/-- The vertices, the arcs by their sources, and the arcs into enums by their targets. -/
structure Graph (δ : Type) [LinearOrder δ] where
  vertices : OrderedSet δ
  outEdges : OrderedMap δ (OrderedSet δ)
  enumInEdges : OrderedMap δ (OrderedSet δ)

namespace Graph

def empty : Graph δ := ⟨OrderedSet.empty, OrderedMap.empty, OrderedMap.empty⟩

/-- The declarations an arc leads to. -/
def out (g : Graph δ) (u : δ) : List δ := (g.outEdges.valueD u OrderedSet.empty).elems

/-- The declarations with an arc to an enum. -/
def inEdges (g : Graph δ) (ed : δ) : OrderedSet δ := g.enumInEdges.valueD ed OrderedSet.empty

variable (isEnum : δ → Bool)

def addVertex (v : δ) (g : Graph δ) : Graph δ where
  vertices := g.vertices.insert v
  outEdges := g.outEdges.emplace v OrderedSet.empty
  enumInEdges := if isEnum v then g.enumInEdges.emplace v OrderedSet.empty else g.enumInEdges

def addArc (u v : δ) (g : Graph δ) : Graph δ :=
  let g := (g.addVertex isEnum u).addVertex isEnum v
  { g with
    outEdges := g.outEdges.modify u fun s => s.insert v
    enumInEdges := if isEnum v then g.enumInEdges.modify v fun s => s.insert u else g.enumInEdges }

mutual

/-- The arcs from a declaration for one of its fields. -/
def addArcs (u : δ) : Ty δ → Graph δ → Graph δ
  | .value v, g => g.addArc isEnum u v
  | .refEnum v, g => g.addArc isEnum u v
  | .tuple typeArgs, g => addArcsAll u typeArgs g
  | .primitive _, g => g
  | .reference _, g => g

def addArcsAll (u : δ) : List (Ty δ) → Graph δ → Graph δ
  | [], g => g
  | t :: ts, g => addArcsAll u ts (addArcs u t g)

end

/-- The graph of declarations. -/
def ofDecls (decls : OrderedMap δ (Decl δ)) : Graph δ :=
  decls.entries.foldl (fun g e => addArcsAll isEnum e.1 e.2.fieldTys g) empty

/-- Declarations are compared by their order. -/
local instance lawfulBEq : LawfulBEq δ := inferInstance

/-- The part of a graph that some vertices induce. -/
def subGraph (g : Graph δ) (subVertices : List δ) : Graph δ :=
  g.outEdges.entries.foldl (fun sub e =>
    if e.1 ∈ subVertices then
      e.2.elems.foldl (fun sub v => if v ∈ subVertices then sub.addArc isEnum e.1 v else sub)
        (sub.addVertex isEnum e.1)
    else sub) empty

/-- The enum with the most arcs into it, the first of them if there are several, if any enum has an
arc into it. -/
def peekEnumToBox (g : Graph δ) : Option δ :=
  (g.enumInEdges.entries.foldl (fun (best : Option δ × ℕ) e =>
    if best.2 < e.2.elems.length then (some e.1, e.2.elems.length) else best) (none, 0)).1

/-- An enum removed with the arcs into it and from it.  It stays among the sources of arcs into
other enums. -/
def removeVertex (ed : δ) (g : Graph δ) : Graph δ where
  vertices := g.vertices.filter fun u => u ≠ ed
  outEdges := ((g.inEdges ed).elems.foldl (fun out u =>
    out.modify u fun s => s.filter fun v => v ≠ ed) g.outEdges).erase ed
  enumInEdges := g.enumInEdges.erase ed

end Graph

/-! ## Components -/

/-- The counter, the stack with its top first, the maps, and the components so far. -/
structure TarjanContext (δ : Type) [LinearOrder δ] where
  index : ℕ
  stack : List δ
  indices : OrderedMap δ ℕ
  lowlinks : OrderedMap δ ℕ
  onStack : OrderedMap δ Bool
  sccs : List (Graph δ)

namespace TarjanContext

def start : TarjanContext δ := ⟨0, [], OrderedMap.empty, OrderedMap.empty, OrderedMap.empty, []⟩

def push (u : δ) (ctx : TarjanContext δ) : TarjanContext δ :=
  { ctx with
    indices := ctx.indices.assign u ctx.index
    lowlinks := ctx.lowlinks.assign u ctx.index
    index := ctx.index + 1
    stack := u :: ctx.stack
    onStack := ctx.onStack.assign u true }

/-- A low link lowered to a bound. -/
def lower (u : δ) (k : ℕ) (ctx : TarjanContext δ) : TarjanContext δ :=
  { ctx with lowlinks := ctx.lowlinks.assign u (min (ctx.lowlinks.valueD u 0) k) }

end TarjanContext

namespace Graph

variable (isEnum : δ → Bool) (g : Graph δ)

/-- The component of `u` taken off the stack. -/
def popComponent (u : δ) (ctx : TarjanContext δ) : TarjanContext δ :=
  match Tarjan.State.popTo u ctx.stack ctx.onStack with
  | (subVertices, onStack, stack) =>
    { ctx with
      stack := stack
      onStack := onStack
      sccs := ctx.sccs ++ [g.subGraph isEnum subVertices] }

/-- What is done with one target of an arc from `u`. -/
def visitTarget (tarjanSCC : δ → TarjanContext δ → Option (TarjanContext δ)) (u v : δ)
    (ctx : TarjanContext δ) : Option (TarjanContext δ) :=
  if ctx.indices.find? v = none then
    (tarjanSCC v ctx).map fun ctx => ctx.lower u (ctx.lowlinks.valueD v 0)
  else if ctx.onStack.valueD v false then some (ctx.lower u (ctx.indices.valueD v 0))
  else some ctx

def visitTargets (tarjanSCC : δ → TarjanContext δ → Option (TarjanContext δ)) (u : δ) :
    List δ → TarjanContext δ → Option (TarjanContext δ)
  | [], ctx => some ctx
  | v :: vs, ctx => (visitTarget tarjanSCC u v ctx).bind (visitTargets tarjanSCC u vs)

/-- The visit of a vertex, with a bound on how deep visits may nest. -/
def tarjanSCC : ℕ → δ → TarjanContext δ → Option (TarjanContext δ)
  | 0, _, _ => none
  | n + 1, u, ctx =>
    (visitTargets (tarjanSCC n) u (g.out u) (ctx.push u)).map fun ctx =>
      if ctx.lowlinks.valueD u 0 = ctx.indices.valueD u 0 then g.popComponent isEnum u ctx else ctx

/-- The visits of all vertices that were not visited before. -/
def visitVertices : List δ → TarjanContext δ → Option (TarjanContext δ)
  | [], ctx => some ctx
  | u :: us, ctx =>
    (if ctx.indices.find? u = none then g.tarjanSCC isEnum g.vertices.elems.length u ctx
      else some ctx).bind (visitVertices us)

def stronglyConnectedComponents : Option (List (Graph δ)) :=
  (g.visitVertices isEnum g.vertices.elems TarjanContext.start).map TarjanContext.sccs

end Graph

/-! ## Boxing -/

/-- The type of the fields that are boxed. -/
def Ty.isSpecified (ed : δ) : Ty δ → Bool
  | .value d => d = ed
  | _ => false

/-- A type with an enum boxed: as a whole, or as an element of a tuple. -/
def checkAndUpdateTy (ed : δ) : Ty δ → Ty δ
  | .tuple typeArgs =>
    if typeArgs.any (Ty.isSpecified ed) then
      .tuple (typeArgs.map fun t => if t.isSpecified ed then .refEnum ed else t)
    else .tuple typeArgs
  | t => if t.isSpecified ed then .refEnum ed else t

def updateMemberVariableTy (decls : OrderedMap δ (Decl δ)) (u ed : δ) : OrderedMap δ (Decl δ) :=
  decls.modify u (Decl.mapFieldTys (checkAndUpdateTy ed))

/-- The components are taken from the top of a stack until it is empty, with a bound on the number
of steps. -/
def eliminateLoop (isEnum : δ → Bool) :
    ℕ → List (Graph δ) → OrderedMap δ (Decl δ) → Option (OrderedMap δ (Decl δ))
  | 0, _, _ => none
  | _ + 1, [], decls => some decls
  | n + 1, scc :: sccs, decls =>
    match scc.peekEnumToBox with
    | none => eliminateLoop isEnum n sccs decls
    | some ed =>
      ((scc.removeVertex ed).stronglyConnectedComponents isEnum).bind fun subSCCs =>
        eliminateLoop isEnum n (subSCCs.reverse ++ sccs)
          ((scc.inEdges ed).elems.foldl (fun decls u => updateMemberVariableTy decls u ed) decls)

/-- The kind of a declaration. -/
def isEnumDecl (decls : OrderedMap δ (Decl δ)) (v : δ) : Bool :=
  (decls.find? v).elim false Decl.isEnum

/-- The declarations with recursive types eliminated. -/
def performRecursiveTypesElimination (decls : OrderedMap δ (Decl δ)) :
    Option (OrderedMap δ (Decl δ)) :=
  let isEnum := isEnumDecl decls
  let graph := Graph.ofDecls isEnum decls
  (graph.stronglyConnectedComponents isEnum).bind fun sccs =>
    eliminateLoop isEnum (2 * graph.vertices.elems.length + 1) sccs.reverse decls

end Cangjie.EliminateRecursiveTypes
