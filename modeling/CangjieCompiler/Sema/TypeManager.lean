import CangjieCompiler.Sema.Ty

/-!
# The type manager

The operations of the type manager on its table of types: making types, instantiating them,
substituting aliases, replacing ideal types, and the write of the comparison of class types.  What
they read of declarations is given with them.  The depth to which types are traversed is bounded by
fuel.

Null pointers, type variables that are released for reuse, and what is remembered about subtypes are
left out, since the table of types does not depend on them.
-/

namespace Cangjie

open AST

/-- What is read of declarations. -/
structure Decls where
  identifier : ℕ → String
  generic : ℕ → Bool
  typeParameters : ℕ → List TyPtr
  inReferenceCycle : ℕ → Bool
  ty : ℕ → TyPtr
  aliasedTy : ℕ → TyPtr
  aliasedHasAlias : ℕ → Bool

/-- The table of types. -/
abbrev TypeManager := Pool Ty

/-- A substitution of types for type variables. -/
abbrev TypeSubst := List (TyPtr × TyPtr)

namespace TypeManager

/-! ## Reading types -/

/-- The key of a node.  Types that exist once and for all have none. -/
def key? (tm : TypeManager) : TyPtr → Option (Option TyKey)
  | .static _ => some none
  | .allocated place => (tm.nodes[place]?).map fun ty => some ty.key

/-- The kind of a type. -/
def kind (tm : TypeManager) : TyPtr → Option TypeKind
  | .static kind => some kind
  | .allocated place => (tm.nodes[place]?).map fun ty => ty.key.kind

/-- A correct type has no invalid part. -/
def isTyCorrect (tm : TypeManager) : TyPtr → Option Bool
  | .static kind => some (decide (kind ≠ .TYPE_INVALID ∧ kind ≠ .TYPE_INITIAL))
  | .allocated place => (tm.nodes[place]?).map fun ty => !ty.invalid

/-- Whether a type has a generic part. -/
def hasGeneric (tm : TypeManager) : TyPtr → Option Bool
  | .static _ => some false
  | .allocated place => (tm.nodes[place]?).map fun ty => ty.generic

/-- The type arguments of a type. -/
def typeArgs (tm : TypeManager) : TyPtr → Option (List TyPtr)
  | .static _ => some []
  | .allocated place => (tm.nodes[place]?).map fun ty => ty.key.typeArgs

/-- A new node.  Its flags are set from those of its parts. -/
def newTy (tm : TypeManager) (key : TyKey) : Option Ty := do
  let corrects ← key.typeArgs.mapM tm.isTyCorrect
  let generics ← key.typeArgs.mapM tm.hasGeneric
  let isVariable : Bool := match key with
    | .func _ _ cfg => !cfg.isC && cfg.hasVariableLenArg
    | _ => false
  pure
    { key := key
      invalid := corrects.any (!·) || isVariable
      generic := generics.any id || decide (key.kind = .TYPE_GENERICS) }

section Operations

variable (hash : TyKey → ℕ)

/-! ## Making types -/

/-- The node with a key, which is made if there is none. -/
def getTypeTy (key : TyKey) : Prog TypeManager TyPtr := do
  let ty ← Prog.reads fun tm => newTy tm key
  fun tm => some (.allocated (tm.intern Ty.key hash ty).1, (tm.intern Ty.key hash ty).2)

def getGenericsTy (gpd : ℕ) : Prog TypeManager TyPtr := getTypeTy hash (.generics gpd)

/-- The type of a declaration. -/
def getNominalTy (ty : NominalTy) (decls : Decls) (decl : ℕ) (typeArgs : List TyPtr) :
    Prog TypeManager TyPtr :=
  getTypeTy hash (.nominal ty (decls.identifier decl) decl typeArgs)

def getEnumTy (decls : Decls) (ed : ℕ) (typeArgs : List TyPtr) : Prog TypeManager TyPtr :=
  getNominalTy hash .EnumTy decls ed typeArgs

def getRefEnumTy (decls : Decls) (ed : ℕ) (typeArgs : List TyPtr) : Prog TypeManager TyPtr :=
  getNominalTy hash .RefEnumTy decls ed typeArgs

def getClassTy (decls : Decls) (cd : ℕ) (typeArgs : List TyPtr) : Prog TypeManager TyPtr :=
  getNominalTy hash .ClassTy decls cd typeArgs

def getClassThisTy (decls : Decls) (cd : ℕ) (typeArgs : List TyPtr) : Prog TypeManager TyPtr :=
  getNominalTy hash .ClassThisTy decls cd typeArgs

def getInterfaceTy (decls : Decls) (id : ℕ) (typeArgs : List TyPtr) : Prog TypeManager TyPtr :=
  getNominalTy hash .InterfaceTy decls id typeArgs

def getStructTy (decls : Decls) (sd : ℕ) (typeArgs : List TyPtr) : Prog TypeManager TyPtr :=
  getNominalTy hash .StructTy decls sd typeArgs

def getTypeAliasTy (decls : Decls) (tad : ℕ) (typeArgs : List TyPtr) : Prog TypeManager TyPtr :=
  getNominalTy hash .TypeAliasTy decls tad typeArgs

/-- The type of arrays.  The dimensions of an array of arrays are added. -/
def getArrayTy (elemTy : TyPtr) (dims : BitVec 32) : Prog TypeManager TyPtr := do
  let correct ← Prog.reads fun tm => tm.isTyCorrect elemTy
  let key ← Prog.reads fun tm => tm.key? elemTy
  if correct then
    match key with
    | some (.array elemTy elemDims) => getTypeTy hash (.array elemTy (dims + elemDims))
    | _ => getTypeTy hash (.array elemTy dims)
  else getTypeTy hash (.array (.static .TYPE_INVALID) dims)

def getVArrayTy (elemTy : TyPtr) (size : BitVec 64) : Prog TypeManager TyPtr :=
  getTypeTy hash (.varray elemTy size)

def getPointerTy (elemTy : TyPtr) : Prog TypeManager TyPtr := do
  let correct ← Prog.reads fun tm => tm.isTyCorrect elemTy
  getTypeTy hash (.pointer (if correct then elemTy else .static .TYPE_INVALID))

def getTupleTy (typeArgs : List TyPtr) (isClosureTy : Bool) : Prog TypeManager TyPtr :=
  getTypeTy hash (.tuple typeArgs isClosureTy)

def getFunctionTy (paramTys : List TyPtr) (retTy : TyPtr) (cfg : FuncConfig) :
    Prog TypeManager TyPtr :=
  getTypeTy hash (.func paramTys retTy cfg)

def getIntersectionTy (tys : List TyPtr) : Prog TypeManager TyPtr :=
  getTypeTy hash (.intersection (PtrSet.ofList tys))

def getUnionTy (tys : List TyPtr) : Prog TypeManager TyPtr := getTypeTy hash (.union (PtrSet.ofList tys))

/-! ## Instantiating types -/

/-- Following a substitution from a type variable on.  What was used is erased from it. -/
def substituteTyVar (tm : TypeManager) : ℕ → TypeSubst → TyPtr → Option (TyPtr × TypeSubst)
  | 0, mapping, curTy => some (curTy, mapping)
  | n + 1, mapping, curTy =>
    match mapping.lookup curTy with
    | none => some (curTy, mapping)
    | some ty => do
      let mapping := mapping.filter fun entry => decide (entry.1 ≠ curTy)
      let kind ← tm.kind ty
      if kind = .TYPE_GENERICS then substituteTyVar tm n mapping ty else pure (ty, mapping)

/-- Instantiating a type. -/
def getInstantiatedTy (decls : Decls) : ℕ → TypeSubst → TyPtr → Prog TypeManager TyPtr
  | 0, _, _ => failure
  | fuel + 1, typeMapping, ty => do
    let correct ← Prog.reads fun tm => tm.isTyCorrect ty
    let key ← Prog.reads fun tm => tm.key? ty
    if !correct || typeMapping.isEmpty then pure ty
    else
      match key with
      | none => pure ty
      | some (.generics _) => do
        let (curTy, mapping) ← Prog.reads fun tm =>
          tm.substituteTyVar typeMapping.length typeMapping ty
        let kind ← Prog.reads fun tm => tm.kind curTy
        let generic ← Prog.reads fun tm => tm.hasGeneric curTy
        if !mapping.isEmpty && decide (kind ≠ .TYPE_GENERICS) && generic then
          getInstantiatedTy decls fuel mapping curTy
        else pure curTy
      | some (.func paramTys retTy cfg) => do
        let paramTys ← paramTys.mapM (getInstantiatedTy decls fuel typeMapping)
        let retTy ← getInstantiatedTy decls fuel typeMapping retTy
        getFunctionTy hash paramTys retTy { cfg with noCast := false }
      | some (.tuple typeArgs isClosureTy) => do
        let typeArgs ← typeArgs.mapM (getInstantiatedTy decls fuel typeMapping)
        getTupleTy hash typeArgs isClosureTy
      | some (.array elemTy dims) => do
        let elemTy ← getInstantiatedTy decls fuel typeMapping elemTy
        getArrayTy hash elemTy dims
      | some (.pointer elemTy) => do
        let elemTy ← getInstantiatedTy decls fuel typeMapping elemTy
        getPointerTy hash elemTy
      | some (.nominal nominal _ declPtr typeArgs) =>
        if nominal ≠ .TypeAliasTy ∧ decls.generic declPtr = false then pure ty
        else do
          let typeArgs ← typeArgs.mapM (getInstantiatedTy decls fuel typeMapping)
          getNominalTy hash nominal decls declPtr typeArgs
      | some (.intersection tys) => do
        let tys ← tys.tys.mapM (getInstantiatedTy decls fuel typeMapping)
        getIntersectionTy hash tys
      | some (.union tys) => do
        let tys ← tys.tys.mapM (getInstantiatedTy decls fuel typeMapping)
        getUnionTy hash tys
      -- Arrays of a fixed size are not instantiated.
      | some (.varray _ _) => pure ty

/-! ## Substituting aliases -/

/-- The substitution of the parameters of a declaration by type arguments. -/
def generateTypeMapping (decls : Decls) (decl : ℕ) (typeArgs : List TyPtr) (tm : TypeManager) :
    Option TypeSubst :=
  let params := decls.typeParameters decl
  if decls.generic decl ∧ params.length = typeArgs.length then
    (params.zip typeArgs).foldlM (fun mapping entry => do
      let paramCorrect ← tm.isTyCorrect entry.1
      let argCorrect ← tm.isTyCorrect entry.2
      let kind ← tm.kind entry.1
      if paramCorrect && argCorrect && decide (kind = .TYPE_GENERICS) then
        pure (entry :: mapping.filter fun e => decide (e.1 ≠ entry.1))
      else pure mapping) []
  else some []

/-- Substituting the aliases in a type. -/
def substituteTypeAliasInTy (decls : Decls) :
    ℕ → Bool → TypeSubst → TyPtr → Prog TypeManager TyPtr
  | 0, _, _, _ => failure
  | fuel + 1, needSubstituteGeneric, typeMapping, ty => do
    let correct ← Prog.reads fun tm => tm.isTyCorrect ty
    let key ← Prog.reads fun tm => tm.key? ty
    if !correct then pure (.static .TYPE_INVALID)
    else
      match key with
      | none => pure ty
      | some key => do
        let typeArgs ← key.typeArgs.mapM fun typeArg => do
          let correct ← Prog.reads fun tm => tm.isTyCorrect typeArg
          if correct || needSubstituteGeneric then
            substituteTypeAliasInTy decls fuel needSubstituteGeneric typeMapping typeArg
          else pure typeArg
        match key with
        | .nominal .ClassThisTy _ declPtr _ => getClassThisTy hash decls declPtr typeArgs
        | .nominal .ClassTy _ declPtr _ => getClassTy hash decls declPtr typeArgs
        | .nominal .StructTy _ declPtr _ => getStructTy hash decls declPtr typeArgs
        | .nominal .InterfaceTy _ declPtr _ => getInterfaceTy hash decls declPtr typeArgs
        | .nominal .EnumTy _ declPtr _ => getEnumTy hash decls declPtr typeArgs
        | .nominal .RefEnumTy _ declPtr _ => getEnumTy hash decls declPtr typeArgs
        | .func _ _ cfg =>
          getFunctionTy hash typeArgs.dropLast (typeArgs.getLastD (.static .TYPE_INVALID))
            { cfg with isClosureTy := false, noCast := false }
        | .nominal .TypeAliasTy _ declPtr _ =>
          if decls.inReferenceCycle declPtr then pure (decls.ty declPtr)
          else do
            let aliasMapping ← Prog.reads (generateTypeMapping decls declPtr typeArgs)
            let instAliasedTy ← getInstantiatedTy hash decls fuel aliasMapping (decls.aliasedTy declPtr)
            let kind ← Prog.reads fun tm => tm.kind instAliasedTy
            if decls.aliasedHasAlias declPtr || decide (kind = .TYPE) then
              substituteTypeAliasInTy decls fuel needSubstituteGeneric typeMapping instAliasedTy
            else pure instAliasedTy
        | .tuple _ _ => getTupleTy hash typeArgs false
        | .array _ dims => getArrayTy hash (typeArgs.headD (.static .TYPE_INVALID)) dims
        | .varray _ size => getVArrayTy hash (typeArgs.headD (.static .TYPE_INVALID)) size
        | .pointer _ => getPointerTy hash (typeArgs.headD (.static .TYPE_INVALID))
        | .generics _ =>
          if needSubstituteGeneric then
            match typeMapping.lookup ty with
            | some found => pure found
            | none => getIntersectionTy hash [ty]
          else pure ty
        | .intersection _ => pure ty
        | .union _ => pure ty

/-! ## Writes -/

/-- Overwriting a type argument of a node. -/
def setTypeArg (ty : TyPtr) (index : ℕ) (typeArg : TyPtr) : Prog TypeManager Unit := fun tm =>
  match ty with
  | .static _ => some ((), tm)
  | .allocated place => (tm.nodes[place]?).map fun node =>
      ((), tm.overwrite place { node with key := node.key.setTypeArg index typeArg })

/-- The kinds of which ideal type arguments are replaced. -/
def replacesIdealArgs (kind : TypeKind) : Bool :=
  kind ∈ [.TYPE_CLASS, .TYPE_INTERFACE, .TYPE_ENUM, .TYPE_ARRAY, .TYPE_POINTER, .TYPE_TUPLE]

/-- Replacing ideal types by the types of literals.  The type arguments of a type are overwritten
one after the other. -/
def replaceIdealTy : ℕ → TyPtr → Prog TypeManager TyPtr
  | 0, _ => failure
  | fuel + 1, ty => do
    let correct ← Prog.reads fun tm => tm.isTyCorrect ty
    let kind ← Prog.reads fun tm => tm.kind ty
    if !correct then pure ty
    else if kind = .TYPE_IDEAL_INT then pure (.static .TYPE_INT64)
    else if kind = .TYPE_IDEAL_FLOAT then pure (.static .TYPE_FLOAT64)
    else if replacesIdealArgs kind then do
      let typeArgs ← Prog.reads fun tm => tm.typeArgs ty
      (List.range typeArgs.length).forM fun index => do
        let typeArg ← Prog.reads fun tm => (tm.typeArgs ty).bind (·[index]?)
        let replaced ← replaceIdealTy fuel typeArg
        setTypeArg ty index replaced
      pure ty
    else pure ty

/-- The write of the comparison of class types, for partial aliases: an intersection type among the
type arguments of the root is overwritten by the type argument of the leaf.  That the one is a
subtype of the other is left open. -/
def setPartialAliasArg (decls : Decls) (leaf root : TyPtr) (index : ℕ) : Prog TypeManager TyPtr := do
  let leafKey ← Prog.reads fun tm => tm.key? leaf
  let rootKey ← Prog.reads fun tm => tm.key? root
  match leafKey, rootKey with
  | some (.nominal .InterfaceTy _ leafDecl leafArgs), some (.nominal rootTy _ rootDecl rootArgs) => do
    let ty ← Prog.reads fun _ => leafArgs[index]?
    let rootArg ← Prog.reads fun _ => rootArgs[index]?
    let kind ← Prog.reads fun tm => tm.kind rootArg
    if leaf ≠ root ∧ (rootTy = .InterfaceTy ∨ rootTy = .ClassTy) ∧
        decls.ty leafDecl = decls.ty rootDecl ∧ leafArgs.length = rootArgs.length ∧
        kind = .TYPE_INTERSECTION then do
      setTypeArg root index ty
      pure root
    else failure
  | _, _ => failure

/-! ## Runs -/

/-- The operations on the table.  A query for subtypes acts on it by making and instantiating types,
and by the writes of its comparisons of class types. -/
inductive Op where
  | getGenericsTy (gpd : ℕ)
  | getNominalTy (ty : NominalTy) (decls : Decls) (decl : ℕ) (typeArgs : List TyPtr)
  | getArrayTy (elemTy : TyPtr) (dims : BitVec 32)
  | getVArrayTy (elemTy : TyPtr) (size : BitVec 64)
  | getPointerTy (elemTy : TyPtr)
  | getTupleTy (typeArgs : List TyPtr) (isClosureTy : Bool)
  | getFunctionTy (paramTys : List TyPtr) (retTy : TyPtr) (cfg : FuncConfig)
  | getIntersectionTy (tys : List TyPtr)
  | getUnionTy (tys : List TyPtr)
  | getInstantiatedTy (decls : Decls) (typeMapping : TypeSubst) (ty : TyPtr)
  | substituteTypeAliasInTy (decls : Decls) (needSubstituteGeneric : Bool) (typeMapping : TypeSubst)
      (ty : TyPtr)
  | replaceIdealTy (ty : TyPtr)
  | setPartialAliasArg (decls : Decls) (leaf root : TyPtr) (index : ℕ)

/-- What an operation does, with fuel for the depth of types. -/
def perform (fuel : ℕ) : Op → Prog TypeManager TyPtr
  | .getGenericsTy gpd => getGenericsTy hash gpd
  | .getNominalTy ty decls decl typeArgs => getNominalTy hash ty decls decl typeArgs
  | .getArrayTy elemTy dims => getArrayTy hash elemTy dims
  | .getVArrayTy elemTy size => getVArrayTy hash elemTy size
  | .getPointerTy elemTy => getPointerTy hash elemTy
  | .getTupleTy typeArgs isClosureTy => getTupleTy hash typeArgs isClosureTy
  | .getFunctionTy paramTys retTy cfg => getFunctionTy hash paramTys retTy cfg
  | .getIntersectionTy tys => getIntersectionTy hash tys
  | .getUnionTy tys => getUnionTy hash tys
  | .getInstantiatedTy decls typeMapping ty =>
    getInstantiatedTy hash decls fuel typeMapping ty
  | .substituteTypeAliasInTy decls needSubstituteGeneric typeMapping ty =>
    substituteTypeAliasInTy hash decls fuel needSubstituteGeneric typeMapping ty
  | .replaceIdealTy ty => replaceIdealTy fuel ty
  | .setPartialAliasArg decls leaf root index => setPartialAliasArg decls leaf root index

/-- The table after some operations, each with its fuel, if none of them fails. -/
def run (tm : TypeManager) : List (ℕ × Op) → Option TypeManager
  | [] => some tm
  | (fuel, op) :: ops =>
    match perform hash fuel op tm with
    | none => none
    | some (_, tm) => run tm ops

end Operations

end TypeManager

end Cangjie
