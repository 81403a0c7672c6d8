import CangjieCompiler.CHIR.Interpreter.BCHIR

/-!
# The linker of bytecode packages

The linker appends the bodies of all functions of all packages to one image and replaces what the
operations name by indices: functions, global variables, classes, methods, strings and types.  A
function that is not linked yet leaves a placeholder, which is patched when its body is appended.
Classes are linked after all functions, except that an operation on a class of another package
registers it at once.

Code positions and the names kept for messages are left out; no other part of the linker reads
them.
-/

namespace Cangjie.CHIR.Interpreter

/-- The linked package under construction together with the tables of the linker. -/
structure BCHIRLinker where
  topDef : List ByteCodeContent
  strings : List String
  types : List TypePtr
  classTable : ByteCodeContent → Option ClassInfo
  mName2FuncBodyIdx : String → Option ByteCodeContent
  mName2FuncBodyIdxPlaceHolder : String → Option (List ByteCodeContent)
  gvarId : ByteCodeContent
  mName2GvarId : String → Option ByteCodeContent
  classId : ByteCodeContent
  mName2ClassId : String → Option ByteCodeContent
  methodId : ByteCodeContent
  mName2MethodId : String → Option ByteCodeContent
  dummyAbortFuncIdx : ByteCodeContent

namespace BCHIRLinker

/-- The linker before it has seen any package. -/
def init : BCHIRLinker where
  topDef := []
  strings := []
  types := []
  classTable := fun _ => none
  mName2FuncBodyIdx := fun _ => none
  mName2FuncBodyIdxPlaceHolder := fun _ => none
  gvarId := 0
  mName2GvarId := fun _ => none
  classId := 0
  mName2ClassId := fun _ => none
  methodId := 0
  mName2MethodId := fun _ => none
  dummyAbortFuncIdx := BYTECODE_CONTENT_MAX

/-! ## The image -/

/-- The next available index of the image. -/
def nextIndex (l : BCHIRLinker) : ByteCodeContent := l.topDef.length

/-- Appending cells. -/
def push (l : BCHIRLinker) (cells : List ByteCodeContent) : BCHIRLinker :=
  { l with topDef := l.topDef ++ cells }

/-- Writing a cell. -/
def set (l : BCHIRLinker) (index value : ByteCodeContent) : BCHIRLinker :=
  { l with topDef := l.topDef.set index value }

/-- Recording that a cell is to be patched once the function is linked. -/
def addToMName2FuncBodyIdxPlaceHolder (l : BCHIRLinker) (mName : String) (idx : ByteCodeContent) :
    BCHIRLinker :=
  match l.mName2FuncBodyIdxPlaceHolder mName with
  | none =>
    { l with mName2FuncBodyIdxPlaceHolder :=
        Function.update l.mName2FuncBodyIdxPlaceHolder mName (some [idx]) }
  | some indices =>
    { l with mName2FuncBodyIdxPlaceHolder :=
        Function.update l.mName2FuncBodyIdxPlaceHolder mName (some (indices ++ [idx])) }

/-- Registering the index of a function and patching the cells that wait for it. -/
def resolveMName2FuncBodyIdxPlaceHolder (l : BCHIRLinker) (mName : String)
    (idx : ByteCodeContent) : BCHIRLinker :=
  let l := { l with mName2FuncBodyIdx := emplace l.mName2FuncBodyIdx mName idx }
  match l.mName2FuncBodyIdxPlaceHolder mName with
  | none => l
  | some indices =>
    { indices.foldl (fun l ph => l.set ph idx) l with
      mName2FuncBodyIdxPlaceHolder :=
        Function.update l.mName2FuncBodyIdxPlaceHolder mName none }

/-- Appending the index of a function, or a cell to be patched later. -/
def pushFunc (l : BCHIRLinker) (mgl : String) : BCHIRLinker :=
  match l.mName2FuncBodyIdx mgl with
  | some idx => l.push [idx]
  | none =>
    (l.addToMName2FuncBodyIdxPlaceHolder mgl l.nextIndex).push [l.dummyAbortFuncIdx]

/-! ## Identifiers -/

/-- The identifier of a class, a new one for a new name. -/
def getClassId (l : BCHIRLinker) (classMangledName : String) : ByteCodeContent × BCHIRLinker :=
  match l.mName2ClassId classMangledName with
  | some id => (id, l)
  | none =>
    (l.classId,
      { l with
        classId := l.classId + 1
        mName2ClassId := Function.update l.mName2ClassId classMangledName (some l.classId) })

/-- The identifier of a method name, a new one for a new name. -/
def getMethodId (l : BCHIRLinker) (methodName : String) : ByteCodeContent × BCHIRLinker :=
  match l.mName2MethodId methodName with
  | some id => (id, l)
  | none =>
    (l.methodId,
      { l with
        methodId := l.methodId + 1
        mName2MethodId := Function.update l.mName2MethodId methodName (some l.methodId) })

/-! ## Classes -/

/-- Adding the information about a class, unless there is one. -/
def addClass (l : BCHIRLinker) (id : ByteCodeContent) (classInfo : ClassInfo) : BCHIRLinker :=
  { l with classTable := emplace l.classTable id classInfo }

/-- The information about a class that only its name is known of. -/
def emptyClassInfo (mangledName : String) : ClassInfo where
  superClasses := ∅
  vtable := fun _ => none
  finalizerIdx := 0
  mangledName := mangledName

/-- The identifiers of the declared super classes and of all their super classes. -/
def collectSuperClasses (l : BCHIRLinker) (superClasses : List String) :
    Finset ByteCodeContent :=
  superClasses.foldl (fun acc superClass =>
    let superId := (l.mName2ClassId superClass).getD 0
    let superSuperClasses := ((l.classTable superId).map ClassInfo.superClasses).getD ∅
    insert superId acc ∪ superSuperClasses) ∅

/-- The table of the methods, with their functions as indices. -/
def linkVTable (l : BCHIRLinker) (vtable : List (String × String)) :
    (ByteCodeContent → Option ByteCodeContent) × BCHIRLinker :=
  vtable.foldl (fun (linked, l) (methodName, funcMangledName) =>
    let (thisMethodId, l) := l.getMethodId methodName
    (emplace linked thisMethodId ((l.mName2FuncBodyIdx funcMangledName).getD l.dummyAbortFuncIdx),
      l)) (fun _ => none, l)

/-- The index of the finalizer, `0` when there is none. -/
def linkFinalizer (l : BCHIRLinker) (finalizer : String) : ByteCodeContent :=
  if finalizer ≠ "" then (l.mName2FuncBodyIdx finalizer).getD 0 else 0

/-- Linking a class after its super classes.  A class that the package does not declare is
registered without any information.  The fuel bounds the depth of the recursion. -/
def linkClass (bchir : Bchir) : ℕ → BCHIRLinker → String → BCHIRLinker
  | 0, l, _ => l
  | fuel + 1, l, mangledName =>
    let (thisClassId, l') := l.getClassId mangledName
    if (l.mName2ClassId mangledName).isSome ∧ (l.classTable thisClassId).isSome then l
    else
      match bchir.getSClass mangledName with
      | none => l'.addClass thisClassId (emptyClassInfo mangledName)
      | some sClassInfo =>
        let l := sClassInfo.superClasses.foldl (linkClass bchir fuel) l'
        let superClasses := l.collectSuperClasses sClassInfo.superClasses
        let (vtable, l) := l.linkVTable sClassInfo.vtable
        l.addClass thisClassId
          { superClasses := superClasses
            vtable := vtable
            finalizerIdx := l.linkFinalizer sClassInfo.finalizer
            mangledName := mangledName }

/-- A depth that the recursion over the super classes does not reach in an acyclic class table. -/
def linkDepth (bchir : Bchir) : ℕ := bchir.sClassTable.length + 1

/-- Linking all classes of a package. -/
def linkClasses (l : BCHIRLinker) (bchir : Bchir) : BCHIRLinker :=
  bchir.sClassTable.foldl (fun l p => linkClass bchir (linkDepth bchir) l p.1) l

/-! ## Bodies of functions -/

/-- The cases of the switch over the operations. -/
inductive LinkerCase where
  | gvar
  | func
  | string
  | allocateClass
  | allocateClassExc
  | allocateStructExc
  | allocateExc
  | boxOrInstanceof
  | invokeExc
  | invoke
  | jump
  | branch
  | intrinsic1
  | syscall
  | switch
  | applyExc
  | arithmeticExc
  | shiftExc
  | capply
  | path
  | other
  deriving DecidableEq

/-- The case of an operation. -/
def linkerCase : OpCode → LinkerCase
  | .GVAR => .gvar
  | .FUNC => .func
  | .STRING => .string
  | .ALLOCATE_CLASS => .allocateClass
  | .ALLOCATE_CLASS_EXC => .allocateClassExc
  | .ALLOCATE_STRUCT_EXC => .allocateStructExc
  | .ALLOCATE_EXC => .allocateExc
  | .BOX | .INSTANCEOF => .boxOrInstanceof
  | .INVOKE_EXC => .invokeExc
  | .INVOKE => .invoke
  | .JUMP => .jump
  | .BRANCH => .branch
  | .INTRINSIC1 => .intrinsic1
  | .SYSCALL => .syscall
  | .SWITCH => .switch
  | .APPLY_EXC => .applyExc
  | .UN_NEG_EXC | .BIN_ADD_EXC | .BIN_SUB_EXC | .BIN_MUL_EXC | .BIN_DIV_EXC | .BIN_MOD_EXC
  | .BIN_EXP_EXC => .arithmeticExc
  | .BIN_RSHIFT_EXC | .BIN_LSHIFT_EXC => .shiftExc
  | .CAPPLY => .capply
  | .STOREINREF | .GETREF | .FIELD_TPL => .path
  | _ => .other

/-- The cells of a definition from one index up to another. -/
def cellsBetween (currentDef : Definition) (first last : ℕ) : List ByteCodeContent :=
  (List.range' first (last - first)).map currentDef.get

/-- The two cells of a value of 8 bytes. -/
def push8bytes (value : ℕ) : List ByteCodeContent := [value % 2 ^ 32, value / 2 ^ 32]

/-- Linking the operation at an index.  The result has the index of the next one. -/
def linkOperation (bchir : Bchir) (currentDef : Definition)
    (typeMap stringMap : List ByteCodeContent) (offset curr : ℕ) (l : BCHIRLinker) :
    BCHIRLinker × ℕ :=
  let op := OpCode.ofNat (currentDef.get curr)
  let arg (k : ℕ) := currentDef.get (curr + k)
  let mgl := currentDef.getMangledNameAnnotation curr
  let l := l.push [op.toCell]
  let next := curr + getOpCodeArgSize op + 1
  match linkerCase op with
  | .gvar =>
    match l.mName2GvarId mgl with
    | some id => (l.push [id], next)
    | none => ((l.set (l.nextIndex - 1) OpCode.FUNC.toCell).pushFunc mgl, next)
  | .func => (l.pushFunc mgl, next)
  | .string => (l.push [stringMap.getD (arg 1) 0], next)
  | .allocateClass =>
    let (thisClassId, l) := l.getClassId mgl
    (l.push [thisClassId, arg 2], next)
  | .allocateClassExc =>
    let (thisClassId, l) := l.getClassId mgl
    (l.push [thisClassId, arg 2, arg 3 + offset], next)
  | .allocateStructExc => (l.push [arg 1, arg 2 + offset], next)
  | .allocateExc => (l.push [arg 1 + offset], next)
  | .boxOrInstanceof =>
    let (thisClassId, l) := l.getClassId mgl
    let l := if (bchir.getSClass mgl).isNone then linkClass bchir (linkDepth bchir) l mgl else l
    (l.push [thisClassId], next)
  | .invokeExc =>
    let (thisMethodId, l) := l.getMethodId mgl
    (l.push [arg 1, thisMethodId, arg 3 + offset], next)
  | .invoke =>
    let (thisMethodId, l) := l.getMethodId mgl
    (l.push [arg 1, thisMethodId], next)
  | .jump => (l.push [arg 1 + offset], next)
  | .branch => (l.push [arg 1 + offset, arg 2 + offset], next)
  | .intrinsic1 =>
    let newTyIdx :=
      if arg 2 ≠ BYTECODE_CONTENT_MAX then typeMap.getD (arg 2) 0 else BYTECODE_CONTENT_MAX
    (l.push [arg 1, newTyIdx], next)
  | .syscall =>
    let numberOfArgs := arg 2
    let argTypes := (cellsBetween currentDef (curr + 4) (curr + 4 + numberOfArgs)).map
      fun ty => typeMap.getD ty 0
    (l.push ([stringMap.getD (arg 1) 0, numberOfArgs, typeMap.getD (arg 3) 0] ++ argTypes),
      curr + getOpCodeArgSize op + 1 + numberOfArgs + 1)
  | .switch =>
    let casesIdx := curr + 2
    let cases := currentDef.get casesIdx
    let firstJump := casesIdx + 1 + cases * 2
    let values := (List.range cases).flatMap
      fun j => push8bytes (currentDef.get8bytes (casesIdx + 1 + 2 * j))
    let targets := (cellsBetween currentDef firstJump (firstJump + cases + 1)).map (· + offset)
    (l.push ([arg 1, arg 2] ++ values ++ targets),
      curr + getOpCodeArgSize op + cases * 2 + 1 + cases + 1)
  | .applyExc => (l.push [arg 1, arg 2 + offset], next)
  | .arithmeticExc => (l.push [arg 1, arg 2, arg 3 + offset], next)
  | .shiftExc => (l.push [arg 1, arg 2, arg 3, arg 4 + offset], next)
  | .capply =>
    let argsSize := arg 1
    let next := curr + argsSize + 3
    (l.push (argsSize :: (cellsBetween currentDef (curr + 2) next).map
      fun ty => typeMap.getD ty 0), next)
  | .path =>
    let next := curr + getOpCodeArgSize op + arg 1 + 1
    (l.push (cellsBetween currentDef (curr + 1) next), next)
  | .other => (l.push (cellsBetween currentDef (curr + 1) next), next)

/-- The loop over the operations of a definition.  The fuel bounds the number of operations. -/
def linkOperations (bchir : Bchir) (currentDef : Definition)
    (typeMap stringMap : List ByteCodeContent) (offset : ℕ) : ℕ → ℕ → BCHIRLinker → BCHIRLinker
  | 0, _, l => l
  | fuel + 1, curr, l =>
    if curr < currentDef.nextIndex then
      let (l, next) := l.linkOperation bchir currentDef typeMap stringMap offset curr
      linkOperations bchir currentDef typeMap stringMap offset fuel next l
    else l

/-- Traversing a definition and appending it to the image. -/
def traverseAndLink (l : BCHIRLinker) (bchir : Bchir) (currentDef : Definition)
    (typeMap stringMap : List ByteCodeContent) : BCHIRLinker :=
  linkOperations bchir currentDef typeMap stringMap l.nextIndex currentDef.nextIndex 0 l

/-! ## Packages -/

/-- The indices of the types of a package in the linked one. -/
def unlinkedTypes2LinkedTypes (l : BCHIRLinker) (types : List TypePtr) :
    List ByteCodeContent × BCHIRLinker :=
  (List.range' l.types.length types.length, { l with types := l.types ++ types })

/-- The indices of the strings of a package in the linked one. -/
def unlinkedStrings2LinkedStrings (l : BCHIRLinker) (strings : List String) :
    List ByteCodeContent × BCHIRLinker :=
  (List.range' l.strings.length strings.length, { l with strings := l.strings ++ strings })

/-- Linking a function: its frame and its body. -/
def linkFunction (bchir : Bchir) (typeMap stringMap : List ByteCodeContent) (l : BCHIRLinker)
    (p : String × Definition) : BCHIRLinker :=
  let bodyIdx := l.nextIndex
  let l := l.resolveMName2FuncBodyIdxPlaceHolder p.1 bodyIdx
  let l := l.push [OpCode.FRAME.toCell, p.2.numLVars]
  l.traverseAndLink bchir p.2 typeMap stringMap

/-- Linking the functions of a package. -/
def linkPackageFunctions (l : BCHIRLinker) (bchir : Bchir) : BCHIRLinker :=
  let (typeMap, l) := l.unlinkedTypes2LinkedTypes bchir.types
  let (stringMap, l) := l.unlinkedStrings2LinkedStrings bchir.strings
  bchir.functions.foldl (linkFunction bchir typeMap stringMap) l

/-- Linking the functions of all packages. -/
def linkFunctions (l : BCHIRLinker) (packages : List Bchir) : BCHIRLinker :=
  packages.foldl linkPackageFunctions l

/-- Numbering the global variables of a package. -/
def linkGlobalVars (l : BCHIRLinker) (bchir : Bchir) : BCHIRLinker :=
  bchir.globalVars.foldl (fun l name =>
    if (l.mName2GvarId name).isSome then l
    else
      { l with
        gvarId := l.gvarId + 1
        mName2GvarId := emplace l.mName2GvarId name l.gvarId }) l

/-- The function that unknown functions are linked to. -/
def generateDummyAbortFunction (l : BCHIRLinker) : BCHIRLinker :=
  { l with dummyAbortFuncIdx := l.nextIndex }.push
    [OpCode.FRAME.toCell, 0, OpCode.ABORT.toCell]

/-- The calls of the initialisers of constants. -/
def generateCallsToConstInitFunctions (l : BCHIRLinker) (constInitFuncs : List String) :
    BCHIRLinker :=
  constInitFuncs.foldl (fun l nm =>
    match l.mName2FuncBodyIdx nm with
    | some idx => l.push [OpCode.FUNC.toCell, idx, OpCode.APPLY.toCell, 1, OpCode.DROP.toCell]
    | none => l) l

/-- The image up to the functions: a jump over the dummy function, the dummy function, and the
operation that jumps over the definitions. -/
def start (forConstEval : Bool) (packages : List Bchir) : BCHIRLinker :=
  let l := init.push [OpCode.JUMP.toCell, 0]
  let targetJumpIdx := l.nextIndex - 1
  let l := l.generateDummyAbortFunction
  let l := l.set targetJumpIdx l.nextIndex
  let l := if forConstEval then packages.foldl linkGlobalVars l else l
  l.push [OpCode.JUMP.toCell, 0]

/-- Linking the packages. -/
def run (forConstEval : Bool) (packages : List Bchir) : BCHIRLinker :=
  let l := start forConstEval packages
  let targetJumpIdx := l.nextIndex - 1
  let l := l.linkFunctions packages
  let l := l.set targetJumpIdx l.nextIndex
  let l :=
    if forConstEval then
      l.generateCallsToConstInitFunctions
        ((packages.getLast?.map Bchir.initFuncsForConsts).getD [])
    else l
  let l := l.push [OpCode.EXIT.toCell]
  packages.foldl linkClasses l

/-! ## The class queries of the interpreter -/

/-- The test of the interpreter for a subclass. -/
def isSubclass (l : BCHIRLinker) (lhs rhs : ByteCodeContent) : Bool :=
  lhs == rhs ||
    decide (rhs ∈ ((l.classTable lhs).map ClassInfo.superClasses).getD ∅)

/-- The function of a method. -/
def findMethod (l : BCHIRLinker) (classId nameId : ByteCodeContent) : Option ByteCodeContent :=
  (l.classTable classId).bind fun classInfo => classInfo.vtable nameId

end BCHIRLinker

end Cangjie.CHIR.Interpreter
