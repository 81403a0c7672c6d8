import CangjieCompiler.IncrementalCompilation.ASTDiff

/-!
# The cache of the source package

A package is walked file by file.  Every declaration gets an index that grows with each global or
static variable before it; a declaration that runs code of its own is also put on the list of its
file.  The cache of a declaration keeps its hashes, its index and the caches of its members.

Extends without an interface are gathered by name.  Their members are put on the list when they
are met, and their caches are made at the end of the walk.

A declaration stands for what the walk reads of it: its raw mangled name, its hashes and its
attributes.  The hash of the public members of an extend is a parameter.  The fields that the walk
does not fill are left out.
-/

namespace Cangjie.IncrementalCompilation

/-! ## Declarations of a package -/

/-- What the walk reads of any declaration. -/
structure DeclView where
  rawMangleName : RawMangledName
  astKind : ASTKind
  hashes : MemberHashes
  isStatic : Bool
  isGlobal : Bool
  isPublic : Bool
  isMemberParam : Bool
  /-- A variable has an initializer, a function a body. -/
  isOOEAffectedDecl : Bool
  deriving DecidableEq

namespace DeclView

def isStaticVar (decl : DeclView) : Bool := decl.astKind = .VAR_DECL ∧ decl.isStatic

def isGlobalOrStaticVar (decl : DeclView) : Bool :=
  decl.astKind = .VAR_DECL ∧ (decl.isStatic ∨ decl.isGlobal)

end DeclView

/-- The name of a declaration, its hashes and its access. -/
structure SourceInfo where
  rawMangleName : RawMangledName
  hashes : MemberHashes
  isPublic : Bool

/-- A declaration of the given kind that is neither static nor a parameter. -/
def SourceInfo.view (info : SourceInfo) (astKind : ASTKind) (isOOEAffectedDecl : Bool) : DeclView :=
  { rawMangleName := info.rawMangleName
    astKind := astKind
    hashes := info.hashes
    isStatic := false
    isGlobal := false
    isPublic := info.isPublic
    isMemberParam := false
    isOOEAffectedDecl := isOOEAffectedDecl }

structure VarDecl where
  info : SourceInfo
  isStatic : Bool
  isGlobal : Bool
  hasInitializer : Bool

def VarDecl.view (d : VarDecl) : DeclView :=
  { d.info.view .VAR_DECL d.hasInitializer with isStatic := d.isStatic, isGlobal := d.isGlobal }

structure FuncDecl where
  info : SourceInfo
  isStatic : Bool
  isGlobal : Bool
  hasBody : Bool

def FuncDecl.view (d : FuncDecl) : DeclView :=
  { d.info.view .FUNC_DECL d.hasBody with isStatic := d.isStatic, isGlobal := d.isGlobal }

structure FuncParam where
  info : SourceInfo
  isMemberParam : Bool
  hasInitializer : Bool

def FuncParam.view (d : FuncParam) : DeclView :=
  { d.info.view .FUNC_PARAM d.hasInitializer with isMemberParam := d.isMemberParam }

/-- A member of a type or of an extend. -/
inductive MemberDecl where
  | var (d : VarDecl)
  | func (d : FuncDecl)
  /-- A property has no initializer. -/
  | prop (info : SourceInfo) (isStatic : Bool) (getters setters : List FuncDecl)
  /-- A primary constructor, with the parameters of its first parameter list. -/
  | primaryCtor (info : SourceInfo) (params : List FuncParam)

namespace MemberDecl

def view : MemberDecl → DeclView
  | var d => d.view
  | func d => d.view
  | prop info isStatic _ _ => { info.view .PROP_DECL false with isStatic := isStatic }
  | primaryCtor info _ => info.view .PRIMARY_CTOR_DECL true

/-- The members of a member. -/
def getMembers : MemberDecl → List FuncDecl
  | prop _ _ getters setters => getters ++ setters
  | _ => []

/-- The parameters that declare a member variable. -/
def memberParams : MemberDecl → List FuncParam
  | primaryCtor _ params => params.filter FuncParam.isMemberParam
  | _ => []

end MemberDecl

/-- The declarations with members; an extend is one of them if it has an interface. -/
inductive TypeKind where
  | classDecl
  | interfaceDecl
  | structDecl
  | enumDecl
  | interfaceExtend
  deriving DecidableEq

namespace TypeKind

def astKind : TypeKind → ASTKind
  | classDecl => .CLASS_DECL
  | interfaceDecl => .INTERFACE_DECL
  | structDecl => .STRUCT_DECL
  | enumDecl => .ENUM_DECL
  | interfaceExtend => .EXTEND_DECL

end TypeKind

/-- An extend without an interface. -/
structure ExtendDecl where
  info : SourceInfo
  members : List MemberDecl

def ExtendDecl.view (d : ExtendDecl) : DeclView := d.info.view .EXTEND_DECL false

/-- A top-level declaration. -/
inductive TopDecl where
  | var (d : VarDecl)
  /-- A variable with a pattern, with the variables of the pattern. -/
  | varWithPattern (info : SourceInfo) (vars : List VarDecl)
  | func (d : FuncDecl)
  | main (info : SourceInfo)
  | macro_ (info : SourceInfo)
  /-- A type, with the hashes of its instance variables and of its virtual functions. -/
  | type (kind : TypeKind) (info : SourceInfo) (instVar virt : UInt64) (members : List MemberDecl)
  | directExtend (d : ExtendDecl)
  | typeAlias (info : SourceInfo)

namespace TopDecl

def view : TopDecl → DeclView
  | var d => d.view
  | varWithPattern info _ => info.view .VAR_WITH_PATTERN_DECL true
  | func d => d.view
  | main info => info.view .MAIN_DECL true
  | macro_ info => info.view .MACRO_DECL true
  | type kind info _ _ _ => info.view kind.astKind false
  | directExtend d => d.view
  | typeAlias info => info.view .TYPE_ALIAS_DECL false

/-- The members that are visited with a declaration. -/
def members : TopDecl → List MemberDecl
  | type _ _ _ _ members => members
  | _ => []

/-- The kinds of `VarDeclAbstract`. -/
def isVarDeclAbstract : TopDecl → Bool
  | var _ | varWithPattern _ _ => true
  | _ => false

end TopDecl

/-- A file with its trimmed path. -/
structure File where
  trimmedPath : String
  decls : List TopDecl

structure Package where
  files : List File

/-! ## Caches -/

/-- The place of a declaration among the global variables of its file. -/
structure GlobalVarIndex where
  file : String
  id : ℤ
  deriving DecidableEq

/-- What the caches of members and of top-level declarations have in common. -/
structure DeclCacheBase where
  hashes : MemberHashes
  astKind : UInt8
  isGV : Bool
  gvid : GlobalVarIndex

/-- The cache of a member with the caches of its own members. -/
abbrev MemberCache := NamedTree RawMangledName DeclCacheBase

/-- The cache of a top-level declaration. -/
structure TopLevelCache extends DeclCacheBase where
  members : List MemberCache
  instVarHash : UInt64 := 0
  virtHash : UInt64 := 0

/-- A declaration on the list of a file, with its index. -/
structure FileDecl where
  decl : DeclView
  gvid : ℤ

/-- An extend that was met in a file, with the index at that point. -/
structure CollectedExtend where
  extend : ExtendDecl
  curFile : String
  gid : ℤ

/-! ## The state of the walk -/

/-- The counter, the file that is walked and what has been computed. -/
structure WalkState where
  gid : ℤ := 0
  /-- Whether the walk is within a variable with a pattern. -/
  invp : Bool := false
  curFile : String := ""
  mangled2Decl : OrderedMap RawMangledName DeclView := .empty
  duplicatedMangleNames : List DeclView := []
  ret : OrderedMap RawMangledName TopLevelCache := .empty
  directExtends : OrderedMap RawMangledName (List CollectedExtend) := .empty
  /-- The names of the declarations in the order in which they are written. -/
  order : List RawMangledName := []
  fileMap : OrderedMap String (List FileDecl) := .empty

namespace WalkState

/-- The list of a file. -/
def declsOf (s : WalkState) (file : String) : List FileDecl := s.fileMap.valueD file []

/-- A declaration is put on the list of the current file. -/
def pushBack (decl : DeclView) (s : WalkState) : WalkState :=
  { s with fileMap := s.fileMap.assign s.curFile (s.declsOf s.curFile ++ [⟨decl, s.gid⟩]) }

def pushIfOOEAffected (decl : DeclView) (s : WalkState) : WalkState :=
  if decl.isOOEAffectedDecl then s.pushBack decl else s

def incrementGid (s : WalkState) : WalkState := { s with gid := s.gid + 1 }

/-- The index of a declaration that is met now. -/
def gvid (s : WalkState) : GlobalVarIndex := ⟨s.curFile, s.gid⟩

/-- A declaration is recorded under its name. -/
def collectDecl (decl : DeclView) (s : WalkState) : WalkState :=
  let duplicates :=
    match s.mangled2Decl.find? decl.rawMangleName with
    | none => []
    | some d => [decl, d]
  { s with
    duplicatedMangleNames := s.duplicatedMangleNames ++ duplicates
    mangled2Decl := s.mangled2Decl.assign decl.rawMangleName decl }

end WalkState

namespace ASTCacheCalculatorImpl

/-- A loop over declarations that keeps the caches made on the way. -/
def visitAll {α : Type} (visit : α → WalkState → List MemberCache × WalkState) :
    List α → WalkState → List MemberCache × WalkState
  | [], s => ([], s)
  | x :: xs, s =>
    let (caches, s) := visit x s
    let (rest, s) := visitAll visit xs s
    (caches ++ rest, s)

/-! ## Members -/

/-- A member whose own members have been visited. -/
def visitDecl (decl : DeclView) (members : List MemberCache) (s : WalkState) :
    MemberCache × WalkState :=
  let s := s.collectDecl decl
  let s := if decl.isStaticVar then s.incrementGid else s
  let cache : DeclCacheBase :=
    { hashes := decl.hashes
      astKind := if decl.isMemberParam then ASTKind.VAR_DECL.toUInt8 else decl.astKind.toUInt8
      isGV := if decl.isMemberParam then false else decl.isStaticVar
      gvid := s.gvid }
  (.node decl.rawMangleName cache members, s.pushIfOOEAffected decl)

/-- A member without members of its own. -/
def visitLeaf (decl : DeclView) (s : WalkState) : List MemberCache × WalkState :=
  let (cache, s) := visitDecl decl [] s
  ([cache], s)

def visitMember (member : MemberDecl) (s : WalkState) : MemberCache × WalkState :=
  let (members, s) := visitAll visitLeaf (member.getMembers.map FuncDecl.view) s
  visitDecl member.view members s

/-- A member that is not a static variable, then its member parameters. -/
def visitOtherMember (member : MemberDecl) (s : WalkState) : List MemberCache × WalkState :=
  let (cache, s) := visitMember member s
  let (params, s) := visitAll visitLeaf (member.memberParams.map FuncParam.view) s
  (cache :: params, s)

def visitStaticVar (member : MemberDecl) (s : WalkState) : List MemberCache × WalkState :=
  let (cache, s) := visitMember member s
  ([cache], s)

/-- The static variables come first, so that their indices are smaller. -/
def visitTopLevelDeclMembers (members : List MemberDecl) (s : WalkState) :
    List MemberCache × WalkState :=
  let (statics, s) := visitAll visitStaticVar (members.filter fun m => m.view.isStaticVar) s
  let (others, s) := visitAll visitOtherMember (members.filter fun m => !m.view.isStaticVar) s
  (statics ++ others, s)

/-! ## Top-level declarations -/

/-- A top-level declaration; `impl` is what depends on its kind. -/
def visitTopLevelWith (impl : TopLevelCache → WalkState → TopLevelCache × WalkState)
    (decl : DeclView) (members : List MemberDecl) (s : WalkState) : TopLevelCache × WalkState :=
  let (caches, s) := visitTopLevelDeclMembers members s
  let result : TopLevelCache :=
    { hashes := decl.hashes
      astKind := decl.astKind.toUInt8
      isGV := false
      gvid := ⟨"", 0⟩
      members := caches }
  let (result, s) := impl result s
  ({ result with gvid := s.gvid }, s)

/-- A declaration is put on the list of those to be written and visited, and its cache is kept. -/
def walkDeclWith (visit : WalkState → TopLevelCache × WalkState) (decl : DeclView)
    (s : WalkState) : WalkState :=
  let (cache, s) := visit { s with order := s.order ++ [decl.rawMangleName] }
  { s with ret := s.ret.emplace decl.rawMangleName cache }.collectDecl decl

/-- A variable; the variables of a pattern share the index of the pattern. -/
def visitVarDecl (d : VarDecl) (result : TopLevelCache) (s : WalkState) :
    TopLevelCache × WalkState :=
  let result := { result with isGV := !s.invp }
  if s.invp then (result, s) else (result, s.incrementGid.pushIfOOEAffected d.view)

def walkVarDecl (d : VarDecl) (s : WalkState) : WalkState :=
  walkDeclWith (visitTopLevelWith (visitVarDecl d) d.view []) d.view s

def visitVarWithPattern (vars : List VarDecl) (s : WalkState) : WalkState :=
  vars.foldl (fun s d => walkVarDecl d s) s

def visitTopLevelImpl1 (decl : TopDecl) (result : TopLevelCache) (s : WalkState) :
    TopLevelCache × WalkState :=
  match decl with
  | .type .enumDecl _ instVar _ _ => ({ result with instVarHash := instVar }, s)
  | .type .interfaceDecl _ _ virt _ => ({ result with virtHash := virt }, s)
  | .type .classDecl _ instVar virt _ =>
    ({ result with virtHash := virt, instVarHash := instVar }, s)
  | .type .structDecl _ instVar _ _ => ({ result with instVarHash := instVar }, s)
  | .varWithPattern _ vars =>
    let s := visitVarWithPattern vars { s.incrementGid with invp := true }
    ({ result with isGV := true }, { s with invp := false }.pushBack decl.view)
  | .var d => visitVarDecl d result s
  | .func d => (result, s.pushIfOOEAffected d.view)
  | .main _ | .macro_ _ => (result, s.pushBack decl.view)
  | .type .interfaceExtend _ _ _ _ | .directExtend _ | .typeAlias _ => (result, s)

def visitTopLevel (decl : TopDecl) (s : WalkState) : TopLevelCache × WalkState :=
  visitTopLevelWith (visitTopLevelImpl1 decl) decl.view decl.members s

/-! ## Extends without an interface -/

/-- A declaration within an extend, when the extend is met. -/
def previsitDecl (s : WalkState) (decl : DeclView) : WalkState :=
  (s.collectDecl decl).pushIfOOEAffected decl

def previsitDirectExtendMember (s : WalkState) (member : MemberDecl) : WalkState :=
  previsitDecl ((member.getMembers.map FuncDecl.view).foldl previsitDecl s) member.view

/-- The extend joins those of its name; the first one is put on the list of those to be
written. -/
def walkDirectExtend (extend : ExtendDecl) (s : WalkState) : WalkState :=
  let mangled := extend.info.rawMangleName
  let collected := s.directExtends.valueD mangled []
  let s := if collected.isEmpty then { s with order := s.order ++ [mangled] } else s
  let s := { s with
    directExtends := s.directExtends.assign mangled (collected ++ [⟨extend, s.curFile, s.gid⟩]) }
  extend.members.foldl previsitDirectExtendMember s

/-- The cache of a declaration within an extend. -/
def revisitDecl (decl : DeclView) (members : List MemberCache) (gvid : GlobalVarIndex) :
    MemberCache :=
  .node decl.rawMangleName
    { hashes := decl.hashes, astKind := decl.astKind.toUInt8, isGV := false, gvid := gvid } members

def revisitDirectExtendMember (member : MemberDecl) (gvid : GlobalVarIndex) : MemberCache :=
  revisitDecl member.view (member.getMembers.map fun d => revisitDecl d.view [] gvid) gvid

/-- The caches of the members of a collected extend. -/
def revisitExtend (c : CollectedExtend) : List MemberCache :=
  c.extend.members.map fun member => revisitDirectExtendMember member ⟨c.curFile, c.gid⟩

variable (hashMemberAPIs : List MemberDecl → UInt64)

/-- The cache of the extends with one name; the first one gives its own hashes and its index. -/
def computeDirectExtend (first : CollectedExtend) (extends_ : List CollectedExtend) :
    TopLevelCache :=
  let publics := extends_.flatMap fun c => c.extend.members.filter fun m => m.view.isPublic
  { hashes := { first.extend.info.hashes with bodyHash := hashMemberAPIs publics }
    astKind := ASTKind.EXTEND_DECL.toUInt8
    isGV := false
    gvid := ⟨first.curFile, first.gid⟩
    members := extends_.flatMap revisitExtend }

/-- No name is kept without an extend. -/
def finishDirectExtend (s : WalkState) (e : RawMangledName × List CollectedExtend) : WalkState :=
  match e.2 with
  | [] => s
  | first :: rest =>
    { s with
      mangled2Decl := s.mangled2Decl.assign e.1 first.extend.view
      ret := s.ret.emplace e.1 (computeDirectExtend hashMemberAPIs first (first :: rest)) }

/-! ## The walk -/

def walkDecl (decl : TopDecl) (s : WalkState) : WalkState :=
  match decl with
  | .directExtend extend => walkDirectExtend extend s
  | decl => walkDeclWith (visitTopLevel decl) decl.view s

/-- The first declaration of a file has index zero, also when it is a variable. -/
def walkFile (s : WalkState) (file : File) : WalkState :=
  let s := { s with
    gid := 0
    invp := false
    curFile := file.trimmedPath
    fileMap := s.fileMap.emplace file.trimmedPath [] }
  match file.decls with
  | [] => s
  | first :: rest =>
    let s := if first.isVarDeclAbstract then { s with gid := s.gid - 1 } else s
    rest.foldl (fun s decl => walkDecl decl s) (walkDecl first s)

def walk (p : Package) : WalkState :=
  let s := p.files.foldl walkFile {}
  s.directExtends.entries.foldl (finishDirectExtend hashMemberAPIs) s

end ASTCacheCalculatorImpl

end Cangjie.IncrementalCompilation
