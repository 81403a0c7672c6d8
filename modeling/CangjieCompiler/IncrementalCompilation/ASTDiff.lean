import CangjieCompiler.Foundations.OrderedMap
import CangjieCompiler.Foundations.TreeDiff
import Mathlib.Data.String.Basic

/-!
# The declaration diff

Incremental compilation compares the cache of the previous compilation with that of the current
one.  Top-level declarations are looked up by name; members are compared by a walk over sorted
copies of both lists, and the members of common members in the same way.

The caches of imported packages are filled by another routine than those of the source package; it
does not record the kind of a declaration.

The comparison of the order of global variables is left out, and so are the parts of a cache that
the diff does not read.
-/

namespace Cangjie.IncrementalCompilation

/-- A mangled name. -/
abbrev RawMangledName := String

/-- The kinds of declarations, in the order of their numbers. -/
inductive ASTKind where
  | ANNOTATION
  | MODIFIER
  | DECL
  | MAIN_DECL
  | FUNC_DECL
  | MACRO_DECL
  | CLASS_LIKE_DECL
  | CLASS_DECL
  | INTERFACE_DECL
  | EXTEND_DECL
  | ENUM_DECL
  | STRUCT_DECL
  | TYPE_ALIAS_DECL
  | PRIMARY_CTOR_DECL
  | BUILTIN_DECL
  | VAR_DECL
  | PROP_DECL
  | MACRO_EXPAND_PARAM
  | FUNC_PARAM
  | VAR_WITH_PATTERN_DECL
  | GENERIC_PARAM_DECL
  | PACKAGE_DECL
  | MACRO_EXPAND_DECL
  | INVALID_DECL
  deriving DecidableEq

namespace ASTKind

/-- The number of a kind. -/
def toUInt8 (k : ASTKind) : UInt8 := UInt8.ofNat k.ctorIdx

/-- The kinds of `VarDecl` and of the classes derived from it. -/
def isVarDecl : ASTKind → Bool
  | VAR_DECL | PROP_DECL | MACRO_EXPAND_PARAM | FUNC_PARAM => true
  | _ => false

end ASTKind

/-! ## Declarations and caches -/

/-- The hashes of a declaration. -/
structure DeclHash where
  instVar : UInt64
  virt : UInt64
  sig : UInt64
  srcUse : UInt64

/-- What is known of a declaration, apart from its members. -/
structure DeclInfo where
  astKind : ASTKind
  rawMangleName : RawMangledName
  hash : DeclHash
  isConst : Bool
  hasInitializer : Bool
  hasBody : Bool
  hasDefaultParamBody : Bool
  importedDeclBodyHash : UInt64

/-- A declaration with its members. -/
inductive Decl where
  | mk (info : DeclInfo) (members : List Decl)

namespace Decl

def info : Decl → DeclInfo
  | mk i _ => i

def members : Decl → List Decl
  | mk _ ms => ms

def astKind (decl : Decl) : ASTKind := decl.info.astKind

def rawMangleName (decl : Decl) : RawMangledName := decl.info.rawMangleName

end Decl

/-- The hashes that the cache has of every declaration. -/
@[ext]
structure MemberHashes where
  sigHash : UInt64
  srcUse : UInt64
  bodyHash : UInt64
  deriving DecidableEq

/-- The cache of a member: its name, its hashes and the caches of its own members. -/
abbrev MemberDeclCache := NamedTree RawMangledName MemberHashes

/-- The cache of a top-level declaration. -/
structure TopLevelDeclCache where
  hashes : MemberHashes
  astKind : UInt8
  members : List MemberDeclCache
  instVarHash : UInt64
  virtHash : UInt64

/-- The cache of a package: its top-level declarations by name, in the order of the map. -/
structure ASTCache where
  entries : List (RawMangledName × TopLevelDeclCache)
  nodup : (entries.map Prod.fst).Nodup

namespace ASTCache

def find? (cache : ASTCache) (mangled : RawMangledName) : Option TopLevelDeclCache :=
  (cache.entries.find? fun e => e.1 = mangled).map Prod.snd

end ASTCache

/-- The declaration with each raw mangled name of the current compilation. -/
structure RawMangled2DeclMap where
  get : RawMangledName → Decl
  rawMangleName_get : ∀ mangled, (get mangled).rawMangleName = mangled

/-! ## The caches of imported packages -/

namespace ImportPackageWalker

def skipImportedBodyHash (decl : Decl) : Bool :=
  if decl.info.isConst then false
  else if decl.astKind.isVarDecl ∧ ¬ decl.info.hasInitializer then true
  else if decl.astKind = .FUNC_DECL then
    if decl.info.hasBody then false else !decl.info.hasDefaultParamBody
  else false

def bodyHash (decl : Decl) : UInt64 :=
  if skipImportedBodyHash decl then 0 else decl.info.importedDeclBodyHash

def hashes (decl : Decl) : MemberHashes :=
  { sigHash := decl.info.hash.sig, srcUse := decl.info.hash.srcUse, bodyHash := bodyHash decl }

mutual

def visitMember : Decl → MemberDeclCache
  | .mk info members =>
    .node info.rawMangleName (hashes (.mk info members)) (visitMembers members)

/-- The caches of the members that have a raw mangled name. -/
def visitMembers : List Decl → List MemberDeclCache
  | [] => []
  | member :: members =>
    if member.rawMangleName.isEmpty then visitMembers members
    else visitMember member :: visitMembers members

end

/-- The kind is not set. -/
def visitTopLevel (decl : Decl) : TopLevelDeclCache :=
  { hashes := hashes decl
    astKind := 0
    members := visitMembers decl.members
    instVarHash := decl.info.hash.instVar
    virtHash := decl.info.hash.virt }

/-- The caches of the declarations, the first one for each name. -/
def collectDecls : List Decl → List (RawMangledName × TopLevelDeclCache)
  | [] => []
  | decl :: decls =>
    if decl.rawMangleName.isEmpty then collectDecls decls
    else
      (decl.rawMangleName, visitTopLevel decl) ::
        (collectDecls decls).filter fun e => e.1 ≠ decl.rawMangleName

lemma nodup_collectDecls (decls : List Decl) : ((collectDecls decls).map Prod.fst).Nodup := by
  induction decls with
  | nil => exact List.nodup_nil
  | cons decl decls ih =>
    rw [collectDecls]
    split_ifs
    · exact ih
    · rw [List.map_cons, List.nodup_cons]
      constructor
      · intro hmem
        obtain ⟨e, he, hname⟩ := List.mem_map.mp hmem
        exact absurd hname (by simpa using (List.mem_filter.mp he).2)
      · exact ih.sublist (List.filter_sublist.map Prod.fst)

/-- The cache of the imported packages. -/
def get (decls : List Decl) : ASTCache := ⟨collectDecls decls, nodup_collectDecls decls⟩

theorem astKind_of_mem_get {decls : List Decl} {e : RawMangledName × TopLevelDeclCache}
    (h : e ∈ (get decls).entries) : e.2.astKind = 0 := by
  change e ∈ collectDecls decls at h
  induction decls with
  | nil => exact absurd h List.not_mem_nil
  | cons decl decls ih =>
    rw [collectDecls] at h
    split_ifs at h
    · exact ih h
    · rcases List.mem_cons.mp h with rfl | htail
      · rfl
      · exact ih (List.mem_filter.mp htail).1

end ImportPackageWalker

/-! ## What the diff reports -/

/-- The change of a function, a variable or a member. -/
structure CommonChange where
  decl : Decl
  sig : Bool
  srcUse : Bool
  body : Bool

def CommonChange.isChange (c : CommonChange) : Bool := c.sig || c.srcUse || c.body

/-- The change of a type. -/
structure TypeChange where
  instVar : Bool := false
  virtFun : Bool := false
  sig : Bool := false
  srcUse : Bool := false
  body : Bool := false
  order : Bool := false
  changed : List CommonChange := []
  added : List Decl := []
  del : List RawMangledName := []

namespace TypeChange

/-- The type itself has changed, not only its members. -/
def isOwnChange (c : TypeChange) : Bool := c.instVar || c.virtFun || c.sig || c.srcUse || c.body

def isChange (c : TypeChange) : Bool :=
  c.isOwnChange || c.order || !c.changed.isEmpty || !c.added.isEmpty || !c.del.isEmpty

end TypeChange

structure ModifiedDecls where
  added : List Decl := []
  deletes : List RawMangledName := []
  types : List (Decl × TypeChange) := []
  commons : List (Decl × CommonChange) := []
  aliases : List Decl := []
  deletedTypeAlias : List RawMangledName := []

/-- The entry of a declaration put into a map unless it has one. -/
def emplace {β : Type} (decl : Decl) (change : β) (m : List (Decl × β)) : List (Decl × β) :=
  if m.any fun e => e.1.rawMangleName = decl.rawMangleName then m else m ++ [(decl, change)]

/-! ## The comparison -/

namespace ASTDiffImpl

variable (mangled2Decl : RawMangled2DeclMap)

def collectAddedTopLevelDecl (decl : Decl) (ret : ModifiedDecls) : ModifiedDecls :=
  { ret with added := ret.added ++ [decl] }

def collectDeletedTopLevelDecl (mangled : RawMangledName) (topDecl : TopLevelDeclCache)
    (ret : ModifiedDecls) : ModifiedDecls :=
  let ret :=
    if topDecl.astKind = ASTKind.TYPE_ALIAS_DECL.toUInt8 then
      { ret with deletedTypeAlias := ret.deletedTypeAlias ++ [mangled] }
    else { ret with deletes := ret.deletes ++ [mangled] }
  { ret with deletes := ret.deletes ++ topDecl.members.map NamedTree.name }

/-- A deleted member is reported with its own members. -/
def deleteMember (cached : MemberDeclCache) (typeChange : TypeChange) : TypeChange :=
  { typeChange with del := typeChange.del ++ cached.shallowNames }

def addMember (cur : MemberDeclCache) (typeChange : TypeChange) : TypeChange :=
  { typeChange with added := typeChange.added ++ [mangled2Decl.get cur.name] }

/-- The change of a member against its cache. -/
def memberChange (cached cur : MemberDeclCache) : CommonChange :=
  { decl := mangled2Decl.get cur.name
    srcUse := cached.label.srcUse ≠ cur.label.srcUse
    body := cached.label.bodyHash ≠ cur.label.bodyHash
    sig := cached.label.sigHash ≠ cur.label.sigHash }

def recordChange (r : CommonChange) (typeChange : TypeChange) : TypeChange :=
  if r.isChange then { typeChange with changed := typeChange.changed ++ [r] } else typeChange

/-- The comparison of a common member; that of its members is passed in. -/
def compareMemberDecl
    (compareMembers : List MemberDeclCache → List MemberDeclCache → TypeChange → TypeChange)
    (cached cur : MemberDeclCache) (typeChange : TypeChange) : TypeChange :=
  compareMembers cached.children cur.children
    (recordChange (memberChange mangled2Decl cached cur) typeChange)

/-- A copy of the members sorted by name. -/
def toSorted (members : List MemberDeclCache) : List MemberDeclCache :=
  members.insertionSort fun a b => a.name ≤ b.name

/-- What is done with the members of two sorted lists. -/
def memberActions
    (compareMembers : List MemberDeclCache → List MemberDeclCache → TypeChange → TypeChange) :
    MergeActions MemberDeclCache TypeChange :=
  { onlyLeft := deleteMember
    onlyRight := addMember mangled2Decl
    both := compareMemberDecl mangled2Decl compareMembers }

/-- The comparison of all members, down to a number of levels. -/
def compareMembersTo : ℕ → List MemberDeclCache → List MemberDeclCache → TypeChange → TypeChange
  | 0, _, _, typeChange => typeChange
  | depth + 1, cached, cur, typeChange =>
    (memberActions mangled2Decl (compareMembersTo depth)).merge NamedTree.name
      (toSorted cached) (toSorted cur) typeChange

def compareMembers (typeChange : TypeChange) (cached cur : List MemberDeclCache) : TypeChange :=
  compareMembersTo mangled2Decl (NamedTree.heightIn cached + 1) cached cur typeChange

def compareTypeDecl (cached cur : TopLevelDeclCache) : TypeChange :=
  compareMembers mangled2Decl
    { instVar := cached.instVarHash ≠ cur.instVarHash
      virtFun := cached.virtHash ≠ cur.virtHash
      sig := cached.hashes.sigHash ≠ cur.hashes.sigHash
      srcUse := cached.hashes.srcUse ≠ cur.hashes.srcUse
      body := cached.hashes.bodyHash ≠ cur.hashes.bodyHash }
    cached.members cur.members

def commonCompare (a b : TopLevelDeclCache) (decl : Decl) : CommonChange :=
  { decl := decl
    sig := a.hashes.sigHash ≠ b.hashes.sigHash
    srcUse := a.hashes.srcUse ≠ b.hashes.srcUse
    body := a.hashes.bodyHash ≠ b.hashes.bodyHash }

def compareTopLevelDecl (cachedDecl curDecl : TopLevelDeclCache) (mangled : RawMangledName)
    (ret : ModifiedDecls) : ModifiedDecls :=
  let decl := mangled2Decl.get mangled
  match decl.astKind with
  | .TYPE_ALIAS_DECL =>
    if cachedDecl.hashes.sigHash ≠ curDecl.hashes.sigHash then
      { ret with aliases := ret.aliases ++ [decl] }
    else ret
  | .FUNC_DECL | .MACRO_DECL | .MAIN_DECL | .VAR_DECL | .VAR_WITH_PATTERN_DECL =>
    let change := commonCompare cachedDecl curDecl decl
    if change.isChange then { ret with commons := emplace decl change ret.commons } else ret
  | _ =>
    let change := compareTypeDecl mangled2Decl cachedDecl curDecl
    if change.isChange then { ret with types := emplace decl change ret.types } else ret

/-- What is done with a cached top-level declaration. -/
def compareCached (cur : ASTCache) (e : RawMangledName × TopLevelDeclCache)
    (ret : ModifiedDecls) : ModifiedDecls :=
  match cur.find? e.1 with
  | none => collectDeletedTopLevelDecl e.1 e.2 ret
  | some curDecl => compareTopLevelDecl mangled2Decl e.2 curDecl e.1 ret

/-- What is done with a current top-level declaration. -/
def collectIfAdded (cached : ASTCache) (e : RawMangledName × TopLevelDeclCache)
    (ret : ModifiedDecls) : ModifiedDecls :=
  match cached.find? e.1 with
  | none => collectAddedTopLevelDecl (mangled2Decl.get e.1) ret
  | some _ => ret

def compareCommonDecls (cached cur : ASTCache) (ret : ModifiedDecls) : ModifiedDecls :=
  cur.entries.foldl (fun ret e => collectIfAdded mangled2Decl cached e ret)
    (cached.entries.foldl (fun ret e => compareCached mangled2Decl cur e ret) ret)

end ASTDiffImpl

/-- The source package is compared first, then the imported packages. -/
def astDiff (mangled2Decl : RawMangled2DeclMap) (curPkgASTCache astCacheInfo : ASTCache)
    (importedASTCache curImports : ASTCache) : ModifiedDecls :=
  ASTDiffImpl.compareCommonDecls mangled2Decl importedASTCache curImports
    (ASTDiffImpl.compareCommonDecls mangled2Decl curPkgASTCache astCacheInfo {})

end Cangjie.IncrementalCompilation
