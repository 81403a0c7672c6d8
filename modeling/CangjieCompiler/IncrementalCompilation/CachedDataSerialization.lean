import CangjieCompiler.IncrementalCompilation.ASTCacheCalculator

/-!
# The stored cache

The cache of a package is written in the order of its declarations and read again.  A buffer holds
the fields it is given: a table is taken to be the cache it was made from, and a vector to be a
list.

The reader also rebuilds the lists of declarations of each file.  It has no declarations, so it
goes by the stored kinds and indices, and it sorts each list by the indices at the end.
-/

namespace Cangjie.IncrementalCompilation

/-- The table of a top-level declaration. -/
abbrev StoredTopDecl := RawMangledName × TopLevelCache

/-- The names on the lists of the files, with their indices. -/
abbrev IndexedFileMap := OrderedMap String (List (RawMangledName × ℤ))

/-- A sort by index; it need not be stable. -/
structure IndexSort where
  sort : List (RawMangledName × ℤ) → List (RawMangledName × ℤ)
  perm_sort : ∀ l, (sort l).Perm l
  sorted_sort : ∀ l, (sort l).Pairwise fun a b => a.2 ≤ b.2

/-- The sort that keeps the order of equal indices is one of them. -/
def IndexSort.stable : IndexSort where
  sort l := l.insertionSort fun a b => a.2 ≤ b.2
  perm_sort l := List.perm_insertionSort _ l
  sorted_sort l := by
    have : Std.Total fun a b : RawMangledName × ℤ => a.2 ≤ b.2 := ⟨fun a b => le_total a.2 b.2⟩
    have : IsTrans (RawMangledName × ℤ) fun a b => a.2 ≤ b.2 := ⟨fun _ _ _ => le_trans⟩
    exact List.pairwise_insertionSort _ l

namespace HashedASTWriter

/-- The members are written with the static variables first. -/
def write (mangle : RawMangledName) (decl : TopLevelCache) : StoredTopDecl :=
  (mangle, { decl with
    members := (decl.members.filter fun m => m.label.isGV) ++
      decl.members.filter fun m => !m.label.isGV })

/-- The declarations are written in the given order; each of them must have a cache. -/
def writeCachedAST (ast : OrderedMap RawMangledName TopLevelCache) (order : List RawMangledName) :
    Option (List StoredTopDecl) :=
  if ast.entries.isEmpty then some []
  else order.mapM fun mangled => (ast.find? mangled).map (write mangled)

end HashedASTWriter

namespace HashedASTLoader

/-- The kinds of members that may be on the list of a file. -/
def isOOEAffectedMember (decl : DeclCacheBase) : Bool :=
  decl.astKind = ASTKind.VAR_DECL.toUInt8 ∨ decl.astKind = ASTKind.PRIMARY_CTOR_DECL.toUInt8 ∨
    decl.astKind = ASTKind.FUNC_DECL.toUInt8

/-- The kinds of top-level declarations that may be on the list of a file. -/
def isOOEAffectedTopLevel (decl : DeclCacheBase) : Bool :=
  decl.astKind = ASTKind.VAR_DECL.toUInt8 ∨
    decl.astKind = ASTKind.VAR_WITH_PATTERN_DECL.toUInt8 ∨
    decl.astKind = ASTKind.FUNC_DECL.toUInt8 ∨ decl.astKind = ASTKind.MAIN_DECL.toUInt8 ∨
    decl.astKind = ASTKind.MACRO_DECL.toUInt8

/-- A name is put on the list of its file. -/
def emplaceBack (mangle : RawMangledName) (decl : DeclCacheBase) (fileMap : IndexedFileMap) :
    IndexedFileMap :=
  fileMap.assign decl.gvid.file (fileMap.valueD decl.gvid.file [] ++ [(mangle, decl.gvid.id)])

def pushMember (fileMap : IndexedFileMap) (member : MemberCache) : IndexedFileMap :=
  emplaceBack member.name member.label fileMap

def pushStaticVar (fileMap : IndexedFileMap) (member : MemberCache) : IndexedFileMap :=
  if member.label.isGV then pushMember fileMap member else fileMap

/-- The members of a member are put on the list whatever their kind. -/
def pushOther (fileMap : IndexedFileMap) (member : MemberCache) : IndexedFileMap :=
  let fileMap := member.children.foldl pushMember fileMap
  if isOOEAffectedMember member.label ∧ !member.label.isGV then pushMember fileMap member
  else fileMap

/-- The members of a top-level declaration are put on the lists of their files. -/
def load (decl : TopLevelCache) (fileMap : IndexedFileMap) : IndexedFileMap :=
  decl.members.foldl pushOther (decl.members.foldl pushStaticVar fileMap)

/-- A table is loaded, and its name is put on the list unless it is a variable of a pattern. -/
def loadTopDecl (state : OrderedMap RawMangledName TopLevelCache × IndexedFileMap)
    (t : StoredTopDecl) : OrderedMap RawMangledName TopLevelCache × IndexedFileMap :=
  let (ret, fileMap) := state
  let fileMap := load t.2 fileMap
  let base := t.2.toDeclCacheBase
  let fileMap :=
    if isOOEAffectedTopLevel base ∧ ¬ (base.astKind = ASTKind.VAR_DECL.toUInt8 ∧ !base.isGV) then
      emplaceBack t.1 base fileMap
    else fileMap
  (ret.emplace t.1 t.2, fileMap)

def loadCachedAST (topDecls : List StoredTopDecl) :
    OrderedMap RawMangledName TopLevelCache × IndexedFileMap :=
  topDecls.foldl loadTopDecl (.empty, .empty)

/-- The lists of the files, sorted by index. -/
def sortedFileMap (std : IndexSort) (topDecls : List StoredTopDecl) : IndexedFileMap :=
  (loadCachedAST topDecls).2.mapValues std.sort

/-- The cache of the package and the lists of its files. -/
def deserializeData (std : IndexSort) (topDecls : List StoredTopDecl) :
    OrderedMap RawMangledName TopLevelCache × OrderedMap String (List RawMangledName) :=
  ((loadCachedAST topDecls).1, (sortedFileMap std topDecls).mapTo fun l => l.map Prod.fst)

end HashedASTLoader

end Cangjie.IncrementalCompilation
