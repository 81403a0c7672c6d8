import CangjieCompiler.IncrementalCompilation.CachedDataSerialization

/-!
# The comparison of orders

The cached list of a file and the current one are compared.  A declaration is to be compiled again
when a global variable that stood before it in the cache now has a larger index, and when it has
come from another file.

The names of the added declarations are a parameter.
-/

namespace Cangjie.IncrementalCompilation

namespace OrderDiffCompare

def isGV (decl : DeclView) : Bool :=
  decl.isGlobalOrStaticVar ∨ decl.astKind = .VAR_WITH_PATTERN_DECL

/-- The index of each name; the last one counts. -/
def buildGvidMap (cur : List FileDecl) : OrderedMap RawMangledName ℤ :=
  cur.foldl (fun h d => h.assign d.decl.rawMangleName d.gvid) .empty

section Order

variable (gvidMap : OrderedMap RawMangledName ℤ) (md : RawMangledName → Option DeclView)

/-- The largest index up to each name that is still in the file, where only global variables count
for the names behind them. -/
def buildMaxidsFrom (last : ℤ) : List RawMangledName → Option (List ℤ)
  | [] => some []
  | b :: old =>
    match gvidMap.find? b with
    | none => buildMaxidsFrom last old
    | some id => do
      let maxid := max id last
      let decl ← md b
      let maxids ← buildMaxidsFrom (if isGV decl then maxid else last) old
      return maxid :: maxids

/-- The first number is a dummy. -/
def buildMaxids (old : List RawMangledName) : Option (List ℤ) := do
  let maxids ← buildMaxidsFrom gvidMap md 0 old
  return 0 :: maxids

def findRecompileDeclsFrom (maxids : List ℤ) (rid : ℕ) (result : List DeclView) :
    List RawMangledName → Option (List DeclView)
  | [] => some result
  | b :: old =>
    match gvidMap.find? b with
    | none => findRecompileDeclsFrom maxids rid result old
    | some id => do
      let maxid ← maxids[rid + 1]?
      if id < maxid then
        let decl ← md b
        findRecompileDeclsFrom maxids (rid + 1) (result.insert decl) old
      else findRecompileDeclsFrom maxids (rid + 1) result old

def findRecompileDeclsFromOrder (old : List RawMangledName) (maxids : List ℤ)
    (result : List DeclView) : Option (List DeclView) :=
  findRecompileDeclsFrom gvidMap md maxids 0 result old

end Order

/-- The current list is run over from its end, which is the head here. -/
def findRecompileDeclsFromFileMove (oldNames exclude : List RawMangledName) :
    List FileDecl → List DeclView → List DeclView
  | [], result => result
  | d :: before, result =>
    if d.decl.rawMangleName ∈ exclude then
      findRecompileDeclsFromFileMove oldNames exclude before result
    else if d.decl.rawMangleName ∈ oldNames then
      findRecompileDeclsFromFileMove oldNames exclude before result
    else if isGV d.decl then
      -- all declarations before a variable that was moved here are compiled again
      before.foldr (fun d result => result.insert d.decl) (result.insert d.decl)
    else findRecompileDeclsFromFileMove oldNames exclude before (result.insert d.decl)

variable (md : RawMangledName → Option DeclView) (exc : List RawMangledName)

/-- The declarations of a file that are to be compiled again; the names in the old list that are
still in the file must be known. -/
def compareOrders (old : List RawMangledName) (cur : List FileDecl) : Option (List DeclView) := do
  let gvidMap := buildGvidMap cur
  let maxids ← buildMaxids gvidMap md old
  let res ← findRecompileDeclsFromOrder gvidMap md old maxids []
  return findRecompileDeclsFromFileMove old exc cur.reverse res

/-- The comparison of the files that the cache has. -/
def compareCachedFile (curFileMap : OrderedMap String (List FileDecl))
    (e : String × List RawMangledName) : Option (List DeclView) :=
  match curFileMap.find? e.1 with
  | none => some []
  | some l2 => compareOrders md exc e.2 l2

/-- The comparison of the files that the cache does not have. -/
def compareNewFile (cachedFileMap : OrderedMap String (List RawMangledName))
    (e : String × List FileDecl) : Option (List DeclView) :=
  match cachedFileMap.find? e.1 with
  | none => compareOrders md exc [] e.2
  | some _ => some []

def orderChanges (cachedFileMap : OrderedMap String (List RawMangledName))
    (curFileMap : OrderedMap String (List FileDecl)) : Option (List DeclView) := do
  let changes ← cachedFileMap.entries.mapM (compareCachedFile md exc curFileMap)
  let moved ← curFileMap.entries.mapM (compareNewFile md exc cachedFileMap)
  return changes.flatten ++ moved.flatten

end OrderDiffCompare

/-! ## The comparison with the previous compilation -/

/-- The part of a cache that the diff of declarations reads. -/
def TopLevelCache.toDiff (cache : TopLevelCache) : TopLevelDeclCache :=
  { hashes := cache.hashes
    astKind := cache.astKind
    members := NamedTree.mapLabels DeclCacheBase.hashes cache.members
    instVarHash := cache.instVarHash
    virtHash := cache.virtHash }

def toASTCache (m : OrderedMap RawMangledName TopLevelCache) : ASTCache :=
  ⟨(m.mapTo TopLevelCache.toDiff).entries, (m.mapTo TopLevelCache.toDiff).nodup_keys⟩

/-- The declarations of the imported packages go before those of the source package. -/
def mergeDecls (imported : RawMangledName → Option DeclView)
    (source : OrderedMap RawMangledName DeclView) (mangled : RawMangledName) : Option DeclView :=
  (imported mangled).or (source.find? mangled)

/-- The difference of the source package to its cache, and the declarations that are to be compiled
again because of their order. -/
def compareCurPkgASTCache (mangled2Decl : RawMangled2DeclMap) (md : RawMangledName → Option DeclView)
    (getAddedDecls : ModifiedDecls → List RawMangledName)
    (cached cur : OrderedMap RawMangledName TopLevelCache)
    (cachedFileMap : OrderedMap String (List RawMangledName))
    (curFileMap : OrderedMap String (List FileDecl)) : Option (ModifiedDecls × List DeclView) := do
  let ret := ASTDiffImpl.compareCommonDecls mangled2Decl (toASTCache cached) (toASTCache cur) {}
  let orderChanges ←
    OrderDiffCompare.orderChanges md (getAddedDecls ret) cachedFileMap curFileMap
  return (ret, orderChanges)

end Cangjie.IncrementalCompilation
