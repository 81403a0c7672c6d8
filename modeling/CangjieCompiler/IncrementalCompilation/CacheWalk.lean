import CangjieCompiler.IncrementalCompilation.CachedDataSerialization

/-!
# What the walk emits

The walk of a declaration only adds to the state: declarations to the list of the current file,
names to those that are known and to those that are written, and caches.  The indices that are
given out do not decrease.

Every declaration that is put on a list is found again by the reader, with the same file and the
same index, in the caches that are made of it.
-/

namespace Cangjie.IncrementalCompilation

open NamedTree

/-! ## What the reader finds in a cache -/

/-- A name with its index, as it stands in a cache. -/
abbrev IndexedName := RawMangledName × GlobalVarIndex

/-- The name and the index of a declaration on the list of a file. -/
def FileDecl.indexed (file : String) (d : FileDecl) : IndexedName :=
  (d.decl.rawMangleName, ⟨file, d.gvid⟩)

namespace HashedASTLoader

def own (member : MemberCache) : IndexedName := (member.name, member.label.gvid)

/-- What a member puts on the lists in the first pass. -/
def staticLoads (member : MemberCache) : List IndexedName :=
  if member.label.isGV then [own member] else []

/-- What a member puts on the lists in the second pass. -/
def otherLoads (member : MemberCache) : List IndexedName :=
  member.children.map own ++
    if isOOEAffectedMember member.label ∧ !member.label.isGV then [own member] else []

/-- What a member puts on the lists. -/
def memberLoads (member : MemberCache) : List IndexedName :=
  staticLoads member ++ otherLoads member

/-- What a top-level declaration itself puts on the lists. -/
def ownLoads (t : StoredTopDecl) : List IndexedName :=
  if isOOEAffectedTopLevel t.2.toDeclCacheBase ∧
      ¬ (t.2.astKind = ASTKind.VAR_DECL.toUInt8 ∧ !t.2.isGV) then [(t.1, t.2.gvid)]
  else []

/-- What a top-level declaration puts on the lists with its members. -/
def topLoads (t : StoredTopDecl) : List IndexedName := t.2.members.flatMap memberLoads ++ ownLoads t

lemma own_mem_memberLoads {member : MemberCache}
    (h : member.label.isGV = true ∨ isOOEAffectedMember member.label = true) :
    own member ∈ memberLoads member := by
  rw [memberLoads, List.mem_append]
  by_cases hgv : member.label.isGV = true
  · left
    rw [staticLoads, if_pos hgv]
    exact List.mem_singleton_self _
  · right
    have hcond : isOOEAffectedMember member.label ∧ !member.label.isGV := by
      refine ⟨h.resolve_left hgv, ?_⟩
      simpa using hgv
    rw [otherLoads, if_pos hcond]
    exact List.mem_append_right _ (List.mem_singleton_self _)

lemma own_child_mem_memberLoads {member c : MemberCache} (h : c ∈ member.children) :
    own c ∈ memberLoads member :=
  List.mem_append_right _ (List.mem_append_left _ (List.mem_map_of_mem h))

/-- A member without members only puts itself on the lists. -/
lemma eq_own_of_mem_memberLoads {member : MemberCache} (hleaf : member.children = [])
    {x : IndexedName} (h : x ∈ memberLoads member) : x = own member := by
  rw [memberLoads, staticLoads, otherLoads, hleaf, List.map_nil, List.nil_append] at h
  rcases List.mem_append.mp h with h | h
  · split_ifs at h
    · exact List.mem_singleton.mp h
    · exact absurd h List.not_mem_nil
  · split_ifs at h
    · exact List.mem_singleton.mp h
    · exact absurd h List.not_mem_nil

lemma fst_mem_namesOf_of_mem_memberLoads {member : MemberCache} {x : IndexedName}
    (h : x ∈ memberLoads member) : x.1 ∈ namesOf member := by
  have hown : member.name ∈ namesOf member := by
    rw [namesOf_eq]
    exact List.mem_cons_self
  rcases List.mem_append.mp h with hstatic | hother
  · rw [staticLoads] at hstatic
    split_ifs at hstatic
    · rw [List.mem_singleton.mp hstatic]
      exact hown
    · exact absurd hstatic List.not_mem_nil
  · rcases List.mem_append.mp hother with hchild | hself
    · obtain ⟨c, hc, rfl⟩ := List.mem_map.mp hchild
      rw [namesOf_eq, names_placesIn]
      refine List.mem_cons_of_mem _ (List.mem_flatMap.mpr ⟨c, hc, ?_⟩)
      rw [namesOf_eq]
      exact List.mem_cons_self
    · split_ifs at hself
      · rw [List.mem_singleton.mp hself]
        exact hown
      · exact absurd hself List.not_mem_nil

/-- The names in the cache of a top-level declaration. -/
def cacheNames (t : StoredTopDecl) : List RawMangledName := t.1 :: t.2.members.flatMap namesOf

lemma fst_mem_cacheNames_of_mem_topLoads {t : StoredTopDecl} {x : IndexedName}
    (h : x ∈ topLoads t) : x.1 ∈ cacheNames t := by
  rcases List.mem_append.mp h with hmember | hown
  · obtain ⟨m, hm, hx⟩ := List.mem_flatMap.mp hmember
    exact List.mem_cons_of_mem _
      (List.mem_flatMap.mpr ⟨m, hm, fst_mem_namesOf_of_mem_memberLoads hx⟩)
  · rw [ownLoads] at hown
    split_ifs at hown
    · rw [List.mem_singleton.mp hown]
      exact List.mem_cons_self
    · exact absurd hown List.not_mem_nil

end HashedASTLoader

open HashedASTLoader

/-! ## The effect of a part of the walk -/

/-- What a part of the walk adds to the state. -/
structure Output where
  decls : List FileDecl := []
  collected : List RawMangledName := []
  order : List RawMangledName := []
  ret : List StoredTopDecl := []

def Output.append (o o' : Output) : Output :=
  { decls := o.decls ++ o'.decls
    collected := o.collected ++ o'.collected
    order := o.order ++ o'.order
    ret := o.ret ++ o'.ret }

namespace WalkState

/-- The name of a declaration that has been collected. -/
def Known (s : WalkState) (n : RawMangledName) : Prop := (s.mangled2Decl.find? n).isSome

/-- The caches are put into the map one after the other. -/
def emplaceAll (m : OrderedMap RawMangledName TopLevelCache) (ts : List StoredTopDecl) :
    OrderedMap RawMangledName TopLevelCache :=
  ts.foldl (fun m t => m.emplace t.1 t.2) m

/-- A part of the walk within a file puts declarations on the list of the file, with indices that
do not decrease and are at least `lo`. -/
structure Lists (s s' : WalkState) (lo : ℤ) (ds : List FileDecl) : Prop where
  declsOf : ∀ file, s'.declsOf file = s.declsOf file ++ if file = s.curFile then ds else []
  lo_le : lo ≤ s'.gid
  bounds : ∀ d ∈ ds, lo ≤ d.gvid ∧ d.gvid ≤ s'.gid
  sorted : ds.Pairwise fun a b => a.gvid ≤ b.gvid
  curFile : s'.curFile = s.curFile

/-- A part of the walk within a file adds the output to the state. -/
structure Emits (s s' : WalkState) (lo : ℤ) (o : Output) : Prop extends
    Lists s s' lo o.decls where
  known : ∀ n, s'.Known n ↔ s.Known n ∨ n ∈ o.collected
  order : s'.order = s.order ++ o.order
  ret : s'.ret = emplaceAll s.ret o.ret
  invp : s'.invp = s.invp
  directExtends : s'.directExtends = s.directExtends

namespace Lists

variable {s s₁ s₂ : WalkState} {lo : ℤ} {ds ds' : List FileDecl}

lemma refl (s : WalkState) : Lists s s s.gid [] where
  declsOf file := by rw [ite_self, List.append_nil]
  lo_le := le_rfl
  bounds _ h := absurd h List.not_mem_nil
  sorted := List.Pairwise.nil
  curFile := rfl

lemma trans (h₁ : Lists s s₁ lo ds) (h₂ : Lists s₁ s₂ s₁.gid ds') :
    Lists s s₂ lo (ds ++ ds') where
  declsOf file := by
    rw [h₂.declsOf, h₁.declsOf, h₁.curFile, List.append_assoc]
    split_ifs <;> rfl
  lo_le := h₁.lo_le.trans h₂.lo_le
  bounds d hd := by
    rcases List.mem_append.mp hd with hd | hd
    · obtain ⟨hlo, hhi⟩ := h₁.bounds d hd
      exact ⟨hlo, hhi.trans h₂.lo_le⟩
    · obtain ⟨hlo, hhi⟩ := h₂.bounds d hd
      exact ⟨h₁.lo_le.trans hlo, hhi⟩
  sorted := List.pairwise_append.mpr ⟨h₁.sorted, h₂.sorted, fun a ha b hb =>
    (h₁.bounds a ha).2.trans (h₂.bounds b hb).1⟩
  curFile := h₂.curFile.trans h₁.curFile

/-- A part of the walk that puts nothing on the list does not restrict the indices. -/
lemma nil_trans {lo' : ℤ} (h₁ : Lists s s₁ lo []) (h₂ : Lists s₁ s₂ lo' ds) :
    Lists s s₂ lo' ds where
  declsOf file := by
    rw [h₂.declsOf, h₁.declsOf, h₁.curFile, ite_self, List.append_nil]
  lo_le := h₂.lo_le
  bounds := h₂.bounds
  sorted := h₂.sorted
  curFile := h₂.curFile.trans h₁.curFile

lemma mono {lo' : ℤ} (h : Lists s s₁ lo ds) (hle : lo' ≤ lo) : Lists s s₁ lo' ds :=
  { h with
    lo_le := hle.trans h.lo_le
    bounds := fun d hd => ⟨hle.trans (h.bounds d hd).1, (h.bounds d hd).2⟩ }

end Lists

namespace Emits

variable {s s₁ s₂ : WalkState} {lo : ℤ} {o o' : Output}

lemma refl (s : WalkState) : Emits s s s.gid {} :=
  { Lists.refl s with
    known := by simp
    order := (List.append_nil _).symm
    ret := rfl
    invp := rfl
    directExtends := rfl }

/-- Two parts of the walk, whatever is known of the lists. -/
lemma trans_of_lists {lo₁ lo₂ lo' : ℤ} (h₁ : Emits s s₁ lo₁ o) (h₂ : Emits s₁ s₂ lo₂ o')
    (h : Lists s s₂ lo' (o.decls ++ o'.decls)) : Emits s s₂ lo' (o.append o') :=
  { h with
    known := fun n => by
      rw [h₂.known, h₁.known, or_assoc]
      exact or_congr_right List.mem_append.symm
    order := by rw [h₂.order, h₁.order, List.append_assoc]; rfl
    ret := by rw [h₂.ret, h₁.ret]; exact (List.foldl_append).symm
    invp := h₂.invp.trans h₁.invp
    directExtends := h₂.directExtends.trans h₁.directExtends }

lemma trans (h₁ : Emits s s₁ lo o) (h₂ : Emits s₁ s₂ s₁.gid o') :
    Emits s s₂ lo (o.append o') :=
  h₁.trans_of_lists h₂ (h₁.toLists.trans h₂.toLists)

lemma mono {lo' : ℤ} (h : Emits s s₁ lo o) (hle : lo' ≤ lo) : Emits s s₁ lo' o :=
  { h with toLists := h.toLists.mono hle }

end Emits

/-! ## The operations on the state -/

variable (s : WalkState) (decl : DeclView)

lemma declsOf_pushBack (file : String) :
    (s.pushBack decl).declsOf file =
      s.declsOf file ++ if file = s.curFile then [⟨decl, s.gid⟩] else [] := by
  rw [declsOf, pushBack, OrderedMap.valueD_assign]
  split_ifs with h h' h'
  · rw [h]
  · exact absurd h.symm h'
  · exact absurd h'.symm h
  · exact (List.append_nil _).symm

lemma lists_pushBack : Lists s (s.pushBack decl) s.gid [⟨decl, s.gid⟩] where
  declsOf := s.declsOf_pushBack decl
  lo_le := le_rfl
  bounds d hd := by
    rw [List.mem_singleton.mp hd]
    exact ⟨le_rfl, le_rfl⟩
  sorted := List.pairwise_singleton _ _
  curFile := rfl

lemma emits_pushBack : Emits s (s.pushBack decl) s.gid { decls := [⟨decl, s.gid⟩] } :=
  { s.lists_pushBack decl with
    known := by simp [Known, pushBack]
    order := (List.append_nil _).symm
    ret := rfl
    invp := rfl
    directExtends := rfl }

lemma emits_pushIfOOEAffected : Emits s (s.pushIfOOEAffected decl) s.gid
    { decls := if decl.isOOEAffectedDecl then [⟨decl, s.gid⟩] else [] } := by
  rw [pushIfOOEAffected]
  split_ifs
  · exact s.emits_pushBack decl
  · exact Emits.refl s

lemma gid_pushIfOOEAffected : (s.pushIfOOEAffected decl).gid = s.gid := by
  rw [pushIfOOEAffected]
  split_ifs <;> rfl

lemma gvid_pushIfOOEAffected : (s.pushIfOOEAffected decl).gvid = ⟨s.curFile, s.gid⟩ := by
  rw [pushIfOOEAffected]
  split_ifs <;> rfl

lemma known_collectDecl (n : RawMangledName) :
    (s.collectDecl decl).Known n ↔ s.Known n ∨ n ∈ [decl.rawMangleName] := by
  rw [Known, collectDecl, OrderedMap.find?_assign, List.mem_singleton, Known]
  split_ifs with h
  · exact iff_of_true rfl (Or.inr h.symm)
  · exact ⟨Or.inl, fun h' => h'.resolve_right fun heq => h heq.symm⟩

lemma emits_collectDecl :
    Emits s (s.collectDecl decl) s.gid { collected := [decl.rawMangleName] } :=
  { Emits.refl s with known := s.known_collectDecl decl }

lemma emits_incrementGid : Emits s s.incrementGid (s.gid + 1) {} :=
  { Emits.refl s with
    lo_le := le_rfl
    bounds := fun _ h => absurd h List.not_mem_nil }

end WalkState

/-! ## Members -/

/-- A member that may be put on a list has a kind that the reader puts on a list. -/
def DeclView.Listable (decl : DeclView) : Prop :=
  decl.isOOEAffectedDecl = true → decl.isMemberParam = true ∨
    decl.astKind = .VAR_DECL ∨ decl.astKind = .PRIMARY_CTOR_DECL ∨ decl.astKind = .FUNC_DECL

lemma FuncDecl.listable (d : FuncDecl) : d.view.Listable := fun _ => Or.inr (Or.inr (Or.inr rfl))

lemma MemberDecl.listable : ∀ m : MemberDecl, m.view.Listable
  | var _ => fun _ => Or.inr (Or.inl rfl)
  | func d => d.listable
  | prop _ _ _ _ => fun h => absurd h Bool.false_ne_true
  | primaryCtor _ _ => fun _ => Or.inr (Or.inr (Or.inl rfl))

namespace ASTCacheCalculatorImpl

open WalkState

/-- A part of the walk that visits members: the names are those of the caches, and what is put on
the list is found in the caches. -/
structure VisitsMembers (s s' : WalkState) (caches : List MemberCache)
    (names : List RawMangledName) : Prop where
  emits : ∃ ds, Emits s s' s.gid { decls := ds, collected := names } ∧
    ∀ d ∈ ds, d.indexed s.curFile ∈ caches.flatMap memberLoads
  names : (caches.flatMap namesOf).Perm names

lemma VisitsMembers.refl (s : WalkState) : VisitsMembers s s [] [] :=
  ⟨⟨[], Emits.refl s, fun _ h => absurd h List.not_mem_nil⟩, List.Perm.refl _⟩

lemma VisitsMembers.trans {s s₁ s₂ : WalkState} {caches caches' : List MemberCache}
    {names names' : List RawMangledName} (h₁ : VisitsMembers s s₁ caches names)
    (h₂ : VisitsMembers s₁ s₂ caches' names') :
    VisitsMembers s s₂ (caches ++ caches') (names ++ names') := by
  obtain ⟨ds₁, hemits₁, hrecorded₁⟩ := h₁.emits
  obtain ⟨ds₂, hemits₂, hrecorded₂⟩ := h₂.emits
  rw [hemits₁.curFile] at hrecorded₂
  refine ⟨⟨ds₁ ++ ds₂, hemits₁.trans hemits₂, fun d hd => ?_⟩, ?_⟩
  · rw [List.flatMap_append]
    rcases List.mem_append.mp hd with hd | hd
    · exact List.mem_append_left _ (hrecorded₁ d hd)
    · exact List.mem_append_right _ (hrecorded₂ d hd)
  · rw [List.flatMap_append]
    exact h₁.names.append h₂.names

lemma visitsMembers_visitAll {α : Type} (visit : α → WalkState → List MemberCache × WalkState)
    (names : α → List RawMangledName) (xs : List α)
    (h : ∀ x ∈ xs, ∀ s, VisitsMembers s (visit x s).2 (visit x s).1 (names x)) (s : WalkState) :
    VisitsMembers s (visitAll visit xs s).2 (visitAll visit xs s).1 (xs.flatMap names) := by
  induction xs generalizing s with
  | nil => exact VisitsMembers.refl s
  | cons x xs ih =>
    rw [List.flatMap_cons]
    exact (h x List.mem_cons_self s).trans
      (ih (fun y hy => h y (List.mem_cons_of_mem _ hy)) (visit x s).2)

/-- What one declaration emits: its index is the one of the state behind it. -/
lemma emits_visitDecl (decl : DeclView) (members : List MemberCache) (s : WalkState) :
    Emits s (visitDecl decl members s).2 s.gid
      { decls :=
          if decl.isOOEAffectedDecl then [⟨decl, (visitDecl decl members s).2.gid⟩] else []
        collected := [decl.rawMangleName] } := by
  rw [visitDecl]
  dsimp only
  rw [gid_pushIfOOEAffected]
  have hcollect := s.emits_collectDecl decl
  split_ifs with hstatic hlisted hlisted
  · have hincrement := (s.collectDecl decl).emits_incrementGid.mono (le_add_of_nonneg_right zero_le_one)
    have hpush := (s.collectDecl decl).incrementGid.emits_pushIfOOEAffected decl
    rw [if_pos hlisted] at hpush
    exact (hcollect.trans hincrement).trans hpush
  · have hincrement := (s.collectDecl decl).emits_incrementGid.mono (le_add_of_nonneg_right zero_le_one)
    have hpush := (s.collectDecl decl).incrementGid.emits_pushIfOOEAffected decl
    rw [if_neg hlisted] at hpush
    exact (hcollect.trans hincrement).trans hpush
  · have hpush := (s.collectDecl decl).emits_pushIfOOEAffected decl
    rw [if_pos hlisted] at hpush
    exact hcollect.trans hpush
  · have hpush := (s.collectDecl decl).emits_pushIfOOEAffected decl
    rw [if_neg hlisted] at hpush
    exact hcollect.trans hpush

lemma own_visitDecl (decl : DeclView) (members : List MemberCache) (s : WalkState) :
    own (visitDecl decl members s).1 =
      FileDecl.indexed s.curFile ⟨decl, (visitDecl decl members s).2.gid⟩ := by
  rw [visitDecl]
  dsimp only [own, NamedTree.name, NamedTree.label, WalkState.gvid, FileDecl.indexed]
  rw [gid_pushIfOOEAffected]
  split_ifs <;> rfl

lemma isListed_visitDecl {decl : DeclView} (hdecl : decl.Listable)
    (hlisted : decl.isOOEAffectedDecl = true) (members : List MemberCache) (s : WalkState) :
    isOOEAffectedMember (visitDecl decl members s).1.label = true := by
  rw [visitDecl]
  dsimp only [NamedTree.label]
  rw [isOOEAffectedMember, decide_eq_true_iff]
  dsimp only
  split_ifs with hparam
  · exact Or.inl rfl
  · rcases (hdecl hlisted).resolve_left hparam with hkind | hkind | hkind
    · exact Or.inl (by rw [hkind])
    · exact Or.inr (Or.inl (by rw [hkind]))
    · exact Or.inr (Or.inr (by rw [hkind]))

/-- A member whose own members have been visited; these have no members. -/
lemma visitsMembers_visitDecl {decl : DeclView} (hdecl : decl.Listable) {s s₁ : WalkState}
    {members : List MemberCache} {names : List RawMangledName}
    (hleaves : ∀ m ∈ members, m.children = []) (h : VisitsMembers s s₁ members names) :
    VisitsMembers s (visitDecl decl members s₁).2 [(visitDecl decl members s₁).1]
      (names ++ [decl.rawMangleName]) := by
  obtain ⟨ds, hemits, hrecorded⟩ := h.emits
  have hemits' := emits_visitDecl decl members s₁
  have hown := own_visitDecl decl members s₁
  rw [hemits.curFile] at hown
  refine ⟨⟨_, hemits.trans hemits', fun d hd => ?_⟩, ?_⟩
  · rw [List.flatMap_singleton]
    rcases List.mem_append.mp hd with hd | hd
    · obtain ⟨m, hm, hload⟩ := List.mem_flatMap.mp (hrecorded d hd)
      have hself : d.indexed s.curFile = own m := eq_own_of_mem_memberLoads (hleaves m hm) hload
      rw [hself]
      exact own_child_mem_memberLoads hm
    · split_ifs at hd with hlisted
      · rw [List.mem_singleton.mp hd, ← hown]
        exact own_mem_memberLoads (Or.inr (isListed_visitDecl hdecl hlisted members s₁))
      · exact absurd hd List.not_mem_nil
  · have hnode : namesOf (visitDecl decl members s₁).1 =
        decl.rawMangleName :: members.flatMap namesOf := namesOf_node _ _ _
    rw [List.flatMap_singleton, hnode]
    exact (List.perm_append_singleton _ _).symm.trans (h.names.append_right _)

lemma visitsMembers_visitLeaf {decl : DeclView} (hdecl : decl.Listable) (s : WalkState) :
    VisitsMembers s (visitLeaf decl s).2 (visitLeaf decl s).1 [decl.rawMangleName] :=
  visitsMembers_visitDecl hdecl (fun _ hm => absurd hm List.not_mem_nil) (VisitsMembers.refl s)

lemma children_visitAll_visitLeaf (decls : List DeclView) (s : WalkState) :
    ∀ m ∈ (visitAll visitLeaf decls s).1, m.children = [] := by
  induction decls generalizing s with
  | nil => exact fun m hm => absurd hm List.not_mem_nil
  | cons decl decls ih =>
    intro m hm
    rcases List.mem_cons.mp hm with rfl | hm
    · rfl
    · exact ih _ m hm

end ASTCacheCalculatorImpl

/-- The names of a member and of its own members. -/
def MemberDecl.ownNames (m : MemberDecl) : List RawMangledName :=
  (m.getMembers.map fun d => d.view.rawMangleName) ++ [m.view.rawMangleName]

/-- The names of a member, of its own members and of its member parameters. -/
def MemberDecl.names (m : MemberDecl) : List RawMangledName :=
  m.ownNames ++ m.memberParams.map fun d => d.view.rawMangleName

namespace ASTCacheCalculatorImpl

lemma visitsMembers_visitLeaves {decls : List DeclView} (h : ∀ d ∈ decls, d.Listable)
    (s : WalkState) :
    VisitsMembers s (visitAll visitLeaf decls s).2 (visitAll visitLeaf decls s).1
      (decls.map DeclView.rawMangleName) := by
  rw [List.map_eq_flatMap]
  exact visitsMembers_visitAll visitLeaf _ decls (fun d hd => visitsMembers_visitLeaf (h d hd)) s

lemma visitsMembers_visitMember (m : MemberDecl) (s : WalkState) :
    VisitsMembers s (visitMember m s).2 [(visitMember m s).1] m.ownNames := by
  have hlistable : ∀ d ∈ m.getMembers.map FuncDecl.view, d.Listable := by
    intro d hd
    obtain ⟨f, -, rfl⟩ := List.mem_map.mp hd
    exact f.listable
  have hmembers := visitsMembers_visitLeaves hlistable s
  rw [List.map_map] at hmembers
  exact visitsMembers_visitDecl m.listable (children_visitAll_visitLeaf _ s) hmembers

lemma visitsMembers_visitOtherMember (m : MemberDecl) (s : WalkState) :
    VisitsMembers s (visitOtherMember m s).2 (visitOtherMember m s).1 m.names := by
  have hlistable : ∀ d ∈ m.memberParams.map FuncParam.view, d.Listable := by
    intro d hd
    obtain ⟨param, hparam, rfl⟩ := List.mem_map.mp hd
    refine fun _ => Or.inl ?_
    cases m with
    | primaryCtor info params => exact (List.mem_filter.mp hparam).2
    | _ => exact absurd hparam List.not_mem_nil
  have hparams := visitsMembers_visitLeaves hlistable (visitMember m s).2
  rw [List.map_map] at hparams
  exact (visitsMembers_visitMember m s).trans hparams

/-- A static variable has no member parameters. -/
lemma visitsMembers_visitStaticVar {m : MemberDecl} (hm : m.view.isStaticVar = true)
    (s : WalkState) : VisitsMembers s (visitStaticVar m s).2 (visitStaticVar m s).1 m.names := by
  have hparams : m.memberParams = [] := by
    cases m with
    | primaryCtor info params => exact absurd hm (by simp [DeclView.isStaticVar, MemberDecl.view,
        SourceInfo.view])
    | _ => rfl
  have hvisit := visitsMembers_visitMember m s
  rw [MemberDecl.names, hparams, List.map_nil, List.append_nil]
  exact hvisit

lemma visitsMembers_visitTopLevelDeclMembers (members : List MemberDecl) (s : WalkState) :
    ∃ names, names.Perm (members.flatMap MemberDecl.names) ∧
      VisitsMembers s (visitTopLevelDeclMembers members s).2
        (visitTopLevelDeclMembers members s).1 names := by
  have hstatics := visitsMembers_visitAll visitStaticVar MemberDecl.names
    (members.filter fun m => m.view.isStaticVar)
    (fun m hm => visitsMembers_visitStaticVar (List.mem_filter.mp hm).2) s
  have hothers := visitsMembers_visitAll visitOtherMember MemberDecl.names
    (members.filter fun m => !m.view.isStaticVar) (fun m _ => visitsMembers_visitOtherMember m)
    (visitAll visitStaticVar (members.filter fun m => m.view.isStaticVar) s).2
  refine ⟨_, ?_, hstatics.trans hothers⟩
  rw [← List.flatMap_append]
  exact (List.filter_append_perm _ members).flatMap_right _

end ASTCacheCalculatorImpl

end Cangjie.IncrementalCompilation
