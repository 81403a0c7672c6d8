import CangjieCompiler.IncrementalCompilation.CacheWalk

/-!
# The walk of a top-level declaration

A top-level declaration leaves its cache and those of the variables of its pattern.  The names in
the caches are those of the declaration, each once, and everything that was put on the list of the
file is found in the caches by the reader.
-/

namespace Cangjie.IncrementalCompilation

open NamedTree HashedASTLoader WalkState

/-! ## Outputs that are complete -/

/-- An output with all that belongs to it, except for some names that have no cache yet and what
the reader will find in their caches. -/
structure Output.Covers (o : Output) (file : String) (pending : List RawMangledName)
    (loads : List IndexedName) : Prop where
  order : o.order.Perm (o.ret.map Prod.fst)
  collected : o.collected.Perm (o.ret.flatMap cacheNames ++ pending)
  recorded : ∀ d ∈ o.decls, d.indexed file ∈ o.ret.flatMap topLoads ++ loads

namespace Output

variable {o o' : Output} {file : String} {pending pending' : List RawMangledName}
  {loads loads' : List IndexedName}

lemma Covers.append (h : o.Covers file pending loads) (h' : o'.Covers file pending' loads') :
    (o.append o').Covers file (pending ++ pending') (loads ++ loads') where
  order := by
    rw [Output.append, List.map_append]
    exact h.order.append h'.order
  collected := by
    rw [Output.append, List.flatMap_append]
    refine (h.collected.append h'.collected).trans ?_
    rw [List.append_assoc, List.append_assoc, ← List.append_assoc pending,
      ← List.append_assoc _ pending]
    exact (List.perm_append_comm.append_right _).append_left _
  recorded d hd := by
    rw [Output.append, List.flatMap_append]
    rcases List.mem_append.mp hd with hd | hd
    · have hmem := h.recorded d hd
      simp only [List.mem_append] at hmem ⊢
      tauto
    · have hmem := h'.recorded d hd
      simp only [List.mem_append] at hmem ⊢
      tauto

/-- The output once the cache of the declaration itself is kept. -/
def close (o : Output) (t : StoredTopDecl) : Output :=
  { decls := o.decls
    collected := o.collected ++ [t.1]
    order := t.1 :: o.order
    ret := o.ret ++ [t] }

lemma Covers.close {t : StoredTopDecl}
    (h : o.Covers file (t.2.members.flatMap namesOf) (topLoads t)) :
    (o.close t).Covers file [] [] where
  order := by
    rw [Output.close, List.map_append]
    exact (h.order.cons t.1).trans (List.perm_append_singleton _ _).symm
  collected := by
    rw [Output.close, List.flatMap_append, List.flatMap_singleton, List.append_nil]
    refine (h.collected.append_right [t.1]).trans ?_
    rw [List.append_assoc]
    exact (List.perm_append_singleton _ _).append_left _
  recorded d hd := by
    rw [Output.close, List.flatMap_append, List.flatMap_singleton, List.append_nil]
    exact h.recorded d hd

end Output

/-! ## What is done for each kind of declaration -/

namespace WalkState.Emits

variable {s s₁ s₂ : WalkState} {lo : ℤ} {o o' : Output}

/-- The name of a declaration is put first, and its cache is kept at the end. -/
lemma close {mangled : RawMangledName} {cache : TopLevelCache} {decl : DeclView}
    (hname : decl.rawMangleName = mangled)
    (h : Emits { s with order := s.order ++ [mangled] } s₁ lo o) :
    Emits s ({ s₁ with ret := s₁.ret.emplace mangled cache }.collectDecl decl) lo
      (o.close (mangled, cache)) where
  declsOf := h.declsOf
  lo_le := h.lo_le
  bounds := h.bounds
  sorted := h.sorted
  known n := by
    have hknown := h.known n
    rw [known_collectDecl, hname, Output.close, List.mem_append, ← or_assoc]
    exact or_congr_left hknown
  order := by
    rw [collectDecl, Output.close]
    exact h.order.trans (List.append_assoc _ _ _)
  ret := by
    rw [collectDecl, Output.close, emplaceAll, List.foldl_append]
    exact congrArg (fun m => OrderedMap.emplace m mangled cache) h.ret
  curFile := h.curFile
  invp := h.invp
  directExtends := h.directExtends

end WalkState.Emits

namespace ASTCacheCalculatorImpl

/-- What the part that depends on the kind does: it keeps the members, and what it puts on the list
is found in the caches it makes or is the declaration itself. -/
def Implements (impl : TopLevelCache → WalkState → TopLevelCache × WalkState) (decl : DeclView)
    (inner : List RawMangledName) (bump : ℤ) (s : WalkState) : Prop :=
  ∀ result : TopLevelCache, result.astKind = decl.astKind.toUInt8 →
    ∃ o, Emits s (impl result s).2 (s.gid + bump) o ∧
      o.Covers s.curFile [] (ownLoads (decl.rawMangleName,
        { (impl result s).1 with gvid := (impl result s).2.gvid })) ∧
      (o.ret.flatMap cacheNames).Perm inner ∧ (impl result s).1.members = result.members

/-- A part of the walk that is complete: the caches have the given names. -/
def Walks (s s' : WalkState) (lo : ℤ) (names : List RawMangledName) : Prop :=
  ∃ o, Emits s s' lo o ∧ o.Covers s.curFile [] [] ∧ (o.ret.flatMap cacheNames).Perm names

lemma Walks.trans {s s₁ s₂ : WalkState} {lo : ℤ} {names names' : List RawMangledName}
    (h₁ : Walks s s₁ lo names) (h₂ : Walks s₁ s₂ s₁.gid names') :
    Walks s s₂ lo (names ++ names') := by
  obtain ⟨o, hemits, hcovers, hnames⟩ := h₁
  obtain ⟨o', hemits', hcovers', hnames'⟩ := h₂
  rw [hemits.curFile] at hcovers'
  refine ⟨o.append o', hemits.trans hemits', hcovers.append hcovers', ?_⟩
  rw [Output.append, List.flatMap_append]
  exact hnames.append hnames'

theorem walks_walkDeclWith (impl : TopLevelCache → WalkState → TopLevelCache × WalkState)
    (decl : DeclView) (members : List MemberDecl) (inner : List RawMangledName) {bump : ℤ}
    {s : WalkState} (himpl : ∀ s₁, s₁.invp = s.invp → Implements impl decl inner bump s₁)
    (hbump : bump = 0 ∨ members = []) :
    Walks s (walkDeclWith (visitTopLevelWith impl decl members) decl s) (s.gid + bump)
      (inner ++ members.flatMap MemberDecl.names ++ [decl.rawMangleName]) := by
  let s₀ : WalkState := { s with order := s.order ++ [decl.rawMangleName] }
  obtain ⟨names, hnames, hvisit⟩ := visitsMembers_visitTopLevelDeclMembers members s₀
  obtain ⟨ds, hemits, hrecorded⟩ := hvisit.emits
  let caches := (visitTopLevelDeclMembers members s₀).1
  let s₁ := (visitTopLevelDeclMembers members s₀).2
  let result : TopLevelCache :=
    { hashes := decl.hashes, astKind := decl.astKind.toUInt8, isGV := false, gvid := ⟨"", 0⟩
      members := caches }
  obtain ⟨o, hemits', hcovers', hinner, hmembers⟩ := himpl s₁ hemits.invp result rfl
  let cache : TopLevelCache := { (impl result s₁).1 with gvid := (impl result s₁).2.gvid }
  have hcovers : Output.Covers { decls := ds, collected := names } s₀.curFile
      (caches.flatMap namesOf) (caches.flatMap memberLoads) :=
    ⟨List.Perm.refl _, hvisit.names.symm, hrecorded⟩
  rw [hemits.curFile] at hcovers'
  have hall := hcovers.append hcovers'
  rw [List.append_nil, ← show cache.members = caches from hmembers] at hall
  have hemitsAll : Emits s₀ (impl result s₁).2 (s.gid + bump)
      (Output.append { decls := ds, collected := names } o) := by
    rcases hbump with hzero | hnil
    · rw [hzero, add_zero] at hemits' ⊢
      exact hemits.trans hemits'
    · have hds : ds = [] := by
        refine List.eq_nil_iff_forall_not_mem.mpr fun d hd => ?_
        have hmem := hrecorded d hd
        rw [hnil] at hmem
        exact absurd hmem List.not_mem_nil
      have hgid : s₁.gid = s.gid := by
        change (visitTopLevelDeclMembers members s₀).2.gid = s.gid
        rw [hnil]
        rfl
      rw [hgid] at hemits'
      refine hemits.trans_of_lists hemits' ?_
      rw [hds] at hemits ⊢
      exact hemits.toLists.nil_trans hemits'.toLists
  refine ⟨_, hemitsAll.close rfl, hall.close, ?_⟩
  rw [Output.close, Output.append, List.flatMap_append, List.flatMap_singleton, List.append_assoc]
  have hcache : (cacheNames (decl.rawMangleName, cache)).Perm
      (members.flatMap MemberDecl.names ++ [decl.rawMangleName]) := by
    rw [cacheNames, show cache.members = caches from hmembers]
    refine (List.perm_append_singleton _ _).symm.trans ?_
    exact (hvisit.names.trans hnames).append_right _
  exact hinner.append hcache

/-! ## The kinds of declarations -/

/-- The reader puts a declaration on the list if its kind is one of those that are listed, where a
variable must have an index of its own. -/
lemma indexed_mem_ownLoads {decl : DeclView} {cache : TopLevelCache} {file : String} {id : ℤ}
    (hgvid : cache.gvid = ⟨file, id⟩) (hcache : cache.astKind = decl.astKind.toUInt8)
    (hkind : (decl.astKind = .VAR_DECL ∧ cache.isGV = true) ∨
      decl.astKind = .VAR_WITH_PATTERN_DECL ∨ decl.astKind = .FUNC_DECL ∨
      decl.astKind = .MAIN_DECL ∨ decl.astKind = .MACRO_DECL) :
    FileDecl.indexed file ⟨decl, id⟩ ∈ ownLoads (decl.rawMangleName, cache) := by
  have hlisted : isOOEAffectedTopLevel cache.toDeclCacheBase ∧
      ¬ (cache.astKind = ASTKind.VAR_DECL.toUInt8 ∧ !cache.isGV) := by
    rw [isOOEAffectedTopLevel, decide_eq_true_iff, hcache]
    rcases hkind with ⟨hkind, hgv⟩ | hkind | hkind | hkind | hkind
    · rw [hkind, hgv]
      exact ⟨Or.inl rfl, fun h => absurd h.2 Bool.false_ne_true⟩
    all_goals
      rw [hkind]
      exact ⟨by decide, fun h => absurd h.1 (by decide)⟩
  rw [ownLoads, if_pos hlisted, hgvid]
  exact List.mem_singleton_self _

/-- A declaration that only sets hashes. -/
lemma implements_of_state_eq {impl : TopLevelCache → WalkState → TopLevelCache × WalkState}
    {decl : DeclView} {s : WalkState} (hstate : ∀ result, (impl result s).2 = s)
    (hmembers : ∀ result, (impl result s).1.members = result.members) :
    Implements impl decl [] 0 s := by
  intro result _
  refine ⟨{}, ?_, ⟨List.Perm.refl _, List.Perm.refl _, fun d hd => absurd hd List.not_mem_nil⟩,
    List.Perm.refl _, hmembers result⟩
  rw [hstate, add_zero]
  exact Emits.refl s

/-- A declaration that may be put on the list, with a kind that the reader puts on the list. -/
lemma implements_push {decl : DeclView} (hkind : decl.astKind = .FUNC_DECL ∨
      decl.astKind = .MAIN_DECL ∨ decl.astKind = .MACRO_DECL) (s : WalkState) :
    Implements (fun result s => (result, s.pushIfOOEAffected decl)) decl [] 0 s := by
  intro result hresult
  have hemits := s.emits_pushIfOOEAffected decl
  refine ⟨_, by rwa [add_zero], ⟨List.Perm.refl _, List.Perm.refl _, fun d hd => ?_⟩,
    List.Perm.refl _, rfl⟩
  dsimp only at hd
  split_ifs at hd
  · rw [List.mem_singleton.mp hd]
    exact indexed_mem_ownLoads (s.gvid_pushIfOOEAffected decl) hresult
      (Or.inr (Or.inr hkind))
  · exact absurd hd List.not_mem_nil

/-- A global variable gets an index of its own. -/
lemma implements_visitVarDecl (d : VarDecl) {s : WalkState} (hs : s.invp = false) :
    Implements (visitVarDecl d) d.view [] 1 s := by
  intro result hresult
  have hvisit : visitVarDecl d result s =
      ({ result with isGV := true }, s.incrementGid.pushIfOOEAffected d.view) := by
    rw [visitVarDecl, hs]
    rfl
  rw [hvisit]
  have hemits := s.emits_incrementGid.trans (s.incrementGid.emits_pushIfOOEAffected d.view)
  refine ⟨_, hemits, ⟨List.Perm.refl _, List.Perm.refl _, fun e he => ?_⟩, List.Perm.refl _, rfl⟩
  rw [Output.append, List.nil_append] at he
  split_ifs at he
  · rw [List.mem_singleton.mp he]
    exact indexed_mem_ownLoads (s.incrementGid.gvid_pushIfOOEAffected d.view) hresult
      (Or.inl ⟨rfl, rfl⟩)
  · exact absurd he List.not_mem_nil

/-- A variable of a pattern has no index of its own and is not put on the list. -/
lemma implements_visitVarDecl_of_invp (d : VarDecl) {s : WalkState} (hs : s.invp = true) :
    Implements (visitVarDecl d) d.view [] 0 s := by
  refine implements_of_state_eq (fun result => ?_) fun result => ?_
  · rw [visitVarDecl, if_pos hs]
  · rw [visitVarDecl, if_pos hs]

lemma walks_walkVarDecl (d : VarDecl) {s : WalkState} (hs : s.invp = true) :
    Walks s (walkVarDecl d s) s.gid [d.view.rawMangleName] := by
  have hwalk := walks_walkDeclWith (visitVarDecl d) d.view [] []
    (fun s₁ h => implements_visitVarDecl_of_invp d (h.trans hs)) (Or.inl rfl)
  rwa [add_zero] at hwalk

lemma walks_visitVarWithPattern (vars : List VarDecl) {s : WalkState} (hs : s.invp = true) :
    Walks s (visitVarWithPattern vars s) s.gid (vars.map fun d => d.view.rawMangleName) := by
  induction vars generalizing s with
  | nil =>
    exact ⟨{}, Emits.refl s, ⟨List.Perm.refl _, List.Perm.refl _,
      fun d hd => absurd hd List.not_mem_nil⟩, List.Perm.refl _⟩
  | cons d vars ih =>
    have hhead := walks_walkVarDecl d hs
    have hinvp : (walkVarDecl d s).invp = true := by
      obtain ⟨o, hemits, -⟩ := hhead
      exact hemits.invp.trans hs
    exact hhead.trans (ih hinvp)

/-- A variable with a pattern has one index for all its variables. -/
lemma implements_varWithPattern (info : SourceInfo) (vars : List VarDecl) {s : WalkState}
    (hs : s.invp = false) :
    Implements (visitTopLevelImpl1 (.varWithPattern info vars))
      (TopDecl.varWithPattern info vars).view (vars.map fun d => d.view.rawMangleName) 1 s := by
  intro result hresult
  let decl := (TopDecl.varWithPattern info vars).view
  let s₀ : WalkState := { s.incrementGid with invp := true }
  let s₁ : WalkState := { visitVarWithPattern vars s₀ with invp := false }
  obtain ⟨o, hemits, hcovers, hnames⟩ := walks_visitVarWithPattern vars (s := s₀) rfl
  have hinner : Emits s s₁ (s.gid + 1) o :=
    { declsOf := hemits.declsOf
      lo_le := hemits.lo_le
      bounds := hemits.bounds
      sorted := hemits.sorted
      known := hemits.known
      order := hemits.order
      ret := hemits.ret
      curFile := hemits.curFile
      invp := hs.symm
      directExtends := hemits.directExtends }
  have hgvid : (s₁.pushBack decl).gvid = ⟨s.curFile, s₁.gid⟩ := by
    rw [WalkState.gvid]
    exact congrArg (GlobalVarIndex.mk · _) hemits.curFile
  have hpush : Output.Covers { decls := [⟨decl, s₁.gid⟩] } s.curFile []
      (ownLoads (decl.rawMangleName,
        { result with isGV := true, gvid := (s₁.pushBack decl).gvid })) := by
    refine ⟨List.Perm.refl _, List.Perm.refl _, fun d hd => ?_⟩
    rw [List.mem_singleton.mp hd]
    exact indexed_mem_ownLoads hgvid hresult (Or.inr (Or.inl rfl))
  refine ⟨_, hinner.trans (s₁.emits_pushBack decl), hcovers.append hpush, ?_, rfl⟩
  change ((o.ret ++ []).flatMap cacheNames).Perm _
  rwa [List.append_nil]

end ASTCacheCalculatorImpl

namespace TopDecl

/-- The names that a declaration puts into the cache; that of an extend without an interface is
shared with others. -/
def names : TopDecl → List RawMangledName
  | varWithPattern info vars => (vars.map fun d => d.view.rawMangleName) ++ [info.rawMangleName]
  | type _ info _ _ members => members.flatMap MemberDecl.names ++ [info.rawMangleName]
  | directExtend d => d.members.flatMap MemberDecl.ownNames
  | decl => [decl.view.rawMangleName]

/-- A variable starts with a new index. -/
def bump (decl : TopDecl) : ℤ := if decl.isVarDeclAbstract then 1 else 0

end TopDecl

namespace ASTCacheCalculatorImpl

/-- A declaration that is not an extend without an interface. -/
theorem walks_walkDecl {decl : TopDecl} (hdecl : ∀ d, decl ≠ .directExtend d) {s : WalkState}
    (hs : s.invp = false) : Walks s (walkDecl decl s) (s.gid + decl.bump) decl.names := by
  cases decl with
  | var d =>
    exact walks_walkDeclWith (visitVarDecl d) d.view [] []
      (fun s₁ h => implements_visitVarDecl d (h.trans hs)) (Or.inr rfl)
  | varWithPattern info vars =>
    have hwalk := walks_walkDeclWith (visitTopLevelImpl1 (.varWithPattern info vars))
      (TopDecl.varWithPattern info vars).view [] (vars.map fun d => d.view.rawMangleName)
      (fun s₁ h => implements_varWithPattern info vars (h.trans hs)) (Or.inr rfl)
    rwa [List.flatMap_nil, List.append_nil] at hwalk
  | func d =>
    exact walks_walkDeclWith (visitTopLevelImpl1 (.func d)) d.view [] []
      (fun s₁ _ => implements_push (Or.inl rfl) s₁) (Or.inl rfl)
  | main info =>
    let decl := (TopDecl.main info).view
    have himpl : ∀ s₁ : WalkState, Implements (visitTopLevelImpl1 (.main info)) decl [] 0 s₁ :=
      implements_push (Or.inr (Or.inl rfl))
    exact walks_walkDeclWith _ decl [] [] (fun s₁ _ => himpl s₁) (Or.inl rfl)
  | macro_ info =>
    let decl := (TopDecl.macro_ info).view
    have himpl : ∀ s₁ : WalkState, Implements (visitTopLevelImpl1 (.macro_ info)) decl [] 0 s₁ :=
      implements_push (Or.inr (Or.inr rfl))
    exact walks_walkDeclWith _ decl [] [] (fun s₁ _ => himpl s₁) (Or.inl rfl)
  | type kind info instVar virt members =>
    let decl := TopDecl.type kind info instVar virt members
    have himpl : ∀ s₁ : WalkState, Implements (visitTopLevelImpl1 decl) decl.view [] 0 s₁ := by
      intro s₁
      refine implements_of_state_eq (fun result => ?_) fun result => ?_
      · cases kind <;> rfl
      · cases kind <;> rfl
    exact walks_walkDeclWith _ decl.view members [] (fun s₁ _ => himpl s₁) (Or.inl rfl)
  | directExtend d => exact absurd rfl (hdecl d)
  | typeAlias info =>
    have himpl : ∀ s₁ : WalkState, Implements (visitTopLevelImpl1 (.typeAlias info))
        (TopDecl.typeAlias info).view [] 0 s₁ :=
      fun s₁ => implements_of_state_eq (fun _ => rfl) fun _ => rfl
    exact walks_walkDeclWith _ (TopDecl.typeAlias info).view [] [] (fun s₁ _ => himpl s₁)
      (Or.inl rfl)

end ASTCacheCalculatorImpl

end Cangjie.IncrementalCompilation
