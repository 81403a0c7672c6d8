import CangjieCompiler.CHIR.Interpreter.LinkedClasses

/-!
# Completeness of class linking

A class is linked as declared when its super classes are all classes above it in the hierarchy that
the packages declare together, and its table of methods is the declared one with the functions as
indices.  The classes that the linker registers without any information are those that an operation
names without its package declaring them, and those that a class of a package has as a super class
before a package that declares them is reached.  All classes are linked as declared exactly when
none of these has anything to declare.
-/

namespace Cangjie.CHIR.Interpreter.BCHIRLinker

open Relation

/-! ## Classes linked as declared -/

/-- The super classes of a class are those above it in the declared hierarchy. -/
structure SupersRight (packages : List Bchir) (l : BCHIRLinker) (name : String)
    (info : ClassInfo) : Prop where
  numbered : ∀ above, TransGen (Super packages) name above → l.mName2ClassId above ≠ none
  mem_iff : ∀ id, id ∈ info.superClasses ↔
    ∃ above, TransGen (Super packages) name above ∧ l.mName2ClassId above = some id

/-- The table of methods is the declared one, with the functions as indices. -/
structure VTableRight (l : BCHIRLinker) (sClassInfo : SClassInfo) (info : ClassInfo) : Prop where
  numbered : ∀ methodName func, sClassInfo.vtable.lookup methodName = some func →
    l.mName2MethodId methodName ≠ none
  eq_some_iff : ∀ id idx, info.vtable id = some idx ↔
    ∃ methodName func, sClassInfo.vtable.lookup methodName = some func ∧
      l.mName2MethodId methodName = some id ∧
      idx = (l.mName2FuncBodyIdx func).getD l.dummyAbortFuncIdx

/-- Every class that a package declares is linked as declared. -/
def ClassesLinked (packages : List Bchir) (l : BCHIRLinker) : Prop :=
  ∀ name sClassInfo, Declares packages name sClassInfo →
    ∃ info, l.infoOf name = some info ∧ SupersRight packages l name info ∧
      VTableRight l sClassInfo info

/-- Every class that a package declares is linked as declared, and the test of the interpreter for a
subclass is the declared relation. -/
structure ClassesComplete (packages : List Bchir) (l : BCHIRLinker) : Prop where
  linked : ClassesLinked packages l
  isSubclass_iff : ∀ lhs rhs lhsId rhsId, (∃ sClassInfo, Declares packages lhs sClassInfo) →
    l.mName2ClassId lhs = some lhsId → l.mName2ClassId rhs = some rhsId →
      (l.isSubclass lhsId rhsId = true ↔ ReflTransGen (Super packages) lhs rhs)

/-- No package declares super classes or methods of the class. -/
def NothingDeclared (packages : List Bchir) (name : String) : Prop :=
  ∀ sClassInfo, Declares packages name sClassInfo →
    sClassInfo.superClasses = [] ∧ sClassInfo.vtable = []

/-- A class of a package has the class as a super class, while neither that package nor an earlier
one declares it. -/
def ReachedEarly (packages : List Bchir) (name : String) : Prop :=
  ∃ earlier p later, packages = earlier ++ p :: later ∧
    (∃ user sClassInfo, p.getSClass user = some sClassInfo ∧ name ∈ sClassInfo.superClasses) ∧
    ∀ q ∈ earlier ++ [p], q.getSClass name = none

section Later

variable {packages : List Bchir} {l l' : BCHIRLinker} {name : String} {info : ClassInfo}

lemma SupersRight.later (h : SupersRight packages l name info) (hgrows : Grows l l') :
    SupersRight packages l' name info where
  numbered := fun above habove => by
    obtain ⟨id, hid⟩ := Option.ne_none_iff_exists'.mp (h.numbered above habove)
    rw [hgrows.classes above id hid]
    exact Option.some_ne_none id
  mem_iff := fun id => by
    rw [h.mem_iff]
    refine exists_congr fun above => and_congr_right fun habove => ?_
    obtain ⟨id', hid'⟩ := Option.ne_none_iff_exists'.mp (h.numbered above habove)
    rw [hid', hgrows.classes above id' hid']

lemma VTableRight.later {sClassInfo : SClassInfo} (h : VTableRight l sClassInfo info)
    (hgrows : Grows l l') (hfuncs : l'.mName2FuncBodyIdx = l.mName2FuncBodyIdx) :
    VTableRight l' sClassInfo info where
  numbered := fun methodName func hfunc => by
    obtain ⟨id, hid⟩ := Option.ne_none_iff_exists'.mp (h.numbered methodName func hfunc)
    rw [hgrows.methods methodName id hid]
    exact Option.some_ne_none id
  eq_some_iff := fun id idx => by
    rw [h.eq_some_iff]
    refine exists_congr fun methodName => exists_congr fun func =>
      and_congr_right fun hfunc => ?_
    obtain ⟨id', hid'⟩ := Option.ne_none_iff_exists'.mp (h.numbered methodName func hfunc)
    rw [hid', hgrows.methods methodName id' hid', hfuncs, hgrows.dummy]

end Later

/-- The test for a subclass, when the classes are linked as declared. -/
lemma isSubclass_iff {packages : List Bchir} {l : BCHIRLinker}
    (hl : IsNumbering l.mName2ClassId l.classId) (hlinked : ClassesLinked packages l)
    {lhs rhs : String} {lhsId rhsId : ByteCodeContent}
    (hlhs : ∃ sClassInfo, Declares packages lhs sClassInfo)
    (hlhsId : l.mName2ClassId lhs = some lhsId) (hrhsId : l.mName2ClassId rhs = some rhsId) :
    l.isSubclass lhsId rhsId = true ↔ ReflTransGen (Super packages) lhs rhs := by
  obtain ⟨sClassInfo, hdecl⟩ := hlhs
  obtain ⟨info, hinfo, hsupers, -⟩ := hlinked lhs sClassInfo hdecl
  unfold infoOf at hinfo
  rw [hlhsId, Option.bind_some] at hinfo
  have hname : ∀ above, l.mName2ClassId above = some rhsId ↔ above = rhs := fun above =>
    ⟨fun h => hl.injective above rhs rhsId h hrhsId, fun h => by rw [h, hrhsId]⟩
  have hsame : lhsId = rhsId ↔ rhs = lhs := by
    constructor
    · rintro rfl
      exact ((hname lhs).mp hlhsId).symm
    · rintro rfl
      exact Option.some.inj (hlhsId.symm.trans hrhsId)
  unfold isSubclass
  rw [hinfo, Option.map_some, Option.getD_some, Bool.or_eq_true, beq_iff_eq, decide_eq_true_iff,
    hsame, reflTransGen_iff_eq_or_transGen, hsupers.mem_iff]
  refine or_congr_right ⟨?_, fun h => ⟨rhs, h, hrhsId⟩⟩
  rintro ⟨above, h, habove⟩
  rwa [← (hname above).mp habove]

/-! ## Classes without any information -/

/-- A class with nothing to declare is right without any information. -/
lemma supersRight_empty {packages : List Bchir} {l : BCHIRLinker} {name : String}
    (h : NothingDeclared packages name) : SupersRight packages l name (emptyClassInfo name) := by
  have hnot : ∀ above, ¬ TransGen (Super packages) name above := by
    intro above habove
    obtain ⟨superClass, ⟨sClassInfo, hdecl, hmem⟩, -⟩ := TransGen.head'_iff.mp habove
    rw [(h sClassInfo hdecl).1] at hmem
    exact absurd hmem List.not_mem_nil
  refine ⟨fun above habove => absurd habove (hnot above), fun id => ?_⟩
  constructor
  · exact fun hmem => absurd hmem (Finset.notMem_empty id)
  · rintro ⟨above, habove, -⟩
    exact absurd habove (hnot above)

lemma vtableRight_empty {packages : List Bchir} {l : BCHIRLinker} {name : String}
    (h : NothingDeclared packages name) {sClassInfo : SClassInfo}
    (hdecl : Declares packages name sClassInfo) :
    VTableRight l sClassInfo (emptyClassInfo name) := by
  have hvtable := (h sClassInfo hdecl).2
  refine ⟨fun methodName func hfunc => ?_, fun id idx => ?_⟩
  · rw [hvtable] at hfunc
    exact absurd hfunc (by simp)
  · rw [hvtable]
    simp [emptyClassInfo]

/-- A class that is right without any information has nothing to declare. -/
lemma nothingDeclared_of_empty {packages : List Bchir} (hier : ClassHierarchy packages)
    {l : BCHIRLinker} {name : String} {sClassInfo : SClassInfo}
    (hdecl : Declares packages name sClassInfo)
    (hsupers : SupersRight packages l name (emptyClassInfo name))
    (hvtable : VTableRight l sClassInfo (emptyClassInfo name)) : NothingDeclared packages name := by
  intro other hother
  obtain rfl := hier.consistent name sClassInfo other hdecl hother
  constructor
  · refine List.eq_nil_iff_forall_not_mem.mpr fun superClass hmem => ?_
    have hstep : TransGen (Super packages) name superClass :=
      TransGen.single ⟨sClassInfo, hdecl, hmem⟩
    obtain ⟨id, hid⟩ := Option.ne_none_iff_exists'.mp (hsupers.numbered superClass hstep)
    exact Finset.notMem_empty id ((hsupers.mem_iff id).mpr ⟨superClass, hstep, hid⟩)
  · cases hentries : sClassInfo.vtable with
    | nil => rfl
    | cons entry rest =>
      have hlookup : sClassInfo.vtable.lookup entry.1 = some entry.2 := by
        rw [hentries]
        simp [List.lookup]
      obtain ⟨id, hid⟩ := Option.ne_none_iff_exists'.mp (hvtable.numbered _ _ hlookup)
      exact absurd ((hvtable.eq_some_iff id _).mpr ⟨_, _, hlookup, hid, rfl⟩) (by
        simp [emptyClassInfo])

/-! ## A class linked after its super classes -/

lemma mem_collectSuperClasses (l : BCHIRLinker) (superClasses : List String) (id : ByteCodeContent) :
    id ∈ l.collectSuperClasses superClasses ↔ ∃ superClass ∈ superClasses,
      id = (l.mName2ClassId superClass).getD 0 ∨
        id ∈ ((l.classTable ((l.mName2ClassId superClass).getD 0)).map
          ClassInfo.superClasses).getD ∅ := by
  have hfold : ∀ (names : List String) (acc : Finset ByteCodeContent),
      id ∈ names.foldl (fun acc superClass =>
        insert ((l.mName2ClassId superClass).getD 0) acc ∪
          ((l.classTable ((l.mName2ClassId superClass).getD 0)).map
            ClassInfo.superClasses).getD ∅) acc ↔
      id ∈ acc ∨ ∃ superClass ∈ names,
        id = (l.mName2ClassId superClass).getD 0 ∨
          id ∈ ((l.classTable ((l.mName2ClassId superClass).getD 0)).map
            ClassInfo.superClasses).getD ∅ := by
    intro names
    induction names with
    | nil => simp
    | cons first rest ih =>
      intro acc
      rw [List.foldl_cons, ih, Finset.mem_union, Finset.mem_insert, List.exists_mem_cons_iff,
        or_assoc, or_assoc, or_left_comm]
      exact or_congr_right or_assoc.symm
  have hcollect := hfold superClasses ∅
  rw [or_iff_right (Finset.notMem_empty id)] at hcollect
  exact hcollect

/-- The super classes that are collected are those above the class, when the super classes are
right. -/
lemma supersRight_linkedInfo {packages : List Bchir} (hier : ClassHierarchy packages)
    {l : BCHIRLinker} {name : String} {sClassInfo : SClassInfo}
    (hdecl : Declares packages name sClassInfo)
    (hsupers : ∀ superClass ∈ sClassInfo.superClasses, ∃ info, l.infoOf superClass = some info ∧
      SupersRight packages l superClass info) :
    SupersRight packages l name (linkedInfo l sClassInfo name) := by
  have hid : ∀ superClass ∈ sClassInfo.superClasses, ∃ id info,
      l.mName2ClassId superClass = some id ∧ l.classTable id = some info ∧
        SupersRight packages l superClass info := by
    intro superClass hmem
    obtain ⟨info, hinfo, hright⟩ := hsupers superClass hmem
    obtain ⟨id, hid, htable⟩ := Option.bind_eq_some_iff.mp hinfo
    exact ⟨id, info, hid, htable, hright⟩
  have habove : ∀ above, TransGen (Super packages) name above ↔
      ∃ superClass ∈ sClassInfo.superClasses,
        above = superClass ∨ TransGen (Super packages) superClass above := by
    intro above
    rw [TransGen.head'_iff]
    refine exists_congr fun superClass => ?_
    rw [hier.super_iff hdecl, reflTransGen_iff_eq_or_transGen]
  refine ⟨fun above h => ?_, fun id => ?_⟩
  · obtain ⟨superClass, hmem, rfl | h⟩ := (habove above).mp h
    · obtain ⟨id, info, hid, -⟩ := hid above hmem
      rw [hid]
      exact Option.some_ne_none id
    · obtain ⟨id, info, -, -, hright⟩ := hid superClass hmem
      exact hright.numbered above h
  · have hmem : id ∈ (linkedInfo l sClassInfo name).superClasses ↔
        id ∈ l.collectSuperClasses sClassInfo.superClasses := Iff.rfl
    rw [hmem, mem_collectSuperClasses]
    constructor
    · rintro ⟨superClass, hsuper, h⟩
      obtain ⟨superId, info, hsuperId, htable, hright⟩ := hid superClass hsuper
      rw [hsuperId, Option.getD_some, htable, Option.map_some, Option.getD_some] at h
      rcases h with rfl | h
      · exact ⟨superClass, (habove superClass).mpr ⟨superClass, hsuper, Or.inl rfl⟩, hsuperId⟩
      · obtain ⟨above, h, haboveId⟩ := (hright.mem_iff id).mp h
        exact ⟨above, (habove above).mpr ⟨superClass, hsuper, Or.inr h⟩, haboveId⟩
    · rintro ⟨above, h, haboveId⟩
      obtain ⟨superClass, hsuper, h⟩ := (habove above).mp h
      obtain ⟨superId, info, hsuperId, htable, hright⟩ := hid superClass hsuper
      refine ⟨superClass, hsuper, ?_⟩
      rw [hsuperId, Option.getD_some, htable, Option.map_some, Option.getD_some]
      rcases h with rfl | h
      · exact Or.inl (Option.some.inj (haboveId.symm.trans hsuperId))
      · exact Or.inr ((hright.mem_iff id).mpr ⟨above, h, haboveId⟩)

/-- Adding an entry to a table of methods. -/
lemma linkVTable_concat (l : BCHIRLinker) (vtable : List (String × String)) (methodName func : String) :
    l.linkVTable (vtable ++ [(methodName, func)]) =
      (emplace (l.linkVTable vtable).1 ((l.linkVTable vtable).2.getMethodId methodName).1
          ((((l.linkVTable vtable).2.getMethodId methodName).2.mName2FuncBodyIdx func).getD
            ((l.linkVTable vtable).2.getMethodId methodName).2.dummyAbortFuncIdx),
        ((l.linkVTable vtable).2.getMethodId methodName).2) := by
  unfold linkVTable
  rw [List.foldl_concat]

lemma lookup_concat (vtable : List (String × String)) (methodName func other f : String) :
    (vtable ++ [(methodName, func)]).lookup other = some f ↔
      vtable.lookup other = some f ∨
        vtable.lookup other = none ∧ other = methodName ∧ f = func := by
  rw [List.lookup_append]
  cases hlookup : vtable.lookup other with
  | some f' => simp
  | none =>
    by_cases hne : other = methodName
    · simp [List.lookup, hne, eq_comm]
    · have hbeq : (other == methodName) = false := beq_false_of_ne hne
      simp [List.lookup, hne, hbeq]

/-- The table of methods that is linked is the declared one. -/
lemma linkVTable_right (l : BCHIRLinker) (hl : l.Numbered) (vtable : List (String × String)) :
    (∀ methodName func, vtable.lookup methodName = some func →
      (l.linkVTable vtable).2.mName2MethodId methodName ≠ none) ∧
    ∀ id idx, (l.linkVTable vtable).1 id = some idx ↔
      ∃ methodName func, vtable.lookup methodName = some func ∧
        (l.linkVTable vtable).2.mName2MethodId methodName = some id ∧
        idx = (l.mName2FuncBodyIdx func).getD l.dummyAbortFuncIdx := by
  induction vtable using List.reverseRecOn with
  | nil => exact ⟨fun _ _ h => absurd h (by simp), fun id idx => by simp [linkVTable]⟩
  | append_singleton vtable entry ih =>
    obtain ⟨methodName, func⟩ := entry
    obtain ⟨ihnumbered, ih⟩ := ih
    have hsame := (linkVTable_state SameCode.refl SameCode.trans getMethodId_sameCode l vtable).trans
      (getMethodId_sameCode (l.linkVTable vtable).2 methodName)
    have hgrows := getMethodId_grows (l.linkVTable vtable).2 methodName
    have hnumbered := hgrows.numbered
      ((linkVTable_state Grows.refl Grows.trans getMethodId_grows l vtable).numbered hl)
    have hself := getMethodId_self (l.linkVTable vtable).2 methodName
    rw [linkVTable_concat, hsame.funcs, hsame.dummy]
    generalize (l.linkVTable vtable).1 = linked at ih ⊢
    generalize ((l.linkVTable vtable).2.getMethodId methodName).2 = l₂ at hgrows hnumbered hself ⊢
    generalize ((l.linkVTable vtable).2.getMethodId methodName).1 = thisId at hself ⊢
    generalize (l.linkVTable vtable).2 = l₁ at ihnumbered ih hgrows
    dsimp only
    -- a method of the table so far keeps its number, and has an entry
    have hentry : ∀ name f, vtable.lookup name = some f → ∃ id, l₁.mName2MethodId name = some id ∧
        l₂.mName2MethodId name = some id := by
      intro name f hname
      obtain ⟨id, hid⟩ := Option.ne_none_iff_exists'.mp (ihnumbered name f hname)
      exact ⟨id, hid, hgrows.methods name id hid⟩
    have hfresh : linked thisId = none ↔ vtable.lookup methodName = none := by
      constructor
      · intro hnone
        by_contra hsome
        obtain ⟨f, hf⟩ := Option.ne_none_iff_exists'.mp hsome
        obtain ⟨id, hid, hid'⟩ := hentry methodName f hf
        obtain rfl := Option.some.inj (hself.symm.trans hid')
        exact absurd (hnone.symm.trans ((ih thisId _).mpr ⟨methodName, f, hf, hid, rfl⟩)) (by simp)
      · intro hnone
        by_contra hsome
        obtain ⟨idx, hidx⟩ := Option.ne_none_iff_exists'.mp hsome
        obtain ⟨name, f, hf, hid, -⟩ := (ih thisId idx).mp hidx
        obtain rfl := hnumbered.2.injective name methodName thisId (hgrows.methods name _ hid) hself
        exact absurd (hnone.symm.trans hf) (by simp)
    refine ⟨fun name f hname => ?_, fun id idx => ⟨fun h => ?_, ?_⟩⟩
    · rcases (lookup_concat vtable methodName func name f).mp hname with hname | ⟨-, rfl, -⟩
      · obtain ⟨id, -, hid⟩ := hentry name f hname
        rw [hid]
        exact Option.some_ne_none id
      · rw [hself]
        exact Option.some_ne_none thisId
    · rcases emplace_eq_some h with h | ⟨rfl, hnone, rfl⟩
      · obtain ⟨name, f, hf, hid, hidx⟩ := (ih id idx).mp h
        exact ⟨name, f, (lookup_concat vtable methodName func name f).mpr (Or.inl hf),
          hgrows.methods name id hid, hidx⟩
      · exact ⟨methodName, func, (lookup_concat vtable methodName func methodName func).mpr
          (Or.inr ⟨hfresh.mp hnone, rfl, rfl⟩), hself, rfl⟩
    · rintro ⟨name, f, hname, hid, hidx⟩
      rcases (lookup_concat vtable methodName func name f).mp hname with hname | ⟨hnone, rfl, rfl⟩
      · obtain ⟨id', hid₁, hid₂⟩ := hentry name f hname
        obtain rfl := Option.some.inj (hid₂.symm.trans hid)
        exact emplace_of_some ((ih id' idx).mpr ⟨name, f, hname, hid₁, hidx⟩)
      · obtain rfl := Option.some.inj (hself.symm.trans hid)
        rw [hidx]
        exact emplace_self (hfresh.mpr hnone)

end Cangjie.CHIR.Interpreter.BCHIRLinker
