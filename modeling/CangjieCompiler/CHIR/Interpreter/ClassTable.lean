import CangjieCompiler.CHIR.Interpreter.LinkedRun
import Mathlib.Logic.Relation

/-!
# The class table

What linking a class does to the information that the linker has about classes.  A class has
information once it is linked, and keeps it.  Linking a class that the package declares links its
super classes first, and then adds its information; a class that the package does not declare is
added without any.
-/

namespace Cangjie.CHIR.Interpreter.BCHIRLinker

open Relation

/-! ## Information by name -/

/-- The information about a class by its name. -/
def infoOf (l : BCHIRLinker) (name : String) : Option ClassInfo :=
  (l.mName2ClassId name).bind l.classTable

/-- Classes are numbered one after the other, and only numbered classes have information. -/
structure ClassesOk (l : BCHIRLinker) : Prop where
  numbering : IsNumbering l.mName2ClassId l.classId
  bounded : ∀ id info, l.classTable id = some info → id < l.classId

/-- A state in which the classes are as before, but for numbers that are new. -/
structure SameClasses (l l' : BCHIRLinker) : Prop where
  ok : l.ClassesOk → l'.ClassesOk
  infoOf : l.ClassesOk → ∀ name, l'.infoOf name = l.infoOf name

lemma SameClasses.refl (l : BCHIRLinker) : SameClasses l l := ⟨id, fun _ _ => rfl⟩

lemma SameClasses.trans {l l' l'' : BCHIRLinker} (h : SameClasses l l') (h' : SameClasses l' l'') :
    SameClasses l l'' :=
  ⟨fun hl => h'.ok (h.ok hl), fun hl name => (h'.infoOf (h.ok hl) name).trans (h.infoOf hl name)⟩

/-- A state with the same tables of classes. -/
lemma SameClasses.of_eq {l l' : BCHIRLinker} (hids : l'.mName2ClassId = l.mName2ClassId)
    (hnext : l'.classId = l.classId) (htable : l'.classTable = l.classTable) :
    SameClasses l l' where
  ok := fun hl => ⟨by rw [hids, hnext]; exact hl.numbering, by
    rw [htable, hnext]
    exact hl.bounded⟩
  infoOf := fun _ name => by
    unfold BCHIRLinker.infoOf
    rw [hids, htable]

/-- A new number has no information. -/
lemma getClassId_sameClasses (l : BCHIRLinker) (name : String) :
    SameClasses l (l.getClassId name).2 := by
  unfold getClassId
  cases hname : l.mName2ClassId name with
  | some id => exact SameClasses.refl l
  | none =>
    refine ⟨fun hl => ⟨hl.numbering.fresh hname, fun id info hid => ?_⟩, fun hl other => ?_⟩
    · exact Nat.lt_succ_of_lt (hl.bounded id info hid)
    · unfold BCHIRLinker.infoOf
      by_cases hne : other = name
      · have hfresh : l.classTable l.classId = none := by
          cases hinfo : l.classTable l.classId with
          | none => rfl
          | some info => exact absurd (hl.bounded _ _ hinfo) (Nat.lt_irrefl _)
        rw [hne, hname]
        simp [hfresh]
      · dsimp only
        rw [Function.update_of_ne hne]

lemma getMethodId_sameClasses (l : BCHIRLinker) (name : String) :
    SameClasses l (l.getMethodId name).2 := by
  unfold getMethodId
  cases l.mName2MethodId name with
  | some id => exact SameClasses.refl l
  | none => exact SameClasses.of_eq rfl rfl rfl

lemma linkVTable_sameClasses (l : BCHIRLinker) (vtable : List (String × String)) :
    SameClasses l (l.linkVTable vtable).2 :=
  linkVTable_state SameClasses.refl SameClasses.trans getMethodId_sameClasses l vtable

/-- Adding information about a class that has none. -/
lemma infoOf_addClass {l : BCHIRLinker} (hl : l.ClassesOk) {name : String} {id : ByteCodeContent}
    (hid : l.mName2ClassId name = some id) (hnone : l.infoOf name = none) (info : ClassInfo) :
    (l.addClass id info).ClassesOk ∧
      ∀ other, (l.addClass id info).infoOf other =
        if other = name then some info else l.infoOf other := by
  have htable : l.classTable id = none := by
    unfold infoOf at hnone
    rw [hid] at hnone
    exact hnone
  have hemplace : emplace l.classTable id info = Function.update l.classTable id (some info) := by
    unfold emplace
    rw [htable]
    rfl
  unfold addClass
  rw [hemplace]
  refine ⟨⟨hl.numbering, fun i info' hi => ?_⟩, fun other => ?_⟩
  · by_cases hne : i = id
    · rw [hne]
      exact hl.numbering.lt name id hid
    · dsimp only at hi
      rw [Function.update_of_ne hne] at hi
      exact hl.bounded i info' hi
  · unfold infoOf
    dsimp only
    by_cases hne : other = name
    · rw [if_pos hne, hne, hid]
      simp
    · rw [if_neg hne]
      cases hother : l.mName2ClassId other with
      | none => rfl
      | some i =>
        have hi : i ≠ id := by
          rintro rfl
          exact hne (hl.numbering.injective other name i hother hid)
        simp [Function.update_of_ne hi]

/-! ## Linking one class -/

section LinkClass

variable {bchir : Bchir} {fuel : ℕ} {l : BCHIRLinker} {name : String}

/-- A class that has information is left alone. -/
lemma linkClass_of_some (h : l.infoOf name ≠ none) :
    linkClass bchir (fuel + 1) l name = l := by
  unfold infoOf at h
  unfold linkClass
  cases hid : l.mName2ClassId name with
  | none => exact absurd (by rw [hid]; rfl) h
  | some id =>
    rw [hid] at h
    have hinfo : (l.classTable id).isSome := Option.isSome_iff_ne_none.mpr h
    have hget : l.getClassId name = (id, l) := by
      unfold getClassId
      rw [hid]
    simp [hget, hinfo]

/-- A class without information is numbered and does not return early. -/
lemma not_linked_of_none (h : l.infoOf name = none) :
    ¬ ((l.mName2ClassId name).isSome ∧ (l.classTable (l.getClassId name).1).isSome) := by
  rintro ⟨hid, hinfo⟩
  obtain ⟨id, hid⟩ := Option.isSome_iff_exists.mp hid
  have hget : (l.getClassId name).1 = id := by
    unfold getClassId
    rw [hid]
  unfold infoOf at h
  rw [hid] at h
  rw [hget] at hinfo
  exact absurd h (Option.isSome_iff_ne_none.mp hinfo)

/-- A class that the package does not declare is added without any information. -/
lemma linkClass_undeclared (hl : l.ClassesOk) (h : l.infoOf name = none)
    (hdecl : bchir.getSClass name = none) :
    (linkClass bchir (fuel + 1) l name).ClassesOk ∧
      ∀ other, (linkClass bchir (fuel + 1) l name).infoOf other =
        if other = name then some (emptyClassInfo name) else l.infoOf other := by
  have hunfold : linkClass bchir (fuel + 1) l name =
      (l.getClassId name).2.addClass (l.getClassId name).1 (emptyClassInfo name) := by
    rw [linkClass]
    dsimp only
    rw [if_neg (not_linked_of_none h), hdecl]
  have hsame := getClassId_sameClasses l name
  obtain ⟨hok, hinfo⟩ := infoOf_addClass (hsame.ok hl) (getClassId_self l name)
    ((hsame.infoOf hl name).trans h) (emptyClassInfo name)
  rw [hunfold]
  exact ⟨hok, fun other => by rw [hinfo, hsame.infoOf hl]⟩

/-- The information about a class once its super classes are linked. -/
def linkedInfo (l : BCHIRLinker) (sClassInfo : SClassInfo) (name : String) : ClassInfo where
  superClasses := l.collectSuperClasses sClassInfo.superClasses
  vtable := (l.linkVTable sClassInfo.vtable).1
  finalizerIdx := (l.linkVTable sClassInfo.vtable).2.linkFinalizer sClassInfo.finalizer
  mangledName := name

/-- The state when the super classes of a class are linked. -/
def afterSupers (bchir : Bchir) (fuel : ℕ) (l : BCHIRLinker) (name : String)
    (sClassInfo : SClassInfo) : BCHIRLinker :=
  sClassInfo.superClasses.foldl (linkClass bchir fuel) (l.getClassId name).2

/-- A class that the package declares is linked after its super classes. -/
lemma linkClass_declared (h : l.infoOf name = none) {sClassInfo : SClassInfo}
    (hdecl : bchir.getSClass name = some sClassInfo) :
    linkClass bchir (fuel + 1) l name =
      ((afterSupers bchir fuel l name sClassInfo).linkVTable sClassInfo.vtable).2.addClass
        (l.getClassId name).1
        (linkedInfo (afterSupers bchir fuel l name sClassInfo) sClassInfo name) := by
  rw [linkClass]
  dsimp only
  rw [if_neg (not_linked_of_none h), hdecl]
  rfl

/-- The information after linking a class that the package declares, when its super classes do not
link it. -/
lemma infoOf_linkClass_declared {sClassInfo : SClassInfo}
    (hl : (afterSupers bchir fuel l name sClassInfo).ClassesOk) (h : l.infoOf name = none)
    (hdecl : bchir.getSClass name = some sClassInfo)
    (hsupers : (afterSupers bchir fuel l name sClassInfo).infoOf name = none) :
    (linkClass bchir (fuel + 1) l name).ClassesOk ∧
      ∀ other, (linkClass bchir (fuel + 1) l name).infoOf other =
        if other = name then
          some (linkedInfo (afterSupers bchir fuel l name sClassInfo) sClassInfo name)
        else (afterSupers bchir fuel l name sClassInfo).infoOf other := by
  have hvtable := linkVTable_sameClasses (afterSupers bchir fuel l name sClassInfo)
    sClassInfo.vtable
  have hgrows : Grows (l.getClassId name).2
      ((afterSupers bchir fuel l name sClassInfo).linkVTable sClassInfo.vtable).2 :=
    (foldl_rel Grows.refl Grows.trans _ (linkClass_grows bchir fuel) _ _).trans
      (linkVTable_state Grows.refl Grows.trans getMethodId_grows _ _)
  obtain ⟨hok, hinfo⟩ := infoOf_addClass (hvtable.ok hl)
    (hgrows.classes name _ (getClassId_self l name)) ((hvtable.infoOf hl name).trans hsupers)
    (linkedInfo (afterSupers bchir fuel l name sClassInfo) sClassInfo name)
  rw [linkClass_declared h hdecl]
  exact ⟨hok, fun other => by rw [hinfo, hvtable.infoOf hl]⟩

end LinkClass

/-! ## The declared hierarchy -/

/-- Some package declares the class with this information. -/
def Declares (packages : List Bchir) (name : String) (sClassInfo : SClassInfo) : Prop :=
  ∃ p ∈ packages, p.getSClass name = some sClassInfo

/-- Some package declares the class with this super class. -/
def Super (packages : List Bchir) (name superClass : String) : Prop :=
  ∃ sClassInfo, Declares packages name sClassInfo ∧ superClass ∈ sClassInfo.superClasses

/-- The tables of the packages are parts of one acyclic class table. -/
structure ClassHierarchy (packages : List Bchir) : Prop where
  consistent : ∀ name sClassInfo sClassInfo', Declares packages name sClassInfo →
    Declares packages name sClassInfo' → sClassInfo = sClassInfo'
  acyclic : ∀ name, ¬ TransGen (Super packages) name name

/-- The super classes of a class are those that any package that declares it gives. -/
lemma ClassHierarchy.super_iff {packages : List Bchir} (h : ClassHierarchy packages) {name : String}
    {sClassInfo : SClassInfo} (hdecl : Declares packages name sClassInfo) (superClass : String) :
    Super packages name superClass ↔ superClass ∈ sClassInfo.superClasses := by
  constructor
  · rintro ⟨other, hother, hmem⟩
    rwa [h.consistent name sClassInfo other hdecl hother]
  · exact fun hmem => ⟨sClassInfo, hdecl, hmem⟩

/-! ## The depth of the recursion -/

/-- The classes whose linking is under way are distinct classes that the package declares, so the
fuel is enough for a chain of all classes of the package. -/
def EnoughFuel (packages : List Bchir) (p : Bchir) (fuel : ℕ) (name : String) : Prop :=
  ∃ path : List String, path.Nodup ∧
    (∀ y ∈ path, (p.getSClass y).isSome ∧ TransGen (Super packages) y name) ∧
    p.sClassTable.length < fuel + path.length

lemma mem_keys_of_getSClass {p : Bchir} {name : String} (h : (p.getSClass name).isSome) :
    name ∈ p.sClassTable.map Prod.fst := by
  obtain ⟨info, hinfo⟩ := Option.isSome_iff_exists.mp h
  obtain ⟨front, back, hsplit, -⟩ := List.lookup_eq_some_iff.mp hinfo
  rw [hsplit]
  simp

lemma not_enoughFuel_zero (packages : List Bchir) (p : Bchir) (name : String) :
    ¬ EnoughFuel packages p 0 name := by
  rintro ⟨path, hnodup, hpath, hlength⟩
  have hsub : path ⊆ p.sClassTable.map Prod.fst := fun y hy => mem_keys_of_getSClass (hpath y hy).1
  have hle := (hnodup.subperm hsub).length_le
  rw [List.length_map] at hle
  omega

lemma enoughFuel_linkDepth (packages : List Bchir) (p : Bchir) (name : String) :
    EnoughFuel packages p (linkDepth p) name :=
  ⟨[], List.nodup_nil, fun _ h => absurd h List.not_mem_nil, Nat.lt_succ_self _⟩

lemma EnoughFuel.super {packages : List Bchir} (hier : ClassHierarchy packages) {p : Bchir}
    (hp : p ∈ packages) {fuel : ℕ} {name : String} (h : EnoughFuel packages p (fuel + 1) name)
    {sClassInfo : SClassInfo} (hdecl : p.getSClass name = some sClassInfo) {superClass : String}
    (hsuper : superClass ∈ sClassInfo.superClasses) : EnoughFuel packages p fuel superClass := by
  obtain ⟨path, hnodup, hpath, hlength⟩ := h
  have hstep : Super packages name superClass := ⟨sClassInfo, ⟨p, hp, hdecl⟩, hsuper⟩
  refine ⟨name :: path, List.nodup_cons.mpr ⟨fun hmem => ?_, hnodup⟩, fun y hy => ?_, ?_⟩
  · exact hier.acyclic name (hpath name hmem).2
  · rcases List.mem_cons.mp hy with rfl | hy
    · exact ⟨by rw [hdecl]; rfl, TransGen.single hstep⟩
    · exact ⟨(hpath y hy).1, (hpath y hy).2.tail hstep⟩
  · rw [List.length_cons]
    omega

/-! ## What linking a class registers -/

/-- The classes that are registered between two states: all those of a list, and otherwise only
super classes of them.  Information is kept. -/
structure Registers (packages : List Bchir) (names : List String) (l l' : BCHIRLinker) : Prop where
  ok : l'.ClassesOk
  registered : ∀ name ∈ names, l'.infoOf name ≠ none
  kept : ∀ name info, l.infoOf name = some info → l'.infoOf name = some info
  only : ∀ name, l'.infoOf name ≠ none → l.infoOf name = none →
    ∃ root ∈ names, ReflTransGen (Super packages) root name

lemma Registers.nil {packages : List Bchir} {l : BCHIRLinker} (hl : l.ClassesOk) :
    Registers packages [] l l :=
  ⟨hl, fun _ h => absurd h List.not_mem_nil, fun _ _ h => h, fun _ h h' => absurd h' h⟩

lemma Registers.cons {packages : List Bchir} {first : String} {rest : List String}
    {l l' l'' : BCHIRLinker} (h : Registers packages [first] l l')
    (h' : Registers packages rest l' l'') : Registers packages (first :: rest) l l'' where
  ok := h'.ok
  registered := fun name hname => by
    rcases List.mem_cons.mp hname with rfl | hname
    · obtain ⟨info, hinfo⟩ := Option.ne_none_iff_exists'.mp
        (h.registered name List.mem_cons_self)
      rw [h'.kept name info hinfo]
      exact Option.some_ne_none info
    · exact h'.registered name hname
  kept := fun name info hinfo => h'.kept name info (h.kept name info hinfo)
  only := fun name hname hnone => by
    by_cases hmiddle : l'.infoOf name = none
    · obtain ⟨root, hroot, hreach⟩ := h'.only name hname hmiddle
      exact ⟨root, List.mem_cons_of_mem _ hroot, hreach⟩
    · obtain ⟨root, hroot, hreach⟩ := h.only name hmiddle hnone
      obtain rfl := List.mem_singleton.mp hroot
      exact ⟨root, List.mem_cons_self, hreach⟩

/-- Registering the classes of a list one after the other. -/
lemma foldl_registers {packages : List Bchir} {step : BCHIRLinker → String → BCHIRLinker}
    (names : List String)
    (hstep : ∀ name ∈ names, ∀ l : BCHIRLinker, l.ClassesOk →
      Registers packages [name] l (step l name))
    (l : BCHIRLinker) (hl : l.ClassesOk) : Registers packages names l (names.foldl step l) := by
  induction names generalizing l with
  | nil => exact Registers.nil hl
  | cons first rest ih =>
    have hfirst := hstep first List.mem_cons_self l hl
    exact hfirst.cons (ih (fun name hname => hstep name (List.mem_cons_of_mem _ hname)) _ hfirst.ok)

section Register

variable {packages : List Bchir} (hier : ClassHierarchy packages) {p : Bchir} (hp : p ∈ packages)

include hier hp

/-- A class is not linked while its super classes are. -/
lemma not_registered_by_supers {name : String} {sClassInfo : SClassInfo} {l l' : BCHIRLinker}
    (hdecl : p.getSClass name = some sClassInfo)
    (hsupers : Registers packages sClassInfo.superClasses l l') (hnone : l.infoOf name = none) :
    l'.infoOf name = none := by
  by_contra hsome
  obtain ⟨root, hroot, hreach⟩ := hsupers.only name hsome hnone
  have hstep : Super packages name root := ⟨sClassInfo, ⟨p, hp, hdecl⟩, hroot⟩
  exact hier.acyclic name (TransGen.head' hstep hreach)

/-- Linking a class registers it, and otherwise only super classes of it. -/
theorem linkClass_registers (fuel : ℕ) (l : BCHIRLinker) (name : String)
    (hfuel : EnoughFuel packages p fuel name) (hl : l.ClassesOk) :
    Registers packages [name] l (linkClass p fuel l name) := by
  induction fuel generalizing l name with
  | zero => exact absurd hfuel (not_enoughFuel_zero packages p name)
  | succ fuel ih =>
    by_cases hnone : l.infoOf name = none
    swap
    · rw [linkClass_of_some hnone]
      exact ⟨hl, fun other hother => List.mem_singleton.mp hother ▸ hnone, fun _ _ h => h,
        fun _ h h' => absurd h' h⟩
    cases hdecl : p.getSClass name with
    | none =>
      have hundeclared : (linkClass p (fuel + 1) l name).ClassesOk ∧
          ∀ other, (linkClass p (fuel + 1) l name).infoOf other =
            if other = name then some (emptyClassInfo name) else l.infoOf other :=
        linkClass_undeclared hl hnone hdecl
      obtain ⟨hok, hinfo⟩ := hundeclared
      refine ⟨hok, fun other hother => ?_, fun other info hother => ?_, fun other hother hbefore => ?_⟩
      · rw [hinfo, if_pos (List.mem_singleton.mp hother)]
        exact Option.some_ne_none _
      · have hne : other ≠ name := by
          rintro rfl
          exact absurd (hnone.symm.trans hother) (by simp)
        rw [hinfo, if_neg hne, hother]
      · by_cases hne : other = name
        · exact ⟨name, List.mem_singleton_self name, hne ▸ ReflTransGen.refl⟩
        · rw [hinfo, if_neg hne] at hother
          exact absurd hbefore hother
    | some sClassInfo =>
      have hnumber := getClassId_sameClasses l name
      have hsupers : Registers packages sClassInfo.superClasses (l.getClassId name).2
          (afterSupers p fuel l name sClassInfo) :=
        foldl_registers sClassInfo.superClasses
          (fun superClass hsuper l' hl' => ih l' superClass (hfuel.super hier hp hdecl hsuper) hl')
          _ (hnumber.ok hl)
      have hnot := not_registered_by_supers hier hp hdecl hsupers
        ((hnumber.infoOf hl name).trans hnone)
      obtain ⟨hok, hinfo⟩ := infoOf_linkClass_declared hsupers.ok hnone hdecl hnot
      refine ⟨hok, fun other hother => ?_, fun other info hother => ?_, fun other hother hbefore => ?_⟩
      · rw [hinfo, if_pos (List.mem_singleton.mp hother)]
        exact Option.some_ne_none _
      · have hne : other ≠ name := by
          rintro rfl
          exact absurd (hnone.symm.trans hother) (by simp)
        rw [hinfo, if_neg hne]
        exact hsupers.kept other info ((hnumber.infoOf hl other).trans hother)
      · by_cases hne : other = name
        · exact ⟨name, List.mem_singleton_self name, hne ▸ ReflTransGen.refl⟩
        · rw [hinfo, if_neg hne] at hother
          obtain ⟨root, hroot, hreach⟩ :=
            hsupers.only other hother ((hnumber.infoOf hl other).trans hbefore)
          have hstep : Super packages name root := ⟨sClassInfo, ⟨p, hp, hdecl⟩, hroot⟩
          exact ⟨name, List.mem_singleton_self name, hreach.head hstep⟩

/-- What holds of a state and is kept when a name is numbered, when a class that the package does
not declare is added, and when a class that it declares is added after its super classes, is kept
when a class is linked. -/
theorem linkClass_rule {P : BCHIRLinker → Prop} {Q : String → Prop}
    (hnumber : ∀ l name, l.ClassesOk → P l → P (l.getClassId name).2)
    (hempty : ∀ l name id, l.ClassesOk → P l → Q name → l.mName2ClassId name = some id →
      l.infoOf name = none → p.getSClass name = none → P (l.addClass id (emptyClassInfo name)))
    (hdeclared : ∀ l name id sClassInfo, l.ClassesOk → P l → l.mName2ClassId name = some id →
      l.infoOf name = none → p.getSClass name = some sClassInfo →
      (∀ superClass ∈ sClassInfo.superClasses, l.infoOf superClass ≠ none) →
      P ((l.linkVTable sClassInfo.vtable).2.addClass id (linkedInfo l sClassInfo name)))
    (hsuper : ∀ name sClassInfo, p.getSClass name = some sClassInfo →
      ∀ superClass ∈ sClassInfo.superClasses, Q superClass)
    (fuel : ℕ) (l : BCHIRLinker) (name : String) (hfuel : EnoughFuel packages p fuel name)
    (hname : Q name) (hl : l.ClassesOk) (hP : P l) : P (linkClass p fuel l name) := by
  induction fuel generalizing l name with
  | zero => exact absurd hfuel (not_enoughFuel_zero packages p name)
  | succ fuel ih =>
    by_cases hnone : l.infoOf name = none
    swap
    · rwa [linkClass_of_some hnone]
    have hnumbered := getClassId_sameClasses l name
    have hstart := hnumber l name hl hP
    cases hdecl : p.getSClass name with
    | none =>
      have hunfold : linkClass p (fuel + 1) l name =
          (l.getClassId name).2.addClass (l.getClassId name).1 (emptyClassInfo name) := by
        rw [linkClass]
        dsimp only
        rw [if_neg (not_linked_of_none hnone), hdecl]
      rw [hunfold]
      exact hempty _ name _ (hnumbered.ok hl) hstart hname (getClassId_self l name)
        ((hnumbered.infoOf hl name).trans hnone) hdecl
    | some sClassInfo =>
      have hfold : ∀ (names : List String), (∀ s ∈ names, s ∈ sClassInfo.superClasses) →
          ∀ l' : BCHIRLinker, l'.ClassesOk → P l' → P (names.foldl (linkClass p fuel) l') := by
        intro names hnames
        induction names with
        | nil => exact fun l' _ hl' => hl'
        | cons first rest ihrest =>
          intro l' hok hl'
          have hmem := hnames first List.mem_cons_self
          have hfirst := hfuel.super hier hp hdecl hmem
          exact ihrest (fun s hs => hnames s (List.mem_cons_of_mem _ hs)) _
            (linkClass_registers hier hp fuel l' first hfirst hok).ok
            (ih l' first hfirst (hsuper name sClassInfo hdecl first hmem) hok hl')
      have hsupers : Registers packages sClassInfo.superClasses (l.getClassId name).2
          (afterSupers p fuel l name sClassInfo) :=
        foldl_registers sClassInfo.superClasses
          (fun superClass hmem l' hl' =>
            linkClass_registers hier hp fuel l' superClass (hfuel.super hier hp hdecl hmem) hl')
          _ (hnumbered.ok hl)
      have hgrows : Grows (l.getClassId name).2 (afterSupers p fuel l name sClassInfo) :=
        foldl_rel Grows.refl Grows.trans _ (linkClass_grows p fuel) _ _
      rw [linkClass_declared hnone hdecl]
      exact hdeclared _ name _ sClassInfo hsupers.ok
        (hfold _ (fun _ h => h) _ (hnumbered.ok hl) hstart)
        (hgrows.classes name _ (getClassId_self l name))
        (not_registered_by_supers hier hp hdecl hsupers ((hnumbered.infoOf hl name).trans hnone))
        hdecl hsupers.registered

end Register

end Cangjie.CHIR.Interpreter.BCHIRLinker
