import CangjieCompiler.CHIR.Interpreter.ClassLinking
import CangjieCompiler.CHIR.Interpreter.LinkOrder

/-!
# When class linking is complete

The classes of the packages are linked one package after the other.  Two invariants of these runs
are needed: a class with information is linked as declared, as long as only classes with nothing to
declare are registered without any; and a class with information that is not empty has all its super
classes registered, and some package that was reached declares it.
-/

namespace Cangjie.CHIR.Interpreter.BCHIRLinker

open Relation

/-! ## Runs over packages -/

/-- All classes that the packages declare have information. -/
def AllRegistered (packages : List Bchir) (l : BCHIRLinker) : Prop :=
  ∀ q ∈ packages, ∀ name, (q.getSClass name).isSome → l.infoOf name ≠ none

section Run

variable {packages : List Bchir} (hier : ClassHierarchy packages)

include hier

/-- Linking the classes of a package registers them all. -/
lemma linkClasses_registers {p : Bchir} (hp : p ∈ packages) (l : BCHIRLinker) (hl : l.ClassesOk) :
    Registers packages (p.sClassTable.map Prod.fst) l (l.linkClasses p) := by
  have hfold := foldl_registers (p.sClassTable.map Prod.fst)
    (fun name _ l' hl' => linkClass_registers hier hp (linkDepth p) l' name
      (enoughFuel_linkDepth packages p name) hl') l hl
  rw [List.foldl_map] at hfold
  exact hfold

/-- What linking one class of the package keeps is kept when all its classes are linked. -/
lemma linkClasses_rule {p : Bchir} (hp : p ∈ packages) {P : BCHIRLinker → Prop}
    (hstep : ∀ l name, (p.getSClass name).isSome → l.ClassesOk → P l →
      P (linkClass p (linkDepth p) l name))
    (l : BCHIRLinker) (hl : l.ClassesOk) (hP : P l) : P (l.linkClasses p) := by
  have hfold : ∀ entries : List (String × SClassInfo), entries ⊆ p.sClassTable →
      ∀ l' : BCHIRLinker, l'.ClassesOk → P l' →
        P (entries.foldl (fun l q => linkClass p (linkDepth p) l q.1) l') := by
    intro entries hentries
    induction entries with
    | nil => exact fun _ _ h => h
    | cons q rest ih =>
      intro l' hok hl'
      have hq : (p.getSClass q.1).isSome := by
        rw [Bchir.getSClass, List.lookup_isSome_iff]
        exact ⟨q, hentries List.mem_cons_self, by simp⟩
      exact ih (fun _ h => hentries (List.mem_cons_of_mem _ h)) _
        (linkClass_registers hier hp (linkDepth p) l' q.1
          (enoughFuel_linkDepth packages p q.1) hok).ok (hstep l' q.1 hq hok hl')
  exact hfold p.sClassTable (fun _ h => h) l hl hP

/-- An invariant that may speak about the packages that are already linked. -/
lemma linkAllClasses_rule {P : List Bchir → BCHIRLinker → Prop}
    (hstep : ∀ earlier p later, packages = earlier ++ p :: later → ∀ l : BCHIRLinker, l.ClassesOk →
      P earlier l → P (earlier ++ [p]) (l.linkClasses p))
    (earlier middle later : List Bchir) (hpackages : packages = earlier ++ (middle ++ later))
    (l : BCHIRLinker) (hl : l.ClassesOk) (hP : P earlier l) :
    (middle.foldl linkClasses l).ClassesOk ∧ P (earlier ++ middle) (middle.foldl linkClasses l) := by
  induction middle generalizing earlier l with
  | nil =>
    rw [List.append_nil]
    exact ⟨hl, hP⟩
  | cons p rest ih =>
    have hp : p ∈ packages := hpackages ▸ List.mem_append_right _ List.mem_cons_self
    have hrest := ih (earlier ++ [p]) (by rw [hpackages, List.append_assoc]; rfl) (l.linkClasses p)
      (linkClasses_registers hier hp l hl).ok
      (hstep earlier p (rest ++ later) hpackages l hl hP)
    rw [List.append_assoc] at hrest
    exact hrest

/-- Linking the classes of a further package registers them in addition. -/
lemma linkClasses_allRegistered {earlier : List Bchir} {p : Bchir} (hp : p ∈ packages)
    {l : BCHIRLinker} (hl : l.ClassesOk) (h : AllRegistered earlier l) :
    AllRegistered (earlier ++ [p]) (l.linkClasses p) := by
  have hregisters := linkClasses_registers hier hp l hl
  intro q hq name hname
  rcases List.mem_append.mp hq with hq | hq
  · obtain ⟨info, hinfo⟩ := Option.ne_none_iff_exists'.mp (h q hq name hname)
    rw [hregisters.kept name info hinfo]
    exact Option.some_ne_none info
  · rw [List.mem_singleton.mp hq] at hname
    exact hregisters.registered name (mem_keys_of_getSClass hname)

/-- Information is kept while the classes of further packages are linked. -/
lemma linkAllClasses_kept (later : List Bchir) (hlater : later ⊆ packages) (l : BCHIRLinker)
    (hl : l.ClassesOk) {name : String} {info : ClassInfo} (hinfo : l.infoOf name = some info) :
    (later.foldl linkClasses l).infoOf name = some info := by
  induction later generalizing l with
  | nil => exact hinfo
  | cons p rest ih =>
    have hregisters := linkClasses_registers hier (hlater List.mem_cons_self) l hl
    exact ih (fun _ h => hlater (List.mem_cons_of_mem _ h)) _ hregisters.ok
      (hregisters.kept name info hinfo)

end Run

/-! ## Classes that are linked as declared -/

/-- Every class with information is linked as declared. -/
structure AllRight (packages : List Bchir) (l : BCHIRLinker) : Prop where
  numbered : l.Numbered
  supers : ∀ name info, l.infoOf name = some info → SupersRight packages l name info
  vtable : ∀ name info, l.infoOf name = some info →
    ∀ sClassInfo, Declares packages name sClassInfo → VTableRight l sClassInfo info

section Right

variable {packages : List Bchir} {l : BCHIRLinker}

/-- A state with more numbers and the same information. -/
lemma AllRight.later {l' : BCHIRLinker} (h : AllRight packages l) (hl : l.ClassesOk)
    (hgrows : Grows l l') (hsame : SameClasses l l')
    (hfuncs : l'.mName2FuncBodyIdx = l.mName2FuncBodyIdx) : AllRight packages l' where
  numbered := hgrows.numbered h.numbered
  supers := fun name info hinfo => by
    rw [hsame.infoOf hl] at hinfo
    exact (h.supers name info hinfo).later hgrows
  vtable := fun name info hinfo sClassInfo hdecl => by
    rw [hsame.infoOf hl] at hinfo
    exact (h.vtable name info hinfo sClassInfo hdecl).later hgrows hfuncs

/-- Adding a class that is right. -/
lemma AllRight.addClass (h : AllRight packages l) (hl : l.ClassesOk) {name : String}
    {id : ByteCodeContent} (hid : l.mName2ClassId name = some id) (hnone : l.infoOf name = none)
    {info : ClassInfo} (hsupers : SupersRight packages l name info)
    (hvtable : ∀ sClassInfo, Declares packages name sClassInfo → VTableRight l sClassInfo info) :
    AllRight packages (l.addClass id info) := by
  obtain ⟨-, hinfo⟩ := infoOf_addClass hl hid hnone info
  have hgrows := addClass_grows l id info
  refine ⟨h.numbered, fun other info' hother => ?_, fun other info' hother sClassInfo hdecl => ?_⟩
  all_goals
    rw [hinfo] at hother
    by_cases hne : other = name
    · rw [if_pos hne, Option.some.injEq] at hother
      subst hne hother
      first
        | exact hsupers.later hgrows
        | exact (hvtable sClassInfo hdecl).later hgrows rfl
    · rw [if_neg hne] at hother
      first
        | exact (h.supers other info' hother).later hgrows
        | exact (h.vtable other info' hother sClassInfo hdecl).later hgrows rfl

/-- A super class of a class of the package that the package does not declare is registered, or
has nothing to declare. -/
def SupersReached (packages : List Bchir) (p : Bchir) (l : BCHIRLinker) : Prop :=
  ∀ user sClassInfo superClass, p.getSClass user = some sClassInfo →
    superClass ∈ sClassInfo.superClasses → p.getSClass superClass = none →
    l.infoOf superClass ≠ none ∨ NothingDeclared packages superClass

lemma SupersReached.later {p : Bchir} {l' : BCHIRLinker} (h : SupersReached packages p l)
    (hkept : ∀ name, l.infoOf name ≠ none → l'.infoOf name ≠ none) : SupersReached packages p l' :=
  fun user sClassInfo superClass hdecl hsuper hnone =>
    (h user sClassInfo superClass hdecl hsuper hnone).imp_left (hkept superClass)

lemma SupersReached.addClass {p : Bchir} (h : SupersReached packages p l) (hl : l.ClassesOk)
    {name : String} {id : ByteCodeContent} (hid : l.mName2ClassId name = some id)
    (hnone : l.infoOf name = none) (info : ClassInfo) :
    SupersReached packages p (l.addClass id info) := by
  obtain ⟨-, hinfo⟩ := infoOf_addClass hl hid hnone info
  refine h.later fun other hother => ?_
  rw [hinfo]
  split
  · exact Option.some_ne_none info
  · exact hother

/-- Linking the classes of a package keeps every class right, when its super classes from elsewhere
are reached. -/
lemma linkClasses_allRight (hier : ClassHierarchy packages) {p : Bchir} (hp : p ∈ packages)
    (hl : l.ClassesOk) (h : AllRight packages l) (hreached : SupersReached packages p l) :
    AllRight packages (l.linkClasses p) := by
  refine (linkClasses_rule hier hp (P := fun l => AllRight packages l ∧ SupersReached packages p l)
    (fun l name hname hl hP => ?_) l hl ⟨h, hreached⟩).1
  refine linkClass_rule hier hp (P := fun l => AllRight packages l ∧ SupersReached packages p l)
    (Q := fun name => (p.getSClass name).isSome ∨ ∃ user sClassInfo,
      p.getSClass user = some sClassInfo ∧ name ∈ sClassInfo.superClasses)
    ?number ?empty ?declared ?super (linkDepth p) l name (enoughFuel_linkDepth packages p name)
    (Or.inl hname) hl hP
  case number =>
    rintro l name hl ⟨hright, hreached⟩
    have hsame := getClassId_sameClasses l name
    exact ⟨hright.later hl (getClassId_grows l name) hsame (getClassId_sameCode l name).funcs,
      hreached.later fun other hother => by rwa [hsame.infoOf hl]⟩
  case empty =>
    rintro l name id hl ⟨hright, hreached⟩ hname hid hnone hundeclared
    have hnothing : NothingDeclared packages name := by
      rcases hname with hname | ⟨user, sClassInfo, huser, hsuper⟩
      · rw [hundeclared] at hname
        exact absurd hname (by simp)
      · exact (hreached user sClassInfo name huser hsuper hundeclared).resolve_left
          fun h => h hnone
    exact ⟨hright.addClass hl hid hnone (supersRight_empty hnothing)
      (fun _ hdecl => vtableRight_empty hnothing hdecl), hreached.addClass hl hid hnone _⟩
  case declared =>
    rintro l name id sClassInfo hl ⟨hright, hreached⟩ hid hnone hdecl hsupers
    have hdeclares : Declares packages name sClassInfo := ⟨p, hp, hdecl⟩
    have hsame := linkVTable_sameClasses l sClassInfo.vtable
    have hgrows := linkVTable_state Grows.refl Grows.trans getMethodId_grows l sClassInfo.vtable
    have hcode := linkVTable_state SameCode.refl SameCode.trans getMethodId_sameCode l
      sClassInfo.vtable
    obtain ⟨hmethods, hentries⟩ := linkVTable_right l hright.numbered sClassInfo.vtable
    have hid' := hgrows.classes name id hid
    have hnone' : (l.linkVTable sClassInfo.vtable).2.infoOf name = none :=
      (hsame.infoOf hl name).trans hnone
    have hsupersRight : SupersRight packages l name (linkedInfo l sClassInfo name) := by
      refine supersRight_linkedInfo hier hdeclares fun superClass hsuper => ?_
      obtain ⟨info, hinfo⟩ := Option.ne_none_iff_exists'.mp (hsupers superClass hsuper)
      exact ⟨info, hinfo, hright.supers superClass info hinfo⟩
    have hvtable : ∀ other, Declares packages name other →
        VTableRight (l.linkVTable sClassInfo.vtable).2 other (linkedInfo l sClassInfo name) := by
      intro other hother
      obtain rfl := hier.consistent name sClassInfo other hdeclares hother
      refine ⟨hmethods, fun id idx => ?_⟩
      rw [hcode.funcs, hcode.dummy]
      exact hentries id idx
    have hreached' : SupersReached packages p (l.linkVTable sClassInfo.vtable).2 :=
      hreached.later fun other hother => by rwa [hsame.infoOf hl]
    exact ⟨(hright.later hl hgrows hsame hcode.funcs).addClass (hsame.ok hl) hid' hnone'
      (hsupersRight.later hgrows) hvtable, hreached'.addClass (hsame.ok hl) hid' hnone' _⟩
  case super =>
    exact fun user sClassInfo huser superClass hsuper =>
      Or.inr ⟨user, sClassInfo, huser, hsuper⟩

end Right

/-! ## Classes that are linked without any information -/

/-- A class with information is empty, or one of the packages that were reached declares it and its
super classes are registered. -/
def EmptyOrReached (packages reached : List Bchir) (l : BCHIRLinker) : Prop :=
  ∀ name info, l.infoOf name = some info → info = emptyClassInfo name ∨
    (∃ q ∈ reached, (q.getSClass name).isSome) ∧
      ∀ superClass, Super packages name superClass → l.infoOf superClass ≠ none

section Empty

variable {packages reached : List Bchir} {l : BCHIRLinker}

lemma EmptyOrReached.more {reached' : List Bchir} (h : EmptyOrReached packages reached l)
    (hsub : reached ⊆ reached') : EmptyOrReached packages reached' l := fun name info hinfo =>
  (h name info hinfo).imp_right fun ⟨⟨q, hq, hq'⟩, hsupers⟩ => ⟨⟨q, hsub hq, hq'⟩, hsupers⟩

lemma EmptyOrReached.later {l' : BCHIRLinker} (h : EmptyOrReached packages reached l)
    (hsame : ∀ name, l'.infoOf name = l.infoOf name) : EmptyOrReached packages reached l' := by
  intro name info hinfo
  rw [hsame] at hinfo
  refine (h name info hinfo).imp_right fun ⟨hdecl, hsupers⟩ => ⟨hdecl, fun superClass hsuper => ?_⟩
  rw [hsame]
  exact hsupers superClass hsuper

lemma EmptyOrReached.addClass (h : EmptyOrReached packages reached l) (hl : l.ClassesOk)
    {name : String} {id : ByteCodeContent} (hid : l.mName2ClassId name = some id)
    (hnone : l.infoOf name = none) {info : ClassInfo}
    (hnew : info = emptyClassInfo name ∨ (∃ q ∈ reached, (q.getSClass name).isSome) ∧
      ∀ superClass, Super packages name superClass → l.infoOf superClass ≠ none) :
    EmptyOrReached packages reached (l.addClass id info) := by
  obtain ⟨-, hinfo⟩ := infoOf_addClass hl hid hnone info
  have hkept : ∀ other, l.infoOf other ≠ none → (l.addClass id info).infoOf other ≠ none := by
    intro other hother
    rw [hinfo]
    split
    · exact Option.some_ne_none info
    · exact hother
  intro other info' hother
  have hcases : info' = emptyClassInfo other ∨ (∃ q ∈ reached, (q.getSClass other).isSome) ∧
      ∀ superClass, Super packages other superClass → l.infoOf superClass ≠ none := by
    rw [hinfo] at hother
    by_cases hne : other = name
    · rw [if_pos hne, Option.some.injEq] at hother
      rwa [hne, ← hother]
    · rw [if_neg hne] at hother
      exact h other info' hother
  exact hcases.imp_right fun ⟨hdecl, hsupers⟩ =>
    ⟨hdecl, fun superClass hsuper => hkept superClass (hsupers superClass hsuper)⟩

/-- Linking the classes of a package gives information only to classes that the package declares. -/
lemma linkClasses_emptyOrReached (hier : ClassHierarchy packages) {p : Bchir} (hp : p ∈ packages)
    (hreached : p ∈ reached) (hl : l.ClassesOk) (h : EmptyOrReached packages reached l) :
    EmptyOrReached packages reached (l.linkClasses p) := by
  refine linkClasses_rule hier hp (fun l name _ hl hP => ?_) l hl h
  refine linkClass_rule hier hp (Q := fun _ => True) ?number ?empty ?declared
    (fun _ _ _ _ _ => trivial) (linkDepth p) l name (enoughFuel_linkDepth packages p name) trivial
    hl hP
  case number =>
    exact fun l name hl hP => hP.later ((getClassId_sameClasses l name).infoOf hl)
  case empty =>
    exact fun l name id hl hP _ hid hnone _ => hP.addClass hl hid hnone (Or.inl rfl)
  case declared =>
    intro l name id sClassInfo hl hP hid hnone hdecl hsupers
    have hsame := linkVTable_sameClasses l sClassInfo.vtable
    have hgrows := linkVTable_state Grows.refl Grows.trans getMethodId_grows l sClassInfo.vtable
    refine (hP.later (hsame.infoOf hl)).addClass (hsame.ok hl) (hgrows.classes name id hid)
      ((hsame.infoOf hl name).trans hnone) (Or.inr ⟨⟨p, hreached, by rw [hdecl]; rfl⟩, ?_⟩)
    intro superClass hsuper
    rw [hsame.infoOf hl]
    exact hsupers superClass ((hier.super_iff ⟨p, hp, hdecl⟩ superClass).mp hsuper)

end Empty

/-! ## The run -/

lemma beforeClasses_numbered (forConstEval : Bool) (packages : List Bchir) :
    (beforeClasses forConstEval packages).Numbered := by
  have hstarted := start_started forConstEval packages
  obtain ⟨words, hwords⟩ := beforeClasses_words forConstEval packages
  rw [hwords]
  exact (linkFunctions_grows (start forConstEval packages) packages).numbered
    ⟨IsNumbering.empty hstarted.classIds.2, IsNumbering.empty hstarted.methodIds.2⟩

section Complete

variable (forConstEval : Bool) {packages : List Bchir} (hier : ClassHierarchy packages)
  (hwords : ∀ p ∈ packages, HasWords p)

include hier hwords

/-- When the classes that are reached early have nothing to declare, every class is linked as
declared. -/
lemma run_allRight (hempty : ∀ name, name ∈ boxedNames packages ∨ ReachedEarly packages name →
      NothingDeclared packages name) :
    (run forConstEval packages).ClassesOk ∧ AllRight packages (run forConstEval packages) ∧
      AllRegistered packages (run forConstEval packages) := by
  obtain ⟨hok, hbefore⟩ := beforeClasses_infoOf forConstEval hwords
  have hboxed : ∀ name info, (beforeClasses forConstEval packages).infoOf name = some info →
      info = emptyClassInfo name ∧ NothingDeclared packages name := by
    intro name info hinfo
    rw [hbefore] at hinfo
    split at hinfo
    · rename_i hmem
      exact ⟨(Option.some.inj hinfo).symm, hempty name (Or.inl hmem)⟩
    · exact absurd hinfo (by simp)
  have hstart : AllRight packages (beforeClasses forConstEval packages) := by
    refine ⟨beforeClasses_numbered forConstEval packages, fun name info hinfo => ?_,
      fun name info hinfo sClassInfo hdecl => ?_⟩
    · obtain ⟨rfl, hnothing⟩ := hboxed name info hinfo
      exact supersRight_empty hnothing
    · obtain ⟨rfl, hnothing⟩ := hboxed name info hinfo
      exact vtableRight_empty hnothing hdecl
  rw [run_eq]
  refine linkAllClasses_rule hier
    (P := fun earlier l => AllRight packages l ∧ AllRegistered earlier l)
    (fun earlier p later hpackages l hl hP => ?_) [] packages [] (List.append_nil packages).symm
    _ hok ⟨hstart, fun _ hq => absurd hq List.not_mem_nil⟩
  obtain ⟨hright, hregistered⟩ := hP
  have hp : p ∈ packages := hpackages ▸ List.mem_append_right _ List.mem_cons_self
  refine ⟨linkClasses_allRight hier hp hl hright ?_, linkClasses_allRegistered hier hp hl hregistered⟩
  intro user sClassInfo superClass huser hsuper hnone
  by_cases hsome : ∃ q ∈ earlier, (q.getSClass superClass).isSome
  · obtain ⟨q, hq, hq'⟩ := hsome
    exact Or.inl (hregistered q hq superClass hq')
  · refine Or.inr (hempty superClass (Or.inr ⟨earlier, p, later, hpackages,
      ⟨user, sClassInfo, huser, hsuper⟩, fun q hq => ?_⟩))
    rcases List.mem_append.mp hq with hq | hq
    · exact Option.not_isSome_iff_eq_none.mp fun h => hsome ⟨q, hq, h⟩
    · rwa [List.mem_singleton.mp hq]

/-- A class that an operation names without its package declaring it has no information in the
end. -/
lemma run_infoOf_boxed {name : String} (hname : name ∈ boxedNames packages) :
    (run forConstEval packages).infoOf name = some (emptyClassInfo name) := by
  obtain ⟨hok, hbefore⟩ := beforeClasses_infoOf forConstEval hwords
  rw [run_eq]
  refine linkAllClasses_kept hier packages (fun _ h => h) _ hok ?_
  rw [hbefore, if_pos hname]

/-- When a class of a package has a super class that is reached early, one of the two has no
information in the end. -/
lemma run_infoOf_early {earlier later : List Bchir} {p : Bchir} {user superClass : String}
    {sClassInfo : SClassInfo} (hpackages : packages = earlier ++ p :: later)
    (huser : p.getSClass user = some sClassInfo) (hsuper : superClass ∈ sClassInfo.superClasses)
    (hundeclared : ∀ q ∈ earlier ++ [p], q.getSClass superClass = none) :
    (run forConstEval packages).infoOf user = some (emptyClassInfo user) ∨
      (run forConstEval packages).infoOf superClass = some (emptyClassInfo superClass) := by
  obtain ⟨hok, hbefore⟩ := beforeClasses_infoOf forConstEval hwords
  have hp : p ∈ packages := hpackages ▸ List.mem_append_right _ List.mem_cons_self
  have hstart : EmptyOrReached packages [] (beforeClasses forConstEval packages) := by
    intro name info hinfo
    rw [hbefore] at hinfo
    split at hinfo
    · exact Or.inl (Option.some.inj hinfo).symm
    · exact absurd hinfo (by simp)
  have hsplit : packages = [] ++ ((earlier ++ [p]) ++ later) := by
    rw [hpackages, List.append_assoc]
    rfl
  have hmiddle := linkAllClasses_rule hier
    (P := fun done l => EmptyOrReached packages done l ∧ AllRegistered done l)
    (fun done q rest hdone l hl hP => by
      have hq : q ∈ packages := hdone ▸ List.mem_append_right _ List.mem_cons_self
      exact ⟨linkClasses_emptyOrReached hier hq (List.mem_append_right _ (List.mem_singleton_self q))
        hl (hP.1.more fun _ => List.mem_append_left _), linkClasses_allRegistered hier hq hl hP.2⟩)
    [] (earlier ++ [p]) later hsplit _ hok ⟨hstart, fun _ hq => absurd hq List.not_mem_nil⟩
  have hrun : run forConstEval packages = later.foldl linkClasses
      ((earlier ++ [p]).foldl linkClasses (beforeClasses forConstEval packages)) := by
    rw [run_eq, ← List.foldl_append, ← List.nil_append ((earlier ++ [p]) ++ later), ← hsplit]
  have hlater : later ⊆ packages := fun q hq =>
    hpackages ▸ List.mem_append_right _ (List.mem_cons_of_mem _ hq)
  rw [hrun]
  generalize (earlier ++ [p]).foldl linkClasses (beforeClasses forConstEval packages) = l at hmiddle ⊢
  obtain ⟨hl, hafter, hregistered⟩ := hmiddle
  have hsuperOf : Super packages user superClass := ⟨sClassInfo, ⟨p, hp, huser⟩, hsuper⟩
  obtain ⟨info, hinfo⟩ := Option.ne_none_iff_exists'.mp (hregistered p
    (List.mem_append_right earlier (List.mem_singleton_self p)) user (by rw [huser]; rfl))
  rcases hafter user info hinfo with rfl | ⟨-, hsupers⟩
  · exact Or.inl (linkAllClasses_kept hier later hlater l hl hinfo)
  · obtain ⟨superInfo, hsuperInfo⟩ := Option.ne_none_iff_exists'.mp (hsupers superClass hsuperOf)
    rcases hafter superClass superInfo hsuperInfo with rfl | ⟨⟨q, hq, hq'⟩, -⟩
    · exact Or.inr (linkAllClasses_kept hier later hlater l hl hsuperInfo)
    · rw [hundeclared q hq] at hq'
      exact absurd hq' (by simp)

omit hwords in
/-- A class that is declared and has no information in the end has nothing to declare, when all
classes are linked as declared. -/
lemma nothingDeclared_of_linked {name : String}
    (hlinked : ClassesLinked packages (run forConstEval packages))
    (hinfo : (run forConstEval packages).infoOf name = some (emptyClassInfo name)) :
    NothingDeclared packages name := by
  intro sClassInfo hdecl
  obtain ⟨info, hinfo', hsupers, hvtable⟩ := hlinked name sClassInfo hdecl
  obtain rfl := Option.some.inj (hinfo.symm.trans hinfo')
  exact nothingDeclared_of_empty hier hdecl hsupers hvtable sClassInfo hdecl

/-- All classes are linked as declared exactly when every class that is registered without its
information has nothing to declare: every class that an operation names while its package does not
declare it, and every class that a class has as a super class while no package so far declares it.
Then the test for a subclass is the declared relation. -/
theorem classesComplete_iff :
    ClassesComplete packages (run forConstEval packages) ↔
      ∀ name, name ∈ boxedNames packages ∨ ReachedEarly packages name →
        NothingDeclared packages name := by
  constructor
  · rintro hcomplete name (hboxed | ⟨earlier, p, later, hpackages, ⟨user, sClassInfo, huser, hsuper⟩,
      hundeclared⟩)
    · exact nothingDeclared_of_linked forConstEval hier hcomplete.linked
        (run_infoOf_boxed forConstEval hier hwords hboxed)
    · have hp : p ∈ packages := hpackages ▸ List.mem_append_right _ List.mem_cons_self
      rcases run_infoOf_early forConstEval hier hwords hpackages huser hsuper hundeclared with
        hempty | hempty
      · have hnothing := nothingDeclared_of_linked forConstEval hier hcomplete.linked hempty
        rw [(hnothing sClassInfo ⟨p, hp, huser⟩).1] at hsuper
        exact absurd hsuper List.not_mem_nil
      · exact nothingDeclared_of_linked forConstEval hier hcomplete.linked hempty
  · intro hempty
    obtain ⟨hok, hright, hregistered⟩ := run_allRight forConstEval hier hwords hempty
    have hlinked : ClassesLinked packages (run forConstEval packages) := by
      rintro name sClassInfo ⟨q, hq, hdecl⟩
      obtain ⟨info, hinfo⟩ := Option.ne_none_iff_exists'.mp
        (hregistered q hq name (by rw [hdecl]; rfl))
      exact ⟨info, hinfo, hright.supers name info hinfo,
        hright.vtable name info hinfo sClassInfo ⟨q, hq, hdecl⟩⟩
    exact ⟨hlinked, fun lhs rhs lhsId rhsId hlhs hlhsId hrhsId =>
      isSubclass_iff hok.numbering hlinked hlhs hlhsId hrhsId⟩

end Complete

/-! ## Examples -/

/-- A package that declares one class. -/
def declaring (name : String) (sClassInfo : SClassInfo) : Bchir where
  strings := []
  types := []
  functions := []
  globalVars := []
  sClassTable := [(name, sClassInfo)]
  initFuncsForConsts := []

/-- A class with a method. -/
def baseClass : SClassInfo := { superClasses := [], vtable := [("m", "f")], finalizer := "" }

/-- A class with that class as its super class. -/
def derivedClass : SClassInfo := { superClasses := ["B"], vtable := [], finalizer := "" }

lemma getSClass_declaring (name other : String) (sClassInfo found : SClassInfo) :
    (declaring name sClassInfo).getSClass other = some found ↔ other = name ∧ found = sClassInfo := by
  unfold Bchir.getSClass declaring
  by_cases hne : other = name
  · simp [List.lookup, hne, eq_comm]
  · have hbeq : (other == name) = false := beq_false_of_ne hne
    simp [List.lookup, hne, hbeq]

/-- A class whose super class is declared by an earlier package. -/
theorem classesComplete_iff_derived :
    ClassesComplete [declaring "B" baseClass, declaring "A" derivedClass]
      (run true [declaring "B" baseClass, declaring "A" derivedClass]) := by
  have hdeclares : ∀ name sClassInfo,
      Declares [declaring "B" baseClass, declaring "A" derivedClass] name sClassInfo ↔
        name = "B" ∧ sClassInfo = baseClass ∨ name = "A" ∧ sClassInfo = derivedClass := by
    intro name sClassInfo
    simp only [Declares, List.mem_cons, List.not_mem_nil, or_false, exists_eq_or_imp,
      exists_eq_left, getSClass_declaring]
  have hsuper : ∀ name superClass, Super [declaring "B" baseClass, declaring "A" derivedClass]
      name superClass → name = "A" ∧ superClass = "B" := by
    rintro name superClass ⟨sClassInfo, hdecl, hmem⟩
    rcases (hdeclares name sClassInfo).mp hdecl with ⟨-, rfl⟩ | ⟨rfl, rfl⟩
    · exact absurd hmem List.not_mem_nil
    · exact ⟨rfl, List.mem_singleton.mp hmem⟩
  have hhierarchy : ClassHierarchy [declaring "B" baseClass, declaring "A" derivedClass] := by
    refine ⟨fun name info info' h h' => ?_, fun name hcycle => ?_⟩
    · rcases (hdeclares name info).mp h with ⟨rfl, rfl⟩ | ⟨rfl, rfl⟩ <;>
        rcases (hdeclares _ info').mp h' with ⟨hname, rfl⟩ | ⟨hname, rfl⟩
      · rfl
      · exact absurd hname (by decide)
      · exact absurd hname (by decide)
      · rfl
    · obtain ⟨above, hstep, -⟩ := TransGen.head'_iff.mp hcycle
      obtain ⟨below, -, hstep'⟩ := TransGen.tail'_iff.mp hcycle
      exact absurd ((hsuper name above hstep).1.symm.trans (hsuper below name hstep').2) (by decide)
  have hwords : ∀ p ∈ [declaring "B" baseClass, declaring "A" derivedClass], HasWords p := by
    intro p hp f hf
    rcases List.mem_cons.mp hp with rfl | hp
    · exact absurd hf List.not_mem_nil
    · rw [List.mem_singleton.mp hp] at hf
      exact absurd hf List.not_mem_nil
  refine (classesComplete_iff true hhierarchy hwords).mpr ?_
  rintro name (hboxed | ⟨earlier, p, later, hpackages, ⟨user, sClassInfo, huser, hsuper'⟩, hundeclared⟩)
  · exact absurd hboxed List.not_mem_nil
  · have hp : p ∈ [declaring "B" baseClass, declaring "A" derivedClass] :=
      hpackages ▸ List.mem_append_right _ List.mem_cons_self
    obtain ⟨rfl, rfl⟩ := hsuper user name ⟨sClassInfo, ⟨p, hp, huser⟩, hsuper'⟩
    -- the package that declares the super class is the first one
    cases earlier with
    | nil =>
      have hfirst : p = declaring "B" baseClass := (List.cons.inj hpackages).1.symm
      rw [hfirst] at huser
      exact absurd ((getSClass_declaring "B" "A" _ _).mp huser).1 (by decide)
    | cons q rest =>
      have hfirst : q = declaring "B" baseClass := (List.cons.inj hpackages).1.symm
      have hnone := hundeclared q List.mem_cons_self
      rw [hfirst] at hnone
      exact absurd (hnone.symm.trans ((getSClass_declaring "B" "B" _ _).mpr ⟨rfl, rfl⟩)) (by simp)

/-- A package that declares a class, and one that boxes it. -/
def boxedElsewhere : List Bchir :=
  [declaring "B" baseClass, packageOf (singleOp "f" .BOX (some "B"))]

/-- A class that another package boxes loses its methods. -/
theorem boxedElsewhere_not_complete :
    ¬ ∀ (forConstEval : Bool) (packages : List Bchir), ClassHierarchy packages →
      (∀ p ∈ packages, HasWords p) → ClassesComplete packages (run forConstEval packages) := by
  intro h
  have hdeclares : ∀ name sClassInfo, Declares boxedElsewhere name sClassInfo ↔
      name = "B" ∧ sClassInfo = baseClass := by
    intro name sClassInfo
    have hnone : (packageOf (singleOp "f" .BOX (some "B"))).getSClass name ≠ some sClassInfo :=
      (Option.some_ne_none sClassInfo).symm
    simp only [Declares, boxedElsewhere, List.mem_cons, List.not_mem_nil, or_false,
      exists_eq_or_imp, exists_eq_left, getSClass_declaring, hnone]
  have hhierarchy : ClassHierarchy boxedElsewhere := by
    refine ⟨fun name info info' h h' => ?_, fun name hcycle => ?_⟩
    · rw [((hdeclares name info).mp h).2, ((hdeclares name info').mp h').2]
    · obtain ⟨above, ⟨sClassInfo, hdecl, hmem⟩, -⟩ := TransGen.head'_iff.mp hcycle
      rw [((hdeclares name sClassInfo).mp hdecl).2] at hmem
      exact absurd hmem List.not_mem_nil
  have hwords : ∀ p ∈ boxedElsewhere, HasWords p := by
    intro p hp
    rcases List.mem_cons.mp hp with rfl | hp
    · exact fun f hf => absurd hf List.not_mem_nil
    · rw [List.mem_singleton.mp hp]
      exact hasWords_single "f" (some "B") (by decide)
  have hconsists : (singleOp "f" .BOX (some "B")).2.Consists [singleInstr .BOX (some "B")] :=
    consists_single "f" (some "B") (fun _ => rfl) (fun _ _ h => absurd h.1 (by decide))
  have hboxed : "B" ∈ boxedNames boxedElsewhere := by
    refine List.mem_flatMap.mpr ⟨_, List.mem_cons_of_mem _ List.mem_cons_self, ?_⟩
    refine List.mem_flatMap.mpr ⟨_, List.mem_cons_self, ?_⟩
    exact (mem_boxedIn _ hconsists "B").mpr ⟨rfl, _, List.mem_cons_self, Or.inl rfl, rfl⟩
  have hnothing := nothingDeclared_of_linked true hhierarchy
    (h true boxedElsewhere hhierarchy hwords).linked
    (run_infoOf_boxed true hhierarchy hwords hboxed)
  have hvtable := (hnothing baseClass ((hdeclares "B" baseClass).mpr ⟨rfl, rfl⟩)).2
  exact absurd hvtable (List.cons_ne_nil _ _)

end Cangjie.CHIR.Interpreter.BCHIRLinker
