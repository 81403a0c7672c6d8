import CangjieCompiler.CHIR.Interpreter.Instructions
import CangjieCompiler.Foundations.Numbering

/-!
# What the operations of the linker leave alone

The tables of the linker only grow: an index or identifier that a name has got stays.  Linking a
class and numbering a name do not touch the image.  The symbolic image of a linker state is the one
in which operands that name a function are references.
-/

namespace Cangjie.CHIR.Interpreter.BCHIRLinker

open SymbolicImage

/-! ## States with the same code -/

/-- Two states that differ only in the tables of classes and methods. -/
structure SameCode (l l' : BCHIRLinker) : Prop where
  topDef : l'.topDef = l.topDef
  strings : l'.strings = l.strings
  types : l'.types = l.types
  funcs : l'.mName2FuncBodyIdx = l.mName2FuncBodyIdx
  placeHolders : l'.mName2FuncBodyIdxPlaceHolder = l.mName2FuncBodyIdxPlaceHolder
  gvarId : l'.gvarId = l.gvarId
  gvars : l'.mName2GvarId = l.mName2GvarId
  dummy : l'.dummyAbortFuncIdx = l.dummyAbortFuncIdx

lemma SameCode.refl (l : BCHIRLinker) : SameCode l l :=
  ⟨rfl, rfl, rfl, rfl, rfl, rfl, rfl, rfl⟩

lemma SameCode.trans {l l' l'' : BCHIRLinker} (h : SameCode l l') (h' : SameCode l' l'') :
    SameCode l l'' where
  topDef := h'.topDef.trans h.topDef
  strings := h'.strings.trans h.strings
  types := h'.types.trans h.types
  funcs := h'.funcs.trans h.funcs
  placeHolders := h'.placeHolders.trans h.placeHolders
  gvarId := h'.gvarId.trans h.gvarId
  gvars := h'.gvars.trans h.gvars
  dummy := h'.dummy.trans h.dummy

/-! ## Growing tables -/

/-- The identifiers of classes and methods are numbered one after the other. -/
def Numbered (l : BCHIRLinker) : Prop :=
  IsNumbering l.mName2ClassId l.classId ∧ IsNumbering l.mName2MethodId l.methodId

/-- Every index or identifier that a name has got is kept. -/
structure Grows (l l' : BCHIRLinker) : Prop where
  gvars : l'.mName2GvarId = l.mName2GvarId
  dummy : l'.dummyAbortFuncIdx = l.dummyAbortFuncIdx
  funcs : ∀ name idx, l.mName2FuncBodyIdx name = some idx → l'.mName2FuncBodyIdx name = some idx
  classes : ∀ name id, l.mName2ClassId name = some id → l'.mName2ClassId name = some id
  methods : ∀ name id, l.mName2MethodId name = some id → l'.mName2MethodId name = some id
  numbered : l.Numbered → l'.Numbered

lemma Grows.refl (l : BCHIRLinker) : Grows l l :=
  ⟨rfl, rfl, fun _ _ h => h, fun _ _ h => h, fun _ _ h => h, id⟩

lemma Grows.trans {l l' l'' : BCHIRLinker} (h : Grows l l') (h' : Grows l' l'') : Grows l l'' where
  gvars := h'.gvars.trans h.gvars
  dummy := h'.dummy.trans h.dummy
  funcs := fun name idx hname => h'.funcs name idx (h.funcs name idx hname)
  classes := fun name id hname => h'.classes name id (h.classes name id hname)
  methods := fun name id hname => h'.methods name id (h.methods name id hname)
  numbered := fun hl => h'.numbered (h.numbered hl)

/-- A step that keeps a relation keeps it over a list. -/
lemma foldl_rel {α σ : Type} {R : σ → σ → Prop} (hrefl : ∀ s, R s s)
    (htrans : ∀ {s s' s''}, R s s' → R s' s'' → R s s'') (step : σ → α → σ)
    (hstep : ∀ s a, R s (step s a)) (as : List α) (s : σ) : R s (as.foldl step s) := by
  induction as generalizing s with
  | nil => exact hrefl s
  | cons a rest ih => exact htrans (hstep s a) (ih (step s a))

/-! ## Numbering classes and methods -/

lemma getClassId_sameCode (l : BCHIRLinker) (name : String) :
    SameCode l (l.getClassId name).2 := by
  unfold getClassId
  cases l.mName2ClassId name with
  | none => exact ⟨rfl, rfl, rfl, rfl, rfl, rfl, rfl, rfl⟩
  | some id => exact SameCode.refl l

/-- The name has the identifier that is returned. -/
lemma getClassId_self (l : BCHIRLinker) (name : String) :
    (l.getClassId name).2.mName2ClassId name = some (l.getClassId name).1 := by
  unfold getClassId
  cases h : l.mName2ClassId name with
  | none => simp
  | some id => simpa using h

lemma getClassId_grows (l : BCHIRLinker) (name : String) : Grows l (l.getClassId name).2 := by
  unfold getClassId
  cases h : l.mName2ClassId name with
  | none =>
    refine ⟨rfl, rfl, fun _ _ h => h, fun name' id hname' => ?_, fun _ _ h => h,
      fun hl => ⟨hl.1.fresh h, hl.2⟩⟩
    have hne : name' ≠ name := by
      rintro rfl
      exact absurd (h.symm.trans hname') (by simp)
    dsimp only
    rwa [Function.update_of_ne hne]
  | some id => exact Grows.refl l

lemma getMethodId_sameCode (l : BCHIRLinker) (name : String) :
    SameCode l (l.getMethodId name).2 := by
  unfold getMethodId
  cases l.mName2MethodId name with
  | none => exact ⟨rfl, rfl, rfl, rfl, rfl, rfl, rfl, rfl⟩
  | some id => exact SameCode.refl l

lemma getMethodId_self (l : BCHIRLinker) (name : String) :
    (l.getMethodId name).2.mName2MethodId name = some (l.getMethodId name).1 := by
  unfold getMethodId
  cases h : l.mName2MethodId name with
  | none => simp
  | some id => simpa using h

lemma getMethodId_grows (l : BCHIRLinker) (name : String) : Grows l (l.getMethodId name).2 := by
  unfold getMethodId
  cases h : l.mName2MethodId name with
  | none =>
    refine ⟨rfl, rfl, fun _ _ h => h, fun _ _ h => h, fun name' id hname' => ?_,
      fun hl => ⟨hl.1, hl.2.fresh h⟩⟩
    have hne : name' ≠ name := by
      rintro rfl
      exact absurd (h.symm.trans hname') (by simp)
    dsimp only
    rwa [Function.update_of_ne hne]
  | some id => exact Grows.refl l

/-! ## Linking classes -/

lemma addClass_sameCode (l : BCHIRLinker) (id : ByteCodeContent) (info : ClassInfo) :
    SameCode l (l.addClass id info) := ⟨rfl, rfl, rfl, rfl, rfl, rfl, rfl, rfl⟩

lemma addClass_grows (l : BCHIRLinker) (id : ByteCodeContent) (info : ClassInfo) :
    Grows l (l.addClass id info) := ⟨rfl, rfl, fun _ _ h => h, fun _ _ h => h, fun _ _ h => h,
    fun h => h⟩

/-- The states in which the entries of a table of methods are added. -/
lemma linkVTable_state {R : BCHIRLinker → BCHIRLinker → Prop} (hrefl : ∀ l, R l l)
    (htrans : ∀ {l l' l''}, R l l' → R l' l'' → R l l'')
    (hmethod : ∀ l name, R l (l.getMethodId name).2) (l : BCHIRLinker)
    (vtable : List (String × String)) : R l (l.linkVTable vtable).2 := by
  unfold linkVTable
  exact foldl_rel
    (R := fun s s' : (ByteCodeContent → Option ByteCodeContent) × BCHIRLinker => R s.2 s'.2)
    (fun s => hrefl s.2) (fun h h' => htrans h h') _ (fun s a => hmethod s.2 a.1) vtable
    (fun _ => none, l)

/-- Whatever the steps of linking a class keep, linking a class keeps. -/
lemma linkClass_rel {R : BCHIRLinker → BCHIRLinker → Prop} (hrefl : ∀ l, R l l)
    (htrans : ∀ {l l' l''}, R l l' → R l' l'' → R l l'')
    (hclass : ∀ l name, R l (l.getClassId name).2)
    (hmethod : ∀ l name, R l (l.getMethodId name).2)
    (hadd : ∀ l id info, R l (l.addClass id info)) (bchir : Bchir) (fuel : ℕ) (l : BCHIRLinker)
    (name : String) : R l (linkClass bchir fuel l name) := by
  induction fuel generalizing l name with
  | zero => exact hrefl l
  | succ fuel ih =>
    unfold linkClass
    dsimp only
    split
    · exact hrefl l
    · cases hdecl : bchir.getSClass name with
      | none => exact htrans (hclass l name) (hadd _ _ _)
      | some info =>
        have hsupers := foldl_rel hrefl htrans _ ih info.superClasses (l.getClassId name).2
        have hvtable := linkVTable_state hrefl htrans hmethod
          (info.superClasses.foldl (linkClass bchir fuel) (l.getClassId name).2) info.vtable
        exact htrans (hclass l name) (htrans hsupers (htrans hvtable (hadd _ _ _)))

lemma linkClass_sameCode (bchir : Bchir) (fuel : ℕ) (l : BCHIRLinker) (name : String) :
    SameCode l (linkClass bchir fuel l name) :=
  linkClass_rel SameCode.refl SameCode.trans getClassId_sameCode getMethodId_sameCode
    addClass_sameCode bchir fuel l name

lemma linkClass_grows (bchir : Bchir) (fuel : ℕ) (l : BCHIRLinker) (name : String) :
    Grows l (linkClass bchir fuel l name) :=
  linkClass_rel Grows.refl Grows.trans getClassId_grows getMethodId_grows addClass_grows bchir
    fuel l name

lemma linkClasses_sameCode (l : BCHIRLinker) (bchir : Bchir) : SameCode l (l.linkClasses bchir) :=
  foldl_rel SameCode.refl SameCode.trans _
    (fun l (p : String × SClassInfo) => linkClass_sameCode bchir (linkDepth bchir) l p.1)
    bchir.sClassTable l

lemma linkClasses_grows (l : BCHIRLinker) (bchir : Bchir) : Grows l (l.linkClasses bchir) :=
  foldl_rel Grows.refl Grows.trans _
    (fun l (p : String × SClassInfo) => linkClass_grows bchir (linkDepth bchir) l p.1)
    bchir.sClassTable l

/-! ## The symbolic image -/

/-- The image of the state stands for the symbolic image. -/
def Means (l : BCHIRLinker) (cells : List (Cell String)) : Prop :=
  Represents l.topDef cells l.mName2FuncBodyIdx l.mName2FuncBodyIdxPlaceHolder l.dummyAbortFuncIdx

lemma Means.nextIndex_eq {l : BCHIRLinker} {cells : List (Cell String)} (h : l.Means cells) :
    l.nextIndex = cells.length := h.length_eq

lemma Means.sameCode {l l' : BCHIRLinker} {cells : List (Cell String)} (h : l.Means cells)
    (hsame : SameCode l l') : l'.Means cells := by
  unfold Means
  rw [hsame.topDef, hsame.funcs, hsame.placeHolders, hsame.dummy]
  exact h

lemma Means.push {l : BCHIRLinker} {cells : List (Cell String)} (h : l.Means cells)
    (words : List ByteCodeContent) : (l.push words).Means (cells ++ words.map .word) :=
  Represents.push h words

/-- Appending the index of a function appends a reference to it. -/
lemma Means.pushFunc {l : BCHIRLinker} {cells : List (Cell String)} (h : l.Means cells)
    (name : String) : (l.pushFunc name).Means (cells ++ [.ref name]) := by
  unfold BCHIRLinker.pushFunc
  cases hname : l.mName2FuncBodyIdx name with
  | some idx => exact Represents.push_defined h hname
  | none =>
    have hpush := Represents.push_undefined h hname
    unfold addToMName2FuncBodyIdxPlaceHolder
    cases hpending : l.mName2FuncBodyIdxPlaceHolder name with
    | none =>
      rw [hpending] at hpush
      exact hpush
    | some indices =>
      rw [hpending] at hpush
      exact hpush

lemma foldl_set (l : BCHIRLinker) (indices : List ByteCodeContent) (idx : ByteCodeContent) :
    indices.foldl (fun l ph => l.set ph idx) l =
      { l with topDef := patch l.topDef indices idx } := by
  induction indices generalizing l with
  | nil => rfl
  | cons i rest ih =>
    rw [List.foldl_cons, ih]
    rfl

/-- Registering a function that is not registered yet resolves the references to it. -/
lemma Means.resolve {l : BCHIRLinker} {cells : List (Cell String)} (h : l.Means cells)
    {name : String} (hname : l.mName2FuncBodyIdx name = none) (idx : ByteCodeContent) :
    (l.resolveMName2FuncBodyIdxPlaceHolder name idx).Means cells ∧
      (l.resolveMName2FuncBodyIdxPlaceHolder name idx).mName2FuncBodyIdx =
        Function.update l.mName2FuncBodyIdx name (some idx) := by
  have henv : emplace l.mName2FuncBodyIdx name idx =
      Function.update l.mName2FuncBodyIdx name (some idx) := by
    unfold emplace
    rw [hname]
    rfl
  have hdef := Represents.define h hname idx
  unfold resolveMName2FuncBodyIdxPlaceHolder
  cases hpending : l.mName2FuncBodyIdxPlaceHolder name with
  | none =>
    have hsame : Function.update l.mName2FuncBodyIdxPlaceHolder name none =
        l.mName2FuncBodyIdxPlaceHolder := by
      rw [← hpending, Function.update_eq_self]
    rw [hpending, hsame] at hdef
    simp only [hpending, henv]
    exact ⟨hdef, trivial⟩
  | some indices =>
    rw [hpending] at hdef
    simp only [hpending, henv, foldl_set]
    exact ⟨hdef, trivial⟩

/-- Registering a function again changes nothing. -/
lemma Means.resolve_again {l : BCHIRLinker} {cells : List (Cell String)} (h : l.Means cells)
    {name : String} (hname : l.mName2FuncBodyIdx name ≠ none) (idx : ByteCodeContent) :
    l.resolveMName2FuncBodyIdxPlaceHolder name idx = l := by
  have hpending := Represents.pending_defined h name hname
  have henv : emplace l.mName2FuncBodyIdx name idx = l.mName2FuncBodyIdx := by
    unfold emplace
    rw [if_pos (Option.isSome_iff_ne_none.mpr hname)]
  unfold resolveMName2FuncBodyIdxPlaceHolder
  simp only [hpending, henv]

end Cangjie.CHIR.Interpreter.BCHIRLinker
