import CangjieCompiler.CHIR.Interpreter.LinkedImage

/-!
# The image of all packages

The linker appends the functions of the packages one after the other, so the final image contains,
for every function, its frame and what its body is linked to.  References to functions that are
linked later are resolved by then, and the identifiers that an operand got are those of the final
tables.
-/

namespace Cangjie.CHIR.Interpreter.BCHIRLinker

open SymbolicImage

/-! ## Appending functions -/

/-- The resolution by the tables of a state, for given indices of types and strings. -/
def resolution (l : BCHIRLinker) (typeMap stringMap : List ByteCodeContent) : Resolution where
  gvar := l.mName2GvarId
  classId := fun name => (l.mName2ClassId name).getD 0
  methodId := fun name => (l.mName2MethodId name).getD 0
  typeMap := typeMap
  stringMap := stringMap

lemma resolvedBy_resolution (l : BCHIRLinker) (typeMap stringMap : List ByteCodeContent) :
    l.ResolvedBy (l.resolution typeMap stringMap) where
  gvar := rfl
  classId := fun name id h => by simp [resolution, h]
  methodId := fun name id h => by simp [resolution, h]

/-- The frame of a function and what its body is linked to, at an index of the image. -/
def functionCells (r : Resolution) (index : ℕ) (f : String × Definition) : List (Cell String) :=
  [.word OpCode.FRAME.toCell, .word f.2.numLVars] ++ linkedBody r (index + 2) f.2

/-- The state when the body of a function is linked. -/
def beforeBody (l : BCHIRLinker) (f : String × Definition) : BCHIRLinker :=
  (l.resolveMName2FuncBodyIdxPlaceHolder f.1 l.nextIndex).push [OpCode.FRAME.toCell, f.2.numLVars]

lemma linkFunction_eq (bchir : Bchir) (typeMap stringMap : List ByteCodeContent) (l : BCHIRLinker)
    (f : String × Definition) :
    linkFunction bchir typeMap stringMap l f =
      (l.beforeBody f).traverseAndLink bchir f.2 typeMap stringMap := rfl

/-- Registering a function patches the image and the tables of functions only. -/
lemma resolve_frame (l : BCHIRLinker) (name : String) (idx : ByteCodeContent) :
    Grows l (l.resolveMName2FuncBodyIdxPlaceHolder name idx) ∧
      (l.resolveMName2FuncBodyIdxPlaceHolder name idx).strings = l.strings ∧
      (l.resolveMName2FuncBodyIdxPlaceHolder name idx).types = l.types ∧
      (l.resolveMName2FuncBodyIdxPlaceHolder name idx).mName2FuncBodyIdx =
        emplace l.mName2FuncBodyIdx name idx := by
  have hfuncs : ∀ other i, l.mName2FuncBodyIdx other = some i →
      emplace l.mName2FuncBodyIdx name idx other = some i := fun _ _ hother =>
    emplace_of_some hother
  unfold resolveMName2FuncBodyIdxPlaceHolder
  dsimp only
  cases l.mName2FuncBodyIdxPlaceHolder name with
  | none => exact ⟨⟨rfl, rfl, hfuncs, fun _ _ h => h, fun _ _ h => h, id⟩, rfl, rfl, rfl⟩
  | some indices =>
    simp only [foldl_set]
    exact ⟨⟨rfl, rfl, hfuncs, fun _ _ h => h, fun _ _ h => h, id⟩, trivial, trivial, trivial⟩

/-- Linking a function keeps what names have got and the types and strings, and registers the
function. -/
structure FunctionStep (l l' : BCHIRLinker) : Prop where
  grows : Grows l l'
  strings : l'.strings = l.strings
  types : l'.types = l.types

lemma FunctionStep.refl (l : BCHIRLinker) : FunctionStep l l := ⟨Grows.refl l, rfl, rfl⟩

lemma FunctionStep.trans {l l' l'' : BCHIRLinker} (h : FunctionStep l l')
    (h' : FunctionStep l' l'') : FunctionStep l l'' :=
  ⟨h.grows.trans h'.grows, h'.strings.trans h.strings, h'.types.trans h.types⟩

lemma BodyStep.functionStep {l l' : BCHIRLinker} (h : BodyStep l l') : FunctionStep l l' :=
  ⟨h.grows, h.strings, h.types⟩

lemma beforeBody_step (l : BCHIRLinker) (f : String × Definition) :
    FunctionStep l (l.beforeBody f) := by
  obtain ⟨hgrows, hstrings, htypes, -⟩ := resolve_frame l f.1 l.nextIndex
  exact FunctionStep.trans ⟨hgrows, hstrings, htypes⟩ (push_bodyStep _ _).functionStep

lemma linkFunction_step (bchir : Bchir) (typeMap stringMap : List ByteCodeContent)
    (l : BCHIRLinker) (f : String × Definition) :
    FunctionStep l (linkFunction bchir typeMap stringMap l f) :=
  (beforeBody_step l f).trans
    (linkOperations_bodyStep bchir f.2 typeMap stringMap _ _ _ _).functionStep

/-- The functions that are registered after linking a function. -/
lemma linkFunction_funcs (bchir : Bchir) (typeMap stringMap : List ByteCodeContent)
    (l : BCHIRLinker) (f : String × Definition) :
    (linkFunction bchir typeMap stringMap l f).mName2FuncBodyIdx =
      emplace l.mName2FuncBodyIdx f.1 l.nextIndex :=
  (linkOperations_bodyStep bchir f.2 typeMap stringMap _ _ _ _).funcs.trans
    (resolve_frame l f.1 l.nextIndex).2.2.2

lemma beforeBody_means {l : BCHIRLinker} {cells : List (Cell String)} (h : l.Means cells)
    (f : String × Definition) :
    (l.beforeBody f).Means
      (cells ++ [.word OpCode.FRAME.toCell, .word f.2.numLVars]) := by
  have hresolve : (l.resolveMName2FuncBodyIdxPlaceHolder f.1 l.nextIndex).Means cells := by
    cases hname : l.mName2FuncBodyIdx f.1 with
    | none => exact (h.resolve hname l.nextIndex).1
    | some idx =>
      rw [h.resolve_again (by simp [hname]) l.nextIndex]
      exact h
  exact hresolve.push [OpCode.FRAME.toCell, f.2.numLVars]

/-- Linking a function appends its frame and what its body is linked to. -/
theorem linkFunction_means (bchir : Bchir) {l : BCHIRLinker} {cells : List (Cell String)}
    (h : l.Means cells) (f : String × Definition) (hcells : ∀ c ∈ f.2.bytecode, c < 2 ^ 32)
    (r : Resolution)
    (hr : (linkFunction bchir r.typeMap r.stringMap l f).ResolvedBy r) :
    (linkFunction bchir r.typeMap r.stringMap l f).Means
      (cells ++ functionCells r cells.length f) := by
  have hbody := beforeBody_means h f
  have hindex : (l.beforeBody f).nextIndex = cells.length + 2 := by
    rw [hbody.nextIndex_eq, List.length_append]
    rfl
  have hlinked := linkOperations_means bchir f.2 hcells (l.beforeBody f).nextIndex r
    f.2.nextIndex 0 (l.beforeBody f) hbody hr
  rw [List.append_assoc, hindex] at hlinked
  rw [linkFunction_eq]
  unfold traverseAndLink
  rw [hindex]
  exact hlinked

/-! ## Appending packages -/

/-- The later state has further cells. -/
def Appends (l l' : BCHIRLinker) : Prop :=
  ∀ cells, l.Means cells → ∃ more, l'.Means (cells ++ more)

lemma Appends.refl (l : BCHIRLinker) : Appends l l :=
  fun cells h => ⟨[], by rwa [List.append_nil]⟩

lemma Appends.trans {l l' l'' : BCHIRLinker} (h : Appends l l') (h' : Appends l' l'') :
    Appends l l'' := by
  intro cells hcells
  obtain ⟨more, hmore⟩ := h cells hcells
  obtain ⟨more', hmore'⟩ := h' _ hmore
  exact ⟨more ++ more', by rwa [← List.append_assoc]⟩

/-- All cells of the functions of a package are words of 32 bits. -/
def HasWords (bchir : Bchir) : Prop :=
  ∀ f ∈ bchir.functions, ∀ c ∈ f.2.bytecode, c < 2 ^ 32

lemma linkFunction_appends (bchir : Bchir) (typeMap stringMap : List ByteCodeContent)
    (l : BCHIRLinker) (f : String × Definition) (hcells : ∀ c ∈ f.2.bytecode, c < 2 ^ 32) :
    Appends l (linkFunction bchir typeMap stringMap l f) := fun _ h =>
  ⟨_, linkFunction_means bchir h f hcells
    ((linkFunction bchir typeMap stringMap l f).resolution typeMap stringMap)
    (resolvedBy_resolution _ _ _)⟩

lemma foldl_linkFunction_appends (bchir : Bchir) (typeMap stringMap : List ByteCodeContent)
    (fs : List (String × Definition)) (hcells : ∀ f ∈ fs, ∀ c ∈ f.2.bytecode, c < 2 ^ 32)
    (l : BCHIRLinker) : Appends l (fs.foldl (linkFunction bchir typeMap stringMap) l) := by
  induction fs generalizing l with
  | nil => exact Appends.refl l
  | cons f rest ih =>
    exact (linkFunction_appends bchir typeMap stringMap l f (hcells f List.mem_cons_self)).trans
      (ih (fun g hg => hcells g (List.mem_cons_of_mem _ hg)) _)

lemma foldl_linkFunction_step (bchir : Bchir) (typeMap stringMap : List ByteCodeContent)
    (fs : List (String × Definition)) (l : BCHIRLinker) :
    FunctionStep l (fs.foldl (linkFunction bchir typeMap stringMap) l) :=
  foldl_rel FunctionStep.refl FunctionStep.trans _
    (fun l f => linkFunction_step bchir typeMap stringMap l f) fs l

/-- The state when the functions of a package are linked. -/
def enterPackage (l : BCHIRLinker) (bchir : Bchir) : BCHIRLinker :=
  ((l.unlinkedTypes2LinkedTypes bchir.types).2.unlinkedStrings2LinkedStrings bchir.strings).2

/-- The indices of the types of a package in the linked one. -/
def packageTypes (l : BCHIRLinker) (bchir : Bchir) : List ByteCodeContent :=
  List.range' l.types.length bchir.types.length

/-- The indices of the strings of a package in the linked one. -/
def packageStrings (l : BCHIRLinker) (bchir : Bchir) : List ByteCodeContent :=
  List.range' l.strings.length bchir.strings.length

lemma linkPackageFunctions_eq (l : BCHIRLinker) (bchir : Bchir) :
    l.linkPackageFunctions bchir =
      bchir.functions.foldl (linkFunction bchir (l.packageTypes bchir) (l.packageStrings bchir))
        (l.enterPackage bchir) := rfl

lemma enterPackage_grows (l : BCHIRLinker) (bchir : Bchir) : Grows l (l.enterPackage bchir) :=
  ⟨rfl, rfl, fun _ _ h => h, fun _ _ h => h, fun _ _ h => h, id⟩

lemma linkPackageFunctions_grows (l : BCHIRLinker) (bchir : Bchir) :
    Grows l (l.linkPackageFunctions bchir) :=
  (enterPackage_grows l bchir).trans (foldl_linkFunction_step bchir _ _ _ _).grows

lemma linkPackageFunctions_tables (l : BCHIRLinker) (bchir : Bchir) :
    (l.linkPackageFunctions bchir).types = l.types ++ bchir.types ∧
      (l.linkPackageFunctions bchir).strings = l.strings ++ bchir.strings := by
  have hstep := foldl_linkFunction_step bchir (l.packageTypes bchir) (l.packageStrings bchir)
    bchir.functions (l.enterPackage bchir)
  exact ⟨hstep.types, hstep.strings⟩

lemma linkPackageFunctions_appends (l : BCHIRLinker) {bchir : Bchir} (hwords : HasWords bchir) :
    Appends l (l.linkPackageFunctions bchir) := by
  have henter : Appends l (l.enterPackage bchir) := fun cells h => ⟨[], by
    rw [List.append_nil]
    exact h⟩
  exact henter.trans (foldl_linkFunction_appends bchir _ _ _ hwords _)

lemma linkFunctions_grows (l : BCHIRLinker) (packages : List Bchir) :
    Grows l (l.linkFunctions packages) :=
  foldl_rel Grows.refl Grows.trans _ linkPackageFunctions_grows packages l

lemma linkFunctions_appends (l : BCHIRLinker) {packages : List Bchir}
    (hwords : ∀ p ∈ packages, HasWords p) : Appends l (l.linkFunctions packages) := by
  induction packages generalizing l with
  | nil => exact Appends.refl l
  | cons p rest ih =>
    exact (linkPackageFunctions_appends l (hwords p List.mem_cons_self)).trans
      (ih _ (fun q hq => hwords q (List.mem_cons_of_mem _ hq)))

lemma linkFunctions_tables (l : BCHIRLinker) (packages : List Bchir) :
    (l.linkFunctions packages).types = l.types ++ packages.flatMap Bchir.types ∧
      (l.linkFunctions packages).strings = l.strings ++ packages.flatMap Bchir.strings := by
  induction packages generalizing l with
  | nil => simp [linkFunctions]
  | cons p rest ih =>
    obtain ⟨htypes, hstrings⟩ := linkPackageFunctions_tables l p
    obtain ⟨htypes', hstrings'⟩ := ih (l.linkPackageFunctions p)
    rw [htypes] at htypes'
    rw [hstrings] at hstrings'
    rw [List.append_assoc] at htypes' hstrings'
    exact ⟨htypes', hstrings'⟩

/-! ## Names of the functions linked so far -/

lemma foldl_linkFunction_names (bchir : Bchir) (typeMap stringMap : List ByteCodeContent)
    (fs : List (String × Definition)) (l : BCHIRLinker) (name : String) :
    (fs.foldl (linkFunction bchir typeMap stringMap) l).mName2FuncBodyIdx name = none ↔
      l.mName2FuncBodyIdx name = none ∧ name ∉ fs.map Prod.fst := by
  induction fs generalizing l with
  | nil => simp
  | cons f rest ih =>
    have hfirst : (linkFunction bchir typeMap stringMap l f).mName2FuncBodyIdx name = none ↔
        l.mName2FuncBodyIdx name = none ∧ name ≠ f.1 := by
      rw [linkFunction_funcs]
      unfold emplace
      by_cases hne : name = f.1
      · subst hne
        cases h : l.mName2FuncBodyIdx f.1 <;> simp [h]
      · cases h : l.mName2FuncBodyIdx f.1 <;> simp [hne]
    rw [List.foldl_cons, ih, hfirst, List.map_cons, List.mem_cons, not_or, and_assoc]

/-- A name is registered exactly when a function of that name has been linked. -/
lemma linkFunctions_names (l : BCHIRLinker) (packages : List Bchir) (name : String) :
    (l.linkFunctions packages).mName2FuncBodyIdx name = none ↔
      l.mName2FuncBodyIdx name = none ∧
        name ∉ (packages.flatMap Bchir.functions).map Prod.fst := by
  induction packages generalizing l with
  | nil => simp [linkFunctions]
  | cons p rest ih =>
    have hfirst : (l.linkPackageFunctions p).mName2FuncBodyIdx name = none ↔
        l.mName2FuncBodyIdx name = none ∧ name ∉ p.functions.map Prod.fst := by
      rw [linkPackageFunctions_eq, foldl_linkFunction_names]
      rfl
    have hrest := ih (l.linkPackageFunctions p)
    rw [hfirst, and_assoc] at hrest
    rw [List.flatMap_cons, List.map_append, List.mem_append, not_or]
    exact hrest

end Cangjie.CHIR.Interpreter.BCHIRLinker
