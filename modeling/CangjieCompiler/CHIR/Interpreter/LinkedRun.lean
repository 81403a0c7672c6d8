import CangjieCompiler.CHIR.Interpreter.LinkedPackages

/-!
# The run of the linker

The run starts from the dummy function, links all functions, and then all classes.  For every
function of every package the final image contains its frame, followed by what its body is linked
to under the final tables.
-/

namespace Cangjie.CHIR.Interpreter.BCHIRLinker

open SymbolicImage

/-! ## The start -/

/-- The cells before the functions. -/
def header : List ByteCodeContent :=
  [OpCode.JUMP.toCell, 5, OpCode.FRAME.toCell, 0, OpCode.ABORT.toCell, OpCode.JUMP.toCell, 0]

/-- The index of the dummy function. -/
def dummyIdx : ByteCodeContent := 2

/-- Numbering global variables changes nothing else. -/
structure SameButGlobals (l l' : BCHIRLinker) : Prop where
  topDef : l'.topDef = l.topDef
  strings : l'.strings = l.strings
  types : l'.types = l.types
  classTable : l'.classTable = l.classTable
  funcs : l'.mName2FuncBodyIdx = l.mName2FuncBodyIdx
  placeHolders : l'.mName2FuncBodyIdxPlaceHolder = l.mName2FuncBodyIdxPlaceHolder
  classIds : l'.classId = l.classId ∧ l'.mName2ClassId = l.mName2ClassId
  methodIds : l'.methodId = l.methodId ∧ l'.mName2MethodId = l.mName2MethodId
  dummy : l'.dummyAbortFuncIdx = l.dummyAbortFuncIdx

lemma SameButGlobals.refl (l : BCHIRLinker) : SameButGlobals l l :=
  ⟨rfl, rfl, rfl, rfl, rfl, rfl, ⟨rfl, rfl⟩, ⟨rfl, rfl⟩, rfl⟩

lemma SameButGlobals.trans {l l' l'' : BCHIRLinker} (h : SameButGlobals l l')
    (h' : SameButGlobals l' l'') : SameButGlobals l l'' where
  topDef := h'.topDef.trans h.topDef
  strings := h'.strings.trans h.strings
  types := h'.types.trans h.types
  classTable := h'.classTable.trans h.classTable
  funcs := h'.funcs.trans h.funcs
  placeHolders := h'.placeHolders.trans h.placeHolders
  classIds := ⟨h'.classIds.1.trans h.classIds.1, h'.classIds.2.trans h.classIds.2⟩
  methodIds := ⟨h'.methodIds.1.trans h.methodIds.1, h'.methodIds.2.trans h.methodIds.2⟩
  dummy := h'.dummy.trans h.dummy

lemma linkGlobalVars_same (l : BCHIRLinker) (bchir : Bchir) :
    SameButGlobals l (l.linkGlobalVars bchir) := by
  refine foldl_rel SameButGlobals.refl SameButGlobals.trans _ (fun l name => ?_) bchir.globalVars l
  split
  · exact SameButGlobals.refl l
  · exact ⟨rfl, rfl, rfl, rfl, rfl, rfl, ⟨rfl, rfl⟩, ⟨rfl, rfl⟩, rfl⟩

/-- The state before the global variables are numbered. -/
def beforeGlobals : BCHIRLinker :=
  (init.push [OpCode.JUMP.toCell, 0]).generateDummyAbortFunction.set 1 5

/-- The state after the global variables are numbered. -/
def afterGlobals (forConstEval : Bool) (packages : List Bchir) : BCHIRLinker :=
  if forConstEval then packages.foldl linkGlobalVars beforeGlobals else beforeGlobals

lemma start_eq (forConstEval : Bool) (packages : List Bchir) :
    start forConstEval packages =
      (afterGlobals forConstEval packages).push [OpCode.JUMP.toCell, 0] := rfl

lemma afterGlobals_same (forConstEval : Bool) (packages : List Bchir) :
    SameButGlobals beforeGlobals (afterGlobals forConstEval packages) := by
  unfold afterGlobals
  split
  · exact foldl_rel SameButGlobals.refl SameButGlobals.trans _ linkGlobalVars_same packages _
  · exact SameButGlobals.refl _

/-- What the start leaves in the tables. -/
structure Started (l : BCHIRLinker) : Prop where
  topDef : l.topDef = header
  strings : l.strings = []
  types : l.types = []
  classTable : ∀ id, l.classTable id = none
  funcs : ∀ name, l.mName2FuncBodyIdx name = none
  placeHolders : ∀ name, l.mName2FuncBodyIdxPlaceHolder name = none
  classIds : l.classId = 0 ∧ ∀ name, l.mName2ClassId name = none
  methodIds : l.methodId = 0 ∧ ∀ name, l.mName2MethodId name = none
  dummy : l.dummyAbortFuncIdx = dummyIdx

lemma start_started (forConstEval : Bool) (packages : List Bchir) :
    Started (start forConstEval packages) := by
  have hsame := afterGlobals_same forConstEval packages
  rw [start_eq]
  refine ⟨?_, hsame.strings, hsame.types, fun id => ?_, fun name => ?_, fun name => ?_,
    ⟨hsame.classIds.1, fun name => ?_⟩, ⟨hsame.methodIds.1, fun name => ?_⟩, hsame.dummy⟩
  · exact congrArg (· ++ [OpCode.JUMP.toCell, 0]) hsame.topDef
  · exact congrFun hsame.classTable id
  · exact congrFun hsame.funcs name
  · exact congrFun hsame.placeHolders name
  · exact congrFun hsame.classIds.2 name
  · exact congrFun hsame.methodIds.2 name

lemma Started.means {l : BCHIRLinker} (h : Started l) : l.Means (header.map .word) := by
  refine ⟨?_, fun name _ => ?_, fun name hname => absurd (h.funcs name) hname⟩
  · rw [h.topDef]
    rfl
  · rw [h.placeHolders, ← List.nil_append (header.map Cell.word), sites_append_words]
    rfl

/-! ## The end -/

/-- The state when all functions are linked. -/
def afterFunctions (forConstEval : Bool) (packages : List Bchir) : BCHIRLinker :=
  (start forConstEval packages).linkFunctions packages

/-- The state before the classes are linked. -/
def beforeClasses (forConstEval : Bool) (packages : List Bchir) : BCHIRLinker :=
  let l := (afterFunctions forConstEval packages).set 6
    (afterFunctions forConstEval packages).nextIndex
  let l :=
    if forConstEval then
      l.generateCallsToConstInitFunctions
        ((packages.getLast?.map Bchir.initFuncsForConsts).getD [])
    else l
  l.push [OpCode.EXIT.toCell]

lemma run_eq (forConstEval : Bool) (packages : List Bchir) :
    run forConstEval packages =
      packages.foldl linkClasses (beforeClasses forConstEval packages) := by
  have hindex : (start forConstEval packages).nextIndex - 1 = 6 := by
    rw [nextIndex, (start_started forConstEval packages).topDef]
    rfl
  unfold run beforeClasses afterFunctions
  dsimp only
  rw [hindex]

lemma generateCalls_cons (l : BCHIRLinker) (name : String) (rest : List String) :
    l.generateCallsToConstInitFunctions (name :: rest) =
      (match l.mName2FuncBodyIdx name with
      | some idx => l.push [OpCode.FUNC.toCell, idx, OpCode.APPLY.toCell, 1, OpCode.DROP.toCell]
      | none => l).generateCallsToConstInitFunctions rest := rfl

/-- The calls of initialisers are appended as words. -/
lemma generateCalls_words (l : BCHIRLinker) (names : List String) :
    ∃ words, l.generateCallsToConstInitFunctions names = l.push words := by
  induction names generalizing l with
  | nil => exact ⟨[], by simp [generateCallsToConstInitFunctions, push]⟩
  | cons name rest ih =>
    rw [generateCalls_cons]
    cases l.mName2FuncBodyIdx name with
    | none => exact ih l
    | some idx =>
      obtain ⟨words, hwords⟩ :=
        ih (l.push [OpCode.FUNC.toCell, idx, OpCode.APPLY.toCell, 1, OpCode.DROP.toCell])
      refine ⟨[OpCode.FUNC.toCell, idx, OpCode.APPLY.toCell, 1, OpCode.DROP.toCell] ++ words, ?_⟩
      rw [hwords]
      simp [push]

/-- After the functions only words follow, and the jump over the definitions is completed. -/
lemma beforeClasses_words (forConstEval : Bool) (packages : List Bchir) :
    ∃ words, beforeClasses forConstEval packages =
      ((afterFunctions forConstEval packages).set 6
        (afterFunctions forConstEval packages).nextIndex).push words := by
  unfold beforeClasses
  cases forConstEval with
  | false => exact ⟨[OpCode.EXIT.toCell], rfl⟩
  | true =>
    obtain ⟨words, hwords⟩ := generateCalls_words
      ((afterFunctions true packages).set 6 (afterFunctions true packages).nextIndex)
      ((packages.getLast?.map Bchir.initFuncsForConsts).getD [])
    refine ⟨words ++ [OpCode.EXIT.toCell], ?_⟩
    simp only [if_true]
    rw [hwords]
    simp [push]

lemma linkAllClasses_sameCode (l : BCHIRLinker) (packages : List Bchir) :
    SameCode l (packages.foldl linkClasses l) :=
  foldl_rel SameCode.refl SameCode.trans _ linkClasses_sameCode packages l

lemma linkAllClasses_grows (l : BCHIRLinker) (packages : List Bchir) :
    Grows l (packages.foldl linkClasses l) :=
  foldl_rel Grows.refl Grows.trans _ linkClasses_grows packages l

/-- What names have got when all functions are linked is what the final tables have. -/
lemma afterFunctions_grows (forConstEval : Bool) (packages : List Bchir) :
    Grows (afterFunctions forConstEval packages) (run forConstEval packages) := by
  obtain ⟨words, hwords⟩ := beforeClasses_words forConstEval packages
  have hset : Grows (afterFunctions forConstEval packages)
      ((afterFunctions forConstEval packages).set 6
        (afterFunctions forConstEval packages).nextIndex) :=
    ⟨rfl, rfl, fun _ _ h => h, fun _ _ h => h, fun _ _ h => h, id⟩
  have hpush : Grows (afterFunctions forConstEval packages)
      (beforeClasses forConstEval packages) := by
    rw [hwords]
    exact hset.trans (push_bodyStep _ words).grows
  rw [run_eq]
  exact hpush.trans (linkAllClasses_grows _ packages)

/-- The functions, types and strings of the final state are those after linking the functions. -/
lemma run_tables (forConstEval : Bool) (packages : List Bchir) :
    (run forConstEval packages).mName2FuncBodyIdx =
        (afterFunctions forConstEval packages).mName2FuncBodyIdx ∧
      (run forConstEval packages).types = packages.flatMap Bchir.types ∧
      (run forConstEval packages).strings = packages.flatMap Bchir.strings := by
  obtain ⟨words, hwords⟩ := beforeClasses_words forConstEval packages
  have hsame := linkAllClasses_sameCode (beforeClasses forConstEval packages) packages
  rw [← run_eq, hwords] at hsame
  have hstarted := start_started forConstEval packages
  obtain ⟨htypes, hstrings⟩ := linkFunctions_tables (start forConstEval packages) packages
  rw [hstarted.types, List.nil_append] at htypes
  rw [hstarted.strings, List.nil_append] at hstrings
  exact ⟨hsame.funcs, hsame.types.trans htypes, hsame.strings.trans hstrings⟩

/-- The final image is the one after linking the functions, with the jump over the definitions
completed and further words. -/
lemma run_means (forConstEval : Bool) (packages : List Bchir) {cells : List (Cell String)}
    (h : (afterFunctions forConstEval packages).Means (header.map .word ++ cells)) :
    ∃ (last : ByteCodeContent) (words : List ByteCodeContent),
      (run forConstEval packages).Means
        ((header.set 6 last).map .word ++ cells ++ words.map .word) := by
  obtain ⟨words, hwords⟩ := beforeClasses_words forConstEval packages
  have hsame := linkAllClasses_sameCode (beforeClasses forConstEval packages) packages
  rw [← run_eq, hwords] at hsame
  have hword : (header.map Cell.word ++ cells)[6]? = some (.word 0) := rfl
  have hset := Represents.set_word h hword (afterFunctions forConstEval packages).nextIndex
  have hpush := Means.push (l := (afterFunctions forConstEval packages).set 6
    (afterFunctions forConstEval packages).nextIndex) hset words
  exact ⟨(afterFunctions forConstEval packages).nextIndex, words, hpush.sameCode hsame⟩

/-! ## A function in a run -/

/-- The state when a package is reached. -/
def beforePackage (forConstEval : Bool) (packages earlier : List Bchir) : BCHIRLinker :=
  (start forConstEval packages).linkFunctions earlier

/-- The state when a function of a package is reached. -/
def beforeFunction (forConstEval : Bool) (packages earlier : List Bchir) (p : Bchir)
    (fs : List (String × Definition)) : BCHIRLinker :=
  let l := beforePackage forConstEval packages earlier
  fs.foldl (linkFunction p (l.packageTypes p) (l.packageStrings p)) (l.enterPackage p)

/-- The final resolution for a package. -/
def finalResolution (forConstEval : Bool) (packages earlier : List Bchir) (p : Bchir) :
    Resolution :=
  (run forConstEval packages).resolution
    (List.range' (earlier.flatMap Bchir.types).length p.types.length)
    (List.range' (earlier.flatMap Bchir.strings).length p.strings.length)

/-- A resolution for a package that agrees with the final tables on every name they have. -/
structure Resolves (forConstEval : Bool) (packages earlier : List Bchir) (p : Bchir)
    (r : Resolution) : Prop where
  names : (run forConstEval packages).ResolvedBy r
  typeMap : r.typeMap = (finalResolution forConstEval packages earlier p).typeMap
  stringMap : r.stringMap = (finalResolution forConstEval packages earlier p).stringMap

lemma finalResolution_resolves (forConstEval : Bool) (packages earlier : List Bchir) (p : Bchir) :
    Resolves forConstEval packages earlier p
      (finalResolution forConstEval packages earlier p) :=
  ⟨resolvedBy_resolution _ _ _, rfl, rfl⟩

lemma beforePackage_indices (forConstEval : Bool) (packages earlier : List Bchir) (p : Bchir) :
    (beforePackage forConstEval packages earlier).packageTypes p =
        (finalResolution forConstEval packages earlier p).typeMap ∧
      (beforePackage forConstEval packages earlier).packageStrings p =
        (finalResolution forConstEval packages earlier p).stringMap := by
  have hstarted := start_started forConstEval packages
  obtain ⟨htypes, hstrings⟩ := linkFunctions_tables (start forConstEval packages) earlier
  rw [hstarted.types, List.nil_append] at htypes
  rw [hstarted.strings, List.nil_append] at hstrings
  unfold packageTypes packageStrings beforePackage
  rw [htypes, hstrings]
  exact ⟨rfl, rfl⟩

section Split

variable (forConstEval : Bool) {packages earlier later : List Bchir} {p : Bchir}
  {fs rest : List (String × Definition)} {f : String × Definition}

/-- The functions after a function of a package, and the later packages. -/
lemma afterFunctions_eq (hpackages : packages = earlier ++ p :: later)
    (hfunctions : p.functions = fs ++ f :: rest) :
    afterFunctions forConstEval packages =
      (rest.foldl (linkFunction p
          (finalResolution forConstEval packages earlier p).typeMap
          (finalResolution forConstEval packages earlier p).stringMap)
        (linkFunction p (finalResolution forConstEval packages earlier p).typeMap
          (finalResolution forConstEval packages earlier p).stringMap
          (beforeFunction forConstEval packages earlier p fs) f)).linkFunctions later := by
  obtain ⟨htypes, hstrings⟩ := beforePackage_indices forConstEval packages earlier p
  have hsplit : afterFunctions forConstEval packages =
      ((beforePackage forConstEval packages earlier).linkPackageFunctions p).linkFunctions later := by
    unfold afterFunctions beforePackage linkFunctions
    rw [hpackages, List.foldl_append, List.foldl_cons]
  rw [hsplit, linkPackageFunctions_eq, hfunctions, List.foldl_append, List.foldl_cons]
  unfold beforeFunction
  dsimp only
  rw [htypes, hstrings]

variable (hpackages : packages = earlier ++ p :: later)
  (hfunctions : p.functions = fs ++ f :: rest) (hwords : ∀ q ∈ packages, HasWords q)

include hpackages hfunctions hwords

/-- The image when a function is reached starts with the header. -/
lemma beforeFunction_means :
    ∃ cells, (beforeFunction forConstEval packages earlier p fs).Means
      (header.map .word ++ cells) := by
  have hearlier : ∀ q ∈ earlier, HasWords q := fun q hq =>
    hwords q (hpackages ▸ List.mem_append_left _ hq)
  obtain ⟨cells, hcells⟩ := linkFunctions_appends (start forConstEval packages) hearlier _
    (start_started forConstEval packages).means
  have hp : HasWords p := hwords p (hpackages ▸ List.mem_append_right _ List.mem_cons_self)
  have hfs : ∀ g ∈ fs, ∀ c ∈ g.2.bytecode, c < 2 ^ 32 := fun g hg =>
    hp g (hfunctions ▸ List.mem_append_left _ hg)
  have henter : ((beforePackage forConstEval packages earlier).enterPackage p).Means
      (header.map .word ++ cells) := hcells
  obtain ⟨more, hmore⟩ := foldl_linkFunction_appends p
    ((beforePackage forConstEval packages earlier).packageTypes p)
    ((beforePackage forConstEval packages earlier).packageStrings p) fs hfs _ _ henter
  exact ⟨cells ++ more, by rw [← List.append_assoc]; exact hmore⟩

omit hfunctions hwords in
/-- What names have got when a function of a package is linked is what the final tables have. -/
lemma linkFunction_grows_run (hfunctions : p.functions = fs ++ f :: rest) :
    Grows (linkFunction p (finalResolution forConstEval packages earlier p).typeMap
      (finalResolution forConstEval packages earlier p).stringMap
      (beforeFunction forConstEval packages earlier p fs) f) (run forConstEval packages) := by
  have hfinal := afterFunctions_grows forConstEval packages
  rw [afterFunctions_eq forConstEval hpackages hfunctions] at hfinal
  exact ((foldl_linkFunction_step p _ _ rest _).grows.trans
    (linkFunctions_grows _ later)).trans hfinal

/-- The final image contains the frame of a function and what its body is linked to, at the index at
which the function was reached. -/
theorem run_function {r : Resolution} (hr : Resolves forConstEval packages earlier p r) :
    ∃ before after : List (Cell String),
      header.length ≤ before.length ∧
      before.length = (beforeFunction forConstEval packages earlier p fs).nextIndex ∧
      (run forConstEval packages).Means
        (before ++ (functionCells r before.length f ++ after)) := by
  obtain ⟨cells, hbefore⟩ := beforeFunction_means forConstEval hpackages hfunctions hwords
  have hsplit := afterFunctions_eq forConstEval hpackages hfunctions
  have hgrows := linkFunction_grows_run forConstEval hpackages hfunctions
  rw [← hr.typeMap, ← hr.stringMap] at hsplit hgrows
  have hp : HasWords p := hwords p (hpackages ▸ List.mem_append_right _ List.mem_cons_self)
  have hf : ∀ c ∈ f.2.bytecode, c < 2 ^ 32 :=
    hp f (hfunctions ▸ List.mem_append_right _ List.mem_cons_self)
  have hrest : ∀ g ∈ rest, ∀ c ∈ g.2.bytecode, c < 2 ^ 32 := fun g hg =>
    hp g (hfunctions ▸ List.mem_append_right _ (List.mem_cons_of_mem _ hg))
  have hlater : ∀ q ∈ later, HasWords q := fun q hq =>
    hwords q (hpackages ▸ List.mem_append_right _ (List.mem_cons_of_mem _ hq))
  have hlinked := linkFunction_means p hbefore f hf r (hr.names.of_grows hgrows)
  obtain ⟨more, hmore⟩ := (foldl_linkFunction_appends p r.typeMap r.stringMap rest hrest
    (linkFunction p r.typeMap r.stringMap
      (beforeFunction forConstEval packages earlier p fs) f)).trans
    (linkFunctions_appends _ hlater) _ hlinked
  rw [← hsplit, List.append_assoc, List.append_assoc] at hmore
  obtain ⟨last, words, hrun⟩ := run_means forConstEval packages hmore
  have hlength : ((header.set 6 last).map Cell.word ++ cells).length =
      (header.map Cell.word ++ cells).length := by
    simp
  refine ⟨(header.set 6 last).map .word ++ cells, more ++ words.map .word, ?_, ?_, ?_⟩
  · simp
  · rw [hlength, hbefore.nextIndex_eq]
  · rw [hlength]
    simpa only [List.append_assoc] using hrun

end Split

end Cangjie.CHIR.Interpreter.BCHIRLinker
