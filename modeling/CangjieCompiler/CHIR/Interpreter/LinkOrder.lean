import CangjieCompiler.CHIR.Interpreter.JumpRelocation

/-!
# The order of packages and functions

For packages whose functions have distinct names, the operand of a call is the index of the frame of
the function it names, whatever the order in which the functions are linked, and the index of the
dummy function when no package defines it.  Every other operand has the same meaning in every order,
but not the same value: classes, methods and global variables are numbered as they are met, and
types and strings as they are added.
-/

namespace Cangjie.CHIR.Interpreter.BCHIRLinker

open SymbolicImage

/-! ## What the operands of a linked function are -/

/-- The names of the functions of the packages. -/
def functionNames (packages : List Bchir) : List String :=
  (packages.flatMap Bchir.functions).map Prod.fst

/-- The frame of a function is at an index, which the table of functions has. -/
structure FrameAt (l : BCHIRLinker) (f : String × Definition) (idx : ByteCodeContent) : Prop where
  func : l.mName2FuncBodyIdx f.1 = some idx
  frame : l.topDef[idx]? = some OpCode.FRAME.toCell
  locals : l.topDef[idx + 1]? = some f.2.numLVars

/-- The dummy function is at its index. -/
structure DummyAt (l : BCHIRLinker) : Prop where
  frame : l.topDef[l.dummyAbortFuncIdx]? = some OpCode.FRAME.toCell
  locals : l.topDef[l.dummyAbortFuncIdx + 1]? = some 0
  abort : l.topDef[l.dummyAbortFuncIdx + 2]? = some OpCode.ABORT.toCell

/-- The operand of a call: the frame of the function of that name, or the dummy function when there
is none. -/
def CallOperand (functions : List (String × Definition)) (l : BCHIRLinker) (name : String)
    (value : ByteCodeContent) : Prop :=
  (∃ g ∈ functions, g.1 = name ∧ FrameAt l g value) ∨
    (∀ g ∈ functions, g.1 ≠ name) ∧ value = l.dummyAbortFuncIdx

/-- The value of an operand of a function whose frame is at an index. -/
def LinkedOperand (functions : List (String × Definition)) (p : Bchir) (l : BCHIRLinker)
    (idx : ByteCodeContent) (name : String) (arg value : ByteCodeContent) :
    OperandKind → Prop
  | .plain => value = arg
  | .target => value = arg + (idx + 2)
  | .string => arg < p.strings.length → l.strings[value]? = p.strings[arg]?
  | .type => arg < p.types.length → l.types[value]? = p.types[arg]?
  | .optionalType =>
    if arg = BYTECODE_CONTENT_MAX then value = BYTECODE_CONTENT_MAX
    else arg < p.types.length → l.types[value]? = p.types[arg]?
  | .gvar =>
    l.mName2GvarId name = some value ∨
      l.mName2GvarId name = none ∧ CallOperand functions l name value
  | .func => CallOperand functions l name value
  | .classId => l.mName2ClassId name = some value
  | .methodId => l.mName2MethodId name = some value

/-- A function of a package is linked at an index: its frame, and every instruction at its distance
from the frame with its operands. -/
structure LinkedAt (functions : List (String × Definition)) (p : Bchir) (l : BCHIRLinker)
    (f : String × Definition) (instrs : List Instr) (idx : ByteCodeContent) : Prop where
  frame : FrameAt l f idx
  op : ∀ q ∈ (startsFrom 0 instrs).zip instrs, l.topDef[idx + 2 + q.1]? =
    some (if q.2.op = .GVAR ∧ l.mName2GvarId q.2.mangledName = none then OpCode.FUNC.toCell
      else q.2.op.toCell)
  operand : ∀ q ∈ (startsFrom 0 instrs).zip instrs, ∀ k < q.2.operands.length, ∀ kind,
    (operandKinds q.2.op q.2.arg)[k]? = some kind →
    ∃ value, l.topDef[idx + 2 + q.1 + 1 + k]? = some value ∧
      LinkedOperand functions p l idx q.2.mangledName (q.2.arg k) value kind

/-! ## Identifiers -/

/-- Global variables are numbered one after the other. -/
lemma linkGlobalVars_numbering (l : BCHIRLinker) (bchir : Bchir)
    (h : IsNumbering l.mName2GvarId l.gvarId) :
    IsNumbering (l.linkGlobalVars bchir).mName2GvarId (l.linkGlobalVars bchir).gvarId ∧
      ∀ name, (l.linkGlobalVars bchir).mName2GvarId name = none ↔
        l.mName2GvarId name = none ∧ name ∉ bchir.globalVars := by
  unfold linkGlobalVars
  induction bchir.globalVars generalizing l with
  | nil => simpa using h
  | cons first rest ih =>
    rw [List.foldl_cons]
    cases hfirst : l.mName2GvarId first with
    | some id =>
      rw [Option.isSome_some, if_pos rfl]
      obtain ⟨hnumbering, hnames⟩ := ih l h
      refine ⟨hnumbering, fun name => ?_⟩
      rw [hnames, List.mem_cons, not_or]
      refine and_congr_right fun hname => (and_iff_right ?_).symm
      rintro rfl
      exact absurd (hfirst.symm.trans hname) (by simp)
    | none =>
      have hemplace : emplace l.mName2GvarId first l.gvarId =
          Function.update l.mName2GvarId first (some l.gvarId) := by
        unfold emplace
        rw [hfirst]
        rfl
      rw [Option.isSome_none, if_neg Bool.false_ne_true, hemplace]
      obtain ⟨hnumbering, hnames⟩ := ih
        { l with
          gvarId := l.gvarId + 1
          mName2GvarId := Function.update l.mName2GvarId first (some l.gvarId) }
        (h.fresh hfirst)
      refine ⟨hnumbering, fun name => ?_⟩
      rw [hnames, List.mem_cons, not_or]
      by_cases hne : name = first
      · simp [hne]
      · simp [hne]

/-- The global variables that are known: those of the packages in constant evaluation. -/
lemma start_gvars (forConstEval : Bool) (packages : List Bchir) :
    IsNumbering (start forConstEval packages).mName2GvarId (start forConstEval packages).gvarId ∧
      ∀ name, (start forConstEval packages).mName2GvarId name = none ↔
        (forConstEval = true → name ∉ packages.flatMap Bchir.globalVars) := by
  have hfold : ∀ (qs : List Bchir) (l : BCHIRLinker), IsNumbering l.mName2GvarId l.gvarId →
      IsNumbering (qs.foldl linkGlobalVars l).mName2GvarId (qs.foldl linkGlobalVars l).gvarId ∧
        ∀ name, (qs.foldl linkGlobalVars l).mName2GvarId name = none ↔
          l.mName2GvarId name = none ∧ name ∉ qs.flatMap Bchir.globalVars := by
    intro qs
    induction qs with
    | nil => exact fun l h => ⟨h, by simp⟩
    | cons q rest ih =>
      intro l h
      obtain ⟨hq, hqnames⟩ := linkGlobalVars_numbering l q h
      obtain ⟨hrest, hrestnames⟩ := ih _ hq
      refine ⟨hrest, fun name => ?_⟩
      rw [List.foldl_cons, hrestnames, hqnames, List.flatMap_cons, List.mem_append, not_or,
        and_assoc]
  have hbefore : IsNumbering beforeGlobals.mName2GvarId beforeGlobals.gvarId :=
    IsNumbering.empty fun _ => rfl
  obtain ⟨hnumbering, hnames⟩ := hfold packages beforeGlobals hbefore
  cases forConstEval with
  | false => exact ⟨hbefore, fun name => by simp [start_eq, afterGlobals, push, beforeGlobals,
      BCHIRLinker.set, generateDummyAbortFunction, init]⟩
  | true =>
    refine ⟨hnumbering, fun name => (hnames name).trans ?_⟩
    simp [beforeGlobals, BCHIRLinker.set, generateDummyAbortFunction, init, push]

/-- What names have got at the start is what the final tables have. -/
lemma start_grows (forConstEval : Bool) (packages : List Bchir) :
    Grows (start forConstEval packages) (run forConstEval packages) :=
  (linkFunctions_grows _ packages).trans (afterFunctions_grows forConstEval packages)

/-- The final identifiers of classes and methods are numbered one after the other. -/
lemma run_numbered (forConstEval : Bool) (packages : List Bchir) :
    (run forConstEval packages).Numbered := by
  have hstarted := start_started forConstEval packages
  exact (start_grows forConstEval packages).numbered
    ⟨IsNumbering.empty hstarted.classIds.2, IsNumbering.empty hstarted.methodIds.2⟩

/-- The dummy function is where the final state has it. -/
lemma run_dummyAt (forConstEval : Bool) {packages : List Bchir}
    (hwords : ∀ q ∈ packages, HasWords q) :
    (run forConstEval packages).dummyAbortFuncIdx = dummyIdx ∧
      DummyAt (run forConstEval packages) := by
  have hdummy : (run forConstEval packages).dummyAbortFuncIdx = dummyIdx :=
    (start_grows forConstEval packages).dummy.trans (start_started forConstEval packages).dummy
  obtain ⟨cells, hcells⟩ := linkFunctions_appends (start forConstEval packages) hwords _
    (start_started forConstEval packages).means
  obtain ⟨last, words, hrun⟩ := run_means forConstEval packages hcells
  refine ⟨hdummy, ?_, ?_, ?_⟩ <;> rw [hdummy, hrun.image_eq] <;> rfl

/-! ## The functions of a run -/

/-- A name is registered exactly when a package has a function of that name. -/
lemma run_names (forConstEval : Bool) (packages : List Bchir) (name : String) :
    (run forConstEval packages).mName2FuncBodyIdx name = none ↔ name ∉ functionNames packages := by
  have hstart := (start_started forConstEval packages).funcs name
  rw [(run_tables forConstEval packages).1]
  unfold afterFunctions
  rw [linkFunctions_names, and_iff_right hstart]
  rfl

section Function

variable (forConstEval : Bool) {packages earlier later : List Bchir} {p : Bchir}
  {fs rest : List (String × Definition)} {f : String × Definition} {instrs : List Instr}
  (hpackages : packages = earlier ++ p :: later)
  (hfunctions : p.functions = fs ++ f :: rest)

include hpackages hfunctions

/-- The first function of a name is the one that is registered. -/
lemma run_func (hdistinct : (functionNames packages).Nodup) :
    (run forConstEval packages).mName2FuncBodyIdx f.1 =
      some (beforeFunction forConstEval packages earlier p fs).nextIndex := by
  have hnames : functionNames packages = (functionNames earlier ++ fs.map Prod.fst) ++
      f.1 :: (rest.map Prod.fst ++ functionNames later) := by
    simp [functionNames, hpackages, hfunctions]
  rw [hnames] at hdistinct
  have hnot : f.1 ∉ functionNames earlier ++ fs.map Prod.fst := fun hmem =>
    List.disjoint_of_nodup_append hdistinct hmem List.mem_cons_self
  rw [List.mem_append, not_or] at hnot
  have hbefore : (beforeFunction forConstEval packages earlier p fs).mName2FuncBodyIdx f.1 =
      none := by
    have hstart := (start_started forConstEval packages).funcs f.1
    unfold beforeFunction
    rw [foldl_linkFunction_names]
    refine ⟨?_, hnot.2⟩
    exact (linkFunctions_names _ earlier f.1).mpr ⟨hstart, hnot.1⟩
  refine (linkFunction_grows_run forConstEval hpackages hfunctions).funcs f.1 _ ?_
  rw [linkFunction_funcs]
  simp [emplace, hbefore]

variable (hwords : ∀ q ∈ packages, HasWords q)

include hwords

lemma run_frameAt (hdistinct : (functionNames packages).Nodup) :
    FrameAt (run forConstEval packages) f
      (beforeFunction forConstEval packages earlier p fs).nextIndex := by
  obtain ⟨before, after, -, hlength, hrun⟩ := run_function forConstEval hpackages hfunctions hwords
    (finalResolution_resolves forConstEval packages earlier p)
  refine ⟨run_func forConstEval hpackages hfunctions hdistinct, ?_, ?_⟩
  · rw [← hlength, hrun.image_eq, List.getElem?_map,
      List.getElem?_append_right (Nat.le_refl _), Nat.sub_self]
    rfl
  · rw [← hlength, hrun.image_eq, List.getElem?_map,
      List.getElem?_append_right (Nat.le_add_right _ _), Nat.add_sub_cancel_left]
    rfl

end Function

/-- The resolved reference to a name is the operand of a call. -/
lemma callOperand_resolve (forConstEval : Bool) {packages : List Bchir}
    (hwords : ∀ q ∈ packages, HasWords q) (hdistinct : (functionNames packages).Nodup)
    (name : String) :
    CallOperand (packages.flatMap Bchir.functions) (run forConstEval packages) name
      ((Cell.ref name).resolve (run forConstEval packages).mName2FuncBodyIdx
        (run forConstEval packages).dummyAbortFuncIdx) := by
  by_cases hname : name ∈ functionNames packages
  · obtain ⟨g, hg, rfl⟩ := List.mem_map.mp hname
    obtain ⟨p, hp, hgp⟩ := List.mem_flatMap.mp hg
    obtain ⟨earlier, later, hpackages⟩ := List.append_of_mem hp
    obtain ⟨fs, rest, hfunctions⟩ := List.append_of_mem hgp
    have hframe := run_frameAt forConstEval hpackages hfunctions hwords hdistinct
    refine Or.inl ⟨g, hg, rfl, ?_⟩
    rw [Cell.resolve, hframe.func]
    exact hframe
  · have hnone := (run_names forConstEval packages name).mpr hname
    refine Or.inr ⟨fun g hg hgname => hname (hgname ▸ List.mem_map_of_mem hg), ?_⟩
    rw [Cell.resolve, hnone]
    rfl

/-- A word that a resolution with another identifier would make another word is an identifier that
the final table has. -/
lemma exists_classId (forConstEval : Bool) (packages earlier : List Bchir) (p : Bchir)
    {name : String} {value : ByteCodeContent}
    (h : ∀ r, Resolves forConstEval packages earlier p r → value = r.classId name) :
    (run forConstEval packages).mName2ClassId name = some value := by
  have hfinal := finalResolution_resolves forConstEval packages earlier p
  cases hid : (run forConstEval packages).mName2ClassId name with
  | some id => rw [h _ hfinal, hfinal.names.classId name id hid]
  | none =>
    have hother : Resolves forConstEval packages earlier p
        { finalResolution forConstEval packages earlier p with
          classId := Function.update (finalResolution forConstEval packages earlier p).classId name
            (value + 1) } := by
      refine ⟨⟨hfinal.names.gvar, fun name' id hname' => ?_, hfinal.names.methodId⟩, rfl, rfl⟩
      have hne : name' ≠ name := by
        rintro rfl
        exact absurd (hid.symm.trans hname') (by simp)
      dsimp only
      rw [Function.update_of_ne hne]
      exact hfinal.names.classId name' id hname'
    have hvalue := h _ hother
    dsimp only at hvalue
    rw [Function.update_self] at hvalue
    exact absurd hvalue (Nat.ne_of_lt (Nat.lt_succ_self value))

lemma exists_methodId (forConstEval : Bool) (packages earlier : List Bchir) (p : Bchir)
    {name : String} {value : ByteCodeContent}
    (h : ∀ r, Resolves forConstEval packages earlier p r → value = r.methodId name) :
    (run forConstEval packages).mName2MethodId name = some value := by
  have hfinal := finalResolution_resolves forConstEval packages earlier p
  cases hid : (run forConstEval packages).mName2MethodId name with
  | some id => rw [h _ hfinal, hfinal.names.methodId name id hid]
  | none =>
    have hother : Resolves forConstEval packages earlier p
        { finalResolution forConstEval packages earlier p with
          methodId := Function.update (finalResolution forConstEval packages earlier p).methodId
            name (value + 1) } := by
      refine ⟨⟨hfinal.names.gvar, hfinal.names.classId, fun name' id hname' => ?_⟩, rfl, rfl⟩
      have hne : name' ≠ name := by
        rintro rfl
        exact absurd (hid.symm.trans hname') (by simp)
      dsimp only
      rw [Function.update_of_ne hne]
      exact hfinal.names.methodId name' id hname'
    have hvalue := h _ hother
    dsimp only at hvalue
    rw [Function.update_self] at hvalue
    exact absurd hvalue (Nat.ne_of_lt (Nat.lt_succ_self value))

/-- An entry of the table of a package is where the indices of the package have it. -/
lemma getElem?_table {α : Type} (table : Bchir → List α) {packages earlier later : List Bchir}
    {p : Bchir} (hpackages : packages = earlier ++ p :: later) {arg : ℕ}
    (harg : arg < (table p).length) :
    (packages.flatMap table)[(List.range' (earlier.flatMap table).length
      (table p).length).getD arg 0]? = (table p)[arg]? := by
  have hindex : (List.range' (earlier.flatMap table).length (table p).length).getD arg 0 =
      (earlier.flatMap table).length + arg := by
    rw [List.getD_eq_getElem _ _ (by simpa using harg)]
    simp
  have hsplit : packages.flatMap table =
      earlier.flatMap table ++ (table p ++ later.flatMap table) := by
    rw [hpackages, List.flatMap_append, List.flatMap_cons]
  rw [hindex, hsplit, List.getElem?_append_right (Nat.le_add_right _ _), Nat.add_sub_cancel_left,
    List.getElem?_append_left harg]

section Linked

variable (forConstEval : Bool) {packages earlier later : List Bchir} {p : Bchir}
  {fs rest : List (String × Definition)} {f : String × Definition} {instrs : List Instr}
  (hpackages : packages = earlier ++ p :: later)
  (hfunctions : p.functions = fs ++ f :: rest) (hwords : ∀ q ∈ packages, HasWords q)

include hpackages hfunctions hwords

lemma beforeBody_nextIndex :
    ((beforeFunction forConstEval packages earlier p fs).beforeBody f).nextIndex =
      (beforeFunction forConstEval packages earlier p fs).nextIndex + 2 := by
  obtain ⟨cells, hcells⟩ := beforeFunction_means forConstEval hpackages hfunctions hwords
  rw [(beforeBody_means hcells f).nextIndex_eq, List.length_append, ← hcells.nextIndex_eq]
  rfl

/-- Every function of every package is linked at the index at which it is reached. -/
theorem run_linkedAt (hdistinct : (functionNames packages).Nodup)
    (hconsists : f.2.Consists instrs) :
    LinkedAt (packages.flatMap Bchir.functions) p (run forConstEval packages) f instrs
      (beforeFunction forConstEval packages earlier p fs).nextIndex where
  frame := run_frameAt forConstEval hpackages hfunctions hwords hdistinct
  op := fun q hq => by
    have hrun := run_instr forConstEval hpackages hfunctions hwords
      (finalResolution_resolves forConstEval packages earlier p) hconsists hq
      (j := 0) (by simp [Instr.encode])
    rw [beforeBody_nextIndex forConstEval hpackages hfunctions hwords, Nat.add_zero] at hrun
    rw [hrun]
    have hgvar : (finalResolution forConstEval packages earlier p).gvar =
        (run forConstEval packages).mName2GvarId := rfl
    simp only [linkInstr, List.getElem?_cons_zero, Option.map_some, Cell.resolve, linkOp, hgvar]
    split <;> rfl
  operand := fun q hq k hk kind hkind => by
    have hrun := fun r hr => run_operand forConstEval hpackages hfunctions hwords (r := r) hr
      hconsists hq hk hkind
    simp only [beforeBody_nextIndex forConstEval hpackages hfunctions hwords] at hrun
    have hfinal := finalResolution_resolves forConstEval packages earlier p
    obtain ⟨-, htypes, hstrings⟩ := run_tables forConstEval packages
    refine ⟨_, hrun _ hfinal, ?_⟩
    cases kind with
    | plain => rfl
    | target => rfl
    | string =>
      intro harg
      rw [hstrings]
      exact getElem?_table Bchir.strings hpackages harg
    | type =>
      intro harg
      rw [htypes]
      exact getElem?_table Bchir.types hpackages harg
    | optionalType =>
      dsimp only [LinkedOperand, linkOperand]
      by_cases hmax : q.2.arg k = BYTECODE_CONTENT_MAX
      · simp [hmax, Cell.resolve]
      · rw [if_neg hmax, if_pos hmax]
        intro harg
        rw [htypes]
        exact getElem?_table Bchir.types hpackages harg
    | gvar =>
      have hgvar : (finalResolution forConstEval packages earlier p).gvar =
          (run forConstEval packages).mName2GvarId := rfl
      dsimp only [LinkedOperand, linkOperand]
      rw [hgvar]
      cases hid : (run forConstEval packages).mName2GvarId q.2.mangledName with
      | some id => exact Or.inl rfl
      | none => exact Or.inr ⟨rfl, callOperand_resolve forConstEval hwords hdistinct _⟩
    | func => exact callOperand_resolve forConstEval hwords hdistinct _
    | classId =>
      refine exists_classId forConstEval packages earlier p fun r hr => ?_
      exact Option.some.inj ((hrun _ hfinal).symm.trans (hrun r hr))
    | methodId =>
      refine exists_methodId forConstEval packages earlier p fun r hr => ?_
      exact Option.some.inj ((hrun _ hfinal).symm.trans (hrun r hr))

end Linked

/-! ## Two orders -/

/-- The same package with its functions in another order. -/
structure SamePackage (p q : Bchir) : Prop where
  strings : q.strings = p.strings
  types : q.types = p.types
  functions : p.functions.Perm q.functions
  globalVars : q.globalVars = p.globalVars
  sClassTable : q.sClassTable = p.sClassTable
  initFuncsForConsts : q.initFuncsForConsts = p.initFuncsForConsts

/-- The same packages in another order, with their functions in other orders. -/
def Reordered (packages packages' : List Bchir) : Prop :=
  ∃ middle, List.Forall₂ SamePackage packages middle ∧ middle.Perm packages'

lemma Reordered.exists_package {packages packages' : List Bchir} (h : Reordered packages packages')
    {p : Bchir} (hp : p ∈ packages) : ∃ q ∈ packages', SamePackage p q := by
  obtain ⟨middle, hsame, hperm⟩ := h
  obtain ⟨q, hq, hpq⟩ : ∃ q ∈ middle, SamePackage p q := by
    clear hperm
    induction hsame with
    | nil => simp at hp
    | cons hfirst hrest ih =>
      rcases List.mem_cons.mp hp with rfl | hp
      · exact ⟨_, List.mem_cons_self, hfirst⟩
      · obtain ⟨q, hq, hpq⟩ := ih hp
        exact ⟨q, List.mem_cons_of_mem _ hq, hpq⟩
  exact ⟨q, hperm.mem_iff.mp hq, hpq⟩

lemma Reordered.functions {packages packages' : List Bchir} (h : Reordered packages packages') :
    (packages.flatMap Bchir.functions).Perm (packages'.flatMap Bchir.functions) := by
  obtain ⟨middle, hsame, hperm⟩ := h
  refine List.Perm.trans ?_ (hperm.flatMap_right _)
  clear hperm
  induction hsame with
  | nil => exact List.Perm.refl _
  | cons hfirst hrest ih => exact hfirst.functions.append ih

lemma Reordered.globalVars {packages packages' : List Bchir} (h : Reordered packages packages') :
    (packages.flatMap Bchir.globalVars).Perm (packages'.flatMap Bchir.globalVars) := by
  obtain ⟨middle, hsame, hperm⟩ := h
  refine List.Perm.trans ?_ (hperm.flatMap_right _)
  clear hperm
  induction hsame with
  | nil => exact List.Perm.refl _
  | cons hfirst hrest ih =>
    rw [List.flatMap_cons, List.flatMap_cons, hfirst.globalVars]
    exact ih.append_left _

lemma Reordered.hasWords {packages packages' : List Bchir} (h : Reordered packages packages')
    (hwords : ∀ q ∈ packages, HasWords q) : ∀ q ∈ packages', HasWords q := by
  intro q hq f hf
  have hmem : f ∈ packages.flatMap Bchir.functions :=
    h.functions.mem_iff.mpr (List.mem_flatMap.mpr ⟨q, hq, hf⟩)
  obtain ⟨p, hp, hfp⟩ := List.mem_flatMap.mp hmem
  exact hwords p hp f hfp

/-- What a linked function is does not depend on the order of the functions and packages. -/
lemma LinkedAt.reorder {functions functions' : List (String × Definition)} {p q : Bchir}
    {l : BCHIRLinker} {f : String × Definition} {instrs : List Instr} {idx : ByteCodeContent}
    (h : LinkedAt functions' q l f instrs idx) (hfunctions : functions.Perm functions')
    (hsame : SamePackage p q) : LinkedAt functions p l f instrs idx where
  frame := h.frame
  op := h.op
  operand := fun i hi k hk kind hkind => by
    obtain ⟨value, hvalue, hlinked⟩ := h.operand i hi k hk kind hkind
    have hcall : CallOperand functions' l i.2.mangledName value →
        CallOperand functions l i.2.mangledName value := by
      rintro (⟨g, hg, hname, hframe⟩ | ⟨hnone, hdummy⟩)
      · exact Or.inl ⟨g, hfunctions.mem_iff.mpr hg, hname, hframe⟩
      · exact Or.inr ⟨fun g hg => hnone g (hfunctions.mem_iff.mp hg), hdummy⟩
    refine ⟨value, hvalue, ?_⟩
    cases kind with
    | gvar => exact hlinked.imp_right (And.imp_right hcall)
    | func => exact hcall hlinked
    | string =>
      dsimp only [LinkedOperand] at hlinked ⊢
      rwa [hsame.strings] at hlinked
    | type =>
      dsimp only [LinkedOperand] at hlinked ⊢
      rwa [hsame.types] at hlinked
    | optionalType =>
      dsimp only [LinkedOperand] at hlinked ⊢
      rwa [hsame.types] at hlinked
    | plain => exact hlinked
    | target => exact hlinked
    | classId => exact hlinked
    | methodId => exact hlinked

/-- Distinct names have distinct identifiers. -/
structure DistinctIds (l : BCHIRLinker) : Prop where
  gvars : ∀ name name' id, l.mName2GvarId name = some id → l.mName2GvarId name' = some id →
    name = name'
  classes : ∀ name name' id, l.mName2ClassId name = some id → l.mName2ClassId name' = some id →
    name = name'
  methods : ∀ name name' id, l.mName2MethodId name = some id → l.mName2MethodId name' = some id →
    name = name'

lemma run_distinctIds (forConstEval : Bool) (packages : List Bchir) :
    DistinctIds (run forConstEval packages) where
  gvars := by
    rw [(start_grows forConstEval packages).gvars]
    exact (start_gvars forConstEval packages).1.injective
  classes := (run_numbered forConstEval packages).1.injective
  methods := (run_numbered forConstEval packages).2.injective

/-- A function that calls a function. -/
def calling (name callee : String) : String × Definition := singleOp name .FUNC (some callee)

/-- Two packages in two orders. -/
lemma reordered_swap (f g : String × Definition) :
    Reordered [packageOf f, packageOf g] [packageOf g, packageOf f] := by
  refine ⟨_, List.forall₂_same.mpr fun p _ => ?_, List.Perm.swap _ _ _⟩
  exact ⟨rfl, rfl, List.Perm.refl _, rfl, rfl, rfl⟩

lemma hasWords_pair (name name' : String) {op : OpCode} (mangledName mangledName' : Option String)
    (hop : op.toCell < 2 ^ 32) :
    ∀ q ∈ [packageOf (singleOp name op mangledName), packageOf (singleOp name' op mangledName')],
      HasWords q := by
  intro q hq
  rcases List.mem_cons.mp hq with rfl | hq
  · exact hasWords_single name mangledName hop
  · obtain rfl := List.mem_singleton.mp hq
    exact hasWords_single name' mangledName' hop

/-- A function that boxes a value as a class. -/
def boxing (name cls : String) : String × Definition := singleOp name .BOX (some cls)

/-- The operands of a function in two images are equal up to the relocation of bodies. -/
def EqualUpToRelocation (functions : List (String × Definition)) (l l' : BCHIRLinker)
    (idx idx' : ByteCodeContent) (name : String) (arg value value' : ByteCodeContent) :
    OperandKind → Prop
  | .target => value = arg + (idx + 2) ∧ value' = arg + (idx' + 2)
  | .func => CallOperand functions l name value ∧ CallOperand functions l' name value'
  | .gvar =>
    value = value' ∨ CallOperand functions l name value ∧ CallOperand functions l' name value'
  | _ => value = value'

end Cangjie.CHIR.Interpreter.BCHIRLinker
