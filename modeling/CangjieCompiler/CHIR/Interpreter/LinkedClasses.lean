import CangjieCompiler.CHIR.Interpreter.ClassTable

/-!
# Linked classes

While the functions are linked, the classes that operations name without their package declaring
them are registered without any information.  After that the classes of one package after the other
are linked; a super class that neither the package nor an earlier one declares is registered without
any information, too.  Such a class keeps that entry, also when a later package declares it.  All
classes are linked as they are declared exactly when every class registered in this way has nothing
to declare.
-/

namespace Cangjie.CHIR.Interpreter.BCHIRLinker

open Relation

/-! ## Classes named by operations -/

/-- Classes of a list are registered without any information, unless they have some. -/
structure RegistersEmpty (names : List String) (l l' : BCHIRLinker) : Prop where
  ok : l.ClassesOk → l'.ClassesOk
  infoOf : l.ClassesOk → ∀ other, l'.infoOf other =
    (l.infoOf other).or (if other ∈ names then some (emptyClassInfo other) else none)

lemma SameClasses.registersEmpty {l l' : BCHIRLinker} (h : SameClasses l l') :
    RegistersEmpty [] l l' where
  ok := h.ok
  infoOf := fun hl other => by
    rw [h.infoOf hl, if_neg List.not_mem_nil, Option.or_none]

lemma RegistersEmpty.append {names names' : List String} {l l' l'' : BCHIRLinker}
    (h : RegistersEmpty names l l') (h' : RegistersEmpty names' l' l'') :
    RegistersEmpty (names ++ names') l l'' where
  ok := fun hl => h'.ok (h.ok hl)
  infoOf := fun hl other => by
    rw [h'.infoOf (h.ok hl), h.infoOf hl, Option.or_assoc]
    congr 1
    by_cases hmem : other ∈ names <;> by_cases hmem' : other ∈ names' <;> simp [hmem, hmem']

lemma RegistersEmpty.then_same {names : List String} {l l' l'' : BCHIRLinker}
    (h : RegistersEmpty names l l') (h' : SameClasses l' l'') : RegistersEmpty names l l'' := by
  have happend := h.append h'.registersEmpty
  rwa [List.append_nil] at happend

lemma SameClasses.then_empty {names : List String} {l l' l'' : BCHIRLinker}
    (h : SameClasses l l') (h' : RegistersEmpty names l' l'') : RegistersEmpty names l l'' :=
  h.registersEmpty.append h'

/-- The class that an operation registers without any information. -/
def boxedAt (bchir : Bchir) (d : Definition) (curr : ℕ) : List String :=
  if linkerCase (OpCode.ofNat (d.get curr)) = .boxOrInstanceof ∧
      (bchir.getSClass (d.getMangledNameAnnotation curr)).isNone then
    [d.getMangledNameAnnotation curr]
  else []

lemma push_sameClasses (l : BCHIRLinker) (words : List ByteCodeContent) :
    SameClasses l (l.push words) := SameClasses.of_eq rfl rfl rfl

lemma pushFunc_sameClasses (l : BCHIRLinker) (name : String) : SameClasses l (l.pushFunc name) := by
  unfold pushFunc addToMName2FuncBodyIdxPlaceHolder
  cases l.mName2FuncBodyIdx name with
  | some idx => exact push_sameClasses l [idx]
  | none =>
    cases l.mName2FuncBodyIdxPlaceHolder name <;> exact SameClasses.of_eq rfl rfl rfl

lemma linkNamedClass_registersEmpty (l : BCHIRLinker) (bchir : Bchir) (name : String) :
    RegistersEmpty (if (bchir.getSClass name).isNone then [name] else []) l
      (l.linkNamedClass bchir name) := by
  unfold linkNamedClass
  cases hdecl : bchir.getSClass name with
  | some sClassInfo => exact (SameClasses.refl l).registersEmpty
  | none =>
    rw [Option.isNone_none, if_pos rfl, if_pos rfl]
    have hcases : l.ClassesOk → (linkClass bchir (linkDepth bchir) l name).ClassesOk ∧
        ∀ other, (linkClass bchir (linkDepth bchir) l name).infoOf other =
          (l.infoOf other).or (if other ∈ [name] then some (emptyClassInfo other) else none) := by
      intro hl
      by_cases hnone : l.infoOf name = none
      · have hundeclared : (linkClass bchir (linkDepth bchir) l name).ClassesOk ∧
            ∀ other, (linkClass bchir (linkDepth bchir) l name).infoOf other =
              if other = name then some (emptyClassInfo name) else l.infoOf other :=
          linkClass_undeclared hl hnone hdecl
        obtain ⟨hok, hinfo⟩ := hundeclared
        refine ⟨hok, fun other => ?_⟩
        rw [hinfo]
        by_cases hne : other = name
        · rw [if_pos hne, hne, hnone]
          simp
        · rw [if_neg hne, if_neg (by simpa using hne), Option.or_none]
      · have hsame : linkClass bchir (linkDepth bchir) l name = l := linkClass_of_some hnone
        refine ⟨by rwa [hsame], fun other => ?_⟩
        rw [hsame]
        by_cases hne : other = name
        · obtain ⟨info, hinfo⟩ := Option.ne_none_iff_exists'.mp hnone
          rw [hne, hinfo, Option.some_or]
        · rw [if_neg (by simpa using hne), Option.or_none]
    exact ⟨fun hl => (hcases hl).1, fun hl => (hcases hl).2⟩

/-- Linking an operation registers the class it names, when its package does not declare it. -/
lemma linkOperation_registersEmpty (bchir : Bchir) (d : Definition) (typeMap stringMap : List ℕ)
    (offset curr : ℕ) (l : BCHIRLinker) :
    RegistersEmpty (boxedAt bchir d curr) l
      (l.linkOperation bchir d typeMap stringMap offset curr).1 := by
  unfold linkOperation boxedAt
  dsimp only
  generalize OpCode.ofNat (d.get curr) = op
  generalize d.getMangledNameAnnotation curr = name
  have hpush := push_sameClasses l [op.toCell]
  have hset : (l.push [op.toCell]).set ((l.push [op.toCell]).nextIndex - 1) OpCode.FUNC.toCell =
      l.push [OpCode.FUNC.toCell] := set_push l _ _
  generalize l.push [op.toCell] = l₁ at hpush hset ⊢
  cases hcase : linkerCase op
  case boxOrInstanceof =>
    have hregister := (hpush.trans (getClassId_sameClasses l₁ name)).then_empty
      (linkNamedClass_registersEmpty (l₁.getClassId name).2 bchir name)
    simp only [true_and]
    exact hregister.then_same (push_sameClasses _ _)
  all_goals
    rw [if_neg (by simp)]
    refine SameClasses.registersEmpty ?_
  case gvar =>
    cases l₁.mName2GvarId name with
    | some id => exact hpush.trans (push_sameClasses _ _)
    | none =>
      simp only [hset]
      exact (push_sameClasses l _).trans (pushFunc_sameClasses _ _)
  case func => exact hpush.trans (pushFunc_sameClasses _ _)
  case allocateClass =>
    exact (hpush.trans (getClassId_sameClasses _ _)).trans (push_sameClasses _ _)
  case allocateClassExc =>
    exact (hpush.trans (getClassId_sameClasses _ _)).trans (push_sameClasses _ _)
  case invokeExc =>
    exact (hpush.trans (getMethodId_sameClasses _ _)).trans (push_sameClasses _ _)
  case invoke =>
    exact (hpush.trans (getMethodId_sameClasses _ _)).trans (push_sameClasses _ _)
  all_goals exact hpush.trans (push_sameClasses _ _)

/-- The index of the next operation does not depend on the state. -/
lemma linkOperation_next (bchir : Bchir) (d : Definition) (hcells : ∀ c ∈ d.bytecode, c < 2 ^ 32)
    (typeMap stringMap : List ℕ) (offset curr : ℕ) (l : BCHIRLinker) :
    (l.linkOperation bchir d typeMap stringMap offset curr).2 =
      curr + (d.instrAt curr).encode.length := by
  have hinit : init.Means [] :=
    ⟨rfl, fun _ _ => rfl, fun _ h => absurd rfl h⟩
  have hnext := (linkOperation_means bchir d hcells offset curr init hinit
    ((init.linkOperation bchir d typeMap stringMap offset curr).1.resolution typeMap stringMap)
    (resolvedBy_resolution _ _ _)).2
  rw [← hnext]
  unfold linkOperation
  dsimp only [resolution]
  cases linkerCase (OpCode.ofNat (d.get curr))
  case gvar =>
    dsimp only
    generalize (l.push [(OpCode.ofNat (d.get curr)).toCell]).mName2GvarId _ = id
    generalize (init.push [(OpCode.ofNat (d.get curr)).toCell]).mName2GvarId _ = id'
    cases id <;> cases id' <;> rfl
  all_goals rfl

/-- The classes that the operations of a definition register from an index on. -/
def boxedFrom (bchir : Bchir) (d : Definition) : ℕ → ℕ → List String
  | 0, _ => []
  | fuel + 1, curr =>
    if curr < d.nextIndex then
      boxedAt bchir d curr ++ boxedFrom bchir d fuel (curr + (d.instrAt curr).encode.length)
    else []

lemma linkOperations_registersEmpty (bchir : Bchir) (d : Definition)
    (hcells : ∀ c ∈ d.bytecode, c < 2 ^ 32) (typeMap stringMap : List ℕ) (offset fuel curr : ℕ)
    (l : BCHIRLinker) :
    RegistersEmpty (boxedFrom bchir d fuel curr) l
      (linkOperations bchir d typeMap stringMap offset fuel curr l) := by
  induction fuel generalizing curr l with
  | zero => exact (SameClasses.refl l).registersEmpty
  | succ fuel ih =>
    unfold linkOperations boxedFrom
    by_cases hlt : curr < d.nextIndex
    · simp only [hlt, if_true]
      have hnext := linkOperation_next bchir d hcells typeMap stringMap offset curr l
      have hrest := ih (l.linkOperation bchir d typeMap stringMap offset curr).2
        (l.linkOperation bchir d typeMap stringMap offset curr).1
      rw [hnext] at hrest ⊢
      exact (linkOperation_registersEmpty bchir d typeMap stringMap offset curr l).append hrest
    · simp only [hlt, if_false]
      exact (SameClasses.refl l).registersEmpty

/-- The class that an instruction registers. -/
def boxedBy (bchir : Bchir) (i : Instr) : List String :=
  if (i.op = .BOX ∨ i.op = .INSTANCEOF) ∧ (bchir.getSClass i.mangledName).isNone then
    [i.mangledName]
  else []

lemma linkerCase_eq_boxOrInstanceof (op : OpCode) :
    linkerCase op = .boxOrInstanceof ↔ op = .BOX ∨ op = .INSTANCEOF := by
  cases op <;> simp [linkerCase]

/-- The classes that a list of instructions of a definition registers. -/
lemma boxedFrom_eq (bchir : Bchir) (d : Definition) (front : List ByteCodeContent)
    (instrs : List Instr) (h : d.bytecode = front ++ instrs.flatMap Instr.encode)
    (hwf : ∀ i ∈ instrs, i.WellFormed)
    (hname : ∀ p ∈ (startsFrom front.length instrs).zip instrs,
      d.getMangledNameAnnotation p.1 = p.2.mangledName) (fuel : ℕ)
    (hfuel : d.nextIndex ≤ front.length + fuel) :
    boxedFrom bchir d fuel front.length = instrs.flatMap (boxedBy bchir) := by
  induction instrs generalizing front fuel with
  | nil =>
    have hge : ¬ front.length < d.nextIndex := by
      simp [Definition.nextIndex, h]
    cases fuel with
    | zero => rfl
    | succ fuel => simp [boxedFrom, hge]
  | cons i rest ih =>
    have hlength : d.nextIndex = front.length + (i.encode ++ rest.flatMap Instr.encode).length := by
      rw [Definition.nextIndex, h, List.flatMap_cons, List.length_append]
    have hencode : 0 < i.encode.length := by simp [Instr.encode]
    rw [List.length_append] at hlength
    obtain ⟨fuel, rfl⟩ : ∃ n, fuel = n + 1 := ⟨fuel - 1, by omega⟩
    have hinstr : d.instrAt front.length = i :=
      instrAt_append d front i _ h (hwf i List.mem_cons_self)
        (hname (front.length, i) (by simp [startsFrom]))
    have hboxed : boxedAt bchir d front.length = boxedBy bchir i := by
      have hop : OpCode.ofNat (d.get front.length) = i.op := congrArg Instr.op hinstr
      have hmangled : d.getMangledNameAnnotation front.length = i.mangledName :=
        congrArg Instr.mangledName hinstr
      unfold boxedAt boxedBy
      rw [hop, hmangled]
      simp only [linkerCase_eq_boxOrInstanceof]
    have hrest := ih (front ++ i.encode) (by rw [h, List.flatMap_cons, List.append_assoc])
      (fun j hj => hwf j (List.mem_cons_of_mem _ hj))
      (fun p hp => hname p (by
        rw [List.length_append] at hp
        exact List.mem_cons_of_mem _ hp)) fuel (by rw [List.length_append]; omega)
    rw [List.length_append] at hrest
    unfold boxedFrom
    rw [if_pos (by omega), hinstr, hboxed, hrest, List.flatMap_cons]

/-- The classes that the operations of a function register. -/
def boxedIn (bchir : Bchir) (f : String × Definition) : List String :=
  boxedFrom bchir f.2 f.2.nextIndex 0

/-- A function registers the classes that its instructions name and its package does not declare. -/
lemma mem_boxedIn (bchir : Bchir) {f : String × Definition} {instrs : List Instr}
    (h : f.2.Consists instrs) (name : String) :
    name ∈ boxedIn bchir f ↔ bchir.getSClass name = none ∧
      ∃ i ∈ instrs, (i.op = .BOX ∨ i.op = .INSTANCEOF) ∧ i.mangledName = name := by
  have hboxed : boxedIn bchir f = instrs.flatMap (boxedBy bchir) :=
    boxedFrom_eq bchir f.2 [] instrs h.bytecode_eq h.wellFormed h.mangledName f.2.nextIndex
      (Nat.le_add_left _ _)
  rw [hboxed, List.mem_flatMap]
  constructor
  · rintro ⟨i, hi, hname⟩
    unfold boxedBy at hname
    split at hname
    · rename_i hcond
      obtain rfl := List.mem_singleton.mp hname
      exact ⟨Option.isNone_iff_eq_none.mp hcond.2, i, hi, hcond.1, rfl⟩
    · exact absurd hname List.not_mem_nil
  · rintro ⟨hnone, i, hi, hop, rfl⟩
    refine ⟨i, hi, ?_⟩
    unfold boxedBy
    rw [if_pos ⟨hop, Option.isNone_iff_eq_none.mpr hnone⟩]
    exact List.mem_singleton_self _

lemma resolve_sameClasses (l : BCHIRLinker) (name : String) (idx : ByteCodeContent) :
    SameClasses l (l.resolveMName2FuncBodyIdxPlaceHolder name idx) := by
  unfold resolveMName2FuncBodyIdxPlaceHolder
  dsimp only
  cases l.mName2FuncBodyIdxPlaceHolder name with
  | none => exact SameClasses.of_eq rfl rfl rfl
  | some indices =>
    simp only [foldl_set]
    exact SameClasses.of_eq rfl rfl rfl

lemma linkFunction_registersEmpty (bchir : Bchir) (typeMap stringMap : List ByteCodeContent)
    (l : BCHIRLinker) (f : String × Definition) (hcells : ∀ c ∈ f.2.bytecode, c < 2 ^ 32) :
    RegistersEmpty (boxedIn bchir f) l (linkFunction bchir typeMap stringMap l f) :=
  ((resolve_sameClasses l f.1 l.nextIndex).trans (push_sameClasses _ _)).then_empty
    (linkOperations_registersEmpty bchir f.2 hcells typeMap stringMap _ _ _ _)

lemma foldl_linkFunction_registersEmpty (bchir : Bchir) (typeMap stringMap : List ByteCodeContent)
    (fs : List (String × Definition)) (hcells : ∀ f ∈ fs, ∀ c ∈ f.2.bytecode, c < 2 ^ 32)
    (l : BCHIRLinker) :
    RegistersEmpty (fs.flatMap (boxedIn bchir)) l
      (fs.foldl (linkFunction bchir typeMap stringMap) l) := by
  induction fs generalizing l with
  | nil => exact (SameClasses.refl l).registersEmpty
  | cons f rest ih =>
    exact (linkFunction_registersEmpty bchir typeMap stringMap l f
      (hcells f List.mem_cons_self)).append (ih (fun g hg => hcells g (List.mem_cons_of_mem _ hg)) _)

/-- The classes that the operations of the packages register. -/
def boxedNames (packages : List Bchir) : List String :=
  packages.flatMap fun p => p.functions.flatMap (boxedIn p)

lemma linkFunctions_registersEmpty (packages : List Bchir)
    (hwords : ∀ p ∈ packages, HasWords p) (l : BCHIRLinker) :
    RegistersEmpty (boxedNames packages) l (l.linkFunctions packages) := by
  induction packages generalizing l with
  | nil => exact (SameClasses.refl l).registersEmpty
  | cons p rest ih =>
    have hp := foldl_linkFunction_registersEmpty p (l.packageTypes p) (l.packageStrings p)
      p.functions (hwords p List.mem_cons_self) (l.enterPackage p)
    have henter : SameClasses l (l.enterPackage p) := SameClasses.of_eq rfl rfl rfl
    exact (henter.then_empty hp).append
      (ih (fun q hq => hwords q (List.mem_cons_of_mem _ hq)) _)

/-- Before the classes are linked, exactly the classes that operations name without their package
declaring them are registered, without any information. -/
lemma beforeClasses_infoOf (forConstEval : Bool) {packages : List Bchir}
    (hwords : ∀ p ∈ packages, HasWords p) :
    (beforeClasses forConstEval packages).ClassesOk ∧
      ∀ name, (beforeClasses forConstEval packages).infoOf name =
        if name ∈ boxedNames packages then some (emptyClassInfo name) else none := by
  have hstarted := start_started forConstEval packages
  have hok : (start forConstEval packages).ClassesOk :=
    ⟨IsNumbering.empty hstarted.classIds.2, fun id info hid =>
      absurd ((hstarted.classTable id).symm.trans hid) (by simp)⟩
  have hnone : ∀ name, (start forConstEval packages).infoOf name = none := fun name => by
    unfold infoOf
    rw [hstarted.classIds.2]
    rfl
  have hregisters := linkFunctions_registersEmpty packages hwords (start forConstEval packages)
  have hsame : SameClasses (afterFunctions forConstEval packages)
      (beforeClasses forConstEval packages) := by
    obtain ⟨words, hbefore⟩ := beforeClasses_words forConstEval packages
    rw [hbefore]
    exact SameClasses.of_eq rfl rfl rfl
  have hbefore := hregisters.then_same hsame
  refine ⟨hbefore.ok hok, fun name => ?_⟩
  rw [hbefore.infoOf hok, hnone, Option.none_or]

end Cangjie.CHIR.Interpreter.BCHIRLinker
