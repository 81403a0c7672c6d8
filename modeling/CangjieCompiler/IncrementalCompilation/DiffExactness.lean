import CangjieCompiler.IncrementalCompilation.MemberDiff

/-!
# What the diff reports and what it leaves out

For each cached top-level declaration the diff adds something to its report.  Together with what it
leaves out, this is what changed at the declaration and below it.

Left out are the declarations more than one level below the topmost deleted one, everything below a
function, a variable or an alias, hashes that the branch for the kind of the declaration does not
compare, changes of a declaration that has an entry already, and deleted aliases whose kind the
cache does not have.
-/

namespace Cangjie.IncrementalCompilation

open NamedTree

/-! ## Reports -/

namespace ModifiedDecls

def reportedDeleted (ret : ModifiedDecls) : Multiset RawMangledName :=
  Multiset.ofList ret.deletes + Multiset.ofList ret.deletedTypeAlias +
    (ret.types.map fun e => Multiset.ofList e.2.del).sum

def reportedAdded (ret : ModifiedDecls) : Multiset Decl :=
  Multiset.ofList ret.added + (ret.types.map fun e => Multiset.ofList e.2.added).sum

/-- What a change of a type reports as changed: the type itself and its members. -/
def changedIn (decl : Decl) (c : TypeChange) : Multiset Decl :=
  (if c.isOwnChange then {decl} else 0) + Multiset.ofList (c.changed.map CommonChange.decl)

def reportedChanged (ret : ModifiedDecls) : Multiset Decl :=
  Multiset.ofList ret.aliases + Multiset.ofList (ret.commons.map Prod.fst) +
    (ret.types.map fun e => changedIn e.1 e.2).sum

end ModifiedDecls

/-- A report: deleted names, added and changed declarations, deleted and changed aliases. -/
abbrev Report :=
  Multiset RawMangledName × Multiset Decl × Multiset Decl × Multiset RawMangledName × Multiset Decl

def report (ret : ModifiedDecls) : Report :=
  (ret.reportedDeleted, ret.reportedAdded, ret.reportedChanged, ret.deletedTypeAlias, ret.aliases)

/-- The functions and variables among the top-level declarations. -/
def ASTKind.isCommon : ASTKind → Bool
  | FUNC_DECL | MACRO_DECL | MAIN_DECL | VAR_DECL | VAR_WITH_PATTERN_DECL => true
  | _ => false

/-- Some hash of a top-level declaration is different. -/
def HashesDiffer (cached cur : TopLevelDeclCache) : Prop :=
  cached.hashes ≠ cur.hashes ∨ cached.instVarHash ≠ cur.instVarHash ∨
    cached.virtHash ≠ cur.virtHash

instance (cached cur : TopLevelDeclCache) : Decidable (HashesDiffer cached cur) :=
  inferInstanceAs (Decidable (_ ∨ _ ∨ _))

/-- The map has an entry for a declaration. -/
def hasEntry {β : Type} (m : List (Decl × β)) (mangled : RawMangledName) : Bool :=
  m.any fun e => e.1.rawMangleName = mangled

section Entries

variable (mangled2Decl : RawMangled2DeclMap) (prevKind : RawMangledName → ASTKind)

/-! ## What changed at a declaration -/

/-- What changed at a common declaration and below it. -/
def changesOfCommon (mangled : RawMangledName) (cached cur : TopLevelDeclCache) : Report :=
  (deletedNames cached.members cur.members,
    (addedNames cached.members cur.members).map mangled2Decl.get,
    (if HashesDiffer cached cur then {mangled2Decl.get mangled} else 0) +
      Multiset.ofList ((changedNames cached.members cur.members).map mangled2Decl.get),
    0,
    if (mangled2Decl.get mangled).astKind = .TYPE_ALIAS_DECL ∧ HashesDiffer cached cur then
      {mangled2Decl.get mangled}
    else 0)

/-- What changed at a cached declaration and below it. -/
def changesAt (cur : ASTCache) (e : RawMangledName × TopLevelDeclCache) : Report :=
  match cur.find? e.1 with
  | none =>
    (Multiset.ofList (e.1 :: (placesIn e.2.members).map fun q => q.2.name), 0, 0,
      if prevKind e.1 = .TYPE_ALIAS_DECL then {e.1} else 0, 0)
  | some c => changesOfCommon mangled2Decl e.1 e.2 c

/-- What a current declaration adds. -/
def additionAt (cached : ASTCache) (e : RawMangledName × TopLevelDeclCache) : Report :=
  match cached.find? e.1 with
  | none => (0, {mangled2Decl.get e.1}, 0, 0, 0)
  | some _ => 0

/-! ## What the diff leaves out -/

/-- What the comparison of a common declaration leaves out: `typeEntry` and `commonEntry` say
whether the declaration has an entry already. -/
def omissionsOfCommon (typeEntry commonEntry : Bool) (mangled : RawMangledName)
    (cached cur : TopLevelDeclCache) : Report :=
  let decl := mangled2Decl.get mangled
  let whole (omitted : Bool) (aliases : Multiset Decl) : Report :=
    (deletedNames cached.members cur.members,
      (addedNames cached.members cur.members).map mangled2Decl.get,
      (if HashesDiffer cached cur ∧ omitted then {decl} else 0) +
        Multiset.ofList ((changedNames cached.members cur.members).map mangled2Decl.get),
      0, aliases)
  if decl.astKind = .TYPE_ALIAS_DECL then
    let omitted : Bool := cached.hashes.sigHash = cur.hashes.sigHash
    whole omitted (if HashesDiffer cached cur ∧ omitted then {decl} else 0)
  else if decl.astKind.isCommon then
    whole (cached.hashes = cur.hashes || commonEntry) 0
  else if typeEntry then whole true 0
  else (Multiset.ofList ((missingIn cached.members cur.members).flatMap deepNames), 0, 0, 0, 0)

/-- What the diff leaves out at a cached declaration. -/
def omissionsAt (cur : ASTCache) (ret : ModifiedDecls)
    (e : RawMangledName × TopLevelDeclCache) : Report :=
  match cur.find? e.1 with
  | none =>
    (Multiset.ofList (e.2.members.flatMap fun m => m.children.flatMap namesOf), 0, 0,
      if prevKind e.1 = .TYPE_ALIAS_DECL ∧ e.2.astKind ≠ ASTKind.TYPE_ALIAS_DECL.toUInt8 then {e.1}
      else 0, 0)
  | some c =>
    omissionsOfCommon mangled2Decl (hasEntry ret.types e.1) (hasEntry ret.commons e.1) e.1 e.2 c

end Entries

/-! ## The report of a type -/

lemma sum_ofList {α β : Type} (f : α → List β) (l : List α) :
    (l.map fun a => Multiset.ofList (f a)).sum = Multiset.ofList (l.flatMap f) := by
  induction l with
  | nil => rfl
  | cons a l ih => rw [List.map_cons, List.sum_cons, ih, List.flatMap_cons, Multiset.coe_add]

lemma sum_singleton {α β : Type} (f : α → β) (l : List α) :
    (l.map fun a => ({f a} : Multiset β)).sum = Multiset.ofList (l.map f) := by
  induction l with
  | nil => rfl
  | cons a l ih => rw [List.map_cons, List.sum_cons, ih, List.map_cons]; rfl

namespace ASTDiffImpl

variable {mangled2Decl : RawMangled2DeclMap}

lemma adds_del : Adds mangled2Decl (fun tc => Multiset.ofList tc.del)
    (fun x => Multiset.ofList (shallowNames x)) (fun _ => 0) (fun _ => 0) where
  deleted _ _ := (Multiset.coe_add _ _).symm
  added _ _ := (add_zero _).symm
  changed x y tc := by
    rw [recordChange]
    split_ifs <;> exact (add_zero _).symm

lemma adds_added : Adds mangled2Decl (fun tc => Multiset.ofList tc.added) (fun _ => 0)
    (fun y => {mangled2Decl.get y.name}) (fun _ => 0) where
  deleted _ _ := (add_zero _).symm
  added _ _ := (Multiset.coe_add _ _).symm
  changed x y tc := by
    rw [recordChange]
    split_ifs <;> exact (add_zero _).symm

lemma adds_changed : Adds mangled2Decl
    (fun tc => Multiset.ofList (tc.changed.map CommonChange.decl)) (fun _ => 0) (fun _ => 0)
    (fun n => {mangled2Decl.get n}) where
  deleted _ _ := (add_zero _).symm
  added _ _ := (add_zero _).symm
  changed x y tc := by
    rw [recordChange]
    by_cases h : x.label ≠ y.label
    · rw [if_pos ((isChange_memberChange mangled2Decl x y).mpr h), if_pos h, List.map_append,
        ← Multiset.coe_add]
      rfl
    · rw [if_neg fun hc => h ((isChange_memberChange mangled2Decl x y).mp hc), if_neg h, add_zero]

lemma adds_flags : Adds mangled2Decl
    (fun tc => ({(tc.isOwnChange, tc.order)} : Multiset (Bool × Bool))) (fun _ => 0) (fun _ => 0)
    (fun _ => 0) where
  deleted _ _ := (add_zero _).symm
  added _ _ := (add_zero _).symm
  changed x y tc := by
    rw [recordChange]
    split_ifs <;> exact (add_zero _).symm

section TypeDecl

variable {cached cur : TopLevelDeclCache}

lemma del_compareTypeDecl (hcached : DistinctNames cached.members)
    (hcur : DistinctNames cur.members) :
    Multiset.ofList (compareTypeDecl mangled2Decl cached cur).del =
      Multiset.ofList ((missingIn cached.members cur.members).flatMap shallowNames) := by
  rw [compareTypeDecl, total_compareMembers mangled2Decl adds_del hcached hcur, memberSum,
    sum_ofList]
  simp

lemma added_compareTypeDecl (hcached : DistinctNames cached.members)
    (hcur : DistinctNames cur.members) :
    Multiset.ofList (compareTypeDecl mangled2Decl cached cur).added =
      Multiset.ofList ((addedNames cached.members cur.members).map mangled2Decl.get) := by
  rw [compareTypeDecl, total_compareMembers mangled2Decl adds_added hcached hcur, memberSum,
    sum_singleton, addedNames_eq, List.map_map]
  simp [Function.comp_def]

lemma changed_compareTypeDecl (hcached : DistinctNames cached.members)
    (hcur : DistinctNames cur.members) :
    Multiset.ofList ((compareTypeDecl mangled2Decl cached cur).changed.map CommonChange.decl) =
      Multiset.ofList ((changedNames cached.members cur.members).map mangled2Decl.get) := by
  rw [compareTypeDecl, total_compareMembers mangled2Decl adds_changed hcached hcur, memberSum,
    sum_singleton, changedNames_eq]
  simp

lemma flags_compareTypeDecl (hcached : DistinctNames cached.members)
    (hcur : DistinctNames cur.members) :
    ((compareTypeDecl mangled2Decl cached cur).isOwnChange = true ↔ HashesDiffer cached cur) ∧
      (compareTypeDecl mangled2Decl cached cur).order = false := by
  have h := total_compareMembers mangled2Decl adds_flags hcached hcur
    { instVar := cached.instVarHash ≠ cur.instVarHash
      virtFun := cached.virtHash ≠ cur.virtHash
      sig := cached.hashes.sigHash ≠ cur.hashes.sigHash
      srcUse := cached.hashes.srcUse ≠ cur.hashes.srcUse
      body := cached.hashes.bodyHash ≠ cur.hashes.bodyHash }
  rw [memberSum] at h
  simp only [List.map_const', List.sum_replicate, nsmul_zero, add_zero,
    Multiset.singleton_inj, Prod.mk.injEq] at h
  refine ⟨?_, h.2⟩
  rw [compareTypeDecl, h.1, HashesDiffer, ne_eq cached.hashes, MemberHashes.ext_iff]
  simp only [TypeChange.isOwnChange, Bool.or_eq_true, decide_eq_true_eq]
  tauto

end TypeDecl

end ASTDiffImpl

/-! ## The report of one declaration -/

namespace ASTDiffImpl

variable {mangled2Decl : RawMangled2DeclMap} {prevKind : RawMangledName → ASTKind}

lemma emplace_of_hasEntry {β : Type} {decl : Decl} {change : β} {m : List (Decl × β)}
    (h : hasEntry m decl.rawMangleName = true) : emplace decl change m = m :=
  if_pos h

lemma emplace_of_not_hasEntry {β : Type} {decl : Decl} {change : β} {m : List (Decl × β)}
    (h : hasEntry m decl.rawMangleName = false) : emplace decl change m = m ++ [(decl, change)] :=
  if_neg (by rw [hasEntry] at h; simp [h])

lemma toUInt8_eq_iff (k : ASTKind) :
    k.toUInt8 = ASTKind.TYPE_ALIAS_DECL.toUInt8 ↔ k = .TYPE_ALIAS_DECL := by
  cases k <;> decide

/-- A deleted declaration is reported with its members. -/
lemma report_collectDeleted (mangled : RawMangledName) (topDecl : TopLevelDeclCache)
    (ret : ModifiedDecls) :
    report (collectDeletedTopLevelDecl mangled topDecl ret) =
      report ret + (Multiset.ofList (mangled :: topDecl.members.map name), 0, 0,
        if topDecl.astKind = ASTKind.TYPE_ALIAS_DECL.toUInt8 then {mangled} else 0, 0) := by
  have hcons : Multiset.ofList (mangled :: topDecl.members.map name) =
      Multiset.ofList [mangled] + Multiset.ofList (topDecl.members.map name) :=
    (Multiset.coe_add [mangled] _).symm
  rw [collectDeletedTopLevelDecl, hcons]
  split_ifs
  · refine Prod.ext ?_ (Prod.ext (add_zero _).symm (Prod.ext (add_zero _).symm
      (Prod.ext (Multiset.coe_add _ _).symm (add_zero _).symm)))
    simp only [report, ModifiedDecls.reportedDeleted, Prod.fst_add, ← Multiset.coe_add]
    abel
  · refine Prod.ext ?_ (add_zero _).symm
    simp only [report, ModifiedDecls.reportedDeleted, Prod.fst_add, ← Multiset.coe_add]
    abel

lemma report_added (decl : Decl) (ret : ModifiedDecls) :
    report (collectAddedTopLevelDecl decl ret) = report ret + (0, {decl}, 0, 0, 0) := by
  refine Prod.ext (add_zero _).symm (Prod.ext ?_ (add_zero _).symm)
  simp only [report, ModifiedDecls.reportedAdded, collectAddedTopLevelDecl, Prod.fst_add,
    Prod.snd_add, ← Multiset.coe_add, Multiset.coe_singleton]
  abel

lemma report_alias (decl : Decl) (ret : ModifiedDecls) :
    report { ret with aliases := ret.aliases ++ [decl] } =
      report ret + (0, 0, {decl}, 0, {decl}) := by
  refine Prod.ext (add_zero _).symm (Prod.ext (add_zero _).symm (Prod.ext ?_
    (Prod.ext (add_zero _).symm (Multiset.coe_add _ _).symm)))
  simp only [report, ModifiedDecls.reportedChanged, Prod.fst_add, Prod.snd_add,
    ← Multiset.coe_add, Multiset.coe_singleton]
  abel

lemma report_common (decl : Decl) (change : CommonChange) (ret : ModifiedDecls) :
    report { ret with commons := ret.commons ++ [(decl, change)] } =
      report ret + (0, 0, {decl}, 0, 0) := by
  refine Prod.ext (add_zero _).symm (Prod.ext (add_zero _).symm (Prod.ext ?_ (add_zero _).symm))
  simp only [report, ModifiedDecls.reportedChanged, Prod.fst_add, Prod.snd_add, List.map_append,
    List.map_cons, List.map_nil, ← Multiset.coe_add, Multiset.coe_singleton]
  abel

lemma report_type (decl : Decl) (change : TypeChange) (ret : ModifiedDecls) :
    report { ret with types := ret.types ++ [(decl, change)] } =
      report ret + (Multiset.ofList change.del, Multiset.ofList change.added,
        ModifiedDecls.changedIn decl change, 0, 0) := by
  refine Prod.ext ?_ (Prod.ext ?_ (Prod.ext ?_ (add_zero _).symm))
  all_goals
    simp only [report, ModifiedDecls.reportedDeleted, ModifiedDecls.reportedAdded,
      ModifiedDecls.reportedChanged, Prod.fst_add, Prod.snd_add, List.map_append, List.map_cons,
      List.map_nil, List.sum_append, List.sum_cons, List.sum_nil]
    abel

section Common

variable (mangled : RawMangledName) {cached cur : TopLevelDeclCache} (ret : ModifiedDecls)

/-- An alias is reported when its signature differs. -/
lemma report_compareAlias (hkind : (mangled2Decl.get mangled).astKind = .TYPE_ALIAS_DECL) :
    report (compareTopLevelDecl mangled2Decl cached cur mangled ret) +
        omissionsOfCommon mangled2Decl (hasEntry ret.types mangled) (hasEntry ret.commons mangled)
          mangled cached cur =
      report ret + changesOfCommon mangled2Decl mangled cached cur := by
  rw [compareTopLevelDecl, omissionsOfCommon, changesOfCommon]
  simp only [hkind, if_true, true_and]
  by_cases hsig : cached.hashes.sigHash = cur.hashes.sigHash
  · rw [if_neg (not_not_intro hsig)]
    simp [hsig]
  · have hdiffer : HashesDiffer cached cur := Or.inl fun h => hsig (by rw [h])
    rw [if_pos hsig, report_alias]
    simp [hsig, hdiffer, add_assoc]

lemma isChange_commonCompare (cached cur : TopLevelDeclCache) (decl : Decl) :
    (commonCompare cached cur decl).isChange = true ↔ cached.hashes ≠ cur.hashes := by
  rw [ne_eq, MemberHashes.ext_iff]
  simp only [CommonChange.isChange, commonCompare, Bool.or_eq_true, decide_eq_true_eq]
  tauto

/-- A function or a variable is reported when one of the three hashes differs. -/
lemma report_compareCommon (halias : (mangled2Decl.get mangled).astKind ≠ .TYPE_ALIAS_DECL)
    (hkind : (mangled2Decl.get mangled).astKind.isCommon = true) :
    report (compareTopLevelDecl mangled2Decl cached cur mangled ret) +
        omissionsOfCommon mangled2Decl (hasEntry ret.types mangled) (hasEntry ret.commons mangled)
          mangled cached cur =
      report ret + changesOfCommon mangled2Decl mangled cached cur := by
  have hcompare : compareTopLevelDecl mangled2Decl cached cur mangled ret =
      if (commonCompare cached cur (mangled2Decl.get mangled)).isChange then
        { ret with
          commons := emplace (mangled2Decl.get mangled)
            (commonCompare cached cur (mangled2Decl.get mangled)) ret.commons }
      else ret := by
    rw [compareTopLevelDecl]
    cases h : (mangled2Decl.get mangled).astKind <;> rw [h] at hkind <;>
      first | rfl | exact absurd hkind (by decide)
  rw [hcompare, omissionsOfCommon, changesOfCommon]
  simp only [hkind, if_true, halias, false_and, if_false]
  by_cases hhashes : cached.hashes = cur.hashes
  · rw [if_neg fun h => (isChange_commonCompare cached cur _).mp h hhashes]
    simp [hhashes]
  · have hdiffer : HashesDiffer cached cur := Or.inl hhashes
    rw [if_pos ((isChange_commonCompare cached cur _).mpr hhashes)]
    cases hentry : hasEntry ret.commons mangled with
    | true =>
      rw [emplace_of_hasEntry (by rw [mangled2Decl.rawMangleName_get]; exact hentry)]
      simp [hdiffer]
    | false =>
      rw [emplace_of_not_hasEntry (by rw [mangled2Decl.rawMangleName_get]; exact hentry),
        report_common]
      simp [hhashes, hdiffer, add_assoc]

/-- The names deleted below a type are those that the comparison of its members reports and those
further down. -/
lemma deletedNames_split (xs ys : List MemberDeclCache) :
    Multiset.ofList (deletedNames xs ys) =
      Multiset.ofList ((missingIn xs ys).flatMap shallowNames) +
        Multiset.ofList ((missingIn xs ys).flatMap deepNames) := by
  rw [deletedNames_eq, ← sum_ofList, ← sum_ofList, ← sum_ofList, ← List.sum_map_add]
  refine congrArg List.sum (List.map_congr_left fun x _ => ?_)
  rw [Multiset.coe_add]
  exact Multiset.coe_eq_coe.mpr (perm_namesOf x)

/-- A change of a type that does not count as one reports nothing. -/
lemma report_of_not_isChange {change : TypeChange} (h : change.isChange = false) (decl : Decl) :
    change.del = [] ∧ change.added = [] ∧ ModifiedDecls.changedIn decl change = 0 := by
  simp only [TypeChange.isChange, Bool.or_eq_false_iff, Bool.not_eq_false',
    List.isEmpty_iff] at h
  obtain ⟨⟨⟨⟨hown, -⟩, hchanged⟩, hadded⟩, hdel⟩ := h
  refine ⟨hdel, hadded, ?_⟩
  rw [ModifiedDecls.changedIn, hown, hchanged]
  rfl

/-- A type is reported with what the comparison of its members finds, unless it has an entry. -/
lemma report_compareType (halias : (mangled2Decl.get mangled).astKind ≠ .TYPE_ALIAS_DECL)
    (hkind : (mangled2Decl.get mangled).astKind.isCommon = false)
    (hcached : DistinctNames cached.members) (hcur : DistinctNames cur.members) :
    report (compareTopLevelDecl mangled2Decl cached cur mangled ret) +
        omissionsOfCommon mangled2Decl (hasEntry ret.types mangled) (hasEntry ret.commons mangled)
          mangled cached cur =
      report ret + changesOfCommon mangled2Decl mangled cached cur := by
  have hcompare : compareTopLevelDecl mangled2Decl cached cur mangled ret =
      if (compareTypeDecl mangled2Decl cached cur).isChange then
        { ret with
          types := emplace (mangled2Decl.get mangled) (compareTypeDecl mangled2Decl cached cur)
            ret.types }
      else ret := by
    rw [compareTopLevelDecl]
    cases h : (mangled2Decl.get mangled).astKind <;> rw [h] at hkind halias <;>
      first | rfl | exact absurd hkind (by decide) | exact absurd rfl halias
  have hflags : (compareTypeDecl mangled2Decl cached cur).isOwnChange = true ↔
      HashesDiffer cached cur := (flags_compareTypeDecl hcached hcur).1
  have hchanged : ModifiedDecls.changedIn (mangled2Decl.get mangled)
      (compareTypeDecl mangled2Decl cached cur) =
        (if HashesDiffer cached cur then {mangled2Decl.get mangled} else 0) +
          Multiset.ofList ((changedNames cached.members cur.members).map mangled2Decl.get) := by
    rw [ModifiedDecls.changedIn, changed_compareTypeDecl hcached hcur]
    exact congrArg₂ _ (if_congr hflags rfl rfl) rfl
  have hchanges : changesOfCommon mangled2Decl mangled cached cur =
      (Multiset.ofList (compareTypeDecl mangled2Decl cached cur).del,
          Multiset.ofList (compareTypeDecl mangled2Decl cached cur).added,
          ModifiedDecls.changedIn (mangled2Decl.get mangled)
            (compareTypeDecl mangled2Decl cached cur), 0, 0) +
        (Multiset.ofList ((missingIn cached.members cur.members).flatMap deepNames), 0, 0, 0, 0) := by
    rw [changesOfCommon, hchanged, del_compareTypeDecl hcached hcur,
      added_compareTypeDecl hcached hcur, deletedNames_split]
    simp only [halias, false_and, if_false, Prod.mk_add_mk, add_zero]
  rw [hcompare, omissionsOfCommon]
  simp only [halias, hkind, if_false, Bool.false_eq_true]
  cases hentry : hasEntry ret.types mangled with
  | true =>
    rw [emplace_of_hasEntry (by rw [mangled2Decl.rawMangleName_get]; exact hentry), ite_self,
      changesOfCommon]
    simp [halias]
  | false =>
    rw [emplace_of_not_hasEntry (by rw [mangled2Decl.rawMangleName_get]; exact hentry), hchanges,
      ← add_assoc, if_neg Bool.false_ne_true]
    split_ifs with hchange
    · rw [report_type]
    · obtain ⟨hdel, hadded, hnone⟩ :=
        report_of_not_isChange (Bool.eq_false_iff.mpr hchange) (mangled2Decl.get mangled)
      rw [hdel, hadded, hnone]
      exact congrArg (· + _) (add_zero (report ret)).symm

end Common

/-- What the diff reports of a cached declaration and what it leaves out is what changed there. -/
theorem report_compareCached {cur : ASTCache} {e : RawMangledName × TopLevelDeclCache}
    (hkind : e.2.astKind = ASTKind.TYPE_ALIAS_DECL.toUInt8 → prevKind e.1 = .TYPE_ALIAS_DECL)
    (hcached : DistinctNames e.2.members)
    (hcur : ∀ c, cur.find? e.1 = some c → DistinctNames c.members) (ret : ModifiedDecls) :
    report (compareCached mangled2Decl cur e ret) + omissionsAt mangled2Decl prevKind cur ret e =
      report ret + changesAt mangled2Decl prevKind cur e := by
  rw [compareCached, omissionsAt, changesAt]
  cases hfind : cur.find? e.1 with
  | none =>
    dsimp only
    have hnames : Multiset.ofList (e.1 :: (placesIn e.2.members).map fun q => q.2.name) =
        Multiset.ofList (e.1 :: e.2.members.map name) +
          Multiset.ofList (e.2.members.flatMap fun m => m.children.flatMap namesOf) := by
      rw [names_placesIn, Multiset.coe_add]
      exact Multiset.coe_eq_coe.mpr ((perm_flatMap_namesOf e.2.members).cons _)
    rw [report_collectDeleted, hnames, add_assoc]
    refine congrArg (report ret + ·) ?_
    simp only [Prod.mk_add_mk, add_zero]
    by_cases hcode : e.2.astKind = ASTKind.TYPE_ALIAS_DECL.toUInt8
    · simp [hcode, hkind hcode]
    · simp [hcode]
  | some c =>
    dsimp only
    by_cases halias : (mangled2Decl.get e.1).astKind = .TYPE_ALIAS_DECL
    · exact report_compareAlias e.1 ret halias
    · cases hcommon : (mangled2Decl.get e.1).astKind.isCommon with
      | true => exact report_compareCommon e.1 ret halias hcommon
      | false => exact report_compareType e.1 ret halias hcommon hcached (hcur c hfind)

end ASTDiffImpl

end Cangjie.IncrementalCompilation
