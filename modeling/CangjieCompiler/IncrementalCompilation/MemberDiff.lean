import CangjieCompiler.IncrementalCompilation.ASTDiff

/-!
# The comparison of members

Whatever a comparison of members adds up in a change of a type, it adds it for each topmost
deleted member, for each topmost added member and for each common member whose hashes differ, at
every level.  The order of the members in either list does not matter.
-/

namespace Cangjie.IncrementalCompilation

namespace ASTDiffImpl

open NamedTree

variable (mangled2Decl : RawMangled2DeclMap)

/-! ## Sorted copies -/

lemma perm_toSorted (members : List MemberDeclCache) : (toSorted members).Perm members :=
  List.perm_insertionSort _ _

lemma sorted_toSorted {members : List MemberDeclCache} (h : DistinctKeys name members) :
    (toSorted members).Pairwise fun a b => a.name < b.name := by
  have hle : (toSorted members).Pairwise fun a b => a.name ≤ b.name :=
    List.pairwise_insertionSort _ _
  have hne : (toSorted members).Pairwise fun a b => a.name ≠ b.name :=
    List.pairwise_map.mp (h.perm (perm_toSorted members).symm)
  exact hle.imp₂ (fun _ _ hle hne => lt_of_le_of_ne hle hne) hne

/-! ## What a comparison adds up -/

lemma isChange_memberChange (cached cur : MemberDeclCache) :
    (memberChange mangled2Decl cached cur).isChange = true ↔ cached.label ≠ cur.label := by
  rw [Ne, MemberHashes.ext_iff]
  simp only [CommonChange.isChange, memberChange, Bool.or_eq_true, decide_eq_true_eq]
  tauto

variable {M : Type} [AddCommMonoid M] {total : TypeChange → M} {l r : MemberDeclCache → M}
  {c : RawMangledName → M}

/-- A quantity of a type change that deleted, added and changed members increase. -/
structure Adds (mangled2Decl : RawMangled2DeclMap) (total : TypeChange → M)
    (l r : MemberDeclCache → M) (c : RawMangledName → M) : Prop where
  deleted : ∀ x tc, total (deleteMember x tc) = total tc + l x
  added : ∀ y tc, total (addMember mangled2Decl y tc) = total tc + r y
  changed : ∀ x y tc, total (recordChange (memberChange mangled2Decl x y) tc) =
    total tc + if x.label ≠ y.label then c y.name else 0

/-- What the comparison of two lists of members adds to the quantity. -/
def memberSum (l r : MemberDeclCache → M) (c : RawMangledName → M)
    (cached cur : List MemberDeclCache) : M :=
  ((missingIn cached cur).map l).sum + ((missingIn cur cached).map r).sum +
    ((changedIn cached cur).map c).sum

/-- The sum over two lists of members, split into the members found on one side only and the
common ones. -/
lemma memberSum_eq {cached cur : List MemberDeclCache} (hcached : DistinctKeys name cached)
    (hcur : DistinctKeys name cur) :
    memberSum l r c cached cur =
      loneSum name l cached cur + loneSum name r cur cached +
        pairSum name (fun x y => (if x.label ≠ y.label then c y.name else 0) +
          memberSum l r c x.children y.children) cached cur := by
  have hname : pairSum name (fun x y => (if x.label ≠ y.label then c x.name else 0) +
        ((changedIn x.children y.children).map c).sum) cached cur =
      pairSum name (fun x y => (if x.label ≠ y.label then c y.name else 0) +
        ((changedIn x.children y.children).map c).sum) cached cur :=
    pairSum_congr fun x _ y _ hxy => by rw [hxy]
  rw [memberSum, sum_missingIn, sum_missingIn, sum_changedIn, hname,
    pairSum_comm hcur hcached]
  simp only [memberSum, pairSum_add]
  abel

/-- The comparison adds to the quantity what the differences of the two lists say. -/
theorem total_compareMembersTo (hA : Adds mangled2Decl total l r c) {n : ℕ}
    {cached cur : List MemberDeclCache} (hn : heightIn cached < n)
    (hcached : DistinctNames cached) (hcur : DistinctNames cur) (tc : TypeChange) :
    total (compareMembersTo mangled2Decl n cached cur tc) =
      total tc + memberSum l r c cached cur := by
  induction n generalizing cached cur tc with
  | zero => exact absurd hn (Nat.not_lt_zero _)
  | succ n ih =>
    let A := memberActions mangled2Decl (compareMembersTo mangled2Decl n)
    have hdeleted : ∀ x tc, total (A.onlyLeft x tc) = total tc + l x := hA.deleted
    have hadded : ∀ y tc, total (A.onlyRight y tc) = total tc + r y := hA.added
    have hboth : ∀ x ∈ toSorted cached, ∀ y ∈ toSorted cur, ∀ tc,
        total (A.both x y tc) = total tc + ((if x.label ≠ y.label then c y.name else 0) +
            memberSum l r c x.children y.children) := by
      intro x hx y hy tc
      have hx' : x ∈ cached := (perm_toSorted cached).mem_iff.mp hx
      have hy' : y ∈ cur := (perm_toSorted cur).mem_iff.mp hy
      have hheight : heightIn x.children < n :=
        lt_of_lt_of_le (height_children_lt hx') (Nat.lt_succ_iff.mp hn)
      have hbelow := ih hheight (distinctNames_children hcached hx')
        (distinctNames_children hcur hy')
        (recordChange (memberChange mangled2Decl x y) tc)
      exact hbelow.trans (by rw [hA.changed, add_assoc])
    have hmerge := MergeActions.total_merge hdeleted hadded (sorted_toSorted hcached.1)
      (sorted_toSorted hcur.1) hboth tc
    rw [compareMembersTo, hmerge, memberSum_eq hcached.1 hcur.1]
    have hcached' := hcached.1.perm (perm_toSorted cached).symm
    have hcur' := hcur.1.perm (perm_toSorted cur).symm
    rw [loneSum_perm hcur' (perm_toSorted cached) (perm_toSorted cur),
      loneSum_perm hcached' (perm_toSorted cur) (perm_toSorted cached),
      pairSum_perm hcur' (perm_toSorted cached) (perm_toSorted cur)]

theorem total_compareMembers (hA : Adds mangled2Decl total l r c)
    {cached cur : List MemberDeclCache} (hcached : DistinctNames cached)
    (hcur : DistinctNames cur) (tc : TypeChange) :
    total (compareMembers mangled2Decl tc cached cur) = total tc + memberSum l r c cached cur :=
  total_compareMembersTo mangled2Decl hA (Nat.lt_succ_self _) hcached hcur tc

end ASTDiffImpl

end Cangjie.IncrementalCompilation
