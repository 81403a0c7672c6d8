import CangjieCompiler.CHIR.Analysis.ConstantRange.SetOperations
import CangjieCompiler.CHIR.Analysis.SIntDomain.Meaning

/-!
# The join of ranges

A union of domains describes every state that one of them describes: numeric ranges and the
symbolic bounds of common symbols are replaced by enclosing ranges, and a bound that one side
lacks is dropped.  The join of the analysis skips the union when the numeric ranges agree, and
keeps bounds that the new domain does not have.
-/

namespace Cangjie.CHIR

open FixedWidth ConstantRange

variable {w : ℕ}

/-- The ranges of a domain are legal, as the constructor of ranges asserts. -/
structure SIntDomain.WellFormed (d : SIntDomain w) : Prop where
  numeric : d.numeric.Valid
  symbolics : ∀ s B, (s, B) ∈ d.symbolics.entries → B.Valid

/-! ## Unions -/

/-- The bounds collected from a merge are those of the merge that exclude something. -/
theorem mem_collectBounds {l : List (PtrSymbol × ConstantRange w)} {m m' : SymbolicBoundsMap w}
    (h : collectBounds l m = some m') {e : PtrSymbol × ConstantRange w} (he : e ∈ m'.entries) :
    e ∈ m.entries ∨ (e ∈ l ∧ e.2.isFullSet = false) := by
  induction l generalizing m with
  | nil =>
    obtain rfl := Option.some.inj h
    exact Or.inl he
  | cons b l ih =>
    unfold collectBounds at h
    split_ifs at h with hempty hnontrivial
    · rcases ih h with hmem | ⟨hmem, hbound⟩
      · rcases OrderedMap.mem_emplace hmem with rfl | hold
        · refine Or.inr ⟨List.mem_cons_self, ?_⟩
          rwa [isNonTrivial, Bool.not_eq_true'] at hnontrivial
        · exact Or.inl hold
      · exact Or.inr ⟨List.mem_cons_of_mem _ hmem, hbound⟩
    · rcases ih h with hmem | ⟨hmem, hbound⟩
      · exact Or.inl hmem
      · exact Or.inr ⟨List.mem_cons_of_mem _ hmem, hbound⟩

theorem exists_empty_of_collectBounds {l : List (PtrSymbol × ConstantRange w)}
    {m : SymbolicBoundsMap w} (h : collectBounds l m = none) :
    ∃ s B, (s, B) ∈ l ∧ B.isEmptySet = true := by
  induction l generalizing m with
  | nil => exact absurd h (by simp [collectBounds])
  | cons b l ih =>
    unfold collectBounds at h
    split_ifs at h with hempty
    · exact ⟨b.1, b.2, List.mem_cons_self, hempty⟩
    · obtain ⟨s, B, hmem, hB⟩ := ih h
      exact ⟨s, B, List.mem_cons_of_mem _ hmem, hB⟩
    · obtain ⟨s, B, hmem, hB⟩ := ih h
      exact ⟨s, B, List.mem_cons_of_mem _ hmem, hB⟩

section Unions

variable {uns : Bool} {a b : SIntDomain w} {σ : PtrSymbol → ℤ} {x : ℤ}

/-- A merged bound holds in every state that one of the domains describes. -/
theorem signedMember_of_merged (hw : 1 < w) (ha : a.WellFormed) (hb : b.WellFormed)
    (h : a.Describes uns σ x ∨ b.Describes uns σ x) {s : PtrSymbol} {B : ConstantRange w}
    (hmem : (s, B) ∈ OrderedMap.mergeEntries disjunctionInternalMergeFun a.symbolics.entries
      b.symbolics.entries) (hbound : B.isFullSet = false) : SignedMember (x - σ s) B := by
  obtain ⟨-, hB⟩ := (OrderedMap.mem_mergeEntries_iff _ a.symbolics.sorted b.symbolics.sorted s
    B).mp hmem
  cases hfindA : OrderedMap.lookup s a.symbolics.entries with
  | none =>
    rw [hfindA] at hB
    rw [hB, disjunctionInternalMergeFun, isFullSet_full] at hbound
    exact Bool.noConfusion hbound
  | some A =>
    cases hfindB : OrderedMap.lookup s b.symbolics.entries with
    | none =>
      rw [hfindA, hfindB] at hB
      rw [hB, disjunctionInternalMergeFun, isFullSet_full] at hbound
      exact Bool.noConfusion hbound
    | some A' =>
      have hmemA := OrderedMap.mem_of_lookup hfindA
      have hmemB := OrderedMap.mem_of_lookup hfindB
      rw [hfindA, hfindB, disjunctionInternalMergeFun] at hB
      rw [hB]
      have hunion (v : SInt w) (hv : A.contains v = true ∨ A'.contains v = true) :=
        contains_unionWith hw (ha.symbolics s A hmemA) (hb.symbolics s A' hmemB) .smallest hv
      rcases h with h | h
      · obtain ⟨hrep, hin⟩ := h.2 s A hmemA
        exact ⟨hrep, hunion _ (Or.inl hin)⟩
      · obtain ⟨hrep, hin⟩ := h.2 s A' hmemB
        exact ⟨hrep, hunion _ (Or.inr hin)⟩

/-- The union describes every state that one of the domains describes. -/
theorem describes_unions (hw : 1 < w) (ha : a.WellFormed) (hb : b.WellFormed)
    (h : a.Describes uns σ x ∨ b.Describes uns σ x) : (a.unions b).Describes uns σ x := by
  have hwpos : 0 < w := by omega
  have hnumeric : ∃ v, (a.numeric.unionWith b.numeric).contains v = true ∧ value uns v = x := by
    rcases h with h | h
    · obtain ⟨v, hv, hval⟩ := h.1
      exact ⟨v, contains_unionWith hw ha.numeric hb.numeric .smallest (Or.inl hv), hval⟩
    · obtain ⟨v, hv, hval⟩ := h.1
      exact ⟨v, contains_unionWith hw ha.numeric hb.numeric .smallest (Or.inr hv), hval⟩
  obtain ⟨v, hv, hval⟩ := hnumeric
  unfold SIntDomain.unions
  dsimp only [disjunctionInternalMergeFun]
  rw [if_neg (by rw [isEmptySet_eq_false_of_contains hwpos hv]; exact Bool.false_ne_true)]
  cases hcollect : collectBounds (OrderedMap.mergeEntries disjunctionInternalMergeFun
      a.symbolics.entries b.symbolics.entries) .empty with
  | none =>
    -- an empty bound holds in no state
    obtain ⟨s, B, hmem, hempty⟩ := exists_empty_of_collectBounds hcollect
    have hbound : B.isFullSet = false := by
      rw [← Bool.not_eq_true]
      exact fun hfull => not_contains_of_isEmptySet hwpos hempty 0 (contains_of_isFullSet hfull 0)
    exact absurd (signedMember_of_merged hw ha hb h hmem hbound).2
      (not_contains_of_isEmptySet hwpos hempty _)
  | some m =>
    refine ⟨⟨v, hv, hval⟩, fun s B hmem => ?_⟩
    rcases mem_collectBounds hcollect hmem with hnone | ⟨hmerged, hbound⟩
    · exact absurd hnone List.not_mem_nil
    · exact signedMember_of_merged hw ha hb h hmerged hbound

end Unions

/-! ## The join -/

/-- The range that a variable has after a join: the old one if nothing is returned. -/
def SIntRange.joined (d₁ d₂ : SIntDomain w) : SIntDomain w := (SIntRange.join d₁ d₂).getD d₁

/-- The join is an upper bound for the states that two domains describe. -/
def JoinSound (uns : Bool) (d₁ d₂ : SIntDomain w) : Prop :=
  ∀ σ x, d₁.Describes uns σ x ∨ d₂.Describes uns σ x →
    (SIntRange.joined d₁ d₂).Describes uns σ x

/-- The change test reports a change. -/
def ChangeSeen (d₁ d₂ : SIntDomain w) : Prop :=
  d₁.numeric ≠ d₂.numeric ∨ (d₁.numeric.isFullSet = true ∧ d₁.symbolics.entries ≠ [])

/-- Every symbolic bound of the old domain encloses a bound of the new one against the same
symbol. -/
def BoundsEnclose (d₁ d₂ : SIntDomain w) : Prop :=
  ∀ s B₁, (s, B₁) ∈ d₁.symbolics.entries →
    ∃ B₂, (s, B₂) ∈ d₂.symbolics.entries ∧ ∀ v, B₂.contains v = true → B₁.contains v = true

/-- The numeric range and all symbolic bounds of a domain have elements. -/
def Inhabited (d : SIntDomain w) : Prop :=
  (∃ v, d.numeric.contains v = true) ∧
    ∀ s B, (s, B) ∈ d.symbolics.entries → ∃ v, B.contains v = true

theorem join_eq_none_iff (d₁ d₂ : SIntDomain w) :
    SIntRange.join d₁ d₂ = none ↔ ¬ChangeSeen d₁ d₂ := by
  unfold SIntRange.join
  rw [ChangeSeen, SIntDomain.isSame]
  by_cases hnumeric : d₁.numeric = d₂.numeric
  · rw [beq_iff_eq.mpr hnumeric, Bool.not_true, Bool.false_or]
    cases d₁.numeric.isFullSet <;> cases hentries : d₁.symbolics.entries <;>
      simp [hnumeric]
  · rw [beq_false_of_ne hnumeric, Bool.not_false, Bool.true_or, if_pos rfl]
    simp [hnumeric]

theorem joined_of_changeSeen {d₁ d₂ : SIntDomain w} (h : ChangeSeen d₁ d₂) :
    SIntRange.joined d₁ d₂ = d₁.unions d₂ := by
  have hsome : SIntRange.join d₁ d₂ ≠ none := fun hnone => (join_eq_none_iff d₁ d₂).mp hnone h
  unfold SIntRange.joined
  unfold SIntRange.join at hsome ⊢
  split_ifs at hsome ⊢
  · rfl
  · exact absurd rfl hsome

theorem joined_of_not_changeSeen {d₁ d₂ : SIntDomain w} (h : ¬ChangeSeen d₁ d₂) :
    SIntRange.joined d₁ d₂ = d₁ := by
  rw [SIntRange.joined, (join_eq_none_iff d₁ d₂).mpr h, Option.getD_none]

theorem describes_inhabited {uns : Bool} {d : SIntDomain w} {σ : PtrSymbol → ℤ} {x : ℤ}
    (h : d.Describes uns σ x) : Inhabited d := by
  obtain ⟨⟨v, hv, -⟩, hbounds⟩ := h
  exact ⟨⟨v, hv⟩, fun s B hmem => ⟨_, (hbounds s B hmem).2⟩⟩

/-- Values for the symbols that put a value `x` at the lower ends of all bounds of a domain, and
out of reach of the symbols without a bound. -/
def symbolsBelow (d : SIntDomain w) (x : ℤ) (s : PtrSymbol) : ℤ :=
  match d.symbolics.find? s with
  | some B => x - value false B.lower
  | none => x - 2 ^ w

/-- With one difference chosen freely within its bound, the state is still described. -/
theorem describes_update (hw : 0 < w) {uns : Bool} {d : SIntDomain w} (hd : Inhabited d)
    {u : SInt w} (hu : d.numeric.contains u = true) {s : PtrSymbol} {m : ℤ}
    (hm : ∀ B, (s, B) ∈ d.symbolics.entries → SignedMember m B) :
    d.Describes uns (Function.update (symbolsBelow d (value uns u)) s (value uns u - m))
      (value uns u) := by
  refine ⟨⟨u, hu, rfl⟩, fun s' B hmem => ?_⟩
  by_cases hs : s' = s
  · subst hs
    rw [Function.update_self, sub_sub_cancel]
    exact hm B hmem
  · obtain ⟨v, hv⟩ := hd.2 s' B hmem
    rw [Function.update_of_ne hs, symbolsBelow, (OrderedMap.find?_eq_some_iff _).mpr hmem]
    dsimp only
    rw [sub_sub_cancel, signedMember_value]
    exact contains_lower hw hv

theorem not_signedMember_two_pow (w : ℕ) (B : ConstantRange w) : ¬SignedMember (2 ^ w) B := by
  rintro ⟨⟨-, hle⟩, -⟩
  rw [greatest_false] at hle
  have hmono : (2 : ℤ) ^ (w - 1) ≤ 2 ^ w := pow_le_pow_right₀ (by norm_num) (by omega)
  omega

theorem joinSound_iff_of_lt (hw : 1 < w) (uns : Bool) {d₁ d₂ : SIntDomain w}
    (h₁ : d₁.WellFormed) (h₂ : d₂.WellFormed) :
    JoinSound uns d₁ d₂ ↔ ChangeSeen d₁ d₂ ∨ BoundsEnclose d₁ d₂ ∨ ¬Inhabited d₂ := by
  have hwpos : 0 < w := by omega
  by_cases hchange : ChangeSeen d₁ d₂
  · refine iff_of_true (fun σ x h => ?_) (Or.inl hchange)
    rw [joined_of_changeSeen hchange]
    exact describes_unions hw h₁ h₂ h
  have hsame : d₁.numeric = d₂.numeric := by
    by_contra hne
    exact hchange (Or.inl hne)
  rw [JoinSound, joined_of_not_changeSeen hchange, or_iff_right hchange]
  constructor
  · intro hsound
    by_cases hinhabited : Inhabited d₂
    swap
    · exact Or.inr hinhabited
    refine Or.inl fun s B₁ hmem₁ => ?_
    obtain ⟨u, hu⟩ := hinhabited.1
    -- a difference that the new domain allows is one that the old domain has to allow
    have hallowed (m : ℤ) (hm : ∀ B, (s, B) ∈ d₂.symbolics.entries → SignedMember m B) :
        SignedMember m B₁ := by
      have hmember := (hsound _ _ (Or.inr (describes_update hwpos hinhabited hu hm))).2 s B₁ hmem₁
      rwa [Function.update_self, sub_sub_cancel] at hmember
    cases hfind : d₂.symbolics.find? s with
    | none =>
      refine absurd (hallowed (2 ^ w) fun B hmem => ?_) (not_signedMember_two_pow w B₁)
      rw [(OrderedMap.find?_eq_some_iff _).mpr hmem] at hfind
      exact absurd hfind (by simp)
    | some B₂ =>
      refine ⟨B₂, (OrderedMap.find?_eq_some_iff _).mp hfind, fun v hv => ?_⟩
      rw [← signedMember_value]
      refine hallowed _ fun B hmem => ?_
      rw [(OrderedMap.find?_eq_some_iff _).mpr hmem] at hfind
      obtain rfl := Option.some.inj hfind
      exact (signedMember_value v B).mpr hv
  · rintro (henclose | hempty) σ x (h | h)
    · exact h
    · refine ⟨?_, fun s B₁ hmem₁ => ?_⟩
      · rw [hsame]
        exact h.1
      · obtain ⟨B₂, hmem₂, hsub⟩ := henclose s B₁ hmem₁
        obtain ⟨hrep, hin⟩ := h.2 s B₂ hmem₂
        exact ⟨hrep, hsub _ hin⟩
    · exact h
    · exact absurd (describes_inhabited h) hempty

/-- The join of two legal domains is an upper bound exactly when the change test sees a change, or
the old symbolic bounds enclose the new ones, or the new domain describes nothing. -/
theorem join_sound_iff (width : IntWidth) (uns : Bool) (d₁ d₂ : SIntDomain width.bits)
    (h₁ : d₁.WellFormed) (h₂ : d₂.WellFormed) :
    JoinSound uns d₁ d₂ ↔ ChangeSeen d₁ d₂ ∨ BoundsEnclose d₁ d₂ ∨ ¬Inhabited d₂ :=
  joinSound_iff_of_lt (by cases width <;> decide) uns h₁ h₂

/-- The domain of a byte between `0` and `9` that equals symbol `7`. -/
def equalToSymbol : SIntDomain 8 := ⟨⟨0, 10⟩, OrderedMap.empty.emplace 7 ⟨0, 1⟩, false⟩

theorem wellFormed_equalToSymbol : equalToSymbol.WellFormed := by
  refine ⟨by decide, fun s B hmem => ?_⟩
  obtain ⟨rfl, rfl⟩ := Prod.mk.inj (List.mem_singleton.mp hmem)
  decide

/-- A domain without symbolic bounds has nothing to be well formed but its numeric range. -/
theorem wellFormed_ofNumeric {r : ConstantRange w} (hr : r.Valid) (uns : Bool) :
    (SIntDomain.ofNumeric r uns).WellFormed :=
  ⟨hr, fun _ _ hmem => absurd hmem List.not_mem_nil⟩

/-- Joining a byte that equals symbol `7` with a byte from the same numeric range keeps the bound,
which fails when the byte is `3` and the symbol is `5`. -/
theorem join_not_sound :
    ¬∀ (width : IntWidth) (uns : Bool) (d₁ d₂ : SIntDomain width.bits), d₁.WellFormed →
      d₂.WellFormed → JoinSound uns d₁ d₂ := by
  intro hall
  have hsound := hall .I8 false equalToSymbol (.ofNumeric ⟨0, 10⟩ false) wellFormed_equalToSymbol
    (wellFormed_ofNumeric (by decide) false)
  have hstate := hsound (fun _ => 5) 3
    (Or.inr ⟨⟨3, by decide, by decide⟩, fun s B hmem => absurd hmem List.not_mem_nil⟩)
  have hbound : SignedMember ((3 : ℤ) - 5) (⟨0, 1⟩ : ConstantRange 8) :=
    hstate.2 7 ⟨0, 1⟩ List.mem_cons_self
  exact absurd hbound (by decide)

theorem join_sound_iff_equalToSymbol :
    JoinSound false equalToSymbol (.ofNumeric ⟨5, 6⟩ false) ↔
      ChangeSeen equalToSymbol (.ofNumeric ⟨5, 6⟩ false) ∨
        BoundsEnclose equalToSymbol (.ofNumeric ⟨5, 6⟩ false) ∨
          ¬Inhabited (.ofNumeric (⟨5, 6⟩ : ConstantRange 8) false) :=
  join_sound_iff .I8 false equalToSymbol (.ofNumeric ⟨5, 6⟩ false) wellFormed_equalToSymbol
    (wellFormed_ofNumeric (by decide) false)

end Cangjie.CHIR
