import CangjieCompiler.CHIR.Analysis.ConstantRange.DivisionEdge
import CangjieCompiler.CHIR.Analysis.ConstantRange.Remainder
import CangjieCompiler.CHIR.Analysis.SIntDomain.Meaning

/-!
# Soundness of the arithmetic of domains

The domain of an operation should hold every result that the operation completes with, and its
symbolic bounds should hold the exact differences between the result and the operands.  Addition,
multiplication and remainder meet this for all operands.  Subtraction records a negated range that
does not hold every difference, and signed division loses quotients in one shape of operands and
the overflowing quotient in others; for both the exact condition is given.
-/

namespace Cangjie.CHIR

open FixedWidth ConstantRange

variable {w : ℕ}

/-! ## Unsigned ranges kept as symbolic bounds -/

theorem from'_LE_unwrapped (hw : 1 < w) (v : SInt w) : (from' .LE v false).Unwrapped true := by
  refine unwrapped_of_convex (by omega) fun a b t _ hb _ htb => ?_
  rw [contains_from'_iff hw] at hb ⊢
  exact htb.trans hb

/-- The part of an unsigned interval that a signed type represents. -/
theorem contains_ncU2SInner_iff (hw : 1 < w) {src : ConstantRange w} (hsrc : src.Valid)
    (hflat : src.Unwrapped true) (v : SInt w) :
    (ncU2SInner src w .THROWING).contains v = true ↔
      src.contains v = true ∧ value true v ≤ 2 ^ (w - 1) - 1 := by
  have hwpos : 0 < w := by omega
  have hmaxWord : (SInt.sMaxValue w).trunc w = SInt.sMaxValue w := by
    rw [SInt.trunc, BitVec.ofNat_toNat, BitVec.setWidth_eq]
  rw [ncU2SInner]
  simp only [lt_irrefl, if_false, dite_true, castWidth, or_true, if_true, hmaxWord]
  split_ifs with hempty
  · exact iff_of_false (not_contains_empty hwpos v)
      (fun h => not_contains_of_isEmptySet hwpos hempty v h.1)
  · have hbound : (from' .LE (SInt.sMaxValue w) false).Valid :=
      valid_of_contains ((contains_from'_iff hw .LE _ false (SInt.sMaxValue w)).mpr le_rfl)
    rw [contains_intersectWith_iff hwpos .unsigned hbound hsrc (from'_LE_unwrapped hw _) hflat,
      contains_from'_iff hw, Bool.not_false, SInt.value_true_sMaxValue hwpos]
    exact and_comm

theorem valid_ncU2SInner (hw : 1 < w) {src : ConstantRange w} (hsrc : src.Valid) :
    (ncU2SInner src w .THROWING).Valid := by
  rw [ncU2SInner]
  simp only [lt_irrefl, if_false, dite_true, castWidth, or_true, if_true]
  split_ifs with hempty
  · exact valid_empty w
  · exact valid_intersectWith .unsigned
      (valid_of_contains ((contains_from'_iff hw .LE _ false _).mpr le_rfl)) hsrc

/-- The two parts of a split range are intervals. -/
theorem splitWrapping_unwrapped (hw : 1 < w) (r : ConstantRange w) (asUnsigned : Bool) :
    (r.splitWrapping asUnsigned).1.Unwrapped asUnsigned ∧
      (r.splitWrapping asUnsigned).2.Unwrapped asUnsigned := by
  rw [splitWrapping]
  refine ⟨unwrapped_of_convex (by omega) fun a b t _ hb _ htb => ?_,
    unwrapped_of_convex (by omega) fun a b t ha _ hat _ => ?_⟩
  · rw [contains_from'_iff hw, Bool.not_not] at hb ⊢
    exact htb.trans_lt hb
  · rw [contains_from'_iff hw, Bool.not_not] at ha ⊢
    exact ha.trans hat

theorem value_true_eq_value_false_of_le (hw : 0 < w) {v : SInt w}
    (h : value true v ≤ 2 ^ (w - 1) - 1) : value true v = value false v := by
  rcases value_false_eq hw v with ⟨heq, -⟩ | ⟨-, hge⟩
  · exact heq.symm
  · omega

/-- An unsigned range that survives the conversion to signed holds nothing that changes. -/
theorem value_of_survives (hw : 1 < w) {origin : ConstantRange w} {v : SInt w}
    (hv : origin.contains v = true) (h : numericConversionU2SSameWidth origin = origin) :
    value true v = value false v := by
  have hwpos : 0 < w := by omega
  have hvalid := valid_of_contains hv
  rw [numericConversionU2SSameWidth, numericConversionU2S, if_neg (lt_irrefl w)] at h
  by_cases hwrapped : origin.isWrappedSet = true
  · rw [hwrapped, Bool.not_true, if_neg Bool.false_ne_true] at h
    obtain ⟨hflat₁, hflat₂⟩ := splitWrapping_unwrapped hw origin true
    have hvalid₁ : (origin.splitWrapping true).1.Valid := valid_from' hw _ _ _
    have hvalid₂ : (origin.splitWrapping true).2.Valid := valid_from' hw _ _ _
    have hpart : ∀ part : ConstantRange w, part.Valid → part.Unwrapped true → ∀ t,
        (ncU2SInner part w .THROWING).contains t = true →
          0 ≤ value false t ∧ value false t ≤ 2 ^ (w - 1) - 1 := by
      intro part hpart hflat t ht
      have hle := ((contains_ncU2SInner_iff hw hpart hflat t).mp ht).2
      rw [← value_true_eq_value_false_of_le hwpos hle]
      exact ⟨(SInt.value_true_bounds t).1, hle⟩
    have hwithin := bounds_unionWith hw (valid_ncU2SInner hw hvalid₁) (valid_ncU2SInner hw hvalid₂)
      (show Within false 0 (2 ^ (w - 1) - 1) _ _ from fun t ht => by
        rcases ht with ht | ht
        · exact hpart _ hvalid₁ hflat₁ t ht
        · exact hpart _ hvalid₂ hflat₂ t ht) (h.symm ▸ hv)
    exact value_true_of_nonneg hwpos hwithin.1
  · rw [Bool.not_eq_true] at hwrapped
    rw [hwrapped, Bool.not_false, if_pos rfl] at h
    have hflat : origin.Unwrapped true := by
      rw [unwrapped_true_iff, hwrapped]
      exact Bool.false_ne_true
    have hkept : (ncU2SInner origin w .THROWING).contains v = true := by rwa [h]
    exact value_true_eq_value_false_of_le hwpos
      ((contains_ncU2SInner_iff hw hvalid hflat v).mp hkept).2

/-- A numeric bound kept as a symbolic one holds its elements as exact integers. -/
theorem signedMember_of_kept (hw : 1 < w) {origin B : ConstantRange w} {uns : Bool} {v : SInt w}
    (hB : numericBoundToSignedSymbolicBound origin uns = some B)
    (hv : origin.contains v = true) : SignedMember (value uns v) B := by
  rw [numericBoundToSignedSymbolicBound] at hB
  cases uns with
  | false =>
    obtain rfl := Option.some.inj hB
    exact (signedMember_value v origin).mpr hv
  | true =>
    rw [Bool.not_true, if_neg Bool.false_ne_true] at hB
    dsimp only at hB
    split_ifs at hB with hsame
    obtain rfl := Option.some.inj hB
    rw [value_of_survives hw hv hsame, signedMember_value, hsame]
    exact hv

/-! ## The claim of soundness -/

/-- The domain of an operation is sound: it holds every result, and each of its symbolic bounds
belongs to an operand and holds the exact difference between the result and that operand. -/
def BinopSound (args : CHIRArithmeticBinopArgs w) : Prop :=
  ∀ x y z, args.ld.numeric.contains x = true → args.rd.numeric.contains y = true →
    concreteResult args.op args.ov args.uns x y = some z →
      ∃ d, computeArithmeticBinop args = some d ∧ d.numeric.contains z = true ∧
        ∀ σ : PtrSymbol → ℤ, σ args.l = value args.uns x → σ args.r = value args.uns y →
          ∀ s B, (s, B) ∈ d.symbolics.entries →
            (s = args.l ∨ s = args.r) ∧ SignedMember (value args.uns z - σ s) B

section Operations

variable {args : CHIRArithmeticBinopArgs w} {x y z : SInt w}

/-- The exact result behind a concrete one. -/
theorem exists_exactResult (h : concreteResult args.op args.ov args.uns x y = some z) :
    ∃ e, exactResult args.op (value args.uns x) (value args.uns y) = some e ∧
      bringBack w args.uns args.ov e = some z :=
  Option.bind_eq_some_iff.mp h

/-! ### Addition -/

theorem contains_numeric_add (hw : 1 < w) (hx : args.ld.numeric.contains x = true)
    (hy : args.rd.numeric.contains y = true)
    (hz : bringBack w args.uns args.ov (value args.uns x + value args.uns y) = some z) :
    (if !isSaturating args.ov then args.ld.numeric.add args.rd.numeric
      else if args.uns then args.ld.numeric.uAddSat args.rd.numeric
      else args.ld.numeric.sAddSat args.rd.numeric).contains z = true := by
  by_cases hsat : args.ov = .SATURATING
  · rw [hsat] at hz
    obtain rfl := Option.some.inj hz
    rw [hsat, isSaturating, beq_self_eq_true, Bool.not_true, if_neg Bool.false_ne_true]
    cases huns : args.uns
    · rw [if_neg Bool.false_ne_true]
      exact contains_sAddSat hw hx hy
    · rw [if_pos rfl]
      exact contains_uAddSat hw hx hy
  · rw [isSaturating, beq_false_of_ne hsat, Bool.not_false, if_pos rfl,
      eq_ofInt_of_bringBack hz hsat, ← add_eq_ofInt]
    exact contains_add (by omega) hx hy

theorem mem_addSymbolicBound {own other B : ConstantRange w} {symbol s : PtrSymbol} {uns : Bool}
    {mp : SymbolicBoundsMap w}
    (h : (s, B) ∈ (addSymbolicBound own other symbol uns mp).entries) :
    (s = symbol ∧ numericBoundToSignedSymbolicBound other uns = some B) ∨
      (s, B) ∈ mp.entries := by
  rw [addSymbolicBound] at h
  split_ifs at h
  · cases hkept : numericBoundToSignedSymbolicBound other uns with
    | none =>
      rw [hkept] at h
      exact Or.inr h
    | some kept =>
      rw [hkept] at h
      rcases OrderedMap.mem_emplace h with heq | hmem
      · obtain ⟨rfl, rfl⟩ := Prod.mk.inj heq
        exact Or.inl ⟨rfl, rfl⟩
      · exact Or.inr hmem
  · exact Or.inr h

/-- The symbolic bounds of a sum come from the operands. -/
theorem mem_symbolics_computeAdd {s : PtrSymbol} {B : ConstantRange w}
    (h : (s, B) ∈ (computeAdd args).symbolics.entries) :
    args.ov = .THROWING ∧
      ((s = args.l ∧ numericBoundToSignedSymbolicBound args.rd.numeric args.uns = some B) ∨
        (s = args.r ∧ numericBoundToSignedSymbolicBound args.ld.numeric args.uns = some B)) := by
  unfold computeAdd at h
  dsimp only at h
  generalize (if (!isSaturating args.ov) = true then args.ld.numeric.add args.rd.numeric
    else if args.uns = true then args.ld.numeric.uAddSat args.rd.numeric
    else args.ld.numeric.sAddSat args.rd.numeric) = numeric at h
  split_ifs at h with hexit
  · exact absurd h List.not_mem_nil
  · rw [Bool.or_eq_true, not_or, bne_iff_ne, not_not] at hexit
    refine ⟨hexit.2, ?_⟩
    rcases mem_addSymbolicBound h with hright | h
    · exact Or.inr hright
    rcases mem_addSymbolicBound h with hleft | h
    · exact Or.inl hleft
    · exact absurd h List.not_mem_nil

theorem numeric_computeAdd (args : CHIRArithmeticBinopArgs w) :
    (computeAdd args).numeric =
      if !isSaturating args.ov then args.ld.numeric.add args.rd.numeric
      else if args.uns then args.ld.numeric.uAddSat args.rd.numeric
      else args.ld.numeric.sAddSat args.rd.numeric := by
  unfold computeAdd
  dsimp only
  generalize (if (!isSaturating args.ov) = true then args.ld.numeric.add args.rd.numeric
    else if args.uns = true then args.ld.numeric.uAddSat args.rd.numeric
    else args.ld.numeric.sAddSat args.rd.numeric) = numeric
  split_ifs
  · rfl
  · rfl

theorem binopSound_add (hw : 1 < w) (hop : args.op = .ADD) : BinopSound args := by
  intro x y z hx hy hz
  obtain ⟨e, he, hback⟩ := exists_exactResult hz
  rw [hop] at he
  obtain rfl := Option.some.inj he
  refine ⟨computeAdd args, by rw [computeArithmeticBinop, hop], ?_, ?_⟩
  · rw [numeric_computeAdd]
    exact contains_numeric_add hw hx hy hback
  · intro σ hl hr s B hmem
    obtain ⟨hov, hcases⟩ := mem_symbolics_computeAdd hmem
    obtain ⟨hrep, rfl⟩ := representable_of_bringBack hback (by rw [hov]; decide)
      (by rw [hov]; decide)
    rw [value_ofInt (by omega) hrep]
    rcases hcases with ⟨rfl, hkept⟩ | ⟨rfl, hkept⟩
    · refine ⟨Or.inl rfl, ?_⟩
      rw [hl, add_sub_cancel_left]
      exact signedMember_of_kept hw hkept hy
    · refine ⟨Or.inr rfl, ?_⟩
      rw [hr, add_sub_cancel_right]
      exact signedMember_of_kept hw hkept hx

/-! ### Multiplication and remainder -/

theorem binopSound_mul (hw : 1 < w) (hop : args.op = .MUL) : BinopSound args := by
  intro x y z hx hy hz
  obtain ⟨e, he, hback⟩ := exists_exactResult hz
  rw [hop] at he
  obtain rfl := Option.some.inj he
  refine ⟨computeMul args, by rw [computeArithmeticBinop, hop], ?_, ?_⟩
  · unfold computeMul
    dsimp only [SIntDomain.ofNumeric]
    by_cases hsat : args.ov = .SATURATING
    · rw [hsat] at hback ⊢
      obtain rfl := Option.some.inj hback
      rw [isSaturating, beq_self_eq_true, Bool.not_true, if_neg Bool.false_ne_true]
      cases args.uns
      · rw [if_neg Bool.false_ne_true]
        exact contains_sMulSat hw hx hy
      · rw [if_pos rfl]
        exact contains_uMulSat hw hx hy
    · rw [isSaturating, beq_false_of_ne hsat, Bool.not_false, if_pos rfl,
        eq_ofInt_of_bringBack hback hsat, ← mul_eq_ofInt]
      cases args.uns
      · rw [if_neg Bool.false_ne_true]
        exact contains_sMul hw hx hy
      · rw [if_pos rfl]
        exact contains_uMul hw hx hy
  · intro σ _ _ s B hmem
    exact absurd hmem List.not_mem_nil

/-- A remainder is always representable. -/
theorem tmod_representable (uns : Bool) (x y : SInt w) (hy : value uns y ≠ 0) :
    Representable w uns ((value uns x).tmod (value uns y)) := by
  have hle := IntervalArithmetic.abs_tmod_le (value uns x) (value uns y)
  have hx := value_representable uns x
  cases uns with
  | true =>
    have hpos := (SInt.value_true_bounds x).1
    have hrem := Int.tmod_nonneg (value true y) hpos
    rw [abs_of_nonneg hpos, abs_of_nonneg hrem] at hle
    exact ⟨hrem, hle.trans hx.2⟩
  | false =>
    have hlt := IntervalArithmetic.abs_tmod_lt (value false x) hy
    have hxb := SInt.value_false_bounds x
    have hyb := SInt.value_false_bounds y
    have hxabs : |value false x| ≤ 2 ^ (w - 1) := abs_le.mpr ⟨by omega, by omega⟩
    have hyabs : |value false y| ≤ 2 ^ (w - 1) := abs_le.mpr ⟨by omega, by omega⟩
    rw [abs_le] at hle
    rw [abs_lt] at hlt
    refine ⟨?_, ?_⟩
    · rw [least_false]
      omega
    · rw [greatest_false]
      omega

theorem binopSound_mod (hw : 2 < w) (hop : args.op = .MOD) : BinopSound args := by
  intro x y z hx hy hz
  obtain ⟨e, he, hback⟩ := exists_exactResult hz
  rw [hop, exactResult] at he
  split_ifs at he with hzero
  obtain rfl := Option.some.inj he
  rw [bringBack_of_representable (tmod_representable args.uns x y hzero)] at hback
  obtain rfl := Option.some.inj hback
  refine ⟨computeMod args, by rw [computeArithmeticBinop, hop], ?_, ?_⟩
  · unfold computeMod
    dsimp only
    cases huns : args.uns with
    | true =>
      rw [huns] at hzero
      rw [if_pos rfl, Int.tmod_eq_emod_of_nonneg (SInt.value_true_bounds x).1,
        ← SInt.value_uRem, ofInt_value]
      exact contains_uRem (by omega) hx hy hzero
    | false =>
      rw [huns] at hzero
      rw [if_neg Bool.false_ne_true, ← SInt.value_sRem (by omega), ofInt_value]
      exact contains_sRem hw hx hy hzero
  · intro σ _ _ s B hmem
    unfold computeMod at hmem
    dsimp only at hmem
    split_ifs at hmem
    · exact absurd hmem List.not_mem_nil
    · exact absurd hmem List.not_mem_nil

/-! ### Subtraction -/

/-- The case in which a difference gets a symbolic bound: the negated range of the right operand. -/
def RecordsNegation (args : CHIRArithmeticBinopArgs w) : Prop :=
  args.ov = .THROWING ∧ ¬args.ld.numeric.isSingleElement = true ∧
    ¬args.rd.numeric.isFullSet = true ∧ args.rd.numeric ≠ single (SInt.sMinValue w)

/-- The negation of a right operand is a signed value that the negated range keeps.  A signed
operand may not be the smallest value.  An unsigned one may not exceed the magnitude of the
smallest signed value, and may be that magnitude only if the range does not start with it. -/
def NegationKept (uns : Bool) (rn : ConstantRange w) (y : SInt w) : Prop :=
  if uns then
    value true y < 2 ^ (w - 1) ∨ (value true y = 2 ^ (w - 1) ∧ rn.lower ≠ SInt.sMinValue w)
  else value false y ≠ -2 ^ (w - 1)

theorem signedMember_negate_iff (hw : 1 < w) {uns : Bool} {rn : ConstantRange w}
    (hy : rn.contains y = true) (hfull : ¬rn.isFullSet = true)
    (hone : rn ≠ single (SInt.sMinValue w)) :
    SignedMember (-value uns y) rn.negate ↔ NegationKept uns rn y := by
  have hwpos : 0 < w := by omega
  have hturn := two_pow_eq hwpos
  rw [Bool.not_eq_true] at hfull
  rw [SignedMember, ← neg_eq_ofInt, contains_negate_iff hw (valid_of_contains hy)
    (isEmptySet_eq_false_of_contains hwpos hy) hfull hone, and_iff_right hy, NegationKept,
    Representable, least_false, greatest_false]
  cases uns with
  | false =>
    have hbound := SInt.value_false_bounds y
    have hmin : y = SInt.sMinValue w ↔ value false y = -2 ^ (w - 1) := by
      rw [SInt.eq_iff_value_eq false, SInt.value_false_sMinValue hwpos]
    rw [if_neg Bool.false_ne_true, Ne, hmin]
    constructor
    · rintro ⟨hrep, -⟩
      omega
    · intro hne
      exact ⟨by omega, fun _ => hne⟩
  | true =>
    have hbound := SInt.value_true_bounds y
    have hmin : y = SInt.sMinValue w ↔ value true y = 2 ^ (w - 1) := by
      rw [SInt.eq_iff_value_eq true, SInt.value_true_sMinValue hwpos]
    rw [if_pos rfl, Ne, hmin]
    constructor
    · rintro ⟨hrep, hstart⟩
      rcases lt_or_eq_of_le (show value true y ≤ 2 ^ (w - 1) by omega) with hlt | heq
      · exact Or.inl hlt
      · exact Or.inr ⟨heq, fun hlower => hstart hlower heq⟩
    · rintro (hlt | ⟨heq, hlower⟩)
      · exact ⟨by omega, fun _ => by omega⟩
      · exact ⟨by omega, fun hstart => absurd hstart hlower⟩

theorem numeric_computeSub (args : CHIRArithmeticBinopArgs w) :
    (computeSub args).numeric =
      if !isSaturating args.ov then args.ld.numeric.sub args.rd.numeric
      else if args.uns then args.ld.numeric.uSubSat args.rd.numeric
      else args.ld.numeric.sSubSat args.rd.numeric := by
  unfold computeSub
  dsimp only
  generalize (if (!isSaturating args.ov) = true then args.ld.numeric.sub args.rd.numeric
    else if args.uns = true then args.ld.numeric.uSubSat args.rd.numeric
    else args.ld.numeric.sSubSat args.rd.numeric) = numeric
  split_ifs <;> rfl

/-- The one symbolic bound of a difference. -/
theorem mem_symbolics_computeSub_iff (hempty : (computeSub args).numeric.isEmptySet = false)
    {s : PtrSymbol} {B : ConstantRange w} :
    (s, B) ∈ (computeSub args).symbolics.entries ↔
      RecordsNegation args ∧ s = args.l ∧ B = args.rd.numeric.negate := by
  rw [numeric_computeSub] at hempty
  unfold computeSub
  dsimp only
  generalize (if (!isSaturating args.ov) = true then args.ld.numeric.sub args.rd.numeric
    else if args.uns = true then args.ld.numeric.uSubSat args.rd.numeric
    else args.ld.numeric.sSubSat args.rd.numeric) = numeric at hempty ⊢
  rw [hempty, Bool.false_or, RecordsNegation]
  split_ifs with hov hrecord hone
  · refine iff_of_false List.not_mem_nil fun h => ?_
    rw [bne_iff_ne] at hov
    exact hov h.1.1
  · rw [bne_iff_ne, not_not] at hov
    rw [Bool.and_eq_true, Bool.not_eq_true', ← Bool.not_eq_true, isNonTrivial, Bool.not_eq_true',
      ← Bool.not_eq_true] at hrecord
    refine Iff.trans ?_ (and_iff_right ⟨hov, hrecord.1, hrecord.2, hone⟩).symm
    exact List.mem_singleton.trans Prod.mk_inj
  · exact iff_of_false List.not_mem_nil fun h => hone h.1.2.2.2
  · refine iff_of_false List.not_mem_nil fun h => hrecord ?_
    rw [Bool.and_eq_true, Bool.not_eq_true', ← Bool.not_eq_true, isNonTrivial, Bool.not_eq_true',
      ← Bool.not_eq_true]
    exact ⟨h.1.2.1, h.1.2.2.1⟩

theorem contains_numeric_sub (hw : 1 < w) (hx : args.ld.numeric.contains x = true)
    (hy : args.rd.numeric.contains y = true)
    (hz : bringBack w args.uns args.ov (value args.uns x - value args.uns y) = some z) :
    (computeSub args).numeric.contains z = true := by
  rw [numeric_computeSub]
  by_cases hsat : args.ov = .SATURATING
  · rw [hsat] at hz
    obtain rfl := Option.some.inj hz
    rw [hsat, isSaturating, beq_self_eq_true, Bool.not_true, if_neg Bool.false_ne_true]
    cases huns : args.uns
    · rw [if_neg Bool.false_ne_true]
      exact contains_sSubSat hw hx hy
    · rw [if_pos rfl]
      exact contains_uSubSat hw hx hy
  · rw [isSaturating, beq_false_of_ne hsat, Bool.not_false, if_pos rfl,
      eq_ofInt_of_bringBack hz hsat, ← sub_eq_ofInt]
    exact contains_sub (by omega) hx hy

/-- The differences whose right operands are kept by the negated range.  The operands of one
symbol have one value. -/
def NegationsKept (args : CHIRArithmeticBinopArgs w) : Prop :=
  ∀ x y, args.ld.numeric.contains x = true → args.rd.numeric.contains y = true →
    (args.l = args.r → x = y) → Representable w args.uns (value args.uns x - value args.uns y) →
      NegationKept args.uns args.rd.numeric y

theorem binopSound_sub_iff (hw : 1 < w) (hop : args.op = .SUB) :
    BinopSound args ↔ (RecordsNegation args → NegationsKept args) := by
  constructor
  · intro hsound hrecord x y hx hy hsame hrep
    have hback := bringBack_of_representable hrep args.ov
    have hconcrete : concreteResult args.op args.ov args.uns x y =
        some (BitVec.ofInt w (value args.uns x - value args.uns y)) := by
      rw [concreteResult, hop]
      exact hback
    obtain ⟨d, hd, hmem, hbounds⟩ := hsound x y _ hx hy hconcrete
    rw [computeArithmeticBinop, hop] at hd
    obtain rfl := Option.some.inj hd
    have hentry := (mem_symbolics_computeSub_iff
      (isEmptySet_eq_false_of_contains (by omega) hmem)).mpr ⟨hrecord, rfl, rfl⟩
    have hmember := (hbounds (fun s => if s = args.l then value args.uns x else value args.uns y)
      (if_pos rfl) (by
        split_ifs with heq
        · rw [hsame heq.symm]
        · rfl) _ _ hentry).2
    rw [if_pos rfl, value_ofInt (by omega) hrep, sub_sub_cancel_left] at hmember
    exact (signedMember_negate_iff hw hy hrecord.2.2.1 hrecord.2.2.2).mp hmember
  · intro hkept x y z hx hy hz
    obtain ⟨e, he, hback⟩ := exists_exactResult hz
    rw [hop] at he
    obtain rfl := Option.some.inj he
    have hmem := contains_numeric_sub hw hx hy hback
    refine ⟨computeSub args, by rw [computeArithmeticBinop, hop], hmem, ?_⟩
    intro σ hl hr s B hentry
    obtain ⟨hrecord, rfl, rfl⟩ := (mem_symbolics_computeSub_iff
      (isEmptySet_eq_false_of_contains (by omega) hmem)).mp hentry
    refine ⟨Or.inl rfl, ?_⟩
    obtain ⟨hrep, rfl⟩ := representable_of_bringBack hback (by rw [hrecord.1]; decide)
      (by rw [hrecord.1]; decide)
    have hsame : args.l = args.r → x = y := fun heq =>
      value_injective args.uns (by rw [← hl, ← hr, heq])
    rw [value_ofInt (by omega) hrep, hl, sub_sub_cancel_left]
    exact (signedMember_negate_iff hw hy hrecord.2.2.1 hrecord.2.2.2).mpr
      (hkept hrecord x y hx hy hsame hrep)

/-! ### Division -/

/-- The division of words that belongs to a strategy. -/
def divisionOf (ov : OverflowStrategy) : SInt w → SInt w → SInt w :=
  if isSaturating ov then SInt.sDivSat else SInt.sDiv

theorem truncates_divisionOf (hw : 1 < w) (ov : OverflowStrategy) :
    Truncates (w := w) (divisionOf ov) := by
  rw [divisionOf]
  split_ifs
  · exact truncates_sDivSat hw
  · exact truncates_sDiv (by omega)

/-- A signed quotient completes unless it is the overflowing one and the strategy does not bring it
back, and it is then the quotient of words. -/
theorem concreteResult_div_iff (hw : 1 < w) {ov : OverflowStrategy} {x y z : SInt w}
    (hy : value false y ≠ 0) :
    concreteResult .DIV ov false x y = some z ↔
      z = divisionOf ov x y ∧
        (value false x = -2 ^ (w - 1) ∧ value false y = -1 →
          ov = .WRAPPING ∨ ov = .SATURATING) := by
  have hwpos : 0 < w := by omega
  have hhalf := two_le_half hw
  have hexact : concreteResult .DIV ov false x y =
      bringBack w false ov ((value false x).tdiv (value false y)) := by
    rw [concreteResult, exactResult, if_neg hy, Option.bind_some]
  rw [hexact]
  by_cases hedge : value false x = -2 ^ (w - 1) ∧ value false y = -1
  · obtain ⟨hmin, hval⟩ := hedge
    have hquot : (value false x).tdiv (value false y) = 2 ^ (w - 1) := by
      rw [hmin, hval, Int.tdiv_neg, Int.tdiv_one, neg_neg]
    have hover : ¬Representable w false ((value false x).tdiv (value false y)) := by
      rintro ⟨-, hle⟩
      rw [hquot, greatest_false] at hle
      omega
    rw [imp_iff_right ⟨hmin, hval⟩]
    cases ov with
    | WRAPPING =>
      rw [bringBack, ← SInt.sDiv_eq_ofInt, Option.some.injEq]
      exact ⟨fun h => ⟨h.symm, Or.inl rfl⟩, fun h => h.1.symm⟩
    | SATURATING =>
      rw [bringBack, ← SInt.value_sDivSat hw, ofInt_value, Option.some.injEq]
      exact ⟨fun h => ⟨h.symm, Or.inr rfl⟩, fun h => h.1.symm⟩
    | NA => exact iff_of_false (by rw [bringBack, if_neg hover] <;> simp) (by simp)
    | CHECKED => exact iff_of_false (by rw [bringBack, if_neg hover] <;> simp) (by simp)
    | THROWING => exact iff_of_false (by rw [bringBack, if_neg hover] <;> simp) (by simp)
  · have hword : divisionOf ov x y = BitVec.ofInt w ((value false x).tdiv (value false y)) := by
      rw [← truncates_divisionOf hw ov x y hedge, ofInt_value]
    rw [bringBack_of_representable
      (SInt.tdiv_representable (value_representable false x) hedge), Option.some.injEq, hword]
    exact ⟨fun h => ⟨h.symm, fun h' => absurd h' hedge⟩, fun h => h.1.symm⟩

/-- The operands whose signed quotients are all held. -/
def QuotientsHeld (ov : OverflowStrategy) (ln rn : ConstantRange w) : Prop :=
  match ov with
  | .WRAPPING => MeetsEdge ln rn → HoldsWrappedQuotient ln rn
  | .SATURATING => MeetsEdge ln rn → HoldsSaturatedQuotient ln rn
  | _ => ¬LosesQuotients ln rn

theorem forall_contains_div_iff (hw : 2 < w) {ln rn : ConstantRange w}
    (hzero : ¬rn.contains (SInt.zero w) = true) (ov : OverflowStrategy) :
    (∀ x y, ln.contains x = true → rn.contains y = true →
      (value false x = -2 ^ (w - 1) ∧ value false y = -1 → ov = .WRAPPING ∨ ov = .SATURATING) →
        (sDivImpl ln rn (divisionOf ov)).contains (divisionOf ov x y) = true) ↔
      QuotientsHeld ov ln rn := by
  have hw1 : 1 < w := by omega
  have hdiv := truncates_divisionOf hw1 ov
  -- a shape that loses quotients meets the edge, and holds neither replacement for its quotient
  have hloses (h : LosesQuotients ln rn) : MeetsEdge ln rn ∧ ¬HoldsWrappedQuotient ln rn ∧
      ¬HoldsSaturatedQuotient ln rn := by
    have hmeets := edge_of_losesLargeQuotients hw ((losesQuotients_iff hw hzero).mp h)
    obtain ⟨hupper, -, -, -, hne₁, -, hne⟩ := h
    refine ⟨hmeets, ?_, ?_⟩
    · rintro (hone | ⟨hlower, -⟩)
      · exact hne hone
      · exact hne₁ hlower
    · rintro (hupper' | ⟨hone, -⟩ | ⟨hlower, -⟩)
      · exact hupper' hupper
      · exact hne hone
      · exact hne₁ hlower
  have hregular (hkeep : ¬LosesQuotients ln rn) {x y : SInt w} (hx : ln.contains x = true)
      (hy : rn.contains y = true)
      (hedge : ¬(value false x = -2 ^ (w - 1) ∧ value false y = -1)) :
      (sDivImpl ln rn (divisionOf ov)).contains (divisionOf ov x y) = true :=
    contains_sDivImpl hw hdiv hx hy (ne_zero_of_contains hzero hy) hedge
      fun h => hkeep ((losesQuotients_iff hw hzero).mpr h)
  have hnoEdge : ov ≠ .WRAPPING → ov ≠ .SATURATING →
      ((∀ x y, ln.contains x = true → rn.contains y = true →
        (value false x = -2 ^ (w - 1) ∧ value false y = -1 →
          ov = .WRAPPING ∨ ov = .SATURATING) →
        (sDivImpl ln rn (divisionOf ov)).contains (divisionOf ov x y) = true) ↔
      ¬LosesQuotients ln rn) := by
    intro hwrap hsat
    constructor
    · intro hall h
      obtain ⟨⟨⟨x, hx, -⟩, y, hy, -⟩, -⟩ := hloses h
      refine (forall_contains_sDivImpl_iff hw hdiv (valid_of_contains hx) (valid_of_contains hy)
        hzero).mp (fun a b ha hb hab => ?_) h
      exact hall a b ha hb fun h' => absurd h' hab
    · intro hkeep x y hx hy hcompletes
      refine hregular hkeep hx hy fun hedge => ?_
      rcases hcompletes hedge with h | h
      · exact hwrap h
      · exact hsat h
  cases ov with
  | NA => exact hnoEdge (by decide) (by decide)
  | CHECKED => exact hnoEdge (by decide) (by decide)
  | THROWING => exact hnoEdge (by decide) (by decide)
  | WRAPPING =>
    have hedgeIff {x y : SInt w} (hx : ln.contains x = true) (hy : rn.contains y = true)
        (hmin : value false x = -2 ^ (w - 1)) (hval : value false y = -1) :
        (sDivImpl ln rn (divisionOf .WRAPPING)).contains (divisionOf .WRAPPING x y) = true ↔
          HoldsWrappedQuotient ln rn := by
      rw [show divisionOf OverflowStrategy.WRAPPING x y = x from sDiv_edge (by omega) hmin hval]
      exact contains_sDiv_edge_iff hw hzero hx hy hmin hval
    constructor
    · rintro hall ⟨⟨x, hx, hmin⟩, y, hy, hval⟩
      exact (hedgeIff hx hy hmin hval).mp (hall x y hx hy fun _ => Or.inl rfl)
    · intro hheld x y hx hy _
      by_cases hedge : value false x = -2 ^ (w - 1) ∧ value false y = -1
      · exact (hedgeIff hx hy hedge.1 hedge.2).mpr
          (hheld ⟨⟨x, hx, hedge.1⟩, y, hy, hedge.2⟩)
      · refine hregular (fun h => ?_) hx hy hedge
        exact (hloses h).2.1 (hheld (hloses h).1)
  | SATURATING =>
    have hedgeIff {x y : SInt w} (hx : ln.contains x = true) (hy : rn.contains y = true)
        (hmin : value false x = -2 ^ (w - 1)) (hval : value false y = -1) :
        (sDivImpl ln rn (divisionOf .SATURATING)).contains (divisionOf .SATURATING x y) = true ↔
          HoldsSaturatedQuotient ln rn :=
      contains_sDivSat_edge_iff hw hzero hx hy hmin hval
    constructor
    · rintro hall ⟨⟨x, hx, hmin⟩, y, hy, hval⟩
      exact (hedgeIff hx hy hmin hval).mp (hall x y hx hy fun _ => Or.inr rfl)
    · intro hheld x y hx hy _
      by_cases hedge : value false x = -2 ^ (w - 1) ∧ value false y = -1
      · exact (hedgeIff hx hy hedge.1 hedge.2).mpr
          (hheld ⟨⟨x, hx, hedge.1⟩, y, hy, hedge.2⟩)
      · refine hregular (fun h => ?_) hx hy hedge
        exact (hloses h).2.2 (hheld (hloses h).1)

theorem symbolics_computeDiv (args : CHIRArithmeticBinopArgs w) :
    (computeDiv args).symbolics.entries = [] := by
  unfold computeDiv
  dsimp only
  split_ifs <;> rfl

/-- A divisor range that holds zero gives the full range. -/
theorem contains_computeDiv_of_zero (hzero : args.rd.numeric.contains (SInt.zero w) = true)
    (z : SInt w) : (computeDiv args).numeric.contains z = true := by
  rw [computeDiv, if_pos hzero]
  exact contains_full z

theorem numeric_computeDiv_signed (huns : args.uns = false)
    (hzero : ¬args.rd.numeric.contains (SInt.zero w) = true) :
    (computeDiv args).numeric =
      sDivImpl args.ld.numeric args.rd.numeric (divisionOf args.ov) := by
  rw [computeDiv, if_neg hzero, huns, divisionOf]
  dsimp only [SIntDomain.ofNumeric]
  rw [if_neg Bool.false_ne_true]
  split_ifs <;> rfl

theorem contains_computeDiv_unsigned (hw : 1 < w) (huns : args.uns = true)
    (hx : args.ld.numeric.contains x = true) (hy : args.rd.numeric.contains y = true)
    (hne : value true y ≠ 0)
    (hback : bringBack w true args.ov ((value true x).tdiv (value true y)) = some z) :
    (computeDiv args).numeric.contains z = true := by
  have hxpos := (SInt.value_true_bounds x).1
  have hypos := (SInt.value_true_bounds y).1
  have hrep : Representable w true ((value true x).tdiv (value true y)) :=
    ⟨Int.tdiv_nonneg hxpos hypos,
      (Int.tdiv_le_self _ hxpos).trans (SInt.value_true_bounds x).2⟩
  rw [bringBack_of_representable hrep] at hback
  obtain rfl := Option.some.inj hback
  by_cases hzero : args.rd.numeric.contains (SInt.zero w) = true
  · exact contains_computeDiv_of_zero hzero _
  · rw [computeDiv, if_neg hzero, huns, Int.tdiv_eq_ediv_of_nonneg hxpos, ← SInt.value_uDiv,
      ofInt_value]
    exact contains_uDiv hw hx hy hne

theorem binopSound_div_iff (hw : 2 < w) (hop : args.op = .DIV) :
    BinopSound args ↔
      (args.uns = false → ¬args.rd.numeric.contains (SInt.zero w) = true →
        QuotientsHeld args.ov args.ld.numeric args.rd.numeric) := by
  have hw1 : 1 < w := by omega
  have hcompute : computeArithmeticBinop args = some (computeDiv args) := by
    rw [computeArithmeticBinop, hop]
  constructor
  · intro hsound huns hzero
    refine (forall_contains_div_iff hw hzero args.ov).mp fun x y hx hy hcompletes => ?_
    have hyne : value false y ≠ 0 := by
      intro h
      have hword : y = SInt.zero w := value_injective false (h.trans (value_zero false).symm)
      exact hzero (hword ▸ hy)
    have hconcrete : concreteResult args.op args.ov args.uns x y =
        some (divisionOf args.ov x y) := by
      rw [hop, huns]
      exact (concreteResult_div_iff hw1 hyne).mpr ⟨rfl, hcompletes⟩
    obtain ⟨d, hd, hmem, -⟩ := hsound x y _ hx hy hconcrete
    rw [hcompute] at hd
    obtain rfl := Option.some.inj hd
    rwa [numeric_computeDiv_signed huns hzero] at hmem
  · intro hheld x y z hx hy hz
    refine ⟨computeDiv args, hcompute, ?_, ?_⟩
    · obtain ⟨e, he, hback⟩ := exists_exactResult hz
      rw [hop, exactResult] at he
      split_ifs at he with hyzero
      obtain rfl := Option.some.inj he
      by_cases hzero : args.rd.numeric.contains (SInt.zero w) = true
      · exact contains_computeDiv_of_zero hzero z
      cases huns : args.uns with
      | true =>
        rw [huns] at hback hyzero
        exact contains_computeDiv_unsigned hw1 huns hx hy hyzero hback
      | false =>
        rw [huns] at hyzero
        rw [hop, huns] at hz
        obtain ⟨rfl, hcompletes⟩ := (concreteResult_div_iff hw1 hyzero).mp hz
        rw [numeric_computeDiv_signed huns hzero]
        exact (forall_contains_div_iff hw hzero args.ov).mpr (hheld huns hzero) x y hx hy
          hcompletes
    · intro σ _ _ s B hmem
      rw [symbolics_computeDiv] at hmem
      exact absurd hmem List.not_mem_nil

/-! ### All operations -/

/-- The operands for which an arithmetic operation is sound.  Only differences with a recorded
bound and signed quotients by non-zero divisors are concerned. -/
def BinopOperandsKept (args : CHIRArithmeticBinopArgs w) : Prop :=
  (args.op = .SUB → RecordsNegation args → NegationsKept args) ∧
    (args.op = .DIV → args.uns = false → ¬args.rd.numeric.contains (SInt.zero w) = true →
      QuotientsHeld args.ov args.ld.numeric args.rd.numeric)

theorem binopSound_iff_of_lt (hw : 2 < w) (args : CHIRArithmeticBinopArgs w) :
    BinopSound args ↔ BinopOperandsKept args := by
  have hw1 : 1 < w := by omega
  rw [BinopOperandsKept]
  by_cases hsub : args.op = .SUB
  · rw [binopSound_sub_iff hw1 hsub, imp_iff_right hsub, and_iff_left]
    intro hdiv
    rw [hsub] at hdiv
    exact BinaryExprKind.noConfusion hdiv
  by_cases hdiv : args.op = .DIV
  · rw [binopSound_div_iff hw hdiv, imp_iff_right hdiv, and_iff_right]
    exact fun h => absurd h hsub
  refine iff_of_true ?_ ⟨fun h => absurd h hsub, fun h => absurd h hdiv⟩
  cases hop : args.op with
  | ADD => exact binopSound_add hw1 hop
  | MUL => exact binopSound_mul hw1 hop
  | MOD => exact binopSound_mod hw hop
  | SUB => exact absurd hop hsub
  | DIV => exact absurd hop hdiv
  | _ =>
    intro x y z _ _ hz
    rw [concreteResult, hop] at hz
    exact absurd (show none = some z from hz) (by simp)

end Operations

/-- The arithmetic of domains is sound exactly on the operands that are kept. -/
theorem computeArithmeticBinop_sound_iff (width : IntWidth)
    (args : CHIRArithmeticBinopArgs width.bits) : BinopSound args ↔ BinopOperandsKept args :=
  binopSound_iff_of_lt width.two_lt_bits args

/-- The difference `254 - 200` of unsigned bytes records the negated range `[-200, -100]` of the
right operand as the bytes from `56` to `156`, and `-200` is none of them. -/
theorem computeArithmeticBinop_not_sound :
    ¬∀ (width : IntWidth) (args : CHIRArithmeticBinopArgs width.bits), BinopSound args := by
  intro hsound
  have hsub := hsound .I8
    ⟨.ofNumeric ⟨200, 255⟩ true, .ofNumeric ⟨100, 201⟩ true, 1, 2, .SUB, .THROWING, true, true⟩
  obtain ⟨d, hd, -, hbounds⟩ := hsub 254 200 54 (by decide) (by decide) (by decide)
  obtain rfl := Option.some.inj hd
  have hmember := (hbounds (fun s => if s = 1 then 254 else 200) rfl rfl 1 ⟨56, 157⟩
    (by decide)).2
  exact absurd hmember (by decide)

end Cangjie.CHIR
