import CangjieCompiler.CHIR.Analysis.SIntDomain.ConversionSound
import CangjieCompiler.CHIR.Analysis.ValueRangeAnalysis

/-!
# Chains of casts

The domain of a cast holds the results of the cast as long as the flag of the source domain is
the signedness of the source type.  The flag is never changed, so a chain of casts is computed
correctly as long as the types that are cast from keep the signedness of the first one.
-/

namespace Cangjie.CHIR

open FixedWidth ConstantRange

/-! ## The meaning of a chain -/

/-- The result of performing the casts on a value, when none of them throws. -/
def castValue {t : IntegerType} (x : SInt t.bits) :
    (casts : List NumericCast) → Option (SInt (endType t casts).bits)
  | [] => some x
  | cast :: casts =>
    (bringBack cast.target.bits cast.target.isUnsigned cast.ov (value t.isUnsigned x)).bind
      fun y => castValue (t := cast.target) y casts

/-- The domain at the end of a chain holds the results of the casts. -/
def ChainHeld {t : IntegerType} (domain : SIntDomain t.bits) (casts : List NumericCast) : Prop :=
  ∀ x z, domain.numeric.contains x = true → castValue x casts = some z →
    (castDomain domain casts).numeric.contains z = true

/-- The domains that are cast from carry the signedness of their types. -/
def FlagsAgree {t : IntegerType} (domain : SIntDomain t.bits) (casts : List NumericCast) : Prop :=
  ∀ casts₁ casts₂, casts = casts₁ ++ casts₂ → casts₂ ≠ [] →
    (castDomain domain casts₁).unsignedFlag = (endType t casts₁).isUnsigned

/-- What the analysis promises about a chain of casts. -/
def CastChainSound {t : IntegerType} (domain : SIntDomain t.bits) (casts : List NumericCast) :
    Prop :=
  ChainHeld domain casts ∧ FlagsAgree domain casts

/-- The types that are cast from have the signedness of the first one. -/
def KeepsSignedness (t : IntegerType) (casts : List NumericCast) : Prop :=
  ∀ cast ∈ casts.dropLast, cast.target.isUnsigned = t.isUnsigned

/-! ## One cast -/

section Step

variable {w n : ℕ}

theorem computeTypeCast_numeric (state : RangeDomain) (oldSymbol : PtrSymbol) (v : SIntDomain w)
    (dstSize : ℕ) (dstUnsigned : Bool) (ov : OverflowStrategy) :
    (computeTypeCast state oldSymbol v dstSize dstUnsigned ov).numeric =
      computeTypeCastNumericBound v dstSize dstUnsigned ov := by
  rw [computeTypeCast]
  split_ifs
  · rfl
  · rfl

/-- The domain of a cast carries the flag of the domain it is computed from. -/
theorem computeTypeCast_unsignedFlag (state : RangeDomain) (oldSymbol : PtrSymbol)
    (v : SIntDomain w) (dstSize : ℕ) (dstUnsigned : Bool) (ov : OverflowStrategy) :
    (computeTypeCast state oldSymbol v dstSize dstUnsigned ov).unsignedFlag = v.unsignedFlag := by
  rw [computeTypeCast]
  split_ifs
  · rfl
  · rfl

/-- A single cast is computed correctly when the flag is the signedness of the source type. -/
theorem contains_computeTypeCast (hw : 1 < w) (hn : 1 < n) (state : RangeDomain)
    (oldSymbol : PtrSymbol) {v : SIntDomain w} {srcUnsigned dstUnsigned : Bool}
    (hflag : v.unsignedFlag = srcUnsigned) (ov : OverflowStrategy) {x : SInt w} {z : SInt n}
    (hx : v.numeric.contains x = true)
    (hz : bringBack n dstUnsigned ov (value srcUnsigned x) = some z) :
    (computeTypeCast state oldSymbol v n dstUnsigned ov).numeric.contains z = true := by
  have hbottom : v.isBottom = false := isEmptySet_eq_false_of_contains (by omega) hx
  rw [computeTypeCast_numeric, computeTypeCastNumericBound, hbottom, if_neg Bool.false_ne_true,
    hflag]
  exact conversionHeld_numericConversion hw hn v.numeric srcUnsigned dstUnsigned ov x z hx hz

end Step

/-! ## A chain of casts -/

theorem IntegerType.one_lt_bits (t : IntegerType) : 1 < t.bits := by
  have h : 2 < t.bits := t.width.two_lt_bits
  omega

/-- The flag at the end of a chain is the one at its beginning. -/
theorem castDomain_unsignedFlag {t : IntegerType} (domain : SIntDomain t.bits)
    (casts : List NumericCast) :
    (castDomain domain casts).unsignedFlag = domain.unsignedFlag := by
  induction casts generalizing t with
  | nil => rfl
  | cons cast casts ih =>
    rw [castDomain]
    exact (ih _).trans (computeTypeCast_unsignedFlag _ _ _ _ _ _)

theorem chainHeld_of_keepsSignedness {t : IntegerType} {domain : SIntDomain t.bits}
    {casts : List NumericCast} (hkeeps : KeepsSignedness t casts)
    (hflag : domain.unsignedFlag = t.isUnsigned) : ChainHeld domain casts := by
  induction casts generalizing t with
  | nil =>
    intro x z hx hz
    obtain rfl := Option.some.inj hz
    exact hx
  | cons cast casts ih =>
    intro x z hx hz
    obtain ⟨y, hy, hz⟩ := Option.bind_eq_some_iff.mp hz
    have hstep := contains_computeTypeCast t.one_lt_bits cast.target.one_lt_bits cast.state
      cast.operand hflag cast.ov hx hy
    cases casts with
    | nil =>
      obtain rfl := Option.some.inj hz
      exact hstep
    | cons next rest =>
      -- the type in the middle is cast from, so it has the signedness that the flag tells
      have hmiddle : cast.target.isUnsigned = t.isUnsigned := hkeeps cast (by simp)
      refine ih (t := cast.target) (fun c hc => ?_) ?_ y z hstep hz
      · rw [hmiddle]
        exact hkeeps c (List.mem_cons_of_mem cast hc)
      · rw [computeTypeCast_unsignedFlag, hflag, hmiddle]

theorem endType_append (t : IntegerType) (casts₁ casts₂ : List NumericCast) :
    endType t (casts₁ ++ casts₂) = endType (endType t casts₁) casts₂ := by
  induction casts₁ generalizing t with
  | nil => rfl
  | cons cast casts₁ ih => exact ih cast.target

/-- The flags agree with the types exactly when the signedness is kept. -/
theorem flagsAgree_iff {t : IntegerType} {domain : SIntDomain t.bits} (casts : List NumericCast)
    (hflag : domain.unsignedFlag = t.isUnsigned) :
    FlagsAgree domain casts ↔ KeepsSignedness t casts := by
  constructor
  · intro hagree cast hcast
    obtain ⟨before, after, hsplit⟩ := List.append_of_mem hcast
    have hne : casts ≠ [] := by
      rintro rfl
      exact List.not_mem_nil hcast
    have hcasts : casts = (before ++ [cast]) ++ (after ++ [casts.getLast hne]) := by
      conv_lhs => rw [← List.dropLast_append_getLast hne, hsplit]
      simp
    have hflags := hagree _ _ hcasts (by simp)
    rw [castDomain_unsignedFlag, hflag, endType_append] at hflags
    exact hflags.symm
  · intro hkeeps casts₁ casts₂ hcasts hne
    rw [castDomain_unsignedFlag, hflag]
    rcases List.eq_nil_or_concat casts₁ with rfl | ⟨before, cast, rfl⟩
    · rfl
    · rw [List.concat_eq_append, endType_append]
      refine (hkeeps cast ?_).symm
      rw [hcasts, List.dropLast_append_of_ne_nil hne]
      simp

/-- A chain of casts is computed correctly, with flags that agree with the types, exactly when all
types that are cast from have the signedness of the first one. -/
theorem castChain_sound_iff (t : IntegerType) (domain : SIntDomain t.bits)
    (casts : List NumericCast) (hflag : domain.unsignedFlag = t.isUnsigned) :
    CastChainSound domain casts ↔ KeepsSignedness t casts := by
  rw [CastChainSound, flagsAgree_iff casts hflag]
  exact ⟨fun h => h.2, fun h => ⟨chainHeld_of_keepsSignedness h hflag, h⟩⟩

/-- The domain of the unsigned byte `200`. -/
def byte200 : SIntDomain (IntegerType.mk .I8 true).bits := .ofNumeric (single 200) true

/-- A wrapping cast to a signed byte and then a cast to a signed word of 16 bits. -/
def signedByteThenWord : List NumericCast :=
  [⟨fun _ => none, 0, ⟨.I8, false⟩, .WRAPPING⟩, ⟨fun _ => none, 1, ⟨.I16, false⟩, .THROWING⟩]

/-- The unsigned byte `200` becomes `-56` as a signed byte and stays `-56` with 16 bits, where the
analysis has the range of `200` only. -/
theorem castChain_not_sound :
    ¬∀ (t : IntegerType) (domain : SIntDomain t.bits) (casts : List NumericCast),
      domain.unsignedFlag = t.isUnsigned → ChainHeld domain casts := by
  intro hall
  have hheld := hall ⟨.I8, true⟩ byte200 signedByteThenWord rfl (200 : BitVec 8)
    (BitVec.ofInt 16 (-56)) (by decide) (by decide)
  exact absurd hheld (by decide)

theorem castChain_sound_iff_byte200 :
    CastChainSound byte200 signedByteThenWord ↔ KeepsSignedness ⟨.I8, true⟩ signedByteThenWord :=
  castChain_sound_iff ⟨.I8, true⟩ byte200 signedByteThenWord rfl

end Cangjie.CHIR
