import CangjieCompiler.CHIR.Analysis.ConstantRange.Widths
import CangjieCompiler.CHIR.Analysis.SIntDomain.ArithmeticSound

/-!
# Soundness of the conversions between integer types

Every conversion, whatever the two types and the strategy, holds the results of converting the
elements of its range.  The four combinations of signedness are handled one after the other, with
the narrowing ones split into what stays representable and what the strategy makes of the rest.
-/

namespace Cangjie.CHIR

open FixedWidth ConstantRange

variable {w n : ℕ}

/-- The word of the value after a conversion, for the elements of a range. -/
def ConversionHeld (src : ConstantRange w) (dst : ConstantRange n) (srcUnsigned dstUnsigned : Bool)
    (ov : OverflowStrategy) : Prop :=
  ∀ x z, src.contains x = true → bringBack n dstUnsigned ov (value srcUnsigned x) = some z →
    dst.contains z = true

/-! ## The values of a narrower type -/

/-- The smallest value of a narrower type, in the source type. -/
def leastWord (w n : ℕ) (uns : Bool) : SInt w :=
  if uns then (SInt.uMinValue n).zExt w else (SInt.sMinValue n).sExt w

/-- The largest value of a narrower type, in the source type. -/
def greatestWord (w n : ℕ) (uns : Bool) : SInt w :=
  if uns then (SInt.uMaxValue n).zExt w else (SInt.sMaxValue n).sExt w

theorem value_leastWord (hn : 0 < n) (h : n ≤ w) (uns : Bool) :
    value uns (leastWord w n uns) = least n uns := by
  cases uns with
  | true => exact (SInt.value_true_zExt hn h _).trans (SInt.value_uMinValue n true)
  | false => exact (SInt.value_false_sExt hn h _).trans (SInt.value_false_sMinValue hn)

theorem value_greatestWord (hn : 0 < n) (h : n ≤ w) (uns : Bool) :
    value uns (greatestWord w n uns) = greatest n uns := by
  cases uns with
  | true => exact (SInt.value_true_zExt hn h _).trans (SInt.value_true_uMaxValue hn)
  | false => exact (SInt.value_false_sExt hn h _).trans (SInt.value_false_sMaxValue hn)

/-- The values from a bound on, or up to it, are an interval of the reading. -/
theorem from'_unwrapped (hw : 1 < w) {rel : RelationalOperation} (hrel : rel = .LE ∨ rel = .GE)
    (v : SInt w) {uns isSigned : Bool} (hsign : isSigned = !uns) :
    (from' rel v isSigned).Unwrapped uns := by
  refine unwrapped_of_convex (by omega) fun a b t ha hb hat htb => ?_
  rw [contains_from'_iff hw, hsign, Bool.not_not] at ha hb ⊢
  rcases hrel with rfl | rfl
  · exact htb.trans hb
  · exact ha.trans hat

/-- Intersecting an interval with all values on one side of a bound is exact. -/
theorem contains_from'_intersectWith_iff (hw : 1 < w) {rel : RelationalOperation}
    (hrel : rel = .LE ∨ rel = .GE) (v : SInt w) {uns isSigned : Bool} (hsign : isSigned = !uns)
    {src : ConstantRange w} (hsrc : src.Valid) (hflat : src.Unwrapped uns)
    (type : PreferredRangeType) (x : SInt w) :
    ((from' rel v isSigned).intersectWith src type).contains x = true ↔
      rel.Holds (value uns x) (value uns v) ∧ src.contains x = true := by
  rw [contains_intersectWith_iff (by omega) type (valid_from' hw rel v isSigned) hsrc
    (from'_unwrapped hw hrel v hsign) hflat, contains_from'_iff hw, hsign, Bool.not_not]

/-! ## Narrowing without change of signedness -/

/-- The part of a range from the smallest value of the narrower type on. -/
def higherPart (src : ConstantRange w) (n : ℕ) (uns : Bool) : ConstantRange w :=
  (from' .GE (leastWord w n uns) (!uns)).intersectWith src (preferFromBool uns)

/-- The part of a range that the narrower type represents. -/
def unchangedPart (src : ConstantRange w) (n : ℕ) (uns : Bool) : ConstantRange w :=
  (from' .LE (greatestWord w n uns) (!uns)).intersectWith (higherPart src n uns)
    (preferFromBool uns)

/-- What saturation adds to a range when values had to be changed. -/
def unionWhen (changed : Bool) (res : ConstantRange n) (v : SInt n) (type : PreferredRangeType) :
    ConstantRange n :=
  if changed then res.unionWith (single v) type else res

section Narrowing

variable {src : ConstantRange w} {uns : Bool}

theorem contains_higherPart_iff (hn : 1 < n) (h : n < w) (hsrc : src.Valid)
    (hflat : src.Unwrapped uns) (x : SInt w) :
    (higherPart src n uns).contains x = true ↔
      least n uns ≤ value uns x ∧ src.contains x = true := by
  rw [higherPart, contains_from'_intersectWith_iff (by omega) (Or.inr rfl) _ rfl hsrc hflat,
    value_leastWord (by omega) h.le]
  exact Iff.rfl

theorem valid_higherPart (hw : 1 < w) (hsrc : src.Valid) : (higherPart src n uns).Valid :=
  valid_intersectWith _ (valid_from' hw _ _ _) hsrc

theorem contains_unchangedPart_iff (hn : 1 < n) (h : n < w) (hsrc : src.Valid)
    (hflat : src.Unwrapped uns) (x : SInt w) :
    (unchangedPart src n uns).contains x = true ↔
      Representable n uns (value uns x) ∧ src.contains x = true := by
  have hw : 1 < w := by omega
  have hhigher := unwrapped_intersectWith (show 0 < w by omega) (preferFromBool uns)
    (valid_from' hw .GE (leastWord w n uns) (!uns)) hsrc
    (from'_unwrapped hw (Or.inr rfl) _ rfl) hflat
  rw [unchangedPart, contains_from'_intersectWith_iff hw (Or.inl rfl) _ rfl
    (valid_higherPart hw hsrc) hhigher, contains_higherPart_iff hn h hsrc hflat,
    value_greatestWord (by omega) h.le, Representable]
  constructor
  · rintro ⟨hle, hge, hx⟩
    exact ⟨⟨hge, hle⟩, hx⟩
  · rintro ⟨⟨hge, hle⟩, hx⟩
    exact ⟨hle, hge, hx⟩

theorem valid_unchangedPart (hw : 1 < w) (hsrc : src.Valid) : (unchangedPart src n uns).Valid :=
  valid_intersectWith _ (valid_from' hw _ _ _) (valid_higherPart hw hsrc)

theorem valid_unionWhen (hn : 1 < n) {res : ConstantRange n} (hres : res.Valid) (changed : Bool)
    (v : SInt n) (type : PreferredRangeType) : (unionWhen changed res v type).Valid := by
  rw [unionWhen]
  split_ifs
  · exact valid_unionWith hn type hres (valid_of_contains (contains_single hn v))
  · exact hres

theorem contains_unionWhen (hn : 1 < n) {res : ConstantRange n} (hres : res.Valid)
    {changed : Bool} {v x : SInt n} (type : PreferredRangeType)
    (hx : res.contains x = true ∨ changed = true ∧ x = v) :
    (unionWhen changed res v type).contains x = true := by
  have hsingle := contains_single hn v
  rw [unionWhen]
  split_ifs with hchanged
  · refine contains_unionWith hn hres (valid_of_contains hsingle) type ?_
    rcases hx with hx | ⟨-, rfl⟩
    · exact Or.inl hx
    · exact Or.inr hsingle
  · rcases hx with hx | ⟨htrue, -⟩
    · exact hx
    · exact absurd htrue hchanged

/-- The narrowing of an interval, in terms of its parts. -/
theorem ncSameSignessInner_eq (src : ConstantRange w) (n : ℕ) (uns : Bool)
    (ov : OverflowStrategy) :
    ncSameSignessInner src n uns ov =
      if src.isFullSet then full n
      else if src.isEmptySet then empty n
      else if src = unchangedPart src n uns ∨ ov = .THROWING then
        (unchangedPart src n uns).truncate n
      else if ov = .WRAPPING then full n
      else
        unionWhen ((higherPart src n uns).difference (unchangedPart src n uns)).isNotEmptySet
          (unionWhen (src.difference (higherPart src n uns)).isNotEmptySet
            ((unchangedPart src n uns).truncate n) (BitVec.ofInt n (least n uns))
            (preferFromBool uns))
          (BitVec.ofInt n (greatest n uns)) (preferFromBool uns) := by
  cases uns with
  | true =>
    rw [← SInt.uMaxValue_eq_ofInt]
    rfl
  | false =>
    rw [← SInt.sMinValue_eq_ofInt, ← SInt.sMaxValue_eq_ofInt]
    rfl

theorem valid_ncSameSignessInner (hn : 1 < n) (h : n < w) (hsrc : src.Valid)
    (ov : OverflowStrategy) : (ncSameSignessInner src n uns ov).Valid := by
  have hunchanged : (unchangedPart src n uns).Valid := valid_unchangedPart (by omega) hsrc
  have hres := valid_truncate hn h hunchanged
  rw [ncSameSignessInner_eq]
  split_ifs
  · exact valid_full n
  · exact valid_empty n
  · exact hres
  · exact valid_full n
  · exact valid_unionWhen hn (valid_unionWhen hn hres _ _ _) _ _ _

/-- The elements of a range that a part lacks make the difference a non-empty set. -/
theorem difference_isNotEmptySet (hw : 0 < w) {part : ConstantRange w} (hpart : part.Valid)
    {x : SInt w} (hx : src.contains x = true) (hout : ¬part.contains x = true) :
    (src.difference part).isNotEmptySet = true := by
  have hin : (src.difference part).contains x = true :=
    contains_intersectWith hw .smallest hx ((contains_inverse hw hpart x).mpr hout)
  rw [isNotEmptySet, isEmptySet_eq_false_of_contains hw hin, Bool.not_false]

theorem conversionHeld_ncSameSignessInner (hn : 1 < n) (h : n < w) (hflat : src.Unwrapped uns)
    (ov : OverflowStrategy) :
    ConversionHeld src (ncSameSignessInner src n uns ov) uns uns ov := by
  intro x z hx hz
  have hwpos : 0 < w := by omega
  have hsrc := valid_of_contains hx
  have hunchanged := contains_unchangedPart_iff hn h hsrc hflat x
  have hhigher := contains_higherPart_iff hn h hsrc hflat x
  have hvalid : ((unchangedPart src n uns).truncate n).Valid :=
    valid_truncate hn h (valid_unchangedPart (by omega) hsrc)
  have hempty := isEmptySet_eq_false_of_contains hwpos hx
  rw [ncSameSignessInner_eq, hempty]
  by_cases hfull : src.isFullSet = true
  · rw [if_pos hfull]
    exact contains_full z
  rw [if_neg hfull, if_neg Bool.false_ne_true]
  by_cases hrep : Representable n uns (value uns x)
  · -- a value that the narrower type represents stays in the truncated part
    have hkept : ((unchangedPart src n uns).truncate n).contains z = true := by
      rw [bringBack_of_representable hrep, ← SInt.trunc_eq_ofInt_value h.le] at hz
      obtain rfl := Option.some.inj hz
      exact contains_truncate hn h (hunchanged.mpr ⟨hrep, hx⟩)
    split_ifs
    · exact hkept
    · exact contains_full z
    · exact contains_unionWhen hn (valid_unionWhen hn hvalid _ _ _) _
        (Or.inl (contains_unionWhen hn hvalid _ (Or.inl hkept)))
  · have hchanged : ¬(src = unchangedPart src n uns ∨ ov = .THROWING) := by
      rintro (heq | rfl)
      · exact hrep (hunchanged.mp (heq ▸ hx)).1
      · exact hrep (representable_of_bringBack hz (by simp) (by simp)).1
    rw [if_neg hchanged]
    by_cases hwrap : ov = .WRAPPING
    · rw [if_pos hwrap]
      exact contains_full z
    rw [if_neg hwrap]
    by_cases hsat : ov = .SATURATING
    swap
    · exact absurd (representable_of_bringBack hz hwrap hsat).1 hrep
    subst hsat
    have hclamp : z = BitVec.ofInt n (clamp n uns (value uns x)) := (Option.some.inj hz).symm
    rw [Representable, not_and_or, not_le, not_le] at hrep
    rcases hrep with hlow | hhigh
    · refine contains_unionWhen hn (valid_unionWhen hn hvalid _ _ _) _
        (Or.inl (contains_unionWhen hn hvalid _ (Or.inr ⟨?_, ?_⟩)))
      · exact difference_isNotEmptySet hwpos (valid_higherPart (by omega) hsrc) hx
          fun hin => absurd (hhigher.mp hin).1 (not_le.mpr hlow)
      · rw [hclamp, clamp_eq_least hlow]
    · refine contains_unionWhen hn (valid_unionWhen hn hvalid _ _ _) _ (Or.inr ⟨?_, ?_⟩)
      · have hge : least n uns ≤ value uns x :=
          (least_lt_greatest (by omega) uns).le.trans hhigh.le
        exact difference_isNotEmptySet hwpos (valid_unchangedPart (by omega) hsrc)
          (hhigher.mpr ⟨hge, hx⟩) fun hin => absurd (hunchanged.mp hin).1.2 (not_le.mpr hhigh)
      · rw [hclamp, clamp_eq_greatest hhigh]

/-- The elements of a range that runs around the end of a reading are split among two
intervals. -/
theorem contains_splitWrapping (hw : 1 < w) {uns : Bool} (hwrapped : ¬src.Unwrapped uns)
    {x : SInt w} (hx : src.contains x = true) :
    (src.splitWrapping uns).1.contains x = true ∨ (src.splitWrapping uns).2.contains x = true := by
  have hwpos : 0 < w := by omega
  rw [Unwrapped, not_or, not_or, not_lt, SInt.eq_iff_value_eq uns] at hwrapped
  rw [contains_iff_of_gt hwpos uns (by omega)] at hx
  simp only [splitWrapping, contains_from'_iff hw, Bool.not_not]
  exact hx.symm

theorem valid_splitWrapping (hw : 1 < w) (src : ConstantRange w) (uns : Bool) :
    (src.splitWrapping uns).1.Valid ∧ (src.splitWrapping uns).2.Valid :=
  ⟨valid_from' hw _ _ _, valid_from' hw _ _ _⟩

theorem conversionHeld_split (hw : 1 < w) (hn : 1 < n) {srcUns dstUns : Bool}
    {ov : OverflowStrategy} (type : PreferredRangeType)
    (convert : ConstantRange w → ConstantRange n) (hwrapped : ¬src.Unwrapped srcUns)
    (hvalid : ∀ part : ConstantRange w, part.Valid → (convert part).Valid)
    (hheld : ∀ part : ConstantRange w, part.Unwrapped srcUns →
      ConversionHeld part (convert part) srcUns dstUns ov) :
    ConversionHeld src ((convert (src.splitWrapping srcUns).1).unionWith
      (convert (src.splitWrapping srcUns).2) type) srcUns dstUns ov := by
  intro x z hx hz
  obtain ⟨hflat₁, hflat₂⟩ := splitWrapping_unwrapped hw src srcUns
  obtain ⟨hvalid₁, hvalid₂⟩ := valid_splitWrapping hw src srcUns
  refine contains_unionWith hn (hvalid _ hvalid₁) (hvalid _ hvalid₂) type ?_
  rcases contains_splitWrapping hw hwrapped hx with hx | hx
  · exact Or.inl (hheld _ hflat₁ x z hx hz)
  · exact Or.inr (hheld _ hflat₂ x z hx hz)

/-- A range is an interval of a reading unless it runs around the end of the reading. -/
theorem unwrapped_iff_not_wrapped (hw : 0 < w) (src : ConstantRange w) (uns : Bool) :
    src.Unwrapped uns ↔ ¬(if uns then src.isWrappedSet else src.isSignWrappedSet) = true := by
  cases uns with
  | true => exact unwrapped_true_iff src
  | false => exact unwrapped_false_iff hw src

/-- A conversion to the same type changes nothing. -/
theorem eq_of_bringBack_value {uns : Bool} {ov : OverflowStrategy} {x z : SInt w}
    (hz : bringBack w uns ov (value uns x) = some z) : z = x := by
  rw [bringBack_of_representable (value_representable uns x), ofInt_value] at hz
  exact (Option.some.inj hz).symm

theorem conversionHeld_sameSigness (hw : 1 < w) (hn : 1 < n) (src : ConstantRange w)
    (uns : Bool) (ov : OverflowStrategy) :
    ConversionHeld src (numericConversionWithSameSigness src n uns ov) uns uns ov := by
  rw [numericConversionWithSameSigness]
  by_cases hsame : w = n
  · subst hsame
    rw [dif_pos rfl]
    intro x z hx hz
    rwa [eq_of_bringBack_value hz]
  rw [dif_neg hsame]
  by_cases hwider : w < n
  · rw [if_pos hwider]
    intro x z hx hz
    cases uns with
    | true =>
      have hrep : Representable n true (value true x) := by
        rw [← SInt.value_true_zExt (by omega) hwider.le]
        exact value_representable true _
      rw [bringBack_of_representable hrep, ← SInt.zExt_eq_ofInt] at hz
      obtain rfl := Option.some.inj hz
      exact contains_zeroExtend hw hwider hx
    | false =>
      have hrep : Representable n false (value false x) := by
        rw [← SInt.value_false_sExt (by omega) hwider.le]
        exact value_representable false _
      rw [bringBack_of_representable hrep, ← SInt.sExt_eq_ofInt] at hz
      obtain rfl := Option.some.inj hz
      exact contains_signExtend hw hwider hx
  rw [if_neg hwider]
  have hnarrow : n < w := by omega
  have hiff := unwrapped_iff_not_wrapped (by omega) src uns
  by_cases hwrapped : (if uns then src.isWrappedSet else src.isSignWrappedSet) = true
  · rw [if_pos hwrapped]
    exact conversionHeld_split hw hn _ (fun part => ncSameSignessInner part n uns ov)
      (fun hflat => hiff.mp hflat hwrapped)
      (fun part hpart => valid_ncSameSignessInner hn hnarrow hpart ov)
      (fun part hflat => conversionHeld_ncSameSignessInner hn hnarrow hflat ov)
  · rw [if_neg hwrapped]
    exact conversionHeld_ncSameSignessInner hn hnarrow (hiff.mpr hwrapped) ov

end Narrowing

/-! ## Changes of signedness -/

/-- The largest value of a narrower type, zero extended to the source type. -/
theorem value_true_maxWord (hn : 0 < n) (h : n ≤ w) (dstUns : Bool) :
    value true ((if dstUns then SInt.uMaxValue n else SInt.sMaxValue n).zExt w) =
      greatest n dstUns := by
  rw [SInt.value_true_zExt hn h]
  cases dstUns with
  | true => exact SInt.value_true_uMaxValue hn
  | false => exact SInt.value_true_sMaxValue hn

theorem greatest_le_two_pow (hn : 0 < n) (uns : Bool) : greatest n uns ≤ 2 ^ n - 1 := by
  have hends := greatest_eq hn uns
  have hleast := least_nonpos n uns
  omega

/-- A truncation of values that the destination type represents. -/
theorem contains_truncWithUpperWrapped (hn : 1 < n) (h : n < w) {r : ConstantRange w}
    {dstUns : Bool} (hbounds : ∀ v, r.contains v = true → value true v ≤ greatest n dstUns)
    {x : SInt w} (hx : r.contains x = true) :
    (truncWithUpperWrapped r dstUns n).contains (x.trunc n) = true := by
  have hwpos : 0 < w := by omega
  have hpow := SInt.two_pow_le (w := n + 1) (n := w) h
  rw [pow_succ] at hpow
  have hpos : (0 : ℤ) < 2 ^ n := by positivity
  have hgreatest := greatest_le_two_pow (show 0 < n by omega) dstUns
  have hmax := value_true_maxWord (show 0 < n by omega) h.le dstUns
  rw [truncWithUpperWrapped]
  dsimp only
  generalize (if dstUns then SInt.uMaxValue n else SInt.sMaxValue n) = dstMax at hmax ⊢
  by_cases hupper : r.upper = dstMax.zExt w + 1
  swap
  · rw [if_neg hupper]
    exact contains_truncate hn h hx
  rw [if_pos hupper]
  have hlast : r.upper - 1 = dstMax.zExt w := by rw [hupper, BitVec.add_sub_cancel]
  have hupperVal : value true r.upper = greatest n dstUns + 1 := by
    rw [hupper, value_add_one (by omega) (by rw [hmax, greatest_true]; omega), hmax]
  have hlower := hbounds _ (contains_lower hwpos hx)
  have hxle := hbounds x hx
  have hword : ∀ v : SInt w, value true v ≤ greatest n dstUns →
      value true (v.trunc n) = value true v := by
    intro v hv
    have hnonneg := (SInt.value_true_bounds v).1
    rw [SInt.value_true_trunc, Int.emod_eq_of_lt hnonneg (by omega)]
  rw [contains_iff_of_lt hwpos true (by omega)] at hx
  refine contains_nonEmpty hn true ?_ ?_
  · rw [hword _ hlower, hword x hxle]
    exact hx.1
  · rw [hlast, hword x hxle, hword _ hmax.le, hmax]
    exact hxle

theorem valid_truncWithUpperWrapped (hn : 1 < n) (h : n < w) {r : ConstantRange w}
    (hr : r.Valid) (dstUns : Bool) : (truncWithUpperWrapped r dstUns n).Valid := by
  rw [truncWithUpperWrapped]
  dsimp only
  generalize (if dstUns then SInt.uMaxValue n else SInt.sMaxValue n) = dstMax
  split_ifs with hupper heq
  · exact valid_full n
  · exact fun h => absurd h heq
  · exact valid_truncate hn h hr

/-- A range of values that the destination type represents, moved to a type that is not wider. -/
def narrowTo (r : ConstantRange w) (n : ℕ) (dstUns : Bool) : ConstantRange n :=
  if h : w = n then castWidth h r else truncWithUpperWrapped r dstUns n

/-- A range of non-negative values, moved to a type that is not narrower. -/
def widenTo (r : ConstantRange w) (n : ℕ) : ConstantRange n :=
  if h : w = n then castWidth h r else r.zeroExtend n

theorem contains_narrowTo (hn : 1 < n) (h : n ≤ w) {r : ConstantRange w} {dstUns : Bool}
    (hbounds : ∀ v, r.contains v = true → value true v ≤ greatest n dstUns) {x : SInt w}
    (hx : r.contains x = true) : (narrowTo r n dstUns).contains (x.trunc n) = true := by
  by_cases hsame : w = n
  · subst hsame
    rw [narrowTo, dif_pos rfl, SInt.trunc_eq_ofInt, ofInt_value]
    exact hx
  · rw [narrowTo, dif_neg hsame]
    exact contains_truncWithUpperWrapped hn (by omega) hbounds hx

theorem valid_narrowTo (hn : 1 < n) (h : n ≤ w) {r : ConstantRange w} (hr : r.Valid)
    (dstUns : Bool) : (narrowTo r n dstUns).Valid := by
  by_cases hsame : w = n
  · subst hsame
    rw [narrowTo, dif_pos rfl]
    exact hr
  · rw [narrowTo, dif_neg hsame]
    exact valid_truncWithUpperWrapped hn (by omega) hr dstUns

theorem contains_widenTo (hw : 1 < w) (h : w ≤ n) {r : ConstantRange w} {x : SInt w}
    (hx : r.contains x = true) : (widenTo r n).contains (x.zExt n) = true := by
  by_cases hsame : w = n
  · subst hsame
    rw [widenTo, dif_pos rfl, SInt.zExt_eq_ofInt, ofInt_value]
    exact hx
  · rw [widenTo, dif_neg hsame]
    exact contains_zeroExtend hw (by omega) hx

theorem valid_widenTo (hw : 1 < w) (h : w ≤ n) {r : ConstantRange w} (hr : r.Valid) :
    (widenTo r n).Valid := by
  by_cases hsame : w = n
  · subst hsame
    rw [widenTo, dif_pos rfl]
    exact hr
  · rw [widenTo, dif_neg hsame]
    exact valid_zeroExtend hw (by omega) hr

/-! ### Unsigned to signed -/

/-- The largest value of the signed destination, in the source type. -/
def signedMaxWord (w n : ℕ) : SInt w :=
  if n < w then (SInt.sMaxValue n).sExt w else (SInt.sMaxValue n).trunc w

/-- The unsigned values that the signed destination represents. -/
def signedPart (src : ConstantRange w) (n : ℕ) : ConstantRange w :=
  (from' .LE (signedMaxWord w n) false).intersectWith src .unsigned

theorem ncU2SInner_eq (src : ConstantRange w) (n : ℕ) (ov : OverflowStrategy) :
    ncU2SInner src n ov =
      if src.isEmptySet then empty n
      else if signedPart src n = src ∨ ov = .THROWING then narrowTo (signedPart src n) n false
      else if ov = .SATURATING then
        narrowTo ((signedPart src n).unionWith (single (signedMaxWord w n)) .signed) n false
      else if h : w = n then castWidth h src
      else full n := rfl

theorem value_signedMaxWord (hn : 0 < n) (h : n ≤ w) (uns : Bool) :
    value uns (signedMaxWord w n) = greatest n false := by
  have hpos : (0 : ℤ) < 2 ^ (n - 1) := by positivity
  have hfalse : value false (signedMaxWord w n) = greatest n false := by
    rw [signedMaxWord]
    split_ifs with hnarrow
    · rw [SInt.value_false_sExt hn h, SInt.value_false_sMaxValue hn, greatest_false]
    · obtain rfl : n = w := by omega
      rw [SInt.trunc_eq_ofInt, ofInt_value, SInt.value_false_sMaxValue hn, greatest_false]
  cases uns with
  | false => exact hfalse
  | true =>
    rw [← hfalse]
    exact value_true_of_nonneg (by omega) (by rw [hfalse, greatest_false]; omega)

section UnsignedToSigned

variable {src : ConstantRange w}

theorem contains_signedPart_iff (hn : 1 < n) (h : n ≤ w) (hsrc : src.Valid)
    (hflat : src.Unwrapped true) (x : SInt w) :
    (signedPart src n).contains x = true ↔
      value true x ≤ greatest n false ∧ src.contains x = true := by
  rw [signedPart, contains_from'_intersectWith_iff (by omega) (Or.inl rfl) _
    (show false = !true from rfl) hsrc hflat,
    value_signedMaxWord (by omega) h]
  exact Iff.rfl

theorem valid_signedPart (hw : 1 < w) (hsrc : src.Valid) : (signedPart src n).Valid :=
  valid_intersectWith _ (valid_from' hw _ _ _) hsrc

theorem valid_single (hw : 1 < w) (v : SInt w) : (single v).Valid :=
  valid_of_contains (contains_single hw v)

theorem valid_ncU2SInner_of_le (hn : 1 < n) (h : n ≤ w) (hsrc : src.Valid)
    (ov : OverflowStrategy) : (ncU2SInner src n ov).Valid := by
  have hw : 1 < w := by omega
  have hpart := valid_signedPart (n := n) hw hsrc
  rw [ncU2SInner_eq]
  split_ifs with _ _ _ hsame
  · exact valid_empty n
  · exact valid_narrowTo hn h hpart false
  · exact valid_narrowTo hn h (valid_unionWith hw _ hpart (valid_single hw _)) false
  · subst hsame
    exact hsrc
  · exact valid_full n

/-- The values that the signed destination represents and the largest of them stay within the
destination when they are joined. -/
theorem bounds_signedPart_unionWith (hn : 1 < n) (h : n ≤ w) (hsrc : src.Valid)
    (hflat : src.Unwrapped true) {v : SInt w}
    (hv : ((signedPart src n).unionWith (single (signedMaxWord w n)) .signed).contains v = true) :
    value true v ≤ greatest n false := by
  have hw : 1 < w := by omega
  have hwpos : 0 < w := by omega
  have hpow := SInt.two_pow_half_le h
  have hpos : (0 : ℤ) < 2 ^ (n - 1) := by positivity
  have hmax := value_signedMaxWord (show 0 < n by omega) h false
  rw [greatest_false] at hmax ⊢
  have hwithin : Within false 0 (2 ^ (n - 1) - 1) (signedPart src n)
      (single (signedMaxWord w n)) := by
    rintro u (hu | hu)
    · have hle := ((contains_signedPart_iff hn h hsrc hflat u).mp hu).1
      rw [greatest_false] at hle
      have hbound := SInt.value_true_bounds u
      rw [← value_true_eq_value_false_of_le hwpos (by omega)]
      omega
    · rw [(contains_single_iff hw).mp hu, hmax]
      omega
  have hbounds := bounds_unionWith hw (valid_signedPart hw hsrc) (valid_single hw _) hwithin hv
  rw [value_true_of_nonneg hwpos hbounds.1]
  exact hbounds.2

theorem conversionHeld_ncU2SInner (hn : 1 < n) (h : n ≤ w) (hflat : src.Unwrapped true)
    (ov : OverflowStrategy) : ConversionHeld src (ncU2SInner src n ov) true false ov := by
  intro x z hx hz
  have hw : 1 < w := by omega
  have hwpos : 0 < w := by omega
  have hsrc := valid_of_contains hx
  have hpart := contains_signedPart_iff hn h hsrc hflat
  have hlow := (SInt.value_true_bounds x).1
  have hleast := least_nonpos n false
  have hkept : ∀ v, (signedPart src n).contains v = true → value true v ≤ greatest n false :=
    fun v hv => ((hpart v).mp hv).1
  rw [ncU2SInner_eq, if_neg (by rw [isEmptySet_eq_false_of_contains hwpos hx]; simp)]
  by_cases hrep : value true x ≤ greatest n false
  · have hin := (hpart x).mpr ⟨hrep, hx⟩
    rw [bringBack_of_representable ⟨by omega, hrep⟩, ← SInt.trunc_eq_ofInt] at hz
    obtain rfl := Option.some.inj hz
    split_ifs with _ _ hsame
    · exact contains_narrowTo hn h hkept hin
    · exact contains_narrowTo hn h
        (fun v hv => bounds_signedPart_unionWith hn h hsrc hflat hv)
        (contains_unionWith hw (valid_signedPart hw hsrc) (valid_single hw _) _ (Or.inl hin))
    · subst hsame
      rw [SInt.trunc_eq_ofInt, ofInt_value]
      exact hx
    · exact contains_full _
  · have hchanged : ¬(signedPart src n = src ∨ ov = .THROWING) := by
      rintro (heq | rfl)
      · exact hrep (hkept x (heq.symm ▸ hx))
      · exact hrep (representable_of_bringBack hz (by simp) (by simp)).1.2
    rw [if_neg hchanged]
    by_cases hsat : ov = .SATURATING
    · subst hsat
      rw [if_pos rfl]
      have hz' : z = (signedMaxWord w n).trunc n := by
        rw [SInt.trunc_eq_ofInt, value_signedMaxWord (by omega) h,
          ← clamp_eq_greatest (not_le.mp hrep)]
        exact (Option.some.inj hz).symm
      rw [hz']
      exact contains_narrowTo hn h
        (fun v hv => bounds_signedPart_unionWith hn h hsrc hflat hv)
        (contains_unionWith hw (valid_signedPart hw hsrc) (valid_single hw _) _
          (Or.inr (contains_single hw _)))
    rw [if_neg hsat]
    have hz' := eq_ofInt_of_bringBack hz hsat
    split_ifs with hsame
    · subst hsame
      rw [hz', ofInt_value]
      exact hx
    · exact contains_full z

theorem conversionHeld_U2S (hw : 1 < w) (hn : 1 < n) (src : ConstantRange w)
    (ov : OverflowStrategy) :
    ConversionHeld src (numericConversionU2S src n ov) true false ov := by
  rw [numericConversionU2S]
  by_cases hwider : w < n
  · rw [if_pos hwider]
    intro x z hx hz
    have hrep : Representable n false (value true x) := by
      rw [← SInt.value_false_zExt (by omega) hwider]
      exact value_representable false _
    rw [bringBack_of_representable hrep, ← SInt.zExt_eq_ofInt] at hz
    obtain rfl := Option.some.inj hz
    exact contains_zeroExtend hw hwider hx
  rw [if_neg hwider]
  have hnarrow : n ≤ w := by omega
  by_cases hwrapped : src.isWrappedSet = true
  · rw [if_neg (by rw [hwrapped]; simp)]
    exact conversionHeld_split hw hn _ (fun part => ncU2SInner part n ov)
      (fun hflat => (unwrapped_true_iff src).mp hflat hwrapped)
      (fun part hpart => valid_ncU2SInner_of_le hn hnarrow hpart ov)
      (fun part hflat => conversionHeld_ncU2SInner hn hnarrow hflat ov)
  · rw [if_pos (by rw [Bool.not_eq_true] at hwrapped; rw [hwrapped]; rfl)]
    exact conversionHeld_ncU2SInner hn hnarrow ((unwrapped_true_iff src).mpr hwrapped) ov

end UnsignedToSigned

/-! ### Signed to unsigned -/

/-- The part of a range without negative values. -/
def nonNegPart (src : ConstantRange w) : ConstantRange w :=
  src.intersectWith (from' .GE (SInt.zero w) true) .signed

/-- The part of a signed range that a narrower unsigned destination represents. -/
def unsignedPart (src : ConstantRange w) (n : ℕ) : ConstantRange w :=
  (nonNegPart src).intersectWith (from' .LE ((SInt.uMaxValue n).zExt w) true)

theorem ncS2UInnerTrunc_eq (src : ConstantRange w) (n : ℕ) (ov : OverflowStrategy) :
    ncS2UInnerTrunc src n ov =
      if src.isEmptySet then empty n
      else if unsignedPart src n = src ∨ ov = .THROWING then
        truncWithUpperWrapped (unsignedPart src n) true n
      else if ov = .SATURATING then
        truncWithUpperWrapped
          (unionWhen (decide (unsignedPart src n ≠ nonNegPart src))
            (unionWhen (src.difference (nonNegPart src)).isNotEmptySet (unsignedPart src n)
              (SInt.zero w) .unsigned)
            ((SInt.uMaxValue n).zExt w) .unsigned) true n
      else full n := by
  rw [ncS2UInnerTrunc]
  simp only [unionWhen, decide_eq_true_eq]
  rfl

theorem ncS2UInnerExtend_eq (src : ConstantRange w) (n : ℕ) (ov : OverflowStrategy) :
    ncS2UInnerExtend src n ov =
      if src.isEmptySet then empty n
      else if nonNegPart src = src ∨ ov = .THROWING then widenTo (nonNegPart src) n
      else if ov = .SATURATING then
        widenTo (if (src.difference (nonNegPart src)).isNotEmptySet then
          (nonNegPart src).unionWith (single (SInt.uMinValue w)) else nonNegPart src) n
      else
        unionWith ⟨(src.difference (nonNegPart src)).sMinValue.sExt n,
          (src.difference (nonNegPart src)).sMaxValue.sExt n + 1⟩ (widenTo (nonNegPart src) n)
          .unsigned := rfl

section SignedToUnsigned

variable {src : ConstantRange w}

theorem contains_nonNegFilter_iff (hw : 1 < w) (x : SInt w) :
    (from' .GE (SInt.zero w) true).contains x = true ↔ 0 ≤ value false x := by
  rw [contains_from'_iff hw, Bool.not_true, show value false (SInt.zero w) = 0 from value_zero false]
  exact Iff.rfl

theorem nonNegFilter_unwrapped (hw : 1 < w) : (from' .GE (SInt.zero w) true).Unwrapped false :=
  from'_unwrapped hw (Or.inr rfl) _ rfl

theorem valid_nonNegPart (hw : 1 < w) (hsrc : src.Valid) : (nonNegPart src).Valid :=
  valid_intersectWith _ hsrc (valid_from' hw _ _ _)

theorem contains_nonNegPart (hw : 1 < w) {x : SInt w} (hx : src.contains x = true)
    (hnonneg : 0 ≤ value false x) : (nonNegPart src).contains x = true :=
  contains_intersectWith (by omega) .signed hx ((contains_nonNegFilter_iff hw x).mpr hnonneg)

/-- The signed preference keeps negative values out, also for a range that runs around the end of
the signed reading. -/
theorem nonneg_of_contains_nonNegPart (hw : 1 < w) (hsrc : src.Valid) {x : SInt w}
    (hx : (nonNegPart src).contains x = true) : 0 ≤ value false x := by
  have hwpos : 0 < w := by omega
  have hfilter := contains_nonNegFilter_iff hw (w := w)
  have hflat := nonNegFilter_unwrapped hw (w := w)
  rw [nonNegPart] at hx
  rcases intersectWith_spec hwpos hsrc (valid_from' hw .GE (SInt.zero w) true) .signed with
    hexact | ⟨hres, hin, hin', hne, hfull, hfull'⟩
  · exact (hfilter x).mp ((hexact x).mp hx).2
  -- the filter starts inside the range, which starts inside the filter and so runs around
  have hlower := (hfilter _).mp hin
  have hstart : value false (from' .GE (SInt.zero w) true).lower = 0 := by
    have hzero : (from' .GE (SInt.zero w) true).contains (SInt.zero w) = true :=
      (hfilter _).mpr (show (0 : ℤ) ≤ value false (SInt.zero w) from (value_zero false).ge)
    have hle := value_lower_le_of_unwrapped hwpos hflat hfull' hzero
    have hge := (hfilter _).mp (contains_lower hwpos hzero)
    have hval : value false (SInt.zero w) = 0 := value_zero false
    omega
  have hwrapped : ¬src.Unwrapped false := by
    intro hsrcFlat
    have hle := value_lower_le_of_unwrapped hwpos hsrcFlat hfull hin'
    have heq : value false src.lower = value false (from' .GE (SInt.zero w) true).lower := by omega
    exact hne (value_injective false heq)
  obtain ⟨hpref, hpref'⟩ := getPreferredRange_preferFromBool hwpos hflat hwrapped
  rw [show PreferredRangeType.signed = preferFromBool false from rfl, hpref, hpref', or_self]
    at hres
  rw [show PreferredRangeType.signed = preferFromBool false from rfl, hres] at hx
  exact (hfilter x).mp hx

theorem contains_nonNegPart_iff (hw : 1 < w) (hsrc : src.Valid) (hflat : src.Unwrapped false)
    (x : SInt w) :
    (nonNegPart src).contains x = true ↔ src.contains x = true ∧ 0 ≤ value false x := by
  rw [nonNegPart, contains_intersectWith_iff (by omega) .signed hsrc (valid_from' hw _ _ _) hflat
    (nonNegFilter_unwrapped hw), contains_nonNegFilter_iff hw]

theorem contains_unsignedPart_iff (hn : 1 < n) (h : n < w) (hsrc : src.Valid)
    (hflat : src.Unwrapped false) (x : SInt w) :
    (unsignedPart src n).contains x = true ↔
      src.contains x = true ∧ Representable n true (value false x) := by
  have hw : 1 < w := by omega
  have hwpos : 0 < w := by omega
  have hnonNeg := unwrapped_intersectWith hwpos .signed hsrc (valid_from' hw _ _ _) hflat
    (nonNegFilter_unwrapped hw)
  have hmax : value false ((SInt.uMaxValue n).zExt w) = greatest n true := by
    rw [SInt.value_false_zExt (by omega) h, SInt.value_true_uMaxValue (by omega), greatest_true]
  rw [unsignedPart, contains_intersectWith_iff hwpos .smallest (valid_nonNegPart hw hsrc)
    (valid_from' hw _ _ _) hnonNeg
    (from'_unwrapped hw (Or.inl rfl) _ (show true = !false from rfl)),
    contains_nonNegPart_iff hw hsrc hflat, contains_from'_iff hw, Bool.not_true, hmax,
    Representable, least_true, and_assoc]
  exact Iff.rfl

theorem valid_unsignedPart (hw : 1 < w) (hsrc : src.Valid) : (unsignedPart src n).Valid :=
  valid_intersectWith _ (valid_nonNegPart hw hsrc) (valid_from' hw _ _ _)

theorem valid_ncS2UInnerTrunc (hn : 1 < n) (h : n < w) (hsrc : src.Valid)
    (ov : OverflowStrategy) : (ncS2UInnerTrunc src n ov).Valid := by
  have hw : 1 < w := by omega
  have hpart := valid_unsignedPart (n := n) hw hsrc
  rw [ncS2UInnerTrunc_eq]
  split_ifs
  · exact valid_empty n
  · exact valid_truncWithUpperWrapped hn h hpart true
  · exact valid_truncWithUpperWrapped hn h
      (valid_unionWhen hw (valid_unionWhen hw hpart _ _ _) _ _ _) true
  · exact valid_full n

/-- Values added within given bounds keep a union within them. -/
theorem bounds_unionWhen (hw : 1 < w) {uns : Bool} {res : ConstantRange w} {lo hi : ℤ}
    (hres : res.Valid) (hbounds : ∀ u, res.contains u = true → lo ≤ value uns u ∧ value uns u ≤ hi)
    (changed : Bool) {v : SInt w} (hv : lo ≤ value uns v ∧ value uns v ≤ hi) {u : SInt w}
    (hu : (unionWhen changed res v (preferFromBool uns)).contains u = true) :
    lo ≤ value uns u ∧ value uns u ≤ hi := by
  rw [unionWhen] at hu
  split_ifs at hu
  · refine bounds_unionWith hw hres (valid_single hw v) ?_ hu
    rintro t (ht | ht)
    · exact hbounds t ht
    · rw [(contains_single_iff hw).mp ht]
      exact hv
  · exact hbounds u hu

/-- A non-negative value zero extends to its word. -/
theorem ofInt_value_false_of_nonneg (hw : 0 < w) {x : SInt w} (hx : 0 ≤ value false x) :
    BitVec.ofInt n (value false x) = x.zExt n := by
  rw [SInt.zExt_eq_ofInt, value_true_of_nonneg hw hx]

theorem value_true_greatest_zExt (hn : 0 < n) (h : n ≤ w) :
    value true ((SInt.uMaxValue n).zExt w) = greatest n true :=
  (SInt.value_true_zExt hn h _).trans (SInt.value_true_uMaxValue hn)

theorem bounds_unsignedPart (hn : 1 < n) (h : n < w) (hsrc : src.Valid)
    (hflat : src.Unwrapped false) {v : SInt w} (hv : (unsignedPart src n).contains v = true) :
    0 ≤ value true v ∧ value true v ≤ greatest n true := by
  have hrep := ((contains_unsignedPart_iff hn h hsrc hflat v).mp hv).2
  rw [value_true_of_nonneg (by omega) hrep.1]
  exact hrep

/-- What saturation adds to the representable values is representable. -/
theorem bounds_saturated (hn : 1 < n) (h : n < w) (hsrc : src.Valid)
    (hflat : src.Unwrapped false) (changed changed' : Bool) {v : SInt w}
    (hv : (unionWhen changed' (unionWhen changed (unsignedPart src n) (SInt.zero w) .unsigned)
      ((SInt.uMaxValue n).zExt w) .unsigned).contains v = true) :
    value true v ≤ greatest n true := by
  have hw : 1 < w := by omega
  have hvalid := valid_unsignedPart (n := n) hw hsrc
  have hzero : value true (SInt.zero w) = 0 := value_zero true
  have hmax := value_true_greatest_zExt (show 0 < n by omega) h.le
  have hbounds : ∀ v, (unionWhen changed (unsignedPart src n) (SInt.zero w)
      .unsigned).contains v = true → 0 ≤ value true v ∧ value true v ≤ greatest n true := by
    intro v hv
    refine bounds_unionWhen hw hvalid (fun u hu => bounds_unsignedPart hn h hsrc hflat hu) changed
      ?_ hv
    rw [hzero]
    exact ⟨le_rfl, greatest_nonneg n true⟩
  refine (bounds_unionWhen hw (valid_unionWhen hw hvalid _ _ _) hbounds changed' ?_ hv).2
  rw [hmax]
  exact ⟨greatest_nonneg n true, le_rfl⟩

theorem conversionHeld_ncS2UInnerTrunc (hn : 1 < n) (h : n < w) (hflat : src.Unwrapped false)
    (ov : OverflowStrategy) : ConversionHeld src (ncS2UInnerTrunc src n ov) false true ov := by
  intro x z hx hz
  have hw : 1 < w := by omega
  have hwpos : 0 < w := by omega
  have hpos : (0 : ℤ) < 2 ^ n := by positivity
  have hsrc := valid_of_contains hx
  have hpart := contains_unsignedPart_iff hn h hsrc hflat
  have hnonNeg := contains_nonNegPart_iff hw hsrc hflat x
  have hvalid := valid_unsignedPart (n := n) hw hsrc
  have hzero : value true (SInt.zero w) = 0 := value_zero true
  have hmax := value_true_greatest_zExt (show 0 < n by omega) h.le
  have hbounds := fun v => bounds_unsignedPart hn h hsrc hflat (v := v)
  have hbounds₂ := fun changed changed' v =>
    bounds_saturated hn h hsrc hflat changed changed' (v := v)
  rw [ncS2UInnerTrunc_eq, if_neg (by rw [isEmptySet_eq_false_of_contains hwpos hx]; simp)]
  by_cases hrep : Representable n true (value false x)
  · have hin := (hpart x).mpr ⟨hx, hrep⟩
    rw [bringBack_of_representable hrep, ← SInt.trunc_eq_ofInt_value h.le] at hz
    obtain rfl := Option.some.inj hz
    split_ifs
    · exact contains_truncWithUpperWrapped hn h (fun v hv => (hbounds v hv).2) hin
    · exact contains_truncWithUpperWrapped hn h (hbounds₂ _ _)
        (contains_unionWhen hw (valid_unionWhen hw hvalid _ _ _) _
          (Or.inl (contains_unionWhen hw hvalid _ (Or.inl hin))))
    · exact contains_full _
  have hchanged : ¬(unsignedPart src n = src ∨ ov = .THROWING) := by
    rintro (heq | rfl)
    · exact hrep ((hpart x).mp (heq.symm ▸ hx)).2
    · exact hrep (representable_of_bringBack hz (by simp) (by simp)).1
  rw [if_neg hchanged]
  by_cases hsat : ov = .SATURATING
  swap
  · rw [if_neg hsat]
    exact contains_full z
  subst hsat
  rw [if_pos rfl]
  have hclamp : z = BitVec.ofInt n (clamp n true (value false x)) := (Option.some.inj hz).symm
  rw [Representable, not_and_or, not_le, not_le] at hrep
  rcases hrep with hlow | hhigh
  · have hz' : z = (SInt.zero w).trunc n := by
      rw [hclamp, clamp_eq_least hlow, SInt.trunc_eq_ofInt, hzero, least_true]
    rw [hz']
    refine contains_truncWithUpperWrapped hn h (hbounds₂ _ _)
      (contains_unionWhen hw (valid_unionWhen hw hvalid _ _ _) _
        (Or.inl (contains_unionWhen hw hvalid _ (Or.inr ⟨?_, rfl⟩))))
    exact difference_isNotEmptySet hwpos (valid_nonNegPart hw hsrc) hx
      fun hin => absurd (hnonNeg.mp hin).2 (not_le.mpr hlow)
  · have hz' : z = ((SInt.uMaxValue n).zExt w).trunc n := by
      rw [hclamp, clamp_eq_greatest hhigh, SInt.trunc_eq_ofInt, hmax]
    rw [hz']
    refine contains_truncWithUpperWrapped hn h (hbounds₂ _ _)
      (contains_unionWhen hw (valid_unionWhen hw hvalid _ _ _) _ (Or.inr ⟨?_, rfl⟩))
    rw [decide_eq_true_eq]
    intro heq
    have hnonneg : 0 ≤ value false x := (greatest_nonneg n true).trans hhigh.le
    exact absurd ((hpart x).mp (heq ▸ hnonNeg.mpr ⟨hx, hnonneg⟩)).2.2 (not_le.mpr hhigh)

/-- A range with different bounds ends with an element. -/
theorem contains_upper_sub_one (hw : 1 < w) {r : ConstantRange w} (hne : r.lower ≠ r.upper) :
    r.contains (r.upper - 1) = true := by
  have hvalue : value true r.lower ≠ value true r.upper := fun h => hne (value_injective true h)
  have hpred := value_sub_one_cases hw true r.upper
  have hlower := value_le_greatest true r.lower
  have hlower' := least_le_value true r.lower
  rw [contains_iff (by omega) true]
  omega

/-- What a range has beyond its non-negative part is negative. -/
theorem neg_of_contains_difference (hw : 1 < w) (hsrc : src.Valid) {x : SInt w}
    (hx : (src.difference (nonNegPart src)).contains x = true) : value false x < 0 := by
  have hwpos : 0 < w := by omega
  have hturn := two_pow_eq hwpos
  have hpart := valid_nonNegPart hw hsrc
  have hinverse := contains_inverse hwpos hpart
  have hnonneg (v : SInt w) (hv : src.contains v = true) := contains_nonNegPart hw hv
  have hkept := fun v => nonneg_of_contains_nonNegPart hw hsrc (x := v)
  rw [difference] at hx
  generalize nonNegPart src = part at *
  rcases intersectWith_spec hwpos hsrc (valid_inverse hpart) .smallest with
    hexact | ⟨hres, hin, hin', hne, hfull, hfull'⟩
  · obtain ⟨hxsrc, hxpart⟩ := (hexact x).mp hx
    rw [hinverse] at hxpart
    by_contra hge
    exact hxpart (hnonneg x hxsrc (not_lt.mp hge))
  -- the range is longer than the negative values, which are all of the inverse
  have hends : part.inverse = ⟨part.upper, part.lower⟩ ∧ part.lower ≠ part.upper := by
    have hpartFull : ¬part.isFullSet = true := fun hpf =>
      (hinverse src.lower).mp hin (contains_of_isFullSet hpf _)
    have hpartEmpty : ¬part.isEmptySet = true := by
      intro hpe
      refine hfull' ?_
      rw [inverse, if_neg hpartFull, if_pos hpe]
      exact isFullSet_full w
    refine ⟨by rw [inverse, if_neg hpartFull, if_neg hpartEmpty], fun heq => ?_⟩
    rw [Bool.not_eq_true] at hpartFull hpartEmpty
    exact value_lower_ne_upper true hpart hpartFull hpartEmpty (by rw [heq])
  obtain ⟨hinverseEq, hpartNe⟩ := hends
  have hlowerNeg : value false src.lower < 0 := by
    by_contra hge
    exact (hinverse _).mp hin (hnonneg _ (contains_lower hwpos hin') (not_lt.mp hge))
  have hupperOut := (hinverse _).mp (contains_lower hwpos hin)
  rw [hinverseEq] at hin' hne hupperOut
  dsimp only at hin' hne hupperOut
  have hupperNeg : value false part.upper < 0 := by
    by_contra hge
    exact hupperOut (hnonneg _ hin' (not_lt.mp hge))
  have hupper : value false part.upper = least w false := by
    have hlast := hkept _ (contains_upper_sub_one hw hpartNe)
    rcases value_sub_one_cases hw false part.upper with ⟨-, hpred⟩ | ⟨hleast, -⟩
    · omega
    · exact hleast
  have hlowerNe : value false src.lower ≠ value false part.upper := fun heq =>
    hne (value_injective false heq)
  have hlowerBound := least_le_value false src.lower
  rw [contains_iff hwpos false, or_iff_right hfull] at hin'
  have hwrapped : value false src.upper < value false src.lower := by omega
  have hzeroVal : value false (SInt.zero w) = 0 := value_zero false
  have hzero : part.contains (SInt.zero w) = true := by
    refine hnonneg _ ?_ hzeroVal.ge
    rw [contains_iff_of_gt hwpos false hwrapped]
    omega
  have hpartLower : value false part.lower = 0 := by
    have hge := hkept _ (contains_lower hwpos hzero)
    rw [contains_iff_of_gt hwpos false (by omega)] at hzero
    have hbound := least_le_value false (SInt.zero w)
    omega
  have hlong : (part.inverse.upper - part.inverse.lower).toNat < (src.upper - src.lower).toNat := by
    have hsize := toNat_sub_eq hwpos false part.upper part.lower
    have hsize' := toNat_sub_eq hwpos false src.lower src.upper
    rw [if_pos (by omega)] at hsize
    rw [if_neg (by omega)] at hsize'
    rw [least_false] at *
    rw [hinverseEq]
    dsimp only
    omega
  obtain ⟨hpref, hpref'⟩ := getPreferredRange_smallest
    (by rw [hinverseEq]; exact hpartNe.symm) (fun heq => by rw [heq] at hwrapped; omega) hlong
  rw [hpref, hpref', or_self] at hres
  rw [hres, hinverseEq, contains_iff_of_lt hwpos false (by dsimp only; omega)] at hx
  dsimp only at hx
  omega

/-- The largest element of negative values is negative. -/
theorem sMaxValue_neg (hw : 1 < w) {neg : ConstantRange w}
    (hneg : ∀ v, neg.contains v = true → value false v < 0) {x : SInt w}
    (hx : neg.contains x = true) : value false neg.sMaxValue < 0 := by
  have hwpos : 0 < w := by omega
  have hpos : (0 : ℤ) < 2 ^ (w - 1) := by positivity
  have hmax := SInt.value_false_sMaxValue hwpos
  have htop : ¬neg.contains (SInt.sMaxValue w) = true := by
    intro hin
    have hlt := hneg _ hin
    omega
  have hfull : ¬neg.isFullSet = true := fun hf => htop (contains_of_isFullSet hf _)
  have hwrapped : ¬neg.isUpperSignWrapped = true := by
    rw [isUpperSignWrapped_iff]
    intro hgt
    have hle := value_le_greatest false neg.lower
    refine htop ((contains_iff_of_gt hwpos false hgt _).mpr (Or.inl ?_))
    rwa [hmax, ← greatest_false]
  rw [sMaxValue, if_neg (by simp [hfull, hwrapped])]
  exact hneg _ (contains_upper_sub_one hw (lower_ne_upper_of_contains hx hfull))

/-- The unsigned words of negative values. -/
def negOverflowRange (neg : ConstantRange w) (n : ℕ) : ConstantRange n :=
  ⟨neg.sMinValue.sExt n, neg.sMaxValue.sExt n + 1⟩

theorem contains_negOverflowRange (hw : 1 < w) (h : w ≤ n) {neg : ConstantRange w}
    (hneg : ∀ v, neg.contains v = true → value false v < 0) {x : SInt w}
    (hx : neg.contains x = true) : (negOverflowRange neg n).contains (x.sExt n) = true := by
  have hwpos : 0 < w := by omega
  have hpos : (0 : ℤ) < 2 ^ (n - 1) := by positivity
  have hword := fun v : SInt w => SInt.value_false_sExt hwpos h v
  have hmin : value false neg.sMinValue ≤ value false x := value_minValue_le hwpos false hx
  have hmax : value false x ≤ value false neg.sMaxValue := le_value_maxValue hw false hx
  have hmaxNeg := sMaxValue_neg hw hneg hx
  have hsucc : value false (neg.sMaxValue.sExt n + 1) = value false neg.sMaxValue + 1 := by
    rw [value_add_one (by omega) (by rw [hword, greatest_false]; omega), hword]
  rw [negOverflowRange, contains_iff_of_lt (by omega) false
    (by dsimp only; rw [hword, hsucc]; omega)]
  dsimp only
  rw [hword, hword, hsucc]
  omega

theorem valid_negOverflowRange (hw : 1 < w) (h : w ≤ n) {neg : ConstantRange w}
    (hvalid : neg.Valid) (hneg : ∀ v, neg.contains v = true → value false v < 0) :
    (negOverflowRange neg n).Valid := by
  have hwpos : 0 < w := by omega
  by_cases hempty : neg.isEmptySet = true
  swap
  · obtain ⟨v, hv⟩ := exists_contains_of_valid hwpos hvalid hempty
    exact valid_of_contains (contains_negOverflowRange hw h hneg hv)
  -- the empty set has the smallest value 0
  intro _
  right
  rw [isEmptySet_iff] at hempty
  have hfull : ¬neg.isFullSet = true := by
    have hpow : (1 : ℤ) < 2 ^ w := one_lt_pow₀ (by norm_num) (by omega)
    rw [isFullSet_iff hwpos]
    omega
  have heq : neg.lower = neg.upper := value_injective true hempty.1
  have hwrapped : ¬neg.isSignWrappedSet = true := by
    rw [isSignWrappedSet_iff hwpos, heq]
    exact fun hgt => lt_irrefl _ hgt.1
  have hlower : neg.lower = 0 := value_injective true (hempty.2.trans (value_zero true).symm)
  rw [SInt.isUMinValue_iff, negOverflowRange]
  dsimp only
  rw [sMinValue, if_neg (by simp [hfull, hwrapped]), hlower, SInt.sExt_eq_ofInt]
  rw [show value false (0 : SInt w) = 0 from value_zero false, ofInt_zero]
  rfl

theorem conversionHeld_ncS2UInnerExtend (hw : 1 < w) (h : w ≤ n) (src : ConstantRange w)
    (ov : OverflowStrategy) : ConversionHeld src (ncS2UInnerExtend src n ov) false true ov := by
  intro x z hx hz
  have hn : 1 < n := by omega
  have hwpos : 0 < w := by omega
  have hsrc := valid_of_contains hx
  have hpart := valid_nonNegPart hw hsrc
  have hneg := fun v => neg_of_contains_difference hw hsrc (x := v)
  have hdifference : (src.difference (nonNegPart src)).Valid :=
    valid_intersectWith _ hsrc (valid_inverse hpart)
  have hzero : ∀ t : SInt w, (nonNegPart src).contains t = true ∨ t = SInt.uMinValue w →
      ((nonNegPart src).unionWith (single (SInt.uMinValue w))).contains t = true := by
    rintro t ht
    refine contains_unionWith hw hpart (valid_single hw _) _ ?_
    rwa [contains_single_iff hw]
  have hunion : ∀ t : SInt n, (negOverflowRange (src.difference (nonNegPart src)) n).contains t =
      true ∨ (widenTo (nonNegPart src) n).contains t = true →
      (unionWith (negOverflowRange (src.difference (nonNegPart src)) n)
        (widenTo (nonNegPart src) n) .unsigned).contains t = true := fun t ht =>
    contains_unionWith hn (valid_negOverflowRange hw h hdifference hneg)
      (valid_widenTo hw h hpart) .unsigned ht
  rw [ncS2UInnerExtend_eq, if_neg (by rw [isEmptySet_eq_false_of_contains hwpos hx]; simp)]
  by_cases hnonneg : 0 ≤ value false x
  · have hin := contains_nonNegPart hw hx hnonneg
    have hrep : Representable n true (value false x) := by
      have hpow := SInt.two_pow_le h
      have hbound := SInt.value_true_bounds x
      rw [value_true_of_nonneg hwpos hnonneg] at hbound
      exact ⟨hnonneg, by rw [greatest_true]; omega⟩
    rw [bringBack_of_representable hrep, ofInt_value_false_of_nonneg hwpos hnonneg] at hz
    obtain rfl := Option.some.inj hz
    split_ifs
    · exact contains_widenTo hw h hin
    · exact contains_widenTo hw h (hzero x (Or.inl hin))
    · exact contains_widenTo hw h hin
    · exact hunion _ (Or.inr (contains_widenTo hw h hin))
  have hout : ¬(nonNegPart src).contains x = true := fun hin =>
    hnonneg (nonneg_of_contains_nonNegPart hw hsrc hin)
  have hin : (src.difference (nonNegPart src)).contains x = true :=
    contains_intersectWith hwpos .smallest hx ((contains_inverse hwpos hpart x).mpr hout)
  have hchanged : ¬(nonNegPart src = src ∨ ov = .THROWING) := by
    rintro (heq | rfl)
    · exact hout (heq.symm ▸ hx)
    · exact hnonneg (representable_of_bringBack hz (by simp) (by simp)).1.1
  rw [if_neg hchanged]
  by_cases hsat : ov = .SATURATING
  · subst hsat
    have hz' : z = (SInt.uMinValue w).zExt n := by
      rw [SInt.zExt_eq_ofInt, SInt.value_uMinValue, ← least_true n,
        ← clamp_eq_least (show value false x < least n true from not_le.mp hnonneg)]
      exact (Option.some.inj hz).symm
    rw [if_pos rfl, if_pos (difference_isNotEmptySet hwpos hpart hx hout), hz']
    exact contains_widenTo hw h (hzero _ (Or.inr rfl))
  · rw [if_neg hsat, eq_ofInt_of_bringBack hz hsat, ← SInt.sExt_eq_ofInt]
    exact hunion _ (Or.inl (contains_negOverflowRange hw h hneg hin))

theorem conversionHeld_S2U (hw : 1 < w) (hn : 1 < n) (src : ConstantRange w)
    (ov : OverflowStrategy) :
    ConversionHeld src (numericConversionS2U src n ov) false true ov := by
  rw [numericConversionS2U]
  by_cases hnarrow : n < w
  · rw [if_pos hnarrow]
    by_cases hwrapped : src.isSignWrappedSet = true
    · rw [if_pos hwrapped]
      exact conversionHeld_split hw hn _ (fun part => ncS2UInnerTrunc part n ov)
        (fun hflat => (unwrapped_false_iff (by omega) src).mp hflat hwrapped)
        (fun part hpart => valid_ncS2UInnerTrunc hn hnarrow hpart ov)
        (fun part hflat => conversionHeld_ncS2UInnerTrunc hn hnarrow hflat ov)
    · rw [if_neg hwrapped]
      exact conversionHeld_ncS2UInnerTrunc hn hnarrow
        ((unwrapped_false_iff (by omega) src).mpr hwrapped) ov
  · rw [if_neg hnarrow]
    exact conversionHeld_ncS2UInnerExtend hw (by omega) src ov

end SignedToUnsigned

/-- A conversion between any two integer types holds the results of converting the elements of
its range. -/
theorem conversionHeld_numericConversion (hw : 1 < w) (hn : 1 < n) (src : ConstantRange w)
    (srcUns dstUns : Bool) (ov : OverflowStrategy) :
    ConversionHeld src (numericConversion src n srcUns dstUns ov) srcUns dstUns ov := by
  rw [numericConversion]
  cases srcUns with
  | true =>
    cases dstUns with
    | true => exact conversionHeld_sameSigness hw hn src true ov
    | false => exact conversionHeld_U2S hw hn src ov
  | false =>
    cases dstUns with
    | true => exact conversionHeld_S2U hw hn src ov
    | false => exact conversionHeld_sameSigness hw hn src false ov

end Cangjie.CHIR
