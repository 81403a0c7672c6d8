import CangjieCompiler.CHIR.Analysis.ConstantRange.Asserted

/-!
# What the changes of width keep

The result of an extension is described by its bounds in the reading that the extension keeps.  It
is the image of the range, unless the range runs around the end of the number line in that reading;
then it is the image of the whole narrower type.  A truncation only encloses the image.
-/

namespace Cangjie.CHIR.ConstantRange

open FixedWidth

variable {w n : ℕ}

/-- The range consists of the images of the words with the property. -/
def IsImage (f : SInt w → SInt n) (P : SInt w → Prop) (res : ConstantRange n) : Prop :=
  ∀ y, res.contains y = true ↔ ∃ x, P x ∧ f x = y

/-- The range contains the image of every word with the property. -/
def Encloses (f : SInt w → SInt n) (P : SInt w → Prop) (res : ConstantRange n) : Prop :=
  ∀ x, P x → res.contains (f x) = true

/-- What an extension makes of a range: its image, or that of the whole type when the range runs
around the end of the number line. -/
structure IsExtension (f : SInt w → SInt n) (r : ConstantRange w) (wrapped : Bool)
    (res : ConstantRange n) : Prop where
  encloses : Encloses f (fun x => r.contains x = true) res
  image : wrapped = false → IsImage f (fun x => r.contains x = true) res
  whole : wrapped = true → IsImage f (fun _ => True) res

/-! ## Images of intervals -/

section Interval

variable {uns : Bool} {f : SInt w → SInt n}

lemma IsImage.encloses {P : SInt w → Prop} {res : ConstantRange n} (h : IsImage f P res) :
    Encloses f P res :=
  fun x hx => (h (f x)).mpr ⟨x, hx, rfl⟩

lemma IsImage.congr {P Q : SInt w → Prop} {res : ConstantRange n} (h : IsImage f P res)
    (hPQ : ∀ x, P x ↔ Q x) : IsImage f Q res := by
  have heq : P = Q := funext fun x => propext (hPQ x)
  exact heq ▸ h

lemma isImage_empty (hw : 0 < w) (hn : 0 < n) {r : ConstantRange w} (h : r.isEmptySet = true) :
    IsImage f (fun x => r.contains x = true) (empty n) :=
  fun y => ⟨fun hy => absurd hy (not_contains_empty hn y),
    fun ⟨x, hx, _⟩ => absurd hx (not_contains_of_isEmptySet hw h x)⟩

/-- A function that keeps a reading maps the words between two bounds to the words between
them. -/
lemma isImage_of_bounds (hw : 0 < w) (hn : 0 < n) {P : SInt w → Prop} {lo up : SInt n}
    (hf : ∀ x, value uns (f x) = value uns x) (hlt : value uns lo < value uns up)
    (hlo : least w uns ≤ value uns lo) (hup : value uns up ≤ greatest w uns + 1)
    (hP : ∀ x, P x ↔ value uns lo ≤ value uns x ∧ value uns x < value uns up) :
    IsImage f P ⟨lo, up⟩ := by
  intro y
  rw [contains_iff_of_lt hn uns hlt]
  dsimp only
  constructor
  · rintro ⟨hlow, hhigh⟩
    have hvalue : value uns (BitVec.ofInt w (value uns y)) = value uns y :=
      value_ofInt hw ⟨hlo.trans hlow, by omega⟩
    refine ⟨BitVec.ofInt w (value uns y), ?_, ?_⟩
    · rw [hP, hvalue]
      exact ⟨hlow, hhigh⟩
    · exact value_injective uns ((hf _).trans hvalue)
  · rintro ⟨x, hx, rfl⟩
    rw [hf]
    exact (hP x).mp hx

lemma isImage_all (uns : Bool) (hw : 0 < w) (hn : 0 < n) {lo up : SInt n}
    (hf : ∀ x, value uns (f x) = value uns x) (hlo : value uns lo = least w uns)
    (hup : value uns up = greatest w uns + 1) : IsImage f (fun _ => True) ⟨lo, up⟩ := by
  have hzero := value_representable uns (0 : SInt w)
  rw [Representable] at hzero
  refine isImage_of_bounds hw hn hf (by omega) hlo.ge hup.le fun x => iff_of_true trivial ?_
  have hx := value_representable uns x
  rw [Representable] at hx
  omega

/-- The bounds of an interval may be extended, when an upper bound at the start of the number line
is read as its end. -/
lemma isImage_of_unwrapped (hw : 0 < w) (hn : 0 < n) {r : ConstantRange w} {up : SInt n}
    (hf : ∀ x, value uns (f x) = value uns x) (hr : r.Unwrapped uns) (hne : r.lower ≠ r.upper)
    (hup : value uns up =
      if value uns r.upper = least w uns then greatest w uns + 1 else value uns r.upper) :
    IsImage f (fun x => r.contains x = true) ⟨f r.lower, up⟩ := by
  have hvalue : value uns r.lower ≠ value uns r.upper := fun h => hne (value_injective uns h)
  have hlow := value_representable uns r.lower
  have hupp := value_representable uns r.upper
  rw [Representable] at hlow hupp
  have hunwrapped := hr
  rw [Unwrapped, or_iff_left hne] at hunwrapped
  refine isImage_of_bounds hw hn hf ?_ ?_ ?_ fun x => ?_
  · rw [hf, hup]
    split_ifs <;> omega
  · rw [hf]
    exact hlow.1
  · rw [hup]
    split_ifs <;> omega
  · have hx := value_representable uns x
    rw [Representable] at hx
    rw [contains_iff_of_unwrapped hw hr hne, hf, hup]
    split_ifs <;> omega

lemma lower_ne_upper_of_valid {r : ConstantRange w} (hr : r.Valid) (hfull : ¬ r.isFullSet = true)
    (hempty : ¬ r.isEmptySet = true) : r.lower ≠ r.upper := by
  rw [Bool.not_eq_true] at hfull hempty
  exact fun h => value_lower_ne_upper true hr hfull hempty (congrArg (value true) h)

end Interval

/-! ## Extensions -/

lemma isImage_zExt_all (hw : 0 < w) (h : w < n) :
    IsImage (fun x : SInt w => x.zExt n) (fun _ => True) ⟨0, SInt.getOneBitSet n w⟩ :=
  isImage_all true hw (by omega) (SInt.value_true_zExt hw h.le)
    (by rw [least_true]; exact value_zero true)
    (by rw [SInt.value_true_getOneBitSet h, greatest_true]; ring)

theorem isExtension_zeroExtend (hw : 1 < w) (h : w < n) {r : ConstantRange w} (hr : r.Valid) :
    IsExtension (fun x : SInt w => x.zExt n) r r.isWrappedSet (r.zeroExtend n) := by
  have hwpos : 0 < w := by omega
  refine ⟨fun x => contains_zeroExtend hw h, fun hwrapped => ?_, fun hwrapped => ?_⟩
  · rw [zeroExtend, hwrapped, Bool.or_false]
    by_cases hempty : r.isEmptySet = true
    · rw [if_pos hempty]
      exact isImage_empty hwpos (by omega) hempty
    rw [if_neg hempty]
    by_cases hfull : r.isFullSet = true
    · rw [if_pos hfull]
      exact (isImage_zExt_all hwpos h).congr fun x =>
        iff_of_true trivial (contains_of_isFullSet hfull x)
    rw [if_neg hfull]
    have hne := lower_ne_upper_of_valid hr hfull hempty
    have hunwrapped : r.Unwrapped true := by rw [unwrapped_true_iff, hwrapped]; simp
    have hzero : r.upper.isUMinValue = true ↔ value true r.upper = least w true := by
      rw [SInt.isUMinValue_iff, SInt.eq_iff_value_eq true, SInt.value_uMinValue, least_true]
    split_ifs with hupper
    · refine isImage_of_unwrapped hwpos (by omega) (SInt.value_true_zExt hwpos h.le) hunwrapped hne ?_
      rw [if_pos (hzero.mp hupper), SInt.value_true_getOneBitSet h, greatest_true]
      ring
    · refine isImage_of_unwrapped hwpos (by omega) (SInt.value_true_zExt hwpos h.le) hunwrapped hne ?_
      rw [if_neg fun heq => hupper (hzero.mpr heq), SInt.value_true_zExt hwpos h.le]
  · have hnonempty : ¬ r.isEmptySet = true := by
      rw [isWrappedSet_iff] at hwrapped
      rw [isEmptySet_iff]
      omega
    rw [zeroExtend, if_neg hnonempty, hwrapped, Bool.or_true, if_pos rfl]
    exact isImage_zExt_all hwpos h

lemma isImage_sExt_all (hw : 1 < w) (h : w < n) :
    IsImage (fun x : SInt w => x.sExt n) (fun _ => True)
      ⟨SInt.getHighBitsSet n ((n - w) + 1), SInt.getLowBitsSet n (w - 1) + 1⟩ :=
  isImage_all false (by omega) (by omega) (SInt.value_false_sExt (by omega) h.le)
    (by rw [SInt.value_false_getHighBitsSet (by omega) h, least_false])
    (by rw [SInt.value_false_getLowBitsSet_succ hw h, greatest_false]; ring)

theorem isExtension_signExtend (hw : 1 < w) (h : w < n) {r : ConstantRange w} (hr : r.Valid) :
    IsExtension (fun x : SInt w => x.sExt n) r r.isSignWrappedSet (r.signExtend n) := by
  have hwpos : 0 < w := by omega
  refine ⟨fun x => contains_signExtend hw h, fun hwrapped => ?_, fun hwrapped => ?_⟩
  · rw [signExtend, hwrapped, Bool.or_false]
    by_cases hempty : r.isEmptySet = true
    · rw [if_pos hempty]
      exact isImage_empty hwpos (by omega) hempty
    rw [if_neg hempty]
    by_cases hfull : r.isFullSet = true
    · rw [if_pos hfull]
      exact (isImage_sExt_all hw h).congr fun x =>
        iff_of_true trivial (contains_of_isFullSet hfull x)
    rw [if_neg hfull]
    have hne := lower_ne_upper_of_valid hr hfull hempty
    have hunwrapped : r.Unwrapped false := by rw [unwrapped_false_iff hwpos, hwrapped]; simp
    have hmin : r.upper.isSMinValue = true ↔ value false r.upper = least w false := by
      rw [SInt.isSMinValue_iff, SInt.eq_iff_value_eq false, SInt.value_false_sMinValue hwpos,
        least_false]
    split_ifs with hupper
    · refine isImage_of_unwrapped hwpos (by omega) (SInt.value_false_sExt hwpos h.le) hunwrapped
        hne ?_
      rw [if_pos (hmin.mp hupper), SInt.value_false_zExt hwpos h,
        SInt.isSMinValue_iff.mp hupper, SInt.value_true_sMinValue hwpos, greatest_false]
      ring
    · refine isImage_of_unwrapped hwpos (by omega) (SInt.value_false_sExt hwpos h.le) hunwrapped
        hne ?_
      rw [if_neg fun heq => hupper (hmin.mpr heq), SInt.value_false_sExt hwpos h.le]
  · have hnonempty : ¬ r.isEmptySet = true := by
      rw [isSignWrappedSet_iff hwpos] at hwrapped
      rw [isEmptySet_iff]
      rintro ⟨heq, -⟩
      exact absurd (congrArg (value false) (value_injective true heq)) hwrapped.1.ne'
    rw [signExtend, if_neg hnonempty, hwrapped, Bool.or_true, if_pos rfl]
    exact isImage_sExt_all hw h

/-! ## All changes of width -/

namespace Asserted

/-- Between any two widths, a truncation of a legal range is a range and encloses its image; an
extension is a range and is the image, or for a range that runs around the end of the number line
the image of the whole type. -/
theorem widthChanges_sound (width width' : IntWidth) (R : ConstantRange width.bits)
    (hR : R.Valid) :
    (width'.bits < width.bits → ∃ res, truncate R width'.bits = some res ∧
      Encloses (fun x : SInt width.bits => x.trunc width'.bits)
        (fun x => R.contains x = true) res) ∧
    (width.bits < width'.bits →
      (∃ res, zeroExtend R width'.bits = some res ∧
        IsExtension (fun x : SInt width.bits => x.zExt width'.bits) R R.isWrappedSet res) ∧
      ∃ res, signExtend R width'.bits = some res ∧
        IsExtension (fun x : SInt width.bits => x.sExt width'.bits) R R.isSignWrappedSet res) := by
  have hw := width.two_lt_bits
  have hn := width'.two_lt_bits
  constructor
  · intro hlt
    exact ⟨_, truncate_eq (by omega) hlt R hR, fun x => contains_truncate (by omega) hlt⟩
  · intro hlt
    exact ⟨⟨_, zeroExtend_eq (by omega) hlt hR, isExtension_zeroExtend (by omega) hlt hR⟩,
      _, signExtend_eq (by omega) hlt hR, isExtension_signExtend (by omega) hlt hR⟩

/-- The range from `126` around the end to `-3` in eight bits. -/
theorem widthChanges_sound_wrapped :
    ∃ res, signExtend (⟨126, 254⟩ : ConstantRange IntWidth.I8.bits) IntWidth.I16.bits = some res ∧
      IsExtension (fun x : SInt IntWidth.I8.bits => x.sExt IntWidth.I16.bits) ⟨126, 254⟩ true
        res :=
  ((widthChanges_sound .I8 .I16 ⟨126, 254⟩ (by decide)).2 (by decide)).2

end Asserted

end Cangjie.CHIR.ConstantRange
