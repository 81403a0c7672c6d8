import CangjieCompiler.CHIR.Analysis.ConstantRange.Remainder
import CangjieCompiler.CHIR.Analysis.SIntDomain.Meaning

/-!
# Soundness of comparison folding

A comparison of two variables is folded when their numeric ranges decide it, or a bound of one
against the other, or their bounds against a common symbol.  In every case the two compared
integers are the two operands moved by the same amount, so one lemma about ranges serves all.
-/

namespace Cangjie.CHIR

open FixedWidth ConstantRange CompareResult

variable {w : ℕ}

/-! ## Comparison of ranges -/

/-- The relation is one of the four orders. -/
def RelationalOperation.IsOrder (rel : RelationalOperation) : Prop := rel ≠ .EQ ∧ rel ≠ .NE

theorem holds_relationalNeg_iff (rel : RelationalOperation) (a b : ℤ) :
    (relationalNeg rel).Holds a b ↔ ¬rel.Holds a b := by
  cases rel with
  | LT => exact not_lt.symm
  | LE => exact not_le.symm
  | GT => exact not_lt.symm
  | GE => exact not_le.symm
  | EQ => exact Iff.rfl
  | NE => exact not_not.symm

theorem isOrder_relationalNeg {rel : RelationalOperation} (h : rel.IsOrder) :
    (relationalNeg rel).IsOrder := by
  cases rel with
  | EQ => exact absurd rfl h.1
  | NE => exact absurd rfl h.2
  | _ => exact ⟨by decide, by decide⟩

theorem holds_symbolicNeg_iff (rel : RelationalOperation) (a b : ℤ) :
    (symbolicNeg rel).Holds a b ↔ rel.Holds b a := by
  cases rel with
  | EQ => exact eq_comm
  | NE => exact ne_comm
  | _ => exact Iff.rfl

theorem isOrder_symbolicNeg {rel : RelationalOperation} (h : rel.IsOrder) :
    (symbolicNeg rel).IsOrder := by
  cases rel with
  | EQ => exact absurd rfl h.1
  | NE => exact absurd rfl h.2
  | _ => exact ⟨by decide, by decide⟩

/-- The relations survive moving both sides. -/
theorem holds_sub_iff (rel : RelationalOperation) (a b c : ℤ) :
    rel.Holds (a - c) (b - c) ↔ rel.Holds a b := by
  cases rel with
  | LT => exact sub_lt_sub_iff_right c
  | LE => exact sub_le_sub_iff_right c
  | GT => exact sub_lt_sub_iff_right c
  | GE => exact sub_le_sub_iff_right c
  | EQ => exact sub_left_inj
  | NE => exact not_congr sub_left_inj

section Ranges

variable {a b : ConstantRange w} {x y : SInt w} {uns : Bool}

theorem bounds_of_contains (hw : 1 < w) (uns : Bool) (hx : a.contains x = true) :
    value uns (if uns then a.uMinValue else a.sMinValue) ≤ value uns x ∧
      value uns x ≤ value uns (if uns then a.uMaxValue else a.sMaxValue) := by
  cases uns with
  | true => exact unsigned_bounds hw hx
  | false => exact signed_bounds hw hx

theorem unlessExp_eq_true {exp : Bool} (h : unlessExp exp ≠ UNO) :
    unlessExp exp = TRUE ∧ exp = true := by
  cases exp with
  | true => exact ⟨rfl, rfl⟩
  | false => exact absurd rfl h

/-- A partial comparison decides positively, and rightly so for all elements. -/
theorem partialCompare_sound (hw : 1 < w) {rel : RelationalOperation} (hrel : rel.IsOrder)
    (h : partialCompare rel a b uns ≠ UNO) (hx : a.contains x = true)
    (hy : b.contains y = true) :
    partialCompare rel a b uns = TRUE ∧ rel.Holds (value uns x) (value uns y) := by
  obtain ⟨hxlo, hxhi⟩ := bounds_of_contains hw uns hx
  obtain ⟨hylo, hyhi⟩ := bounds_of_contains hw uns hy
  unfold partialCompare at h ⊢
  generalize (if uns = true then a.isWrappedSet || b.isWrappedSet
    else a.isSignWrappedSet || b.isSignWrappedSet) = wrapped at h ⊢
  cases wrapped with
  | true => exact absurd rfl h
  | false => ?_
  rw [if_neg Bool.false_ne_true] at h ⊢
  cases rel with
  | EQ => exact absurd rfl hrel.1
  | NE => exact absurd rfl hrel.2
  | LT =>
    obtain ⟨htrue, hexp⟩ := unlessExp_eq_true h
    refine ⟨htrue, ?_⟩
    cases uns with
    | true => exact hxhi.trans_lt ((SInt.ult_iff.mp hexp).trans_le hylo)
    | false => exact hxhi.trans_lt ((SInt.slt_iff.mp hexp).trans_le hylo)
  | LE =>
    obtain ⟨htrue, hexp⟩ := unlessExp_eq_true h
    refine ⟨htrue, ?_⟩
    cases uns with
    | true => exact hxhi.trans ((SInt.ule_iff.mp hexp).trans hylo)
    | false => exact hxhi.trans ((SInt.sle_iff.mp hexp).trans hylo)
  | GE =>
    obtain ⟨htrue, hexp⟩ := unlessExp_eq_true h
    refine ⟨htrue, ?_⟩
    cases uns with
    | true => exact hyhi.trans ((SInt.uge_iff.mp hexp).trans hxlo)
    | false => exact hyhi.trans ((SInt.sge_iff.mp hexp).trans hxlo)
  | GT =>
    obtain ⟨htrue, hexp⟩ := unlessExp_eq_true h
    refine ⟨htrue, ?_⟩
    cases uns with
    | true => exact hyhi.trans_lt ((SInt.ugt_iff.mp hexp).trans_le hxlo)
    | false => exact hyhi.trans_lt ((SInt.sgt_iff.mp hexp).trans_le hxlo)

/-- A decided comparison of two ranges is right for all their elements. -/
theorem compareRanges_sound (hw : 1 < w) {rel : RelationalOperation} (hrel : rel.IsOrder)
    (h : compareRanges rel a b uns ≠ UNO) (hx : a.contains x = true)
    (hy : b.contains y = true) :
    (compareRanges rel a b uns).toBool = true ↔ rel.Holds (value uns x) (value uns y) := by
  unfold compareRanges at h ⊢
  split_ifs at h ⊢ with hempty hfull
  · exact absurd rfl h
  · exact absurd rfl h
  rw [unlessBothUnordered] at h ⊢
  split_ifs at h ⊢ with hdirect
  · obtain ⟨htrue, hholds⟩ := partialCompare_sound hw hrel hdirect hx hy
    rw [htrue]
    exact iff_of_true rfl hholds
  · have hneg : partialCompare (relationalNeg rel) a b uns ≠ UNO := by
      intro huno
      rw [huno] at h
      exact h rfl
    obtain ⟨htrue, hholds⟩ := partialCompare_sound hw (isOrder_relationalNeg hrel) hneg hx hy
    rw [htrue]
    exact iff_of_false Bool.false_ne_true ((holds_relationalNeg_iff rel _ _).mp hholds)

theorem decided_eq_some {r : CompareResult} {d : BoolDomain} (h : decided r = some d) :
    r ≠ UNO ∧ d.getSingleValue = r.toBool := by
  rw [decided] at h
  split_ifs at h with hne
  obtain rfl := Option.some.inj h
  exact ⟨hne, BoolDomain.getSingleValue_fromBool _⟩

/-- A decision taken on two integers that differ from the operands by the same amount. -/
theorem decided_signed_sound (hw : 1 < w) {rel : RelationalOperation} (hrel : rel.IsOrder)
    {d : BoolDomain} {m n : ℤ} (h : decided (compareRanges rel a b false) = some d)
    (hm : SignedMember m a) (hn : SignedMember n b) :
    d.getSingleValue = true ↔ rel.Holds m n := by
  obtain ⟨hne, hval⟩ := decided_eq_some h
  obtain ⟨x, rfl, hx⟩ := hm.exists_word (by omega)
  obtain ⟨y, rfl, hy⟩ := hn.exists_word (by omega)
  rw [hval]
  exact compareRanges_sound hw hrel hne hx hy

end Ranges

/-! ## Comparison of domains -/

section Domains

variable {args : CHIRRelIntBinopArgs w} {σ : PtrSymbol → ℤ}

/-- The bounds of a domain hold for the value of its symbol. -/
theorem SIntDomain.Describes.bound {uns : Bool} {d : SIntDomain w} {x : ℤ}
    (h : d.Describes uns σ x) {s : PtrSymbol} {B : ConstantRange w}
    (hfind : d.findSymbolicBound s = some B) : SignedMember (x - σ s) B :=
  h.2 s B ((OrderedMap.find?_eq_some_iff _).mp hfind)

theorem signedMember_single_zero (hw : 1 < w) : SignedMember 0 (single (0 : SInt w)) := by
  have h := (signedMember_value (0 : SInt w) (single 0)).mpr (contains_single hw 0)
  rwa [show value false (0 : SInt w) = 0 from value_zero false] at h

theorem SIntDomain.Describes.isBottom_eq_false (hw : 0 < w) {uns : Bool} {d : SIntDomain w}
    {x : ℤ} (h : d.Describes uns σ x) : d.isBottom = false := by
  obtain ⟨⟨v, hv, -⟩, -⟩ := h
  exact isEmptySet_eq_false_of_contains hw hv

/-- What a step of a comparison answers, if it answers, is the truth value of a statement. -/
def Justified (P : Prop) (answer : Option BoolDomain) : Prop :=
  ∀ d, answer = some d → (d.getSingleValue = true ↔ P)

theorem justified_none (P : Prop) : Justified P none := fun _ h => absurd h (by simp)

theorem Justified.or {P : Prop} {first second : Option BoolDomain} (h₁ : Justified P first)
    (h₂ : Justified P second) : Justified P (first.or second) := by
  intro d hd
  cases first with
  | none => exact h₂ d hd
  | some d' => exact h₁ d hd

/-- Without an answer nothing is excluded. -/
theorem Justified.getD_top {P : Prop} {answer : Option BoolDomain} (h : Justified P answer)
    (hsingle : (answer.getD BoolDomain.top).isSingleValue = true) :
    (answer.getD BoolDomain.top).getSingleValue = true ↔ P := by
  cases answer with
  | none => exact absurd hsingle (by decide)
  | some d => exact h d rfl

theorem Justified.of_nonTrivial {P : Prop} {answer : Option BoolDomain} (h : Justified P answer) :
    Justified P (if (answer.getD BoolDomain.top).isNonTrivial = true then
      some (answer.getD BoolDomain.top) else none) := by
  cases answer with
  | none => exact justified_none P
  | some d =>
    rw [Option.getD_some]
    split_ifs
    · exact h
    · exact justified_none P

/-- An answer found through a bound is justified if it is for every bound that holds. -/
theorem justified_bind_bound {uns : Bool} {d : SIntDomain w} {x : ℤ} {s : PtrSymbol} {P : Prop}
    (hd : d.Describes uns σ x) {f : ConstantRange w → Option BoolDomain}
    (hf : ∀ B, SignedMember (x - σ s) B → Justified P (f B)) :
    Justified P ((d.findSymbolicBound s).bind f) := by
  cases hfind : d.findSymbolicBound s with
  | none => exact justified_none P
  | some B => exact hf B (hd.bound hfind)

/-- An answer found against a common symbol is justified if it is for any two bounds that hold. -/
theorem justified_firstCommon {uns : Bool} {ia ib : SIntDomain w} {x y : ℤ} {P : Prop}
    (ha : ia.Describes uns σ x) (hb : ib.Describes uns σ y)
    {f : ConstantRange w → ConstantRange w → Option BoolDomain}
    (hf : ∀ s sa sb, SignedMember (x - σ s) sa → SignedMember (y - σ s) sb →
      Justified P (f sa sb)) :
    Justified P (OrderedMap.firstCommon f ia.symbolics.entries ib.symbolics.entries) := by
  intro d hd
  obtain ⟨s, sa, sb, hmemA, hmemB, hdec⟩ := OrderedMap.firstCommon_eq_some hd
  exact hf s sa sb (ha.2 s sa hmemA) (hb.2 s sb hmemB) d hdec

/-- The four order relations. -/
theorem computeTotalOrderingIntBinop_sound (hw : 1 < w) {rel : RelationalOperation}
    (hrel : rel.IsOrder) (hl : args.ld.Describes args.uns σ (σ args.l))
    (hr : args.rd.Describes args.uns σ (σ args.r))
    (hsingle : (computeTotalOrderingIntBinop args rel).isSingleValue = true) :
    (computeTotalOrderingIntBinop args rel).getSingleValue = true ↔
      rel.Holds (σ args.l) (σ args.r) := by
  have hwpos : 0 < w := by omega
  have hzero := signedMember_single_zero hw
  unfold computeTotalOrderingIntBinop at hsingle ⊢
  dsimp only at hsingle ⊢
  rw [hl.isBottom_eq_false hwpos, hr.isBottom_eq_false hwpos, Bool.or_self,
    if_neg Bool.false_ne_true] at hsingle ⊢
  refine Justified.getD_top (Justified.or (Justified.or (Justified.or ?_ ?_) ?_) ?_) hsingle
  · intro d hd
    obtain ⟨⟨x, hx, hxval⟩, -⟩ := hl
    obtain ⟨⟨y, hy, hyval⟩, -⟩ := hr
    obtain ⟨hne, hval⟩ := decided_eq_some hd
    rw [hval, ← hxval, ← hyval]
    exact compareRanges_sound hw hrel hne hx hy
  · refine justified_bind_bound hl fun B hB d hd => ?_
    rw [decided_signed_sound hw hrel hd hB hzero, ← holds_sub_iff rel (σ args.l) _ (σ args.r),
      sub_self]
  · refine justified_bind_bound hr fun B hB d hd => ?_
    rw [decided_signed_sound hw (isOrder_symbolicNeg hrel) hd hB hzero, holds_symbolicNeg_iff,
      ← holds_sub_iff rel _ (σ args.r) (σ args.l), sub_self]
  · refine justified_firstCommon hl hr fun s sa sb hsa hsb d hd => ?_
    rw [decided_signed_sound hw hrel hd hsa hsb, holds_sub_iff]

/-! ### Equality -/

/-- The relation asked for, equality or its negation. -/
def AskedEquality (cne : Bool) (a b : ℤ) : Prop := if cne then a ≠ b else a = b

theorem askedEquality_sub_iff (cne : Bool) (a b c : ℤ) :
    AskedEquality cne (a - c) (b - c) ↔ AskedEquality cne a b := by
  simp only [AskedEquality, sub_left_inj, ne_eq]

theorem askedEquality_comm (cne : Bool) (a b : ℤ) :
    AskedEquality cne a b ↔ AskedEquality cne b a := by
  simp only [AskedEquality, ne_eq, eq_comm]

/-- A comparison of words answers for the integers they stand for. -/
theorem justified_equality {cne eq : Bool} {m n : ℤ} (h : eq = true ↔ m = n) :
    Justified (AskedEquality cne m n) (some (BoolDomain.fromBool (eq != cne))) := by
  intro d hd
  obtain rfl := Option.some.inj hd
  rw [BoolDomain.getSingleValue_fromBool, AskedEquality]
  cases cne with
  | true => simp [← h]
  | false => simp [← h]

/-- Two integers that can never be equal. -/
theorem justified_different {cne : Bool} {m n : ℤ} (h : m ≠ n) :
    Justified (AskedEquality cne m n) (some (BoolDomain.fromBool cne)) := by
  have hfalse : Justified (AskedEquality cne m n) (some (BoolDomain.fromBool (false != cne))) :=
    justified_equality (iff_of_false Bool.false_ne_true h)
  rwa [Bool.false_bne] at hfalse

/-- The element of a range of one element stands for every integer the range holds. -/
theorem value_getSingleElement (hw : 1 < w) {B : ConstantRange w} {m : ℤ}
    (hB : B.isSingleElement = true) (hm : SignedMember m B) :
    value false B.getSingleElement = m := by
  obtain ⟨v, rfl, hv⟩ := hm.exists_word (by omega)
  rw [getSingleElement_eq hw hB hv]

theorem justified_singleElement (hw : 1 < w) {cne : Bool} {B : ConstantRange w} {m : ℤ}
    (hB : B.isSingleElement = true) (hm : SignedMember m B) :
    Justified (AskedEquality cne m 0)
      (some (BoolDomain.fromBool ((B.getSingleElement == 0) != cne))) := by
  refine justified_equality ?_
  rw [beq_iff_eq, SInt.eq_iff_value_eq false, value_getSingleElement hw hB hm]
  exact Eq.congr_right (value_zero false)

theorem justified_compareTransitiveBounds (hw : 1 < w) {cne : Bool} {sa sb : ConstantRange w}
    {m n : ℤ} (hm : SignedMember m sa) (hn : SignedMember n sb) :
    Justified (AskedEquality cne m n) (compareTransitiveBounds cne sa sb) := by
  have hwpos : 0 < w := by omega
  rw [compareTransitiveBounds]
  split_ifs with hboth hempty
  · rw [Bool.and_eq_true] at hboth
    refine justified_equality ?_
    rw [beq_iff_eq, SInt.eq_iff_value_eq false, value_getSingleElement hw hboth.1 hm,
      value_getSingleElement hw hboth.2 hn]
  · refine justified_different fun heq => ?_
    have hcommon := contains_intersectWith hwpos .signed hm.2 (heq ▸ hn.2)
    exact not_contains_of_isEmptySet hwpos hempty _ hcommon
  · exact justified_none _

/-- The two equality relations. -/
theorem computeEqualityIntBinop_sound (hw : 1 < w) {uns : Bool} {ia ib : SIntDomain w}
    {a b : PtrSymbol} {cne : Bool} (ha : ia.Describes uns σ (σ a)) (hb : ib.Describes uns σ (σ b))
    (hsingle : (computeEqualityIntBinop ia ib a b cne).isSingleValue = true) :
    (computeEqualityIntBinop ia ib a b cne).getSingleValue = true ↔
      AskedEquality cne (σ a) (σ b) := by
  have hwpos : 0 < w := by omega
  obtain ⟨x, hx, hxval⟩ := ha.1
  obtain ⟨y, hy, hyval⟩ := hb.1
  unfold computeEqualityIntBinop at hsingle ⊢
  rw [ha.isBottom_eq_false hwpos, hb.isBottom_eq_false hwpos, Bool.or_self,
    if_neg Bool.false_ne_true] at hsingle ⊢
  split_ifs at hsingle ⊢ with hboth hempty
  · rw [Bool.and_eq_true] at hboth
    refine justified_equality ?_ _ rfl
    rw [beq_iff_eq, getSingleElement_eq hw hboth.1 hx, getSingleElement_eq hw hboth.2 hy,
      SInt.eq_iff_value_eq uns, hxval, hyval]
  · refine justified_different (fun heq => ?_) _ rfl
    have hword : x = y := value_injective uns (by rw [hxval, hyval, heq])
    exact not_contains_of_isEmptySet hwpos hempty x
      (contains_intersectWith hwpos _ hx (hword ▸ hy))
  -- the symbolic bounds
  have hmoved : AskedEquality cne (σ a) (σ b) ↔ AskedEquality cne (σ a - σ b) 0 := by
    rw [← askedEquality_sub_iff cne (σ a) (σ b) (σ b), sub_self]
  have hmoved' : AskedEquality cne (σ a) (σ b) ↔ AskedEquality cne (σ b - σ a) 0 := by
    rw [askedEquality_comm, ← askedEquality_sub_iff cne (σ b) (σ a) (σ a), sub_self]
  refine Justified.getD_top (Justified.or (Justified.or ?_ ?_) ?_) hsingle
  · refine justified_bind_bound ha fun B hB => ?_
    rw [hmoved]
    split_ifs with hone
    · exact justified_singleElement hw hone hB
    · exact justified_none _
  · refine justified_bind_bound hb fun B hB => ?_
    rw [hmoved']
    split_ifs with hone hzero
    · exact justified_singleElement hw hone hB
    · refine justified_different fun heq => ?_
      rw [Bool.not_eq_true'] at hzero
      rw [heq] at hB
      exact absurd (hB.2.symm.trans hzero) (by simp)
    · exact justified_none _
  · refine Justified.of_nonTrivial (justified_firstCommon ha hb fun s sa sb hsa hsb => ?_)
    rw [← askedEquality_sub_iff cne (σ a) (σ b) (σ s)]
    exact justified_compareTransitiveBounds hw hsa hsb

/-- What a relation asks of two equal or different integers. -/
theorem holds_iff_askedEquality {op : BinaryExprKind} {rel : RelationalOperation}
    (hop : relationalFrom op = some rel) (hrel : rel = .EQ ∨ rel = .NE) (m n : ℤ) :
    rel.Holds m n ↔ AskedEquality (op == .NOTEQUAL) m n := by
  rcases hrel with rfl | rfl
  · have heq : op = .EQUAL := by
      cases op <;> first | rfl | exact absurd hop (by decide)
    rw [heq]
    exact Iff.rfl
  · have hne : op = .NOTEQUAL := by
      cases op <;> first | rfl | exact absurd hop (by decide)
    rw [hne]
    exact Iff.rfl

theorem computeRelIntBinop_sound_of_lt (hw : 1 < w) {rel : RelationalOperation} {d : BoolDomain}
    (hdistinct : args.l ≠ args.r) (hop : relationalFrom args.op = some rel)
    (hl : args.ld.Describes args.uns σ (σ args.l))
    (hr : args.rd.Describes args.uns σ (σ args.r)) (hd : computeRelIntBinop args = some d)
    (hsingle : d.isSingleValue = true) :
    d.getSingleValue = decide (rel.Holds (σ args.l) (σ args.r)) := by
  rw [computeRelIntBinop, if_neg hdistinct, hop, Option.map_some] at hd
  obtain rfl := Option.some.inj hd
  rw [Bool.eq_iff_iff, decide_eq_true_iff]
  split_ifs at hsingle ⊢ with heq
  · rw [holds_iff_askedEquality hop heq]
    exact computeEqualityIntBinop_sound hw hl hr hsingle
  · rw [not_or] at heq
    exact computeTotalOrderingIntBinop_sound hw heq hl hr hsingle

end Domains

/-- A comparison folded to one Boolean has that truth value in every state that both domains
describe. -/
theorem computeRelIntBinop_sound (width : IntWidth) (args : CHIRRelIntBinopArgs width.bits)
    (hdistinct : args.l ≠ args.r) (rel : RelationalOperation)
    (hop : relationalFrom args.op = some rel) (σ : PtrSymbol → ℤ)
    (hl : args.ld.Describes args.uns σ (σ args.l))
    (hr : args.rd.Describes args.uns σ (σ args.r)) (d : BoolDomain)
    (hd : computeRelIntBinop args = some d) (hsingle : d.isSingleValue = true) :
    d.getSingleValue = decide (rel.Holds (σ args.l) (σ args.r)) :=
  computeRelIntBinop_sound_of_lt (by cases width <;> decide) hdistinct hop hl hr hd hsingle

/-- The bound `2:[-3, 0)` of the left operand against the right one decides that it is smaller. -/
theorem computeRelIntBinop_sound_bound :
    BoolDomain.getSingleValue .T = decide (RelationalOperation.LT.Holds 5 7) :=
  computeRelIntBinop_sound .I8
    ⟨⟨⟨0, 100⟩, OrderedMap.empty.emplace 2 ⟨253, 0⟩, false⟩, .ofNumeric ⟨0, 100⟩ false, 1, 2, .LT,
      false⟩
    (by decide) .LT rfl (fun s => if s = 1 then 5 else 7)
    ⟨⟨5, by decide, by decide⟩, fun s B hmem => by
      obtain ⟨rfl, rfl⟩ := Prod.mk.inj (List.mem_singleton.mp hmem)
      decide⟩
    ⟨⟨7, by decide, by decide⟩, fun s B hmem => absurd hmem List.not_mem_nil⟩ .T (by decide)
    (by decide)

end Cangjie.CHIR
