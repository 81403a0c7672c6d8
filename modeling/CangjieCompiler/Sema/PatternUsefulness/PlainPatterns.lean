import CangjieCompiler.Sema.PatternUsefulness.Meaning

/-!
# Plain patterns

The search compares a pattern with the rows one by one.  Hence it cannot see that several type
patterns cover another one, that an or-pattern in a row covers a constructor, or that the literals
in the rows are all values of their type.  A tuple of wildcards in a row is dropped where the heads
of all rows are taken to be wildcards.

Over plain rows a constructor that no row covers makes a value that no row matches, if the types
have enough values.
-/

namespace Cangjie.PatternUsefulness

variable {Ty : Type} {T : PatternTypes Ty}

/-! ## Plain patterns -/

namespace DestructedPattern

/-- There are no type patterns and no invalid patterns inside. -/
inductive Simple : DestructedPattern Ty → Prop
  | mk {p} (htype : ∀ ty, p.ctor ≠ .TYPE ty) (hinvalid : p.ctor ≠ .INVALID)
    (hsub : ∀ q ∈ p.subPatterns, Simple q) : Simple p

/-- There are no or-patterns and no tuples of wildcards inside either. -/
inductive Plain : DestructedPattern Ty → Prop
  | mk {p} (htype : ∀ ty, p.ctor ≠ .TYPE ty) (hinvalid : p.ctor ≠ .INVALID)
    (hor : ∀ n, p.ctor ≠ .OR n) (htuple : ∀ n, p.ctor = .TUPLE n → p.allWildcard = false)
    (hsub : ∀ q ∈ p.subPatterns, Plain q) : Plain p

lemma Plain.simple {p : DestructedPattern Ty} (h : p.Plain) : p.Simple := by
  induction h with
  | mk htype hinvalid _ _ _ ih => exact .mk htype hinvalid ih

lemma Plain.not_or {p : DestructedPattern Ty} (h : p.Plain) : ∀ n, p.ctor ≠ .OR n := by
  obtain ⟨-, -, hor, -, -⟩ := h
  exact hor

lemma simple_wildcard (ty : Ty) : (wildcard ty).Simple :=
  .mk (fun _ => nofun) nofun fun _ hq => absurd hq List.not_mem_nil

lemma simple_wildcardTuple (typeArgs : List Ty) (ty : Ty) :
    (wildcardTuple typeArgs ty).Simple := by
  refine .mk (fun _ => nofun) nofun fun q hq => ?_
  obtain ⟨argTy, -, rfl⟩ := List.mem_map.mp hq
  exact simple_wildcard argTy

lemma plain_wildcard (ty : Ty) : (wildcard ty).Plain :=
  .mk (fun _ => nofun) nofun (fun _ => nofun) (fun _ => nofun)
    fun _ hq => absurd hq List.not_mem_nil

lemma ctor_of_allWildcard {p : DestructedPattern Ty} (h : p.allWildcard = true) (hp : p.Plain) :
    p.ctor = .WILDCARD := by
  cases hp with
  | mk _ _ _ htuple _ =>
    obtain ⟨ctor, subPatterns, goalTy, node⟩ := p
    cases ctor with
    | WILDCARD => rfl
    | TUPLE n => exact absurd h (by rw [htuple n rfl]; simp)
    | _ => exact absurd h (by simp [allWildcard])

/-- What wildcards and the arguments of a pattern satisfy is satisfied after specialization. -/
lemma forall_specialize {P : DestructedPattern Ty → Prop} (hwild : ∀ ty, P (wildcard ty))
    {p : DestructedPattern Ty} (hsub : ∀ q ∈ p.subPatterns, P q) (ctor : Constructor Ty) :
    ∀ q ∈ p.specialize T ctor, P q := by
  have hwilds (tys : List Ty) : ∀ q ∈ tys.map wildcard, P q := by
    intro q hq
    obtain ⟨ty, -, rfl⟩ := List.mem_map.mp hq
    exact hwild ty
  unfold specialize
  split
  · cases ctor with
    | TUPLE numArgs => exact hwilds _
    | ENUM c => exact hwilds _
    | _ => exact fun _ hq => absurd hq List.not_mem_nil
  · exact hsub

end DestructedPattern

def PatternStack.Simple (s : PatternStack Ty) : Prop := ∀ p ∈ s.columns, p.Simple

def Matrix.Plain (m : Matrix Ty) : Prop := ∀ row ∈ m.rows, ∀ p ∈ row.columns, p.Plain

lemma PatternStack.mem_columns_of_head {s : PatternStack Ty} {head : DestructedPattern Ty}
    (h : s.head? = some head) : head ∈ s.columns := by
  rw [columns_eq_cons h]
  exact List.mem_cons_self

lemma PatternStack.Simple.specialize {s s' : PatternStack Ty} {head : DestructedPattern Ty}
    {ctor : Constructor Ty} (h : s.Simple) (hhead : s.head? = some head)
    (hs' : s.specialize T ctor = some s') : s'.Simple := by
  intro p hp
  rw [columns_specialize T hhead hs'] at hp
  rcases List.mem_append.mp hp with hp | hp
  · cases h head (mem_columns_of_head hhead) with
    | mk _ _ hsub =>
      exact DestructedPattern.forall_specialize DestructedPattern.simple_wildcard hsub ctor p hp
  · exact h p (List.mem_of_mem_tail hp)

/-- A stack with another head is simple if the head is. -/
lemma PatternStack.Simple.replace {s s' : PatternStack Ty} {head : DestructedPattern Ty}
    (h : s.Simple) (hs' : s'.columns = head :: s.columns.tail) (hhead : head.Simple) :
    s'.Simple := by
  intro p hp
  rw [hs'] at hp
  rcases List.mem_cons.mp hp with rfl | hp
  · exact hhead
  · exact h p (List.mem_of_mem_tail hp)

lemma PatternStack.Simple.expandOr {s : PatternStack Ty} {head : DestructedPattern Ty}
    (h : s.Simple) (hhead : s.head? = some head) : ∀ s' ∈ s.expandOr, s'.Simple := by
  intro s' hs'
  obtain ⟨-, -, hsub⟩ := h head (mem_columns_of_head hhead)
  obtain ⟨p, hp, rfl⟩ := (mem_expandOr hhead).mp hs'
  exact h.replace (s.columns_replaceHead p) (hsub p hp)

lemma Matrix.Plain.specialize {m m' : Matrix Ty} {ctor : Constructor Ty} {ty : Ty}
    {tys : List Ty} (h : m.Plain) (hm : m.Typed T (ty :: tys)) (hfits : ctor.Fits T ty)
    (hm' : m.specialize T ctor = some m') : m'.Plain := by
  obtain ⟨m'', hm'', -, hrows⟩ := Matrix.specialize_typed hm hfits
  obtain rfl := Option.some.inj (hm'.symm.trans hm'')
  intro row' hrow' p hp
  obtain ⟨row, hrow, hspecialized⟩ := (hrows row').mp hrow'
  obtain ⟨head, hhead, -, hspecialize⟩ := mem_specializedRow.mp hspecialized
  rw [PatternStack.columns_specialize T hhead hspecialize] at hp
  rcases List.mem_append.mp hp with hp | hp
  · cases h row hrow head (PatternStack.mem_columns_of_head hhead) with
    | mk _ _ _ _ hsub =>
      exact DestructedPattern.forall_specialize DestructedPattern.plain_wildcard hsub ctor p hp
  · exact h row hrow p (List.mem_of_mem_tail hp)

/-! ## Values outside of a matrix -/

namespace ValueModel

variable (V : ValueModel T)

/-- The types of some columns and of their fields have values, those without a shape have values
beyond every list of literals, and literals that are not equal have different values. -/
structure Ample (S : Ty → Prop) : Prop where
  fields : ∀ ty, S ty → ∀ ctor : Constructor Ty, ctor.Proper T ty →
    ∀ argTy ∈ ctor.argTypes T ty, S argTy
  inhabited : ∀ ty, S ty → ∃ x, HasType V x ty
  fresh : ∀ ty, S ty → T.shape ty = .OTHER → ∀ lits : List LitConstExpr,
    ∃ x, HasType V x ty ∧ ∀ lit ∈ lits, x ≠ .object (V.literalValue lit)
  separate : ∀ ty, S ty → ∀ lit other, T.acceptsLiteral lit ty → T.acceptsLiteral other ty →
    V.literalValue lit = V.literalValue other → lit = other

end ValueModel

section

variable {V : ValueModel T} {ty : Ty} {x : Value V.Obj} {args : List (Value V.Obj)}

/-- The fields of a constructor make up a value of the type. -/
lemma exists_built {S : Ty → Prop} (hample : V.Ample S) (hS : S ty) {ctor : Constructor Ty}
    (h : ctor.Proper T ty)
    (hargs : List.Forall₂ (HasType V) args (ctor.argTypes T ty)) (lits : List LitConstExpr) :
    ∃ x, HasType V x ty ∧ ctor.Builds V x args ∧
      (ctor = .MISSING → ∀ lit ∈ lits, x ≠ .object (V.literalValue lit)) := by
  cases ctor with
  | UNIT =>
    exact ⟨.unit, .unit h, ⟨rfl, List.forall₂_nil_right_iff.mp hargs⟩, by simp⟩
  | BOOLEAN val =>
    exact ⟨.bool val, .bool h, ⟨rfl, List.forall₂_nil_right_iff.mp hargs⟩, by simp⟩
  | NON_EXHAUSTIVE_LITERAL lit =>
    exact ⟨.object (V.literalValue lit), .other h.1 (V.literal lit ty h.2),
      ⟨rfl, List.forall₂_nil_right_iff.mp hargs⟩, by simp⟩
  | ENUM c =>
    obtain ⟨ctors, isNonExhaustive, hshape, hc⟩ := h
    exact ⟨.enum c.key args, .enum hshape hc hargs, rfl, by simp⟩
  | NON_EXHAUSTIVE_ENUM =>
    obtain ⟨ctors, hshape⟩ := h
    exact ⟨.hidden, .hidden hshape, ⟨rfl, List.forall₂_nil_right_iff.mp hargs⟩, by simp⟩
  | TUPLE n =>
    obtain ⟨typeArgs, hshape, -⟩ := h
    simp only [Constructor.argTypes, PatternTypes.typeArgs, hshape] at hargs
    exact ⟨.tuple args, .tuple hshape hargs, rfl, by simp⟩
  | MISSING =>
    obtain ⟨x, hx, hfresh⟩ := hample.fresh ty hS h lits
    exact ⟨x, hx, List.forall₂_nil_right_iff.mp hargs, fun _ => hfresh⟩
  | _ => exact h.elim

/-- The constructor of a simple pattern makes values of the type. -/
lemma DestructedPattern.Simple.proper {p : DestructedPattern Ty} (hsimple : p.Simple)
    (hp : p.Typed T ty) (hwild : p.ctor ≠ .WILDCARD) (hor : ∀ n, p.ctor ≠ .OR n) :
    p.ctor.Proper T ty := by
  obtain ⟨htype, hinvalid, -⟩ := hsimple
  cases hp with
  | wildcard => exact absurd rfl hwild
  | missing h => exact h
  | unit h => exact h
  | boolean h => exact h
  | literal h hlit => exact ⟨h, hlit⟩
  | nonExhaustiveEnum h => exact ⟨_, h⟩
  | enum h hctor _ => exact ⟨_, _, h, hctor⟩
  | tuple h _ => exact ⟨_, h, rfl⟩
  | type => exact absurd rfl (htype _)
  | or _ => exact absurd rfl (hor _)
  | invalid => exact absurd rfl hinvalid

/-- Two constructors that make the same value cover each other, unless one is a literal and the
other is the constructor of the missing literals. -/
lemma isCoveredBy_of_builds {c d : Constructor Ty} {args' : List (Value V.Obj)}
    (hc : c.Proper T ty) (hd : d.Proper T ty) (hx : c.Builds V x args) (hx' : d.Builds V x args')
    (hfresh : c = .MISSING → ∀ lit, d = .NON_EXHAUSTIVE_LITERAL lit →
      x ≠ .object (V.literalValue lit))
    (hseparate : ∀ lit other, T.acceptsLiteral lit ty → T.acceptsLiteral other ty →
      V.literalValue lit = V.literalValue other → lit = other) : c.isCoveredBy T d = true := by
  cases d with
  | MISSING => cases c <;> rfl
  | UNIT => cases c <;> simp_all [Constructor.Proper, Constructor.Builds, Constructor.isCoveredBy]
  | BOOLEAN val =>
    cases c <;> simp_all [Constructor.Proper, Constructor.Builds, Constructor.isCoveredBy]
  | NON_EXHAUSTIVE_LITERAL lit =>
    cases c with
    | NON_EXHAUSTIVE_LITERAL other =>
      have hsame := Value.object.inj (hx.1.symm.trans hx'.1)
      exact decide_eq_true (hseparate other lit hc.2 hd.2 hsame)
    | _ => simp_all [Constructor.Proper, Constructor.Builds]
  | ENUM ctor =>
    cases c <;> simp_all [Constructor.Proper, Constructor.Builds, Constructor.isCoveredBy]
  | NON_EXHAUSTIVE_ENUM =>
    cases c <;> simp_all [Constructor.Proper, Constructor.Builds, Constructor.isCoveredBy]
  | TUPLE n =>
    cases c <;> simp_all [Constructor.Proper, Constructor.Builds, Constructor.isCoveredBy]
  | _ => exact hd.elim

/-- A plain pattern that does not cover a constructor matches none of its values. -/
lemma not_matches_of_not_covered {p : DestructedPattern Ty} {ctor : Constructor Ty}
    (hplain : p.Plain) (hp : p.Typed T ty) (h : ctor.Proper T ty)
    (hbuilds : ctor.Builds V x args) (hnot : ctor.isCoveredBy T p.ctor = false)
    (hfresh : ctor = .MISSING → ∀ lit, p.ctor = .NON_EXHAUSTIVE_LITERAL lit →
      x ≠ .object (V.literalValue lit))
    (hseparate : ∀ lit other, T.acceptsLiteral lit ty → T.acceptsLiteral other ty →
      V.literalValue lit = V.literalValue other → lit = other) : ¬Matches V p x := by
  intro hmatch
  have hor := hplain.not_or
  have hwild : p.ctor ≠ .WILDCARD := by
    intro hkind
    rw [hkind] at hnot
    exact absurd hnot (by cases ctor <;> simp [Constructor.isCoveredBy])
  obtain ⟨args', hbuilds', -⟩ := (matches_iff_builds hp hor).mp hmatch
  have hcover := isCoveredBy_of_builds h (hplain.simple.proper hp hwild hor) hbuilds hbuilds' hfresh
    hseparate
  rw [hcover] at hnot
  exact absurd hnot Bool.true_eq_false.mp

end

end Cangjie.PatternUsefulness
