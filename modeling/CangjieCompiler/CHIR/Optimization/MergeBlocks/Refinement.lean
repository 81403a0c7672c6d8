import CangjieCompiler.CHIR.Optimization.MergeBlocks.Rules

/-!
# The rules keep the meaning

What a change of the code has to keep, seen from the entry block: what is executed, the marks of
for-in blocks that are reached, and what such blocks go on to.  Each rule keeps it.
-/

namespace Cangjie.CHIR.MergeBlocks

open IR IR.BlockGroup

variable {ε X : Type}

/-! ## What a rule keeps -/

/-- A block goes on to another one with a GoTo. -/
def GoesOn (codes : Codes ε X) (x y : BlockId) : Prop :=
  ∃ c, codes.find? x = some c ∧ c.control = some (.GOTO y)

/-- Every expression that is executed from a block before a terminator other than GoTo is plain. -/
def PlainFrom (plain : X → Prop) (codes : Codes ε X) (b : BlockId) : Prop :=
  ∀ x, Relation.ReflTransGen (GoesOn codes) b x → ∀ c, codes.find? x = some c →
    ∀ e ∈ c.exprs, plain e

/-- A change of the code that keeps what matters from the entry block on. -/
structure Refines (entry : BlockId) (codes codes' : Codes ε X) : Prop where
  terminated : ∀ {y c'}, codes'.find? y = some c' → c'.control ≠ none
  exprs : ∀ {y c' e}, codes'.find? y = some c' → e ∈ c'.exprs →
    ∃ x c, codes.find? x = some c ∧ e ∈ c.exprs
  edges : ∀ {x y}, EdgeIn codes' x y → codes.find? y ≠ none → ∃ x', EdgeIn codes x' y
  marked : ∀ {y c'}, codes'.find? y = some c' → c'.generatedFromForIn = true →
    ∃ c, codes.find? y = some c ∧ c.generatedFromForIn = true
  reached : ∀ {y c'}, codes'.find? y = some c' → c'.generatedFromForIn = true →
    Relation.ReflTransGen (EdgeIn codes) entry y → Relation.ReflTransGen (EdgeIn codes') entry y
  plain : ∀ {y c'} {plain : X → Prop}, codes'.find? y = some c' →
    c'.generatedFromForIn = true → PlainFrom plain codes y → PlainFrom plain codes' y
  same : SameFrom Eq codes codes' entry

/-- The steps along a path are matched from related blocks. -/
lemma exists_lift {codes codes' : Codes ε X} {related : BlockId → BlockId → Prop}
    (hstep : ∀ {x x' y}, related x x' → EdgeIn codes x y →
      ∃ y', related y y' ∧ Relation.ReflTransGen (EdgeIn codes') x' y') {e e' y : BlockId}
    (he : related e e') (h : Relation.ReflTransGen (EdgeIn codes) e y) :
    ∃ y', related y y' ∧ Relation.ReflTransGen (EdgeIn codes') e' y' := by
  induction h with
  | refl => exact ⟨e', he, .refl⟩
  | tail _ hedge ih =>
    obtain ⟨x', hx, hpath⟩ := ih
    obtain ⟨y', hy, hpath'⟩ := hstep hx hedge
    exact ⟨y', hy, hpath.trans hpath'⟩

lemma Executed.same_eq (a : Executed ε X) : Executed.Same Eq a a := by
  cases a with
  | expression e => exact .expression rfl
  | terminator label => exact .terminator label

/-! ## Merging into the predecessor -/

section Merge

variable {codes : Codes ε X} {b pred : BlockId} {c cp : Code ε X}

lemma SingleEntry.not_mem (h : SingleEntry codes b pred c cp) {x : BlockId} {cx : Code ε X}
    (hx : codes.find? x = some cx) (hne : x ≠ pred) : b ∉ cx.successors :=
  fun hb => hne (h.only x ⟨cx, hx, hb⟩)

lemma find?_mergedCodes (h : SingleEntry codes b pred c cp) (y : BlockId) :
    (mergedCodes codes b pred c).find? y =
      if y = b then none else if y = pred then some (Code.followedBy c cp) else codes.find? y := by
  rw [mergedCodes, OrderedMap.find?_erase, OrderedMap.find?_modify]
  split_ifs with hb hp
  · rfl
  · rw [hp, h.predCode]
    rfl
  · rfl

/-- Where the original execution and the one after the rule are at the same time. -/
inductive MergedPoint (b : BlockId) (c : Code ε X) : Point ε X → Point ε X → Prop
  | same {p : Point ε X} (h : ∀ k, p.control = some k → b ∉ k.successors) : MergedPoint b c p p
  | into (es : List X) (os : ℕ → ℕ) :
    MergedPoint b c ⟨es, some (.GOTO b), os⟩ ⟨es ++ c.exprs, c.control, os⟩

lemma MergedPoint.of_code {cx : Code ε X} (h : b ∉ cx.successors) (os : ℕ → ℕ) :
    MergedPoint b c (cx.point os) (cx.point os) := by
  refine .same fun k hk => ?_
  have hk' : cx.control = some k := hk
  rwa [Code.successors, hk'] at h

/-- The points at the beginning of a block that both groups have. -/
lemma MergedPoint.block (h : SingleEntry codes b pred c cp) {d : BlockId} {cd : Code ε X}
    (hd : codes.find? d = some cd) (hdb : d ≠ b) :
    ∃ cd', (mergedCodes codes b pred c).find? d = some cd' ∧
      ∀ os, MergedPoint b c (cd.point os) (cd'.point os) := by
  rw [find?_mergedCodes h, if_neg hdb]
  by_cases hp : d = pred
  · rw [if_pos hp]
    refine ⟨_, rfl, fun os => ?_⟩
    rw [hp, h.predCode] at hd
    obtain rfl := Option.some.inj hd
    have hpoint : cp.point os = ⟨cp.exprs, some (.GOTO b), os⟩ := by rw [Code.point, h.goTo]
    rw [hpoint]
    exact .into cp.exprs os
  · rw [if_neg hp]
    exact ⟨cd, hd, fun os => .of_code (h.not_mem hd hp) os⟩

lemma MergedPoint.block_back (h : SingleEntry codes b pred c cp) {d : BlockId} {cd' : Code ε X}
    (hd : (mergedCodes codes b pred c).find? d = some cd') :
    ∃ cd, codes.find? d = some cd ∧ ∀ os, MergedPoint b c (cd.point os) (cd'.point os) := by
  have hdb : d ≠ b := by
    rintro rfl
    rw [find?_mergedCodes h, if_pos rfl] at hd
    exact absurd hd (Option.some_ne_none _).symm
  have hlive : codes.find? d ≠ none := by
    intro hnone
    rw [find?_mergedCodes h, if_neg hdb] at hd
    split_ifs at hd with hp
    · rw [hp, h.predCode] at hnone
      exact absurd hnone (Option.some_ne_none _)
    · rw [hnone] at hd
      exact absurd hd (Option.some_ne_none _).symm
  obtain ⟨cd, hcd⟩ := Option.ne_none_iff_exists'.mp hlive
  obtain ⟨cd'', hd'', hpoints⟩ := MergedPoint.block h hcd hdb
  rw [hd] at hd''
  obtain rfl := Option.some.inj hd''
  exact ⟨cd, hcd, hpoints⟩

lemma simulates_merged (h : SingleEntry codes b pred c cp) (hne : b ≠ pred) :
    Simulates (Step codes) (Step (mergedCodes codes b pred c)) (Executed.Same Eq)
      (MergedPoint b c) where
  silent := by
    intro p p' t hp hstep
    cases hstep with
    | goTo hd =>
      cases hp with
      | same hnot =>
        have hdb := List.ne_of_not_mem_cons (hnot _ rfl)
        obtain ⟨cd', hd', hpoints⟩ := MergedPoint.block h hd hdb.symm
        exact ⟨_, .single (.goTo hd'), hpoints _⟩
      | into =>
        -- the block itself is next, and its code is already there
        rw [h.blockCode] at hd
        obtain rfl := Option.some.inj hd
        exact ⟨_, .refl, .of_code (h.not_mem h.blockCode hne) _⟩
  visible := by
    intro p p' a t hp hstep
    cases hstep with
    | expression =>
      cases hp with
      | same hnot => exact ⟨_, _, _, .refl, .expression, Executed.same_eq _, .same hnot⟩
      | into es os => exact ⟨_, _, _, .refl, .expression, Executed.same_eq _, .into _ _⟩
    | branch hs hd =>
      cases hp with
      | same hnot =>
        have hdb := ne_of_mem_of_not_mem (List.mem_of_getElem? hs) (hnot _ rfl)
        obtain ⟨cd', hd', hpoints⟩ := MergedPoint.block h hd hdb
        exact ⟨_, _, _, .refl, .branch hs hd', Executed.same_eq _, hpoints _⟩
    | last hs =>
      cases hp with
      | same hnot =>
        refine ⟨_, _, _, .refl, .last hs, Executed.same_eq _, .same fun k hk => ?_⟩
        exact absurd hk (Option.some_ne_none k).symm

/-- Following the execution after the rule from a point that is the same. -/
lemma simulates_merged_back (h : SingleEntry codes b pred c cp) (hne : b ≠ pred) :
    Simulates (Step (mergedCodes codes b pred c)) (Step codes) (fun a' a => Executed.Same Eq a a')
      fun p' p => MergedPoint b c p p' := by
  have hsilent : ∀ {p t}, Step (mergedCodes codes b pred c) p none t →
      ∃ t', Silent (Step codes) p t' ∧ MergedPoint b c t' t := by
    intro p t hstep
    cases hstep with
    | goTo hd =>
      obtain ⟨cd, hcd, hpoints⟩ := MergedPoint.block_back h hd
      exact ⟨_, .single (.goTo hcd), hpoints _⟩
  have hvisible : ∀ {p a t}, Step (mergedCodes codes b pred c) p (some a) t →
      (∀ k, p.control = some k → b ∉ k.successors) →
      ∃ u' t', Silent (Step codes) p u' ∧ Step codes u' (some a) t' ∧ MergedPoint b c t' t := by
    intro p a t hstep hnot
    cases hstep with
    | expression => exact ⟨_, _, .refl, .expression, .same hnot⟩
    | branch hs hd =>
      obtain ⟨cd, hcd, hpoints⟩ := MergedPoint.block_back h hd
      exact ⟨_, _, .refl, .branch hs hcd, hpoints _⟩
    | last hs =>
      refine ⟨_, _, .refl, .last hs, .same fun k hk => ?_⟩
      exact absurd hk (Option.some_ne_none k).symm
  -- at the end of the predecessor the original execution goes on to the block first
  have hinto : ∀ os, Silent (Step codes) ⟨[], some (.GOTO b), os⟩ (c.point os) :=
    fun os => .single (.goTo h.blockCode)
  have hnotC : ∀ k, c.control = some k → b ∉ k.successors := by
    intro k hk
    have hb := h.not_mem h.blockCode hne
    rwa [Code.successors, hk] at hb
  constructor
  · intro p' p t hp hstep
    cases hp with
    | same hnot => exact hsilent hstep
    | into es os =>
      cases es with
      | cons e es => cases hstep
      | nil =>
        obtain ⟨t', hpath, ht⟩ := hsilent hstep
        exact ⟨t', (hinto os).trans hpath, ht⟩
  · intro p' p a t hp hstep
    cases hp with
    | same hnot =>
      obtain ⟨u', t', hpath, hstep', ht⟩ := hvisible hstep hnot
      exact ⟨u', a, t', hpath, hstep', Executed.same_eq a, ht⟩
    | into es os =>
      cases es with
      | cons e es =>
        cases hstep
        exact ⟨_, _, _, .refl, .expression, Executed.same_eq _, .into _ _⟩
      | nil =>
        obtain ⟨u', t', hpath, hstep', ht⟩ := hvisible hstep hnotC
        exact ⟨u', a, t', (hinto os).trans hpath, hstep', Executed.same_eq a, ht⟩

/-- The entry block: a block that no block goes to. -/
structure IsEntry (codes : Codes ε X) (entry : BlockId) : Prop where
  live : codes.find? entry ≠ none
  unused : ∀ x, ¬ EdgeIn codes x entry

/-- Every block ends in a terminator. -/
def Terminated (codes : Codes ε X) : Prop :=
  ∀ {b c}, codes.find? b = some c → c.control ≠ none

variable {entry : BlockId}

lemma edgeIn_mergedCodes (h : SingleEntry codes b pred c cp) {x y : BlockId} :
    EdgeIn (mergedCodes codes b pred c) x y ↔
      x ≠ b ∧ ((x = pred ∧ y ∈ c.successors) ∨ (x ≠ pred ∧ EdgeIn codes x y)) := by
  rw [EdgeIn, EdgeIn, find?_mergedCodes h]
  by_cases hxb : x = b
  · rw [if_pos hxb]
    exact iff_of_false (by simp) fun h' => h'.1 hxb
  · rw [if_neg hxb, and_iff_right hxb]
    by_cases hxp : x = pred
    · rw [if_pos hxp]
      simp [hxp, Code.successors, Code.followedBy]
    · rw [if_neg hxp]
      simp [hxp]

lemma reached_merged (h : SingleEntry codes b pred c cp) (hne : b ≠ pred)
    (hentry : IsEntry codes entry) {y : BlockId} (hy : y ≠ b)
    (hpath : Relation.ReflTransGen (EdgeIn codes) entry y) :
    Relation.ReflTransGen (EdgeIn (mergedCodes codes b pred c)) entry y := by
  -- the block is reached where its predecessor is
  have hgo : EdgeIn codes pred b := by
    refine ⟨cp, h.predCode, ?_⟩
    rw [Code.successors, h.goTo]
    exact List.mem_singleton_self _
  have hentryb : entry ≠ b := fun heq => hentry.unused pred (heq ▸ hgo)
  have hstep : ∀ {x x' y}, ((x ≠ b ∧ x' = x) ∨ (x = b ∧ x' = pred)) → EdgeIn codes x y →
      ∃ y', ((y ≠ b ∧ y' = y) ∨ (y = b ∧ y' = pred)) ∧
        Relation.ReflTransGen (EdgeIn (mergedCodes codes b pred c)) x' y' := by
    rintro x x' y (⟨hxb, rfl⟩ | ⟨rfl, rfl⟩) hedge
    · by_cases hyb : y = b
      · refine ⟨pred, Or.inr ⟨hyb, rfl⟩, ?_⟩
        rw [h.only x' (hyb ▸ hedge)]
      · refine ⟨y, Or.inl ⟨hyb, rfl⟩, .single ((edgeIn_mergedCodes h).mpr ⟨hxb, Or.inr ⟨?_, hedge⟩⟩)⟩
        rintro rfl
        obtain ⟨c', hc', hmem⟩ := hedge
        rw [h.predCode] at hc'
        rw [← Option.some.inj hc', Code.successors, h.goTo] at hmem
        exact hyb (List.mem_singleton.mp hmem)
    · obtain ⟨c', hc', hmem⟩ := hedge
      rw [h.blockCode] at hc'
      obtain rfl := Option.some.inj hc'
      have hyb : y ≠ x := ne_of_mem_of_not_mem hmem (h.not_mem h.blockCode hne)
      exact ⟨y, Or.inl ⟨hyb, rfl⟩,
        .single ((edgeIn_mergedCodes h).mpr ⟨hne.symm, Or.inl ⟨rfl, hmem⟩⟩)⟩
  obtain ⟨y', hy', hpath'⟩ := exists_lift hstep (Or.inl ⟨hentryb, rfl⟩) hpath
  rcases hy' with ⟨-, rfl⟩ | ⟨heq, -⟩
  · exact hpath'
  · exact absurd heq hy

lemma plainFrom_merged (h : SingleEntry codes b pred c cp) {plain : X → Prop} {y : BlockId}
    (hplain : PlainFrom plain codes y) : PlainFrom plain (mergedCodes codes b pred c) y := by
  have hgo : GoesOn codes pred b := ⟨cp, h.predCode, h.goTo⟩
  have hstep : ∀ x z, GoesOn (mergedCodes codes b pred c) x z →
      Relation.ReflTransGen (GoesOn codes) x z := by
    rintro x z ⟨c', hc', hcontrol⟩
    rw [find?_mergedCodes h] at hc'
    split_ifs at hc' with hxb hxp
    · obtain rfl := Option.some.inj hc'
      rw [hxp]
      exact .tail (.single hgo) ⟨c, h.blockCode, hcontrol⟩
    · exact .single ⟨c', hc', hcontrol⟩
  intro x hpath c' hc' e he
  have hpath' : Relation.ReflTransGen (GoesOn codes) y x :=
    Relation.ReflTransGen.lift' id hstep _ _ hpath
  rw [find?_mergedCodes h] at hc'
  split_ifs at hc' with hxb hxp
  · obtain rfl := Option.some.inj hc'
    rcases List.mem_append.mp he with hpred | hblock
    · exact hplain x hpath' cp (hxp ▸ h.predCode) e hpred
    · exact hplain b (hpath'.tail (hxp ▸ hgo)) c h.blockCode e hblock
  · exact hplain x hpath' c' hc' e he

/-- Merging a block into its predecessor. -/
theorem refines_merged (h : SingleEntry codes b pred c cp) (hne : b ≠ pred)
    (hterminated : Terminated codes) (hentry : IsEntry codes entry) :
    Refines entry codes (mergedCodes codes b pred c) where
  terminated := by
    intro y c' hc'
    rw [find?_mergedCodes h] at hc'
    split_ifs at hc'
    · obtain rfl := Option.some.inj hc'
      have hcontrol : c.control ≠ none := hterminated h.blockCode
      exact hcontrol
    · exact hterminated hc'
  exprs := by
    intro y c' e hc' he
    rw [find?_mergedCodes h] at hc'
    split_ifs at hc'
    · obtain rfl := Option.some.inj hc'
      rcases List.mem_append.mp he with hpred | hblock
      · exact ⟨pred, cp, h.predCode, hpred⟩
      · exact ⟨b, c, h.blockCode, hblock⟩
    · exact ⟨y, c', hc', he⟩
  edges := by
    intro x y hedge _
    rcases (edgeIn_mergedCodes h).mp hedge with ⟨-, ⟨-, hmem⟩ | ⟨-, hedge'⟩⟩
    · exact ⟨b, c, h.blockCode, hmem⟩
    · exact ⟨x, hedge'⟩
  marked := by
    intro y c' hc' hmark
    rw [find?_mergedCodes h] at hc'
    split_ifs at hc' with hyb hyp
    · obtain rfl := Option.some.inj hc'
      exact ⟨cp, hyp ▸ h.predCode, hmark⟩
    · exact ⟨c', hc', hmark⟩
  reached := by
    intro y c' hc' _ hpath
    refine reached_merged h hne hentry ?_ hpath
    rintro rfl
    rw [find?_mergedCodes h, if_pos rfl] at hc'
    exact absurd hc' (Option.some_ne_none _).symm
  plain := fun _ _ => plainFrom_merged h
  same := by
    obtain ⟨ce, hce⟩ := Option.ne_none_iff_exists'.mp hentry.live
    have hentryb : entry ≠ b := by
      rintro rfl
      refine hentry.unused pred ⟨cp, h.predCode, ?_⟩
      rw [Code.successors, h.goTo]
      exact List.mem_singleton_self _
    obtain ⟨ce', hce', hpoints⟩ := MergedPoint.block h hce hentryb
    exact .of_simulates (simulates_merged h hne) (simulates_merged_back h hne) hce hce' hpoints hpoints

/-! ### A block that only goes to itself -/

lemma find?_erase_some {x : BlockId} {cx : Code ε X} (hx : (codes.erase b).find? x = some cx) :
    x ≠ b ∧ codes.find? x = some cx := by
  rw [OrderedMap.find?_erase] at hx
  split_ifs at hx with hxb
  exact ⟨hxb, hx⟩

/-- Points from which the block is not reached. -/
def AvoidsPoint (b : BlockId) (p p' : Point ε X) : Prop :=
  p = p' ∧ ∀ k, p.control = some k → b ∉ k.successors

lemma AvoidsPoint.of_code {cx : Code ε X} (h : b ∉ cx.successors) (os : ℕ → ℕ) :
    AvoidsPoint b (cx.point os) (cx.point os) := by
  refine ⟨rfl, fun k hk => ?_⟩
  have hk' : cx.control = some k := hk
  rwa [Code.successors, hk'] at h

/-- Either group follows the steps of the other one as long as the block is avoided. -/
lemma simulates_avoids {codes codes' : Codes ε X}
    (hfind : ∀ x cx, x ≠ b → codes.find? x = some cx →
      codes'.find? x = some cx ∧ b ∉ cx.successors) {same : Executed ε X → Executed ε X → Prop}
    (hsame : ∀ a, same a a) : Simulates (Step codes) (Step codes') same (AvoidsPoint b) where
  silent := by
    rintro p _ t ⟨rfl, hnot⟩ hstep
    cases hstep with
    | goTo hd =>
      have hdb := List.ne_of_not_mem_cons (hnot _ rfl)
      obtain ⟨hd', hb⟩ := hfind _ _ hdb.symm hd
      exact ⟨_, .single (.goTo hd'), .of_code hb _⟩
  visible := by
    rintro p _ a t ⟨rfl, hnot⟩ hstep
    cases hstep with
    | expression => exact ⟨_, _, _, .refl, .expression, hsame _, rfl, hnot⟩
    | branch hs hd =>
      have hdb := ne_of_mem_of_not_mem (List.mem_of_getElem? hs) (hnot _ rfl)
      obtain ⟨hd', hb⟩ := hfind _ _ hdb hd
      exact ⟨_, _, _, .refl, .branch hs hd', hsame _, .of_code hb _⟩
    | last hs =>
      refine ⟨_, _, _, .refl, .last hs, hsame _, rfl, fun k hk => ?_⟩
      exact absurd hk (Option.some_ne_none k).symm

theorem refines_erased (hb : ∀ x, EdgeIn codes x b → x = b) (hentryb : entry ≠ b)
    (hterminated : Terminated codes) (hentry : IsEntry codes entry) :
    Refines entry codes (codes.erase b) where
  terminated := fun hc' => hterminated (find?_erase_some hc').2
  exprs := fun hc' he => ⟨_, _, (find?_erase_some hc').2, he⟩
  edges := by
    rintro x y ⟨c', hc', hmem⟩ _
    exact ⟨x, c', (find?_erase_some hc').2, hmem⟩
  marked := fun hc' hmark => ⟨_, (find?_erase_some hc').2, hmark⟩
  reached := by
    intro y c' _ _ hpath
    have hstep : ∀ {x x' y}, (x ≠ b ∧ x' = x) → EdgeIn codes x y →
        ∃ y', (y ≠ b ∧ y' = y) ∧ Relation.ReflTransGen (EdgeIn (codes.erase b)) x' y' := by
      rintro x x' y ⟨hxb, rfl⟩ hedge
      have hyb : y ≠ b := fun heq => hxb (hb x' (heq ▸ hedge))
      refine ⟨y, ⟨hyb, rfl⟩, .single ?_⟩
      rw [EdgeIn, OrderedMap.find?_erase, if_neg hxb]
      exact hedge
    obtain ⟨y', ⟨-, rfl⟩, hpath'⟩ := exists_lift hstep ⟨hentryb, rfl⟩ hpath
    exact hpath'
  plain := by
    intro y c' plain _ _ hplain x hpath cx hcx e he
    have hstep : ∀ x z, GoesOn (codes.erase b) x z → Relation.ReflTransGen (GoesOn codes) x z := by
      rintro x z ⟨c', hc', hcontrol⟩
      exact .single ⟨c', (find?_erase_some hc').2, hcontrol⟩
    exact hplain x (Relation.ReflTransGen.lift' id hstep _ _ hpath) cx (find?_erase_some hcx).2 e he
  same := by
    obtain ⟨ce, hce⟩ := Option.ne_none_iff_exists'.mp hentry.live
    have havoid : ∀ x cx, x ≠ b → codes.find? x = some cx → b ∉ cx.successors :=
      fun x cx hxb hx hmem => hxb (hb x ⟨cx, hx, hmem⟩)
    have hforth : ∀ x cx, x ≠ b → codes.find? x = some cx →
        (codes.erase b).find? x = some cx ∧ b ∉ cx.successors := by
      intro x cx hxb hx
      rw [OrderedMap.find?_erase, if_neg hxb]
      exact ⟨hx, havoid x cx hxb hx⟩
    have hback : ∀ x cx, x ≠ b → (codes.erase b).find? x = some cx →
        codes.find? x = some cx ∧ b ∉ cx.successors := by
      intro x cx hxb hx
      exact ⟨(find?_erase_some hx).2, havoid x cx hxb (find?_erase_some hx).2⟩
    exact .of_simulates (simulates_avoids hforth Executed.same_eq)
      (simulates_avoids hback Executed.same_eq) hce (hforth entry ce hentryb hce).1
      (fun os => .of_code (havoid entry ce hentryb hce) os)
      fun os => .of_code (havoid entry ce hentryb hce) os

end Merge

end Cangjie.CHIR.MergeBlocks
