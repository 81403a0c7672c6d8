import CangjieCompiler.CHIR.Optimization.MergeBlocks.Refinement

/-!
# Going past a block keeps the meaning

A block that only goes on to another one is left out: the blocks that went to it go to its target.
-/

namespace Cangjie.CHIR.MergeBlocks

open IR IR.BlockGroup

variable {ε X : Type} {codes : Codes ε X} {b target entry : BlockId} {c : Code ε X}

lemma find?_redirectedCodes (codes : Codes ε X) (b target y : BlockId) :
    (redirectedCodes codes b target).find? y =
      if y = b then none else (codes.find? y).map (Code.replace b target) := by
  rw [redirectedCodes, OrderedMap.find?_erase, OrderedMap.find?_mapValues]

lemma find?_redirected_some {y : BlockId} {c' : Code ε X}
    (h : (redirectedCodes codes b target).find? y = some c') :
    y ≠ b ∧ ∃ cy, codes.find? y = some cy ∧ c' = cy.replace b target := by
  rw [find?_redirectedCodes] at h
  split_ifs at h with hy
  obtain ⟨cy, hcy, rfl⟩ := Option.map_eq_some_iff.mp h
  exact ⟨hy, cy, hcy, rfl⟩

lemma find?_redirected_of_ne {y : BlockId} {cy : Code ε X} (hy : y ≠ b)
    (h : codes.find? y = some cy) :
    (redirectedCodes codes b target).find? y = some (cy.replace b target) := by
  rw [find?_redirectedCodes, if_neg hy, h]
  rfl

/-! ## Executions -/

/-- Where the original execution and the one after the rule are at the same time. -/
inductive RedirectedPoint (b target : BlockId) (ct : Code ε X) : Point ε X → Point ε X → Prop
  | same (es : List X) (k : Option (Control ε)) (os : ℕ → ℕ) :
    RedirectedPoint b target ct ⟨es, k, os⟩ ⟨es, k.map (Control.replace b target), os⟩
  | past (os : ℕ → ℕ) :
    RedirectedPoint b target ct ⟨[], some (.GOTO target), os⟩ ((ct.replace b target).point os)

variable {ct : Code ε X}

/-- A block that is gone to, before and after the rule. -/
lemma RedirectedPoint.block (h : GotoOnly codes b target c) (ht : codes.find? target = some ct)
    {d : BlockId} {cd : Code ε X} (hd : codes.find? d = some cd) :
    ∃ cd', (redirectedCodes codes b target).find? (if d = b then target else d) = some cd' ∧
      ∀ os, RedirectedPoint b target ct (cd.point os) (cd'.point os) := by
  by_cases hdb : d = b
  · rw [if_pos hdb]
    refine ⟨_, find?_redirected_of_ne h.ne ht, fun os => ?_⟩
    rw [hdb, h.block] at hd
    obtain rfl := Option.some.inj hd
    have hpoint : c.point os = ⟨[], some (.GOTO target), os⟩ := by
      rw [Code.point, h.exprs, h.goTo]
    rw [hpoint]
    exact .past os
  · rw [if_neg hdb]
    exact ⟨_, find?_redirected_of_ne hdb hd, fun os => .same _ _ _⟩

lemma simulates_redirected (h : GotoOnly codes b target c) (ht : codes.find? target = some ct) :
    Simulates (Step codes) (Step (redirectedCodes codes b target)) (Executed.Same Eq)
      (RedirectedPoint b target ct) where
  silent := by
    intro p p' t hp hstep
    cases hstep with
    | goTo hd =>
      cases hp with
      | same =>
        obtain ⟨cd', hd', hpoints⟩ := RedirectedPoint.block h ht hd
        exact ⟨_, .single (.goTo hd'), hpoints _⟩
      | past =>
        rw [ht] at hd
        obtain rfl := Option.some.inj hd
        exact ⟨_, .refl, .same _ _ _⟩
  visible := by
    intro p p' a t hp hstep
    cases hstep with
    | expression =>
      cases hp with
      | same => exact ⟨_, _, _, .refl, .expression, Executed.same_eq _, .same _ _ _⟩
    | branch hs hd =>
      cases hp with
      | same =>
        obtain ⟨cd', hd', hpoints⟩ := RedirectedPoint.block h ht hd
        refine ⟨_, _, _, .refl, .branch ?_ hd', Executed.same_eq _, hpoints _⟩
        rw [List.getElem?_map, hs]
        rfl
    | last hs =>
      cases hp with
      | same =>
        refine ⟨_, _, _, .refl, .last ?_, Executed.same_eq _, .same _ none _⟩
        rw [List.getElem?_map, hs]
        rfl

lemma RedirectedPoint.block_back (h : GotoOnly codes b target c)
    (ht : codes.find? target = some ct) {d : BlockId} {cd' : Code ε X}
    (hd : (redirectedCodes codes b target).find? (if d = b then target else d) = some cd') :
    ∃ cd, codes.find? d = some cd ∧
      ∀ os, RedirectedPoint b target ct (cd.point os) (cd'.point os) := by
  have hlive : ∃ cd, codes.find? d = some cd := by
    by_cases hdb : d = b
    · exact ⟨c, hdb ▸ h.block⟩
    · rw [if_neg hdb] at hd
      obtain ⟨-, cd, hcd, -⟩ := find?_redirected_some hd
      exact ⟨cd, hcd⟩
  obtain ⟨cd, hcd⟩ := hlive
  obtain ⟨cd'', hd'', hpoints⟩ := RedirectedPoint.block h ht hcd
  rw [hd] at hd''
  obtain rfl := Option.some.inj hd''
  exact ⟨cd, hcd, hpoints⟩

lemma simulates_redirected_back (h : GotoOnly codes b target c)
    (ht : codes.find? target = some ct) :
    Simulates (Step (redirectedCodes codes b target)) (Step codes)
      (fun a' a => Executed.Same Eq a a') fun p' p => RedirectedPoint b target ct p p' := by
  -- the steps from a point that is the same
  have hsilent : ∀ {es k os t}, Step (redirectedCodes codes b target)
      ⟨es, Option.map (Control.replace b target) k, os⟩ none t →
      ∃ t', Silent (Step codes) ⟨es, k, os⟩ t' ∧ RedirectedPoint b target ct t' t := by
    intro es k os t hstep
    cases k with
    | none => cases hstep
    | some k =>
      cases k with
      | GOTO d =>
        cases hstep with
        | goTo hd =>
          obtain ⟨cd, hcd, hpoints⟩ := RedirectedPoint.block_back h ht hd
          exact ⟨_, .single (.goTo hcd), hpoints _⟩
      | other label ss => cases hstep
  have hvisible : ∀ {es k os a t}, Step (redirectedCodes codes b target)
      ⟨es, Option.map (Control.replace b target) k, os⟩ (some a) t →
      ∃ t', Step codes ⟨es, k, os⟩ (some a) t' ∧ RedirectedPoint b target ct t' t := by
    intro es k os a t hstep
    cases es with
    | cons e es =>
      cases hstep
      exact ⟨_, .expression, .same _ _ _⟩
    | nil =>
      cases k with
      | none => cases hstep
      | some k =>
        cases k with
        | GOTO d => cases hstep
        | other label ss =>
          cases hstep with
          | branch hs hd =>
            rw [List.getElem?_map] at hs
            obtain ⟨s, hs', rfl⟩ := Option.map_eq_some_iff.mp hs
            obtain ⟨cd, hcd, hpoints⟩ := RedirectedPoint.block_back h ht hd
            exact ⟨_, .branch hs' hcd, hpoints _⟩
          | last hs =>
            rw [List.getElem?_map] at hs
            exact ⟨_, .last (Option.map_eq_none_iff.mp hs), .same _ none _⟩
  constructor
  · intro p' p t hp hstep
    cases hp with
    | same => exact hsilent hstep
    | past os =>
      obtain ⟨t', hpath, hrelated⟩ := hsilent hstep
      exact ⟨t', .head (.goTo ht) hpath, hrelated⟩
  · intro p' p a t hp hstep
    cases hp with
    | same =>
      obtain ⟨t', hstep', hrelated⟩ := hvisible hstep
      exact ⟨_, a, t', .refl, hstep', Executed.same_eq a, hrelated⟩
    | past os =>
      obtain ⟨t', hstep', hrelated⟩ := hvisible hstep
      exact ⟨_, a, t', .single (.goTo ht), hstep', Executed.same_eq a, hrelated⟩

/-! ## The rule -/

lemma edgeIn_redirectedCodes (h : GotoOnly codes b target c) {x y : BlockId} :
    EdgeIn (redirectedCodes codes b target) x y ↔
      x ≠ b ∧ ((EdgeIn codes x y ∧ y ≠ b) ∨ (y = target ∧ EdgeIn codes x b)) := by
  constructor
  · rintro ⟨c', hc', hmem⟩
    obtain ⟨hxb, cx, hcx, rfl⟩ := find?_redirected_some hc'
    refine ⟨hxb, (Code.mem_successors_replace.mp hmem).imp ?_ ?_⟩
    · exact fun h' => ⟨⟨cx, hcx, h'.1⟩, h'.2⟩
    · exact fun h' => ⟨h'.1, cx, hcx, h'.2⟩
  · rintro ⟨hxb, ⟨⟨cx, hcx, hmem⟩, hyb⟩ | ⟨rfl, cx, hcx, hmem⟩⟩
    · exact ⟨_, find?_redirected_of_ne hxb hcx,
        Code.mem_successors_replace.mpr (Or.inl ⟨hmem, hyb⟩)⟩
    · exact ⟨_, find?_redirected_of_ne hxb hcx,
        Code.mem_successors_replace.mpr (Or.inr ⟨rfl, hmem⟩)⟩

lemma GotoOnly.edge_iff (h : GotoOnly codes b target c) {y : BlockId} :
    EdgeIn codes b y ↔ y = target := by
  rw [EdgeIn, h.block]
  simp [Code.successors, h.goTo, Control.successors]

lemma reached_redirected (h : GotoOnly codes b target c) (hentryb : entry ≠ b) {y : BlockId}
    (hy : y ≠ b) (hpath : Relation.ReflTransGen (EdgeIn codes) entry y) :
    Relation.ReflTransGen (EdgeIn (redirectedCodes codes b target)) entry y := by
  -- the block is reached where its target is
  have hstep : ∀ {x x' y}, ((x ≠ b ∧ x' = x) ∨ (x = b ∧ x' = target)) → EdgeIn codes x y →
      ∃ y', ((y ≠ b ∧ y' = y) ∨ (y = b ∧ y' = target)) ∧
        Relation.ReflTransGen (EdgeIn (redirectedCodes codes b target)) x' y' := by
    rintro x x' y (⟨hxb, rfl⟩ | ⟨rfl, rfl⟩) hedge
    · by_cases hyb : y = b
      · refine ⟨target, Or.inr ⟨hyb, rfl⟩, .single ((edgeIn_redirectedCodes h).mpr ⟨hxb, ?_⟩)⟩
        exact Or.inr ⟨rfl, hyb ▸ hedge⟩
      · refine ⟨y, Or.inl ⟨hyb, rfl⟩, .single ((edgeIn_redirectedCodes h).mpr ⟨hxb, ?_⟩)⟩
        exact Or.inl ⟨hedge, hyb⟩
    · rw [h.edge_iff.mp hedge]
      exact ⟨x', Or.inl ⟨h.ne, rfl⟩, .refl⟩
  obtain ⟨y', hy', hpath'⟩ := exists_lift hstep (Or.inl ⟨hentryb, rfl⟩) hpath
  rcases hy' with ⟨-, rfl⟩ | ⟨heq, -⟩
  · exact hpath'
  · exact absurd heq hy

lemma plainFrom_redirected (h : GotoOnly codes b target c) {plain : X → Prop} {y : BlockId}
    (hplain : PlainFrom plain codes y) : PlainFrom plain (redirectedCodes codes b target) y := by
  have hstep : ∀ x z, GoesOn (redirectedCodes codes b target) x z →
      Relation.ReflTransGen (GoesOn codes) x z := by
    rintro x z ⟨c', hc', hcontrol⟩
    obtain ⟨-, cx, hcx, rfl⟩ := find?_redirected_some hc'
    obtain ⟨k, hk, hkz⟩ := Option.map_eq_some_iff.mp hcontrol
    cases k with
    | other label ss => exact absurd hkz (by rintro ⟨⟩)
    | GOTO d =>
      have hd := Control.GOTO.inj hkz
      by_cases hdb : d = b
      · rw [if_pos hdb] at hd
        rw [hdb] at hk
        rw [← hd]
        exact .tail (.single ⟨cx, hcx, hk⟩) ⟨c, h.block, h.goTo⟩
      · rw [if_neg hdb] at hd
        rw [← hd]
        exact .single ⟨cx, hcx, hk⟩
  intro x hpath c' hc' e he
  obtain ⟨-, cx, hcx, rfl⟩ := find?_redirected_some hc'
  exact hplain x (Relation.ReflTransGen.lift' id hstep _ _ hpath) cx hcx e he

/-- Going past a block that only goes on. -/
theorem refines_redirected (h : GotoOnly codes b target c) (ht : codes.find? target ≠ none)
    (hentryb : entry ≠ b) (hterminated : Terminated codes) (hentry : IsEntry codes entry) :
    Refines entry codes (redirectedCodes codes b target) where
  terminated := by
    intro y c' hc' hnone
    obtain ⟨-, cy, hcy, rfl⟩ := find?_redirected_some hc'
    exact hterminated hcy (Option.map_eq_none_iff.mp hnone)
  exprs := by
    intro y c' e hc' he
    obtain ⟨-, cy, hcy, rfl⟩ := find?_redirected_some hc'
    exact ⟨y, cy, hcy, he⟩
  edges := by
    intro x y hedge _
    rcases ((edgeIn_redirectedCodes h).mp hedge).2 with ⟨hedge', -⟩ | ⟨rfl, -⟩
    · exact ⟨x, hedge'⟩
    · exact ⟨b, h.edge_iff.mpr rfl⟩
  marked := by
    intro y c' hc' hmark
    obtain ⟨-, cy, hcy, rfl⟩ := find?_redirected_some hc'
    exact ⟨cy, hcy, hmark⟩
  reached := fun hc' _ hpath => reached_redirected h hentryb (find?_redirected_some hc').1 hpath
  plain := fun _ _ => plainFrom_redirected h
  same := by
    obtain ⟨ct, hct⟩ := Option.ne_none_iff_exists'.mp ht
    obtain ⟨ce, hce⟩ := Option.ne_none_iff_exists'.mp hentry.live
    exact .of_simulates (simulates_redirected h hct) (simulates_redirected_back h hct) hce
      (find?_redirected_of_ne hentryb hce) (fun os => .same _ _ _) fun os => .same _ _ _

end Cangjie.CHIR.MergeBlocks
