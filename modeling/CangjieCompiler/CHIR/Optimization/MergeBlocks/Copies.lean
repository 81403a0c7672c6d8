import CangjieCompiler.CHIR.Optimization.MergeBlocks.Refinement
import Mathlib

/-!
# Copying a block keeps the meaning

Every block of the group with copies stands for a block of the original group: a copy for the block
it is a copy of, and the other blocks for themselves.
-/

namespace Cangjie.CHIR.MergeBlocks

open IR IR.BlockGroup

variable {ε X : Type}

/-- The successors of a terminator renamed. -/
def Control.rename (φ : BlockId → BlockId) : Control ε → Control ε
  | .GOTO d => .GOTO (φ d)
  | .other label ss => .other label (ss.map φ)

lemma Control.successors_rename (φ : BlockId → BlockId) (k : Control ε) :
    (Control.rename φ k).successors = k.successors.map φ := by
  cases k <;> rfl

lemma Control.rename_rename (φ ψ : BlockId → BlockId) (k : Control ε) :
    Control.rename φ (Control.rename ψ k) = Control.rename (φ ∘ ψ) k := by
  cases k with
  | GOTO d => rfl
  | other label ss => exact congrArg (IR.Control.other label) (List.map_map)

lemma Control.rename_eq_self {φ : BlockId → BlockId} {k : Control ε}
    (h : ∀ s ∈ k.successors, φ s = s) : Control.rename φ k = k := by
  cases k with
  | GOTO d => exact congrArg IR.Control.GOTO (h d (List.mem_singleton_self d))
  | other label ss =>
    exact congrArg (IR.Control.other label) ((List.map_congr_left h).trans (List.map_id' ss))

/-- The blocks of a group stand for the blocks of another one, new ones for one block. -/
structure Covers (φ : BlockId → BlockId) (b : BlockId) (codes codes' : Codes ε X) : Prop where
  code : ∀ {y c'}, codes'.find? y = some c' → ∃ c, codes.find? (φ y) = some c ∧
    c'.exprs = c.exprs ∧ c'.control.map (Control.rename φ) = c.control ∧
      (c'.generatedFromForIn = true → c.generatedFromForIn = true ∧ φ y = y)
  old : ∀ {y}, codes.find? y ≠ none → codes'.find? y ≠ none ∧ φ y = y
  new : ∀ y, φ y = y ∨ φ y = b
  closed : ∀ {x y}, EdgeIn codes' x y → codes'.find? y ≠ none

namespace Covers

variable {φ ψ : BlockId → BlockId} {b : BlockId} {codes codes' codes'' : Codes ε X}

lemma successors (h : Covers φ b codes codes') {y : BlockId} {c c' : Code ε X}
    (hc' : codes'.find? y = some c') (hc : codes.find? (φ y) = some c) :
    c.successors = c'.successors.map φ := by
  obtain ⟨d, hd, -, hcontrol, -⟩ := h.code hc'
  rw [hc] at hd
  obtain rfl := Option.some.inj hd
  rw [Code.successors, Code.successors, ← hcontrol]
  cases c'.control with
  | none => rfl
  | some k => exact Control.successors_rename φ k

lemma edge (h : Covers φ b codes codes') {x y : BlockId} (hedge : EdgeIn codes' x y) :
    EdgeIn codes (φ x) (φ y) := by
  obtain ⟨c', hc', hy⟩ := hedge
  obtain ⟨c, hc, -⟩ := h.code hc'
  refine ⟨c, hc, ?_⟩
  rw [h.successors hc' hc]
  exact List.mem_map_of_mem hy

lemma comp (h : Covers φ b codes codes') (h' : Covers ψ b codes' codes'')
    (hb : codes.find? b ≠ none) : Covers (φ ∘ ψ) b codes codes'' where
  code := by
    intro y c'' hc''
    obtain ⟨c', hc', hexprs', hcontrol', hmark'⟩ := h'.code hc''
    obtain ⟨c, hc, hexprs, hcontrol, hmark⟩ := h.code hc'
    refine ⟨c, hc, hexprs'.trans hexprs, ?_, fun hm => ?_⟩
    · rw [← hcontrol, ← hcontrol', Option.map_map]
      exact Option.map_congr fun k _ => (Control.rename_rename φ ψ k).symm
    · obtain ⟨hm', hy⟩ := hmark' hm
      obtain ⟨hm'', hy'⟩ := hmark hm'
      exact ⟨hm'', by rw [Function.comp, hy, ← hy, hy']⟩
  old := by
    intro y hy
    obtain ⟨hy', hφ⟩ := h.old hy
    obtain ⟨hy'', hψ⟩ := h'.old hy'
    exact ⟨hy'', by rw [Function.comp, hψ, hφ]⟩
  new := by
    intro y
    dsimp only [Function.comp]
    rcases h'.new y with hψ | hψ
    · rw [hψ]
      exact h.new y
    · rw [hψ]
      exact Or.inr (h.old hb).2
  closed := h'.closed

/-! ## Executions -/

/-- Points whose successors stand for each other. -/
structure Point (φ : BlockId → BlockId) (codes' : Codes ε X) (p p' : IR.Point ε X) : Prop where
  exprs : p.exprs = p'.exprs
  control : p.control = p'.control.map (Control.rename φ)
  outcomes : p.outcomes = p'.outcomes
  live : ∀ k, p'.control = some k → ∀ s ∈ k.successors, codes'.find? s ≠ none

lemma point (h : Covers φ b codes codes') {y : BlockId} {c c' : Code ε X}
    (hc' : codes'.find? y = some c') (hc : codes.find? (φ y) = some c) (os : ℕ → ℕ) :
    Point φ codes' (c.point os) (c'.point os) := by
  obtain ⟨d, hd, hexprs, hcontrol, -⟩ := h.code hc'
  rw [hc] at hd
  obtain rfl := Option.some.inj hd
  refine ⟨hexprs.symm, hcontrol.symm, rfl, fun k hk s hs => h.closed (x := y) ⟨c', hc', ?_⟩⟩
  have hk' : c'.control = some k := hk
  rwa [Code.successors, hk']

lemma simulates (h : Covers φ b codes codes') :
    Simulates (Step codes) (Step codes') (Executed.Same Eq) (Point φ codes') where
  silent := by
    rintro p ⟨es', k', os'⟩ t ⟨hexprs, hcontrol, hos, hlive⟩ hstep
    cases hstep with
    | goTo hd =>
      obtain rfl : [] = es' := hexprs
      obtain rfl : _ = os' := hos
      obtain ⟨k, rfl, hk⟩ := Option.map_eq_some_iff.mp (Eq.symm hcontrol)
      cases k with
      | other label ss => exact absurd hk (by rintro ⟨⟩)
      | GOTO d' =>
        obtain rfl := Control.GOTO.inj hk
        obtain ⟨c', hc'⟩ := Option.ne_none_iff_exists'.mp
          (hlive _ rfl d' (List.mem_singleton_self d'))
        exact ⟨_, .single (.goTo hc'), h.point hc' hd _⟩
  visible := by
    rintro p ⟨es', k', os'⟩ a t ⟨hexprs, hcontrol, hos, hlive⟩ hstep
    cases hstep with
    | expression =>
      cases es' with
      | nil => exact absurd hexprs (List.cons_ne_nil _ _)
      | cons e' es' =>
        obtain ⟨rfl, rfl⟩ := List.cons.inj hexprs
        exact ⟨_, _, _, .refl, .expression, Executed.same_eq _, rfl, hcontrol, hos, hlive⟩
    | branch hs hd =>
      obtain rfl : [] = es' := hexprs
      obtain rfl : _ = os' := hos
      obtain ⟨k, rfl, hk⟩ := Option.map_eq_some_iff.mp (Eq.symm hcontrol)
      cases k with
      | GOTO d' => exact absurd hk (by rintro ⟨⟩)
      | other label' ss' =>
        obtain ⟨rfl, rfl⟩ := Control.other.inj hk
        rw [List.getElem?_map] at hs
        obtain ⟨s', hs', rfl⟩ := Option.map_eq_some_iff.mp hs
        obtain ⟨c', hc'⟩ := Option.ne_none_iff_exists'.mp
          (hlive _ rfl s' (List.mem_of_getElem? hs'))
        exact ⟨_, _, _, .refl, .branch hs' hc', Executed.same_eq _, h.point hc' hd _⟩
    | last hs =>
      obtain rfl : [] = es' := hexprs
      obtain rfl : _ = os' := hos
      obtain ⟨k, rfl, hk⟩ := Option.map_eq_some_iff.mp (Eq.symm hcontrol)
      cases k with
      | GOTO d' => exact absurd hk (by rintro ⟨⟩)
      | other label' ss' =>
        obtain ⟨rfl, rfl⟩ := Control.other.inj hk
        rw [List.getElem?_map] at hs
        refine ⟨_, _, _, .refl, .last (Option.map_eq_none_iff.mp hs), Executed.same_eq _, rfl, rfl,
          rfl, fun k hk' => ?_⟩
        exact absurd hk' (Option.some_ne_none k).symm

lemma simulates_back (h : Covers φ b codes codes') :
    Simulates (Step codes') (Step codes) (fun a' a => Executed.Same Eq a a')
      fun p' p => Point φ codes' p p' where
  silent := by
    rintro p' ⟨es, k, os⟩ t ⟨hexprs, hcontrol, hos, hlive⟩ hstep
    cases hstep with
    | goTo hd =>
      obtain ⟨c, hc, -⟩ := h.code hd
      obtain rfl : es = [] := hexprs
      obtain rfl : os = _ := hos
      obtain rfl : k = _ := hcontrol
      exact ⟨_, .single (.goTo hc), h.point hd hc _⟩
  visible := by
    rintro p' ⟨es, k, os⟩ a t ⟨hexprs, hcontrol, hos, hlive⟩ hstep
    obtain rfl : os = _ := hos
    obtain rfl : k = _ := hcontrol
    cases hstep with
    | expression =>
      obtain rfl : es = _ := hexprs
      exact ⟨_, _, _, .refl, .expression, Executed.same_eq _, rfl, rfl, rfl, hlive⟩
    | branch hs hd =>
      obtain ⟨c, hc, -⟩ := h.code hd
      obtain rfl : es = [] := hexprs
      refine ⟨_, _, _, .refl, .branch ?_ hc, Executed.same_eq _, h.point hd hc _⟩
      rw [List.getElem?_map, hs]
      rfl
    | last hs =>
      obtain rfl : es = [] := hexprs
      refine ⟨_, _, _, .refl, .last ?_, Executed.same_eq _, rfl, rfl, rfl, fun k hk => ?_⟩
      · rw [List.getElem?_map, hs]
        rfl
      · exact absurd hk (Option.some_ne_none k).symm

/-! ## What is kept -/

variable {entry : BlockId}

lemma reached (h : Covers φ b codes codes') (hentry : IsEntry codes entry) {y : BlockId}
    (hpath : Relation.ReflTransGen (EdgeIn codes) entry y) (hy : y ≠ b) :
    Relation.ReflTransGen (EdgeIn codes') entry y := by
  -- paths are followed through the blocks that stand for their blocks
  have hstep : ∀ {x x' y}, (φ x' = x ∧ codes'.find? x' ≠ none) → EdgeIn codes x y →
      ∃ y', (φ y' = y ∧ codes'.find? y' ≠ none) ∧
        Relation.ReflTransGen (EdgeIn codes') x' y' := by
    rintro x x' y ⟨rfl, hlive⟩ ⟨c, hc, hmem⟩
    obtain ⟨c', hc'⟩ := Option.ne_none_iff_exists'.mp hlive
    rw [h.successors hc' hc] at hmem
    obtain ⟨y', hy', rfl⟩ := List.mem_map.mp hmem
    have hedge : EdgeIn codes' x' y' := ⟨c', hc', hy'⟩
    exact ⟨y', ⟨rfl, h.closed hedge⟩, .single hedge⟩
  obtain ⟨hlive, hφ⟩ := h.old hentry.live
  obtain ⟨y', ⟨rfl, -⟩, hpath'⟩ := exists_lift hstep ⟨hφ, hlive⟩ hpath
  rcases h.new y' with heq | heq
  · rwa [heq]
  · exact absurd heq hy

lemma plainFrom (h : Covers φ b codes codes') {plain : X → Prop} {y : BlockId} (hy : φ y = y)
    (hplain : PlainFrom plain codes y) : PlainFrom plain codes' y := by
  have hstep : ∀ x z, GoesOn codes' x z → Relation.ReflTransGen (GoesOn codes) (φ x) (φ z) := by
    rintro x z ⟨c', hc', hcontrol'⟩
    obtain ⟨c, hc, -, hcontrol, -⟩ := h.code hc'
    rw [hcontrol'] at hcontrol
    exact .single ⟨c, hc, hcontrol.symm⟩
  intro x hpath c' hc' e he
  obtain ⟨c, hc, hexprs, -⟩ := h.code hc'
  have hpath' := Relation.ReflTransGen.lift' φ hstep _ _ hpath
  rw [Function.onFun, hy] at hpath'
  exact hplain (φ x) hpath' c hc e (hexprs ▸ he)

/-- Copies of a block that is not marked any more. -/
theorem refines (h : Covers φ b codes codes')
    (hb : ∀ c, codes'.find? b = some c → c.generatedFromForIn = false)
    (hterminated : Terminated codes) (hentry : IsEntry codes entry) :
    Refines entry codes codes' where
  terminated := by
    intro y c' hc' hnone
    obtain ⟨c, hc, -, hcontrol, -⟩ := h.code hc'
    rw [hnone] at hcontrol
    exact hterminated hc hcontrol.symm
  exprs := by
    intro y c' e hc' he
    obtain ⟨c, hc, hexprs, -⟩ := h.code hc'
    exact ⟨φ y, c, hc, hexprs ▸ he⟩
  edges := by
    intro x y hedge hy
    have hedge' := h.edge hedge
    rw [(h.old hy).2] at hedge'
    exact ⟨φ x, hedge'⟩
  marked := by
    intro y c' hc' hmark
    obtain ⟨c, hc, -, -, hmarked⟩ := h.code hc'
    obtain ⟨hm, hy⟩ := hmarked hmark
    exact ⟨c, hy ▸ hc, hm⟩
  reached := by
    intro y c' hc' hmark hpath
    refine h.reached hentry hpath ?_
    rintro rfl
    rw [hb c' hc'] at hmark
    exact Bool.false_ne_true hmark
  plain := by
    intro y c' plain hc' hmark hplain
    obtain ⟨c, -, -, -, hmarked⟩ := h.code hc'
    exact h.plainFrom (hmarked hmark).2 hplain
  same := by
    obtain ⟨hlive, hφ⟩ := h.old hentry.live
    obtain ⟨c', hc'⟩ := Option.ne_none_iff_exists'.mp hlive
    obtain ⟨c, hc, -⟩ := h.code hc'
    exact .of_simulates h.simulates h.simulates_back (hφ ▸ hc) hc'
      (fun os => h.point hc' hc os) fun os => h.point hc' hc os

end Covers

/-! ## The rule -/

section Rule

variable {codes : Codes ε X} {b pred cpBlock entry : BlockId} {c : Code ε X}

/-- The copy stands for the block. -/
def original (b cpBlock y : BlockId) : BlockId := if y = cpBlock then b else y

lemma rename_original {k : Control ε} (h : cpBlock ∉ k.successors) :
    Control.rename (original b cpBlock) k = k := by
  refine Control.rename_eq_self fun s hs => if_neg ?_
  rintro rfl
  exact h hs

lemma rename_original_replace {k : Control ε} (h : cpBlock ∉ k.successors) :
    Control.rename (original b cpBlock) (k.replace b cpBlock) = k := by
  have hid : ∀ s, s ≠ cpBlock → original b cpBlock (if s = b then cpBlock else s) = s := by
    intro s hs
    split_ifs with hsb
    · rw [original, if_pos rfl, hsb]
    · exact if_neg hs
  cases k with
  | GOTO d =>
    have hd : d ≠ cpBlock := fun heq => h (List.mem_singleton.mpr heq.symm)
    exact congrArg IR.Control.GOTO (hid d hd)
  | other label ss =>
    refine congrArg (IR.Control.other label) ?_
    rw [List.map_map]
    refine (List.map_congr_left fun s hs => hid s ?_).trans (List.map_id' ss)
    rintro rfl
    exact h hs

lemma find?_copied_some {exprs : List X} {y : BlockId} {c' : Code ε X}
    (h : (copiedCodes codes b pred cpBlock c exprs).find? y = some c')
    (hfresh : codes.find? cpBlock = none) :
    ∃ c₀, (c' = c₀ ∨ c' = c₀.replace b cpBlock) ∧
      ((y = cpBlock ∧ c₀ = { c with exprs := exprs, generatedFromForIn := false }) ∨
        (y ≠ cpBlock ∧ codes.find? y = some c₀)) := by
  rw [copiedCodes, OrderedMap.find?_modify, OrderedMap.find?_emplace, hfresh,
    Option.getD_none] at h
  have hbase : ∀ c₀, (if cpBlock = y then
      some { c with exprs := exprs, generatedFromForIn := false } else codes.find? y) = some c₀ →
      (y = cpBlock ∧ c₀ = { c with exprs := exprs, generatedFromForIn := false }) ∨
        (y ≠ cpBlock ∧ codes.find? y = some c₀) := by
    intro c₀ h₀
    split_ifs at h₀ with hy
    · exact Or.inl ⟨hy.symm, (Option.some.inj h₀).symm⟩
    · exact Or.inr ⟨Ne.symm hy, h₀⟩
  by_cases hp : y = pred
  · rw [if_pos hp] at h
    obtain ⟨c₀, h₀, rfl⟩ := Option.map_eq_some_iff.mp h
    exact ⟨c₀, Or.inr rfl, hbase c₀ h₀⟩
  · rw [if_neg hp] at h
    exact ⟨c', Or.inl rfl, hbase c' h⟩

lemma find?_copied_old {exprs : List X} {y : BlockId} {cy : Code ε X}
    (h : codes.find? y = some cy) (hfresh : codes.find? cpBlock = none) :
    ∃ c', (copiedCodes codes b pred cpBlock c exprs).find? y = some c' ∧
      c'.exprs = cy.exprs ∧ c'.generatedFromForIn = cy.generatedFromForIn := by
  have hy : cpBlock ≠ y := by
    rintro rfl
    rw [hfresh] at h
    exact absurd h (Option.some_ne_none cy).symm
  rw [copiedCodes, OrderedMap.find?_modify, OrderedMap.find?_emplace, if_neg hy, h]
  split_ifs
  · exact ⟨_, rfl, rfl, rfl⟩
  · exact ⟨cy, rfl, rfl, rfl⟩

lemma covers_copied (hclosed : ∀ {x y}, EdgeIn codes x y → codes.find? y ≠ none)
    (hc : codes.find? b = some c) (hfresh : codes.find? cpBlock = none)
    (hclosed' : ∀ {x y}, EdgeIn (copiedCodes codes b pred cpBlock c c.exprs) x y →
      (copiedCodes codes b pred cpBlock c c.exprs).find? y ≠ none) :
    Covers (original b cpBlock) b codes (copiedCodes codes b pred cpBlock c c.exprs) where
  code := by
    intro y c' hc'
    obtain ⟨c₀, hc₀, hbase⟩ := find?_copied_some hc' hfresh
    -- what the block stands for has the same code as the block had before the change
    have horiginal : ∃ d, codes.find? (original b cpBlock y) = some d ∧ c₀.exprs = d.exprs ∧
        c₀.control = d.control ∧ (c₀.generatedFromForIn = true →
          d.generatedFromForIn = true ∧ original b cpBlock y = y) := by
      rcases hbase with ⟨hy, rfl⟩ | ⟨hy, hfind⟩
      · refine ⟨c, ?_, rfl, rfl, fun h => absurd h Bool.false_ne_true⟩
        rw [original, if_pos hy, hc]
      · have hoy : original b cpBlock y = y := if_neg hy
        exact ⟨c₀, hoy.symm ▸ hfind, rfl, rfl, fun h => ⟨h, hoy⟩⟩
    obtain ⟨d, hd, hexprs, hcontrol, hmark⟩ := horiginal
    have hnot : ∀ k, d.control = some k → cpBlock ∉ k.successors := by
      intro k hk hmem
      refine hclosed ⟨d, hd, ?_⟩ hfresh
      rwa [Code.successors, hk]
    rcases hc₀ with rfl | rfl
    · refine ⟨d, hd, hexprs, ?_, hmark⟩
      rw [hcontrol]
      cases hk : d.control with
      | none => rfl
      | some k => exact congrArg some (rename_original (hnot k hk))
    · refine ⟨d, hd, hexprs, ?_, hmark⟩
      rw [Code.replace, hcontrol, Option.map_map]
      cases hk : d.control with
      | none => rfl
      | some k => exact congrArg some (rename_original_replace (hnot k hk))
  old := by
    intro y hy
    obtain ⟨cy, hcy⟩ := Option.ne_none_iff_exists'.mp hy
    obtain ⟨c', hc', -⟩ := find?_copied_old (b := b) (c := c) hcy hfresh
    refine ⟨fun hnone => ?_, if_neg ?_⟩
    · rw [hc'] at hnone
      exact absurd hnone (Option.some_ne_none c')
    · rintro rfl
      exact hy hfresh
  new := by
    intro y
    rw [original]
    split_ifs
    · exact Or.inr rfl
    · exact Or.inl rfl
  closed := hclosed'

lemma Covers.refl (hclosed : ∀ {x y}, EdgeIn codes x y → codes.find? y ≠ none) :
    Covers id b codes codes where
  code := by
    intro y c' hc'
    refine ⟨c', hc', rfl, ?_, fun h => ⟨h, rfl⟩⟩
    cases c'.control with
    | none => rfl
    | some k => exact congrArg some (Control.rename_eq_self fun _ _ => rfl)
  old := fun hy => ⟨hy, rfl⟩
  new := fun _ => Or.inl rfl
  closed := hclosed

end Rule

end Cangjie.CHIR.MergeBlocks
