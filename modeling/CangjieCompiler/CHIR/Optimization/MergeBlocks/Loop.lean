import CangjieCompiler.CHIR.Optimization.MergeBlocks.Progress

/-!
# The loop ends

A visit that changes something makes progress, and one that changes nothing finds no rule to apply.
So the loop ends, and what is executed from the entry block is the same as before.
-/

namespace Cangjie.CHIR.MergeBlocks

open IR IR.BlockGroup

variable {ε X α : Type}

/-! ## Visits -/

/-- A visit that changes nothing because there is nothing to do, or makes progress. -/
def Visits (kept : α → α → Prop) (weight : α → Weight) (stable : α → Prop) (a : α)
    (r : Except Abort (α × Bool)) : Prop :=
  (r = .ok (a, true) ∧ kept a a ∧ stable a) ∨
    ∃ a', r = .ok (a', false) ∧ kept a a' ∧ weight a' < weight a

section Visits

variable {kept : α → α → Prop} {weight : α → Weight} {stable stable' : α → Prop} {a : α}
  {r : Except Abort (α × Bool)}

/-- One visit after another one. -/
lemma Visits.andThen {visit : α → Except Abort (α × Bool)} (h : Visits kept weight stable a r)
    (hvisit : ∀ a', kept a a' → Visits kept weight stable' a' (visit a'))
    (htrans : ∀ {a' a''}, kept a a' → kept a' a'' → kept a a'') :
    Visits kept weight (fun a => stable a ∧ stable' a) a (do
      let (a, isStable) ← r
      let (a, isStables) ← visit a
      .ok (a, isStable && isStables)) := by
  rcases h with ⟨rfl, hkept, hstable⟩ | ⟨a', rfl, hkept, hless⟩
  · rcases hvisit a hkept with ⟨hr, -, hstable'⟩ | ⟨a', hr, hkept', hless⟩
    · refine Or.inl ⟨?_, hkept, hstable, hstable'⟩
      simp only [bind, Except.bind, hr, Bool.and_self]
    · refine Or.inr ⟨a', ?_, hkept', hless⟩
      simp only [bind, Except.bind, hr, Bool.and_false]
  · rcases hvisit a' hkept with ⟨hr, -, -⟩ | ⟨a'', hr, hkept', hless'⟩
    · refine Or.inr ⟨a', ?_, hkept, hless⟩
      simp only [bind, Except.bind, hr, Bool.and_true]
    · refine Or.inr ⟨a'', ?_, htrans hkept hkept', hless'.trans hless⟩
      simp only [bind, Except.bind, hr, Bool.and_self]

lemma Visits.imp {kept' : α → α → Prop} (h : Visits kept weight stable a r)
    (hkept : ∀ a', kept a a' → kept' a a') : Visits kept' weight stable a r := by
  rcases h with ⟨hr, hsame, hstable⟩ | ⟨a', hr, hchanged, hless⟩
  · exact Or.inl ⟨hr, hkept a hsame, hstable⟩
  · exact Or.inr ⟨a', hr, hkept a' hchanged, hless⟩

/-- Visits of the members of a list. -/
lemma visitEach_spec {visit : α → Except Abort (α × Bool)} (as : List α)
    (h : ∀ a ∈ as, Visits kept weight stable a (visit a)) :
    Visits (List.Forall₂ kept) (fun as => (as.map weight).sum) (fun as => ∀ a ∈ as, stable a) as
      (visitEach visit as) := by
  induction as with
  | nil => exact Or.inl ⟨rfl, .nil, fun a ha => absurd ha List.not_mem_nil⟩
  | cons a as ih =>
    obtain ⟨ha, has⟩ := List.forall_mem_cons.mp h
    rw [visitEach]
    rcases ha with ⟨hr, hkept, hstable⟩ | ⟨a', hr, hkept, hless⟩
    · rcases ih has with ⟨hrs, hkepts, hstables⟩ | ⟨as', hrs, hkepts, hless⟩
      · refine Or.inl ⟨?_, .cons hkept hkepts, List.forall_mem_cons.mpr ⟨hstable, hstables⟩⟩
        simp only [bind, Except.bind, hr, hrs, Bool.and_self]
      · refine Or.inr ⟨a :: as', ?_, .cons hkept hkepts, ?_⟩
        · simp only [bind, Except.bind, hr, hrs, Bool.and_false]
        · simp only [List.map_cons, List.sum_cons]
          exact add_lt_add_of_le_of_lt le_rfl hless
    · rcases ih has with ⟨hrs, hkepts, -⟩ | ⟨as', hrs, hkepts, hless'⟩
      · refine Or.inr ⟨a' :: as, ?_, .cons hkept hkepts, ?_⟩
        · simp only [bind, Except.bind, hr, hrs, Bool.and_true]
        · simp only [List.map_cons, List.sum_cons]
          exact add_lt_add_of_lt_of_le hless le_rfl
      · refine Or.inr ⟨a' :: as', ?_, .cons hkept hkepts, ?_⟩
        · simp only [bind, Except.bind, hr, hrs, Bool.and_self]
        · simp only [List.map_cons, List.sum_cons]
          exact add_lt_add hless hless'

end Visits

/-! ## A visit of a group -/

/-- What is known about expressions, their visits and their copies. -/
structure Lawful (inner : Inner X) (wellFormed plain : X → Prop) (same : X → X → Prop)
    (weight : X → Weight) (stable : X → Prop) : Prop where
  refl : ∀ e, same e e
  trans : ∀ a b c, same a b → same b c → same a c
  visit : ∀ e, wellFormed e →
    Visits (fun e e' => wellFormed e' ∧ same e e' ∧ (plain e → plain e')) weight stable e
      (inner.visit e)
  clone : ∀ e, plain e → inner.clone e = some e ∧ weight e = 0

/-- No rule applies to a block. -/
def NoRule (opts : GlobalOptions) (g : BlockGroup ε X) (b : BlockId) (block : Block ε X) : Prop :=
  block.generatedFromForIn = false ∧ checkSingleEntrySingleExit opts g block = none ∧
    checkGotoOnly opts g b block = false

/-- No rule applies to a block if it is there, nor to what is in it. -/
def StableBlock (opts : GlobalOptions) (stable : X → Prop) (b : BlockId) (g : BlockGroup ε X) :
    Prop :=
  ∀ block, g.blocks.find? b = some block → NoRule opts g b block ∧ ∀ e ∈ block.exprs, stable e

def Stable (opts : GlobalOptions) (stable : X → Prop) (g : BlockGroup ε X) : Prop :=
  ∀ b, StableBlock opts stable b g

/-- What a visit keeps. -/
structure Kept (wellFormed plain : X → Prop) (same : X → X → Prop) (entry : BlockId)
    (g g' : BlockGroup ε X) : Prop where
  wellFormed : WellFormed wellFormed plain entry g'
  same : SameFrom same g.codes g'.codes entry

def groupWeight (weight : X → Weight) (g : BlockGroup ε X) : Weight :=
  g.codes.total (Code.weight weight)

section Group

variable (opts : GlobalOptions) {inner : Inner X} {wellFormed plain : X → Prop}
  {same : X → X → Prop} {weight : X → Weight} {stable : X → Prop} {entry b : BlockId}
  {g g' : BlockGroup ε X}

lemma Lawful.kept_refl (hinner : Lawful inner wellFormed plain same weight stable)
    (h : WellFormed wellFormed plain entry g) : Kept wellFormed plain same entry g g :=
  ⟨h, .refl hinner.refl h.isEntry.live⟩

lemma Lawful.kept_trans (hinner : Lawful inner wellFormed plain same weight stable)
    {g g' g'' : BlockGroup ε X} (h : Kept wellFormed plain same entry g g')
    (h' : Kept wellFormed plain same entry g' g'') : Kept wellFormed plain same entry g g'' :=
  ⟨h'.wellFormed, h.same.trans hinner.trans h'.same⟩

lemma Progress.visits (hinner : Lawful inner wellFormed plain same weight stable)
    {stable' : BlockGroup ε X → Prop} (h : Progress wellFormed plain weight entry g g') :
    Visits (Kept wellFormed plain same entry) (groupWeight weight) stable' g (.ok (g', false)) :=
  Or.inr ⟨g', rfl, ⟨h.wellFormed, .of_eq hinner.refl h.same⟩, h.less⟩

lemma applyRule_spec (hinner : Lawful inner wellFormed plain same weight stable)
    (h : WellFormed wellFormed plain entry g) {block : Block ε X}
    (hblock : g.blocks.find? b = some block) :
    Visits (Kept wellFormed plain same entry) (groupWeight weight)
      (fun g => ∀ block, g.blocks.find? b = some block → NoRule opts g b block) g
      (applyRule opts inner g b block) := by
  rw [applyRule]
  by_cases hmark : block.generatedFromForIn = true
  · obtain ⟨g', heq, hprogress⟩ := mergeForInCondBlock_spec h hinner.clone hblock hmark
    rw [if_pos hmark, heq]
    exact hprogress.visits hinner
  · rw [if_neg hmark]
    rw [Bool.not_eq_true] at hmark
    cases hsingle : checkSingleEntrySingleExit opts g block with
    | some pred => exact (mergeIntoPredecessor_spec h hblock hmark hsingle).visits hinner
    | none =>
      dsimp only
      by_cases hgoto : checkGotoOnly opts g b block = true
      · rw [if_pos hgoto]
        exact (mergeGotoOnlyBlock_spec h hblock hgoto).visits hinner
      · rw [if_neg hgoto]
        refine Or.inl ⟨rfl, hinner.kept_refl h, fun block' hblock' => ?_⟩
        rw [hblock] at hblock'
        obtain rfl := Option.some.inj hblock'
        exact ⟨hmark, hsingle, Bool.not_eq_true _ ▸ hgoto⟩

lemma forall_mem_of_forall₂ {p : X → Prop} {es es' : List X}
    (h : List.Forall₂ (fun e e' => p e → p e') es es') (hes : ∀ e ∈ es, p e) : ∀ e ∈ es', p e := by
  induction h with
  | nil => exact hes
  | cons he _ ih =>
    obtain ⟨hp, hrest⟩ := List.forall_mem_cons.mp hes
    exact List.forall_mem_cons.mpr ⟨he hp, ih hrest⟩

/-- Expressions of a block exchanged for what their visits made of them. -/
lemma Lawful.kept_exprs (hinner : Lawful inner wellFormed plain same weight stable)
    (h : WellFormed wellFormed plain entry g) {c : Code ε X} (hc : g.codes.find? b = some c)
    {es : List X}
    (hes : List.Forall₂ (fun e e' => wellFormed e' ∧ same e e' ∧ (plain e → plain e')) c.exprs es) :
    Kept wellFormed plain same entry g
      (g.modifyBlock b fun block => { block with exprs := es }) := by
  have hcodes : (g.modifyBlock b fun block => { block with exprs := es }).codes =
      g.codes.modify b fun c => { c with exprs := es } := codes_modifyBlock fun _ => rfl
  have hedge : ∀ x y, EdgeIn (g.codes.modify b fun c => { c with exprs := es }) x y ↔
      EdgeIn g.codes x y := by
    intro x y
    refine edgeIn_modify_of_successors ?_
    exact fun _ => rfl
  -- every block is as before, but for the expressions of the one
  have hfind : ∀ {x c'}, (g.codes.modify b fun c => { c with exprs := es }).find? x = some c' →
      ∃ cx, g.codes.find? x = some cx ∧ c'.control = cx.control ∧
        c'.generatedFromForIn = cx.generatedFromForIn ∧
        List.Forall₂ (fun e e' => (wellFormed e → wellFormed e') ∧ (plain e → plain e'))
          cx.exprs c'.exprs := by
    intro x c' hc'
    rw [OrderedMap.find?_modify] at hc'
    split_ifs at hc' with hx
    · rw [hx, hc] at hc'
      obtain rfl := Option.some.inj hc'
      exact ⟨c, hx ▸ hc, rfl, rfl, hes.imp fun _ _ he => ⟨fun _ => he.1, he.2.2⟩⟩
    · exact ⟨c', hc', rfl, rfl, List.forall₂_same.mpr fun _ _ => ⟨id, id⟩⟩
  refine ⟨⟨?_, ?_, h.entryBlock, ?_, ?_, ?_⟩, ?_⟩
  · refine linked_modifyBlock h.linked (fun _ => rfl) ?_
    exact fun _ => rfl
  · rw [hcodes]
    intro x c' hc'
    obtain ⟨cx, hcx, hcontrol, -⟩ := hfind hc'
    rw [hcontrol]
    exact h.terminated hcx
  · rw [hcodes]
    refine ⟨fun hnone => h.isEntry.live (find?_modify_eq_none_iff.mp hnone), fun x hx => ?_⟩
    exact h.isEntry.unused x ((hedge x entry).mp hx)
  · rw [hcodes]
    intro x c' hc' hmark
    obtain ⟨cx, hcx, -, hmark', -⟩ := hfind hc'
    obtain ⟨hne, hpath, hplain⟩ := h.forIn hcx (hmark' ▸ hmark)
    have hpath' := Relation.ReflTransGen.mono (fun x y => (hedge x y).mpr) _ _ hpath
    refine ⟨hne, hpath', fun z hgo c' hc' => ?_⟩
    obtain ⟨cz, hcz, -, -, hall⟩ := hfind hc'
    have hgo' : Relation.ReflTransGen (GoesOn g.codes) x z := by
      refine Relation.ReflTransGen.mono ?_ _ _ hgo
      rintro u v ⟨cu, hcu, hcontrol⟩
      obtain ⟨cu', hcu', hcontrol', -⟩ := hfind hcu
      exact ⟨cu', hcu', hcontrol'.symm.trans hcontrol⟩
    exact forall_mem_of_forall₂ (hall.imp fun _ _ he => he.2) (hplain z hgo' cz hcz)
  · rw [hcodes]
    intro x c' e hc' he
    obtain ⟨cx, hcx, -, -, hall⟩ := hfind hc'
    exact forall_mem_of_forall₂ (hall.imp fun _ _ he => he.1) (fun _ => h.inner hcx) e he
  · rw [hcodes]
    exact .of_exprs hinner.refl hc (hes.imp fun _ _ he => he.2.1) h.isEntry.live

lemma visitExpressions_spec (hinner : Lawful inner wellFormed plain same weight stable)
    (h : WellFormed wellFormed plain entry g) (b : BlockId) :
    Visits (Kept wellFormed plain same entry) (groupWeight weight)
      (fun g => ∀ block, g.blocks.find? b = some block → ∀ e ∈ block.exprs, stable e) g
      (visitExpressions inner g b) := by
  rw [visitExpressions]
  cases hblock : g.blocks.find? b with
  | none =>
    refine Or.inl ⟨rfl, hinner.kept_refl h, fun block hblock' => ?_⟩
    rw [hblock] at hblock'
    exact absurd hblock' (Option.some_ne_none block).symm
  | some block =>
    have hb := find?_codes_of_find? hblock
    have heach := visitEach_spec block.exprs fun e he => hinner.visit e (h.inner hb he)
    rcases heach with ⟨hr, -, hstable⟩ | ⟨es, hr, hkept, hless⟩
    · refine Or.inl ⟨?_, hinner.kept_refl h, fun block' hblock' => ?_⟩
      · have hsame : (g.modifyBlock b fun block' => { block' with exprs := block.exprs }) = g := by
          rw [modifyBlock, OrderedMap.modify_eq_self]
          intro block' hblock'
          rw [hblock] at hblock'
          obtain rfl := Option.some.inj hblock'
          rfl
        simp only [bind, Except.bind, hr, hsame]
      · rw [hblock] at hblock'
        obtain rfl := Option.some.inj hblock'
        exact hstable
    · refine Or.inr ⟨g.modifyBlock b fun block => { block with exprs := es }, ?_,
        hinner.kept_exprs h hb hkept, ?_⟩
      · simp only [bind, Except.bind, hr]
      · have hcodes : (g.modifyBlock b fun block => { block with exprs := es }).codes =
            g.codes.modify b fun c => { c with exprs := es } := codes_modifyBlock fun _ => rfl
        have htotal := OrderedMap.total_modify (Code.weight weight) hb fun c =>
          { c with exprs := es }
        have hcode : Code.weight weight { block.code with exprs := es } <
            Code.weight weight block.code := add_lt_add_of_le_of_lt le_rfl hless
        rw [groupWeight, hcodes]
        refine lt_of_add_lt_add_right (a := Code.weight weight block.code) ?_
        rw [htotal]
        exact add_lt_add_of_le_of_lt le_rfl hcode

lemma visitBlock_spec (hinner : Lawful inner wellFormed plain same weight stable)
    (h : WellFormed wellFormed plain entry g) (b : BlockId) :
    Visits (Kept wellFormed plain same entry) (groupWeight weight) (StableBlock opts stable b) g
      (visitBlock opts inner g b) := by
  rw [visitBlock]
  cases hblock : g.blocks.find? b with
  | none =>
    refine Or.inl ⟨rfl, hinner.kept_refl h, fun block hblock' => ?_⟩
    rw [hblock] at hblock'
    exact absurd hblock' (Option.some_ne_none block).symm
  | some block =>
    have hboth := (applyRule_spec opts hinner h hblock).andThen
      (fun g' hg' => visitExpressions_spec hinner hg'.wellFormed b) hinner.kept_trans
    rcases hboth with ⟨hr, hkept, hrule, hexprs⟩ | hchanged
    · exact Or.inl ⟨hr, hkept, fun block hblock => ⟨hrule block hblock, hexprs block hblock⟩⟩
    · exact Or.inr hchanged

lemma visitBlocks_spec (hinner : Lawful inner wellFormed plain same weight stable)
    (h : WellFormed wellFormed plain entry g) (bs : List BlockId) :
    Visits (Kept wellFormed plain same entry) (groupWeight weight)
      (fun g => ∀ b ∈ bs, StableBlock opts stable b g) g (visitBlocks opts inner bs g) := by
  induction bs generalizing g with
  | nil => exact Or.inl ⟨rfl, hinner.kept_refl h, fun b hb => absurd hb List.not_mem_nil⟩
  | cons b bs ih =>
    have hboth := (visitBlock_spec opts hinner h b).andThen
      (fun g' hg' => ih hg'.wellFormed) hinner.kept_trans
    rcases hboth with ⟨hr, hkept, hfirst, hrest⟩ | hchanged
    · exact Or.inl ⟨hr, hkept, List.forall_mem_cons.mpr ⟨hfirst, hrest⟩⟩
    · exact Or.inr hchanged

theorem visitGroup_spec (hinner : Lawful inner wellFormed plain same weight stable)
    (h : WellFormed wellFormed plain entry g) :
    Visits (Kept wellFormed plain same entry) (groupWeight weight) (Stable opts stable) g
      (visitGroup opts inner g) := by
  rcases visitBlocks_spec opts hinner h (g.blocks.entries.map Prod.fst) with
    ⟨hr, hkept, hstable⟩ | hchanged
  · refine Or.inl ⟨hr, hkept, fun b block hblock => ?_⟩
    exact hstable b ((g.blocks.mem_keys_iff).mpr ⟨block, hblock⟩) block hblock
  · exact Or.inr hchanged

end Group

/-! ## Expressions with block groups -/

/-- Expressions that are copied as they are. -/
def PlainAt : (depth : ℕ) → Expression ε depth → Prop
  | 0, _ => True
  | _ + 1, e => e.2 = []

def WellFormedAt : (depth : ℕ) → Expression ε depth → Prop
  | 0, _ => True
  | depth + 1, e => ∀ g ∈ e.2, ∃ entry, WellFormed (WellFormedAt depth) (PlainAt depth) entry g

/-- The same expression, whose block groups are the same or execute the same. -/
def SameAt : (depth : ℕ) → Expression ε depth → Expression ε depth → Prop
  | 0 => Eq
  | depth + 1 => fun e e' =>
    e.1 = e'.1 ∧ List.Forall₂ (Relation.ReflGen (SameRuns (SameAt depth))) e.2 e'.2

def StableAt (opts : GlobalOptions) : (depth : ℕ) → Expression ε depth → Prop
  | 0, _ => True
  | depth + 1, e => ∀ g ∈ e.2, Stable opts (StableAt opts depth) g

def weightAt : (depth : ℕ) → Expression ε depth → Weight
  | 0, _ => 0
  | depth + 1, e => (e.2.map (groupWeight (weightAt depth))).sum

lemma SameRuns.trans {same : X → X → Prop} (hsame : ∀ a b c, same a b → same b c → same a c)
    {g g' g'' : BlockGroup ε X} (h : Relation.ReflGen (SameRuns same) g g')
    (h' : Relation.ReflGen (SameRuns same) g' g'') : Relation.ReflGen (SameRuns same) g g'' := by
  cases h' with
  | refl => exact h
  | single h' =>
    cases h with
    | refl => exact .single h'
    | single h =>
      obtain ⟨b, hb, hb', hfrom⟩ := h
      obtain ⟨d, hd, hd', hfrom'⟩ := h'
      obtain rfl := Option.some.inj (hb'.symm.trans hd)
      exact .single ⟨b, hb, hd', hfrom.trans hsame hfrom'⟩

/-- The visit and the copy of expressions, by induction on how deep their block groups go. -/
theorem lawful_innerAt (opts : GlobalOptions) (depth : ℕ) :
    Lawful (@innerAt ε opts depth) (WellFormedAt depth) (PlainAt depth) (SameAt depth)
      (weightAt depth) (StableAt opts depth) := by
  induction depth with
  | zero =>
    exact ⟨fun _ => rfl, fun _ _ _ => Eq.trans,
      fun e _ => Or.inl ⟨rfl, ⟨trivial, rfl, id⟩, trivial⟩, fun e _ => ⟨rfl, rfl⟩⟩
  | succ depth ih =>
    refine ⟨fun e => ⟨rfl, List.forall₂_same.mpr fun _ _ => .refl⟩, ?_, ?_, ?_⟩
    · rintro a b c ⟨hlabel, hgroups⟩ ⟨hlabel', hgroups'⟩
      refine ⟨hlabel.trans hlabel', forall₂_trans ?_ hgroups hgroups'⟩
      exact fun _ _ _ => SameRuns.trans ih.trans
    · rintro ⟨label, groups⟩ hwf
      have hgroup : ∀ g ∈ groups, Visits (fun g g' => (∃ entry, WellFormed (WellFormedAt depth)
          (PlainAt depth) entry g') ∧ Relation.ReflGen (SameRuns (SameAt depth)) g g')
          (groupWeight (weightAt depth)) (Stable opts (StableAt opts depth)) g
          (visitGroup opts (innerAt opts depth) g) := by
        intro g hg
        obtain ⟨entry, hentry⟩ := hwf g hg
        refine (visitGroup_spec opts ih hentry).imp fun g' hg' => ⟨⟨entry, hg'.wellFormed⟩, .single ?_⟩
        exact ⟨entry, hentry.entryBlock, hg'.wellFormed.entryBlock, hg'.same⟩
      -- a list of visited groups is one of groups that are well formed and the same
      have hkept : ∀ groups', List.Forall₂ (fun g g' => (∃ entry, WellFormed (WellFormedAt depth)
          (PlainAt depth) entry g') ∧ Relation.ReflGen (SameRuns (SameAt depth)) g g')
          groups groups' → WellFormedAt (depth + 1) (label, groups') ∧
            SameAt (depth + 1) (label, groups) (label, groups') ∧
            (PlainAt (depth + 1) (label, groups) → PlainAt (depth + 1) (label, groups')) := by
        intro groups' hall
        refine ⟨?_, ⟨rfl, hall.imp fun _ _ hg => hg.2⟩, ?_⟩
        · exact forall_mem_of_forall₂ (p := fun g => ∃ entry, WellFormed (WellFormedAt depth)
            (PlainAt depth) entry g) (hall.imp fun _ _ hg _ => hg.1) hwf
        · rintro (rfl : groups = [])
          exact List.forall₂_nil_left_iff.mp hall
      rcases visitEach_spec groups hgroup with ⟨hr, hall, hstable⟩ | ⟨groups', hr, hall, hless⟩
      · refine Or.inl ⟨?_, hkept groups hall, hstable⟩
        simp only [innerAt, bind, Except.bind, hr]
      · refine Or.inr ⟨(label, groups'), ?_, hkept groups' hall, hless⟩
        simp only [innerAt, bind, Except.bind, hr]
    · rintro ⟨label, groups⟩ hplain
      obtain rfl : groups = [] := hplain
      exact ⟨rfl, rfl⟩

/-! ## The loop -/

/-- The loop ends in a body to which no rule applies, which still has its entry block and whose
successors are its blocks, and the same is executed from the entry block. -/
theorem runOnFunc_spec (opts : GlobalOptions) (depth : ℕ) (entry : BlockId)
    (body : BlockGroup ε (Expression ε depth))
    (h : WellFormed (WellFormedAt depth) (PlainAt depth) entry body) :
    ∃ N body', (∀ fuel, N ≤ fuel → runOnFunc opts depth fuel body = some (.ok body')) ∧
      Stable opts (StableAt opts depth) body' ∧
      body'.blocks.find? entry ≠ none ∧
      (∀ b block, body'.blocks.find? b = some block →
        ∀ s ∈ block.getSuccessors, body'.blocks.find? s ≠ none) ∧
      SameRuns (SameAt depth) body body' := by
  induction hw : groupWeight (weightAt depth) body using WellFoundedLT.induction
    generalizing body with
  | ind w ih =>
    have hinner := @lawful_innerAt ε opts depth
    rcases visitGroup_spec opts hinner h with
      ⟨hr, -, hstable⟩ | ⟨body', hr, hkept, hless⟩
    · refine ⟨1, body, ?_, hstable, ?_, ?_, entry, h.entryBlock, h.entryBlock,
        .refl hinner.refl h.isEntry.live⟩
      · rintro (_ | fuel) hfuel
        · exact absurd hfuel (Nat.not_succ_le_zero 0)
        · rw [runOnFunc, hr]
          rfl
      · exact fun hnone => h.isEntry.live (find?_eq_none_iff.mp hnone)
      · intro b block hblock s hs hnone
        rw [Block.getSuccessors_eq] at hs
        exact h.linked.closed ⟨_, find?_codes_of_find? hblock, hs⟩ (find?_eq_none_iff.mp hnone)
    · obtain ⟨N, body'', hrun, hstable, hentry, hsuccs, b, hb, hb', hsame⟩ :=
        ih _ (hw ▸ hless) body' hkept.wellFormed rfl
      obtain rfl := Option.some.inj (hkept.wellFormed.entryBlock.symm.trans hb)
      refine ⟨N + 1, body'', ?_, hstable, hentry, hsuccs, entry, h.entryBlock, hb',
        hkept.same.trans hinner.trans hsame⟩
      rintro (_ | fuel) hfuel
      · exact absurd hfuel (Nat.not_succ_le_zero N)
      · rw [runOnFunc, hr]
        exact hrun fuel (Nat.le_of_succ_le_succ hfuel)

/-! ### A loop, and a for-in block without predecessors -/

def exampleBlock (exprs : List String) (control : Control String) (predecessors : List BlockId)
    (generatedFromForIn : Bool) : Block String (Expression String 0) where
  exprs := exprs
  terminator :=
    some { control, debugLocation := DebugLocation.INVALID_LOCATION, skipCheck := .NO_SKIP }
  predecessors := predecessors
  unreachable := false
  matchPattern := false
  generatedFromForIn := generatedFromForIn
  debugLocation := DebugLocation.INVALID_LOCATION
  skipCheck := .NO_SKIP

@[simp]
lemma code_exampleBlock (exprs : List String) (control : Control String)
    (predecessors : List BlockId) (generatedFromForIn : Bool) :
    (exampleBlock exprs control predecessors generatedFromForIn).code =
      ⟨exprs, some control, generatedFromForIn⟩ := rfl

@[simp]
lemma predecessors_exampleBlock (exprs : List String) (control : Control String)
    (predecessors : List BlockId) (generatedFromForIn : Bool) :
    (exampleBlock exprs control predecessors generatedFromForIn).predecessors = predecessors := rfl

/-- The second block is the condition of the loop. -/
def forInBody : BlockGroup String (Expression String 0) where
  entryBlock := some 1
  blocks := ⟨[(1, exampleBlock ["Store"] (.GOTO 2) [] false),
    (2, exampleBlock ["Load"] (.other "Branch" [3, 4]) [1, 3] true),
    (3, exampleBlock ["Apply"] (.GOTO 2) [2] false),
    (4, exampleBlock [] (.other "Exit" []) [2] false)], by simp⟩

lemma linked_forInBody : forInBody.Linked := by
  refine linked_iff.mpr fun b x => ?_
  simp [forInBody, Code.successors, Control.successors, or_and_right, exists_or, and_assoc]
  grind

lemma find?_codes_forInBody {b : BlockId} {c : Code String (Expression String 0)} :
    forInBody.codes.find? b = some c ↔ (b, c) ∈ [(1, ⟨["Store"], some (.GOTO 2), false⟩),
      (2, ⟨["Load"], some (.other "Branch" [3, 4]), true⟩),
      (3, ⟨["Apply"], some (.GOTO 2), false⟩), (4, ⟨[], some (.other "Exit" []), false⟩)] :=
  OrderedMap.find?_eq_some_iff _

lemma wellFormed_forInBody : WellFormed (WellFormedAt 0) (PlainAt 0) 1 forInBody where
  linked := linked_forInBody
  terminated := by
    intro b c hc
    simp only [find?_codes_forInBody, List.mem_cons, Prod.mk.injEq, List.not_mem_nil,
      or_false] at hc
    rcases hc with ⟨-, rfl⟩ | ⟨-, rfl⟩ | ⟨-, rfl⟩ | ⟨-, rfl⟩ <;> exact Option.some_ne_none _
  entryBlock := rfl
  isEntry := by
    refine ⟨Option.some_ne_none _, ?_⟩
    rintro x ⟨c, hc, hmem⟩
    simp only [find?_codes_forInBody, List.mem_cons, Prod.mk.injEq, List.not_mem_nil,
      or_false] at hc
    rcases hc with ⟨-, rfl⟩ | ⟨-, rfl⟩ | ⟨-, rfl⟩ | ⟨-, rfl⟩ <;>
      simp [Code.successors, Control.successors] at hmem
  forIn := by
    intro b c hc hmark
    simp only [find?_codes_forInBody, List.mem_cons, Prod.mk.injEq, List.not_mem_nil,
      or_false] at hc
    rcases hc with ⟨-, rfl⟩ | ⟨rfl, rfl⟩ | ⟨-, rfl⟩ | ⟨-, rfl⟩
    · exact absurd hmark Bool.false_ne_true
    · refine ⟨by decide, .single ⟨_, rfl, ?_⟩, fun _ _ _ _ _ _ => trivial⟩
      exact List.mem_singleton_self 2
    · exact absurd hmark Bool.false_ne_true
    · exact absurd hmark Bool.false_ne_true
  inner := fun _ _ => trivial

theorem runOnFunc_forInBody : ∃ N body',
    (∀ fuel, N ≤ fuel → runOnFunc ⟨false, false⟩ 0 fuel forInBody = some (.ok body')) ∧
      Stable ⟨false, false⟩ (StableAt ⟨false, false⟩ 0) body' ∧
      body'.blocks.find? 1 ≠ none ∧
      (∀ b block, body'.blocks.find? b = some block →
        ∀ s ∈ block.getSuccessors, body'.blocks.find? s ≠ none) ∧
      SameRuns (SameAt 0) forInBody body' :=
  runOnFunc_spec ⟨false, false⟩ 0 1 forInBody wellFormed_forInBody

/-- The second block is not reached. -/
def orphanBody : BlockGroup String (Expression String 0) where
  entryBlock := some 1
  blocks := ⟨[(1, exampleBlock [] (.other "Exit" []) [] false),
    (2, exampleBlock [] (.other "Exit" []) [] true)], by simp⟩

lemma linked_orphanBody : orphanBody.Linked := by
  refine linked_iff.mpr fun b x => ?_
  simp [orphanBody, Code.successors, Control.successors, or_and_right, exists_or]

lemma find?_codes_orphanBody {b : BlockId} {c : Code String (Expression String 0)}
    (h : orphanBody.codes.find? b = some c) : c.control = some (.other "Exit" []) := by
  have hmem : (b, c) ∈ [(1, ⟨[], some (.other "Exit" []), false⟩),
      (2, ⟨[], some (.other "Exit" []), true⟩)] := (OrderedMap.find?_eq_some_iff _).mp h
  simp only [List.mem_cons, Prod.mk.injEq, List.not_mem_nil, or_false] at hmem
  rcases hmem with ⟨-, rfl⟩ | ⟨-, rfl⟩ <;> rfl

/-- Terminators and an entry block without predecessors are not enough for the loop to end. -/
theorem not_runOnFunc_ends : ¬ ∀ (opts : GlobalOptions) (entry : BlockId)
    (body : BlockGroup String (Expression String 0)), body.Linked → Terminated body.codes →
    body.entryBlock = some entry → IsEntry body.codes entry →
    ∃ fuel body', runOnFunc opts 0 fuel body = some (.ok body') := by
  intro h
  have hterminated : Terminated orphanBody.codes := by
    intro b c hc
    rw [find?_codes_orphanBody hc]
    exact Option.some_ne_none _
  have hentry : IsEntry orphanBody.codes 1 := by
    refine ⟨Option.some_ne_none _, ?_⟩
    rintro x ⟨c, hc, hmem⟩
    rw [Code.successors, find?_codes_orphanBody hc] at hmem
    exact absurd hmem List.not_mem_nil
  obtain ⟨fuel, body', hrun⟩ := h ⟨false, false⟩ 1 orphanBody linked_orphanBody hterminated rfl
    hentry
  cases fuel with
  | zero => exact absurd hrun (Option.some_ne_none _).symm
  | succ fuel =>
    have herror : runOnFunc ⟨false, false⟩ 0 (fuel + 1) orphanBody =
        some (.error .noPredecessor) := rfl
    rw [herror] at hrun
    cases hrun

end Cangjie.CHIR.MergeBlocks
