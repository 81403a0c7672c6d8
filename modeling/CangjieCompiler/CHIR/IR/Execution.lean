import CangjieCompiler.CHIR.IR.BlockEdges
import CangjieCompiler.Foundations.WeakSimulation

/-!
# Executions of a block group

An execution starts at a block and executes expressions one after the other.  Its branches follow
a sequence of outcomes that is given in advance; going on with a GoTo is silent.
-/

namespace Cangjie.CHIR.IR

variable {ε X : Type}

/-- The code of every block of a group. -/
abbrev Codes (ε X : Type) := OrderedMap BlockId (Code ε X)

/-- What is left to execute in a block, and the outcomes of the branches to come. -/
structure Point (ε X : Type) where
  exprs : List X
  control : Option (Control ε)
  outcomes : ℕ → ℕ

/-- An executed expression. -/
inductive Executed (ε X : Type)
  | expression (e : X)
  | terminator (label : ε)

def Code.point (c : Code ε X) (outcomes : ℕ → ℕ) : Point ε X where
  exprs := c.exprs
  control := c.control
  outcomes := outcomes

/-- One step of an execution. -/
inductive Step (codes : Codes ε X) : Point ε X → Option (Executed ε X) → Point ε X → Prop
  | expression {e : X} {es : List X} {k : Option (Control ε)} {os : ℕ → ℕ} :
    Step codes ⟨e :: es, k, os⟩ (some (.expression e)) ⟨es, k, os⟩
  | goTo {d : BlockId} {c : Code ε X} {os : ℕ → ℕ} (h : codes.find? d = some c) :
    Step codes ⟨[], some (.GOTO d), os⟩ none (c.point os)
  | branch {label : ε} {ss : List BlockId} {s : BlockId} {c : Code ε X} {os : ℕ → ℕ}
    (hs : ss[os 0]? = some s) (h : codes.find? s = some c) :
    Step codes ⟨[], some (.other label ss), os⟩ (some (.terminator label))
      (c.point fun n => os (n + 1))
  | last {label : ε} {ss : List BlockId} {os : ℕ → ℕ} (hs : ss[os 0]? = none) :
    Step codes ⟨[], some (.other label ss), os⟩ (some (.terminator label)) ⟨[], none, os⟩

/-- Executed expressions that are the same up to a relation of expressions. -/
inductive Executed.Same (same : X → X → Prop) : Executed ε X → Executed ε X → Prop
  | expression {e e' : X} (h : same e e') : Same same (.expression e) (.expression e')
  | terminator (label : ε) : Same same (.terminator label) (.terminator label)

lemma Executed.Same.trans {same : X → X → Prop} (hsame : ∀ a b c, same a b → same b c → same a c)
    {a b c : Executed ε X} (h : Executed.Same same a b) (h' : Executed.Same same b c) :
    Executed.Same same a c := by
  cases h with
  | expression h =>
    cases h' with
    | expression h' => exact .expression (hsame _ _ _ h h')
  | terminator label => exact h'

lemma Executed.Same.of_eq {same : X → X → Prop} (hsame : ∀ e, same e e) {a b : Executed ε X}
    (h : Executed.Same Eq a b) : Executed.Same same a b := by
  cases h with
  | expression h => exact h ▸ .expression (hsame _)
  | terminator label => exact .terminator label

/-! ## The same executions -/

/-- From a block, both groups execute the same for all outcomes. -/
structure SameFrom (same : X → X → Prop) (codes codes' : Codes ε X) (b : BlockId) : Prop where
  exists_code : ∃ c c', codes.find? b = some c ∧ codes'.find? b = some c'
  forth : ∀ {c c'}, codes.find? b = some c → codes'.find? b = some c' → ∀ {os l},
    Traces (Step codes) (c.point os) l →
      ∃ l', Traces (Step codes') (c'.point os) l' ∧ List.Forall₂ (Executed.Same same) l l'
  back : ∀ {c c'}, codes.find? b = some c → codes'.find? b = some c' → ∀ {os l'},
    Traces (Step codes') (c'.point os) l' →
      ∃ l, Traces (Step codes) (c.point os) l ∧ List.Forall₂ (Executed.Same same) l l'

/-- Relations of points that can be followed, one in each direction. -/
lemma SameFrom.of_simulates {same : X → X → Prop} {codes codes' : Codes ε X} {b : BlockId}
    {related related' : Point ε X → Point ε X → Prop}
    (hforth : Simulates (Step codes) (Step codes') (Executed.Same same) related)
    (hback : Simulates (Step codes') (Step codes) (fun a' a => Executed.Same same a a') related')
    {c c' : Code ε X} (hc : codes.find? b = some c) (hc' : codes'.find? b = some c')
    (hrelated : ∀ os, related (c.point os) (c'.point os))
    (hrelated' : ∀ os, related' (c'.point os) (c.point os)) : SameFrom same codes codes' b where
  exists_code := ⟨c, c', hc, hc'⟩
  forth := by
    intro d d' hd hd' os l htrace
    obtain rfl := Option.some.inj (hc.symm.trans hd)
    obtain rfl := Option.some.inj (hc'.symm.trans hd')
    exact hforth.traces (hrelated os) htrace
  back := by
    intro d d' hd hd' os l' htrace
    obtain rfl := Option.some.inj (hc.symm.trans hd)
    obtain rfl := Option.some.inj (hc'.symm.trans hd')
    obtain ⟨l, htrace', hl⟩ := hback.traces (hrelated' os) htrace
    exact ⟨l, htrace', hl.flip⟩

lemma SameFrom.refl {same : X → X → Prop} (hsame : ∀ e, same e e) {codes : Codes ε X}
    {b : BlockId} (hb : codes.find? b ≠ none) : SameFrom same codes codes b := by
  obtain ⟨c, hc⟩ := Option.ne_none_iff_exists'.mp hb
  have hexecuted : ∀ a : Executed ε X, Executed.Same same a a := by
    intro a
    cases a with
    | expression e => exact .expression (hsame e)
    | terminator label => exact .terminator label
  refine ⟨⟨c, c, hc, hc⟩, ?_, ?_⟩
  all_goals
    intro d d' hd hd' os l htrace
    obtain rfl := Option.some.inj (hd.symm.trans hd')
    exact ⟨l, htrace, List.forall₂_same.mpr fun a _ => hexecuted a⟩

lemma SameFrom.trans {same : X → X → Prop} (hsame : ∀ a b c, same a b → same b c → same a c)
    {codes codes' codes'' : Codes ε X} {b : BlockId} (h : SameFrom same codes codes' b)
    (h' : SameFrom same codes' codes'' b) : SameFrom same codes codes'' b := by
  obtain ⟨c, c', hc, hc'⟩ := h.exists_code
  obtain ⟨-, c'', -, hc''⟩ := h'.exists_code
  have htrans : ∀ a b c : Executed ε X, Executed.Same same a b → Executed.Same same b c →
      Executed.Same same a c := fun _ _ _ => Executed.Same.trans hsame
  refine ⟨⟨c, c'', hc, hc''⟩, ?_, ?_⟩
  · intro d d'' hd hd'' os l htrace
    obtain ⟨l', htrace', hl⟩ := h.forth hd hc' htrace
    obtain ⟨l'', htrace'', hl'⟩ := h'.forth hc' hd'' htrace'
    exact ⟨l'', htrace'', forall₂_trans htrans hl hl'⟩
  · intro d d'' hd hd'' os l'' htrace
    obtain ⟨l', htrace', hl'⟩ := h'.back hc' hd'' htrace
    obtain ⟨l, htrace'', hl⟩ := h.back hd hc' htrace'
    exact ⟨l, htrace'', forall₂_trans htrans hl hl'⟩

lemma SameFrom.of_eq {same : X → X → Prop} (hsame : ∀ e, same e e) {codes codes' : Codes ε X}
    {b : BlockId} (h : SameFrom Eq codes codes' b) : SameFrom same codes codes' b where
  exists_code := h.exists_code
  forth := by
    intro c c' hc hc' os l htrace
    obtain ⟨l', htrace', hl⟩ := h.forth hc hc' htrace
    exact ⟨l', htrace', hl.imp fun _ _ => Executed.Same.of_eq hsame⟩
  back := by
    intro c c' hc hc' os l' htrace
    obtain ⟨l, htrace', hl⟩ := h.back hc hc' htrace
    exact ⟨l, htrace', hl.imp fun _ _ => Executed.Same.of_eq hsame⟩

/-! ## Changed expressions -/

/-- Points that differ in expressions that are the same. -/
def PointSame (same : X → X → Prop) (p p' : Point ε X) : Prop :=
  List.Forall₂ same p.exprs p'.exprs ∧ p.control = p'.control ∧ p.outcomes = p'.outcomes

lemma simulates_changed {same : X → X → Prop} {codes codes' : Codes ε X}
    (hcodes : ∀ {b c}, codes.find? b = some c → ∃ c', codes'.find? b = some c' ∧
      List.Forall₂ same c.exprs c'.exprs ∧ c.control = c'.control)
    {executed : Executed ε X → Executed ε X → Prop}
    (hexpression : ∀ e e', same e e' → executed (.expression e) (.expression e'))
    (hterminator : ∀ label, executed (.terminator label) (.terminator label)) :
    Simulates (Step codes) (Step codes') executed (PointSame same) where
  silent := by
    rintro p ⟨es', k', os'⟩ t ⟨hexprs, hcontrol, hos⟩ hstep
    obtain rfl : _ = os' := hos
    obtain rfl : _ = k' := hcontrol
    cases hstep with
    | goTo hd =>
      obtain rfl := List.forall₂_nil_left_iff.mp hexprs
      obtain ⟨c', hc', hes, hk⟩ := hcodes hd
      exact ⟨_, .single (.goTo hc'), hes, hk, rfl⟩
  visible := by
    rintro p ⟨es', k', os'⟩ a t ⟨hexprs, hcontrol, hos⟩ hstep
    obtain rfl : _ = os' := hos
    obtain rfl : _ = k' := hcontrol
    cases hstep with
    | expression =>
      obtain ⟨e', es', he, hes, rfl⟩ := List.forall₂_cons_left_iff.mp hexprs
      exact ⟨_, _, _, .refl, .expression, hexpression _ _ he, hes, rfl, rfl⟩
    | branch hs hd =>
      obtain rfl := List.forall₂_nil_left_iff.mp hexprs
      obtain ⟨c', hc', hes, hk⟩ := hcodes hd
      exact ⟨_, _, _, .refl, .branch hs hc', hterminator _, hes, hk, rfl⟩
    | last hs =>
      obtain rfl := List.forall₂_nil_left_iff.mp hexprs
      exact ⟨_, _, _, .refl, .last hs, hterminator _, .nil, rfl, rfl⟩

/-- Expressions of a block exchanged for expressions that are the same. -/
theorem SameFrom.of_exprs {same : X → X → Prop} (hsame : ∀ e, same e e) {codes : Codes ε X}
    {b entry : BlockId} {c : Code ε X} {es : List X} (hc : codes.find? b = some c)
    (hes : List.Forall₂ same c.exprs es) (hentry : codes.find? entry ≠ none) :
    SameFrom same codes (codes.modify b fun c => { c with exprs := es }) entry := by
  have hforth : ∀ {x cx}, codes.find? x = some cx →
      ∃ cx', (codes.modify b fun c => { c with exprs := es }).find? x = some cx' ∧
        List.Forall₂ same cx.exprs cx'.exprs ∧ cx.control = cx'.control := by
    intro x cx hx
    rw [OrderedMap.find?_modify, hx]
    split_ifs with hxb
    · rw [hxb, hc] at hx
      obtain rfl := Option.some.inj hx
      exact ⟨_, rfl, hes, rfl⟩
    · exact ⟨cx, rfl, List.forall₂_same.mpr fun e _ => hsame e, rfl⟩
  have hback : ∀ {x cx'}, (codes.modify b fun c => { c with exprs := es }).find? x = some cx' →
      ∃ cx, codes.find? x = some cx ∧
        List.Forall₂ (fun e' e => same e e') cx'.exprs cx.exprs ∧ cx'.control = cx.control := by
    intro x cx' hx'
    have hlive : codes.find? x ≠ none := by
      intro hnone
      rw [BlockGroup.find?_modify_eq_none_iff.mpr hnone] at hx'
      exact absurd hx' (Option.some_ne_none cx').symm
    obtain ⟨cx, hx⟩ := Option.ne_none_iff_exists'.mp hlive
    obtain ⟨d, hd, hexprs, hcontrol⟩ := hforth hx
    rw [hx'] at hd
    obtain rfl := Option.some.inj hd
    exact ⟨cx, hx, hexprs.flip, hcontrol.symm⟩
  obtain ⟨ce, hce⟩ := Option.ne_none_iff_exists'.mp hentry
  obtain ⟨ce', hce', hexprs, hcontrol⟩ := hforth hce
  exact .of_simulates
    (simulates_changed hforth (fun _ _ => .expression) .terminator)
    (simulates_changed hback (fun _ _ => .expression) .terminator) hce hce'
    (fun _ => ⟨hexprs, hcontrol, rfl⟩) fun _ => ⟨hexprs.flip, hcontrol.symm, rfl⟩

/-- Both groups have the same entry block and execute the same from there. -/
def SameRuns (same : X → X → Prop) (g g' : BlockGroup ε X) : Prop :=
  ∃ b, g.entryBlock = some b ∧ g'.entryBlock = some b ∧ SameFrom same g.codes g'.codes b

end Cangjie.CHIR.IR
