import Mathlib.Data.List.Basic
import Mathlib.Order.Lattice

/-!
# Grouping of operators

A sequence of operands with operators between them is read as a tree by levels of precedence: an
operator of a higher level binds tighter, and the operators of one level group all to the left or
all to the right.  There is at most one such tree with a given reading (`Grouped.unique`).
-/

namespace OperatorGrouping

/-- Trees of binary operators. -/
inductive OpTree (α Ω : Type) where
  | operand (a : α)
  | node (op : Ω) (left right : OpTree α Ω)

variable {α Ω L : Type}

/-- The operands and operators of a tree from left to right. -/
def OpTree.reading : OpTree α Ω → List (α ⊕ Ω)
  | operand a => [.inl a]
  | node op left right => left.reading ++ .inr op :: right.reading

/-- The level of each operator, and the levels that group to the right. -/
structure Levels (Ω L : Type) where
  level : Ω → L
  toRight : L → Prop

variable [LinearOrder L]

namespace Levels

variable (g : Levels Ω L) {a b c : Ω}

/-- The operator `inner` may be in the left operand of `outer`. -/
def InLeft (inner outer : Ω) : Prop :=
  g.level outer < g.level inner ∨
    (g.level inner = g.level outer ∧ ¬ g.toRight (g.level outer))

/-- The operator `inner` may be in the right operand of `outer`. -/
def InRight (inner outer : Ω) : Prop :=
  g.level outer < g.level inner ∨ (g.level inner = g.level outer ∧ g.toRight (g.level outer))

variable {g}

theorem InLeft.trans (h : g.InLeft a b) (h' : g.InLeft b c) : g.InLeft a c := by
  rcases h with h | ⟨h, hleft⟩
  · rcases h' with h' | ⟨h', -⟩
    · exact .inl (lt_trans h' h)
    · exact .inl (h' ▸ h)
  · rcases h' with h' | ⟨h', hleft'⟩
    · exact .inl (h ▸ h')
    · exact .inr ⟨h.trans h', hleft'⟩

theorem InRight.trans (h : g.InRight a b) (h' : g.InRight b c) : g.InRight a c := by
  rcases h with h | ⟨h, hright⟩
  · rcases h' with h' | ⟨h', -⟩
    · exact .inl (lt_trans h' h)
    · exact .inl (h' ▸ h)
  · rcases h' with h' | ⟨h', hright'⟩
    · exact .inl (h ▸ h')
    · exact .inr ⟨h.trans h', hright'⟩

/-- An operator in the right operand of one that is itself on the left of a third. -/
theorem InRight.inLeft (h : g.InRight a b) (h' : g.InLeft b c) : g.InLeft a c := by
  rcases h with h | ⟨h, hright⟩
  · rcases h' with h' | ⟨h', -⟩
    · exact .inl (lt_trans h' h)
    · exact .inl (h' ▸ h)
  · rcases h' with h' | ⟨h', hleft⟩
    · exact .inl (h ▸ h')
    · exact absurd (h' ▸ hright) hleft

/-- Of two operators, the second is in the right operand of the first or the first in the left
operand of the second. -/
theorem inLeft_iff_not_inRight : g.InLeft a b ↔ ¬ g.InRight b a := by
  rw [InLeft, InRight]
  rcases lt_trichotomy (g.level b) (g.level a) with h | h | h
  · refine iff_of_true (.inl h) ?_
    rintro (h' | ⟨h', -⟩)
    · exact lt_asymm h h'
    · exact ne_of_lt h h'
  · rw [h, eq_false (lt_irrefl _), false_or, false_or, and_iff_right rfl, and_iff_right rfl]
  · refine iff_of_false ?_ (not_not_intro (.inl h))
    rintro (h' | ⟨h', -⟩)
    · exact lt_asymm h h'
    · exact ne_of_lt h h'

end Levels

variable (g : Levels Ω L)

/-- A tree in which tighter operators are below, and operators of one level are below on the side
to which the level groups. -/
def OpTree.Grouped : OpTree α Ω → Prop
  | operand _ => True
  | node op left right =>
    left.Grouped ∧ right.Grouped ∧ (∀ o, .inr o ∈ left.reading → g.InLeft o op) ∧
      ∀ o, .inr o ∈ right.reading → g.InRight o op

variable {g}

/-- Two places in one list are the same, or one is before the other. -/
theorem append_cons_eq_append_cons {β : Type} {a b c d : List β} {x y : β}
    (h : a ++ x :: b = c ++ y :: d) :
    (a = c ∧ x = y ∧ b = d) ∨ (∃ m, c = a ++ x :: m ∧ b = m ++ y :: d) ∨
      ∃ m, a = c ++ y :: m ∧ d = m ++ x :: b := by
  rcases List.append_eq_append_iff.mp h with ⟨m, rfl, hm⟩ | ⟨m, rfl, hm⟩
  · rcases m with _ | ⟨z, m⟩
    · obtain ⟨rfl, rfl⟩ := List.cons.inj hm
      exact .inl ⟨(List.append_nil _).symm, rfl, rfl⟩
    · obtain ⟨rfl, rfl⟩ := List.cons.inj hm
      exact .inr (.inl ⟨m, rfl, rfl⟩)
  · rcases m with _ | ⟨z, m⟩
    · obtain ⟨rfl, rfl⟩ := List.cons.inj hm
      exact .inl ⟨List.append_nil _, rfl, rfl⟩
    · obtain ⟨rfl, rfl⟩ := List.cons.inj hm
      exact .inr (.inr ⟨m, rfl, rfl⟩)

namespace OpTree

theorem reading_ne_nil (t : OpTree α Ω) : t.reading ≠ [] := by
  cases t with
  | operand a => exact List.cons_ne_nil _ _
  | node op left right => exact List.append_ne_nil_of_right_ne_nil _ (List.cons_ne_nil _ _)

/-- A node does not read like an operand. -/
theorem reading_node_ne {op : Ω} {left right : OpTree α Ω} {a : α} :
    (node op left right).reading ≠ [.inl a] := by
  intro h
  have hlength := congrArg List.length h
  rw [reading, List.length_append, List.length_cons, List.length_singleton] at hlength
  have hleft := List.length_pos_of_ne_nil left.reading_ne_nil
  omega

/-- The grouping of a sequence is unique. -/
theorem Grouped.unique {t t' : OpTree α Ω} (h : t.Grouped g) (h' : t'.Grouped g)
    (hreading : t.reading = t'.reading) : t = t' := by
  induction t generalizing t' with
  | operand a =>
    cases t' with
    | operand b =>
      cases hreading
      rfl
    | node op left right => exact absurd hreading.symm reading_node_ne
  | node op left right ihleft ihright =>
    obtain ⟨hleft, hright, hinLeft, hinRight⟩ := h
    cases t' with
    | operand b => exact absurd hreading reading_node_ne
    | node op' left' right' =>
      obtain ⟨hleft', hright', hinLeft', hinRight'⟩ := h'
      rcases append_cons_eq_append_cons hreading with ⟨hl, hop, hr⟩ | ⟨m, hl, hr⟩ | ⟨m, hl, hr⟩
      · rw [ihleft hleft hleft' hl, ihright hright hright' hr, Sum.inr.inj hop]
      · -- the root of the second tree is in the right operand of the first one
        have hop' : g.InRight op' op :=
          hinRight op' (hr ▸ List.mem_append_right _ List.mem_cons_self)
        have hop : g.InLeft op op' :=
          hinLeft' op (hl ▸ List.mem_append_right _ List.mem_cons_self)
        exact absurd hop' (Levels.inLeft_iff_not_inRight.mp hop)
      · have hop' : g.InLeft op' op :=
          hinLeft op' (hl ▸ List.mem_append_right _ List.mem_cons_self)
        have hop : g.InRight op op' :=
          hinRight' op (hr ▸ List.mem_append_right _ List.mem_cons_self)
        exact absurd hop (Levels.inLeft_iff_not_inRight.mp hop')

variable (g)

/-- The operators `earlier` and `later` of one level are neighbours in the tree, with the tree
`between` as their common operand. -/
def Meet : OpTree α Ω → Ω → OpTree α Ω → Ω → Prop
  | operand _, _, _, _ => False
  | node op left right, earlier, between, later =>
    left.Meet earlier between later ∨ right.Meet earlier between later ∨
      (later = op ∧ g.level earlier = g.level later ∧ ∃ l, left = node earlier l between) ∨
      (earlier = op ∧ g.level earlier = g.level later ∧ ∃ r, right = node later between r)

variable {g}

omit [LinearOrder L] in
/-- Operators that meet are of one level. -/
theorem Meet.level_eq {t between : OpTree α Ω} {earlier later : Ω}
    (h : t.Meet g earlier between later) : g.level earlier = g.level later := by
  induction t with
  | operand a => exact h.elim
  | node op left right ihleft ihright =>
    rcases h with h | h | ⟨-, hlevel, -⟩ | ⟨-, hlevel, -⟩
    · exact ihleft h
    · exact ihright h
    · exact hlevel
    · exact hlevel

end OpTree

end OperatorGrouping
