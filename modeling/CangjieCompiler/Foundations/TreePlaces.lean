import Mathlib.Data.List.Basic
import Mathlib.Data.Nat.Notation

/-!
# Places in trees

A tree whose nodes have a list of children is read and written along paths.  An index on a path is
mapped to the position of a child by a function of the node, since some nodes keep a slot of their
own before their children.  What was written is what is read, and writing what is there changes
nothing.
-/

namespace TreePlaces

/-- Nodes with a list of children that can be replaced by another list of the same length. -/
structure ContentTree (τ : Type) where
  content : τ → List τ
  withContent : τ → List τ → τ
  content_withContent : ∀ t c, c.length = (content t).length → content (withContent t c) = c
  withContent_content : ∀ t, withContent t (content t) = t

variable {τ : Type} (T : ContentTree τ)

/-- How a node maps the indices to the positions of its children.  It does not depend on the
children. -/
structure Positions where
  position : τ → ℕ → ℕ
  position_withContent : ∀ t c, c.length = (T.content t).length →
    position (T.withContent t c) = position t

/-- The positions that are the indices themselves. -/
def Positions.plain : Positions T := ⟨fun _ i => i, fun _ _ _ => rfl⟩

variable {T} (P : Positions T)

/-- The child of an index. -/
def child (t : τ) (i : ℕ) : Option τ := (T.content t)[P.position t i]?

/-- Replacing the child of an index. -/
def setChild (t : τ) (i : ℕ) (u : τ) : τ := T.withContent t ((T.content t).set (P.position t i) u)

/-- Reading along a path. -/
def read : τ → List ℕ → Option τ
  | t, [] => some t
  | t, i :: path => (child P t i).bind fun u => read u path

/-- Writing along a path. -/
def write (w : τ) : τ → List ℕ → Option τ
  | _, [] => some w
  | t, i :: path => (child P t i).bind fun u => (write w u path).map (setChild P t i)

/-- The positions along a path. -/
def locate : τ → List ℕ → Option (List ℕ)
  | _, [] => some []
  | t, i :: path => (child P t i).bind fun u => (locate u path).map (P.position t i :: ·)

variable {P} {t t' u w : τ} {i j : ℕ} {path rest : List ℕ}

attribute [local simp] read write locate

/-! ## Children -/

lemma content_setChild : T.content (setChild P t i u) = (T.content t).set (P.position t i) u :=
  T.content_withContent t _ List.length_set

lemma position_setChild : P.position (setChild P t i u) = P.position t :=
  P.position_withContent t _ List.length_set

/-- The child that was set. -/
lemma child_setChild_self (h : child P t i = some u) : child P (setChild P t i w) i = some w := by
  have hlt : P.position t i < (T.content t).length := (List.getElem?_eq_some_iff.mp h).1
  rw [child, content_setChild, position_setChild, List.getElem?_set_self hlt]

/-- The other children. -/
lemma child_setChild_of_ne (h : P.position t i ≠ P.position t j) :
    child P (setChild P t i w) j = child P t j := by
  rw [child, content_setChild, position_setChild, List.getElem?_set_ne h, child]

/-- Setting a child to what it is. -/
lemma setChild_child (h : child P t i = some u) : setChild P t i u = t := by
  obtain ⟨hlt, hget⟩ := List.getElem?_eq_some_iff.mp h
  rw [setChild, ← hget, List.set_getElem_self, T.withContent_content]

/-! ## Paths -/

lemma read_cons (h : child P t i = some u) : read P t (i :: path) = read P u path := by
  rw [read, h, Option.bind_some]

lemma write_cons (h : child P t i = some u) :
    write P w t (i :: path) = (write P w u path).map (setChild P t i) := by
  rw [write, h, Option.bind_some]

/-- A path can be written when it can be read. -/
lemma write_isSome_iff : (write P w t path).isSome ↔ (read P t path).isSome := by
  induction path generalizing t with
  | nil => exact ⟨fun _ => rfl, fun _ => rfl⟩
  | cons i path ih =>
    rw [write, read]
    cases child P t i with
    | none => exact Iff.rfl
    | some u =>
      rw [Option.bind_some, Option.bind_some, Option.isSome_map]
      exact ih

/-- What was written is read. -/
theorem read_write (h : write P w t path = some t') : read P t' path = some w := by
  induction path generalizing t t' with
  | nil =>
    obtain rfl := Option.some.inj h
    rfl
  | cons i path ih =>
    rw [write] at h
    obtain ⟨u, hu, hwrite⟩ := Option.bind_eq_some_iff.mp h
    obtain ⟨u', hu', rfl⟩ := Option.map_eq_some_iff.mp hwrite
    rw [read_cons (child_setChild_self hu)]
    exact ih hu'

/-- Writing what is there changes nothing. -/
theorem write_of_read (h : read P t path = some w) : write P w t path = some t := by
  induction path generalizing t with
  | nil => exact h.symm
  | cons i path ih =>
    rw [read] at h
    obtain ⟨u, hu, hread⟩ := Option.bind_eq_some_iff.mp h
    rw [write_cons hu, ih hread, Option.map_some, setChild_child hu]

lemma read_append : read P t (path ++ rest) = (read P t path).bind fun u => read P u rest := by
  induction path generalizing t with
  | nil => rfl
  | cons i path ih =>
    rw [List.cons_append, read, read]
    cases child P t i with
    | none => rfl
    | some u => exact ih

/-- Writing below a node writes into what is read there. -/
lemma write_append (h : read P t path = some u) :
    write P w t (path ++ rest) = (write P w u rest).bind fun u' => write P u' t path := by
  induction path generalizing t with
  | nil =>
    obtain rfl := Option.some.inj h
    rw [List.nil_append]
    cases write P w t rest <;> rfl
  | cons i path ih =>
    rw [read] at h
    obtain ⟨v, hv, hread⟩ := Option.bind_eq_some_iff.mp h
    rw [List.cons_append, write_cons hv, ih hread]
    cases write P w u rest with
    | none => rfl
    | some u' => exact (write_cons hv).symm

/-! ## Located paths -/

lemma locate_isSome_iff : (locate P t path).isSome ↔ (read P t path).isSome := by
  induction path generalizing t with
  | nil => exact ⟨fun _ => rfl, fun _ => rfl⟩
  | cons i path ih =>
    rw [locate, read]
    cases child P t i with
    | none => exact Iff.rfl
    | some u =>
      rw [Option.bind_some, Option.bind_some, Option.isSome_map]
      exact ih

/-- Reading at the positions of a path is reading along the path. -/
theorem read_locate {positions : List ℕ} (h : locate P t path = some positions) :
    read (Positions.plain T) t positions = read P t path := by
  induction path generalizing t positions with
  | nil =>
    obtain rfl := Option.some.inj h
    rfl
  | cons i path ih =>
    rw [locate] at h
    obtain ⟨u, hu, hlocate⟩ := Option.bind_eq_some_iff.mp h
    obtain ⟨below, hbelow, rfl⟩ := Option.map_eq_some_iff.mp hlocate
    have hplain : child (Positions.plain T) t (P.position t i) = some u := hu
    rw [read_cons hplain, read_cons hu]
    exact ih hbelow

/-- Writing at the positions of a path is writing along the path. -/
theorem write_locate {positions : List ℕ} (h : locate P t path = some positions) :
    write (Positions.plain T) w t positions = write P w t path := by
  induction path generalizing t positions with
  | nil =>
    obtain rfl := Option.some.inj h
    rfl
  | cons i path ih =>
    rw [locate] at h
    obtain ⟨u, hu, hlocate⟩ := Option.bind_eq_some_iff.mp h
    obtain ⟨below, hbelow, rfl⟩ := Option.map_eq_some_iff.mp hlocate
    have hplain : child (Positions.plain T) t (P.position t i) = some u := hu
    rw [write_cons hplain, write_cons hu, ih hbelow]
    rfl

end TreePlaces
