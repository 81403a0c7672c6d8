import Mathlib.Data.List.Basic
import Mathlib.Logic.Function.Basic

/-!
# Images with forward references

A one-pass linker writes an image of words.  A word that stands for the index of a name is written
at once when the name is defined; otherwise a default is written, the site is remembered, and it is
patched when the name is defined.

The symbolic image is the image as the linker means it: every cell is either a word or a reference
to a name.  The invariant `Represents` says that the image is the symbolic one with the references
resolved by the names defined so far, and that the remembered sites of an undefined name are
exactly the cells that refer to it.  Each operation of the linker keeps it.
-/

namespace Cangjie.SymbolicImage

variable {ν : Type} [DecidableEq ν]

/-- A cell of a symbolic image. -/
inductive Cell (ν : Type) where
  | word (value : ℕ)
  | ref (name : ν)
  deriving DecidableEq

/-- The word of a cell under the names defined so far. -/
def Cell.resolve (env : ν → Option ℕ) (unknown : ℕ) : Cell ν → ℕ
  | .word value => value
  | .ref name => (env name).getD unknown

/-- The indices of the cells that refer to a name. -/
def sites (cells : List (Cell ν)) (name : ν) : List ℕ :=
  cells.findIdxs (fun cell => decide (cell = .ref name))

/-- Writing the same word at each of a list of indices. -/
def patch (image : List ℕ) (indices : List ℕ) (value : ℕ) : List ℕ :=
  indices.foldl (fun image i => image.set i value) image

/-! ## Sites and patches -/

lemma mem_sites {cells : List (Cell ν)} {name : ν} {i : ℕ} :
    i ∈ sites cells name ↔ cells[i]? = some (.ref name) := by
  rw [sites, List.mem_findIdxs_iff_exists_getElem_pos]
  simp [List.getElem?_eq_some_iff]

/-- A list of words has no sites. -/
lemma sites_append_words (cells : List (Cell ν)) (words : List ℕ) (name : ν) :
    sites (cells ++ words.map .word) name = sites cells name := by
  have hwords : (words.map (Cell.word (ν := ν))).findIdxs
      (fun cell => decide (cell = .ref name)) (0 + cells.length) = [] := by
    rw [List.findIdxs_eq_nil_iff]
    intro cell hcell
    obtain ⟨value, -, rfl⟩ := List.mem_map.mp hcell
    simp
  rw [sites, List.findIdxs_append, hwords, List.append_nil, sites]

/-- A reference adds its own index to the sites of its name only. -/
lemma sites_append_ref (cells : List (Cell ν)) (name name' : ν) :
    sites (cells ++ [.ref name]) name' =
      if name = name' then sites cells name' ++ [cells.length] else sites cells name' := by
  rw [sites, List.findIdxs_append, List.findIdxs_singleton]
  by_cases h : name = name'
  · simp [h, sites]
  · simp [h, sites]

/-- The sites do not depend on the words between the references. -/
lemma sites_word_irrelevant (front back : List (Cell ν)) (old value : ℕ) (name : ν) :
    sites (front ++ .word value :: back) name = sites (front ++ .word old :: back) name := by
  simp [sites, List.findIdxs_append, List.findIdxs_cons]

/-- Overwriting a word does not change the sites. -/
lemma sites_set_word {cells : List (Cell ν)} {i old : ℕ} (hword : cells[i]? = some (.word old))
    (value : ℕ) (name : ν) : sites (cells.set i (.word value)) name = sites cells name := by
  obtain ⟨hlt, hget⟩ := List.getElem?_eq_some_iff.mp hword
  have hsplit : cells = cells.take i ++ .word old :: cells.drop (i + 1) := by
    rw [← hget, List.getElem_cons_drop, List.take_append_drop]
  rw [List.set_eq_take_append_cons_drop, if_pos hlt, sites_word_irrelevant _ _ old, ← hsplit]

lemma getElem?_patch (image indices : List ℕ) (value j : ℕ) :
    (patch image indices value)[j]? =
      if j ∈ indices then image[j]?.map (fun _ => value) else image[j]? := by
  induction indices generalizing image with
  | nil => simp [patch]
  | cons i rest ih =>
    have hstep : patch image (i :: rest) value = patch (image.set i value) rest value := rfl
    rw [hstep, ih]
    by_cases hij : i = j
    · subst hij
      by_cases hlt : i < image.length
      · simp [hlt]
      · have hle : image.length ≤ i := Nat.le_of_not_lt hlt
        simp [hle]
    · have hji : j ≠ i := fun h => hij h.symm
      simp [List.getElem?_set_ne hij, hji]

lemma length_patch (image indices : List ℕ) (value : ℕ) :
    (patch image indices value).length = image.length := by
  induction indices generalizing image with
  | nil => rfl
  | cons i rest ih =>
    have hstep : patch image (i :: rest) value = patch (image.set i value) rest value := rfl
    rw [hstep, ih, List.length_set]

/-! ## The invariant -/

/-- The image stands for the symbolic one under the names defined so far, and the remembered sites
of a name are those that refer to it, as long as it is undefined. -/
structure Represents (image : List ℕ) (cells : List (Cell ν)) (env : ν → Option ℕ)
    (pending : ν → Option (List ℕ)) (unknown : ℕ) : Prop where
  image_eq : image = cells.map (Cell.resolve env unknown)
  pending_undefined : ∀ name, env name = none → (pending name).getD [] = sites cells name
  pending_defined : ∀ name, env name ≠ none → pending name = none

namespace Represents

variable {image : List ℕ} {cells : List (Cell ν)} {env : ν → Option ℕ}
  {pending : ν → Option (List ℕ)} {unknown : ℕ}

lemma length_eq (h : Represents image cells env pending unknown) :
    image.length = cells.length := by
  rw [h.image_eq, List.length_map]

/-- Appending words. -/
theorem push (h : Represents image cells env pending unknown) (words : List ℕ) :
    Represents (image ++ words) (cells ++ words.map .word) env pending unknown where
  image_eq := by
    rw [List.map_append, ← h.image_eq, List.map_map]
    have hid : (Cell.resolve env unknown ∘ Cell.word) = id := rfl
    rw [hid, List.map_id]
  pending_undefined := fun name hname => by
    rw [h.pending_undefined name hname, sites_append_words]
  pending_defined := h.pending_defined

/-- Appending a reference to a name that is defined. -/
theorem push_defined (h : Represents image cells env pending unknown) {name : ν} {index : ℕ}
    (hdef : env name = some index) :
    Represents (image ++ [index]) (cells ++ [.ref name]) env pending unknown where
  image_eq := by
    rw [List.map_append, ← h.image_eq]
    simp [Cell.resolve, hdef]
  pending_undefined := fun name' hname' => by
    have hne : name ≠ name' := by
      rintro rfl
      exact absurd hname' (by simp [hdef])
    rw [h.pending_undefined name' hname', sites_append_ref, if_neg hne]
  pending_defined := h.pending_defined

/-- Appending a reference to a name that is not defined yet, whose site is remembered. -/
theorem push_undefined (h : Represents image cells env pending unknown) {name : ν}
    (hundef : env name = none) :
    Represents (image ++ [unknown]) (cells ++ [.ref name]) env
      (Function.update pending name (some ((pending name).getD [] ++ [image.length]))) unknown where
  image_eq := by
    rw [List.map_append, ← h.image_eq]
    simp [Cell.resolve, hundef]
  pending_undefined := fun name' hname' => by
    rw [sites_append_ref]
    by_cases hne : name = name'
    · subst hne
      rw [Function.update_self, if_pos rfl, Option.getD_some, h.pending_undefined name hundef,
        h.length_eq]
    · rw [Function.update_of_ne (fun e => hne e.symm), if_neg hne,
        h.pending_undefined name' hname']
  pending_defined := fun name' hname' => by
    have hne : name' ≠ name := by
      rintro rfl
      exact hname' hundef
    rw [Function.update_of_ne hne]
    exact h.pending_defined name' hname'

/-- Defining a name: its sites are patched and forgotten. -/
theorem define (h : Represents image cells env pending unknown) {name : ν}
    (hundef : env name = none) (index : ℕ) :
    Represents (patch image ((pending name).getD []) index) cells
      (Function.update env name (some index)) (Function.update pending name none) unknown where
  image_eq := by
    apply List.ext_getElem?
    intro j
    rw [getElem?_patch, h.pending_undefined name hundef, h.image_eq, List.getElem?_map,
      List.getElem?_map]
    cases hcell : cells[j]? with
    | none => simp
    | some cell =>
      by_cases hsite : cell = .ref name
      · subst hsite
        rw [if_pos (mem_sites.mpr hcell)]
        simp [Cell.resolve]
      · have hnot : j ∉ sites cells name := by
          intro hmem
          rw [mem_sites, hcell, Option.some.injEq] at hmem
          exact hsite hmem
        rw [if_neg hnot]
        cases cell with
        | word value => rfl
        | ref other =>
          have hother : other ≠ name := fun e => hsite (by rw [e])
          simp [Cell.resolve, Function.update_of_ne hother]
  pending_undefined := fun name' hname' => by
    have hne : name' ≠ name := by
      rintro rfl
      exact absurd hname' (by simp)
    rw [Function.update_of_ne hne] at hname' ⊢
    exact h.pending_undefined name' hname'
  pending_defined := fun name' hname' => by
    by_cases hne : name' = name
    · rw [hne, Function.update_self]
    · rw [Function.update_of_ne hne] at hname' ⊢
      exact h.pending_defined name' hname'

/-- Overwriting a word. -/
theorem set_word (h : Represents image cells env pending unknown) {i old : ℕ}
    (hword : cells[i]? = some (.word old)) (value : ℕ) :
    Represents (image.set i value) (cells.set i (.word value)) env pending unknown where
  image_eq := by
    rw [List.map_set, ← h.image_eq]
    rfl
  pending_undefined := fun name hname => by
    rw [h.pending_undefined name hname, sites_set_word hword]
  pending_defined := h.pending_defined

end Represents

end Cangjie.SymbolicImage
