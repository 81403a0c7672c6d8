import CangjieCompiler.CHIR.Interpreter.StoreLaw

/-!
# The indices of nested `VArray`s

`VARRAY_GET` should raise an exception for an index that is not below the size.  It checks the last
index only, and lets the size itself pass, so it reads outside of the elements for the size and for
a wrong index before the last one.
-/

namespace Cangjie.CHIR.Interpreter

open TreePlaces

namespace Aggregate

/-- A value that consists of `VArray`s to some depth. -/
def Nested : ℕ → Aggregate → Prop
  | 0, _ => True
  | n + 1, v => ∃ elems, v = .varray elems ∧ ∀ e ∈ elems, Nested n e

/-- The element at an index that is not negative and below the size. -/
def element? (v : Aggregate) (i : ℤ) : Option Aggregate :=
  if i < 0 then none else v.elems[i.toNat]?

/-- What a read with some indices should come to: an exception if one of them is out of bounds. -/
def elementOrError : Aggregate → List ℤ → VArrayRead
  | v, [] => .value v.repr
  | v, i :: path =>
    match v.element? i with
    | some e => elementOrError e path
    | none => .indexOutOfBounds

/-- Every index but the last one is within bounds, and the last one is not the size. -/
def IndicesChecked : Aggregate → List ℤ → Prop
  | _, [] => True
  | v, [i] => i ≠ v.elems.length
  | v, i :: path => ∃ e, v.element? i = some e ∧ IndicesChecked e path

lemma elementAt_reprs (elems : List Aggregate) (i : ℤ) :
    elementAt (reprs elems) i = ((Aggregate.varray elems).element? i).map repr := by
  unfold elementAt element?
  split_ifs
  · rfl
  · rw [reprs_eq_map, List.getElem?_map]
    rfl

lemma varrayGet_single (elems : List Aggregate) (i : ℤ) :
    varrayGet (Aggregate.varray elems).repr [i] =
      if i < 0 ∨ i > elems.length then .indexOutOfBounds
      else
        match ((Aggregate.varray elems).element? i).map repr with
        | some v => .value v
        | none => .undefined := by
  have hlength : (reprs elems).length = elems.length := by
    rw [reprs_eq_map, List.length_map]
  rw [← elementAt_reprs, ← hlength]
  rfl

lemma varrayGet_nested (elems : List Aggregate) (i j : ℤ) (path : List ℤ) :
    varrayGet (Aggregate.varray elems).repr (i :: j :: path) =
      match ((Aggregate.varray elems).element? i).map repr with
      | some inner => varrayGet inner (j :: path)
      | none => .undefined := by
  rw [← elementAt_reprs]
  rfl

/-- A single index is checked, except that the size passes. -/
lemma varrayGet_single_iff (elems : List Aggregate) (i : ℤ) :
    varrayGet (Aggregate.varray elems).repr [i] = (Aggregate.varray elems).elementOrError [i] ↔
      i ≠ elems.length := by
  rw [varrayGet_single]
  rcases lt_trichotomy i elems.length with hlt | heq | hgt
  · rcases lt_or_ge i 0 with hneg | hnonneg
    · rw [if_pos (Or.inl hneg), elementOrError, element?, if_pos hneg]
      exact ⟨fun _ => ne_of_lt hlt, fun _ => rfl⟩
    · have hindex : i.toNat < elems.length := by omega
      have hget : (Aggregate.varray elems).element? i = some elems[i.toNat] := by
        rw [element?, if_neg (not_lt.mpr hnonneg)]
        exact List.getElem?_eq_getElem hindex
      have hin : ¬ (i < 0 ∨ i > elems.length) := by omega
      rw [if_neg hin, elementOrError, hget]
      exact ⟨fun _ => ne_of_lt hlt, fun _ => rfl⟩
  · have hget : (Aggregate.varray elems).element? i = none := by
      rw [element?, if_neg (by omega)]
      exact List.getElem?_eq_none (show elems.length ≤ i.toNat by omega)
    have hin : ¬ (i < 0 ∨ i > elems.length) := by omega
    rw [if_neg hin, elementOrError, hget]
    exact ⟨nofun, fun hne => absurd heq hne⟩
  · have hget : (Aggregate.varray elems).element? i = none := by
      rw [element?, if_neg (by omega)]
      exact List.getElem?_eq_none (show elems.length ≤ i.toNat by omega)
    rw [if_pos (Or.inr hgt), elementOrError, hget]
    exact ⟨fun _ => ne_of_gt hgt, fun _ => rfl⟩

/-- The indices are checked exactly when all but the last one are within bounds and the last one is
not the size. -/
theorem varrayGet_eq_iff {v : Aggregate} {indices : List ℤ} (hnested : v.Nested indices.length)
    (hne : indices ≠ []) :
    varrayGet v.repr indices = v.elementOrError indices ↔ v.IndicesChecked indices := by
  induction indices generalizing v with
  | nil => exact absurd rfl hne
  | cons i path ih =>
    obtain ⟨elems, rfl, helems⟩ := hnested
    cases path with
    | nil => exact varrayGet_single_iff elems i
    | cons j path =>
      have hchecked : (Aggregate.varray elems).IndicesChecked (i :: j :: path) ↔
          ∃ e, (Aggregate.varray elems).element? i = some e ∧ e.IndicesChecked (j :: path) := Iff.rfl
      rw [varrayGet_nested, elementOrError, hchecked]
      cases hget : (Aggregate.varray elems).element? i with
      | none => exact ⟨nofun, fun ⟨_, h, _⟩ => nomatch h⟩
      | some e =>
        have hmem : e ∈ elems := by
          rw [element?] at hget
          split_ifs at hget
          exact List.mem_of_getElem? hget
        simp only [Option.map_some, Option.some.injEq, exists_eq_left']
        exact ih (helems e hmem) (List.cons_ne_nil j path)

end Aggregate

/-! ## Both laws -/

/-- A store and the reads of its path agree exactly along paths through no `VArray` and for values
that are read already, and the indices of `VARRAY_GET` are checked exactly when those before the
last one are within bounds and the last one is not the size. -/
theorem placeLaws_iff {v : Aggregate} {path : List ℕ} (hvalid : v.Valid path) (w : IVal)
    {array : Aggregate} {indices : List ℤ} (hnested : array.Nested indices.length)
    (hne : indices ≠ []) :
    (StoreLaw v path w ↔ AvoidsVArrays v path ∨ AlreadyRead v path w) ∧
      (varrayGet array.repr indices = array.elementOrError indices ↔
        array.IndicesChecked indices) :=
  ⟨storeLaw_iff hvalid w, Aggregate.varrayGet_eq_iff hnested hne⟩

/-- A `VArray` of two values. -/
def pair : Aggregate := .varray [.other (.IBool false), .other (.IBool true)]

/-- A structure with a value and a `VArray`, at its first field and at the size of the `VArray`. -/
theorem placeLaws_iff_pair :
    (StoreLaw (.tuple [.other .IUnit, pair]) [0] (.IBool true) ↔
        AvoidsVArrays (.tuple [.other .IUnit, pair]) [0] ∨
          AlreadyRead (.tuple [.other .IUnit, pair]) [0] (.IBool true)) ∧
      (varrayGet pair.repr [2] = pair.elementOrError [2] ↔ pair.IndicesChecked [2]) :=
  have hvalid : (Aggregate.tuple [.other .IUnit, pair]).Valid [0] :=
    ⟨.other .IUnit, .cons trivial rfl (.nil _)⟩
  have hnested : pair.Nested [(2 : ℤ)].length := ⟨_, rfl, fun _ _ => trivial⟩
  placeLaws_iff hvalid (.IBool true) hnested (List.cons_ne_nil _ _)

/-- A store into a `VArray` is not read, and the size of a `VArray` is not refused. -/
theorem exists_not_placeLaws :
    (¬ ∀ (v : Aggregate) (path : List ℕ) (w : IVal), v.Valid path → StoreLaw v path w) ∧
      ¬ ∀ (array : Aggregate) (indices : List ℤ), array.Nested indices.length → indices ≠ [] →
        varrayGet array.repr indices = array.elementOrError indices := by
  constructor
  · intro h
    have hvalid : pair.Valid [0] := ⟨.other (.IBool false), .cons trivial rfl (.nil _)⟩
    obtain ⟨arena', hstore, hpath, _⟩ :=
      h pair [0] .IUnit hvalid (fun _ => pair.repr) ⟨0, []⟩ rfl
    obtain ⟨x', hwrite, htarget⟩ := write_of_storeInRef (x := pair.repr) rfl hstore
    have hread := hpath (elementReading [] 0)
      (elementReading_fits (.nil pair) (by decide)) rfl
    rw [run_eq_runOn htarget] at hread
    obtain rfl := Option.some.inj hwrite
    exact IVal.noConfusion (Option.some.inj hread)
  · intro h
    have hsize := h pair [2] ⟨_, rfl, fun _ _ => trivial⟩ (List.cons_ne_nil _ _)
    exact VArrayRead.noConfusion hsize

end Cangjie.CHIR.Interpreter
