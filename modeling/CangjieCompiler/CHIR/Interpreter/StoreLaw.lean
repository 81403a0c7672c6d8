import CangjieCompiler.CHIR.Interpreter.AggregatePlaces

/-!
# The store law of aggregates

What a value of the language is made of decides how a path into it is read.  A store along a path
and a read of the same path agree, and other paths are left alone, as long as the path goes through
no `VArray`: there the store changes the element after the one that is named.
-/

namespace Cangjie.CHIR.Interpreter

open TreePlaces

/-! ## Values of the language -/

/-- What a value is made of. -/
inductive Aggregate where
  | other (val : IVal)
  | tuple (elems : List Aggregate)
  | object (classId : BitVec 32) (fields : List Aggregate)
  | array (elems : List Aggregate)
  | varray (elems : List Aggregate)

namespace Aggregate

mutual

/-- How the interpreter keeps a value. -/
def repr : Aggregate → IVal
  | other val => val
  | tuple elems => .ITuple (reprs elems)
  | object classId fields => .IObject classId (reprs fields)
  | array elems => .IArray (.IInt .TYPE_INT64 (BitVec.ofNat 64 elems.length) :: reprs elems)
  | varray elems => .IArray (reprs elems)

def reprs : List Aggregate → List IVal
  | [] => []
  | v :: vs => repr v :: reprs vs

end

lemma reprs_eq_map (vs : List Aggregate) : reprs vs = vs.map repr := by
  induction vs with
  | nil => rfl
  | cons v vs ih => rw [reprs, ih, List.map_cons]

/-- The parts of a value. -/
def elems : Aggregate → List Aggregate
  | other _ => []
  | tuple elems | object _ elems | array elems | varray elems => elems

def IsTuple (v : Aggregate) : Prop := ∃ elems, v = .tuple elems

def IsVArray (v : Aggregate) : Prop := ∃ elems, v = .varray elems

/-- A path leads to a part of a value, through containers with a property. -/
inductive Through (Q : Aggregate → Prop) : Aggregate → List ℕ → Aggregate → Prop where
  | nil (v : Aggregate) : Through Q v [] v
  | cons {v u u' : Aggregate} {i : ℕ} {path : List ℕ} (hv : Q v) (hi : v.elems[i]? = some u)
      (hpath : Through Q u path u') : Through Q v (i :: path) u'

/-- A path leads to a part of a value. -/
def Valid (v : Aggregate) (path : List ℕ) : Prop := ∃ u, Through (fun _ => True) v path u

end Aggregate

/-! ## Ways to read a path -/

/-- How the last part of a path is read. -/
inductive LastRead where
  | deref
  | fieldTpl (back : List ℕ)
  | varrayGet (back : List ℕ)

/-- The rest of the path. -/
def LastRead.back : LastRead → List ℕ
  | deref => []
  | fieldTpl back | varrayGet back => back

def LastRead.run (v : IVal) : LastRead → Option IVal
  | deref => some v
  | fieldTpl back => Interpreter.fieldTpl v back
  | varrayGet back => (Interpreter.varrayGet v (back.map Int.ofNat)).value?

/-- A read of a path: a part of it with `GETREF` and `DEREF`, and the rest on the value. -/
structure Reading where
  front : List ℕ
  last : LastRead

namespace Reading

def path (r : Reading) : List ℕ := r.front ++ r.last.back

def run (r : Reading) (arena : Arena) (target : Pointer) : Option IVal := do
  let ptr ← arena.getRef target r.front
  let v ← arena.deref ptr
  r.last.run v

/-- The read on the value that the pointer leads to. -/
def runOn (r : Reading) (v : IVal) : Option IVal := (read IVal.refPositions v r.front).bind r.last.run

/-- The read suits a value: what is read with `DEREF` alone lies in no `VArray`, `FIELD_TPL` goes
through tuples, and `VARRAY_GET` through `VArray`s. -/
def Fits (v : Aggregate) (r : Reading) : Prop :=
  ∃ u, v.Through (fun _ => True) r.front u ∧
    match r.last with
    | .deref => ∀ front i c, r.front = front ++ [i] → v.Through (fun _ => True) front c →
        ¬ c.IsVArray
    | .fieldTpl back => back ≠ [] ∧ ∃ u', u.Through Aggregate.IsTuple back u'
    | .varrayGet back => back ≠ [] ∧ ∃ u', u.Through Aggregate.IsVArray back u'

end Reading

/-! ## The store law -/

/-- Neither path is a part of the other. -/
def Apart (path path' : List ℕ) : Prop := ¬ path <+: path' ∧ ¬ path' <+: path

/-- A store along a path can be done, is what every read of the path gives afterwards, and is not
seen by the reads of paths apart from it. -/
def StoreLaw (v : Aggregate) (path : List ℕ) (w : IVal) : Prop :=
  ∀ (arena : Arena) (target : Pointer), arena.deref target = some v.repr →
    ∃ arena', arena.storeInRef target path w = some arena' ∧
      (∀ r : Reading, r.Fits v → r.path = path → r.run arena' target = some w) ∧
      (∀ r : Reading, r.Fits v → Apart r.path path → r.run arena' target = r.run arena target)

/-- The path goes through no `VArray`. -/
def AvoidsVArrays (v : Aggregate) (path : List ℕ) : Prop :=
  ∃ u, v.Through (fun c => ¬ c.IsVArray) path u

/-- The value is read along the path already: by `GETREF`, and by every read that suits. -/
def AlreadyRead (v : Aggregate) (path : List ℕ) (w : IVal) : Prop :=
  read IVal.refPositions v.repr path = some w ∧
    ∀ r : Reading, r.Fits v → r.path = path → r.runOn v.repr = some w

/-! ## Parts of kept values -/

namespace Aggregate

variable {Q Q' : Aggregate → Prop} {v u u' : Aggregate} {i : ℕ} {path : List ℕ}

lemma Through.mono (h : v.Through Q path u) (hQ : ∀ c, Q c → Q' c) : v.Through Q' path u := by
  induction h with
  | nil v => exact .nil v
  | cons hv hi _ ih => exact .cons (hQ _ hv) hi ih

/-- The part that a path leads to. -/
lemma Through.unique (h : v.Through Q path u) (h' : v.Through Q' path u') : u = u' := by
  induction h with
  | nil v =>
    cases h'
    rfl
  | cons hv hi _ ih =>
    cases h' with
    | cons _ hi' hpath' =>
      obtain rfl := Option.some.inj (hi.symm.trans hi')
      exact ih hpath'

lemma repr_elem (hi : v.elems[i]? = some u) : (reprs v.elems)[i]? = some u.repr := by
  rw [reprs_eq_map, List.getElem?_map, hi, Option.map_some]

/-- The child of a container that is no `VArray`. -/
lemma child_repr (hv : ¬ v.IsVArray) (hi : v.elems[i]? = some u) :
    child IVal.refPositions v.repr i = some u.repr := by
  have hrepr := repr_elem hi
  cases v with
  | other val => exact absurd hi (by simp [elems])
  | tuple elems => exact hrepr
  | object classId fields => exact hrepr
  | array elems => exact (List.getElem?_cons_succ).trans hrepr
  | varray elems => exact absurd ⟨elems, rfl⟩ hv

/-- A path through no `VArray` leads to the part that is kept for it. -/
lemma Through.read_repr (h : v.Through (fun c => ¬ c.IsVArray) path u) :
    read IVal.refPositions v.repr path = some u.repr := by
  induction h with
  | nil v => rfl
  | cons hv hi _ ih => rw [read_cons (child_repr hv hi), ih]

/-- A path that does not avoid `VArray`s comes to a first one. -/
lemma Valid.exists_first (h : v.Valid path) (hnot : ¬ AvoidsVArrays v path) :
    ∃ front i back elems, path = front ++ i :: back ∧
      v.Through (fun c => ¬ c.IsVArray) front (.varray elems) ∧ i < elems.length := by
  obtain ⟨u, hthrough⟩ := h
  induction hthrough with
  | nil v => exact absurd ⟨v, .nil v⟩ hnot
  | @cons v u u' i path _ hi hpath ih =>
    by_cases hv : v.IsVArray
    · obtain ⟨elems, rfl⟩ := hv
      exact ⟨[], i, path, elems, rfl, .nil _, (List.getElem?_eq_some_iff.mp hi).1⟩
    · obtain ⟨front, k, back, elems, rfl, hfront, hk⟩ :=
        ih fun ⟨c, hc⟩ => hnot ⟨c, .cons hv hi hc⟩
      exact ⟨i :: front, k, back, elems, rfl, .cons hv hi hfront, hk⟩

end Aggregate

/-! ## Reads after a store -/

lemma refPosition_injective (v : IVal) : Function.Injective (IVal.refPosition v) := by
  intro i j h
  cases v with
  | IArray content => exact Nat.succ.inj h
  | _ => exact h

lemma fieldTpl_cons {content : List IVal} {p : ℕ} {path : List ℕ} (h : path ≠ []) :
    fieldTpl (.ITuple content) (p :: path) = (content[p]?).bind fun inner => fieldTpl inner path := by
  cases path with
  | nil => exact absurd rfl h
  | cons q path => rfl

/-- On a tuple `FIELD_TPL` goes to the element that `GETREF` goes to. -/
lemma fieldTpl_of_child {v u : IVal} {i : ℕ} {path : List ℕ} (hv : ∃ content, v = .ITuple content)
    (hu : child IVal.refPositions v i = some u) :
    fieldTpl v (i :: path) = if path = [] then some u else fieldTpl u path := by
  obtain ⟨content, rfl⟩ := hv
  have hget : content[i]? = some u := hu
  split_ifs with hpath
  · rw [hpath]
    exact hget
  · rw [fieldTpl_cons hpath, hget, Option.bind_some]

namespace Reading

variable {v u : Aggregate} {j : ℕ} {front back : List ℕ} {last : LastRead}

lemma runOn_cons (x : IVal) :
    (⟨j :: front, last⟩ : Reading).runOn x =
      (child IVal.refPositions x j).bind (⟨front, last⟩ : Reading).runOn :=
  Option.bind_assoc _ _ _

/-- A read that starts with `GETREF` suits the element it goes to. -/
lemma Fits.front_cons (h : (⟨j :: front, last⟩ : Reading).Fits v) :
    ∃ u, v.elems[j]? = some u ∧ (⟨front, last⟩ : Reading).Fits u := by
  obtain ⟨u', hthrough, hlast⟩ := h
  cases hthrough with
  | @cons _ u _ _ _ _ hj hfront =>
    refine ⟨u, hj, u', hfront, ?_⟩
    cases last with
    | deref =>
      intro front' i c heq hc
      exact hlast (j :: front') i c (congrArg (j :: ·) heq) (.cons trivial hj hc)
    | fieldTpl back => exact hlast
    | varrayGet back => exact hlast

/-- A read that starts with `FIELD_TPL` is one of a tuple, and suits its element. -/
lemma Fits.fieldTpl_cons (h : (⟨[], .fieldTpl (j :: back)⟩ : Reading).Fits v) :
    v.IsTuple ∧ ∃ u, v.elems[j]? = some u ∧
      (back ≠ [] → (⟨[], .fieldTpl back⟩ : Reading).Fits u) := by
  obtain ⟨v', hnil, _, u', hthrough⟩ := h
  cases hnil
  cases hthrough with
  | @cons _ u _ _ _ hv hj hback => exact ⟨hv, u, hj, fun hne => ⟨u, .nil u, hne, u', hback⟩⟩

/-- A read that starts with `VARRAY_GET` is one of a `VArray`. -/
lemma Fits.isVArray (h : (⟨[], .varrayGet back⟩ : Reading).Fits v) : v.IsVArray := by
  obtain ⟨v', hnil, hne, u', hthrough⟩ := h
  cases hnil
  cases hthrough with
  | nil => exact absurd rfl hne
  | cons hv _ _ => exact hv

end Reading

/-- After a store along a path through no `VArray`, the reads of the path give what was stored, and
the reads of paths apart from it give what they gave. -/
lemma runOn_write {v u : Aggregate} {path : List ℕ} {w v' : IVal} {r : Reading}
    (h : v.Through (fun c => ¬ c.IsVArray) path u)
    (hwrite : write IVal.refPositions w v.repr path = some v') (hr : r.Fits v) :
    (r.path = path → r.runOn v' = some w) ∧
      (Apart r.path path → r.runOn v' = r.runOn v.repr) := by
  induction h generalizing v' r with
  | nil v =>
    obtain rfl := Option.some.inj hwrite
    refine ⟨fun hpath => ?_, fun hapart => absurd List.nil_prefix hapart.2⟩
    obtain ⟨front, last⟩ := r
    obtain ⟨rfl, hback⟩ := List.append_eq_nil_iff.mp hpath
    obtain ⟨_, _, hlast⟩ := hr
    cases last with
    | deref => rfl
    | fieldTpl back => exact absurd hback hlast.1
    | varrayGet back => exact absurd hback hlast.1
  | @cons v u _ i path hv hi _ ih =>
    have hchild := Aggregate.child_repr hv hi
    rw [write_cons hchild] at hwrite
    obtain ⟨u', hu', rfl⟩ := Option.map_eq_some_iff.mp hwrite
    have hself : child IVal.refPositions (setChild IVal.refPositions v.repr i u') i = some u' :=
      child_setChild_self hchild
    have hother : ∀ j, j ≠ i →
        child IVal.refPositions (setChild IVal.refPositions v.repr i u') j =
          child IVal.refPositions v.repr j := fun j hj =>
      child_setChild_of_ne fun heq => hj (refPosition_injective v.repr heq).symm
    obtain ⟨front, last⟩ := r
    cases front with
    | cons j front =>
      obtain ⟨c, hc, hfits⟩ := hr.front_cons
      rw [Reading.runOn_cons, Reading.runOn_cons]
      by_cases hj : j = i
      · obtain rfl := hj
        obtain rfl := Option.some.inj (hi.symm.trans hc)
        rw [hself, hchild, Option.bind_some, Option.bind_some]
        refine ⟨fun hpath => (ih hu' hfits).1 (List.cons.inj hpath).2, fun hapart => ?_⟩
        exact (ih hu' hfits).2
          ⟨fun hpre => hapart.1 (List.cons_prefix_cons.mpr ⟨rfl, hpre⟩),
            fun hpre => hapart.2 (List.cons_prefix_cons.mpr ⟨rfl, hpre⟩)⟩
      · rw [hother j hj]
        exact ⟨fun hpath => absurd (List.cons.inj hpath).1 hj, fun _ => rfl⟩
    | nil =>
      cases last with
      | deref =>
        exact ⟨fun hpath => absurd hpath (by simp [Reading.path, LastRead.back]),
          fun hapart => absurd List.nil_prefix hapart.1⟩
      | varrayGet back => exact absurd hr.isVArray hv
      | fieldTpl back =>
        cases back with
        | nil =>
          obtain ⟨_, _, hne, _⟩ := hr
          exact absurd rfl hne
        | cons j back =>
          obtain ⟨⟨elems, rfl⟩, c, hc, hfits⟩ := hr.fieldTpl_cons
          have htuple : ∃ content,
              setChild IVal.refPositions (Aggregate.tuple elems).repr i u' = .ITuple content :=
            ⟨_, rfl⟩
          have htuple' : ∃ content, (Aggregate.tuple elems).repr = .ITuple content := ⟨_, rfl⟩
          have hrun : ∀ x, (⟨[], .fieldTpl (j :: back)⟩ : Reading).runOn x =
              fieldTpl x (j :: back) := fun x => rfl
          rw [hrun, hrun]
          have hchild' := Aggregate.child_repr hv hc
          by_cases hj : j = i
          · obtain rfl := hj
            obtain rfl := Option.some.inj (hi.symm.trans hc)
            rw [fieldTpl_of_child htuple hself, fieldTpl_of_child htuple' hchild]
            split_ifs with hback
            · obtain rfl := hback
              refine ⟨fun hpath => ?_, fun hapart => ?_⟩
              · obtain rfl : path = [] := (List.cons.inj hpath).2.symm
                exact hu'.symm
              · exact absurd (List.cons_prefix_cons.mpr ⟨rfl, List.nil_prefix⟩) hapart.1
            · refine ⟨fun hpath => (ih hu' (hfits hback)).1 (List.cons.inj hpath).2,
                fun hapart => ?_⟩
              exact (ih hu' (hfits hback)).2
                ⟨fun hpre => hapart.1 (List.cons_prefix_cons.mpr ⟨rfl, hpre⟩),
                  fun hpre => hapart.2 (List.cons_prefix_cons.mpr ⟨rfl, hpre⟩)⟩
          · refine ⟨fun hpath => absurd (List.cons.inj hpath).1 hj, fun _ => ?_⟩
            rw [fieldTpl_of_child htuple ((hother j hj).trans hchild'),
              fieldTpl_of_child htuple' hchild']

/-! ## When the store law holds -/

lemma run_eq_runOn {arena : Arena} {target : Pointer} {x : IVal} (h : arena.deref target = some x)
    (r : Reading) : r.run arena target = r.runOn x := by
  unfold Reading.run Reading.runOn
  rw [← getRef_deref h, Option.bind_assoc]
  rfl

/-- The pointer leads to what was written. -/
lemma exists_storeInRef {arena : Arena} {target : Pointer} {x x' w : IVal} {path : List ℕ}
    (h : arena.deref target = some x) (hwrite : write IVal.refPositions w x path = some x') :
    ∃ arena', arena.storeInRef target path w = some arena' ∧ arena'.deref target = some x' := by
  have hread : read (Positions.plain IVal.tree) (arena target.root) target.positions = some x := h
  have hroot : (write (Positions.plain IVal.tree) x' (arena target.root) target.positions).isSome := by
    rw [write_isSome_iff, hread]
    rfl
  obtain ⟨root, hroot⟩ := Option.isSome_iff_exists.mp hroot
  refine ⟨Function.update arena target.root root, ?_, ?_⟩
  · rw [storeInRef_eq_some_iff h]
    exact ⟨x', hwrite, by rw [hroot, Option.map_some]⟩
  · unfold Arena.deref
    rw [Function.update_self]
    exact read_write hroot

/-- A store that can be done writes into what the pointer leads to. -/
lemma write_of_storeInRef {arena arena' : Arena} {target : Pointer} {x w : IVal} {path : List ℕ}
    (h : arena.deref target = some x) (hstore : arena.storeInRef target path w = some arena') :
    ∃ x', write IVal.refPositions w x path = some x' ∧ arena'.deref target = some x' := by
  obtain ⟨x', hwrite, harena⟩ := (storeInRef_eq_some_iff h).mp hstore
  obtain ⟨root, hroot, rfl⟩ := Option.map_eq_some_iff.mp harena
  refine ⟨x', hwrite, ?_⟩
  unfold Arena.deref
  rw [Function.update_self]
  exact read_write hroot

/-- The law holds along paths through no `VArray`. -/
lemma storeLaw_of_avoids {v : Aggregate} {path : List ℕ} (h : AvoidsVArrays v path) (w : IVal) :
    StoreLaw v path w := by
  intro arena target htarget
  obtain ⟨u, hu⟩ := h
  have hsome : (write IVal.refPositions w v.repr path).isSome := by
    rw [write_isSome_iff, hu.read_repr]
    rfl
  obtain ⟨x', hwrite⟩ := Option.isSome_iff_exists.mp hsome
  obtain ⟨arena', hstore, htarget'⟩ := exists_storeInRef htarget hwrite
  refine ⟨arena', hstore, fun r hr hpath => ?_, fun r hr hapart => ?_⟩
  · rw [run_eq_runOn htarget']
    exact (runOn_write hu hwrite hr).1 hpath
  · rw [run_eq_runOn htarget', run_eq_runOn htarget]
    exact (runOn_write hu hwrite hr).2 hapart

/-- The law holds for a value that is read already. -/
lemma storeLaw_of_alreadyRead {v : Aggregate} {path : List ℕ} {w : IVal}
    (h : AlreadyRead v path w) : StoreLaw v path w := by
  intro arena target htarget
  obtain ⟨arena', hstore, htarget'⟩ := exists_storeInRef htarget (write_of_read h.1)
  refine ⟨arena', hstore, fun r hr hpath => ?_, fun r hr _ => ?_⟩
  · rw [run_eq_runOn htarget']
    exact h.2 r hr hpath
  · rw [run_eq_runOn htarget', run_eq_runOn htarget]

/-- The read of an element of a `VArray` that a path without `VArray`s leads to. -/
def elementReading (front : List ℕ) (i : ℕ) : Reading := ⟨front, .varrayGet [i]⟩

lemma runOn_elementReading {x : IVal} {content : List IVal} {front : List ℕ} {i : ℕ} {y : IVal}
    (h : read IVal.refPositions x front = some (.IArray content)) (hi : content[i]? = some y) :
    (elementReading front i).runOn x = some y := by
  have hlt : i < content.length := (List.getElem?_eq_some_iff.mp hi).1
  have hnot : ¬ ((i : ℤ) < 0 ∨ (i : ℤ) > content.length) := by omega
  have hget : varrayGet (.IArray content) [(i : ℤ)] = .value y := by
    rw [varrayGet, if_neg hnot, elementAt, if_neg (by omega), Int.toNat_natCast, hi]
  unfold Reading.runOn elementReading
  rw [h, Option.bind_some]
  change (varrayGet (.IArray content) [(i : ℤ)]).value? = some y
  rw [hget]
  rfl

lemma elementReading_fits {v : Aggregate} {front : List ℕ} {i : ℕ} {elems : List Aggregate}
    (h : v.Through (fun c => ¬ c.IsVArray) front (.varray elems)) (hi : i < elems.length) :
    (elementReading front i).Fits v :=
  ⟨.varray elems, h.mono fun _ _ => trivial, List.cons_ne_nil _ _, elems[i],
    .cons ⟨elems, rfl⟩ (List.getElem?_eq_getElem hi) (.nil _)⟩

/-- If the law holds along a path into a `VArray`, the value is read already. -/
lemma alreadyRead_of_storeLaw {v : Aggregate} {path : List ℕ} {w : IVal} (hvalid : v.Valid path)
    (hnot : ¬ AvoidsVArrays v path) (h : StoreLaw v path w) : AlreadyRead v path w := by
  obtain ⟨front, i, back, elems, rfl, hfront, hi⟩ := hvalid.exists_first hnot
  have htarget : Arena.deref (fun _ => v.repr) ⟨0, []⟩ = some v.repr := rfl
  obtain ⟨arena', hstore, hpath, hapart⟩ := h (fun _ => v.repr) ⟨0, []⟩ htarget
  obtain ⟨x', hwrite, htarget'⟩ := write_of_storeInRef htarget hstore
  have hread : read IVal.refPositions v.repr front = some (.IArray (Aggregate.reprs elems)) :=
    hfront.read_repr
  -- the store goes to the element after the one that is named
  have hunchanged := hwrite
  rw [write_append hread] at hunchanged
  obtain ⟨array', harray', hrest⟩ := Option.bind_eq_some_iff.mp hunchanged
  rw [write] at harray'
  obtain ⟨y, hy, hbelow⟩ := Option.bind_eq_some_iff.mp harray'
  obtain ⟨y', hy', rfl⟩ := Option.map_eq_some_iff.mp hbelow
  have hnext : (Aggregate.reprs elems)[i + 1]? = some y := hy
  have hlt : i + 1 < elems.length := by
    have hlt := (List.getElem?_eq_some_iff.mp hnext).1
    rwa [Aggregate.reprs_eq_map, List.length_map] at hlt
  have hold := runOn_elementReading hread hnext
  have hnew : (elementReading front (i + 1)).runOn x' = some y' := by
    refine runOn_elementReading (read_write hrest) ?_
    exact List.getElem?_set_self (List.getElem?_eq_some_iff.mp hnext).1
  have happ : ∀ rest, Apart (front ++ [i + 1]) (front ++ i :: rest) := by
    intro rest
    refine ⟨fun hpre => ?_, fun hpre => ?_⟩
    · have hcons := (List.prefix_append_right_inj front).mp hpre
      exact absurd (List.cons_prefix_cons.mp hcons).1 (Nat.succ_ne_self i)
    · have hcons := (List.prefix_append_right_inj front).mp hpre
      exact absurd (List.cons_prefix_cons.mp hcons).1 (Nat.succ_ne_self i).symm
  have hsame := hapart (elementReading front (i + 1)) (elementReading_fits hfront hlt) (happ back)
  rw [run_eq_runOn htarget', run_eq_runOn htarget, hold, hnew, Option.some.injEq] at hsame
  obtain rfl := hsame
  -- so the store has changed nothing, and what it stored was there
  have hx : x' = v.repr := by
    rw [setChild_child hy, write_of_read hread] at hrest
    exact (Option.some.inj hrest).symm
  rw [hx] at hwrite htarget'
  refine ⟨read_write hwrite, fun r hr heq => ?_⟩
  rw [← run_eq_runOn htarget']
  exact hpath r hr heq

/-- The store law holds exactly along the paths that go through no `VArray`, and for values that are
read along the path already. -/
theorem storeLaw_iff {v : Aggregate} {path : List ℕ} (hvalid : v.Valid path) (w : IVal) :
    StoreLaw v path w ↔ AvoidsVArrays v path ∨ AlreadyRead v path w := by
  constructor
  · intro h
    by_cases hpath : AvoidsVArrays v path
    · exact Or.inl hpath
    · exact Or.inr (alreadyRead_of_storeLaw hvalid hpath h)
  · rintro (h | h)
    · exact storeLaw_of_avoids h w
    · exact storeLaw_of_alreadyRead h

end Cangjie.CHIR.Interpreter
