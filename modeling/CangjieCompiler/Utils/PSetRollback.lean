import CangjieCompiler.Utils.PartiallyPersistent

/-!
# Rollback of partially persistent sets

A set goes back to its contents at the last checkpoint as long as undoing its log gives these
contents.  All changes but those of an applied version are logged, so this holds in every state of a
run exactly when every version that is applied changes only elements that the log mentions already.
-/

namespace Cangjie.PSet

open ChangeLog

variable {T : Type} [LinearOrder T]

/-! ## What the operations do to the log -/

/-- The changes between two states are logged in the last checkpoint. -/
structure Recorded (s s' : PSet T) : Prop where
  enclosing : s'.enclosing = s.enclosing
  undone : undoAll s'.last.log s'.data = undoAll s.last.log s.data

lemma Recorded.refl (s : PSet T) : Recorded s s := ⟨rfl, rfl⟩

lemma Recorded.trans {s s' s'' : PSet T} (h : Recorded s s') (h' : Recorded s' s'') :
    Recorded s s'' :=
  ⟨h'.enclosing.trans h.enclosing, h'.undone.trans h.undone⟩

lemma insert_recorded (s : PSet T) (value : T) : Recorded s (s.insert value) := by
  unfold insert checkIn
  by_cases hmem : value ∈ s.data
  · rw [if_pos hmem]
    dsimp only
    rw [Finset.insert_eq_of_mem hmem]
    exact Recorded.refl s
  · rw [if_neg hmem]
    refine ⟨rfl, ?_⟩
    have heffective : Change.Effective { isInsert := true, data := value } s.data :=
      ⟨fun _ => hmem, fun _ => rfl⟩
    exact undoAll_concat s.last.log heffective

lemma erase_recorded (s : PSet T) (value : T) : Recorded s (s.erase value) := by
  unfold erase checkOut
  by_cases hmem : value ∈ s.data
  · rw [if_pos hmem]
    refine ⟨rfl, ?_⟩
    have heffective : Change.Effective { isInsert := false, data := value } s.data :=
      ⟨fun h => absurd h Bool.false_ne_true, fun h => absurd hmem h⟩
    exact undoAll_concat s.last.log heffective
  · rw [if_neg hmem]
    dsimp only
    rw [Finset.erase_eq_of_notMem hmem]
    exact Recorded.refl s

lemma softClear_recorded (s : PSet T) : Recorded s s.softClear := by
  induction s using softClear.induct with
  | case1 s h ih =>
    rw [softClear, dif_pos h]
    exact (erase_recorded s _).trans ih
  | case2 s h =>
    rw [softClear, dif_neg h]
    exact Recorded.refl s

/-- Soft clearing removes all elements. -/
lemma softClear_data (s : PSet T) : s.softClear.data = ∅ := by
  induction s using softClear.induct with
  | case1 s h ih =>
    rw [softClear, dif_pos h]
    exact ih
  | case2 s h =>
    rw [softClear, dif_neg h]
    exact Finset.not_nonempty_iff_eq_empty.mp h

/-- The log when elements are checked in one after the other. -/
lemma foldl_checkIn (es : List T) (s : PSet T) :
    es.foldl checkIn s = { s with last := { s.last with
      log := s.last.log ++
        (es.filter (· ∉ s.data)).map fun e => { isInsert := true, data := e } } } := by
  induction es generalizing s with
  | nil => simp
  | cons e rest ih =>
    rw [List.foldl_cons, ih]
    unfold checkIn
    by_cases hmem : e ∈ s.data
    · simp [hmem]
    · simp [hmem, pushLog]

lemma merge_recorded (s : PSet T) (src : Finset T) : Recorded s (s.merge src) := by
  unfold merge
  rw [foldl_checkIn]
  refine ⟨rfl, ?_⟩
  dsimp only
  rw [undoAll_append]
  congr 1
  ext e
  rw [mem_undoAll_insertions, Finset.mem_union, List.mem_filter, Finset.mem_sort]
  by_cases hmem : e ∈ s.data <;> simp [hmem]

/-- Going back undoes the log. -/
lemma reset_eq (s : PSet T) :
    s.reset = { s with data := undoAll s.last.log s.data, last := { s.last with log := [] } } := by
  have hfold : ∀ log : List (Change T),
      log.foldr resetOne s = { s with data := undoAll log s.data } := by
    intro log
    induction log with
    | nil => rfl
    | cons l rest ih =>
      rw [List.foldr_cons, ih]
      rfl
  unfold reset
  rw [hfold]

/-- Applying a version replays its log. -/
lemma foldl_applyOne (log : List (Change T)) (s : PSet T) :
    log.foldl applyOne s = { s with data := redoAll log s.data } := by
  induction log generalizing s with
  | nil => rfl
  | cons l rest ih =>
    rw [List.foldl_cons, ih]
    rfl

/-! ## Checkpoints that are open -/

/-- A set with its contents at the commits that are still open, the innermost first. -/
structure History (T : Type) where
  set : PSet T
  saved : Finset T
  enclosing : List (Finset T)

/-- One operation.  A commit opens a checkpoint, and removing the last checkpoint closes it. -/
def History.step (h : History T) (op : Op T) : Option (History T) :=
  (h.set.step op).map fun s =>
    match op, h.enclosing with
    | .commit, enclosing => { set := s, saved := h.set.data, enclosing := h.saved :: enclosing }
    | .resetSoft, base :: rest => { set := s, saved := base, enclosing := rest }
    | _, enclosing => { set := s, saved := h.saved, enclosing := enclosing }

/-- The history of a set that was just made. -/
def History.start (init : Finset T) : History T where
  set := ofSet init
  saved := init
  enclosing := []

/-- A sequence of operations. -/
def History.run (h : History T) (ops : List (Op T)) : Option (History T) := ops.foldlM History.step h

/-- Going back gives the contents at the last commit that is still open.  Removing the last
checkpoint keeps the contents, and going back then gives the contents at the enclosing commit. -/
structure RollsBack (h : History T) : Prop where
  reset : h.set.reset.data = h.saved
  resetSoft : h.set.resetSoft.data = h.set.data
  enclosing : ∀ base rest, h.enclosing = base :: rest → h.set.resetSoft.reset.data = base

/-- Applying the version changes only elements that the log of the last checkpoint mentions. -/
def Harmless (s : PSet T) (ver : VersionID) : Prop :=
  ver ≠ 0 → ∀ log, s.last.stashes[ver - 1]? = some log →
    ∀ e, firstOf s.last.log e = none → ∀ b, lastOf log e = some b → (b = true ↔ e ∈ s.data)

/-- Undoing the logs of enclosing checkpoints gives the contents at their commits. -/
def Undoes : Finset T → List (Checkpoint T) → List (Finset T) → Prop
  | _, [], [] => True
  | contents, c :: cs, base :: rest => undoAll c.log contents = base ∧ Undoes base cs rest
  | _, _, _ => False

/-- Undoing the logs of all checkpoints gives the contents at their commits. -/
def History.Consistent (h : History T) : Prop :=
  undoAll h.set.last.log h.set.data = h.saved ∧ Undoes h.saved h.set.enclosing h.enclosing

/-! ## One operation -/

lemma History.start_consistent (init : Finset T) : (History.start init).Consistent :=
  ⟨rfl, trivial⟩

/-- What a consistent history gives back. -/
lemma History.Consistent.rollsBack {h : History T} (hh : h.Consistent) : RollsBack h where
  reset := by
    rw [reset_eq]
    exact hh.1
  resetSoft := by
    unfold PSet.resetSoft
    cases h.set.enclosing <;> rfl
  enclosing := fun base rest hbase => by
    obtain ⟨hlast, hundoes⟩ := hh
    rw [hbase] at hundoes
    cases henclosing : h.set.enclosing with
    | nil =>
      rw [henclosing] at hundoes
      exact absurd hundoes id
    | cons c cs =>
      rw [henclosing] at hundoes
      unfold PSet.resetSoft
      rw [henclosing, reset_eq]
      dsimp only
      rw [undoAll_append, hlast]
      exact hundoes.1

/-- A logged change keeps a history consistent. -/
lemma History.Consistent.recorded {h : History T} (hh : h.Consistent) {s : PSet T}
    (hs : Recorded h.set s) : History.Consistent { h with set := s } := by
  refine ⟨hs.undone.trans hh.1, ?_⟩
  dsimp only
  rw [hs.enclosing]
  exact hh.2

lemma History.Consistent.reset {h : History T} (hh : h.Consistent) :
    History.Consistent { h with set := h.set.reset } := by
  rw [reset_eq]
  exact ⟨hh.1, hh.2⟩

lemma History.Consistent.resetSoft {h h' : History T} (hh : h.Consistent)
    (hstep : h.step .resetSoft = some h') : h'.Consistent := by
  obtain ⟨hlast, hundoes⟩ := hh
  unfold History.step PSet.step PSet.resetSoft at hstep
  cases henclosing : h.set.enclosing with
  | nil =>
    cases hopened : h.enclosing with
    | nil =>
      rw [henclosing, hopened] at hstep
      obtain rfl := Option.some.inj hstep
      exact ⟨hlast, trivial⟩
    | cons base rest =>
      rw [henclosing, hopened] at hundoes
      exact absurd hundoes id
  | cons c cs =>
    cases hopened : h.enclosing with
    | nil =>
      rw [henclosing, hopened] at hundoes
      exact absurd hundoes id
    | cons base rest =>
      rw [henclosing, hopened] at hstep hundoes
      obtain rfl := Option.some.inj hstep
      refine ⟨?_, hundoes.2⟩
      dsimp only
      rw [undoAll_append, hlast]
      exact hundoes.1

/-- Applying a version keeps a history consistent exactly when it is harmless. -/
lemma History.Consistent.apply_iff {h h' : History T} (hh : h.Consistent) {ver : VersionID}
    (hstep : h.step (.apply ver) = some h') :
    undoAll h'.set.last.log h'.set.data = h'.saved ↔ Harmless h.set ver := by
  obtain ⟨s, hs, rfl⟩ := Option.map_eq_some_iff.mp hstep
  have hs : h.set.apply ver = some s := hs
  unfold PSet.apply at hs
  unfold Harmless
  by_cases hver : ver = 0
  · rw [if_pos hver] at hs
    obtain rfl := Option.some.inj hs
    exact ⟨fun _ h => absurd hver h, fun _ => hh.1⟩
  · rw [if_neg hver] at hs
    obtain ⟨log, hlog, rfl⟩ := Option.map_eq_some_iff.mp hs
    have hiff := undoAll_redoAll_eq_iff h.set.last.log log h.set.data
    rw [foldl_applyOne]
    dsimp only
    rw [← hh.1, hiff]
    constructor
    · intro hharmless _ log' hlog'
      obtain rfl := Option.some.inj (hlog.symm.trans hlog')
      exact hharmless
    · exact fun hharmless => hharmless hver log hlog

/-- Applying a version leaves the enclosing checkpoints alone. -/
lemma History.step_apply_enclosing {h h' : History T} {ver : VersionID}
    (hstep : h.step (.apply ver) = some h') :
    h'.saved = h.saved ∧ h'.set.enclosing = h.set.enclosing ∧ h'.enclosing = h.enclosing := by
  obtain ⟨s, hs, rfl⟩ := Option.map_eq_some_iff.mp hstep
  have hs : h.set.apply ver = some s := hs
  unfold PSet.apply at hs
  by_cases hver : ver = 0
  · rw [if_pos hver] at hs
    obtain rfl := Option.some.inj hs
    exact ⟨rfl, rfl, rfl⟩
  · rw [if_neg hver] at hs
    obtain ⟨log, -, rfl⟩ := Option.map_eq_some_iff.mp hs
    rw [foldl_applyOne]
    exact ⟨rfl, rfl, rfl⟩

/-- Every operation keeps a history consistent, when a version that it applies is harmless. -/
theorem History.Consistent.step {h h' : History T} (hh : h.Consistent) {op : Op T}
    (hstep : h.step op = some h') (hop : ∀ ver, op = .apply ver → Harmless h.set ver) :
    h'.Consistent := by
  cases op with
  | insert value =>
    obtain rfl := Option.some.inj hstep
    exact hh.recorded (insert_recorded h.set value)
  | erase value =>
    obtain rfl := Option.some.inj hstep
    exact hh.recorded (erase_recorded h.set value)
  | softClear =>
    obtain rfl := Option.some.inj hstep
    exact hh.recorded (softClear_recorded h.set)
  | merge src =>
    obtain rfl := Option.some.inj hstep
    exact hh.recorded (merge_recorded h.set src)
  | commit =>
    obtain rfl := Option.some.inj hstep
    exact ⟨rfl, hh⟩
  | reset =>
    obtain rfl := Option.some.inj hstep
    exact hh.reset
  | stash =>
    obtain rfl := Option.some.inj hstep
    have hstash : h.set.stash.2 = PSet.reset { h.set with
        last := { h.set.last with stashes := h.set.last.stashes ++ [h.set.last.log] } } := rfl
    rw [hstash, reset_eq]
    exact ⟨hh.1, hh.2⟩
  | apply ver =>
    obtain ⟨-, henclosing, hopened⟩ := History.step_apply_enclosing hstep
    obtain ⟨hsaved, -⟩ := History.step_apply_enclosing hstep
    refine ⟨(hh.apply_iff hstep).mpr (hop ver rfl), ?_⟩
    rw [hsaved, henclosing, hopened]
    exact hh.2
  | resetSoft => exact hh.resetSoft hstep

/-! ## Runs -/

/-- The run of a longer sequence. -/
lemma History.run_concat (h : History T) (ops : List (Op T)) (op : Op T) :
    h.run (ops ++ [op]) = (h.run ops).bind fun h' => h'.step op := by
  unfold History.run
  rw [List.foldlM_append]
  cases ops.foldlM History.step h with
  | none => rfl
  | some h' =>
    change (h'.step op).bind pure = h'.step op
    cases h'.step op <;> rfl

/-- A history is consistent when every version that was applied was harmless. -/
lemma History.run_consistent (init : Finset T) (ops : List (Op T))
    (hops : ∀ done ver rest h, ops = done ++ .apply ver :: rest →
      (History.start init).run done = some h → Harmless h.set ver) (h : History T)
    (hrun : (History.start init).run ops = some h) : h.Consistent := by
  induction ops using List.reverseRecOn generalizing h with
  | nil =>
    obtain rfl := Option.some.inj hrun
    exact History.start_consistent init
  | append_singleton ops op ih =>
    rw [History.run_concat] at hrun
    obtain ⟨before, hbefore, hstep⟩ := Option.bind_eq_some_iff.mp hrun
    have hconsistent : before.Consistent :=
      ih (fun done ver rest h hsplit => hops done ver (rest ++ [op]) h (by
        rw [hsplit, List.append_assoc]
        rfl)) before hbefore
    refine hconsistent.step hstep fun ver hver => ?_
    exact hops ops ver [] before (by rw [hver]) hbefore

/-- In all states of a run the set goes back to its contents at the commits that are still open,
exactly when every version that the run applies changes only elements that the log of the last
checkpoint mentions. -/
theorem rollsBack_iff (init : Finset T) (ops : List (Op T)) :
    (∀ done rest h, ops = done ++ rest → (History.start init).run done = some h → RollsBack h) ↔
      ∀ done ver rest h, ops = done ++ .apply ver :: rest →
        (History.start init).run done = some h → Harmless h.set ver := by
  constructor
  · intro hrolls done
    -- by strong induction on the length: the versions applied before are harmless
    induction hlength : done.length using Nat.strong_induction_on generalizing done with
    | _ n ih =>
      intro ver rest h hsplit hrun
      have hconsistent : h.Consistent := by
        refine History.run_consistent init done (fun done' ver' rest' h' hsplit' hrun' => ?_) h hrun
        refine ih done'.length ?_ done' rfl ver' (rest' ++ .apply ver :: rest) h' ?_ hrun'
        · rw [← hlength, hsplit', List.length_append, List.length_cons]
          exact Nat.lt_add_of_pos_right (Nat.succ_pos _)
        · rw [hsplit, hsplit', List.append_assoc]
          rfl
      intro hver log hlog
      have hafter : (History.start init).run (done ++ [.apply ver]) = h.step (.apply ver) := by
        rw [History.run_concat, hrun]
        rfl
      have happly : h.set.apply ver = some (log.foldl applyOne h.set) := by
        unfold PSet.apply
        rw [if_neg hver, hlog]
        rfl
      have hstep : ∃ h', h.step (.apply ver) = some h' := ⟨_, congrArg (Option.map _) happly⟩
      obtain ⟨h', hstep⟩ := hstep
      have hback := (hrolls (done ++ [.apply ver]) rest h' (by
        rw [hsplit, List.append_assoc]
        rfl) (hafter.trans hstep)).reset
      rw [reset_eq] at hback
      exact (hconsistent.apply_iff hstep).mp hback hver log hlog
  · intro hharmless done rest h hsplit hrun
    refine (History.run_consistent init done (fun done' ver rest' h' hsplit' hrun' => ?_) h
      hrun).rollsBack
    exact hharmless done' ver (rest' ++ rest) h' (by
      rw [hsplit, hsplit', List.append_assoc]
      rfl) hrun'

/-- An element is inserted, stashed and applied again. -/
def applied : List (Op ℕ) := [.insert 0, .stash, .apply 1]

/-- Going back after a version was applied does not undo the changes of the version. -/
theorem applied_not_rollsBack :
    ¬ ∀ (init : Finset ℕ) (ops done rest : List (Op ℕ)) (h : History ℕ), ops = done ++ rest →
      (History.start init).run done = some h → RollsBack h := by
  intro hrolls
  have hback := (hrolls ∅ applied applied [] _ (List.append_nil applied).symm rfl).reset
  exact absurd hback (by decide)

end Cangjie.PSet
