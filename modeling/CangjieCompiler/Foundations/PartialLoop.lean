import Mathlib.Data.List.Forall2

/-!
# Loops whose steps may fail

A step that may fail returns an option, and a loop fails when a step does.  Besides the loop that
maps every element, there are the two loops that C++ programs use to fill a vector from another:
one goes on with the object that the previous step left, the other updates the elements of a
vector that was resized before.
-/

namespace PartialLoop

variable {α β γ σ : Type}

/-! ## Mapping -/

theorem isSome_bind_iff {a : Option α} {f : α → Option β} :
    (a >>= f).isSome ↔ ∃ x, a = some x ∧ (f x).isSome := by
  cases a with
  | none => exact ⟨nofun, fun ⟨_, h, _⟩ => nomatch h⟩
  | some a => exact ⟨fun h => ⟨a, rfl, h⟩, fun ⟨x, h, hf⟩ => by cases h; exact hf⟩

/-- A loop returns exactly when each of its steps does. -/
theorem mapM_isSome_iff {f : α → Option β} {as : List α} :
    (as.mapM f).isSome ↔ ∀ a ∈ as, (f a).isSome := by
  induction as with
  | nil => exact ⟨fun _ _ ha => (List.not_mem_nil ha).elim, fun _ => rfl⟩
  | cons a as ih =>
    rw [List.mapM_cons, isSome_bind_iff, List.forall_mem_cons, ← ih, Option.isSome_iff_exists]
    constructor
    · rintro ⟨b, hb, hrest⟩
      obtain ⟨bs, hbs, _⟩ := isSome_bind_iff.mp hrest
      exact ⟨⟨b, hb⟩, Option.isSome_iff_exists.mpr ⟨bs, hbs⟩⟩
    · rintro ⟨⟨b, hb⟩, hrest⟩
      obtain ⟨bs, hbs⟩ := Option.isSome_iff_exists.mp hrest
      exact ⟨b, hb, isSome_bind_iff.mpr ⟨bs, hbs, rfl⟩⟩

/-- A loop whose steps all return gives what they return. -/
theorem mapM_eq_some_map {f : α → Option β} {g : α → β} {as : List α}
    (h : ∀ a ∈ as, f a = some (g a)) : as.mapM f = some (as.map g) := by
  induction as with
  | nil => rfl
  | cons a as ih =>
    rw [List.mapM_cons, h a List.mem_cons_self, ih fun b hb => h b (List.mem_cons_of_mem _ hb)]
    rfl

theorem mapM_cons_eq_some {f : α → Option β} {a : α} {as : List α} {bs : List β}
    (h : (a :: as).mapM f = some bs) :
    ∃ b rest, f a = some b ∧ as.mapM f = some rest ∧ bs = b :: rest := by
  rw [List.mapM_cons] at h
  obtain ⟨b, hb, hrest⟩ := Option.bind_eq_some_iff.mp h
  obtain ⟨rest, has, hbs⟩ := Option.bind_eq_some_iff.mp hrest
  exact ⟨b, rest, hb, has, (Option.some.inj hbs).symm⟩

/-- Reading back, element by element, what a loop has written. -/
theorem mapM_mapM_eq {write : γ → Option α} {read : α → Option β} {back : γ → β} {cs : List γ}
    {as : List α} (hwrite : cs.mapM write = some as)
    (hread : ∀ c ∈ cs, ∀ a, write c = some a → read a = some (back c)) :
    as.mapM read = some (cs.map back) := by
  induction cs generalizing as with
  | nil =>
    cases hwrite
    rfl
  | cons c cs ih =>
    obtain ⟨a, rest, ha, hrest, rfl⟩ := mapM_cons_eq_some hwrite
    have hhead := hread c List.mem_cons_self a ha
    have htail := ih hrest fun d hd => hread d (List.mem_cons_of_mem c hd)
    rw [List.mapM_cons, hhead, htail]
    rfl

/-! ## Reusing one object -/

/-- The loop that reads every element into the same object and appends a copy of it. -/
def readReusing (read : σ → β → Option σ) (tmp : σ) : List β → Option (List σ)
  | [] => some []
  | b :: bs => do
    let tmp ← read tmp b
    let rest ← readReusing read tmp bs
    pure (tmp :: rest)

/-- When it does not depend on the object whether a step fails, the loop returns exactly when each
of its steps does. -/
theorem readReusing_isSome_iff {read : σ → β → Option σ} {P : β → Prop}
    (h : ∀ tmp b, (read tmp b).isSome ↔ P b) (tmp : σ) (bs : List β) :
    (readReusing read tmp bs).isSome ↔ ∀ b ∈ bs, P b := by
  induction bs generalizing tmp with
  | nil => exact ⟨fun _ _ hb => (List.not_mem_nil hb).elim, fun _ => rfl⟩
  | cons b bs ih =>
    rw [readReusing, isSome_bind_iff, List.forall_mem_cons, ← h tmp b, Option.isSome_iff_exists]
    constructor
    · rintro ⟨s, hs, hrest⟩
      obtain ⟨ss, hss, _⟩ := isSome_bind_iff.mp hrest
      exact ⟨⟨s, hs⟩, (ih s).mp (Option.isSome_iff_exists.mpr ⟨ss, hss⟩)⟩
    · rintro ⟨⟨s, hs⟩, hrest⟩
      obtain ⟨ss, hss⟩ := Option.isSome_iff_exists.mp ((ih s).mpr hrest)
      exact ⟨s, hs, isSome_bind_iff.mpr ⟨ss, hss, rfl⟩⟩

/-- When every step overwrites all that an earlier step may have left, the loop reads each element
on its own.  What no step touches is the invariant `I`. -/
theorem readReusing_map_eq {read : σ → β → Option σ} {I : σ → Prop} {write : γ → β}
    {back : γ → σ} {cs : List γ}
    (hread : ∀ c ∈ cs, ∀ tmp, I tmp → read tmp (write c) = some (back c))
    (hback : ∀ c ∈ cs, I (back c)) {tmp : σ} (htmp : I tmp) :
    readReusing read tmp (cs.map write) = some (cs.map back) := by
  induction cs generalizing tmp with
  | nil => rfl
  | cons c cs ih =>
    have hhead := hread c List.mem_cons_self tmp htmp
    have htail := ih (fun d hd => hread d (List.mem_cons_of_mem c hd))
      (fun d hd => hback d (List.mem_cons_of_mem c hd)) (hback c List.mem_cons_self)
    rw [List.map_cons, readReusing, hhead, Option.bind_eq_bind, Option.bind_some, htail]
    rfl

/-! ## Updating the elements of a vector -/

/-- A vector cut or filled up to a length. -/
def resize [Inhabited σ] (n : ℕ) (cells : List σ) : List σ :=
  cells.take n ++ List.replicate (n - cells.length) default

theorem length_resize [Inhabited σ] (n : ℕ) (cells : List σ) : (resize n cells).length = n := by
  rw [resize, List.length_append, List.length_take, List.length_replicate]
  omega

theorem resize_nil [Inhabited σ] (n : ℕ) : resize n ([] : List σ) = List.replicate n default := by
  rw [resize, List.take_nil, List.nil_append, List.length_nil, Nat.sub_zero]

/-- The loop that resizes a vector to the length of another and reads every element of the other
into its cell. -/
def readInto [Inhabited σ] (read : σ → β → Option σ) (cells : List σ) (bs : List β) :
    Option (List σ) :=
  ((resize bs.length cells).zip bs).mapM fun cell => read cell.1 cell.2

/-- When it does not depend on the cell whether a step fails, the loop returns exactly when each
of its steps does. -/
theorem readInto_isSome_iff [Inhabited σ] {read : σ → β → Option σ} {P : β → Prop}
    (h : ∀ cell b, (read cell b).isSome ↔ P b) (cells : List σ) (bs : List β) :
    (readInto read cells bs).isSome ↔ ∀ b ∈ bs, P b := by
  have hzip : ((resize bs.length cells).zip bs).map Prod.snd = bs :=
    List.map_snd_zip (Nat.le_of_eq (length_resize bs.length cells).symm)
  rw [readInto, mapM_isSome_iff]
  constructor
  · intro hall b hb
    rw [← hzip] at hb
    obtain ⟨cell, hcell, rfl⟩ := List.mem_map.mp hb
    exact (h _ _).mp (hall cell hcell)
  · intro hall cell hcell
    exact (h _ _).mpr (hall cell.2 (List.of_mem_zip hcell).2)

/-- Reading back, into a vector that was empty, what a loop has written. -/
theorem readInto_mapM_eq [Inhabited σ] {write : γ → Option β} {read : σ → β → Option σ}
    {back : γ → σ} {cs : List γ} {bs : List β} (hwrite : cs.mapM write = some bs)
    (hread : ∀ c ∈ cs, ∀ b, write c = some b → read default b = some (back c)) :
    readInto read [] bs = some (cs.map back) := by
  have hzip : (resize bs.length []).zip bs = bs.map fun b => ((default : σ), b) := by
    rw [resize_nil]
    clear hwrite
    induction bs with
    | nil => rfl
    | cons b bs ih =>
      rw [List.length_cons, List.replicate_succ, List.zip_cons_cons, ih, List.map_cons]
  have hpairs : (bs.map fun b => ((default : σ), b)).mapM (fun cell => read cell.1 cell.2) =
      bs.mapM (read default) := List.mapM_map
  rw [readInto, hzip, hpairs]
  exact mapM_mapM_eq hwrite hread

end PartialLoop
