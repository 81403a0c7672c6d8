import CangjieCompiler.Demangler.Demangler
import CangjieCompiler.Foundations.EventualResult
import Mathlib

/-!
# The texts of demangled lists

Argument types and the components of a path are kept in sixteen slots until their text is formed.
The elements of a list that are in the text already come in blocks of sixteen, and the rest is in
the slots (`Filled`).  Argument types are moved to the text each time the slots are full, so the
text is that of the whole list.  Of a path only a declaration moves them, and it cuts the delimiter
behind them; so the text of a path is complete if the slots suffice, and otherwise only with an
empty delimiter, where nothing but empty components is written over (`Complete`).
-/

namespace Cangjie.Demangle

open EventualResult

/-! ## Joined texts -/

/-- Texts with a delimiter behind each. -/
def delimited (delimiter : StdString) (texts : List StdString) : StdString :=
  (texts.map fun text => text ++ delimiter).flatten

theorem delimited_append (delimiter : StdString) (texts texts' : List StdString) :
    delimited delimiter (texts ++ texts') =
      delimited delimiter texts ++ delimited delimiter texts' := by
  rw [delimited, List.map_append, List.flatten_append]
  rfl

theorem foldl_delimited (delimiter text : StdString) (texts : List StdString) :
    texts.foldl (fun result arg => result ++ (arg ++ delimiter)) text =
      text ++ delimited delimiter texts := by
  induction texts generalizing text with
  | nil => exact (List.append_nil text).symm
  | cons arg texts ih => rw [List.foldl_cons, ih, List.append_assoc]; rfl

theorem foldl_intercalate (delimiter text : StdString) (texts : List StdString) :
    texts.foldl (fun name arg => name ++ (delimiter ++ arg)) text =
      delimiter.intercalate (text :: texts) := by
  induction texts generalizing text with
  | nil => exact List.intercalate_singleton.symm
  | cons arg texts ih =>
    rw [List.foldl_cons, ih]
    cases texts with
    | nil => simp [List.append_assoc]
    | cons arg' texts => simp [List.append_assoc]

/-- The last delimiter is the one that a join does without. -/
theorem delimited_eq {texts : List StdString} (delimiter : StdString) (h : texts ≠ []) :
    delimited delimiter texts = delimiter.intercalate texts ++ delimiter := by
  induction texts with
  | nil => exact absurd rfl h
  | cons text texts ih =>
    rcases eq_or_ne texts [] with rfl | hne
    · simp [delimited]
    · have htail : delimited delimiter (text :: texts) =
          text ++ delimiter ++ delimited delimiter texts := rfl
      rw [htail, ih hne, List.intercalate_cons_of_ne_nil hne, List.append_assoc (text ++ delimiter)]

theorem delimited_eq_of_nil {delimiter : StdString} {texts : List StdString}
    (hnil : delimiter = []) (h : texts ≠ []) :
    delimited delimiter texts = delimiter.intercalate texts := by
  rw [delimited_eq delimiter h]
  subst hnil
  exact List.append_nil _

/-- A join of two lists, of which the second is not empty. -/
theorem intercalate_append {texts : List StdString} (delimiter : StdString)
    (done : List StdString) (h : texts ≠ []) :
    delimiter.intercalate (done ++ texts) =
      delimited delimiter done ++ delimiter.intercalate texts := by
  induction done with
  | nil => rfl
  | cons text done ih =>
    have hne : done ++ texts ≠ [] := List.append_ne_nil_of_right_ne_nil done h
    rw [List.cons_append, List.intercalate_cons_of_ne_nil hne, ih, ← List.append_assoc]
    rfl

theorem getArgTypesFullName_eq (args : Vector StdString 16) (argSize : ℕ) (delimiter : StdString) :
    Demangler.getArgTypesFullName args argSize delimiter =
      delimiter.intercalate (args.toList.take argSize) := by
  rw [Demangler.getArgTypesFullName]
  cases args.toList.take argSize with
  | nil => rfl
  | cons arg rest => exact foldl_intercalate delimiter arg rest

namespace Demangler

/-! ## The slots -/

/-- After some blocks of sixteen elements, which have left the slots, the slots hold the rest of a
list: nothing only at its beginning. -/
structure Filled (slots : Slots) (blocks : ℕ) (rest : List StdString) : Prop where
  count : slots.i.toNat = (16 * blocks + rest.length) % 2 ^ 32
  rest_le : rest.length ≤ 16
  rest_ne : blocks ≠ 0 → rest ≠ []
  held : slots.argsArr.toList.take rest.length = rest

theorem Filled.empty : Filled {} 0 [] where
  count := rfl
  rest_le := Nat.zero_le 16
  rest_ne := fun h => absurd rfl h
  held := rfl

variable {slots : Slots} {blocks : ℕ} {rest : List StdString}

theorem toNat_write_i (slots : Slots) (arg : StdString) :
    (slots.write arg).i.toNat = (slots.i.toNat + 1) % 2 ^ 32 :=
  UInt32.toNat_add slots.i 1

theorem toList_write (slots : Slots) (arg : StdString) :
    (slots.write arg).argsArr.toList = slots.argsArr.toList.set (slots.i.toNat % 16) arg :=
  Vector.toList_set (Nat.mod_lt _ (by decide))

/-- Below sixteen elements the next one goes behind them. -/
theorem Filled.write (h : Filled slots blocks rest) (hlt : rest.length < 16) (arg : StdString) :
    Filled (slots.write arg) blocks (rest ++ [arg]) := by
  have hslot : slots.i.toNat % 16 = rest.length := by
    have hcount := h.count
    omega
  refine ⟨?_, ?_, fun _ => List.append_ne_nil_of_right_ne_nil rest (List.cons_ne_nil arg []), ?_⟩
  · rw [toNat_write_i, h.count, List.length_append, List.length_singleton]
    omega
  · rw [List.length_append, List.length_singleton]
    exact hlt
  · have hlen : rest.length < slots.argsArr.toList.length := by
      rw [Vector.length_toList]
      exact hlt
    rw [toList_write, hslot, List.length_append, List.length_singleton, List.take_set,
      List.take_succ_eq_append_getElem hlen, List.set_append_right _ _ (by simp), h.held]
    simp

/-- The seventeenth element begins a new block. -/
theorem Filled.write_full (hcount : slots.i.toNat = (16 * blocks + 16) % 2 ^ 32)
    (arg : StdString) : Filled (slots.write arg) (blocks + 1) [arg] := by
  have hslot : slots.i.toNat % 16 = 0 := by omega
  refine ⟨?_, Nat.le_of_ble_eq_true rfl, fun _ => List.cons_ne_nil arg [], ?_⟩
  · rw [toNat_write_i, hcount, List.length_singleton]
    omega
  · have hlen : 0 < slots.argsArr.toList.length := by
      rw [Vector.length_toList]
      decide
    rw [toList_write, hslot, List.length_singleton, List.take_set,
      List.take_succ_eq_append_getElem hlen]
    rfl

/-- The slots are in use again when they are full, unless the counter is back at zero. -/
theorem Filled.wraps_iff (h : Filled slots blocks rest) :
    slots.wraps = true ↔ rest.length = 16 ∧ (16 * blocks + 16) % 2 ^ 32 ≠ 0 := by
  have hzero : slots.i ≠ 0 ↔ slots.i.toNat ≠ 0 :=
    not_congr (UInt32.toNat_inj (b := 0)).symm
  have hcount := h.count
  have hle := h.rest_le
  have hne : blocks ≠ 0 → rest.length ≠ 0 := fun hb hlen =>
    h.rest_ne hb (List.eq_nil_of_length_eq_zero hlen)
  rw [Slots.wraps, Bool.and_eq_true, beq_iff_eq, bne_iff_ne, hzero]
  omega

/-- Full slots go to the text as a whole. -/
theorem Filled.flush_result (h : Filled slots blocks rest) (hfull : rest.length = 16)
    (delimiter : StdString) :
    (slots.flush delimiter).result = slots.result ++ delimited delimiter rest := by
  have hlen : slots.argsArr.toList.length = 16 := Vector.length_toList
  have hall : slots.argsArr.toList = rest := by
    have hheld := h.held
    rwa [hfull, List.take_of_length_le (Nat.le_of_eq hlen)] at hheld
  rw [← hall]
  exact foldl_delimited delimiter slots.result slots.argsArr.toList

theorem Filled.flushCut_result (h : Filled slots blocks rest) (hfull : rest.length = 16)
    (delimiter : StdString) :
    (slots.flushCut delimiter).result = slots.result ++ delimiter.intercalate rest := by
  have hne : rest ≠ [] := fun hnil => by
    rw [hnil] at hfull
    cases hfull
  have hcut : (slots.flushCut delimiter).result =
      truncate (slots.flush delimiter).result
        ((slots.flush delimiter).result.length - delimiter.length) := rfl
  rw [hcut, h.flush_result hfull, delimited_eq delimiter hne, ← List.append_assoc, truncate,
    List.length_append, Nat.add_sub_cancel]
  exact List.take_left

/-- How many slots are read at the end. -/
theorem Filled.remaining (h : Filled slots blocks rest) (hi : slots.i ≠ 0) :
    (slots.i - 1).toNat % 16 + 1 = rest.length := by
  have hpos : slots.i.toNat ≠ 0 := fun hz => hi (UInt32.toNat_inj.mp hz)
  have hle : (1 : UInt32) ≤ slots.i := UInt32.le_iff_toNat_le.mpr (Nat.one_le_iff_ne_zero.mpr hpos)
  have hsub : (slots.i - 1).toNat = slots.i.toNat - 1 := UInt32.toNat_sub_of_le _ _ hle
  have hcount := h.count
  have hrest := h.rest_le
  have hne : blocks ≠ 0 → rest.length ≠ 0 := fun hb hlen =>
    h.rest_ne hb (List.eq_nil_of_length_eq_zero hlen)
  omega

/-! ## Argument types -/

/-- An element goes into its slot, from which the full slots are moved to the text before. -/
def Slots.add (delimiter : StdString) (slots : Slots) (arg : StdString) : Slots :=
  (if slots.wraps then slots.flush delimiter else slots).write arg

theorem toNat_add_i (delimiter : StdString) (slots : Slots) (arg : StdString) :
    (slots.add delimiter arg).i.toNat = (slots.i.toNat + 1) % 2 ^ 32 := by
  rw [Slots.add]
  split_ifs <;> exact toNat_write_i _ arg

/-- The text and the slots hold a list. -/
def Holds (delimiter : StdString) (slots : Slots) (texts : List StdString) : Prop :=
  ∃ done rest, texts = done ++ rest ∧ 16 ∣ done.length ∧ Filled slots (done.length / 16) rest ∧
    slots.result = delimited delimiter done

theorem Holds.empty (delimiter : StdString) : Holds delimiter {} [] :=
  ⟨[], [], rfl, Nat.dvd_zero _, Filled.empty, rfl⟩

theorem Holds.add {delimiter : StdString} {texts : List StdString}
    (h : Holds delimiter slots texts) (hlen : texts.length < 2 ^ 32) (arg : StdString) :
    Holds delimiter (slots.add delimiter arg) (texts ++ [arg]) := by
  obtain ⟨done, rest, rfl, hdvd, hfilled, hresult⟩ := h
  rw [List.length_append] at hlen
  rcases Nat.lt_or_eq_of_le hfilled.rest_le with hlt | hfull
  · have hwraps : slots.wraps = false :=
      Bool.eq_false_iff.mpr fun hwraps => Nat.ne_of_lt hlt (hfilled.wraps_iff.mp hwraps).1
    refine ⟨done, rest ++ [arg], List.append_assoc done rest [arg], hdvd, ?_, ?_⟩
    · rw [Slots.add, hwraps]
      exact hfilled.write hlt arg
    · rw [Slots.add, hwraps]
      exact hresult
  · have hblocks : 16 * (done.length / 16) = done.length := Nat.mul_div_cancel' hdvd
    have hwraps : slots.wraps = true := hfilled.wraps_iff.mpr ⟨hfull, by omega⟩
    have hnext : (done ++ rest).length / 16 = done.length / 16 + 1 := by
      rw [List.length_append]
      omega
    refine ⟨done ++ rest, [arg], rfl, ?_, ?_, ?_⟩
    · rw [List.length_append, hfull]
      exact hdvd.add (dvd_refl 16)
    · rw [Slots.add, hwraps, hnext]
      refine Filled.write_full ?_ arg
      have hcount := hfilled.count
      rwa [hfull] at hcount
    · rw [Slots.add, hwraps, delimited_append, ← hresult]
      exact hfilled.flush_result hfull delimiter

/-- The text of the argument types is that of the whole list. -/
theorem Holds.argTypesText {delimiter : StdString} {texts : List StdString}
    (h : Holds delimiter slots texts) (hlen : texts.length < 2 ^ 32) :
    argTypesText delimiter slots = delimiter.intercalate texts := by
  obtain ⟨done, rest, rfl, hdvd, hfilled, hresult⟩ := h
  have hblocks : 16 * (done.length / 16) = done.length := Nat.mul_div_cancel' hdvd
  have hcount := hfilled.count
  rw [List.length_append] at hlen
  rw [hblocks, Nat.mod_eq_of_lt hlen] at hcount
  rw [Demangler.argTypesText, hresult]
  split_ifs with hi
  · have hzero : done.length + rest.length = 0 := by rw [← hcount, hi]; rfl
    rw [List.eq_nil_of_length_eq_zero (Nat.eq_zero_of_add_eq_zero_right hzero),
      List.eq_nil_of_length_eq_zero (Nat.eq_zero_of_add_eq_zero_left hzero)]
    rfl
  · have hne : rest ≠ [] := by
      rintro rfl
      refine hfilled.rest_ne (fun hb => hi (UInt32.toNat_inj.mp ?_)) rfl
      rw [hcount, ← hblocks, hb]
      rfl
    rw [getArgTypesFullName_eq, hfilled.remaining hi, hfilled.held,
      intercalate_append delimiter done hne]

/-- A list of texts is added one after the other. -/
theorem Holds.foldl_add {delimiter : StdString} {texts : List StdString}
    (h : Holds delimiter slots texts) (args : List StdString)
    (hlen : texts.length + args.length < 2 ^ 32) :
    Holds delimiter (args.foldl (Slots.add delimiter) slots) (texts ++ args) := by
  induction args generalizing slots texts with
  | nil =>
    rw [List.append_nil]
    exact h
  | cons arg args ih =>
    rw [List.length_cons] at hlen
    have hlen' : (texts ++ [arg]).length + args.length < 2 ^ 32 := by
      rw [List.length_append, List.length_singleton]
      omega
    have hnext := ih (h.add (by omega) arg) hlen'
    rwa [List.append_assoc] at hnext

variable (d : Demangler)

/-- The argument types that are read from a state on, of which a number has been read before. -/
inductive ReadsArgTypes (size : UInt32) : ℕ → State → List DemangleInfo → State → Prop where
  | done {i : ℕ} {s s' : State}
      (h : Settles (fun fuel => d.nextArgType (d.demangleByPrefix fuel) (i < size.toNat) s)
        (.done, s')) : ReadsArgTypes size i s [] s'
  | read {i : ℕ} {s s₁ s' : State} {di : DemangleInfo} {infos : List DemangleInfo}
      (h : Settles (fun fuel => d.nextArgType (d.demangleByPrefix fuel) (i < size.toNat) s)
        (.read di, s₁)) (hrest : ReadsArgTypes size (i + 1) s₁ infos s') :
      ReadsArgTypes size i s (di :: infos) s'

/-- The arguments of a list: those that are read, or none where the letter for this is the last
one. -/
inductive ReadsArguments (size : UInt32) : State → List DemangleInfo → State → Prop where
  | void {s s₁ s' : State} (h : d.isVoidAtEnd s = some (true, s₁))
      (hskip : d.skipChar MANGLE_VOID_PREFIX s₁ = some ((), s')) : ReadsArguments size s [] s'
  | list {s s₁ s' : State} {infos : List DemangleInfo} (h : d.isVoidAtEnd s = some (false, s₁))
      (hlist : d.ReadsArgTypes size 0 s₁ infos s') : ReadsArguments size s infos s'

variable {d} {size : UInt32} {i : ℕ} {s s' : State} {infos : List DemangleInfo}

theorem isNotEndOfMangledName_returns (s : State) :
    ∃ b s', d.isNotEndOfMangledName s = some (b, s') := by
  by_cases h : s.currentIndex < d.mangledName.length
  · exact ⟨_, _, (Prog.bind_eq rfl).trans (by rw [if_pos h]; rfl)⟩
  · exact ⟨false, s, (Prog.bind_eq rfl).trans (by rw [if_neg h]; rfl)⟩

/-- When as many argument types as asked for have been read, no other one is. -/
theorem nextArgType_false (s : State) :
    ∃ s', ∀ byPrefix, d.nextArgType byPrefix false s = some (.done, s') := by
  obtain ⟨b, s', h⟩ := isNotEndOfMangledName_returns (d := d)
    (s.logged (.step .iteration))
  refine ⟨s', fun byPrefix => ?_⟩
  rw [nextArgType, Prog.bind_eq rfl, Prog.bind_eq h, Bool.and_false]
  rfl

theorem lt_of_read {s₁ : State} {di : DemangleInfo}
    (h : Settles (fun fuel => d.nextArgType (d.demangleByPrefix fuel) (i < size.toNat) s)
      (.read di, s₁)) : i < size.toNat := by
  by_contra hle
  obtain ⟨s₂, hdone⟩ := nextArgType_false (d := d) s
  rw [decide_eq_false hle] at h
  cases h.unique (settles_of_eq fun fuel => hdone (d.demangleByPrefix fuel))

/-- The counter of the slots is compared as the number of the arguments is. -/
theorem decide_lt_size {slots : Slots} (hi : slots.i.toNat = i) :
    decide (slots.i < size) = decide (i < size.toNat) := by
  rw [← hi]
  exact decide_eq_decide.mpr UInt32.lt_iff_toNat_lt

theorem ReadsArgTypes.length_le (h : d.ReadsArgTypes size i s infos s') (hi : i ≤ size.toNat) :
    i + infos.length ≤ size.toNat := by
  induction h with
  | done => exact hi
  | @read i s s₁ s' di infos h _ ih =>
    have hnext := ih (lt_of_read h)
    rw [List.length_cons]
    omega

/-- What the loop does with the texts of the argument types. -/
theorem ReadsArgTypes.loop (h : d.ReadsArgTypes size i s infos s') (delimiter : StdString)
    {slots : Slots} (hi : slots.i.toNat = i) :
    ∃ enough, ∀ fuel ≥ enough, ∀ n > infos.length,
      d.argTypesLoop (d.demangleByPrefix fuel) delimiter size n slots s =
        some (some ((infos.map fun di => di.getFullName d.scopeResolution).foldl
          (Slots.add delimiter) slots), s') := by
  induction h generalizing slots with
  | @done i s s' h =>
    obtain ⟨enough, henough⟩ := settles_iff.mp h
    refine ⟨enough, fun fuel hfuel n hn => ?_⟩
    obtain ⟨n, rfl⟩ := Nat.exists_eq_add_of_lt hn
    rw [argTypesLoop, decide_lt_size hi, Prog.bind_eq (henough fuel hfuel)]
    rfl
  | @read i s s₁ s' di infos h hrest ih =>
    obtain ⟨enough, henough⟩ := settles_iff.mp h
    have hlt := lt_of_read h
    have hsize := size.toNat_lt
    have hnext : (slots.add delimiter (di.getFullName d.scopeResolution)).i.toNat = i + 1 := by
      rw [toNat_add_i, hi]
      omega
    obtain ⟨enough', hloop⟩ := ih hnext
    refine ⟨max enough enough', fun fuel hfuel n hn => ?_⟩
    obtain ⟨n, rfl⟩ := Nat.exists_eq_add_of_lt hn
    rw [argTypesLoop, decide_lt_size hi, Prog.bind_eq (henough fuel (le_of_max_le_left hfuel))]
    refine hloop fuel (le_of_max_le_right hfuel) _ ?_
    rw [List.length_cons]
    omega

theorem ReadsArguments.settles (h : d.ReadsArguments size s infos s') (delimiter : StdString) :
    Settles (fun fuel => d.demangleArgTypes (d.demangleByPrefix fuel) fuel delimiter size s)
      (delimiter.intercalate (infos.map fun di => di.getFullName d.scopeResolution), s') := by
  cases h with
  | void h hskip =>
    refine settles_of_eq fun fuel => ?_
    rw [demangleArgTypes, Prog.bind_eq h, if_pos rfl, Prog.bind_eq hskip]
    rfl
  | list h hlist =>
    have hle := hlist.length_le (Nat.zero_le _)
    have hsize := size.toNat_lt
    have hlen : (infos.map fun di => di.getFullName d.scopeResolution).length < 2 ^ 32 := by
      rw [List.length_map]
      omega
    obtain ⟨enough, hloop⟩ := hlist.loop delimiter (rfl : (({} : Slots).i).toNat = 0)
    refine settles_iff.mpr ⟨enough + (infos.length + 1), fun fuel hfuel => ?_⟩
    rw [demangleArgTypes, Prog.bind_eq h, if_neg Bool.false_ne_true,
      Prog.bind_eq (hloop fuel (by omega) fuel (by omega))]
    have htext := ((Holds.empty delimiter).foldl_add _ (by
      rw [List.length_nil, Nat.zero_add]
      exact hlen)).argTypesText hlen
    exact congrArg (fun text => some (text, s')) htext

/-! ## Paths -/

def Component.text : Component → StdString
  | .lambda text => text
  | .extend text => text
  | .last text => text
  | .decl text _ _ => text

def Component.isDecl : Component → Bool
  | .decl _ _ _ => true
  | _ => false

/-- A component goes into its slot, from which the full slots are moved to the text before a
declaration. -/
def Slots.put (delimiter : StdString) (slots : Slots) (c : Component) : Slots :=
  (if c.isDecl && slots.wraps then slots.flushCut delimiter else slots).write c.text

theorem Nested.write_slots (delimiter : StdString) (nested : Nested) (c : Component) :
    (nested.write delimiter c).slots = nested.slots.put delimiter c := by
  cases c <;> rfl

theorem Nested.foldl_write_slots (delimiter : StdString) (nested : Nested)
    (comps : List Component) :
    (comps.foldl (Nested.write delimiter) nested).slots =
      comps.foldl (Slots.put delimiter) nested.slots := by
  induction comps generalizing nested with
  | nil => rfl
  | cons c comps ih => rw [List.foldl_cons, ih, Nested.write_slots, List.foldl_cons]

/-- The element that takes the slot of the block after the one of place `k` does not move it to the
text. -/
def WrittenOver (comps : List Component) (k : ℕ) : Prop :=
  ∃ c, comps[16 * (k / 16) + 16]? = some c ∧ (c.isDecl = false ∨ 2 ^ 32 ∣ 16 * (k / 16) + 16)

/-- The place `k` is in the slots when the path ends, but the counter says that they are empty. -/
def Dropped (comps : List Component) (k : ℕ) : Prop :=
  comps.length ≤ 16 * (k / 16) + 16 ∧ 2 ^ 32 ∣ comps.length

/-- A path whose text is complete: its slots are not used again, or the delimiter is empty and so is
what is lost. -/
def Complete (delimiter : StdString) (comps : List Component) : Prop :=
  comps.length ≤ 16 ∨ delimiter = [] ∧
    ∀ k c, comps[k]? = some c → WrittenOver comps k ∨ Dropped comps k → c.text = []

/-- The text and the slots at the end of some components. -/
structure HoldsPath (delimiter : StdString) (slots : Slots) (done rest : List Component) :
    Prop where
  blocks : 16 ∣ done.length
  filled : Filled slots (done.length / 16) (rest.map Component.text)
  nothing : done = [] → slots.result = []
  shorter : done ≠ [] → slots.result.length + delimiter.length ≤
    (delimited delimiter (done.map Component.text)).length
  complete : delimiter = [] → (slots.result = delimited delimiter (done.map Component.text) ↔
    ∀ k c, done[k]? = some c → WrittenOver (done ++ rest) k → c.text = [])

theorem HoldsPath.empty (delimiter : StdString) : HoldsPath delimiter {} [] [] where
  blocks := Nat.dvd_zero 16
  filled := Filled.empty
  nothing := fun _ => rfl
  shorter := fun h => absurd rfl h
  complete := fun _ => ⟨fun _ _ _ hk => (nomatch hk), fun _ => rfl⟩

theorem forall_getElem?_append {α : Type} {xs ys : List α} {P : ℕ → Prop} {Q : α → Prop} :
    (∀ k x, (xs ++ ys)[k]? = some x → P k → Q x) ↔
      (∀ k x, xs[k]? = some x → P k → Q x) ∧
        ∀ k x, ys[k]? = some x → P (xs.length + k) → Q x := by
  constructor
  · intro h
    refine ⟨fun k x hk => h k x ?_, fun k x hk => h (xs.length + k) x ?_⟩
    · rw [List.getElem?_append_left (List.getElem?_eq_some_iff.mp hk).1]
      exact hk
    · rw [List.getElem?_append_right (Nat.le_add_right _ _), Nat.add_sub_cancel_left]
      exact hk
  · rintro ⟨hxs, hys⟩ k x hk
    rcases Nat.lt_or_ge k xs.length with hlt | hle
    · rw [List.getElem?_append_left hlt] at hk
      exact hxs k x hk
    · rw [List.getElem?_append_right hle] at hk
      have hk' := hys _ x hk
      rwa [Nat.add_sub_cancel' hle] at hk'

theorem eq_append_iff {α : Type} {a b c : List α} (h : a.length ≤ b.length) :
    a = b ++ c ↔ a = b ∧ c = [] := by
  refine ⟨fun heq => ?_, fun heq => by rw [heq.1, heq.2, List.append_nil]⟩
  have hc : c = [] := by
    refine List.eq_nil_of_length_eq_zero ?_
    have hlen := congrArg List.length heq
    rw [List.length_append] at hlen
    omega
  rw [hc, List.append_nil] at heq
  exact ⟨heq, hc⟩

theorem delimited_nil_eq_nil {texts : List StdString} :
    delimited [] texts = [] ↔ ∀ text ∈ texts, text = [] := by
  rw [delimited, List.flatten_eq_nil_iff, List.forall_mem_map]
  simp only [List.append_nil]

/-- The place whose element moves the block of `k` to the text is at most the length of the blocks
before the rest. -/
theorem next_le_of_lt {n k : ℕ} (hn : 16 ∣ n) (hk : k < n) : 16 * (k / 16) + 16 ≤ n := by
  omega

/-- What comes behind the next block does not matter. -/
theorem writtenOver_append {comps : List Component} {k : ℕ} (cs : List Component)
    (h : 16 * (k / 16) + 16 < comps.length) :
    WrittenOver (comps ++ cs) k ↔ WrittenOver comps k := by
  rw [WrittenOver, WrittenOver, List.getElem?_append_left h]

namespace HoldsPath

variable {delimiter : StdString} {done rest : List Component}

theorem rest_ne (h : HoldsPath delimiter slots done rest) (hne : done ≠ []) : rest ≠ [] := by
  intro hnil
  have hpos := List.length_pos_iff.mpr hne
  obtain ⟨blocks, hblocks⟩ := h.blocks
  refine h.filled.rest_ne (by omega) ?_
  rw [hnil]
  rfl

theorem length_le (h : HoldsPath delimiter slots done rest) :
    slots.result.length ≤ (delimited delimiter (done.map Component.text)).length := by
  rcases eq_or_ne done [] with hnil | hne
  · rw [h.nothing hnil]
    exact Nat.zero_le _
  · have hshorter := h.shorter hne
    omega

/-- What is lost in front is so whatever follows. -/
theorem writtenOver_iff (h : HoldsPath delimiter slots done rest) (cs : List Component) {k : ℕ}
    {c : Component} (hk : done[k]? = some c) :
    WrittenOver (done ++ rest ++ cs) k ↔ WrittenOver (done ++ rest) k := by
  have hlt := (List.getElem?_eq_some_iff.mp hk).1
  have hne : done ≠ [] := List.ne_nil_of_length_pos (Nat.zero_lt_of_lt hlt)
  have hrest := List.length_pos_iff.mpr (h.rest_ne hne)
  refine writtenOver_append cs ?_
  have hle := next_le_of_lt h.blocks hlt
  rw [List.length_append]
  omega

/-- Below sixteen components in the slots the next one goes behind them. -/
theorem put_of_lt (h : HoldsPath delimiter slots done rest) (hlt : rest.length < 16)
    (c : Component) : HoldsPath delimiter (slots.put delimiter c) done (rest ++ [c]) := by
  have hlt' : (rest.map Component.text).length < 16 := by
    rw [List.length_map]
    exact hlt
  have hwraps : slots.wraps = false :=
    Bool.eq_false_iff.mpr fun hwraps => Nat.ne_of_lt hlt' (h.filled.wraps_iff.mp hwraps).1
  have hput : slots.put delimiter c = slots.write c.text := by
    rw [Slots.put, hwraps, Bool.and_false]
    rfl
  rw [hput]
  refine ⟨h.blocks, ?_, h.nothing, h.shorter, fun hnil => (h.complete hnil).trans ?_⟩
  · rw [List.map_append]
    exact h.filled.write hlt' c.text
  · rw [← List.append_assoc]
    exact forall₃_congr fun k c' hk => imp_congr (h.writtenOver_iff [c] hk).symm Iff.rfl

/-- The component behind a full block is in the first slot again. -/
theorem put_of_full (h : HoldsPath delimiter slots done rest) (hfull : rest.length = 16)
    (c : Component) : HoldsPath delimiter (slots.put delimiter c) (done ++ rest) [c] := by
  have hfull' : (rest.map Component.text).length = 16 := by
    rw [List.length_map]
    exact hfull
  have hne : rest.map Component.text ≠ [] := fun hnil => by
    rw [hnil] at hfull'
    cases hfull'
  have hblocks : 16 * (done.length / 16) = done.length := Nat.mul_div_cancel' h.blocks
  have hwraps := h.filled.wraps_iff
  rw [hblocks] at hwraps
  have hcount := h.filled.count
  rw [hfull'] at hcount
  have hlost : ∀ k < 16, WrittenOver (done ++ rest ++ [c]) (done.length + k) ↔
      (c.isDecl && slots.wraps) = false := by
    intro k hk
    have hnext : 16 * ((done.length + k) / 16) + 16 = (done ++ rest).length := by
      rw [List.length_append]
      omega
    rw [WrittenOver, hnext, List.getElem?_concat_length, Bool.and_eq_false_iff]
    have hdvd : slots.wraps = false ↔ 2 ^ 32 ∣ (done ++ rest).length := by
      rw [← Bool.not_eq_true, hwraps, List.length_append, hfull]
      omega
    rw [hdvd]
    exact ⟨fun ⟨_, hc, hor⟩ => Option.some.inj hc ▸ hor, fun hor => ⟨c, rfl, hor⟩⟩
  have hresult : (slots.put delimiter c).result = slots.result ++
      if (c.isDecl && slots.wraps) = true then
        delimiter.intercalate (rest.map Component.text) else [] := by
    rw [Slots.put]
    split_ifs
    · exact h.filled.flushCut_result hfull' delimiter
    · exact (List.append_nil _).symm
  have hrest : (delimited delimiter (rest.map Component.text)).length =
      (delimiter.intercalate (rest.map Component.text)).length + delimiter.length := by
    rw [delimited_eq delimiter hne, List.length_append]
  refine ⟨?_, ?_, fun hnil => ?_, fun _ => ?_, fun hnil => ?_⟩
  · rw [List.length_append, hfull]
    exact h.blocks.add (dvd_refl 16)
  · have hnext : (done ++ rest).length / 16 = done.length / 16 + 1 := by
      rw [List.length_append]
      omega
    have hflush : (slots.flushCut delimiter).i.toNat =
        (16 * (done.length / 16) + 16) % 2 ^ 32 := hcount
    rw [hnext, Slots.put]
    split_ifs
    · exact Filled.write_full hflush c.text
    · exact Filled.write_full hcount c.text
  · rw [(List.append_eq_nil_iff.mp hnil).2] at hfull
    cases hfull
  · have hle := h.length_le
    have hif : (if (c.isDecl && slots.wraps) = true then
        delimiter.intercalate (rest.map Component.text) else []).length ≤
          (delimiter.intercalate (rest.map Component.text)).length := by
      split_ifs
      · exact Nat.le_refl _
      · exact Nat.zero_le _
    rw [hresult, List.map_append, delimited_append, List.length_append, List.length_append, hrest]
    omega
  · rw [hresult, List.map_append, delimited_append, forall_getElem?_append]
    have hdone : (∀ k c', done[k]? = some c' → WrittenOver (done ++ rest ++ [c]) k →
        c'.text = []) ↔ slots.result = delimited delimiter (done.map Component.text) := by
      rw [h.complete hnil]
      exact forall₃_congr fun k c' hk => imp_congr (h.writtenOver_iff [c] hk) Iff.rfl
    rw [hdone]
    by_cases hw : (c.isDecl && slots.wraps) = true
    · rw [if_pos hw, ← delimited_eq_of_nil hnil hne, List.append_left_inj]
      refine (and_iff_left fun k c' hk hover => ?_).symm
      have hlt := (List.getElem?_eq_some_iff.mp hk).1
      rw [(hlost k (hfull ▸ hlt)).mp hover] at hw
      cases hw
    · rw [if_neg hw, List.append_nil, eq_append_iff h.length_le, hnil, delimited_nil_eq_nil,
        List.forall_mem_map]
      refine and_congr_right fun _ => ⟨fun hall k c' hk _ => hall c' (List.mem_of_getElem? hk),
        fun hall c' hc => ?_⟩
      obtain ⟨k, hk⟩ := List.mem_iff_getElem?.mp hc
      have hlt := (List.getElem?_eq_some_iff.mp hk).1
      exact hall k c' hk ((hlost k (hfull ▸ hlt)).mpr (Bool.eq_false_iff.mpr hw))

theorem put (h : HoldsPath delimiter slots done rest) (c : Component) :
    ∃ done' rest', done' ++ rest' = done ++ rest ++ [c] ∧
      HoldsPath delimiter (slots.put delimiter c) done' rest' := by
  have hle := h.filled.rest_le
  rw [List.length_map] at hle
  rcases Nat.lt_or_eq_of_le hle with hlt | hfull
  · exact ⟨done, rest ++ [c], (List.append_assoc done rest [c]).symm, h.put_of_lt hlt c⟩
  · exact ⟨done ++ rest, [c], rfl, h.put_of_full hfull c⟩

theorem foldl_put (h : HoldsPath delimiter slots done rest) (comps : List Component) :
    ∃ done' rest', done' ++ rest' = done ++ rest ++ comps ∧
      HoldsPath delimiter (comps.foldl (Slots.put delimiter) slots) done' rest' := by
  induction comps generalizing slots done rest with
  | nil => exact ⟨done, rest, (List.append_nil _).symm, h⟩
  | cons c comps ih =>
    obtain ⟨done₁, rest₁, heq, hput⟩ := h.put c
    obtain ⟨done', rest', heq', hholds⟩ := ih hput
    refine ⟨done', rest', ?_, hholds⟩
    rw [heq', heq, List.append_assoc _ [c]]
    rfl

/-- With an empty delimiter: what is lost of the blocks before the rest, and of the rest. -/
theorem complete_iff (h : HoldsPath delimiter slots done rest) (hne : done ≠ [])
    (hnil : delimiter = []) :
    Complete delimiter (done ++ rest) ↔
      slots.result = delimited delimiter (done.map Component.text) ∧
        (2 ^ 32 ∣ (done ++ rest).length → ∀ c ∈ rest, c.text = []) := by
  have hle := h.filled.rest_le
  rw [List.length_map] at hle
  have hrest := List.length_pos_iff.mpr (h.rest_ne hne)
  have hlong : ¬(done ++ rest).length ≤ 16 := by
    have hpos := List.length_pos_iff.mpr hne
    obtain ⟨blocks, hblocks⟩ := h.blocks
    rw [List.length_append]
    omega
  rw [Complete, or_iff_right hlong, and_iff_right hnil, forall_getElem?_append, h.complete hnil]
  refine and_congr (forall₃_congr fun k c hk => imp_congr ⟨fun hor => ?_, .inl⟩ Iff.rfl)
    ⟨fun hall hdvd c hc => ?_, fun hall k c hk hor => ?_⟩
  · have hnext := next_le_of_lt h.blocks (List.getElem?_eq_some_iff.mp hk).1
    refine hor.resolve_right fun hdropped => ?_
    have hlen := hdropped.1
    rw [List.length_append] at hlen
    omega
  · obtain ⟨k, hk⟩ := List.mem_iff_getElem?.mp hc
    refine hall k c hk (.inr ⟨?_, hdvd⟩)
    obtain ⟨blocks, hblocks⟩ := h.blocks
    rw [List.length_append]
    omega
  · obtain ⟨blocks, hblocks⟩ := h.blocks
    have hlt := (List.getElem?_eq_some_iff.mp hk).1
    refine hall ?_ c (List.mem_of_getElem? hk)
    rcases hor with ⟨c', hc', -⟩ | hdropped
    · have hlt' := (List.getElem?_eq_some_iff.mp hc').1
      rw [List.length_append] at hlt'
      omega
    · exact hdropped.2

/-- The text of a path is complete exactly if nothing but empty texts is lost. -/
theorem nestedText_iff (h : HoldsPath delimiter slots done rest) :
    nestedText delimiter slots = delimiter.intercalate ((done ++ rest).map Component.text) ↔
      Complete delimiter (done ++ rest) := by
  have hblocks : 16 * (done.length / 16) = done.length := Nat.mul_div_cancel' h.blocks
  have hcount := h.filled.count
  have hle := h.filled.rest_le
  rw [List.length_map] at hcount hle
  rw [hblocks] at hcount
  have htext : nestedText delimiter slots = slots.result ++
      if slots.i = 0 then [] else delimiter.intercalate (rest.map Component.text) := by
    rw [nestedText, getArgTypesFullName_eq]
    split_ifs with hi
    · rfl
    · rw [h.filled.remaining hi, h.filled.held]
  rw [htext]
  rcases eq_or_ne done [] with rfl | hne
  · have hall : Complete delimiter ([] ++ rest) := .inl hle
    refine iff_of_true ?_ hall
    rw [h.nothing rfl, List.nil_append, List.nil_append]
    split_ifs with hi
    · have hzero : rest.length = 0 := by
        have : slots.i.toNat = 0 := by rw [hi]; rfl
        rw [List.length_nil] at hcount
        omega
      rw [List.eq_nil_of_length_eq_zero hzero]
      rfl
    · rfl
  · have hrest : rest.map Component.text ≠ [] := fun hmap =>
      h.rest_ne hne (List.map_eq_nil_iff.mp hmap)
    have hi : slots.i = 0 ↔ 2 ^ 32 ∣ (done ++ rest).length := by
      rw [← UInt32.toNat_inj, hcount, ← List.length_append]
      exact Nat.dvd_iff_mod_eq_zero.symm
    rw [List.map_append, intercalate_append delimiter _ hrest]
    rcases eq_or_ne delimiter [] with hnil | hdelimiter
    · rw [h.complete_iff hne hnil, ← hi]
      split_ifs with hzero
      · rw [List.append_nil, eq_append_iff h.length_le, ← delimited_eq_of_nil hnil hrest, hnil,
          delimited_nil_eq_nil, List.forall_mem_map]
        exact and_congr_right fun _ => (imp_iff_right hzero).symm
      · rw [List.append_left_inj]
        exact (and_iff_left fun h => absurd h hzero).symm
    · refine iff_of_false (fun heq => ?_) ?_
      · have hlen := congrArg List.length heq
        have hshorter := h.shorter hne
        have hpos := List.length_pos_iff.mpr hdelimiter
        rw [List.length_append, List.length_append] at hlen
        split_ifs at hlen
        · rw [List.length_nil] at hlen
          omega
        · omega
      · rintro (hshort | ⟨hnil, -⟩)
        · have hpos := List.length_pos_iff.mpr hne
          have hrest' := List.length_pos_iff.mpr (h.rest_ne hne)
          obtain ⟨blocks, hblocks⟩ := h.blocks
          rw [List.length_append] at hshort
          omega
        · exact hdelimiter hnil

end HoldsPath

/-! ## Reading a path -/

variable (d) in
/-- The components that are read from a state on, up to the end of the path. -/
inductive ReadsNestedDecls (isClass isParamInit : Bool) :
    State → List Component → State → Prop where
  | done {s s' : State}
      (h : Settles
        (fun fuel => d.nextComponent (d.demangleByPrefix fuel) fuel isClass isParamInit s)
        (.done, s')) : ReadsNestedDecls isClass isParamInit s [] s'
  | last {s s' : State} {c : Component}
      (h : Settles
        (fun fuel => d.nextComponent (d.demangleByPrefix fuel) fuel isClass isParamInit s)
        (.component c, s')) (hlast : c.isLast = true) :
      ReadsNestedDecls isClass isParamInit s [c] s'
  | next {s s₁ s' : State} {c : Component} {comps : List Component}
      (h : Settles
        (fun fuel => d.nextComponent (d.demangleByPrefix fuel) fuel isClass isParamInit s)
        (.component c, s₁)) (hlast : c.isLast = false)
      (hrest : ReadsNestedDecls isClass isParamInit s₁ comps s') :
      ReadsNestedDecls isClass isParamInit s (c :: comps) s'

variable {isClass isParamInit : Bool} {comps : List Component}

/-- The loop writes the components one after the other. -/
theorem ReadsNestedDecls.loop (h : d.ReadsNestedDecls isClass isParamInit s comps s')
    (nested : Nested) :
    ∃ enough, ∀ fuel ≥ enough, ∀ n > comps.length,
      d.nestedDeclsLoop (d.demangleByPrefix fuel) fuel isClass isParamInit n nested s =
        some (some (comps.foldl (Nested.write d.scopeResolution) nested), s') := by
  induction h generalizing nested with
  | done h =>
    obtain ⟨enough, henough⟩ := settles_iff.mp h
    refine ⟨enough, fun fuel hfuel n hn => ?_⟩
    obtain ⟨n, rfl⟩ := Nat.exists_eq_add_of_lt hn
    rw [nestedDeclsLoop, Prog.bind_eq (henough fuel hfuel)]
    rfl
  | @last s s' c h hlast =>
    obtain ⟨enough, henough⟩ := settles_iff.mp h
    refine ⟨enough, fun fuel hfuel n hn => ?_⟩
    obtain ⟨n, rfl⟩ := Nat.exists_eq_add_of_lt hn
    rw [nestedDeclsLoop, Prog.bind_eq (henough fuel hfuel)]
    simp only [hlast, if_true]
    rfl
  | @next s s₁ s' c comps h hlast _ ih =>
    obtain ⟨enough, henough⟩ := settles_iff.mp h
    obtain ⟨enough', hloop⟩ := ih (nested.write d.scopeResolution c)
    refine ⟨max enough enough', fun fuel hfuel n hn => ?_⟩
    obtain ⟨n, rfl⟩ := Nat.exists_eq_add_of_lt hn
    rw [nestedDeclsLoop, Prog.bind_eq (henough fuel (le_of_max_le_left hfuel))]
    simp only [hlast, Bool.false_eq_true, if_false]
    refine hloop fuel (le_of_max_le_right hfuel) _ ?_
    rw [List.length_cons]
    omega

/-- What is returned for a path. -/
theorem ReadsNestedDecls.settles (h : d.ReadsNestedDecls isClass isParamInit s comps s') :
    ∃ di, Settles (fun fuel =>
        d.demangleNestedDecls (d.demangleByPrefix fuel) fuel isClass isParamInit s) (di, s') ∧
      di.demangled =
        nestedText d.scopeResolution (comps.foldl (Slots.put d.scopeResolution) {}) := by
  obtain ⟨enough, hloop⟩ := h.loop {}
  let nested := comps.foldl (Nested.write d.scopeResolution) {}
  let di : DemangleInfo :=
    { type := nested.typeKind
      demangled := nestedText d.scopeResolution nested.slots
      isValid := s'.isValid
      functionParameterTypes := nested.lastElement.functionParameterTypes }
  refine ⟨di, settles_iff.mpr ⟨enough + (comps.length + 1), fun fuel hfuel => ?_⟩, ?_⟩
  · rw [demangleNestedDecls, Prog.bind_eq (hloop fuel (by omega) fuel (by omega))]
    rfl
  · exact congrArg (nestedText d.scopeResolution)
      (Nested.foldl_write_slots d.scopeResolution {} comps)

/-- The text of the argument types is that of the whole list, and the text of a path is so exactly
if the slots suffice or nothing but empty texts is lost. -/
theorem demangled_lists (d : Demangler) :
    (∀ delimiter size s infos s', d.ReadsArguments size s infos s' →
      Settles (fun fuel => d.demangleArgTypes (d.demangleByPrefix fuel) fuel delimiter size s)
        (delimiter.intercalate (infos.map fun di => di.getFullName d.scopeResolution), s')) ∧
    ∀ isClass isParamInit s comps s', d.ReadsNestedDecls isClass isParamInit s comps s' →
      ∃ di, Settles (fun fuel =>
          d.demangleNestedDecls (d.demangleByPrefix fuel) fuel isClass isParamInit s) (di, s') ∧
        (di.demangled = d.scopeResolution.intercalate (comps.map Component.text) ↔
          Complete d.scopeResolution comps) := by
  refine ⟨fun delimiter size s infos s' h => h.settles delimiter,
    fun isClass isParamInit s comps s' h => ?_⟩
  obtain ⟨di, hsettles, hdi⟩ := h.settles
  obtain ⟨done, rest, heq, hholds⟩ := (HoldsPath.empty d.scopeResolution).foldl_put comps
  have hcomps : done ++ rest = comps := heq
  refine ⟨di, hsettles, ?_⟩
  rw [hdi, ← hcomps]
  have hiff := hholds.nestedText_iff
  rwa [← hcomps] at hiff

/-! ## Nested lambdas -/

/-- A lambda without a number is read from two characters. -/
theorem nextComponent_lambda (hlambda : d.mangledName[s.currentIndex]? = some MANGLE_LAMBDA_PREFIX)
    (hend : d.mangledName[s.currentIndex + 1]? = some MANGLE_UNDERSCORE_PREFIX) :
    ∃ s', s'.currentIndex = s.currentIndex + 2 ∧ ∀ byPrefix fuel isClass isParamInit,
      d.nextComponent byPrefix (fuel + 1) isClass isParamInit s =
        some (.component (.lambda "lambda.0".toList), s') := by
  have hlt := (List.getElem?_eq_some_iff.mp hlambda).1
  have hlt' := (List.getElem?_eq_some_iff.mp hend).1
  have hend' : (MANGLE_LAMBDA_PREFIX != END) = true := rfl
  have htext : "lambda.".toList ++ uintToString 0 = "lambda.0".toList := rfl
  refine ⟨?s', ?_, fun byPrefix fuel isClass isParamInit => ?_⟩
  rotate_left 2
  · simp only [nextComponent, step_bind, get_bind, currentChar_bind, advance_bind,
      isNotEndOfMangledName, demangleManglingNumber, manglingNumberContent, getChar, peekChar,
      bind_assoc, pure_bind, State.logged, hlt, hlt', hlambda, hend, hend', htext, if_true,
      List.getD_eq_getElem?_getD, Option.getD_some, Option.isSome_some]
    rfl
  · rfl

/-- A path ends where the mangled name does. -/
theorem nextComponent_done (h : s.currentIndex = d.mangledName.length) :
    ∃ s', ∀ byPrefix fuel isClass isParamInit,
      d.nextComponent byPrefix fuel isClass isParamInit s = some (.done, s') := by
  refine ⟨?s', fun byPrefix fuel isClass isParamInit => ?_⟩
  rotate_left
  · simp only [nextComponent, step_bind, get_bind, isNotEndOfMangledName, bind_assoc, State.logged,
      h, Nat.lt_irrefl, if_false, pure_bind, Bool.false_eq_true]
    rfl

/-- A path of lambdas within each other. -/
def nestedLambdas (n : ℕ) : Demangler where
  mangledName := (List.replicate n [MANGLE_LAMBDA_PREFIX, MANGLE_UNDERSCORE_PREFIX]).flatten

theorem length_nestedLambdas (n : ℕ) : (nestedLambdas n).mangledName.length = 2 * n := by
  simp [nestedLambdas, Nat.mul_comm]

theorem getElem?_nestedLambdas {n k : ℕ} (h : k < n) :
    (nestedLambdas n).mangledName[2 * k]? = some MANGLE_LAMBDA_PREFIX ∧
      (nestedLambdas n).mangledName[2 * k + 1]? = some MANGLE_UNDERSCORE_PREFIX := by
  induction k generalizing n with
  | zero =>
    obtain ⟨m, rfl⟩ := Nat.exists_eq_succ_of_ne_zero (Nat.ne_of_gt h)
    exact ⟨rfl, rfl⟩
  | succ k ih =>
    obtain ⟨m, rfl⟩ := Nat.exists_eq_succ_of_ne_zero (Nat.ne_of_gt (Nat.zero_lt_of_lt h))
    exact ih (Nat.lt_of_succ_lt_succ h)

theorem readsNestedDecls_nestedLambdas (isClass isParamInit : Bool) {n k : ℕ}
    (hs : s.currentIndex + 2 * k = 2 * n) :
    ∃ s', (nestedLambdas n).ReadsNestedDecls isClass isParamInit s
      (List.replicate k (.lambda "lambda.0".toList)) s' := by
  induction k generalizing s with
  | zero =>
    obtain ⟨s', hdone⟩ := nextComponent_done (d := nestedLambdas n) (s := s)
      (hs.trans (length_nestedLambdas n).symm)
    exact ⟨s', .done (settles_of_eq fun fuel => hdone _ fuel isClass isParamInit)⟩
  | succ k ih =>
    obtain ⟨m, hm⟩ : ∃ m, s.currentIndex = 2 * m := ⟨n - (k + 1), by omega⟩
    have hchars := getElem?_nestedLambdas (n := n) (k := m) (by omega)
    rw [← hm] at hchars
    obtain ⟨s₁, hindex, hlambda⟩ := nextComponent_lambda hchars.1 hchars.2
    obtain ⟨s', hrest⟩ := ih (s := s₁) (by omega)
    refine ⟨s', .next (settles_iff.mpr ⟨1, fun fuel hfuel => ?_⟩) rfl hrest⟩
    obtain ⟨fuel, rfl⟩ := Nat.exists_eq_add_of_le' hfuel
    exact hlambda _ fuel isClass isParamInit

/-- The arguments of an empty list, and a path of two lambdas. -/
theorem demangled_lists_twoLambdas : ∃ s', (nestedLambdas 2).ReadsNestedDecls false false (start 0)
    [.lambda "lambda.0".toList, .lambda "lambda.0".toList] s' ∧ ∃ di,
      Settles (fun fuel => (nestedLambdas 2).demangleNestedDecls
        ((nestedLambdas 2).demangleByPrefix fuel) fuel false false (start 0)) (di, s') ∧
      di.demangled = "lambda.0::lambda.0".toList := by
  obtain ⟨s', hreads⟩ := readsNestedDecls_nestedLambdas (n := 2) (k := 2) (s := start 0) false
    false rfl
  obtain ⟨di, hsettles, htext⟩ :=
    (demangled_lists (nestedLambdas 2)).2 false false (start 0) _ s' hreads
  exact ⟨s', hreads, di, hsettles, htext.mpr (.inl (by decide))⟩

/-- Seventeen lambdas within each other are demangled to the last one. -/
theorem not_joined_nestedLambdas : ¬ ∀ (d : Demangler) (s : State) (comps : List Component)
    (s' : State), d.ReadsNestedDecls false false s comps s' →
      ∃ di, Settles (fun fuel =>
          d.demangleNestedDecls (d.demangleByPrefix fuel) fuel false false s) (di, s') ∧
        di.demangled = d.scopeResolution.intercalate (comps.map Component.text) := by
  intro h
  obtain ⟨s', hreads⟩ := readsNestedDecls_nestedLambdas (n := 17) (k := 17) (s := start 0)
    false false rfl
  obtain ⟨di, hsettles, htext⟩ := h (nestedLambdas 17) (start 0) _ s' hreads
  obtain ⟨di', hsettles', htext'⟩ := hreads.settles
  have hdi : di = di' := congrArg Prod.fst (hsettles.unique hsettles')
  rw [hdi, htext'] at htext
  revert htext
  decide

end Demangler

end Cangjie.Demangle
