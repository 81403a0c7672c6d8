import CangjieCompiler.Demangler.Demangler
import Mathlib

/-!
# Every run of the demangler ends

The recursive descent returns on every string, from every place in it.  What is rejected stays so,
and the cursor is never behind the end where it is subtracted from the length.  Two things need a
condition on the steps of the run (`Meets`): some characters are read at the end of the name because
nothing has looked for it, and the brackets of an array are as many as a number in the name says.

A state of a run is `Sound`, which also counts the entries of the log: for each character that is
passed there are `rate` entries, and a routine takes a few of them more than it has passed
characters for.
-/

namespace Cangjie.Demangle

/-- The state one character further. -/
def State.passed (s : State) : State := { s with currentIndex := s.currentIndex + 1 }

namespace Demangler

variable (d : Demangler)

/-! ## Conditions on the steps -/

/-- The value of digits of base 62. -/
def digitsValue (content : StdString) : ℕ :=
  content.foldl (fun n c => n * 62 + (base62Digit c).getD 0) 0

/-- The mangling number with given digits. -/
def manglingNumber (content : StdString) : ℕ :=
  if content = [] then 0 else (digitsValue content + 1) % 2 ^ 64

/-- The characters are digits of base 62. -/
def IsBase62 (content : StdString) : Prop := ∀ c ∈ content, (base62Digit c).isSome

/-- The steps that lead to nothing wrong: the letter of a class is not the last character, the
abbreviation of a package is not at the end, the local counter of a component neither, and the
number of the dimensions of an array is at most the length of the name. -/
def Meets (e : Entry) : Prop :=
  match e.event with
  | .step .demangleClass => e.currentIndex + 1 < d.mangledName.length
  | .step .demanglePackageName =>
    (stdPackage (subStr d.mangledName e.currentIndex SPECIAL_NAME_LEN)).isSome →
      e.currentIndex + SPECIAL_NAME_LEN < d.mangledName.length
  | .step .localCounter => ∀ content, IsBase62 content →
      d.mangledName.drop e.currentIndex ≠
        MANGLE_COUNT_PREFIX :: (content ++ [MANGLE_UNDERSCORE_PREFIX])
  | .step .demangleRawArray => ∀ content rest, IsBase62 content →
      d.mangledName.drop (e.currentIndex + 1) = content ++ MANGLE_UNDERSCORE_PREFIX :: rest →
      manglingNumber content ≤ d.mangledName.length
  | _ => True

/-! ## Sound states -/

/-- The entries of the log for each character. -/
def rate : ℕ := d.mangledName.length + 200

/-- A state of a run that comes after another one, with some entries of the log still to spare. -/
structure Sound (total : ℕ) (past : State) (spare : ℕ) (s : State) : Prop where
  past_le : past.currentIndex ≤ s.currentIndex
  past_subset : past.log ⊆ s.log
  index_le : s.currentIndex ≤ d.mangledName.length
  sticky : s.log.Pairwise fun later earlier => earlier.event = .rejected → later.isValid = false
  rejected : ∀ e ∈ s.log, e.event = .rejected → s.isValid = false
  subtracted : ∀ e ∈ s.log, ∀ k, e.event = .subtract k → k ≤ d.mangledName.length
  read : (∀ e ∈ s.log, d.Meets e) → ∀ e ∈ s.log, ∀ k, e.event = .read k → k < d.mangledName.length
  within : (∀ e ∈ s.log, d.Meets e) →
    s.log.length + d.rate * (d.mangledName.length - s.currentIndex) + spare ≤ total

/-- A sound state that is at the end if it is not valid. -/
structure Good (total : ℕ) (past : State) (spare : ℕ) (s : State) : Prop
    extends Sound d total past spare s where
  closed : s.isValid = false → s.currentIndex = d.mangledName.length

variable {d} {total spare spare' : ℕ} {past past' s : State}

namespace Sound

/-- A state has no more to spare than it needs, where the run meets the conditions. -/
theorem weaken (h : d.Sound total past spare s) (hle : past'.currentIndex ≤ s.currentIndex)
    (hsubset : past'.log ⊆ s.log) (hspare : (∀ e ∈ s.log, d.Meets e) → spare' ≤ spare) :
    d.Sound total past' spare' s where
  past_le := hle
  past_subset := hsubset
  index_le := h.index_le
  sticky := h.sticky
  rejected := h.rejected
  subtracted := h.subtracted
  read := h.read
  within := fun hmeets => Nat.le_trans (Nat.add_le_add_left (hspare hmeets) _) (h.within hmeets)

/-- One more entry that is neither a rejection nor out of range. -/
theorem logged (h : d.Sound total past (spare + 1) s) {event : Event}
    (hrejected : event ≠ .rejected)
    (hsubtract : ∀ k, event = .subtract k → k ≤ d.mangledName.length)
    (hread : ∀ k, event = .read k → (∀ e ∈ s.log, d.Meets e) → k < d.mangledName.length) :
    d.Sound total past spare (s.logged event) where
  past_le := h.past_le
  past_subset := List.subset_cons_of_subset _ h.past_subset
  index_le := h.index_le
  sticky := List.pairwise_cons.mpr ⟨h.rejected, h.sticky⟩
  rejected := List.forall_mem_cons.mpr ⟨fun heq => absurd heq hrejected, h.rejected⟩
  subtracted := List.forall_mem_cons.mpr ⟨hsubtract, h.subtracted⟩
  read := fun hmeets => by
    have hrest := (List.forall_mem_cons.mp hmeets).2
    exact List.forall_mem_cons.mpr ⟨fun k hk => hread k hk hrest, h.read hrest⟩
  within := fun hmeets => by
    have hwithin := h.within (List.forall_mem_cons.mp hmeets).2
    show s.log.length + 1 + d.rate * (d.mangledName.length - s.currentIndex) + spare ≤ total
    omega

theorem step (h : d.Sound total past (spare + 1) s) (step : Step) :
    d.Sound total past spare (s.logged (.step step)) :=
  h.logged (fun heq => Event.noConfusion heq) (fun _ heq => Event.noConfusion heq)
    fun _ heq => Event.noConfusion heq

theorem logRead (h : d.Sound total past (spare + 1) s) {k : ℕ}
    (hk : (∀ e ∈ s.log, d.Meets e) → k < d.mangledName.length) :
    d.Sound total past spare (s.logged (.read k)) :=
  h.logged (fun heq => Event.noConfusion heq) (fun _ heq => Event.noConfusion heq)
    fun _ heq hmeets => Event.read.inj heq ▸ hk hmeets

/-- Characters that are passed leave as much to spare as their rate. -/
theorem advance (h : d.Sound total past spare s) {n : ℕ}
    (hn : s.currentIndex + n ≤ d.mangledName.length) :
    d.Sound total { s with currentIndex := s.currentIndex + n } (spare + d.rate * n)
      { s with currentIndex := s.currentIndex + n } where
  past_le := Nat.le_refl _
  past_subset := List.Subset.refl _
  index_le := hn
  sticky := h.sticky
  rejected := h.rejected
  subtracted := h.subtracted
  read := h.read
  within := fun hmeets => by
    have hwithin := h.within hmeets
    have hsplit : d.mangledName.length - s.currentIndex =
        d.mangledName.length - (s.currentIndex + n) + n := by omega
    rw [hsplit, Nat.mul_add] at hwithin
    show s.log.length + d.rate * (d.mangledName.length - (s.currentIndex + n)) +
      (spare + d.rate * n) ≤ total
    omega

/-- The rest of the characters is passed. -/
theorem toEnd (h : d.Sound total past spare s) :
    d.Sound total { s with currentIndex := d.mangledName.length }
      (spare + d.rate * (d.mangledName.length - s.currentIndex))
      { s with currentIndex := d.mangledName.length } where
  past_le := Nat.le_refl _
  past_subset := List.Subset.refl _
  index_le := Nat.le_refl _
  sticky := h.sticky
  rejected := h.rejected
  subtracted := h.subtracted
  read := h.read
  within := fun hmeets => by
    have hwithin := h.within hmeets
    show s.log.length + d.rate * (d.mangledName.length - d.mangledName.length) +
      (spare + d.rate * (d.mangledName.length - s.currentIndex)) ≤ total
    rw [Nat.sub_self, Nat.mul_zero]
    omega

/-- A unit that is given up. -/
theorem invalidated (h : d.Sound total past (spare + 1) s) :
    d.Sound total past spare (({ s with isValid := false } : State).logged .rejected) where
  past_le := h.past_le
  past_subset := List.subset_cons_of_subset _ h.past_subset
  index_le := h.index_le
  sticky := List.pairwise_cons.mpr ⟨fun _ _ _ => rfl, h.sticky⟩
  rejected := fun _ _ _ => rfl
  subtracted := List.forall_mem_cons.mpr ⟨fun _ hk => Event.noConfusion hk, h.subtracted⟩
  read := fun hmeets => List.forall_mem_cons.mpr
    ⟨fun _ hk => Event.noConfusion hk, h.read (List.forall_mem_cons.mp hmeets).2⟩
  within := fun hmeets => by
    have hwithin := h.within (List.forall_mem_cons.mp hmeets).2
    show s.log.length + 1 + d.rate * (d.mangledName.length - s.currentIndex) + spare ≤ total
    omega

end Sound

namespace Good

theorem weaken (h : d.Good total past spare s) (hle : past'.currentIndex ≤ s.currentIndex)
    (hsubset : past'.log ⊆ s.log) (hspare : (∀ e ∈ s.log, d.Meets e) → spare' ≤ spare) :
    d.Good total past' spare' s where
  toSound := h.toSound.weaken hle hsubset hspare
  closed := h.closed

theorem spend (h : d.Good total past spare s) (hspare : spare' ≤ spare) :
    d.Good total past spare' s :=
  h.weaken h.past_le h.past_subset fun _ => hspare

/-- A state comes after what the state before comes after. -/
theorem since (h : d.Good total past spare s) {s' : State} (h' : d.Good total s spare' s') :
    d.Good total past spare' s' :=
  h'.weaken (Nat.le_trans h.past_le h'.past_le) (fun _ he => h'.past_subset (h.past_subset he))
    fun _ => Nat.le_refl _

/-- A state comes after itself. -/
theorem self (h : d.Good total past spare s) : d.Good total s spare s :=
  h.weaken (Nat.le_refl _) (List.Subset.refl _) fun _ => Nat.le_refl _

theorem isValid_of_lt (h : d.Good total past spare s)
    (hlt : s.currentIndex < d.mangledName.length) : s.isValid = true := by
  by_contra hvalid
  exact Nat.ne_of_lt hlt (h.closed (Bool.eq_false_iff.mpr hvalid))

theorem step (h : d.Good total past (spare + 1) s) (step : Step) :
    d.Good total past spare (s.logged (.step step)) where
  toSound := h.toSound.step step
  closed := h.closed

theorem logRead (h : d.Good total past (spare + 1) s) {k : ℕ}
    (hk : (∀ e ∈ s.log, d.Meets e) → k < d.mangledName.length) :
    d.Good total past spare (s.logged (.read k)) where
  toSound := h.toSound.logRead hk
  closed := h.closed

theorem logSubtract (h : d.Good total past (spare + 1) s) :
    d.Good total past spare (s.logged (.subtract s.currentIndex)) where
  toSound := h.toSound.logged (fun heq => Event.noConfusion heq)
    (fun _ heq => Event.subtract.inj heq ▸ h.index_le) fun _ heq => Event.noConfusion heq
  closed := h.closed

/-- Some valid characters are passed. -/
theorem advance (h : d.Good total past spare s) {n : ℕ} (hpos : 0 < n)
    (hn : s.currentIndex + n ≤ d.mangledName.length) :
    d.Good total { s with currentIndex := s.currentIndex + n } (spare + d.rate * n)
      { s with currentIndex := s.currentIndex + n } where
  toSound := h.toSound.advance hn
  closed := fun hvalid => by
    have hvalid' := h.isValid_of_lt (by omega)
    cases hvalid.symm.trans hvalid'

end Good

/-! ## Single steps -/

theorem step_eq (step : Step) (s : State) :
    Demangler.step step s = some ((), s.logged (.step step)) := rfl

theorem advance_eq (n : ℕ) (s : State) :
    Demangler.advance n s = some ((), { s with currentIndex := s.currentIndex + n }) := rfl

theorem ahead_eq (len : ℕ) (s : State) :
    d.ahead len s = some (subStr d.mangledName s.currentIndex len, s) := rfl

/-! ## Rejections -/

/-- A rejection moves the cursor to the end. -/
theorem reject_spec (h : d.Sound total past (spare + 1) s) :
    Returns d.reject s fun _ s' => s'.isValid = false ∧
      d.Good total { s with currentIndex := d.mangledName.length }
        (spare + d.rate * (d.mangledName.length - s.currentIndex)) s' := by
  rw [reject]
  refine Returns.get_bind (Returns.ite (fun hend => ?_) fun _ => ?_)
  · refine Returns.pure ⟨hend.2, ?_, fun _ => hend.1⟩
    refine h.weaken (Nat.le_of_eq hend.1.symm) (List.Subset.refl _) fun _ => ?_
    rw [hend.1, Nat.sub_self, Nat.mul_zero]
    omega
  · refine ⟨d.dumpDi, _, rfl, rfl, ?_, fun _ => rfl⟩
    exact h.invalidated.toEnd.weaken (Nat.le_refl _) (List.subset_cons_self _ _) fun _ =>
      Nat.le_refl _

/-- A rejection leaves nothing to be passed. -/
structure Rejected (d : Demangler) (total : ℕ) (past : State) (spare : ℕ) (s : State) : Prop
    extends Good d total past spare s where
  invalid : s.isValid = false

theorem Rejected.index_eq (h : d.Rejected total past spare s) :
    s.currentIndex = d.mangledName.length :=
  h.closed h.invalid

theorem reject_le (h : d.Sound total past (spare + 1) s) :
    Returns d.reject s fun _ s' => d.Rejected total past spare s' := by
  refine (reject_spec h).mono ?_
  rintro _ s' ⟨hvalid, hgood⟩
  refine ⟨hgood.weaken ?_ (fun _ he => hgood.past_subset (h.past_subset he)) fun _ =>
    Nat.le_add_right _ _, hvalid⟩
  exact Nat.le_trans h.past_le (Nat.le_trans h.index_le hgood.past_le)

/-- A rejection in front of the end passes a character. -/
theorem reject_lt (h : d.Sound total past (spare + 1) s)
    (hlt : s.currentIndex < d.mangledName.length) :
    Returns d.reject s fun _ s' => d.Rejected total s.passed (spare + d.rate) s' := by
  refine (reject_spec h).mono ?_
  rintro _ s' ⟨hvalid, hgood⟩
  refine ⟨hgood.weaken (Nat.le_trans hlt hgood.past_le) hgood.past_subset fun _ => ?_, hvalid⟩
  have hone : d.rate * 1 ≤ d.rate * (d.mangledName.length - s.currentIndex) :=
    Nat.mul_le_mul_left _ (Nat.sub_pos_of_lt hlt)
  omega

/-! ## Looking at the mangled name -/

/-- The state of a look at the name, which moves nothing. -/
structure Looked (d : Demangler) (total : ℕ) (past : State) (spare : ℕ) (s s' : State) : Prop
    extends Good d total past spare s' where
  index_eq : s'.currentIndex = s.currentIndex
  valid_eq : s'.isValid = s.isValid
  subset : s.log ⊆ s'.log

namespace Looked

variable {s' : State}

theorem refl (h : d.Good total past (spare + spare') s) : d.Looked total past spare s s where
  toGood := h.spend (Nat.le_add_right _ _)
  index_eq := rfl
  valid_eq := rfl
  subset := List.Subset.refl _

theorem trans {s'' : State} (h : d.Looked total past spare s s')
    (h' : d.Looked total past spare' s' s'') : d.Looked total past spare' s s'' where
  toGood := h'.toGood
  index_eq := h'.index_eq.trans h.index_eq
  valid_eq := h'.valid_eq.trans h.valid_eq
  subset := fun _ he => h'.subset (h.subset he)

end Looked

theorem charAt_spec (h : d.Good total past (spare + 1) s) {k : ℕ}
    (hk : (∀ e ∈ s.log, d.Meets e) → k < d.mangledName.length) :
    Returns (d.charAt k) s fun c s' => d.Looked total past spare s s' ∧
      c = d.mangledName.getD k (Char.ofNat 0) :=
  ⟨_, _, rfl, ⟨h.logRead hk, rfl, rfl, List.subset_cons_self _ _⟩, rfl⟩

theorem currentChar_spec (h : d.Good total past (spare + 1) s)
    (hk : (∀ e ∈ s.log, d.Meets e) → s.currentIndex < d.mangledName.length) :
    Returns d.currentChar s fun c s' => d.Looked total past spare s s' ∧
      c = d.mangledName.getD s.currentIndex (Char.ofNat 0) :=
  charAt_spec h hk

/-- The character at the cursor. -/
theorem currentChar_lt (h : d.Good total past (spare + 1) s)
    (hlt : s.currentIndex < d.mangledName.length) :
    Returns d.currentChar s fun c s' => d.Looked total past spare s s' ∧
      d.mangledName[s.currentIndex]? = some c := by
  refine (charAt_spec h fun _ => hlt).mono ?_
  rintro c s' ⟨hlooked, hc⟩
  refine ⟨hlooked, ?_⟩
  rw [hc, List.getD_eq_getElem?_getD, List.getElem?_eq_getElem hlt]
  rfl

theorem isNotEndOfMangledName_spec (h : d.Good total past (spare + 1) s) :
    Returns d.isNotEndOfMangledName s fun b s' => d.Looked total past spare s s' ∧
      (b = true → s.currentIndex < d.mangledName.length) := by
  rw [isNotEndOfMangledName]
  refine Returns.get_bind (Returns.ite (fun hlt => ?_) fun _ =>
    Returns.pure ⟨.refl h, fun hb => absurd hb Bool.false_ne_true⟩)
  refine (currentChar_lt h hlt).bind ?_
  rintro c s' ⟨hlooked, -⟩
  exact Returns.pure ⟨hlooked, fun _ => hlt⟩

theorem isMaybeDefaultFuncParamFunction_spec (h : d.Good total past (spare + 1) s) :
    Returns d.isMaybeDefaultFuncParamFunction s fun _ s' => d.Looked total past spare s s' := by
  rw [isMaybeDefaultFuncParamFunction]
  refine Returns.get_bind (Returns.ite (fun hlt => ?_) fun _ => Returns.pure (.refl h))
  refine (currentChar_lt h hlt).bind ?_
  rintro c s' ⟨hlooked, -⟩
  exact Returns.pure hlooked

theorem isProp_spec (s : State) : Returns d.isProp s fun b s' =>
    s' = s ∧ (b = true → s.currentIndex + 1 < d.mangledName.length) := by
  rw [isProp]
  refine Returns.get_bind (Returns.ite (fun hlt => ?_) fun _ =>
    Returns.pure ⟨rfl, fun hb => absurd hb Bool.false_ne_true⟩)
  exact ⟨_, s, rfl, rfl, fun _ => hlt⟩

theorem isOperatorName_spec (h : d.Good total past (spare + 1) s) :
    Returns d.isOperatorName s fun b s' => d.Looked total past spare s s' ∧
      (b = true → s.currentIndex + 2 < d.mangledName.length) := by
  rw [isOperatorName]
  refine Returns.get_bind ?_
  refine Returns.bind (P := fun _ s' => s' = s) ⟨_, s, rfl, rfl⟩ ?_
  rintro name _ rfl
  refine Returns.ite (fun hid => ?_) fun _ =>
    Returns.pure ⟨.refl h, fun hb => absurd hb Bool.false_ne_true⟩
  refine (charAt_spec h fun _ => hid.1).bind ?_
  rintro c s' ⟨hlooked, -⟩
  exact Returns.pure ⟨hlooked, fun _ => hid.1⟩

theorem isQualifiedPair_spec (h : d.Good total past (spare + 1) s) (ch : Char) :
    Returns (d.isQualifiedPair s.currentIndex ch) s fun _ s' =>
      d.Looked total past spare s s' := by
  rw [isQualifiedPair]
  refine Returns.ite (fun hnext => ?_) fun _ => Returns.pure (.refl h)
  refine (charAt_spec h fun _ => hnext).bind ?_
  rintro next s' ⟨hlooked, -⟩
  exact Returns.pure hlooked

theorem isQualifiedType_spec (h : d.Good total past (spare + 2) s) :
    Returns d.isQualifiedType s fun b s' => d.Looked total past spare s s' ∧
      (b = true → s.currentIndex < d.mangledName.length) := by
  rw [isQualifiedType]
  refine Returns.get_bind (Returns.ite (fun hlt => ?_) fun _ =>
    Returns.pure ⟨.refl h, fun hb => absurd hb Bool.false_ne_true⟩)
  refine (charAt_spec h fun _ => hlt).bind ?_
  rintro ch s₁ ⟨hlooked, -⟩
  rw [← hlooked.index_eq]
  refine (isQualifiedPair_spec hlooked.toGood ch).bind ?_
  rintro pair s₂ hlooked'
  exact Returns.pure ⟨hlooked.trans hlooked', fun _ => hlooked.index_eq ▸ hlt⟩

theorem matchForward_spec (h : d.Good total past (spare + 1) s) (pattern : StdString) :
    Returns (d.matchForward pattern) s fun _ s' => d.Looked total past spare s s' := by
  rw [matchForward]
  exact ⟨_, _, rfl, h.logSubtract, rfl, rfl, List.subset_cons_self _ _⟩

theorem peekChar_spec (h : d.Good total past (spare + 1) s) :
    Returns d.peekChar s fun c s' => d.Looked total past spare s s' ∧
      d.mangledName[s.currentIndex]? = c := by
  rw [peekChar]
  refine Returns.get_bind (Returns.ite (fun hlt => ?_) fun hge => ?_)
  · refine (currentChar_lt h hlt).bind ?_
    rintro c s' ⟨hlooked, hc⟩
    exact Returns.pure ⟨hlooked, hc⟩
  · exact Returns.pure ⟨.refl h, List.getElem?_eq_none (Nat.le_of_not_lt hge)⟩

/-! ## Passing characters -/

theorem le_rate (d : Demangler) : d.mangledName.length + 200 ≤ d.rate := Nat.le_refl _

namespace Good

variable {s' : State}

/-- What comes after the next character comes after what the state does. -/
theorem after (h : d.Good total past spare s) (h' : d.Good total s.passed spare' s') :
    d.Good total past spare' s' :=
  h'.weaken (Nat.le_trans (Nat.le_trans h.past_le (Nat.le_succ _)) h'.past_le)
    (fun _ he => h'.past_subset (h.past_subset he)) fun _ => Nat.le_refl _

/-- One character is passed. -/
theorem pass (h : d.Good total past spare s) (hlt : s.currentIndex < d.mangledName.length) :
    d.Good total s.passed (spare + d.rate) s.passed := by
  have hadvance := h.advance Nat.one_pos hlt
  rwa [Nat.mul_one] at hadvance

end Good

/-- How many characters are left. -/
def left (d : Demangler) (s : State) : ℕ := d.mangledName.length - s.currentIndex

theorem left_le {s' : State} (h : d.Sound total s spare s') : d.left s' ≤ d.left s :=
  Nat.sub_le_sub_left h.past_le _

theorem left_lt {s' : State} (h : d.Sound total s.passed spare s')
    (hlt : s.currentIndex < d.mangledName.length) : d.left s' < d.left s := by
  have hle : s.currentIndex + 1 ≤ s'.currentIndex := h.past_le
  rw [left, left]
  omega

/-- A character is passed, or the name is rejected: it moves the cursor in any case. -/
theorem skipChar_lt (h : d.Good total past (spare + 2) s)
    (hlt : s.currentIndex < d.mangledName.length) (ch : Char) :
    Returns (d.skipChar ch) s fun _ s' => d.Good total s.passed (spare + d.rate) s' ∧
      (s'.isValid = true → s'.currentIndex = s.currentIndex + 1) := by
  rw [skipChar]
  refine Returns.get_bind (Returns.ite (fun _ => ?_) fun hge => absurd hlt hge)
  refine (currentChar_lt h hlt).bind ?_
  rintro c s₁ ⟨hlooked, -⟩
  have hlt₁ : s₁.currentIndex < d.mangledName.length := hlooked.index_eq ▸ hlt
  refine Returns.ite (fun _ => ?_) fun _ => ?_
  · refine Returns.modify ⟨?_, fun _ => congrArg (· + 1) hlooked.index_eq⟩
    refine (hlooked.toGood.pass hlt₁).weaken ?_ hlooked.subset fun _ => by omega
    exact Nat.le_of_eq (congrArg (· + 1) hlooked.index_eq.symm)
  · refine ((reject_lt hlooked.toSound hlt₁).mono ?_).discard
    intro _ s' hrejected
    refine ⟨hrejected.weaken ?_ (fun _ he => hrejected.past_subset (hlooked.subset he)) fun _ =>
      by omega, fun hvalid => Bool.noConfusion (hvalid.symm.trans hrejected.invalid)⟩
    have hle := hrejected.past_le
    have heq : s₁.passed.currentIndex = s.passed.currentIndex := congrArg (· + 1) hlooked.index_eq
    rwa [heq] at hle

theorem skipChar_end (h : d.Good total past (spare + 1) s)
    (hend : s.currentIndex = d.mangledName.length) (ch : Char) :
    Returns (d.skipChar ch) s fun _ s' => d.Rejected total past spare s' := by
  rw [skipChar]
  refine Returns.get_bind (Returns.ite (fun hlt => absurd hend (Nat.ne_of_lt hlt)) fun _ => ?_)
  exact (reject_le h.toSound).discard

theorem skipChar_le (h : d.Good total past (spare + 2) s) (ch : Char) :
    Returns (d.skipChar ch) s fun _ s' => d.Good total past spare s' := by
  rcases Nat.lt_or_eq_of_le h.index_le with hlt | hend
  · refine (skipChar_lt h hlt ch).mono ?_
    rintro _ s' ⟨hgood, -⟩
    exact (h.after hgood).spend (Nat.le_add_right _ _)
  · refine (skipChar_end (h.spend (Nat.le_succ _)) hend ch).mono ?_
    intro _ s' hrejected
    exact hrejected.toGood

theorem skipOptionalChar_spec (h : d.Good total past (spare + 1) s) (ch : Char) :
    Returns (d.skipOptionalChar ch) s fun _ s' => d.Good total past spare s' := by
  rw [skipOptionalChar]
  refine Returns.get_bind (Returns.ite (fun hlt => ?_) fun _ =>
    Returns.pure (h.spend (Nat.le_succ _)))
  refine (currentChar_lt h hlt).bind ?_
  rintro c s₁ ⟨hlooked, -⟩
  refine Returns.ite (fun _ => ?_) fun _ => Returns.pure hlooked.toGood
  refine Returns.modify ?_
  have hlt₁ : s₁.currentIndex < d.mangledName.length := hlooked.index_eq ▸ hlt
  exact (hlooked.toGood.after (hlooked.toGood.pass hlt₁)).spend (Nat.le_add_right _ _)

theorem skipString_le (h : d.Good total past (spare + 2) s) (pattern : StdString) :
    Returns (d.skipString pattern) s fun _ s' => d.Good total past spare s' := by
  induction pattern generalizing past s with
  | nil => exact Returns.pure (h.spend (Nat.le_add_right _ _))
  | cons ch pattern ih =>
    rw [skipString]
    have hrate := le_rate d
    rcases Nat.lt_or_eq_of_le h.index_le with hlt | hend
    · refine (skipChar_lt h hlt ch).bind ?_
      rintro _ s₁ ⟨hgood, -⟩
      refine Returns.get_bind (Returns.ite (fun _ => ?_) fun _ => ?_)
      · exact ih ((h.after hgood).spend (by omega))
      · exact Returns.pure ((h.after hgood).spend (by omega))
    · refine (skipChar_end (h.spend (Nat.le_succ _)) hend ch).bind ?_
      intro _ s₁ hrejected
      refine Returns.get_bind (Returns.ite (fun hvalid => ?_) fun _ => ?_)
      · cases hvalid.symm.trans hrejected.invalid
      · exact Returns.pure hrejected.toGood

/-- A pattern of at least one character moves the cursor. -/
theorem skipString_lt (h : d.Good total past (spare + 2) s)
    (hlt : s.currentIndex < d.mangledName.length) (ch : Char) (pattern : StdString) :
    Returns (d.skipString (ch :: pattern)) s fun _ s' =>
      d.Good total s.passed (spare + d.rate - 2) s' := by
  rw [skipString]
  have hrate := le_rate d
  refine (skipChar_lt h hlt ch).bind ?_
  rintro _ s₁ ⟨hgood, -⟩
  refine Returns.get_bind (Returns.ite (fun _ => ?_) fun _ => ?_)
  · exact skipString_le (hgood.spend (by omega)) pattern
  · exact Returns.pure (hgood.spend (by omega))

/-! ## Names -/

/-- Nothing has been rejected yet. -/
def Unrejected (s : State) : Prop := ∀ e ∈ s.log, e.event ≠ .rejected

theorem Good.unrejected (h : d.Good total past spare s)
    (hlt : s.currentIndex < d.mangledName.length) : Unrejected s := by
  intro e he heq
  cases (h.rejected e he heq).symm.trans (h.isValid_of_lt hlt)

/-- The flag may be set as long as nothing has been rejected. -/
theorem Sound.setValid (h : d.Sound total past spare s) (hs : Unrejected s) (value : Bool) :
    d.Sound total past spare { s with isValid := value } where
  past_le := h.past_le
  past_subset := h.past_subset
  index_le := h.index_le
  sticky := h.sticky
  rejected := fun e he heq => absurd heq (hs e he)
  subtracted := h.subtracted
  read := h.read
  within := h.within

theorem Unrejected.logged (hs : Unrejected s) {event : Event} (hne : event ≠ .rejected) :
    Unrejected (s.logged event) :=
  List.forall_mem_cons.mpr ⟨hne, hs⟩

theorem Sound.good (h : d.Sound total past spare s) (hvalid : s.isValid = true) :
    d.Good total past spare s where
  toSound := h
  closed := fun hinvalid => Bool.noConfusion (hinvalid.symm.trans hvalid)

theorem lengthOf_lt (numStr : StdString) : lengthOf numStr < 2 ^ 32 := by
  rw [lengthOf]
  split
  · decide
  · split_ifs
    · decide
    · omega

/-- The digits are passed, each of which sets the flag. -/
theorem lengthDigits_spec {fuel : ℕ} (h : d.Sound total past (spare + 2) s) (hs : Unrejected s)
    (hfuel : d.left s < fuel) (numStr : StdString) :
    Returns (d.lengthDigits fuel numStr) s fun num s' =>
      (num = numStr ∧ s'.isValid = s.isValid ∧ s'.currentIndex = s.currentIndex ∧
          Unrejected s' ∧ d.Sound total past spare s') ∨
        (s'.isValid = true ∧ d.Sound total s.passed (spare + d.rate - 2) s') := by
  induction fuel generalizing past s numStr spare with
  | zero => exact absurd hfuel (Nat.not_lt_zero _)
  | succ fuel ih =>
    have hrate := le_rate d
    have hstep := h.step .iteration
    rw [lengthDigits]
    refine Returns.bind_eq rfl (Returns.get_bind (Returns.ite (fun hlt => ?_) fun _ => ?_))
    · have hread := hstep.logRead fun _ => hlt
      have hunrejected : Unrejected ((s.logged (.step .iteration)).logged (.read s.currentIndex)) :=
        (hs.logged fun heq => Event.noConfusion heq).logged fun heq => Event.noConfusion heq
      refine Returns.bind_eq rfl (Returns.ite (fun _ => ?_) fun _ => ?_)
      · refine Returns.bind_eq rfl (Returns.bind_eq rfl ?_)
        have hpassed := hread.advance (n := 1) hlt
        have hvalid := hpassed.setValid hunrejected true
        rw [Nat.mul_one] at hvalid
        have hsound : d.Sound total s.passed (spare + d.rate - 2 + 2) _ :=
          hvalid.weaken (Nat.le_refl _)
            (fun _ he => List.mem_cons_of_mem _ (List.mem_cons_of_mem _ he)) fun _ => by omega
        refine (ih hsound hunrejected ?_ _).mono ?_
        · exact Nat.lt_of_lt_of_le (left_lt hsound hlt) (Nat.le_of_lt_succ hfuel)
        · rintro num s' (⟨-, hvalid', -, -, hgood⟩ | ⟨hvalid', hgood⟩)
          · exact .inr ⟨hvalid', hgood⟩
          · refine .inr ⟨hvalid', hgood.weaken (Nat.le_trans (Nat.le_succ _) hgood.past_le)
              (fun _ he => hgood.past_subset (hsound.past_subset he)) fun _ => by omega⟩
      · exact Returns.pure (.inl ⟨rfl, rfl, rfl, hunrejected, hread⟩)
    · exact Returns.pure (.inl ⟨rfl, rfl, rfl, hs.logged fun heq => Event.noConfusion heq,
        hstep.weaken hstep.past_le hstep.past_subset fun _ => Nat.le_succ _⟩)

/-- A length is read if there are digits; otherwise the flag is not set and the length is zero. -/
theorem demangleLength_lt {fuel : ℕ} (h : d.Good total past (spare + 3) s)
    (hlt : s.currentIndex < d.mangledName.length) (hfuel : d.left s < fuel) :
    Returns (d.demangleLength fuel) s fun n s' =>
      (n = 0 ∧ s'.currentIndex = s.currentIndex ∧ d.Sound total s spare s') ∨
        (n < 2 ^ 32 ∧ s'.isValid = true ∧ d.Sound total s.passed (spare + d.rate - 2) s') := by
  have hrate := le_rate d
  rw [demangleLength]
  refine Returns.get_bind (Returns.ite (fun _ => ?_) fun hge => absurd hlt hge)
  have hread := h.self.toSound.logRead fun _ => hlt
  refine Returns.bind_eq rfl (Returns.ite (fun _ => ?_) fun _ => ?_)
  · refine Returns.bind_eq rfl (Returns.pure (.inr ⟨by decide, h.isValid_of_lt hlt, ?_⟩))
    have hpassed := hread.advance (n := 1) hlt
    exact hpassed.weaken (Nat.le_refl _) (List.subset_cons_self _ _) fun _ => by omega
  · have hunrejected : Unrejected (s.logged (.read s.currentIndex)) :=
      (h.unrejected hlt).logged fun heq => Event.noConfusion heq
    have hinvalid := hread.setValid hunrejected false
    refine Returns.bind_eq rfl ((lengthDigits_spec hinvalid hunrejected hfuel []).bind ?_)
    rintro num s' (⟨rfl, -, hindex, -, hsound⟩ | ⟨hvalid, hsound⟩)
    · exact Returns.pure (.inl ⟨rfl, hindex, hsound⟩)
    · refine Returns.pure (.inr ⟨lengthOf_lt num, hvalid, ?_⟩)
      exact hsound.weaken hsound.past_le
        (fun _ he => hsound.past_subset (List.mem_cons_of_mem _ he)) fun _ => Nat.le_refl _

/-- A name moves the cursor by more than its length, or is rejected. -/
theorem demangleStringName_lt {fuel : ℕ} (h : d.Good total past (spare + 5) s)
    (hlt : s.currentIndex < d.mangledName.length) (hfuel : d.left s < fuel) :
    Returns (d.demangleStringName fuel) s fun name s' => name.length < 2 ^ 32 ∧
      name.length < d.left s ∧ d.Good total s.passed (spare + d.rate - 2 + name.length) s' := by
  have hrate := le_rate d
  have hleft : 0 < d.left s := Nat.sub_pos_of_lt hlt
  rw [demangleStringName]
  refine (demangleLength_lt h hlt hfuel).bind ?_
  rintro n s₁ (⟨rfl, hindex, hsound⟩ | ⟨hn, hvalid, hsound⟩)
  · have hlt₁ : s₁.currentIndex < d.mangledName.length := hindex ▸ hlt
    refine Returns.ite (fun _ => ?_) fun hne => absurd rfl hne
    refine Returns.discard_bind (reject_lt hsound hlt₁) ?_
    intro _ s' hrejected
    refine Returns.pure ⟨by decide, hleft, hrejected.weaken ?_
      (fun _ he => hrejected.past_subset (hsound.past_subset he)) fun _ => ?_⟩
    · rw [hrejected.index_eq]
      exact hlt
    · show spare + d.rate - 2 + 0 ≤ spare + 1 + d.rate
      omega
  · have hgood : d.Good total s.passed (spare + d.rate - 2 + 1 + 1) s₁ :=
      (hsound.good hvalid).spend (by omega)
    refine Returns.ite (fun _ => ?_) fun hne => ?_
    · refine Returns.discard_bind (reject_le (hgood.spend (Nat.le_succ _)).toSound) ?_
      intro _ s' hrejected
      exact Returns.pure ⟨by decide, hleft, hrejected.toGood⟩
    · have hlogged := hgood.logSubtract
      refine Returns.get_bind (Returns.bind_eq rfl (Returns.ite (fun _ => ?_) fun hge => ?_))
      · refine Returns.discard_bind (reject_le hlogged.toSound) ?_
        intro _ s' hrejected
        exact Returns.pure ⟨by decide, hleft, hrejected.toGood⟩
      · have hpast : s.currentIndex + 1 ≤ s₁.currentIndex := hgood.past_le
        have hindex := hgood.index_le
        have hname : (subStr d.mangledName s₁.currentIndex n).length = n := by
          rw [subStr, List.length_take, List.length_drop]
          omega
        have hnext : s₁.currentIndex + n ≤ d.mangledName.length := by omega
        have hpassed := hlogged.advance (Nat.pos_of_ne_zero hne) hnext
        refine Returns.bind_eq (ahead_eq n _) (Returns.bind_eq rfl (Returns.pure ⟨?_, ?_, ?_⟩))
        · exact hname.trans_lt hn
        · refine hname.trans_lt ?_
          rw [left]
          omega
        · refine hpassed.weaken (Nat.le_trans hpast (Nat.le_add_right _ _)) hlogged.past_subset
            fun _ => ?_
          have hmul : n ≤ d.rate * n := Nat.le_mul_of_pos_left n (by omega)
          have hlen : spare + d.rate - 2 + (subStr d.mangledName s₁.currentIndex n).length =
              spare + d.rate - 2 + n := congrArg (_ + ·) hname
          exact Nat.le_trans (Nat.le_of_eq hlen) (by omega)

theorem demangleStringName_end {fuel : ℕ} (h : d.Good total past (spare + 2) s)
    (hend : s.currentIndex = d.mangledName.length) :
    Returns (d.demangleStringName fuel) s fun name s' => name = [] ∧
      d.Rejected total past spare s' := by
  rw [demangleStringName, demangleLength]
  refine Returns.bind (P := fun n s' => n = 0 ∧ d.Rejected total past (spare + 1) s') ?_ ?_
  · refine Returns.get_bind (Returns.ite (fun hlt => absurd hend (Nat.ne_of_lt hlt)) fun _ => ?_)
    refine Returns.discard_bind (reject_le h.toSound) ?_
    intro _ s' hrejected
    exact Returns.pure ⟨rfl, hrejected⟩
  · rintro n s₁ ⟨rfl, hrejected⟩
    refine Returns.ite (fun _ => ?_) fun hne => absurd rfl hne
    refine Returns.discard_bind (reject_le hrejected.toSound) ?_
    intro _ s' hrejected'
    exact Returns.pure ⟨rfl, hrejected'⟩

/-! ## Mangling numbers -/

theorem getChar_spec (h : d.Good total past (spare + 1) s) :
    Returns d.getChar s fun c s' =>
      (c = none ∧ s'.currentIndex = d.mangledName.length ∧ d.Good total past spare s') ∨
        ∃ ch, c = some ch ∧ d.mangledName[s.currentIndex]? = some ch ∧
          s'.currentIndex = s.currentIndex + 1 ∧ s'.isValid = true ∧
          d.Good total s.passed (spare + d.rate) s' := by
  rw [getChar]
  refine (peekChar_spec h).bind ?_
  rintro c s₁ ⟨hlooked, hc⟩
  cases c with
  | none =>
    refine Returns.pure (.inl ⟨rfl, ?_, hlooked.toGood⟩)
    have hle := List.getElem?_eq_none_iff.mp hc
    exact hlooked.index_eq.trans (Nat.le_antisymm h.index_le hle)
  | some ch =>
    have hlt := (List.getElem?_eq_some_iff.mp hc).1
    have hlt₁ : s₁.currentIndex < d.mangledName.length := hlooked.index_eq ▸ hlt
    refine Returns.bind_eq rfl (Returns.pure (.inr ⟨ch, rfl, hc, ?_, ?_, ?_⟩))
    · exact congrArg (· + 1) hlooked.index_eq
    · exact hlooked.isValid_of_lt hlt₁
    · refine (hlooked.pass hlt₁).weaken ?_ hlooked.subset fun _ => Nat.le_refl _
      exact Nat.le_of_eq (congrArg (· + 1) hlooked.index_eq.symm)

/-- The characters up to the underscore are passed, as many as there is more to spare. -/
theorem manglingNumberContent_spec {fuel : ℕ} {content : StdString}
    (h : d.Good total past (spare + content.length + 3) s) (hfuel : d.left s < fuel) :
    Returns (d.manglingNumberContent fuel content) s fun r s' =>
      (r = none ∧ d.Rejected total past spare s') ∨
        ∃ new rest, r = some (content ++ new) ∧
          d.mangledName.drop s.currentIndex = new ++ MANGLE_UNDERSCORE_PREFIX :: rest ∧
          s'.currentIndex = s.currentIndex + new.length + 1 ∧
          d.Good total past (spare + (content ++ new).length + 1) s' := by
  induction fuel generalizing past s content with
  | zero => exact absurd hfuel (Nat.not_lt_zero _)
  | succ fuel ih =>
    have hrate := le_rate d
    rw [manglingNumberContent]
    refine Returns.bind_eq rfl ((getChar_spec (h.step .iteration)).bind ?_)
    rintro c s₁ (⟨rfl, -, hgood⟩ | ⟨c, rfl, hc, hindex, -, hgood⟩)
    · have hspend : d.Good total past (spare + 1) s₁ := hgood.spend (by omega)
      refine Returns.discard_bind (reject_le hspend.toSound) ?_
      intro _ s' hrejected
      exact Returns.pure (.inl ⟨rfl, hrejected⟩)
    · have hindex : s₁.currentIndex = s.currentIndex + 1 := hindex
      obtain ⟨hlt, hchar⟩ := List.getElem?_eq_some_iff.mp hc
      have hdrop : d.mangledName.drop s.currentIndex =
          c :: d.mangledName.drop (s.currentIndex + 1) := by
        rw [← hchar]
        exact List.drop_eq_getElem_cons hlt
      have hpast : d.Good total past _ s₁ := (h.step .iteration).after hgood
      refine Returns.ite (fun hend => ?_) fun _ => ?_
      · refine Returns.pure (.inr ⟨[], d.mangledName.drop (s.currentIndex + 1), ?_, ?_, hindex, ?_⟩)
        · rw [List.append_nil]
        · rw [hdrop, hend]
          rfl
        · rw [List.append_nil]
          exact hpast.spend (by omega)
      · have hnext : d.Good total past (spare + (content ++ [c]).length + 3) s₁ := by
          rw [List.length_append, List.length_singleton]
          exact hpast.spend (by omega)
        have hlt : s.currentIndex < d.mangledName.length := hlt
        have hleft : d.left s₁ < d.left s := by
          rw [left, left, hindex]
          omega
        refine (ih hnext (Nat.lt_of_lt_of_le hleft (Nat.le_of_lt_succ hfuel))).mono ?_
        rintro r s' (⟨rfl, hrejected⟩ | ⟨new, rest, rfl, hnew, hindex', hgood'⟩)
        · exact .inl ⟨rfl, hrejected⟩
        · refine .inr ⟨c :: new, rest, ?_, ?_, ?_, ?_⟩
          · rw [List.append_assoc]
            rfl
          · rw [hdrop, ← hindex, hnew]
            rfl
          · rw [hindex', hindex, List.length_cons]
            omega
          · rw [List.append_assoc] at hgood'
            exact hgood'

/-- The value of digits, the least significant one first. -/
theorem digitsValue_reverse_cons (c : Char) (content : StdString) :
    digitsValue (c :: content).reverse =
      digitsValue content.reverse * 62 + (base62Digit c).getD 0 := by
  rw [digitsValue, List.reverse_cons, List.foldl_append]
  rfl

theorem mod_digit (value power i rest : ℕ) :
    ((value + i * power) % 2 ^ 64 + power * 62 % 2 ^ 64 * rest + 1) % 2 ^ 64 =
      (value + power * (rest * 62 + i) + 1) % 2 ^ 64 := by
  have hmod : (value + i * power) % 2 ^ 64 + power * 62 % 2 ^ 64 * rest ≡
      value + i * power + power * 62 * rest [MOD 2 ^ 64] :=
    (Nat.mod_modEq _ _).add ((Nat.mod_modEq _ _).mul_right rest)
  have heq : value + power * (rest * 62 + i) + 1 = value + i * power + power * 62 * rest + 1 := by
    ring
  rw [heq]
  exact hmod.add_right 1

/-- The digits are added up with their powers, modulo the size of the number. -/
theorem manglingNumberValue_spec {content : StdString}
    (h : d.Good total past (spare + content.length + 1) s) (value power : ℕ) :
    Returns (d.manglingNumberValue content value power) s fun n s' =>
      (n = 0 ∧ d.Rejected total past spare s') ∨
        (IsBase62 content ∧ n = (value + power * digitsValue content.reverse + 1) % 2 ^ 64 ∧
          d.Looked total past spare s s') := by
  induction content generalizing s value power with
  | nil => 
    refine Returns.pure (.inr ⟨?_, ?_, .refl h⟩)
    · exact fun c hc => absurd hc List.not_mem_nil
    · rw [List.reverse_nil, digitsValue, List.foldl_nil, Nat.mul_zero, Nat.add_zero]
  | cons c content ih =>
    rw [manglingNumberValue]
    rw [List.length_cons] at h
    have hstep : d.Good total past (spare + content.length + 1) (s.logged (.step .iteration)) :=
      (h.spend (by omega)).step .iteration
    refine Returns.bind_eq rfl ?_
    cases hdigit : base62Digit c with
    | none =>
      have hspend : d.Good total past (spare + 1) (s.logged (.step .iteration)) :=
        hstep.spend (by omega)
      refine Returns.discard_bind (reject_le hspend.toSound) ?_
      intro _ s' hrejected
      exact Returns.pure (.inl ⟨rfl, hrejected⟩)
    | some i =>
      refine (ih hstep ((value + i * power) % 2 ^ 64) (power * 62 % 2 ^ 64)).mono ?_
      rintro n s' (⟨rfl, hrejected⟩ | ⟨hdigits, rfl, hlooked⟩)
      · exact .inl ⟨rfl, hrejected⟩
      · refine .inr ⟨?_, ?_, ?_⟩
        · refine List.forall_mem_cons.mpr ⟨?_, hdigits⟩
          rw [hdigit]
          rfl
        · rw [digitsValue_reverse_cons, hdigit, Option.getD_some]
          exact mod_digit value power i (digitsValue content.reverse)
        · exact ⟨hlooked.toGood, hlooked.index_eq, hlooked.valid_eq,
            fun _ he => hlooked.subset (List.mem_cons_of_mem _ he)⟩

/-- A mangling number is that of the digits in front of the next underscore, or it is rejected. -/
theorem demangleManglingNumber_spec {fuel : ℕ} (h : d.Good total past (spare + 3) s)
    (hfuel : d.left s < fuel) :
    Returns (d.demangleManglingNumber fuel) s fun n s' =>
      (n = 0 ∧ d.Rejected total past spare s') ∨
        ∃ content rest, IsBase62 content ∧ n = manglingNumber content ∧
          d.mangledName.drop s.currentIndex = content ++ MANGLE_UNDERSCORE_PREFIX :: rest ∧
          s'.currentIndex = s.currentIndex + content.length + 1 ∧ d.Good total past spare s' := by
  rw [demangleManglingNumber]
  have hnil : d.Good total past (spare + ([] : StdString).length + 3) s := h
  refine (manglingNumberContent_spec hnil hfuel).bind ?_
  rintro r s₁ (⟨rfl, hrejected⟩ | ⟨content, rest, rfl, hdrop, hindex, hgood⟩)
  · exact Returns.pure (.inl ⟨rfl, hrejected⟩)
  · rw [List.nil_append] at hgood ⊢
    refine Returns.ite (fun hempty => ?_) fun hne => ?_
    · refine Returns.pure (.inr ⟨content, rest, ?_, ?_, hdrop, hindex, hgood.spend (by omega)⟩)
      · rw [hempty]
        exact fun c hc => absurd hc List.not_mem_nil
      · rw [manglingNumber, if_pos hempty]
    · have hreverse : d.Good total past (spare + content.reverse.length + 1) s₁ := by
        rw [List.length_reverse]
        exact hgood
      refine (manglingNumberValue_spec hreverse 0 1).mono ?_
      rintro n s' (⟨rfl, hrejected⟩ | ⟨hdigits, rfl, hlooked⟩)
      · exact .inl ⟨rfl, hrejected⟩
      · refine .inr ⟨content, rest, ?_, ?_, hdrop, hlooked.index_eq.trans hindex, hlooked.toGood⟩
        · exact fun c hc => hdigits c (List.mem_reverse.mpr hc)
        · rw [manglingNumber, if_neg hne, List.reverse_reverse, Nat.zero_add, Nat.one_mul]

theorem demangleManglingNumber_le {fuel : ℕ} (h : d.Good total past (spare + 3) s)
    (hfuel : d.left s < fuel) :
    Returns (d.demangleManglingNumber fuel) s fun _ s' => d.Good total past spare s' := by
  refine (demangleManglingNumber_spec h hfuel).mono ?_
  rintro n s' (⟨-, hrejected⟩ | ⟨_, _, -, -, -, -, hgood⟩)
  · exact hrejected.toGood
  · exact hgood

/-! ## Files and counters -/

theorem fileNameNumberContent_spec {fuel : ℕ} {content : StdString}
    (h : d.Good total past (spare + content.length + 3) s) (hfuel : d.left s < fuel) :
    Returns (d.fileNameNumberContent fuel content) s fun r s' =>
      d.Good total past (spare + (r.getD []).length) s' := by
  induction fuel generalizing past s content with
  | zero => exact absurd hfuel (Nat.not_lt_zero _)
  | succ fuel ih =>
    have hrate := le_rate d
    have hstep : d.Good total past (spare + content.length + 2) (s.logged (.step .iteration)) :=
      h.step .iteration
    rw [fileNameNumberContent]
    refine Returns.bind_eq rfl (Returns.ite (fun _ => ?_) fun _ => ?_)
    · exact Returns.pure (hstep.spend (Nat.le_add_right _ _))
    · refine (getChar_spec hstep).bind ?_
      rintro c s₁ (⟨rfl, -, hgood⟩ | ⟨c, rfl, hc, hindex, -, hgood⟩)
      · have hspend : d.Good total past (spare + 1) s₁ := hgood.spend (by omega)
        refine Returns.discard_bind (reject_le hspend.toSound) ?_
        intro _ s' hrejected
        exact Returns.pure hrejected.toGood
      · have hpast : d.Good total past _ s₁ := hstep.after hgood
        refine Returns.ite (fun _ => ?_) fun _ => ?_
        · exact Returns.pure (hpast.spend (by
            rw [Option.getD_none, List.length_nil]
            omega))
        · have hnext : d.Good total past (spare + (content ++ [c]).length + 3) s₁ := by
            rw [List.length_append, List.length_singleton]
            exact hpast.spend (by omega)
          have hlt : s.currentIndex < d.mangledName.length := (List.getElem?_eq_some_iff.mp hc).1
          have hindex : s₁.currentIndex = s.currentIndex + 1 := hindex
          refine ih hnext (Nat.lt_of_lt_of_le ?_ (Nat.le_of_lt_succ hfuel))
          rw [left, left, hindex]
          omega

theorem checkFileNameNumber_spec {content : StdString}
    (h : d.Good total past (spare + content.length + 1) s) :
    Returns (d.checkFileNameNumber content) s fun _ s' => d.Good total past spare s' := by
  induction content generalizing s with
  | nil => exact Returns.pure (h.spend (Nat.le_succ _))
  | cons c content ih =>
    rw [List.length_cons] at h
    have hstep : d.Good total past (spare + content.length + 1) (s.logged (.step .iteration)) :=
      (h.spend (by omega)).step .iteration
    rw [checkFileNameNumber]
    refine Returns.bind_eq rfl (Returns.ite (fun _ => ih hstep) fun _ => ?_)
    have hspend : d.Good total past (spare + 1) (s.logged (.step .iteration)) :=
      hstep.spend (by omega)
    refine ((reject_le hspend.toSound).mono ?_).discard
    intro _ s' hrejected
    exact hrejected.toGood

theorem demangleFileName_spec {fuel : ℕ} (h : d.Good total past (spare + 6) s)
    (hfuel : d.left s < fuel) :
    Returns (d.demangleFileName fuel) s fun _ s' => d.Good total past spare s' := by
  rw [demangleFileName, demangleFileNameNumber]
  refine (skipChar_le h.self _).bind ?_
  intro _ s₁ hgood
  have hfuel₁ : d.left s₁ < fuel := Nat.lt_of_le_of_lt (left_le hgood.toSound) hfuel
  have hnil : d.Good total past (spare + 1 + ([] : StdString).length + 3) s₁ := h.since hgood
  refine (fileNameNumberContent_spec hnil hfuel₁).bind ?_
  intro r s₂ hgood₂
  cases r with
  | none => exact Returns.pure (hgood₂.spend (Nat.le_succ _))
  | some content =>
    have hcheck : d.Good total past (spare + content.reverse.length + 1) s₂ := by
      rw [List.length_reverse]
      exact hgood₂.spend (by
        rw [Option.getD_some]
        omega)
    exact checkFileNameNumber_spec hcheck

theorem skipFileName_spec {fuel : ℕ} (h : d.Good total past (spare + 7) s)
    (hfuel : d.left s < fuel) :
    Returns (d.skipFileName fuel) s fun _ s' => d.Good total past spare s' := by
  rw [skipFileName, isFileName]
  refine Returns.bind (P := fun _ s' => d.Looked total past (spare + 6) s s') ?_ ?_
  · refine (peekChar_spec h).bind ?_
    rintro c s₁ ⟨hlooked, -⟩
    exact Returns.pure hlooked
  · intro b s₁ hlooked
    have hfuel₁ : d.left s₁ < fuel := by
      rw [left, hlooked.index_eq]
      exact hfuel
    refine Returns.ite (fun _ => ?_) fun _ => ?_
    · refine (demangleFileName_spec hlooked.toGood hfuel₁).bind ?_
      intro _ s₂ hgood
      exact Returns.pure hgood
    · exact Returns.pure (hlooked.spend (Nat.le_add_right _ _))

/-- A local counter is passed, if there is one: then it is in front of the cursor. -/
theorem skipLocalCounter_spec {fuel : ℕ} (h : d.Good total past (spare + 6) s)
    (hfuel : d.left s < fuel) :
    Returns (d.skipLocalCounter fuel) s fun _ s' => d.Good total past spare s' ∧ s.log ⊆ s'.log ∧
      (s'.isValid = true → s'.currentIndex = s.currentIndex ∨
        ∃ content rest, IsBase62 content ∧ d.mangledName.drop s.currentIndex =
          MANGLE_COUNT_PREFIX :: (content ++ MANGLE_UNDERSCORE_PREFIX :: rest) ∧
            s'.currentIndex = s.currentIndex + content.length + 2) := by
  rw [skipLocalCounter]
  have hrate := le_rate d
  refine (peekChar_spec h).bind ?_
  rintro c s₁ ⟨hlooked, hc⟩
  refine Returns.ite (fun hcount => ?_) fun _ => ?_
  · obtain ⟨hlt, hchar⟩ := List.getElem?_eq_some_iff.mp (hc.trans hcount)
    have hlt₁ : s₁.currentIndex < d.mangledName.length := hlooked.index_eq ▸ hlt
    have hdrop : d.mangledName.drop s.currentIndex =
        MANGLE_COUNT_PREFIX :: d.mangledName.drop (s.currentIndex + 1) := by
      rw [← hchar]
      exact List.drop_eq_getElem_cons hlt
    refine (skipChar_lt (hlooked.spend (Nat.le_succ _) : d.Good total past (spare + 2 + 2) s₁) hlt₁
      MANGLE_COUNT_PREFIX).bind ?_
    rintro _ s₂ ⟨hgood, hindex⟩
    have hgood' : d.Good total s (spare + 3) s₂ := by
      refine hgood.weaken ?_ (fun _ he => hgood.past_subset (hlooked.subset he)) fun _ => by omega
      have hle := hgood.past_le
      have heq : s₁.passed.currentIndex = s.currentIndex + 1 := congrArg (· + 1) hlooked.index_eq
      omega
    have hfuel₂ : d.left s₂ < fuel := Nat.lt_of_le_of_lt (left_le hgood'.toSound) hfuel
    refine ((demangleManglingNumber_spec hgood' hfuel₂).mono ?_).discard
    rintro n s' (⟨-, hrejected⟩ | ⟨content, rest, hdigits, -, hrest, hindex', hgood''⟩)
    · refine ⟨h.since hrejected.toGood, hrejected.past_subset, fun hvalid => ?_⟩
      cases hvalid.symm.trans hrejected.invalid
    · have hlt₂ : s₂.currentIndex < d.mangledName.length := by
        by_contra hge
        rw [List.drop_eq_nil_of_le (Nat.le_of_not_lt hge)] at hrest
        exact List.append_ne_nil_of_right_ne_nil _ (List.cons_ne_nil _ _) hrest.symm
      have hindex₂ : s₂.currentIndex = s.currentIndex + 1 :=
        (hindex (hgood'.isValid_of_lt hlt₂)).trans (congrArg (· + 1) hlooked.index_eq)
      refine ⟨h.since hgood'', hgood''.past_subset, fun _ => .inr ⟨content, rest, hdigits, ?_, ?_⟩⟩
      · rw [hdrop, ← hindex₂, hrest]
      · rw [hindex', hindex₂]
        omega
  · exact Returns.pure ⟨hlooked.spend (Nat.le_add_right _ _), hlooked.subset, fun _ =>
      .inl hlooked.index_eq⟩

/-! ## Packages -/

/-- In a string of at most `2 ^ 32` characters a place that is found is one of the character. -/
theorem getElem?_find {str : StdString} {pattern : Char} (hlen : str.length ≤ 2 ^ 32)
    (hfind : -1 < find str pattern) : str[(find str pattern).toNat]? = some pattern := by
  rw [find] at hfind ⊢
  cases hpos : str.findIdx? (· == pattern) with
  | none =>
    rw [hpos] at hfind
    exact absurd hfind (by decide)
  | some pos =>
    rw [hpos] at hfind
    obtain ⟨hlt, hchar, -⟩ := List.findIdx?_eq_some_iff_getElem.mp hpos
    have hmod : Int.bmod pos (2 ^ 32) = pos := by
      have hcast : Int.bmod pos (2 ^ 32) = pos ∨ Int.bmod pos (2 ^ 32) = pos - 2 ^ 32 := by
        rw [Int.bmod_def]
        omega
      rcases hcast with heq | heq
      · exact heq
      · have hneg : -1 < (pos : ℤ) - 2 ^ 32 := heq ▸ hfind
        omega
    show str[(Int.bmod pos (2 ^ 32)).toNat]? = some pattern
    rw [hmod, Int.toNat_natCast, List.getElem?_eq_getElem hlt, beq_iff_eq.mp hchar]

/-- A replacement takes one occurrence away. -/
theorem replaced_spec {str replacement : StdString} {pattern : Char} {pos : ℕ}
    (hnew : replacement.count pattern = 0) (hshort : replacement.length ≤ 1)
    (hpos : str[pos]? = some pattern) :
    (subStr str 0 pos ++ replacement ++
        subStr str (pos + 1) (str.length - pos - 1)).count pattern + 1 = str.count pattern ∧
      (subStr str 0 pos ++ replacement ++
        subStr str (pos + 1) (str.length - pos - 1)).length ≤ str.length := by
  obtain ⟨hlt, hchar⟩ := List.getElem?_eq_some_iff.mp hpos
  have hrest : subStr str (pos + 1) (str.length - pos - 1) = str.drop (pos + 1) := by
    rw [subStr, List.take_of_length_le]
    rw [List.length_drop]
    omega
  have hsplit : str = str.take pos ++ pattern :: str.drop (pos + 1) := by
    rw [← hchar, ← List.drop_eq_getElem_cons hlt, List.take_append_drop]
  rw [hrest, subStr, List.drop_zero]
  constructor
  · conv_rhs => rw [hsplit]
    rw [List.count_append, List.count_append, List.count_append, List.count_cons_self, hnew]
    omega
  · rw [List.length_append, List.length_append, List.length_take, List.length_drop]
    omega

/-- Each replacement takes one occurrence away. -/
theorem replaceString_spec {fuel : ℕ} {str : StdString} {pattern : Char} {replacement : StdString}
    (hnew : replacement.count pattern = 0) (hshort : replacement.length ≤ 1)
    (hlen : str.length ≤ 2 ^ 32) (h : d.Good total past (spare + str.count pattern + 1) s)
    (hfuel : str.count pattern < fuel) :
    Returns (replaceString pattern replacement fuel str) s fun _ s' =>
      d.Good total past spare s' := by
  induction fuel generalizing s str with
  | zero => exact absurd hfuel (Nat.not_lt_zero _)
  | succ fuel ih =>
    have hstep := h.step .iteration
    rw [replaceString]
    refine Returns.bind_eq rfl (Returns.ite (fun hfound => ?_) fun _ => ?_)
    · obtain ⟨hcount, hlen'⟩ := replaced_spec hnew hshort (getElem?_find hlen hfound.1)
      exact ih (Nat.le_trans hlen' hlen) (hstep.spend (by omega)) (by omega)
    · exact Returns.pure (hstep.spend (Nat.le_add_right _ _))

/-- The names of the standard packages are short and have no dollar sign. -/
theorem stdPackage_spec {abbreviation pkg : StdString} (h : stdPackage abbreviation = some pkg) :
    pkg.count '$' = 0 ∧ pkg.length ≤ 2 ^ 32 := by
  have hall : ∀ entry ∈ MANGLE_STDPKG_MAP,
      entry.2.toList.count '$' = 0 ∧ entry.2.toList.length ≤ 2 ^ 32 := by
    decide
  obtain ⟨entry, hentry, rfl⟩ := Option.map_eq_some_iff.mp h
  exact hall entry (List.mem_of_find?_eq_some hentry)

/-- An abbreviation has two characters. -/
theorem length_of_stdPackage {abbreviation : StdString} (h : (stdPackage abbreviation).isSome) :
    abbreviation.length = 2 := by
  have hall : ∀ entry ∈ MANGLE_STDPKG_MAP, entry.1.toList.length = 2 := by
    decide
  rw [stdPackage, Option.isSome_map] at h
  obtain ⟨entry, hentry⟩ := Option.isSome_iff_exists.mp h
  have hfound := List.find?_some hentry
  rw [← beq_iff_eq.mp hfound]
  exact hall entry (List.mem_of_find?_eq_some hentry)

/-- A doubled colon adds no dollar sign. -/
theorem doubleColon_spec {pkg : StdString} (hlen : pkg.length < 2 ^ 32) :
    (doubleColon pkg).count '$' = pkg.count '$' ∧ (doubleColon pkg).length ≤ 2 ^ 32 := by
  rw [doubleColon]
  split_ifs with hcolon
  · have hrest : subStr pkg (find pkg ':').toNat (pkg.length - (find pkg ':').toNat) =
        pkg.drop (find pkg ':').toNat := by
      rw [subStr, List.take_of_length_le]
      rw [List.length_drop]
    rw [hrest, subStr, List.drop_zero]
    constructor
    · conv_rhs => rw [← List.take_append_drop (find pkg ':').toNat pkg]
      rw [List.count_append, List.count_append, List.count_append]
      rfl
    · rw [List.length_append, List.length_append, List.length_take, List.length_drop,
        List.length_singleton]
      omega
  · exact ⟨rfl, Nat.le_of_lt hlen⟩

/-- The name of a package: its dollar signs can be paid for. -/
theorem packageString_spec {fuel : ℕ} {pkg : Option StdString}
    (h : d.Good total past (spare + 5) s) (hfuel : d.left s < fuel)
    (hpkg : ∀ p, pkg = some p → p.count '$' = 0 ∧ p.length ≤ 2 ^ 32)
    (hlt : pkg = none → s.currentIndex < d.mangledName.length) :
    Returns (d.packageString fuel pkg) s fun str s' =>
      d.Good total past (spare + str.count '$') s' ∧ d.left s' < fuel ∧ str.count '$' < fuel ∧
        str.length ≤ 2 ^ 32 := by
  cases pkg with
  | some p =>
    obtain ⟨hcount, hlen⟩ := hpkg p rfl
    refine Returns.pure ⟨h.spend ?_, hfuel, ?_, hlen⟩
    · omega
    · omega
  | none =>
    have hrate := le_rate d
    refine (demangleStringName_lt h (hlt rfl) hfuel).bind ?_
    rintro name s₁ ⟨hshort, hname, hgood⟩
    obtain ⟨hcount, hlen⟩ := doubleColon_spec hshort
    have hle : name.count '$' ≤ name.length := List.count_le_length
    have hleft := left_lt hgood.toSound (hlt rfl)
    refine Returns.pure ⟨(h.after hgood).spend ?_, ?_, ?_, hlen⟩
    · omega
    · omega
    · omega

theorem packageNameRest_spec {fuel : ℕ} {pkg : Option StdString}
    (h : d.Good total past (spare + 15) s) (hfuel : d.left s < fuel)
    (hpkg : ∀ p, pkg = some p → p.count '$' = 0 ∧ p.length ≤ 2 ^ 32)
    (hlt : pkg = none → s.currentIndex < d.mangledName.length)
    (hread : (∀ e ∈ s.log, d.Meets e) → s.currentIndex < d.mangledName.length) :
    Returns (d.packageNameRest fuel pkg) s fun _ s' => d.Good total past spare s' := by
  rw [packageNameRest]
  refine (currentChar_spec h hread).bind ?_
  rintro c s₁ ⟨hlooked, hc⟩
  have hindex := hlooked.index_eq
  refine Returns.ite (fun hzero => ?_) fun _ => ?_
  · have hlt₁ : s₁.currentIndex < d.mangledName.length := by
      by_contra hge
      rw [hzero, List.getD_eq_getElem?_getD, List.getElem?_eq_none (by omega)] at hc
      exact absurd hc (by decide)
    refine Returns.bind_eq rfl (Returns.pure ?_)
    exact (hlooked.after (hlooked.pass hlt₁)).spend (by omega)
  · have hfuel₁ : d.left s₁ < fuel := by
      rw [left, hindex]
      exact hfuel
    have hpackage : d.Good total past (spare + 8 + 5) s₁ := hlooked.spend (by omega)
    refine (packageString_spec hpackage hfuel₁ hpkg fun hnone => hindex ▸ hlt hnone).bind ?_
    rintro str s₂ ⟨hgood, hfuel₂, hcount, hlen⟩
    have hfile : d.Good total past (spare + str.count '$' + 1 + 7) s₂ := hgood.spend (by omega)
    refine (skipFileName_spec hfile hfuel₂).bind ?_
    intro b s₃ hgood'
    refine (replaceString_spec (by decide) (by decide) hlen hgood' hcount).bind ?_
    intro pkgName s₄ hgood''
    exact Returns.pure hgood''

theorem demanglePackageName_spec {fuel : ℕ} (h : d.Good total past (spare + 18) s)
    (hfuel : d.left s < fuel) :
    Returns (d.demanglePackageName fuel) s fun _ s' => d.Good total past spare s' := by
  have hrate := le_rate d
  have hstep := h.step .demanglePackageName
  rw [demanglePackageName]
  refine Returns.bind_eq (step_eq _ s) (Returns.get_bind (Returns.ite (fun hlt => ?_) fun _ => ?_))
  · refine Returns.bind_eq (ahead_eq _ _) ?_
    have hlt : s.currentIndex < d.mangledName.length := hlt
    cases hstd : stdPackage (subStr d.mangledName
      (s.logged (.step .demanglePackageName)).currentIndex SPECIAL_NAME_LEN) with
    | some pkg =>
      have hsome : (stdPackage (subStr d.mangledName s.currentIndex SPECIAL_NAME_LEN)).isSome := by
        exact Option.isSome_of_eq_some hstd
      have htwo : min 2 (d.mangledName.length - s.currentIndex) = 2 := by
        have hlen := length_of_stdPackage hsome
        rwa [subStr, List.length_take, List.length_drop] at hlen
      have hnext : s.currentIndex + 2 ≤ d.mangledName.length := by omega
      have hpassed : d.Good total past (spare + 15)
          { s.logged (.step .demanglePackageName) with currentIndex := s.currentIndex + 2 } :=
        (hstep.advance Nat.two_pos hnext).weaken (Nat.le_trans h.past_le (Nat.le_add_right _ _))
          hstep.past_subset fun _ => by omega
      refine Returns.bind_eq (advance_eq _ _) (packageNameRest_spec hpassed ?_ ?_ ?_ ?_)
      · rw [left] at hfuel ⊢
        exact Nat.lt_of_le_of_lt (Nat.sub_le_sub_left (Nat.le_add_right _ _) _) hfuel
      · rintro _ ⟨⟩
        exact stdPackage_spec hstd
      · intro hnone
        cases hnone
      · intro hmeets
        exact hmeets _ List.mem_cons_self hsome
    | none =>
      refine (currentChar_lt hstep hlt).bind ?_
      rintro c s₁ ⟨hlooked, -⟩
      have hindex : s₁.currentIndex = s.currentIndex := hlooked.index_eq
      have hlt₁ : s₁.currentIndex < d.mangledName.length := hindex ▸ hlt
      refine Returns.ite (fun _ => ?_) fun _ => ?_
      · refine packageNameRest_spec (hlooked.spend (by omega)) ?_ ?_ (fun _ => hlt₁) fun _ => hlt₁
        · rw [left, hindex]
          exact hfuel
        · intro p hnone
          cases hnone
      · have hspend : d.Good total past (spare + 1) s₁ := hlooked.spend (by omega)
        refine Returns.discard_bind (reject_le hspend.toSound) ?_
        intro _ s' hrejected
        exact Returns.pure hrejected.toGood
  · have hspend : d.Good total past (spare + 1) _ := hstep.spend (by omega)
    refine Returns.discard_bind (reject_le hspend.toSound) ?_
    intro _ s' hrejected
    exact Returns.pure hrejected.toGood

/-! ## Lists of types -/

theorem isNotEndOfGenericTypes_spec (h : d.Good total past (spare + 3) s) :
    Returns d.isNotEndOfGenericTypes s fun b s' => d.Looked total past spare s s' ∧
      (b = true → s.currentIndex < d.mangledName.length) := by
  rw [isNotEndOfGenericTypes]
  refine (isNotEndOfMangledName_spec h).bind ?_
  rintro b s₁ ⟨hlooked, hlt⟩
  refine Returns.ite (fun hb => ?_) fun _ => ?_
  · have hlt₁ : s₁.currentIndex < d.mangledName.length := hlooked.index_eq ▸ hlt hb
    refine (currentChar_lt hlooked.toGood hlt₁).bind ?_
    rintro ch s₂ ⟨hlooked₂, -⟩
    refine Returns.ite (fun _ => ?_) fun _ => ?_
    · exact Returns.pure ⟨hlooked.trans (hlooked₂.trans (.refl hlooked₂.toGood)), fun _ => hlt hb⟩
    · refine (isOperatorName_spec hlooked₂.toGood).bind ?_
      rintro b' s₃ ⟨hlooked₃, -⟩
      exact Returns.pure ⟨hlooked.trans (hlooked₂.trans hlooked₃), fun _ => hlt hb⟩
  · refine Returns.pure ⟨hlooked.trans (.refl hlooked.toGood), fun hb => ?_⟩
    exact absurd hb Bool.false_ne_true

theorem isNotEndOfParameterTypes_spec (h : d.Good total past (spare + 3) s) :
    Returns d.isNotEndOfParameterTypes s fun b s' => d.Looked total past spare s s' ∧
      (b = true → s.currentIndex < d.mangledName.length) := by
  rw [isNotEndOfParameterTypes]
  refine (isNotEndOfMangledName_spec h).bind ?_
  rintro b s₁ ⟨hlooked, hlt⟩
  refine Returns.ite (fun hb => ?_) fun _ => ?_
  · have hlt₁ : s₁.currentIndex < d.mangledName.length := hlooked.index_eq ▸ hlt hb
    refine (currentChar_lt hlooked.toGood hlt₁).bind ?_
    rintro ch s₂ ⟨hlooked₂, -⟩
    exact Returns.pure ⟨hlooked.trans (hlooked₂.trans (.refl hlooked₂.toGood)), fun _ => hlt hb⟩
  · refine Returns.pure ⟨hlooked.trans (.refl hlooked.toGood), fun hb => ?_⟩
    exact absurd hb Bool.false_ne_true

theorem isVoid_spec (h : d.Good total past (spare + 2) s) :
    Returns d.isVoid s fun b s' => d.Looked total past spare s s' ∧
      (b = true → s.currentIndex < d.mangledName.length) := by
  rw [isVoid]
  refine (isNotEndOfMangledName_spec h).bind ?_
  rintro b s₁ ⟨hlooked, hlt⟩
  refine Returns.ite (fun hb => ?_) fun _ => ?_
  · have hlt₁ : s₁.currentIndex < d.mangledName.length := hlooked.index_eq ▸ hlt hb
    refine (currentChar_lt hlooked.toGood hlt₁).bind ?_
    rintro ch s₂ ⟨hlooked₂, -⟩
    exact Returns.pure ⟨hlooked.trans hlooked₂, fun _ => hlt hb⟩
  · refine Returns.pure ⟨hlooked.trans (.refl hlooked.toGood), fun hb => ?_⟩
    exact absurd hb Bool.false_ne_true

theorem isVoidAtEnd_spec (h : d.Good total past (spare + 1) s) :
    Returns d.isVoidAtEnd s fun _ s' => d.Looked total past spare s s' := by
  rw [isVoidAtEnd]
  refine Returns.get_bind (Returns.ite (fun hend => ?_) fun _ => Returns.pure (.refl h))
  refine (currentChar_lt h (Nat.lt_of_succ_le (Nat.le_of_eq hend))).bind ?_
  rintro ch s₁ ⟨hlooked, -⟩
  exact Returns.pure hlooked

theorem skipConstraintSeparator_spec (h : d.Good total past (spare + 3) s)
    (hlt : s.currentIndex < d.mangledName.length) :
    Returns d.skipConstraintSeparator s fun _ s' => d.Good total past spare s' := by
  rw [skipConstraintSeparator]
  refine (currentChar_lt h hlt).bind ?_
  rintro ch s₁ ⟨hlooked, -⟩
  refine Returns.ite (fun _ => skipChar_le hlooked.toGood _) fun _ => ?_
  exact Returns.pure (hlooked.spend (Nat.le_add_right _ _))

/-- What is used of a unit: it returns where the fuel suffices, and passes a character if there is
one.  It may be invalid in front of the end. -/
structure ReadsUnits (d : Demangler) (total : ℕ) (byPrefix : Routine DemangleInfo) (fuel : ℕ) :
    Prop where
  inside : ∀ {past : State} {spare : ℕ} {s : State}, d.Good total past (spare + 10) s →
    s.currentIndex < d.mangledName.length → d.left s + 1 < fuel →
    Returns byPrefix s fun _ s' => d.Sound total s.passed (spare + 31) s'
  atEnd : ∀ {past : State} {spare : ℕ} {s : State}, d.Good total past (spare + 2) s →
    s.currentIndex = d.mangledName.length → d.left s + 1 < fuel →
    Returns byPrefix s fun _ s' => d.Rejected total past spare s'

section

variable {byPrefix : Routine DemangleInfo} {fuel : ℕ} (hunits : d.ReadsUnits total byPrefix fuel)

include hunits

theorem demangleNextUnit_lt (h : d.Good total past (spare + 10) s)
    (hlt : s.currentIndex < d.mangledName.length) (hfuel : d.left s + 1 < fuel) :
    Returns (d.demangleNextUnit byPrefix) s fun _ s' => d.Good total s.passed (spare + 30) s' := by
  rw [demangleNextUnit]
  refine (hunits.inside h hlt hfuel).bind ?_
  intro di s₁ hsound
  refine Returns.get_bind (Returns.ite (fun hvalid => ?_) fun _ => ?_)
  · exact Returns.pure ((hsound.good hvalid).spend (by omega))
  · refine (reject_le hsound).mono ?_
    intro _ s' hrejected
    exact hrejected.toGood

theorem demangleNextUnit_end (h : d.Good total past (spare + 2) s)
    (hend : s.currentIndex = d.mangledName.length) (hfuel : d.left s + 1 < fuel) :
    Returns (d.demangleNextUnit byPrefix) s fun _ s' => d.Rejected total past spare s' := by
  rw [demangleNextUnit]
  refine (hunits.atEnd h hend hfuel).bind ?_
  intro di s₁ hrejected
  refine Returns.get_bind (Returns.ite (fun hvalid => ?_) fun _ => ?_)
  · cases hvalid.symm.trans hrejected.invalid
  · refine ⟨d.dumpDi, s₁, ?_, hrejected⟩
    rw [reject]
    refine (Prog.bind_eq rfl).trans ?_
    rw [if_pos ⟨hrejected.index_eq, hrejected.invalid⟩]
    rfl

theorem demangleNextUnit_le (h : d.Good total past (spare + 10) s) (hfuel : d.left s + 1 < fuel) :
    Returns (d.demangleNextUnit byPrefix) s fun _ s' => d.Good total past spare s' := by
  rcases Nat.lt_or_eq_of_le h.index_le with hlt | hend
  · refine (demangleNextUnit_lt hunits h hlt hfuel).mono ?_
    intro _ s' hgood
    exact (h.after hgood).spend (by omega)
  · have hspend : d.Good total past (spare + 2) s := h.spend (by omega)
    refine (demangleNextUnit_end hunits hspend hend hfuel).mono ?_
    intro _ s' hrejected
    exact hrejected.toGood

/-- A loop over types passes a character in each round. -/
theorem typesLoop_spec {more : Routine Bool}
    (hmore : ∀ {past : State} {spare : ℕ} {s : State}, d.Good total past (spare + 3) s →
      Returns more s fun b s' => d.Looked total past spare s s' ∧
        (b = true → s.currentIndex < d.mangledName.length))
    {n : ℕ} (h : d.Good total past (spare + 14) s) (hfuel : d.left s + 1 < fuel)
    (hn : d.left s < n) (delimiter : StdString) (firstIteration : Bool) (names : StdString) :
    Returns (d.typesLoop byPrefix more delimiter n firstIteration names) s fun _ s' =>
      d.Good total past spare s' := by
  induction n generalizing past s firstIteration names with
  | zero => exact absurd hn (Nat.not_lt_zero _)
  | succ n ih =>
    rw [typesLoop]
    refine Returns.bind_eq (step_eq _ s) ((hmore (h.step .iteration)).bind ?_)
    rintro b s₁ ⟨hlooked, hlt⟩
    refine Returns.ite (fun hb => ?_) fun _ =>
      Returns.pure (hlooked.spend (Nat.le_add_right _ _))
    have hindex : s₁.currentIndex = s.currentIndex := hlooked.index_eq
    have hlt₁ : s₁.currentIndex < d.mangledName.length := hindex ▸ hlt hb
    have hleft : d.left s₁ = d.left s := congrArg (d.mangledName.length - ·) hindex
    refine (demangleNextUnit_lt hunits hlooked.toGood hlt₁ (hleft ▸ hfuel)).bind ?_
    intro di s₂ hgood
    have hpast := hlooked.after hgood
    refine Returns.get_bind (Returns.ite (fun _ => ?_) fun _ => ?_)
    · have hlt₂ := left_lt hgood.toSound hlt₁
      exact ih (hpast.spend (by omega)) (by omega) (by omega) false _
    · exact Returns.pure (hpast.spend (Nat.le_add_right _ _))

theorem demangleGenericTypes_spec {n : ℕ} (h : d.Good total past (spare + 14) s)
    (hfuel : d.left s + 1 < fuel) (hn : d.left s < n) :
    Returns (d.demangleGenericTypes byPrefix n) s fun _ s' => d.Good total past spare s' := by
  rw [demangleGenericTypes]
  refine (typesLoop_spec hunits (fun h => isNotEndOfGenericTypes_spec h) h hfuel hn _ _ _).bind ?_
  intro args s' hgood
  exact Returns.pure hgood

theorem demangleFunctionParameterTypes_spec {n : ℕ} (h : d.Good total past (spare + 16) s)
    (hfuel : d.left s + 1 < fuel) (hn : d.left s < n) :
    Returns (d.demangleFunctionParameterTypes byPrefix n) s fun _ s' =>
      d.Good total past spare s' := by
  rw [demangleFunctionParameterTypes]
  refine (isVoid_spec h).bind ?_
  rintro b s₁ ⟨hlooked, hlt⟩
  have hindex : s₁.currentIndex = s.currentIndex := hlooked.index_eq
  have hleft : d.left s₁ = d.left s := congrArg (d.mangledName.length - ·) hindex
  refine Returns.ite (fun hb => ?_) fun _ => ?_
  · have hlt₁ : s₁.currentIndex < d.mangledName.length := hindex ▸ hlt hb
    refine Returns.bind_eq (advance_eq _ s₁) (Returns.pure ?_)
    exact (hlooked.after (hlooked.pass hlt₁)).spend (by omega)
  · refine (typesLoop_spec hunits (fun h => isNotEndOfParameterTypes_spec h) hlooked.toGood
      (hleft ▸ hfuel) (hleft ▸ hn) _ _ _).bind ?_
    intro args s' hgood
    exact Returns.pure hgood

/-- An argument type passes a character. -/
theorem nextArgType_spec (h : d.Good total past (spare + 18) s) (hfuel : d.left s + 1 < fuel)
    (more : Bool) :
    Returns (d.nextArgType byPrefix more) s fun r s' => d.Good total past spare s' ∧
      ∀ di, r = .read di → d.Good total past (spare + 18) s' ∧ d.left s' < d.left s := by
  rw [nextArgType]
  refine Returns.bind_eq (step_eq _ s) ((isNotEndOfMangledName_spec (h.step .iteration)).bind ?_)
  rintro b s₁ ⟨hlooked, hlt⟩
  have hindex : s₁.currentIndex = s.currentIndex := hlooked.index_eq
  have hleft : d.left s₁ = d.left s := congrArg (d.mangledName.length - ·) hindex
  refine Returns.ite (fun hb => ?_) fun _ => ?_
  · have hlt₁ : s₁.currentIndex < d.mangledName.length :=
      hindex ▸ hlt ((Bool.and_eq_true _ _).mp hb).1
    refine (skipConstraintSeparator_spec (hlooked.self.spend (Nat.le_refl _) :
      d.Good total s₁ (spare + 13 + 3) s₁) hlt₁).bind ?_
    intro _ s₂ hgood
    refine (isMaybeDefaultFuncParamFunction_spec hgood).bind ?_
    intro b' s₃ hlooked₃
    refine Returns.ite (fun _ => ?_) fun _ => ?_
    · refine Returns.pure ⟨(hlooked.since hlooked₃.toGood).spend (by omega), ?_⟩
      intro di hdi
      cases hdi
    · have hle : d.left s₃ ≤ d.left s := hleft ▸ left_le hlooked₃.toSound
      rcases Nat.lt_or_eq_of_le hlooked₃.index_le with hlt₃ | hend
      · refine (demangleNextUnit_lt hunits hlooked₃.toGood hlt₃ (by omega)).bind ?_
        intro curDi s₄ hgood₄
        have hpast := hlooked.since (hlooked₃.after hgood₄)
        have hlt₄ := left_lt hgood₄.toSound hlt₃
        refine Returns.get_bind (Returns.ite (fun _ => ?_) fun _ => ?_)
        · exact Returns.pure ⟨hpast.spend (by omega), fun _ _ => ⟨hpast.spend (by omega), by omega⟩⟩
        · refine Returns.pure ⟨hpast.spend (by omega), ?_⟩
          intro di hdi
          cases hdi
      · refine (demangleNextUnit_end hunits hlooked₃.toGood hend (by omega)).bind ?_
        intro curDi s₄ hrejected
        refine Returns.get_bind (Returns.ite (fun hvalid => ?_) fun _ => ?_)
        · cases hvalid.symm.trans hrejected.invalid
        · refine Returns.pure ⟨(hlooked.since hrejected.toGood).spend (by omega), ?_⟩
          intro di hdi
          cases hdi
  · refine Returns.pure ⟨hlooked.spend (by omega), ?_⟩
    intro di hdi
    cases hdi

theorem argTypesLoop_spec {n : ℕ} (h : d.Good total past (spare + 18) s)
    (hfuel : d.left s + 1 < fuel) (hn : d.left s < n) (delimiter : StdString) (size : UInt32)
    (slots : Slots) :
    Returns (d.argTypesLoop byPrefix delimiter size n slots) s fun _ s' =>
      d.Good total past spare s' := by
  induction n generalizing past s slots with
  | zero => exact absurd hn (Nat.not_lt_zero _)
  | succ n ih =>
    rw [argTypesLoop]
    refine (nextArgType_spec hunits h hfuel _).bind ?_
    rintro r s₁ ⟨hgood, hread⟩
    cases r with
    | done => exact Returns.pure hgood
    | invalid => exact Returns.pure hgood
    | read di =>
      obtain ⟨hgood', hlt⟩ := hread di rfl
      exact ih (hgood'.spend (by omega)) (by omega) (by omega) _

theorem demangleArgTypes_spec {n : ℕ} (h : d.Good total past (spare + 19) s)
    (hfuel : d.left s + 1 < fuel) (hn : d.left s < n) (delimiter : StdString) (size : UInt32) :
    Returns (d.demangleArgTypes byPrefix n delimiter size) s fun _ s' =>
      d.Good total past spare s' := by
  rw [demangleArgTypes]
  refine (isVoidAtEnd_spec h).bind ?_
  intro b s₁ hlooked
  have hleft : d.left s₁ = d.left s := congrArg (d.mangledName.length - ·) hlooked.index_eq
  refine Returns.ite (fun _ => ?_) fun _ => ?_
  · have hspend : d.Good total past (spare + 2) s₁ := hlooked.spend (by omega)
    refine (skipChar_le hspend _).bind ?_
    intro _ s₂ hgood
    exact Returns.pure hgood
  · refine (argTypesLoop_spec hunits hlooked.toGood (hleft ▸ hfuel) (hleft ▸ hn) _ _ _).bind ?_
    intro r s₂ hgood
    cases r with
    | none => exact Returns.pure hgood
    | some slots => exact Returns.pure hgood

/-! ## Nested declarations -/

omit hunits in
/-- The name of a component is passed. -/
theorem componentName_spec {n : ℕ} (h : d.Good total past (spare + 6) s)
    (hlt : s.currentIndex < d.mangledName.length) (hn : d.left s < n) :
    Returns (d.componentName n) s fun _ s' => d.Good total s.passed (spare + d.rate - 2) s' := by
  have hrate := le_rate d
  rw [componentName]
  refine (isOperatorName_spec h).bind ?_
  rintro b s₁ ⟨hlooked, hid⟩
  have hindex : s₁.currentIndex = s.currentIndex := hlooked.index_eq
  have hlt₁ : s₁.currentIndex < d.mangledName.length := hindex ▸ hlt
  have hleft : d.left s₁ = d.left s := congrArg (d.mangledName.length - ·) hindex
  have hpassed : s.passed.currentIndex = s.currentIndex + 1 := rfl
  refine Returns.ite (fun hb => ?_) fun _ => ?_
  · refine Returns.bind_eq (ahead_eq _ s₁) (Returns.get_bind (Returns.bind_eq (advance_eq _ s₁) ?_))
    have hid' : s₁.currentIndex + 2 < d.mangledName.length := hindex ▸ hid hb
    refine Returns.pure ((hlooked.advance Nat.two_pos (Nat.le_of_lt hid')).weaken ?_ hlooked.subset
      fun _ => by omega)
    show s.currentIndex + 1 ≤ s₁.currentIndex + 2
    omega
  · refine (demangleStringName_lt hlooked.toGood hlt₁ (hleft ▸ hn)).bind ?_
    rintro name s₂ ⟨-, -, hgood⟩
    have hgood' : d.Good total s.passed (spare + d.rate - 2) s₂ := by
      refine hgood.weaken ?_ (fun _ he => hgood.past_subset (hlooked.subset he)) fun _ => by omega
      have hle : s₁.currentIndex + 1 ≤ s₂.currentIndex := hgood.past_le
      omega
    refine Returns.get_bind ((isProp_spec s₂).bind ?_)
    rintro b' s₃ ⟨rfl, hprop⟩
    refine Returns.ite (fun hb' => ?_) fun _ => Returns.pure hgood'
    rw [demangleProp]
    refine Returns.bind (P := fun _ s' => d.Good total s.passed (spare + d.rate - 2) s') ?_ ?_
    · refine Returns.bind_eq (ahead_eq _ s₃) (Returns.bind_eq (advance_eq _ s₃) (Returns.pure ?_))
      have hnext : s₃.currentIndex + 2 ≤ d.mangledName.length := hprop hb'
      exact (hgood'.advance Nat.two_pos hnext).weaken
        (Nat.le_trans hgood'.past_le (Nat.le_add_right _ _)) hgood'.past_subset fun _ =>
          Nat.le_add_right _ _
    · intro prop s' hprop'
      exact Returns.pure hprop'

omit hunits in
theorem skipGenericEnd_spec (h : d.Good total past (spare + 1) s) (isClass : Bool) :
    Returns (d.skipGenericEnd isClass) s fun _ s' => d.Good total past spare s' := by
  rw [skipGenericEnd]
  refine Returns.ite (fun _ => skipOptionalChar_spec h _) fun _ => ?_
  exact Returns.pure (h.spend (Nat.le_succ _))

theorem componentGenerics_spec {n : ℕ} (h : d.Good total past (spare + 18) s)
    (hread : (∀ e ∈ s.log, d.Meets e) → s.currentIndex < d.mangledName.length)
    (hfuel : d.left s + 1 < fuel) (hn : d.left s < n) (isClass : Bool) (curDi : DemangleInfo) :
    Returns (d.componentGenerics byPrefix n isClass curDi) s fun _ s' =>
      d.Good total past spare s' := by
  rw [componentGenerics]
  refine (currentChar_spec h.self hread).bind ?_
  rintro ch s₁ ⟨hlooked, -⟩
  refine Returns.ite (fun _ => ?_) fun _ => ?_
  · have hspend : d.Good total s (spare + 15 + 2) s₁ := hlooked.toGood
    refine (skipChar_le hspend _).bind ?_
    intro _ s₂ hgood
    have hle := left_le hgood.toSound
    have hspend' : d.Good total s (spare + 1 + 14) s₂ := hgood
    refine (demangleGenericTypes_spec hunits hspend' (by omega) (by omega)).bind ?_
    intro generic s₃ hgood₃
    refine (skipGenericEnd_spec hgood₃ isClass).bind ?_
    intro _ s₄ hgood₄
    exact Returns.pure (h.since hgood₄)
  · exact Returns.pure ((h.since hlooked.toGood).spend (by omega))

theorem componentParameters_spec {n : ℕ} (h : d.Good total past (spare + 20) s)
    (hfuel : d.left s + 1 < fuel) (hn : d.left s < n) (curDi : DemangleInfo) :
    Returns (d.componentParameters byPrefix n curDi) s fun _ s' => d.Good total past spare s' := by
  rw [componentParameters]
  refine (peekChar_spec h.self).bind ?_
  rintro c s₁ ⟨hlooked, -⟩
  refine Returns.ite (fun _ => ?_) fun _ => ?_
  · have hspend : d.Good total s (spare + 17 + 2) s₁ := hlooked.toGood
    refine (skipChar_le hspend _).bind ?_
    intro _ s₂ hgood
    have hle := left_le hgood.toSound
    have hspend' : d.Good total s (spare + 1 + 16) s₂ := hgood
    refine (demangleFunctionParameterTypes_spec hunits hspend' (by omega) (by omega)).bind ?_
    intro funcTys s₃ hgood₃
    refine (skipOptionalChar_spec hgood₃ END).bind ?_
    intro _ s₄ hgood₄
    exact Returns.pure (h.since hgood₄)
  · exact Returns.pure ((h.since hlooked.toGood).spend (by omega))

omit hunits in
theorem componentText_spec (h : d.Good total past (spare + 1) s) (isParamInit : Bool)
    (curDi : DemangleInfo) :
    Returns (d.componentText isParamInit curDi) s fun _ s' => d.Good total past spare s' := by
  rw [componentText]
  refine Returns.ite (fun _ => ?_) fun _ => Returns.pure (h.spend (Nat.le_succ _))
  refine (isNotEndOfMangledName_spec h).bind ?_
  rintro b s₁ ⟨hlooked, -⟩
  exact Returns.ite (fun _ => Returns.pure hlooked.toGood) fun _ => Returns.pure hlooked.toGood

omit hunits in
/-- A local counter that is not at the end leaves something to read. -/
theorem counter_inside {s₁ s₂ : State} {content rest : StdString}
    (hmeets : ∀ e ∈ s₂.log, d.Meets e)
    (hentry : ⟨.step .localCounter, s₁.currentIndex, s₁.isValid⟩ ∈ s₂.log)
    (hdigits : IsBase62 content) (hdrop : d.mangledName.drop s₁.currentIndex =
      MANGLE_COUNT_PREFIX :: (content ++ MANGLE_UNDERSCORE_PREFIX :: rest))
    (hindex : s₂.currentIndex = s₁.currentIndex + content.length + 2) :
    s₂.currentIndex < d.mangledName.length := by
  have hrest : rest ≠ [] := by
    rintro rfl
    exact hmeets _ hentry content hdigits hdrop
  have hpos := List.length_pos_iff.mpr hrest
  have hlen := congrArg List.length hdrop
  rw [List.length_drop, List.length_cons, List.length_append, List.length_cons] at hlen
  omega

/-- A component that begins with its name passes a character. -/
theorem namedComponent_spec {n : ℕ} (h : d.Good total past (spare + 6) s)
    (hlt : s.currentIndex < d.mangledName.length) (hfuel : d.left s + 1 < fuel) (hn : d.left s < n)
    (isClass isParamInit : Bool) :
    Returns (d.namedComponent byPrefix n isClass isParamInit) s fun _ s' =>
      d.Good total s.passed (spare + 50) s' := by
  have hrate := le_rate d
  rw [namedComponent]
  refine (componentName_spec h hlt hn).bind ?_
  intro curDi s₁ hgood
  have hlt₁ := left_lt hgood.toSound hlt
  refine Returns.get_bind (Returns.ite (fun hinside => ?_) fun _ => ?_)
  · have hspend : d.Good total s.passed (spare + 50 + 46 + 1) s₁ := hgood.spend (by omega)
    have hstep := hspend.step .localCounter
    have hleft : d.left (s₁.logged (.step .localCounter)) = d.left s₁ := rfl
    refine Returns.bind_eq (step_eq _ s₁) ((skipLocalCounter_spec (hstep.self.spend
      (Nat.le_refl _) : d.Good total _ (spare + 50 + 40 + 6) _) (by omega)).bind ?_)
    rintro _ s₂ ⟨hgood₂, hsubset, hindex⟩
    have hle := left_le hgood₂.toSound
    refine Returns.get_bind (Returns.ite (fun hvalid => ?_) fun _ => ?_)
    · have hread : (∀ e ∈ s₂.log, d.Meets e) → s₂.currentIndex < d.mangledName.length := by
        intro hmeets
        rcases hindex hvalid with hsame | ⟨content, rest, hdigits, hdrop, hindex₂⟩
        · rw [hsame]
          exact hinside
        · exact counter_inside hmeets (hsubset List.mem_cons_self) hdigits hdrop hindex₂
      have hgenerics : d.Good total (s₁.logged (.step .localCounter)) (spare + 50 + 22 + 18) s₂ :=
        hgood₂
      refine (componentGenerics_spec hunits hgenerics.self hread (by omega) (by omega) isClass
        curDi).bind ?_
      intro curDi₃ s₃ hgood₃
      have hle₃ := left_le hgood₃.toSound
      have hparameters : d.Good total s₂ (spare + 50 + 1 + 20) s₃ := hgood₃.spend (by omega)
      refine (componentParameters_spec hunits hparameters (by omega) (by omega) curDi₃).bind ?_
      rintro ⟨typeKind, curDi₄⟩ s₄ hgood₄
      refine (componentText_spec hgood₄ isParamInit curDi₄).bind ?_
      intro text s₅ hgood₅
      exact Returns.pure (hstep.since (hgood₂.since hgood₅))
    · have hreject : d.Good total (s₁.logged (.step .localCounter)) (spare + 50 + 1) s₂ :=
        hgood₂.spend (by omega)
      refine Returns.discard_bind (reject_le hreject.toSound) ?_
      intro _ s₃ hrejected
      exact Returns.pure (hstep.since hrejected.toGood)
  · exact Returns.pure (hgood.spend (by omega))

theorem extendComponent_spec {n : ℕ} (h : d.Good total past spare s)
    (hlt : s.currentIndex < d.mangledName.length) (hfuel : d.left s + 1 < fuel)
    (hn : d.left s < n) :
    Returns (d.extendComponent byPrefix n) s fun _ s' => d.Good total s.passed (spare + 50) s' := by
  have hrate := le_rate d
  have hpass := h.pass hlt
  have hleft := left_lt hpass.toSound hlt
  rw [extendComponent]
  have hqualified : d.Good total s.passed (spare + 50 + 23 + 2) s.passed := hpass.spend (by omega)
  refine Returns.bind_eq (advance_eq _ s) ((isQualifiedType_spec hqualified).bind ?_)
  rintro b s₁ ⟨hlooked, -⟩
  have hleft₁ : d.left s₁ = d.left s.passed :=
    congrArg (d.mangledName.length - ·) hlooked.index_eq
  refine Returns.ite (fun _ => ?_) fun _ => ?_
  · have hunit : d.Good total s₁ (spare + 50 + 13 + 10) s₁ := hlooked.self
    refine (demangleNextUnit_le hunits hunit (by omega)).bind ?_
    intro curDi s₂ hgood₂
    have hle₂ := left_le hgood₂.toSound
    have hfile : d.Good total s₂ (spare + 50 + 6 + 7) s₂ := hgood₂.self
    refine Returns.discard_bind (skipFileName_spec hfile (by omega)) ?_
    intro _ s₃ hgood₃
    have hle₃ := left_le hgood₃.toSound
    refine (skipLocalCounter_spec hgood₃ (by omega)).bind ?_
    rintro _ s₄ ⟨hgood₄, -⟩
    exact Returns.pure (hlooked.since (hgood₂.since hgood₄))
  · have hreject : d.Good total s.passed (spare + 50 + 1) s₁ := hlooked.spend (by omega)
    refine Returns.discard_bind (reject_le hreject.toSound) ?_
    intro _ s₂ hrejected
    exact Returns.pure hrejected.toGood

/-- A component passes a character. -/
theorem nextComponent_spec {n : ℕ} (h : d.Good total past (spare + 9) s)
    (hfuel : d.left s + 1 < fuel) (hn : d.left s < n) (isClass isParamInit : Bool) :
    Returns (d.nextComponent byPrefix n isClass isParamInit) s fun r s' =>
      d.Good total past spare s' ∧
        ∀ c, r = .component c → d.Good total past (spare + 9) s' ∧ d.left s' < d.left s := by
  have hrate := le_rate d
  rw [nextComponent]
  refine Returns.bind_eq (step_eq _ s) ((isNotEndOfMangledName_spec (h.step .iteration)).bind ?_)
  rintro b s₁ ⟨hlooked, hlt⟩
  have hindex : s₁.currentIndex = s.currentIndex := hlooked.index_eq
  refine Returns.ite (fun hb => ?_) fun _ => ?_
  · have hlt₁ : s₁.currentIndex < d.mangledName.length := hindex ▸ hlt hb
    refine (currentChar_lt hlooked.toGood hlt₁).bind ?_
    rintro ch s₂ ⟨hlooked₂, -⟩
    have hindex₂ : s₂.currentIndex = s.currentIndex := hlooked₂.index_eq.trans hindex
    have hlt₂ : s₂.currentIndex < d.mangledName.length := hindex₂ ▸ hlt hb
    have hleft : d.left s₂ = d.left s := congrArg (d.mangledName.length - ·) hindex₂
    have hdone : ∀ (r : NextComponent) (s' : State), d.Good total s₂.passed (spare + 50) s' →
        d.Good total past spare s' ∧
          ∀ c, r = .component c → d.Good total past (spare + 9) s' ∧ d.left s' < d.left s := by
      intro r s' hgood
      have hpast := hlooked₂.after hgood
      have hlt' := left_lt hgood.toSound hlt₂
      exact ⟨hpast.spend (by omega), fun _ _ => ⟨hpast.spend (by omega), by omega⟩⟩
    refine Returns.ite (fun _ => ?_) fun _ => Returns.ite (fun _ => ?_) fun _ => ?_
    · have hpass : d.Good total s₂.passed (spare + 50 + 3) s₂.passed :=
        (hlooked₂.pass hlt₂).spend (by omega)
      have hlt' := left_lt hpass.toSound hlt₂
      refine Returns.bind_eq (advance_eq _ s₂)
        ((demangleManglingNumber_le hpass (by omega)).bind ?_)
      intro lambdaID s₃ hgood
      exact Returns.pure (hdone _ s₃ hgood)
    · refine (extendComponent_spec hunits (hlooked₂.spend (Nat.le_add_right _ 6)) hlt₂ (by omega)
        (by omega)).mono ?_
      exact hdone
    · refine (namedComponent_spec hunits hlooked₂.toGood hlt₂ (by omega) (by omega) isClass
        isParamInit).mono ?_
      exact hdone
  · refine Returns.pure ⟨hlooked.spend (by omega), ?_⟩
    intro c hc
    cases hc

theorem nestedDeclsLoop_spec {callFuel n : ℕ} (h : d.Good total past (spare + 9) s)
    (hfuel : d.left s + 1 < fuel) (hcall : d.left s < callFuel) (hn : d.left s < n)
    (isClass isParamInit : Bool) (nested : Nested) :
    Returns (d.nestedDeclsLoop byPrefix callFuel isClass isParamInit n nested) s fun _ s' =>
      d.Good total past spare s' := by
  induction n generalizing past s nested with
  | zero => exact absurd hn (Nat.not_lt_zero _)
  | succ n ih =>
    rw [nestedDeclsLoop]
    refine (nextComponent_spec hunits h hfuel hcall isClass isParamInit).bind ?_
    rintro r s₁ ⟨hgood, hcomponent⟩
    cases r with
    | done => exact Returns.pure hgood
    | rejected => exact Returns.pure hgood
    | component c =>
      obtain ⟨hgood', hlt⟩ := hcomponent c rfl
      refine Returns.ite (fun _ => Returns.pure hgood) fun _ => ?_
      exact ih hgood' (by omega) (by omega) (by omega) _

theorem demangleNestedDecls_spec {n : ℕ} (h : d.Good total past (spare + 9) s)
    (hfuel : d.left s + 1 < fuel) (hn : d.left s < n) (isClass isParamInit : Bool) :
    Returns (d.demangleNestedDecls byPrefix n isClass isParamInit) s fun _ s' =>
      d.Good total past spare s' := by
  rw [demangleNestedDecls]
  refine (nestedDeclsLoop_spec hunits h hfuel hn hn isClass isParamInit {}).bind ?_
  intro r s₁ hgood
  cases r with
  | none => exact Returns.pure hgood
  | some nested => exact Returns.get_bind (Returns.pure hgood)

/-! ## Units -/

omit hunits in
theorem commonDeclPrefix_spec (h : d.Good total past (spare + 3) s)
    (hread : (∀ e ∈ s.log, d.Meets e) → s.currentIndex < d.mangledName.length) :
    Returns d.commonDeclPrefix s fun _ s' => d.Good total past spare s' := by
  rw [commonDeclPrefix]
  refine (currentChar_spec h hread).bind ?_
  rintro ch s₁ ⟨hlooked, -⟩
  refine Returns.ite (fun _ => ?_) fun _ => ?_
  · refine (skipString_le hlooked.toGood _).bind ?_
    intro _ s₂ hgood
    exact Returns.pure hgood
  · refine (skipString_le hlooked.toGood _).bind ?_
    intro _ s₂ hgood
    exact Returns.pure hgood

theorem demangleCommonDecl_spec {n : ℕ} (h : d.Good total past (spare + 31) s)
    (hread : (∀ e ∈ s.log, d.Meets e) → s.currentIndex < d.mangledName.length)
    (hfuel : d.left s + 1 < fuel) (hn : d.left s < n) (isClass : Bool) :
    Returns (d.demangleCommonDecl byPrefix n isClass) s fun _ s' => d.Good total past spare s' := by
  rw [demangleCommonDecl]
  have hself : d.Good total s (spare + 28 + 3) s := h.self
  refine (commonDeclPrefix_spec hself hread).bind ?_
  intro b s₁ hgood
  have hle := left_le hgood.toSound
  refine Returns.get_bind (Returns.ite (fun _ => ?_) fun _ => ?_)
  · have hpackage : d.Good total s₁ (spare + 10 + 18) s₁ := hgood.self
    refine (demanglePackageName_spec hpackage (by omega)).bind ?_
    intro pkgDi s₂ hgood₂
    have hle₂ := left_le hgood₂.toSound
    have hnested : d.Good total s₁ (spare + 1 + 9) s₂ := hgood₂
    refine (demangleNestedDecls_spec hunits hnested (by omega) (by omega) _ _).bind ?_
    intro nestedDi s₃ hgood₃
    have hpast := h.since (hgood.since hgood₃)
    refine Returns.get_bind (Returns.ite (fun _ => ?_) fun _ => ?_)
    · refine (reject_le hpast.toSound).mono ?_
      intro _ s₄ hrejected
      exact hrejected.toGood
    · exact Returns.pure (hpast.spend (Nat.le_succ _))
  · have hreject : d.Good total past (spare + 1) s₁ := (h.since hgood).spend (by omega)
    refine (reject_le hreject.toSound).mono ?_
    intro _ s₂ hrejected
    exact hrejected.toGood

omit hunits in
theorem skipClassEnd_spec (h : d.Good total past (spare + 3) s) :
    Returns d.skipClassEnd s fun _ s' => d.Good total past spare s' := by
  rw [skipClassEnd]
  refine (peekChar_spec h).bind ?_
  rintro c s₁ ⟨hlooked, -⟩
  refine Returns.ite (fun _ => skipChar_le hlooked.toGood _) fun _ => ?_
  exact Returns.pure (hlooked.spend (Nat.le_add_right _ _))

/-- A class reads a character behind its letter, which the condition on the step allows. -/
theorem demangleClass_spec (h : d.Good total past (spare + 8) s)
    (hlt : s.currentIndex < d.mangledName.length) (hfuel : d.left s < fuel) (typeKind : TypeKind) :
    Returns (d.demangleClass byPrefix fuel typeKind) s fun _ s' =>
      d.Sound total s.passed (spare + 31) s' := by
  have hrate := le_rate d
  have hstep := h.step .demangleClass
  have hpass : d.Good total (s.logged (.step .demangleClass)).passed (spare + 31 + 3 + 31)
      (s.logged (.step .demangleClass)).passed := (hstep.pass hlt).spend (by omega)
  have hleft : d.left (s.logged (.step .demangleClass)).passed + 1 = d.left s :=
    Nat.sub_add_cancel (Nat.sub_pos_of_lt hlt)
  rw [demangleClass]
  refine Returns.bind_eq (step_eq _ s) (Returns.bind_eq (advance_eq _ _)
    ((demangleCommonDecl_spec hunits hpass ?_ (by omega) (by omega) true).bind ?_))
  · intro hmeets
    exact hmeets _ List.mem_cons_self
  · intro di s₁ hgood
    refine (skipClassEnd_spec hgood).bind ?_
    intro _ s₂ hgood₂
    refine Returns.pure (hgood₂.toSound.weaken hgood₂.past_le ?_ fun _ => Nat.le_refl _)
    exact fun _ he => hgood₂.past_subset (List.mem_cons_of_mem _ he)

/-- The function types, whose prefix has two characters. -/
theorem demangleFunctionType_spec (h : d.Good total past (spare + 7) s)
    (hlt : s.currentIndex < d.mangledName.length) (hfuel : d.left s < fuel) (ch : Char)
    (pattern : StdString) :
    Returns (d.demangleFunctionType byPrefix fuel (ch :: pattern)) s fun _ s' =>
      d.Sound total s.passed (spare + 31) s' := by
  have hrate := le_rate d
  rw [demangleFunctionType]
  have hskip : d.Good total past (spare + 5 + 2) s := h
  refine (skipString_lt hskip hlt ch pattern).bind ?_
  intro _ s₁ hgood
  have hleft := left_lt hgood.toSound hlt
  have hunit : d.Good total s₁ (spare + 31 + 21 + 10) s₁ := hgood.self.spend (by omega)
  refine (demangleNextUnit_le hunits hunit (by omega)).bind ?_
  intro returnType s₂ hgood₂
  have hle₂ := left_le hgood₂.toSound
  have hargs : d.Good total s₁ (spare + 31 + 2 + 19) s₂ := hgood₂
  refine (demangleArgTypes_spec hunits hargs (by omega) (by omega) _ _).bind ?_
  intro args s₃ hgood₃
  refine (skipChar_le hgood₃ END).bind ?_
  intro _ s₄ hgood₄
  exact Returns.pure (hgood.since hgood₄).toSound

theorem demangleTuple_spec (h : d.Good total past (spare + 7) s)
    (hlt : s.currentIndex < d.mangledName.length) (hfuel : d.left s < fuel) :
    Returns (d.demangleTuple byPrefix fuel) s fun _ s' =>
      d.Sound total s.passed (spare + 31) s' := by
  have hrate := le_rate d
  rw [demangleTuple]
  have hskip : d.Good total past (spare + 5 + 2) s := h
  refine (skipChar_lt hskip hlt _).bind ?_
  rintro _ s₁ ⟨hgood, -⟩
  have hleft := left_lt hgood.toSound hlt
  have hnumber : d.Good total s₁ (spare + 31 + 16 + 3) s₁ := hgood.self.spend (by omega)
  refine Returns.discard_bind (demangleManglingNumber_le hnumber (by omega)) ?_
  intro _ s₂ hgood₂
  have hle₂ := left_le hgood₂.toSound
  have hgeneric : d.Good total s₁ (spare + 31 + 2 + 14) s₂ := hgood₂
  refine (demangleGenericTypes_spec hunits hgeneric (by omega) (by omega)).bind ?_
  intro generic s₃ hgood₃
  refine (skipChar_le hgood₃ END).bind ?_
  intro _ s₄ hgood₄
  exact Returns.pure (hgood.since hgood₄).toSound

omit hunits in
/-- The brackets take as many rounds as there are dimensions. -/
theorem arrayBrackets_spec {dim : ℕ} (h : d.Good total past (spare + dim) s)
    (brackets : StdString) :
    Returns (arrayBrackets dim brackets) s fun _ s' => d.Good total past spare s' ∧
      s'.currentIndex = s.currentIndex := by
  induction dim generalizing s brackets with
  | zero => exact Returns.pure ⟨h, rfl⟩
  | succ dim ih =>
    rw [arrayBrackets]
    exact Returns.bind_eq (step_eq _ s) (ih (h.step .iteration) _)

omit hunits in
/-- The rounds are as many as the number of the dimensions says. -/
theorem length_log_arrayBrackets (dim : ℕ) (brackets : StdString) (s : State) :
    Returns (arrayBrackets dim brackets) s fun _ s' => s'.log.length = s.log.length + dim := by
  induction dim generalizing s brackets with
  | zero => exact Returns.pure rfl
  | succ dim ih =>
    rw [arrayBrackets]
    refine Returns.bind_eq (step_eq _ s) ((ih _ _).mono ?_)
    intro _ s' hlen
    rw [hlen, State.logged, List.length_cons]
    omega

/-- An array, whose dimensions the condition on the step bounds. -/
theorem demangleRawArray_spec (h : d.Good total past (spare + 8) s)
    (hlt : s.currentIndex < d.mangledName.length) (hfuel : d.left s < fuel) :
    Returns (d.demangleRawArray byPrefix fuel) s fun _ s' =>
      d.Sound total s.passed (spare + 31) s' := by
  have hrate := le_rate d
  have hstep : d.Good total past (spare + 5 + 2) (s.logged (.step .demangleRawArray)) :=
    h.step .demangleRawArray
  rw [demangleRawArray]
  refine Returns.bind_eq (step_eq _ s) ((skipChar_lt hstep hlt _).bind ?_)
  rintro _ s₁ ⟨hgood, hindex⟩
  have hleft : d.left s₁ < d.left (s.logged (.step .demangleRawArray)) :=
    left_lt hgood.toSound hlt
  have hlogged : d.left (s.logged (.step .demangleRawArray)) = d.left s := rfl
  have hnumber : d.Good total s₁ (spare + 31 + 10 + d.mangledName.length + 3) s₁ :=
    hgood.self.spend (by omega)
  refine (demangleManglingNumber_spec hnumber (by omega)).bind ?_
  intro dim s₂ hdim
  have hbrackets : d.Good total s₁ (spare + 31 + 10 + dim) s₂ := by
    rcases hdim with ⟨rfl, hrejected⟩ | ⟨content, rest, hdigits, rfl, hdrop, -, hgood₂⟩
    · exact hrejected.spend (by omega)
    · refine hgood₂.weaken hgood₂.past_le hgood₂.past_subset fun hmeets => ?_
      have hlt₁ : s₁.currentIndex < d.mangledName.length := by
        by_contra hge
        rw [List.drop_eq_nil_of_le (Nat.le_of_not_lt hge)] at hdrop
        exact List.append_ne_nil_of_right_ne_nil _ (List.cons_ne_nil _ _) hdrop.symm
      have hindex₁ : s₁.currentIndex = s.currentIndex + 1 := hindex (hgood.isValid_of_lt hlt₁)
      rw [hindex₁] at hdrop
      have hentry := hmeets _ (hgood₂.past_subset (hgood.past_subset List.mem_cons_self))
      have hle : manglingNumber content ≤ d.mangledName.length :=
        hentry content rest hdigits hdrop
      omega
  refine (arrayBrackets_spec hbrackets []).bind ?_
  rintro constraints s₃ ⟨hgood₃, -⟩
  have hle₃ := left_le hgood₃.toSound
  refine (demangleNextUnit_le hunits hgood₃ (by omega)).bind ?_
  intro element s₄ hgood₄
  have hpast := hgood.since hgood₄
  refine Returns.pure (hpast.toSound.weaken hpast.past_le ?_ fun _ => Nat.le_refl _)
  exact fun _ he => hpast.past_subset (List.mem_cons_of_mem _ he)

theorem demangleVArray_spec (h : d.Good total past (spare + 7) s)
    (hlt : s.currentIndex < d.mangledName.length) (hfuel : d.left s < fuel) :
    Returns (d.demangleVArray byPrefix fuel) s fun _ s' =>
      d.Sound total s.passed (spare + 31) s' := by
  have hrate := le_rate d
  rw [demangleVArray]
  have hskip : d.Good total past (spare + 5 + 2) s := h
  refine (skipChar_lt hskip hlt _).bind ?_
  rintro _ s₁ ⟨hgood, -⟩
  have hleft := left_lt hgood.toSound hlt
  have hnumber : d.Good total s₁ (spare + 31 + 14 + 3) s₁ := hgood.self.spend (by omega)
  refine (demangleManglingNumber_le hnumber (by omega)).bind ?_
  intro num s₂ hgood₂
  have hle₂ := left_le hgood₂.toSound
  refine (demangleGenericTypes_spec hunits hgood₂ (by omega) (by omega)).bind ?_
  intro generic s₃ hgood₃
  exact Returns.pure (hgood.since hgood₃).toSound

/-- A type that is given up is invalid where the cursor is. -/
theorem demangleType_spec (h : d.Good total past (spare + 13) s) (hfuel : d.left s + 1 < fuel) :
    Returns (d.demangleType byPrefix) s fun _ s' => d.Sound total past spare s' := by
  have hinvalid : ∀ {s₁ : State}, d.Good total past (spare + 1) s₁ →
      Returns (do invalidate; return ({ type := .GENERIC_TYPES } : DemangleInfo)) s₁
        fun _ s' => d.Sound total past spare s' :=
    fun hgood => ⟨_, _, rfl, hgood.toSound.invalidated⟩
  rw [demangleType]
  refine (isQualifiedType_spec h).bind ?_
  rintro b s₁ ⟨hlooked, -⟩
  have hleft : d.left s₁ = d.left s := congrArg (d.mangledName.length - ·) hlooked.index_eq
  refine Returns.ite (fun _ => ?_) fun _ => hinvalid (hlooked.spend (by omega))
  have hunit : d.Good total past (spare + 1 + 10) s₁ := hlooked.toGood
  refine (demangleNextUnit_le hunits hunit (by omega)).bind ?_
  intro curDi s₂ hgood
  refine Returns.get_bind (Returns.ite (fun _ => ?_) fun _ => hinvalid hgood)
  exact Returns.pure (hgood.spend (Nat.le_succ _)).toSound

theorem demangleCPointer_spec (h : d.Good total past (spare + 7) s)
    (hlt : s.currentIndex < d.mangledName.length) (hfuel : d.left s < fuel) :
    Returns (d.demangleCPointer byPrefix) s fun _ s' =>
      d.Sound total s.passed (spare + 31) s' := by
  have hrate := le_rate d
  rw [demangleCPointer]
  have hskip : d.Good total past (spare + 5 + 2) s := h
  refine (skipChar_lt hskip hlt _).bind ?_
  rintro _ s₁ ⟨hgood, -⟩
  have hleft := left_lt hgood.toSound hlt
  have htype : d.Good total s.passed (spare + 31 + 13) s₁ := hgood.spend (by omega)
  refine (demangleType_spec hunits htype (by omega)).bind ?_
  intro generic s₂ hsound
  exact Returns.pure hsound

end

/-! ## Units without other ones -/

theorem demanglePrimitive_spec (h : d.Good total past (spare + 7) s)
    (hlt : s.currentIndex < d.mangledName.length) :
    Returns d.demanglePrimitive s fun _ s' => d.Sound total s.passed (spare + 31) s' := by
  have hrate := le_rate d
  rw [demanglePrimitive]
  refine Returns.get_bind (Returns.ite (fun _ => ?_) fun hge => absurd hlt hge)
  refine (currentChar_lt h hlt).bind ?_
  rintro ch s₁ ⟨hlooked, -⟩
  refine (matchForward_spec hlooked.toGood _).bind ?_
  intro b s₂ hlooked₂
  have hlooked' : d.Looked total past (spare + 5) s s₂ := hlooked.trans hlooked₂
  have hlt₂ : s₂.currentIndex < d.mangledName.length := hlooked'.index_eq ▸ hlt
  have hskip : d.Good total past (spare + 3 + 2) s₂ := hlooked'.toGood
  have hpassed : ∀ {spare' : ℕ} {s' : State}, spare + 31 ≤ spare' →
      d.Good total s₂.passed spare' s' → d.Sound total s.passed (spare + 31) s' := by
    intro spare' s' hspare hgood
    refine hgood.toSound.weaken ?_ (fun _ he => hgood.past_subset (hlooked'.subset he))
      fun _ => hspare
    have hle : s₂.currentIndex + 1 ≤ s'.currentIndex := hgood.past_le
    rwa [hlooked'.index_eq] at hle
  refine Returns.ite (fun _ => ?_) fun _ => Returns.ite (fun _ => ?_) fun _ => ?_
  · refine (skipString_lt hskip hlt₂ 'D' ['h']).bind ?_
    intro _ s₃ hgood
    exact Returns.pure (hpassed (by omega) hgood)
  · refine (reject_lt (hlooked'.spend (by omega) : d.Good total past (spare + 1) s₂).toSound
      hlt₂).mono ?_
    intro _ s₃ hrejected
    exact hpassed (by omega) hrejected.toGood
  · refine (skipChar_lt hskip hlt₂ ch).bind ?_
    rintro _ s₃ ⟨hgood, -⟩
    exact Returns.pure (hpassed (by omega) hgood)

theorem demangleCStringType_spec (h : d.Good total past (spare + 7) s)
    (hlt : s.currentIndex < d.mangledName.length) :
    Returns d.demangleCStringType s fun _ s' => d.Sound total s.passed (spare + 31) s' := by
  have hrate := le_rate d
  rw [demangleCStringType]
  have hskip : d.Good total past (spare + 5 + 2) s := h
  refine (skipChar_lt hskip hlt _).bind ?_
  rintro _ s₁ ⟨hgood, -⟩
  exact Returns.get_bind (Returns.pure (hgood.spend (by omega)).toSound)

theorem demangleGenericType_spec {fuel : ℕ} (h : d.Good total past (spare + 7) s)
    (hlt : s.currentIndex < d.mangledName.length) (hfuel : d.left s < fuel) :
    Returns (d.demangleGenericType fuel) s fun _ s' =>
      d.Sound total s.passed (spare + 31) s' := by
  have hrate := le_rate d
  rw [demangleGenericType]
  have hskip : d.Good total past (spare + 5 + 2) s := h
  refine (skipChar_lt hskip hlt _).bind ?_
  rintro _ s₁ ⟨hgood, -⟩
  have hleft := left_lt hgood.toSound hlt
  have hnumber : d.Good total s.passed (spare + 31 + 1 + 3) s₁ := hgood.spend (by omega)
  refine (demangleManglingNumber_le hnumber (by omega)).bind ?_
  intro gNumber s₂ hgood₂
  have hsound : d.Sound total s.passed (spare + 31) s₂ := (hgood₂.spend (Nat.le_succ _)).toSound
  refine Returns.ite (fun _ => Returns.get_bind (Returns.pure hsound)) fun _ => ?_
  cases d.genericVec[gNumber]? with
  | some name => exact Returns.get_bind (Returns.pure hsound)
  | none => exact ⟨_, _, rfl, hgood₂.toSound.invalidated⟩

theorem demangleName_spec {fuel : ℕ} (h : d.Good total past (spare + 7) s)
    (hlt : s.currentIndex < d.mangledName.length) (hfuel : d.left s < fuel) (ch : Char) :
    Returns (d.demangleName fuel ch) s fun _ s' => d.Sound total s.passed (spare + 31) s' := by
  have hrate := le_rate d
  rw [demangleName]
  refine Returns.ite (fun _ => ?_) fun _ => Returns.ite (fun _ => demanglePrimitive_spec h hlt)
    fun _ => ?_
  · have hname : d.Good total past (spare + 2 + 5) s := h
    refine (demangleStringName_lt hname hlt hfuel).bind ?_
    rintro name s₁ ⟨-, -, hgood⟩
    exact Returns.get_bind (Returns.pure (hgood.spend (by omega)).toSound)
  · refine (isOperatorName_spec h).bind ?_
    rintro b s₁ ⟨hlooked, hid⟩
    have hindex := hlooked.index_eq
    refine Returns.ite (fun hb => ?_) fun _ => ?_
    · have hnext : s₁.currentIndex + 2 ≤ d.mangledName.length := hindex ▸ Nat.le_of_lt (hid hb)
      refine Returns.bind_eq (ahead_eq _ s₁)
        (Returns.get_bind (Returns.bind_eq (advance_eq _ s₁) (Returns.pure ?_)))
      refine (hlooked.advance Nat.two_pos hnext).toSound.weaken ?_ hlooked.subset fun _ => by omega
      show s.currentIndex + 1 ≤ s₁.currentIndex + 2
      omega
    · have hlt₁ : s₁.currentIndex < d.mangledName.length := hindex ▸ hlt
      refine (reject_lt (hlooked.spend (by omega) : d.Good total past (spare + 1) s₁).toSound
        hlt₁).mono ?_
      intro _ s₂ hrejected
      refine hrejected.toSound.weaken ?_ (fun _ he => hrejected.past_subset (hlooked.subset he))
        fun _ => by omega
      have hle : s₁.currentIndex + 1 ≤ s₂.currentIndex := hrejected.past_le
      rwa [hindex] at hle

/-! ## The recursion -/

section

variable {byPrefix : Routine DemangleInfo} {fuel : ℕ} (hunits : d.ReadsUnits total byPrefix fuel)

include hunits

theorem demangleFunctionPrefix_spec (h : d.Good total past (spare + 8) s)
    (hlt : s.currentIndex < d.mangledName.length) (hfuel : d.left s < fuel) :
    Returns (d.demangleFunctionPrefix byPrefix fuel) s fun _ s' =>
      d.Sound total s.passed (spare + 31) s' := by
  have hrate := le_rate d
  rw [demangleFunctionPrefix]
  refine Returns.get_bind (Returns.ite (fun hnext => ?_) fun _ => ?_)
  · refine (charAt_spec h fun _ => hnext).bind ?_
    rintro ch s₁ ⟨hlooked, -⟩
    have hindex := hlooked.index_eq
    have hlt₁ : s₁.currentIndex < d.mangledName.length := hindex ▸ hlt
    have hleft : d.left s₁ = d.left s := congrArg (d.mangledName.length - ·) hindex
    have hpassed : ∀ {s' : State}, d.Sound total s₁.passed (spare + 31) s' →
        d.Sound total s.passed (spare + 31) s' := by
      intro s' hsound
      refine hsound.weaken ?_ (fun _ he => hsound.past_subset (hlooked.subset he)) fun _ =>
        Nat.le_refl _
      have hle : s₁.currentIndex + 1 ≤ s'.currentIndex := hsound.past_le
      rwa [hindex] at hle
    refine Returns.ite (fun _ => ?_) fun _ => Returns.ite (fun _ => ?_) fun _ => ?_
    · refine (demangleFunctionType_spec hunits hlooked.toGood hlt₁ (hleft ▸ hfuel) 'F' ['0']).mono
        fun _ s' hsound => ?_
      exact hpassed hsound
    · refine (demangleFunctionType_spec hunits hlooked.toGood hlt₁ (hleft ▸ hfuel) 'F' ['C']).mono
        fun _ s' hsound => ?_
      exact hpassed hsound
    · refine (reject_lt (hlooked.spend (by omega) : d.Good total past (spare + 1) s₁).toSound
        hlt₁).mono ?_
      intro _ s' hrejected
      exact hpassed (hrejected.spend (by omega)).toSound
  · refine (reject_lt (h.spend (by omega) : d.Good total past (spare + 1) s).toSound hlt).mono ?_
    intro _ s' hrejected
    exact (hrejected.spend (by omega)).toSound

theorem demangleUnit_spec (h : d.Good total past (spare + 8) s)
    (hlt : s.currentIndex < d.mangledName.length) (hfuel : d.left s < fuel) (ch : Char) :
    Returns (d.demangleUnit byPrefix fuel ch) s fun _ s' =>
      d.Sound total s.passed (spare + 31) s' := by
  have hrate := le_rate d
  have h' : d.Good total past (spare + 7) s := h.spend (Nat.le_succ _)
  unfold demangleUnit
  split
  · exact demangleClass_spec hunits h hlt hfuel .CLASS
  · exact demangleClass_spec hunits h hlt hfuel .STRUCT
  · exact demangleFunctionPrefix_spec hunits h hlt hfuel
  · exact demangleClass_spec hunits h hlt hfuel .ENUM
  · exact demangleTuple_spec hunits h' hlt hfuel
  · exact demangleCPointer_spec hunits h' hlt hfuel
  · refine (reject_lt (h.spend (by omega) : d.Good total past (spare + 1) s).toSound hlt).mono ?_
    intro _ s' hrejected
    exact (hrejected.spend (by omega)).toSound
  · exact demangleRawArray_spec hunits h hlt hfuel
  · exact demangleVArray_spec hunits h' hlt hfuel
  · exact demangleCStringType_spec h' hlt
  · exact demangleGenericType_spec h' hlt hfuel
  · exact demangleName_spec h' hlt hfuel ch

end

/-- Units are read with any fuel: what one with more of it calls has passed a character. -/
theorem readsUnits (d : Demangler) (total fuel : ℕ) :
    d.ReadsUnits total (d.demangleByPrefix fuel) fuel := by
  induction fuel with
  | zero => exact ⟨fun _ _ hfuel => absurd hfuel (Nat.not_lt_zero _),
      fun _ _ hfuel => absurd hfuel (Nat.not_lt_zero _)⟩
  | succ fuel ih =>
    refine ⟨fun {past spare s} h hlt hfuel => ?_, fun {past spare s} h hend _ => ?_⟩
    · have hstep : d.Good total past (spare + 8 + 1) (s.logged (.step .demangleByPrefix)) :=
        h.step .demangleByPrefix
      rw [demangleByPrefix]
      refine Returns.bind_eq (step_eq _ s)
        (Returns.get_bind (Returns.ite (fun _ => ?_) fun hge => absurd hlt hge))
      refine (currentChar_lt hstep hlt).bind ?_
      rintro ch s₁ ⟨hlooked, -⟩
      have hindex : s₁.currentIndex = s.currentIndex := hlooked.index_eq
      have hleft : d.left s₁ = d.left s := congrArg (d.mangledName.length - ·) hindex
      refine (demangleUnit_spec ih hlooked.toGood (hindex ▸ hlt) (by omega) ch).mono ?_
      intro di s' hsound
      refine hsound.weaken ?_ (fun _ he => hsound.past_subset
        (hlooked.subset (List.mem_cons_of_mem _ he))) fun _ => Nat.le_refl _
      have hle : s₁.currentIndex + 1 ≤ s'.currentIndex := hsound.past_le
      rwa [hindex] at hle
    · have hstep := h.step .demangleByPrefix
      rw [demangleByPrefix]
      refine Returns.bind_eq (step_eq _ s)
        (Returns.get_bind (Returns.ite (fun hlt => absurd hend (Nat.ne_of_lt hlt)) fun _ => ?_))
      exact reject_le hstep.toSound

/-! ## Runs -/

/-- The beginning of a run in the name or at its end. -/
theorem good_start {index : ℕ} (hindex : index ≤ d.mangledName.length) :
    d.Good (d.rate * (d.mangledName.length - index) + 10) (start index) 10 (start index) where
  past_le := Nat.le_refl _
  past_subset := List.Subset.refl _
  index_le := hindex
  sticky := List.Pairwise.nil
  rejected := fun e he => absurd he List.not_mem_nil
  subtracted := fun e he => absurd he List.not_mem_nil
  read := fun _ e he => absurd he List.not_mem_nil
  within := fun _ => by
    show 0 + d.rate * (d.mangledName.length - index) + 10 ≤ _
    omega
  closed := fun hvalid => Bool.noConfusion hvalid

/-- A run that begins behind the end of the name rejects at once. -/
theorem demangleByPrefix_behind (d : Demangler) {index : ℕ}
    (hbehind : d.mangledName.length < index) (fuel : ℕ) :
    ∃ di s', d.demangleByPrefix (fuel + 1) (start index) = some (di, s') ∧
      (s'.log.Pairwise fun later earlier => earlier.event = .rejected → later.isValid = false) ∧
      (∀ e ∈ s'.log, e.event = .rejected → s'.isValid = false) ∧
      (∀ e ∈ s'.log, ∀ k, e.event = .subtract k → k ≤ d.mangledName.length) ∧
      ((∀ e ∈ s'.log, d.Meets e) →
        (∀ e ∈ s'.log, ∀ k, e.event = .read k → k < d.mangledName.length) ∧
          s'.log.length ≤ (d.mangledName.length + 200) * (d.mangledName.length - index) + 10) := by
  have hreject : Returns (d.demangleByPrefix (fuel + 1)) (start index) fun _ s' =>
      ∃ rejected called : Entry, s'.log = [rejected, called] ∧ rejected.event = .rejected ∧
        rejected.isValid = false ∧ called.event = .step .demangleByPrefix ∧ s'.isValid = false := by
    rw [demangleByPrefix]
    refine Returns.bind_eq (step_eq _ _) (Returns.get_bind (Returns.ite ?_ fun _ => ?_))
    · exact fun hlt => absurd hlt (Nat.not_lt_of_gt hbehind)
    rw [reject]
    refine Returns.get_bind (Returns.ite (fun hend => Bool.noConfusion hend.2) fun _ => ?_)
    exact ⟨d.dumpDi, _, rfl, _, _, rfl, rfl, rfl, rfl, rfl⟩
  obtain ⟨di, s', heq, rejected, called, hlog, hrejected, hflag, hcalled, hvalid⟩ := hreject
  refine ⟨di, s', heq, ?_⟩
  rw [hlog]
  refine ⟨?_, fun _ _ _ => hvalid, ?_, fun _ => ⟨?_, ?_⟩⟩
  · exact List.pairwise_cons.mpr ⟨fun _ _ _ => hflag, List.pairwise_singleton _ _⟩
  · simp [hrejected, hcalled]
  · simp [hrejected, hcalled]
  · show 2 ≤ _
    omega

/-- The run from any place of any name returns when it has fuel for each character.  Behind a
rejection the flag is not set any more, and what is subtracted from the length is at most the
length.  If the steps meet the conditions, every character that is read is one of the name, and the
log has at most a number of entries that the length of the name bounds. -/
theorem demangleByPrefix_total (d : Demangler) (index fuel : ℕ)
    (hfuel : d.mangledName.length - index + 1 < fuel) :
    ∃ di s', d.demangleByPrefix fuel (start index) = some (di, s') ∧
      (s'.log.Pairwise fun later earlier => earlier.event = .rejected → later.isValid = false) ∧
      (∀ e ∈ s'.log, e.event = .rejected → s'.isValid = false) ∧
      (∀ e ∈ s'.log, ∀ k, e.event = .subtract k → k ≤ d.mangledName.length) ∧
      ((∀ e ∈ s'.log, d.Meets e) →
        (∀ e ∈ s'.log, ∀ k, e.event = .read k → k < d.mangledName.length) ∧
          s'.log.length ≤ (d.mangledName.length + 200) * (d.mangledName.length - index) + 10) := by
  rcases Nat.lt_or_ge d.mangledName.length index with hbehind | hindex
  · cases fuel with
    | zero => exact absurd hfuel (Nat.not_lt_zero _)
    | succ fuel => exact demangleByPrefix_behind d hbehind fuel
  · have hgood := good_start hindex
    have hreturns : Returns (d.demangleByPrefix fuel) (start index) fun _ s' =>
        d.Sound (d.rate * (d.mangledName.length - index) + 10) (start index) 0 s' := by
      rcases Nat.lt_or_eq_of_le hindex with hlt | hend
      · refine ((readsUnits d _ fuel).inside hgood hlt hfuel).mono ?_
        intro _ s' hsound
        exact hsound.weaken (Nat.le_of_succ_le hsound.past_le) hsound.past_subset fun _ =>
          Nat.zero_le _
      · have hspend : d.Good _ (start index) (0 + 2) (start index) := hgood.spend (by omega)
        refine ((readsUnits d _ fuel).atEnd hspend hend hfuel).mono ?_
        intro _ s' hrejected
        exact hrejected.toSound
    obtain ⟨di, s', heq, hsound⟩ := hreturns
    refine ⟨di, s', heq, hsound.sticky, hsound.rejected, hsound.subtracted, fun hmeets =>
      ⟨hsound.read hmeets, ?_⟩⟩
    have hwithin := hsound.within hmeets
    have hrate : d.rate = d.mangledName.length + 200 := rfl
    rw [hrate] at hwithin
    omega

/-- The letter of a primitive type is all that is read. -/
theorem demangleByPrefix_total_primitive : ∃ di s',
    Demangler.demangleByPrefix { mangledName := ['i'] } 3 (start 0) = some (di, s') ∧
      s'.currentIndex = 1 ∧ ∀ e ∈ s'.log, ∀ k, e.event = .read k → k < 1 := by
  let d : Demangler := { mangledName := ['i'] }
  have hrun : (d.demangleByPrefix 3 (start 0)).map Prod.snd =
      some ⟨1, true, [⟨.read 0, 0, true⟩, ⟨.subtract 0, 0, true⟩, ⟨.read 0, 0, true⟩,
        ⟨.read 0, 0, true⟩, ⟨.step .demangleByPrefix, 0, true⟩]⟩ := by
    decide
  obtain ⟨di, s', heq, -, -, -, hmeets⟩ := demangleByPrefix_total d 0 3 (by decide)
  rw [heq] at hrun
  have hstate := Option.some.inj hrun
  refine ⟨di, s', heq, congrArg State.currentIndex hstate, (hmeets ?_).1⟩
  rw [show s' = _ from hstate]
  simp [Meets]

/-- A class whose letter is the last character is read behind the end. -/
theorem reads_behind_classLetter : ¬ ∀ (d : Demangler) (index fuel : ℕ) (di : DemangleInfo)
    (s' : State), d.demangleByPrefix fuel (start index) = some (di, s') →
      ∀ e ∈ s'.log, ∀ k, e.event = .read k → k < d.mangledName.length := by
  intro h
  let d : Demangler := { mangledName := ['C'] }
  have hrun : (d.demangleByPrefix 4 (start 0)).map Prod.snd =
      some ⟨1, false, [⟨.rejected, 1, false⟩, ⟨.read 1, 1, true⟩, ⟨.step .demangleClass, 0, true⟩,
        ⟨.read 0, 0, true⟩, ⟨.step .demangleByPrefix, 0, true⟩]⟩ := by
    decide
  obtain ⟨⟨di, s'⟩, heq, hstate⟩ := Option.map_eq_some_iff.mp hrun
  have hread : (⟨.read 1, 1, true⟩ : Entry) ∈ s'.log := by
    rw [show s' = _ from hstate]
    simp
  exact absurd (h d 0 4 di s' heq _ hread 1 rfl) (Nat.lt_irrefl 1)

end Demangler

end Cangjie.Demangle
