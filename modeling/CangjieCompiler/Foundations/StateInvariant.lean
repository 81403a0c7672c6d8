import Mathlib.Data.List.Basic

/-!
# Invariants of programs with a state

A program reads and changes a state, and may fail.  An invariant that its parts keep is kept by the
program, and a program whose parts return returns.
-/

namespace Cangjie

/-- Programs with a state that may fail. -/
abbrev Prog (σ α : Type) := StateT σ Option α

variable {σ α β : Type}

/-- Reading from the state. -/
def Prog.reads (f : σ → Option α) : Prog σ α := fun s => (f s).map fun a => (a, s)

lemma Prog.bind_eq_some {x : Prog σ α} {f : α → Prog σ β} {s : σ} {r : β × σ}
    (h : (x >>= f) s = some r) : ∃ a s', x s = some (a, s') ∧ f a s' = some r := by
  obtain ⟨⟨a, s'⟩, hx, hf⟩ := Option.bind_eq_some_iff.mp h
  exact ⟨a, s', hx, hf⟩

/-- What follows a program that returns runs on what it returns. -/
lemma Prog.bind_eq {x : Prog σ α} {f : α → Prog σ β} {s s' : σ} {a : α} (h : x s = some (a, s')) :
    (x >>= f) s = f a s' := by
  have hbind : (x >>= f) s = (x s).bind fun r => f r.1 r.2 := rfl
  rw [hbind, h, Option.bind_some]

lemma Prog.reads_bind_eq_some {f : σ → Option α} {g : α → Prog σ β} {s : σ} {r : β × σ}
    (h : (Prog.reads f >>= g) s = some r) : ∃ a, f s = some a ∧ g a s = some r := by
  obtain ⟨a, s', hread, hg⟩ := Prog.bind_eq_some h
  obtain ⟨b, hb, heq⟩ := Option.map_eq_some_iff.mp hread
  obtain ⟨rfl, rfl⟩ := Prod.ext_iff.mp heq
  exact ⟨b, hb, hg⟩

/-- A loop whose steps leave the state as it is does so too. -/
lemma Prog.forM_state {f : α → Prog σ PUnit} {as : List α} {s s' : σ} {u : PUnit}
    (hf : ∀ a ∈ as, ∀ u s', f a s = some (u, s') → s' = s) (h : as.forM f s = some (u, s')) :
    s' = s := by
  induction as with
  | nil =>
    cases h
    rfl
  | cons a as ih =>
    obtain ⟨u', s₁, hfirst, hrest⟩ := Prog.bind_eq_some h
    rw [hf a List.mem_cons_self u' s₁ hfirst] at hrest
    exact ih (fun b hb => hf b (List.mem_cons_of_mem a hb)) hrest

/-- A program keeps an invariant in every run that does not fail. -/
def Keeps (I : σ → Prop) (x : Prog σ α) : Prop :=
  ∀ s a s', I s → x s = some (a, s') → I s'

namespace Keeps

variable {I : σ → Prop}

lemma pure (a : α) : Keeps I (pure a : Prog σ α) := by
  intro s b s' hs h
  cases h
  exact hs

lemma failure : Keeps I (failure : Prog σ α) := by
  intro s a s' _ h
  cases h

/-- A program that reads the state does not change it. -/
lemma reads (f : σ → Option α) : Keeps I (Prog.reads f) := by
  intro s a s' hs h
  obtain ⟨b, -, hb⟩ := Option.map_eq_some_iff.mp h
  cases hb
  exact hs

lemma bind {x : Prog σ α} {f : α → Prog σ β} (hx : Keeps I x) (hf : ∀ a, Keeps I (f a)) :
    Keeps I (x >>= f) := by
  intro s b s' hs h
  obtain ⟨⟨a, s₁⟩, hfirst, hrest⟩ := Option.bind_eq_some_iff.mp h
  exact hf a s₁ b s' (hx s a s₁ hs hfirst) hrest

lemma mapM {f : α → Prog σ β} (hf : ∀ a, Keeps I (f a)) (as : List α) :
    Keeps I (as.mapM f) := by
  induction as with
  | nil =>
    rw [List.mapM_nil]
    exact Keeps.pure []
  | cons a as ih =>
    rw [List.mapM_cons]
    exact (hf a).bind fun b => ih.bind fun bs => Keeps.pure (b :: bs)

lemma ite {c : Prop} [Decidable c] {x y : Prog σ α} (hx : Keeps I x) (hy : Keeps I y) :
    Keeps I (if c then x else y) := by
  split
  · exact hx
  · exact hy

end Keeps

/-! ## Programs that return -/

/-- A program returns from a state, with a fact about its result and the state after it. -/
def Returns (x : Prog σ α) (s : σ) (Q : α → σ → Prop) : Prop :=
  ∃ a s', x s = some (a, s') ∧ Q a s'

namespace Returns

variable {s : σ} {P Q : α → σ → Prop} {R : β → σ → Prop}

lemma pure {a : α} (h : Q a s) : Returns (pure a) s Q := ⟨a, s, rfl, h⟩

lemma mono {x : Prog σ α} (h : Returns x s P) (hPQ : ∀ a s', P a s' → Q a s') : Returns x s Q := by
  obtain ⟨a, s', hx, hP⟩ := h
  exact ⟨a, s', hx, hPQ a s' hP⟩

lemma bind {x : Prog σ α} {f : α → Prog σ β} (hx : Returns x s P)
    (hf : ∀ a s', P a s' → Returns (f a) s' R) : Returns (x >>= f) s R := by
  obtain ⟨a, s', hx, hP⟩ := hx
  obtain ⟨b, s'', hb, hR⟩ := hf a s' hP
  exact ⟨b, s'', (Prog.bind_eq hx).trans hb, hR⟩

lemma bind_eq {x : Prog σ α} {f : α → Prog σ β} {s' : σ} {a : α} (hx : x s = some (a, s'))
    (h : Returns (f a) s' R) : Returns (x >>= f) s R := by
  obtain ⟨b, s'', hb, hR⟩ := h
  exact ⟨b, s'', (Prog.bind_eq hx).trans hb, hR⟩

lemma map {x : Prog σ α} {f : α → β} (h : Returns x s fun a s' => R (f a) s') :
    Returns (f <$> x) s R := by
  obtain ⟨a, s', hx, hR⟩ := h
  refine ⟨f a, s', ?_, hR⟩
  have hmap : (f <$> x) s = (x s).bind fun r => some (f r.1, r.2) := rfl
  rw [hmap, hx, Option.bind_some]

lemma discard {x : Prog σ α} {R : PUnit → σ → Prop} (h : Returns x s fun _ s' => R ⟨⟩ s') :
    Returns (discard x) s R :=
  map h

lemma discard_bind {x : Prog σ α} {f : PUnit → Prog σ β} (hx : Returns x s P)
    (hf : ∀ a s', P a s' → Returns (f ⟨⟩) s' R) : Returns (Functor.discard x >>= f) s R :=
  bind (discard (R := fun u s' => u = ⟨⟩ ∧ ∃ a, P a s') (hx.mono fun a _ h => ⟨rfl, a, h⟩))
    fun _ s' h => h.2.elim fun a ha => hf a s' ha

lemma get_bind {f : σ → Prog σ β} (h : Returns (f s) s R) : Returns (get >>= f) s R := h

lemma modify {g : σ → σ} {R : PUnit → σ → Prop} (h : R ⟨⟩ (g s)) : Returns (modify g) s R :=
  ⟨⟨⟩, g s, rfl, h⟩

lemma ite {c : Prop} [Decidable c] {x y : Prog σ α} (hx : c → Returns x s Q)
    (hy : ¬c → Returns y s Q) : Returns (if c then x else y) s Q := by
  split
  · exact hx ‹c›
  · exact hy ‹¬c›

end Returns

/-! ## Folds -/

/-- A fold in which each step makes a fact true under a condition of its own. -/
lemma foldl_iff {σ β : Type} {f : σ → β → σ} {I Q : σ → Prop} {A : β → Prop} {l : List β}
    (hstep : ∀ s, ∀ b ∈ l, I s → I (f s b) ∧ (Q (f s b) ↔ Q s ∨ A b)) {s : σ} (hs : I s) :
    I (l.foldl f s) ∧ (Q (l.foldl f s) ↔ Q s ∨ ∃ b ∈ l, A b) := by
  induction l generalizing s with
  | nil => exact ⟨hs, by simp⟩
  | cons b l ih =>
    obtain ⟨hnext, hQ⟩ := hstep s b List.mem_cons_self hs
    obtain ⟨hI, hiff⟩ := ih (fun s b hb => hstep s b (List.mem_cons_of_mem _ hb)) hnext
    refine ⟨hI, hiff.trans ?_⟩
    rw [hQ, or_assoc, List.exists_mem_cons_iff]

end Cangjie
