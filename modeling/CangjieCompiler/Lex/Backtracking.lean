import CangjieCompiler.Lex.ScanningState

/-!
# Going back to a reset point

The reset point saves what scanning a text depends on, so going back to it is exact.  Splitting a
token of a vector overwrites it in place, which is not undone: going back is exact exactly when no
ambiguous token was split since the reset point.
-/

namespace Cangjie.LexerImpl

open Scanning

/-! ## Runs -/

/-- The operations after a reset point. -/
inductive Op where
  | next
  | lookAhead (num : ℕ)
  | lookAheadSkipNL (num : ℕ)
  | reserveToken (num : ℕ) (skipNewline skipComments : Bool)
  | seeing (kinds : List TokenKind) (skipNewline skipComments : Bool)
  | setSplit (split : Bool)

/-- The lexer after one operation. -/
def step (l : LexerImpl) : Op → LexerImpl
  | .next => (l.next).2
  | .lookAhead num => (l.lookAhead num).2
  | .lookAheadSkipNL num => (l.lookAheadSkipNL num).2
  | .reserveToken num skipNewline skipComments => l.reserveToken num skipNewline skipComments
  | .seeing kinds skipNewline skipComments => (l.seeing kinds skipNewline skipComments).2
  | .setSplit split => l.setSplit split

/-- The lexer after some operations. -/
def run (l : LexerImpl) (ops : List Op) : LexerImpl := ops.foldl step l

/-- How an operation fills the queue, and by how many tokens.  The next token is one of its own when
the queue is empty. -/
def filling (l : LexerImpl) : Op → Filling source × ℕ
  | .next => (reserveFilling false false, 1 - l.lookAheadCache.length)
  | .lookAhead num => (lookAheadFilling, num - l.lookAheadCache.length)
  | .lookAheadSkipNL num =>
    (lookAheadSkipNLFilling,
      num - l.lookAheadCache.countP fun token => decide (token.kind ≠ .NL))
  | .reserveToken num skipNewline skipComments =>
    (reserveFilling skipNewline skipComments, num -
      if skipNewline then l.lookAheadCache.countP fun token => decide (token.kind ≠ .NL)
      else l.lookAheadCache.length)
  | .seeing kinds skipNewline skipComments =>
    (reserveFilling skipNewline skipComments, kinds.length + 1 -
      if skipNewline then l.lookAheadCache.countP fun token => decide (token.kind ≠ .NL)
      else l.lookAheadCache.length)
  | .setSplit _ => (reserveFilling false false, 0)

/-- An operation that splits no token: one on a text, or one that takes no ambiguous token from the
vector while these are split. -/
def SplitFree (l : LexerImpl) (op : Op) : Prop :=
  l.scanning.enableScan = false →
    ∀ t ∈ consumed (l.filling op).1 l.scanning.pending (l.filling op).2, l.scanning.deg t = none

/-- Going back to the reset point after some operations, and setting the flag as it was there,
delivers the tokens that come without them. -/
def Backtracks (l : LexerImpl) (ops : List Op) : Prop :=
  ∀ n, (taken next n (((l.setResetPoint.run ops).reset).setSplit
      l.scanning.splitAmbiguousToken)).map shown =
    (taken next n l.setResetPoint).map shown

/-! ## What the operations keep -/

/-- A lexer that went on: what is saved at the reset point stays. -/
structure Speculates (l l' : LexerImpl) : Prop where
  continues : Continues l.scanning l'.scanning
  saved : l' = { l with scanning := l'.scanning, lookAheadCache := l'.lookAheadCache }

lemma Speculates.refl (l : LexerImpl) : Speculates l l := ⟨Continues.refl _, rfl⟩

lemma Speculates.trans {l l' l'' : LexerImpl} (h : Speculates l l') (h' : Speculates l' l'') :
    Speculates l l'' where
  continues := h.continues.trans h'.continues
  saved := by
    rw [h'.saved, h.saved]

lemma fill_speculates (l : LexerImpl) (f : Filling source) (needed : ℕ) :
    Speculates l (l.fill f needed) := by
  unfold fill
  rw [source.fill_eq f needed l.scanning l.lookAheadCache]
  exact ⟨after_continues _ _, rfl⟩

lemma next_speculates (l : LexerImpl) : Speculates l (l.next).2 := by
  unfold next
  cases l.lookAheadCache with
  | nil => exact ⟨l.scanning.scan_continues, rfl⟩
  | cons token rest => exact ⟨Continues.refl _, rfl⟩

lemma seeing_snd (l : LexerImpl) (kinds : List TokenKind) (skipNewline skipComments : Bool) :
    (l.seeing kinds skipNewline skipComments).2 =
      l.reserveToken (kinds.length + 1) skipNewline skipComments := by
  unfold seeing
  dsimp only
  split <;> rfl

lemma step_speculates (l : LexerImpl) (op : Op) : Speculates l (l.step op) := by
  cases op with
  | next => exact l.next_speculates
  | lookAhead num => exact l.fill_speculates _ _
  | lookAheadSkipNL num => exact l.fill_speculates _ _
  | reserveToken num skipNewline skipComments => exact l.fill_speculates _ _
  | seeing kinds skipNewline skipComments =>
    unfold step
    dsimp only
    rw [seeing_snd]
    exact l.fill_speculates _ _
  | setSplit split =>
    exact ⟨⟨rfl, rfl, rfl, List.prefix_rfl, fun _ => rfl, le_rfl, rfl, forall₂_shifted_refl _⟩, rfl⟩

lemma run_speculates (l : LexerImpl) (ops : List Op) : Speculates l (l.run ops) := by
  induction ops generalizing l with
  | nil => exact Speculates.refl l
  | cons op ops ih => exact (l.step_speculates op).trans (ih _)

lemma tokens_fill (l : LexerImpl) (hscan : l.scanning.enableScan = false) (f : Filling source)
    (needed : ℕ) : (l.fill f needed).scanning.tokens = l.scanning.tokens ↔
      ∀ t ∈ consumed f l.scanning.pending needed, l.scanning.deg t = none := by
  have hfill := source.fill_eq f needed l.scanning l.lookAheadCache
  unfold fill
  rw [hfill]
  exact tokens_reads f needed l.scanning hscan

/-- Taking the next token from an empty queue is filling the queue by one. -/
lemma tokens_next (l : LexerImpl) :
    (l.next).2.scanning.tokens =
      (l.fill (reserveFilling false false) (1 - l.lookAheadCache.length)).scanning.tokens := by
  have hfill := source.fill_eq (reserveFilling false false) (1 - l.lookAheadCache.length) l.scanning
    l.lookAheadCache
  unfold fill
  rw [hfill]
  unfold next
  cases l.lookAheadCache with
  | nil =>
    have hone : source.reads (reserveFilling false false) 1 l.scanning = 1 := by
      have hcount := source.countP_reads (f := reserveFilling false false) (fun _ => rfl) 1 l.scanning
      have hall : ∀ tokens : List Token,
          tokens.countP (reserveFilling false false).count = tokens.length := fun tokens =>
        List.countP_eq_length.mpr fun t _ => by simp [reserveFilling]
      rw [hall, length_taken] at hcount
      exact hcount
    dsimp only [List.length_nil, Nat.sub_zero]
    rw [hone]
    rfl
  | cons token rest =>
    have hzero : 1 - (token :: rest).length = 0 := by simp
    rw [hzero, ItemSource.reads]
    rfl

/-- An operation on a vector leaves it as it is when it splits no token. -/
lemma tokens_step (l : LexerImpl) (hscan : l.scanning.enableScan = false) (op : Op) :
    (l.step op).scanning.tokens = l.scanning.tokens ↔ SplitFree l op := by
  have hfree : SplitFree l op ↔ ∀ t ∈ consumed (l.filling op).1 l.scanning.pending
      (l.filling op).2, l.scanning.deg t = none :=
    ⟨fun h => h hscan, fun h _ => h⟩
  rw [hfree, ← l.tokens_fill hscan]
  cases op with
  | next =>
    unfold step
    dsimp only
    rw [l.tokens_next]
    exact Iff.rfl
  | lookAhead num => exact Iff.rfl
  | lookAheadSkipNL num => exact Iff.rfl
  | reserveToken num skipNewline skipComments => exact Iff.rfl
  | seeing kinds skipNewline skipComments =>
    unfold step
    dsimp only
    rw [seeing_snd]
    exact Iff.rfl
  | setSplit split =>
    rw [l.tokens_fill hscan]
    refine iff_of_true rfl fun t ht => ?_
    exact absurd (consumed_zero _ _ ▸ ht) List.not_mem_nil

/-- Operations on a vector leave it as it is when none of them splits a token. -/
lemma tokens_run (l : LexerImpl) (hscan : l.scanning.enableScan = false) (ops : List Op) :
    (l.run ops).scanning.tokens = l.scanning.tokens ↔
      ∀ done op rest, ops = done ++ op :: rest → SplitFree (l.run done) op := by
  induction ops generalizing l with
  | nil => exact iff_of_true rfl fun done op rest h => absurd h (by simp)
  | cons op ops ih =>
    have hstep := l.step_speculates op
    have hrest := (l.step op).run_speculates ops
    have hih := ih (l.step op) (hstep.continues.enableScan.trans hscan)
    constructor
    · intro hsame done op' rest heq
      have hsame : ((l.step op).run ops).scanning.tokens = l.scanning.tokens := hsame
      have htokens := hstep.continues.tokens_eq hrest.continues hsame
      cases done with
      | nil =>
        obtain ⟨rfl, -⟩ := List.cons.inj heq
        exact (l.tokens_step hscan op).mp htokens
      | cons head done =>
        obtain ⟨rfl, htail⟩ := List.cons.inj heq
        exact hih.mp (hsame.trans htokens.symm) done op' rest htail
    · intro hfree
      have htokens := (l.tokens_step hscan op).mpr (hfree [] op ops rfl)
      refine Eq.trans ?_ htokens
      exact hih.mpr fun done op' rest heq => hfree (op :: done) op' rest (by rw [heq]; rfl)

/-! ## Going back -/

/-- The lexer that went back to the reset point after some operations. -/
def returned (l : LexerImpl) (ops : List Op) : LexerImpl :=
  ((l.setResetPoint.run ops).reset).setSplit l.scanning.splitAmbiguousToken

lemma returned_lookAheadCache (l : LexerImpl) (ops : List Op) :
    (l.returned ops).lookAheadCache = l.lookAheadCache := by
  unfold returned
  rw [(l.setResetPoint.run_speculates ops).saved]
  rfl

/-- On a text going back restores all that scanning depends on. -/
lemma agreeText_returned (l : LexerImpl) (ops : List Op) (hscan : l.scanning.enableScan = true) :
    AgreeText l.scanning (l.returned ops).scanning := by
  have hspeculates := l.setResetPoint.run_speculates ops
  have hcontinues := hspeculates.continues
  refine ⟨⟨hscan, hcontinues.enableScan.trans hscan⟩, hcontinues.input, hcontinues.scanner, rfl, ?_,
    ?_⟩
  · unfold returned
    rw [hspeculates.saved]
    rfl
  · unfold returned
    rw [hspeculates.saved]
    exact (List.prefix_iff_eq_take.mp hcontinues.lines).symm

lemma returned_vector (l : LexerImpl) (ops : List Op) (hscan : l.scanning.enableScan = false) :
    (l.returned ops).scanning.enableScan = false ∧
      (l.returned ops).scanning.splitAmbiguousToken = l.scanning.splitAmbiguousToken ∧
      (l.returned ops).scanning.tokens = (l.setResetPoint.run ops).scanning.tokens ∧
      (l.returned ops).scanning.curToken = l.scanning.curToken ∧
      (l.returned ops).scanning.pos = l.scanning.pos := by
  have hspeculates := l.setResetPoint.run_speculates ops
  have hcontinues := hspeculates.continues
  refine ⟨hcontinues.enableScan.trans hscan, rfl, rfl, ?_, hcontinues.pos hscan⟩
  unfold returned
  rw [hspeculates.saved]
  rfl

/-- Going back in a vector is exact when the vector is as it was. -/
lemma backtracks_vector (l : LexerImpl) (ops : List Op) (hscan : l.scanning.enableScan = false) :
    Backtracks l ops ↔ (l.setResetPoint.run ops).scanning.tokens = l.scanning.tokens := by
  obtain ⟨hscan', hsplit, htokens, hcur, hpos⟩ := l.returned_vector ops hscan
  have hcache := l.returned_lookAheadCache ops
  have hcontinues := (l.setResetPoint.run_speculates ops).continues
  constructor
  · intro hback
    by_contra hne
    have hpending : (l.returned ops).scanning.pending =
        ((l.setResetPoint.run ops).scanning.tokens).drop l.scanning.curToken := by
      unfold pending
      rw [htokens, hcur]
    have hshifted : List.Forall₂ Shifted l.scanning.pending (l.returned ops).scanning.pending := by
      rw [hpending]
      exact List.forall₂_drop _ hcontinues.shifted
    have hdrop : (l.returned ops).scanning.pending ≠ l.scanning.pending := by
      intro heq
      rw [hpending] at heq
      have hearlier : (l.setResetPoint.run ops).scanning.tokens.take l.scanning.curToken =
          l.scanning.tokens.take l.scanning.curToken := hcontinues.earlier
      refine hne ?_
      calc (l.setResetPoint.run ops).scanning.tokens =
          (l.setResetPoint.run ops).scanning.tokens.take l.scanning.curToken ++
            (l.setResetPoint.run ops).scanning.tokens.drop l.scanning.curToken :=
          (List.take_append_drop _ _).symm
        _ = l.scanning.tokens.take l.scanning.curToken ++
            l.scanning.tokens.drop l.scanning.curToken := by
          rw [hearlier, heq]
          rfl
        _ = l.scanning.tokens := List.take_append_drop _ _
    obtain ⟨n, hn⟩ := exists_shown_ne hscan hscan' hsplit hshifted hdrop
    have hall := hback (l.lookAheadCache.length + n)
    have htake : ∀ l' : LexerImpl, l'.lookAheadCache = l.lookAheadCache →
        taken next (l.lookAheadCache.length + n) l' =
          l.lookAheadCache ++ taken scan n l'.scanning := by
      intro l' hl'
      rw [taken_next, hl', Nat.add_sub_cancel_left, List.take_of_length_le (Nat.le_add_right _ _)]
    have hleft := htake (l.returned ops) hcache
    have hright := htake l.setResetPoint rfl
    unfold returned at hleft
    rw [hleft, hright, List.map_append, List.map_append] at hall
    exact hn (List.append_cancel_left hall)
  · intro hsame n
    have hagree : AgreeVector l.setResetPoint.scanning (l.returned ops).scanning :=
      ⟨⟨hscan, hscan'⟩, hsplit, htokens.trans hsame, hcur, hpos⟩
    have htaken : taken next n (l.returned ops) = taken next n l.setResetPoint := by
      rw [taken_next, taken_next, hcache]
      exact congrArg _ (taken_congr (fun s s' h => scan_congr_vector h) _ hagree).symm
    exact congrArg (List.map shown) htaken

/-- For every lexer and every sequence of operations after a reset point: going back to it is exact
if and only if, at a vector of tokens, no operation takes an ambiguous token while these are split.
-/
theorem backtracks_iff (l : LexerImpl) (ops : List Op) :
    Backtracks l ops ↔ ∀ done op rest, ops = done ++ op :: rest →
      SplitFree (l.setResetPoint.run done) op := by
  cases hscan : l.scanning.enableScan with
  | true =>
    refine iff_of_true (fun n => ?_) fun done op rest _ hvector => ?_
    · have htaken : taken next n (l.returned ops) = taken next n l.setResetPoint := by
        rw [taken_next, taken_next, l.returned_lookAheadCache ops]
        exact congrArg _
          (taken_congr (fun s s' h => scan_congr h) _ (l.agreeText_returned ops hscan)).symm
      exact congrArg (List.map shown) htaken
    · have hkept := (l.setResetPoint.run_speculates done).continues.enableScan
      exact Bool.noConfusion (hvector.symm.trans (hkept.trans hscan))
  | false =>
    exact (l.backtracks_vector ops hscan).trans (l.setResetPoint.tokens_run hscan ops)

/-! ## A token that is split -/

/-- A scanner that takes each character for an illegal one. -/
def illegalScanner : TokenScanner where
  scan := fun _ _ pos c => (Token.make .ILLEGAL [] pos pos, c)
  advances := fun _ _ _ _ h => h
  keepsLines := fun _ _ _ _ => List.prefix_rfl
  notEnd := fun _ _ _ _ => TokenKind.noConfusion

/-- The token of a right shift. -/
def rightShift : Token := Token.make .RSHIFT (bytes ">>") ⟨1, 1, 1⟩ ⟨1, 1, 3⟩

/-- Splitting a right shift after a reset point leaves its second half only. -/
theorem rightShift_not_backtracks :
    ¬ Backtracks (ofTokens illegalScanner ⟨[], ⟨1, 1, 1⟩⟩ [rightShift] true) [.next] := by
  intro h
  have hone := h 1
  exact absurd hone (by decide)

end Cangjie.LexerImpl
