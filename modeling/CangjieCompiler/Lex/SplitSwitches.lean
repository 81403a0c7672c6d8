import CangjieCompiler.Lex.Backtracking
import CangjieCompiler.Lex.SplitAgreement

/-!
# Reading tokens while splitting is switched on and off

A text is lexed into a vector without splitting.  The vector is then read under a sequence of
switches, one for each token that is delivered, and so is the text.  The two deliver the same tokens
if and only if no token is split.
-/

namespace Cangjie

namespace Scanning

/-! ## Reading -/

/-- The tokens of a text that is lexed without splitting, each with the character that it begins
with. -/
def lexed (s : Scanning) : List (ℤ × Token) :=
  if _ : (s.setSplit false).scan.1.kind = .END then []
  else (s.nextChar, (s.setSplit false).scan.1) :: lexed (s.setSplit false).scan.2
termination_by s.rank
decreasing_by exact ((s.setSplit false).scan_progress).resolve_left ‹_›

/-- The tokens before the end. -/
def getTokens (s : Scanning) : List Token := s.lexed.map Prod.snd

/-- The tokens that are delivered under a sequence of switches, up to the end. -/
def deliver : List Bool → Scanning → List Token
  | [], _ => []
  | split :: splits, s =>
    if (s.setSplit split).scan.1.kind = .END then []
    else (s.setSplit split).scan.1 :: deliver splits (s.setSplit split).scan.2

/-- If the next token of a vector is split, its halves make up its value and its range. -/
def HalvesCover (s : Scanning) : Prop :=
  ∀ t more, s.pending = t :: more → s.deg t ≠ none →
    ∃ right, s.scan.2.pending = right :: more ∧
      s.scan.1.value ++ right.value = t.value ∧
      s.scan.1.beginPos = t.beginPos ∧ s.scan.1.endPos = right.beginPos ∧
      right.endPos = t.endPos

/-- The halves of all tokens of a vector that are split make up the tokens. -/
def AllHalvesCover : List Bool → Scanning → Prop
  | [], _ => True
  | split :: splits, s =>
    (s.setSplit split).HalvesCover ∧ AllHalvesCover splits (s.setSplit split).scan.2

/-- A token that splitting would change, given with the character that it begins with. -/
def Splittable (e : ℤ × Token) : Prop :=
  lookupAmbiTokenDeg e.2.kind ≠ none ∨ IsSplit e.1 e.2

variable {other : OtherScanner} {s s' ts : Scanning}

lemma lexed_of_end (h : (s.setSplit false).scan.1.kind = .END) : s.lexed = [] := by
  rw [lexed, dif_pos h]

lemma lexed_of_ne_end (h : (s.setSplit false).scan.1.kind ≠ .END) :
    s.lexed = (s.nextChar, (s.setSplit false).scan.1) :: (s.setSplit false).scan.2.lexed := by
  rw [lexed, dif_neg h]

lemma deliver_of_end {split : Bool} {splits : List Bool}
    (h : (s.setSplit split).scan.1.kind = .END) : deliver (split :: splits) s = [] := by
  rw [deliver, if_pos h]

lemma deliver_of_ne_end {split : Bool} {splits : List Bool}
    (h : (s.setSplit split).scan.1.kind ≠ .END) :
    deliver (split :: splits) s =
      (s.setSplit split).scan.1 :: deliver splits (s.setSplit split).scan.2 := by
  rw [deliver, if_neg h]

/-! ## The vector -/

/-- Reading a vector at its end. -/
lemma scan_of_pending_nil (hts : ts.enableScan = false) (h : ts.pending = []) (split : Bool) :
    (ts.setSplit split).scan.1.kind = .END ∧ (ts.setSplit split).HalvesCover ∧
      (ts.setSplit split).scan.2.enableScan = false ∧
      (ts.setSplit split).scan.2.pending = [] := by
  have hpending : (ts.setSplit split).pending = [] := h
  rw [scan_of_vector (s := ts.setSplit split) hts]
  rcases (ts.setSplit split).scanFromTokens_cases with ⟨-, hscan⟩ | ⟨_, _, hcons, -⟩ |
    ⟨_, _, _, _, _, _, hcons, -⟩
  · rw [hscan]
    refine ⟨rfl, fun t more hcons => ?_, hts, h⟩
    exact absurd (hpending.symm.trans hcons) (by simp)
  · exact absurd (hpending.symm.trans hcons) (by simp)
  · exact absurd (hpending.symm.trans hcons) (by simp)

lemma allHalvesCover_of_pending_nil (hts : ts.enableScan = false) (h : ts.pending = [])
    (splits : List Bool) : AllHalvesCover splits ts := by
  induction splits generalizing ts with
  | nil => trivial
  | cons split splits ih =>
    obtain ⟨-, hcover, hts', hnil⟩ := scan_of_pending_nil hts h split
    exact ⟨hcover, ih hts' hnil⟩

/-- Reading a token of a vector that is not split. -/
lemma scan_of_deg_none (hts : ts.enableScan = false) {t : Token} {more : List Token}
    (h : ts.pending = t :: more) {split : Bool} (hdeg : (ts.setSplit split).deg t = none) :
    (ts.setSplit split).scan.1 = t ∧ (ts.setSplit split).scan.2.enableScan = false ∧
      (ts.setSplit split).scan.2.pending = more ∧ (ts.setSplit split).HalvesCover := by
  have hpending : (ts.setSplit split).pending = t :: more := h
  obtain ⟨hfirst, hmore⟩ := scan_splitToken (s := ts.setSplit split) hts hpending
  have htoken : (ts.setSplit split).splitToken t = (t, []) := by
    rw [splitToken, hdeg]
  rw [htoken] at hfirst hmore
  refine ⟨hfirst, (scan_enableScan _).trans hts, hmore, fun t' more' hcons hsplit => ?_⟩
  obtain ⟨rfl, -⟩ := List.cons.inj (hpending.symm.trans hcons)
  exact absurd hdeg hsplit

/-- Reading a token of a vector that is split: the first half ends where the token ends. -/
lemma scan_of_deg_some (hts : ts.enableScan = false) {t : Token} {more : List Token}
    (h : ts.pending = t :: more) {split : Bool} {lkind rkind : TokenKind} {lval rval : String}
    (hdeg : (ts.setSplit split).deg t = some (lkind, lval, rkind, rval)) :
    (ts.setSplit split).scan.1 = Token.make lkind (bytes lval) t.beginPos t.endPos := by
  have hpending : (ts.setSplit split).pending = t :: more := h
  rw [(scan_splitToken (s := ts.setSplit split) hts hpending).1, splitToken, hdeg]

/-! ## The text and the vector -/

/-- The halves of a token that is split are of kinds that are not split, the first one is not
illegal and not the end. -/
lemma first_of_lookup {kind lkind rkind : TokenKind} {lval rval : String}
    (h : lookupAmbiTokenDeg kind = some (lkind, lval, rkind, rval)) :
    lkind ≠ .END ∧ lookupAmbiTokenDeg lkind = none := by
  unfold lookupAmbiTokenDeg at h
  split at h
  all_goals
    cases h
    try exact ⟨by decide, rfl⟩

/-- What is known of the next token of a text and of the vector of its tokens. -/
lemma SameRest.pending_cases (h : SameRest other s s') (hpending : ts.pending = s.getTokens)
    (split : Bool) :
    (s.lexed = [] ∧ ts.pending = [] ∧ (s'.setSplit split).scan.1.kind = .END) ∨
      ∃ t more, s.lexed = (s.nextChar, t) :: more ∧ ts.pending = t :: more.map Prod.snd ∧
        t.kind ≠ .END ∧ (s'.setSplit split).scan.1.kind ≠ .END ∧
        ((s'.setSplit split).scan.1 = t ∧
            (∃ next, SameRest other next (s'.setSplit split).scan.2 ∧ next.lexed = more) ∧
            (split = true → ¬ IsSplit s.nextChar t) ∨
          split = true ∧ IsSplit s.nextChar t ∧ 1 < t.value.length ∧
            (s'.setSplit split).scan.1.value.length = 1 ∧
            ∀ halves, lookupAmbiTokenDeg t.kind = some halves →
              t.endPos ≠ (s'.setSplit split).scan.1.endPos) := by
  by_cases hend : (s.setSplit false).scan.1.kind = .END
  · have hnil := lexed_of_end hend
    refine Or.inl ⟨hnil, by rw [hpending, getTokens, hnil]; rfl, ?_⟩
    rcases h.scan_cases split with ⟨-, hend'⟩ | ⟨hne, -⟩
    · exact hend'
    · exact absurd hend hne
  · have hcons := lexed_of_ne_end hend
    refine Or.inr ⟨_, _, hcons, by rw [hpending, getTokens, hcons]; rfl, ?_⟩
    rcases h.scan_cases split with ⟨hend', -⟩ | ⟨-, hne, ⟨hsame, hrest, hwhole⟩ | hsplits⟩
    · exact absurd hend' hend
    · exact ⟨hend, hne, Or.inl ⟨hsame, ⟨_, hrest, rfl⟩, hwhole⟩⟩
    · exact ⟨hend, hne, Or.inr hsplits⟩

/-- A token that is split is delivered otherwise by the vector. -/
lemma shown_ne_of_isSplit (hts : ts.enableScan = false) {t : Token} {more : List Token}
    (h : ts.pending = t :: more) (hlong : 1 < t.value.length) {first : Token}
    (hlength : first.value.length = 1)
    (hends : ∀ halves, lookupAmbiTokenDeg t.kind = some halves → t.endPos ≠ first.endPos) :
    shown (ts.setSplit true).scan.1 ≠ shown first := by
  intro hshown
  cases hdeg : (ts.setSplit true).deg t with
  | none =>
    rw [(scan_of_deg_none hts h hdeg).1] at hshown
    have hvalue : t.value = first.value := congrArg (fun x => x.2.1) hshown
    rw [hvalue, hlength] at hlong
    exact absurd hlong (lt_irrefl _)
  | some halves =>
    rw [scan_of_deg_some hts h hdeg] at hshown
    exact hends halves (lookup_of_deg hdeg) (congrArg (fun x => x.2.2.2) hshown)

/-- A token of an ambiguous kind is split by the vector, whatever it begins with. -/
lemma shown_ne_of_ambiguous (hts : ts.enableScan = false) {t : Token} {more : List Token}
    (h : ts.pending = t :: more) (hambiguous : lookupAmbiTokenDeg t.kind ≠ none) :
    shown (ts.setSplit true).scan.1 ≠ shown t := by
  intro hshown
  obtain ⟨halves, hhalves⟩ := Option.ne_none_iff_exists'.mp hambiguous
  rw [scan_of_deg_some hts h (show (ts.setSplit true).deg t = some halves from hhalves)] at hshown
  have hkind : halves.1 = t.kind := congrArg Prod.fst hshown
  rw [← hkind, (first_of_lookup hhalves).2] at hhalves
  exact absurd hhalves (by simp)

/-- The vector goes on after its next token, which is not the end. -/
lemma scan_kind_ne_end (hts : ts.enableScan = false) {t : Token} {more : List Token}
    (h : ts.pending = t :: more) (hne : t.kind ≠ .END) (split : Bool) :
    (ts.setSplit split).scan.1.kind ≠ .END := by
  cases hdeg : (ts.setSplit split).deg t with
  | none =>
    rw [(scan_of_deg_none hts h hdeg).1]
    exact hne
  | some halves =>
    rw [scan_of_deg_some hts h hdeg]
    exact (first_of_lookup (lookup_of_deg hdeg)).1

/-- The vector and the text deliver the same tokens, and the halves of tokens that are split make up
the tokens. -/
def Agrees (splits : List Bool) (ts s' : Scanning) : Prop :=
  (deliver splits ts).map shown = (deliver splits s').map shown ∧ AllHalvesCover splits ts

/-- The vector and the text agree as long as nothing is split. -/
lemma SameRest.agrees_iff (h : SameRest other s s') (hts : ts.enableScan = false)
    (hpending : ts.pending = s.getTokens) (splits : List Bool) :
    Agrees splits ts s' ↔ ∀ e ∈ splits.zip s.lexed, e.1 = true → ¬ Splittable e.2 := by
  -- By induction on the switches, while the two read the same tokens.
  induction splits generalizing s s' ts with
  | nil => exact iff_of_true ⟨rfl, trivial⟩ fun e he => absurd he List.not_mem_nil
  | cons split splits ih =>
    rcases h.pending_cases hpending split with ⟨hnil, hvector, hend⟩ |
      ⟨t, more, hlexed, hvector, hkind, hne, hcase⟩
    · have hend' := (scan_of_pending_nil hts hvector split).1
      refine iff_of_true ⟨?_, allHalvesCover_of_pending_nil hts hvector _⟩ fun e he => ?_
      · rw [deliver_of_end hend, deliver_of_end hend']
      · rw [hnil, List.zip_nil_right] at he
        exact absurd he List.not_mem_nil
    · have hne' := scan_kind_ne_end hts hvector hkind split
      by_cases hsplit : split = true ∧ Splittable (s.nextChar, t)
      · obtain ⟨rfl, hsplittable⟩ := hsplit
        refine iff_of_false (fun hagrees => ?_) fun hall => ?_
        · have heq := hagrees.1
          rw [deliver_of_ne_end hne, deliver_of_ne_end hne', List.map_cons, List.map_cons] at heq
          have hhead := (List.cons.inj heq).1
          rcases hcase with ⟨hsame, -, hwhole⟩ | ⟨-, -, hlong, hlength, hends⟩
          · rw [hsame] at hhead
            have hambiguous := hsplittable.resolve_right (hwhole rfl)
            exact shown_ne_of_ambiguous hts hvector hambiguous hhead
          · exact shown_ne_of_isSplit hts hvector hlong hlength hends hhead
        · refine hall (true, (s.nextChar, t)) ?_ rfl hsplittable
          rw [hlexed, List.zip_cons_cons]
          exact List.mem_cons_self
      · have hdeg : (ts.setSplit split).deg t = none := by
          cases split with
          | false => rfl
          | true => exact of_not_not fun hdeg => hsplit ⟨rfl, Or.inl hdeg⟩
        obtain ⟨hfirst, hts', hmore, hcover⟩ := scan_of_deg_none hts hvector hdeg
        rcases hcase with ⟨hsame, ⟨next, hrest, hnext⟩, -⟩ | ⟨hon, hissplit, -⟩
        · have hrec := ih hrest hts' (by rw [hmore, getTokens, hnext])
          rw [hnext] at hrec
          rw [hlexed, List.zip_cons_cons, List.forall_mem_cons, ← hrec]
          rw [Agrees, Agrees, deliver_of_ne_end hne, deliver_of_ne_end hne', hfirst, hsame,
            AllHalvesCover]
          constructor
          · rintro ⟨heq, -, hhalves⟩
            exact ⟨fun hon he => hsplit ⟨hon, he⟩, (List.cons.inj heq).2, hhalves⟩
          · rintro ⟨-, heq, hhalves⟩
            exact ⟨congrArg (shown t :: ·) heq, hcover, hhalves⟩
        · exact absurd ⟨hon, Or.inr hissplit⟩ hsplit

end Scanning

namespace LexerImpl

open Scanning

/-- A lexer of a text at its start. -/
def textStart (other : OtherScanner) (input : LexerInput) : Scanning :=
  (ofText other.scanner input false).scanning

/-- A lexer of the tokens of a text at its start. -/
def tokensStart (other : OtherScanner) (input : LexerInput) : Scanning :=
  (ofTokens other.scanner input (textStart other input).getTokens false).scanning

lemma sameRest_textStart (other : OtherScanner) (input : LexerInput) :
    SameRest other (textStart other input) (textStart other input) where
  text := ⟨rfl, rfl⟩
  input := rfl
  scanner := ⟨rfl, rfl⟩
  pNext := rfl
  firstChar := rfl
  lines := List.cons_ne_nil _ _
  ascending := List.pairwise_singleton _ _

/-- A text of two characters `>`. -/
def greaterGreater : LexerInput := ⟨[0x3e, 0x3e], ⟨1, 1, 1⟩⟩

/-- A scanner that takes each other character for an illegal one. -/
def otherIllegal : OtherScanner where
  toTokenScanner := illegalScanner
  ascending := fun _ _ _ _ h => h

lemma getTokens_greaterGreater :
    (textStart otherIllegal greaterGreater).getTokens = [rightShift] := by
  have hfirst : ((textStart otherIllegal greaterGreater).setSplit false).scan.1 = rightShift := by
    decide
  have hend : ((((textStart otherIllegal greaterGreater).setSplit false).scan.2).setSplit
      false).scan.1.kind = .END := by
    decide
  rw [getTokens, lexed_of_ne_end (by rw [hfirst]; decide), lexed_of_end hend, hfirst]
  rfl

end LexerImpl

end Cangjie
