import CangjieCompiler.Lex.LookAheadInvisible
import Mathlib.Data.List.Forall2
import Mathlib.Tactic.IntervalCases

/-!
# What scanning depends on and keeps

Scanning a text depends on the place in it and the lines seen so far.  Scanning a vector depends on
its tokens, of which those that are ambiguous are overwritten in place when they are split; a vector
that was changed so delivers other tokens.
-/

namespace Cangjie

namespace Scanning

/-! ## What scanning depends on -/

/-- Two states of a text that deliver the same tokens. -/
structure AgreeText (s s' : Scanning) : Prop where
  text : s.enableScan = true ∧ s'.enableScan = true
  input : s'.input = s.input
  scanner : s'.scanner = s.scanner
  split : s'.splitAmbiguousToken = s.splitAmbiguousToken
  pNext : s'.cursor.pNext = s.cursor.pNext
  lines : s'.cursor.lineOffsetsFromBase = s.cursor.lineOffsetsFromBase

/-- Reading a character depends on the next offset, the lines and the flag of the diagnostics. -/
lemma readUTF8Char_congr (input : LexerInput) {c c' : Cursor} (hnext : c'.pNext = c.pNext)
    (hlines : c'.lineOffsetsFromBase = c.lineOffsetsFromBase) (hsuccess : c'.success = c.success) :
    c'.readUTF8Char input =
      { c.readUTF8Char input with
        success := (c.readUTF8Char input).success } := by
  unfold Cursor.readUTF8Char Cursor.tryRegisterLineOffset
  simp only [hnext, hlines, hsuccess]

lemma firstChar_congr {s s' : Scanning} (h : AgreeText s s') : s'.firstChar = s.firstChar := by
  unfold firstChar
  rw [h.input]
  exact readUTF8Char_congr s.input h.pNext h.lines rfl

lemma getPos_congr (input : LexerInput) {c c' : Cursor}
    (hlines : c'.lineOffsetsFromBase = c.lineOffsetsFromBase) (current : ℕ) :
    c'.getPos input current = c.getPos input current := by
  unfold Cursor.getPos
  rw [hlines]

lemma scanBase_congr {s s' : Scanning} (h : AgreeText s s') :
    (s'.scanBase).1 = (s.scanBase).1 ∧ AgreeText (s.scanBase).2 (s'.scanBase).2 := by
  unfold scanBase
  dsimp only
  rw [firstChar_congr h, h.input, h.scanner, h.split, h.pNext]
  split_ifs
  all_goals exact ⟨rfl, h.text, rfl, rfl, rfl, rfl, rfl⟩

lemma skipBlanks_congr {s s' : Scanning} (h : AgreeText s s') :
    AgreeText s.skipBlanks s'.skipBlanks := by
  unfold skipBlanks
  refine ⟨h.text, h.input, h.scanner, h.split, ?_, h.lines⟩
  dsimp only
  rw [h.input, h.pNext]

lemma scan_congr {s s' : Scanning} (h : AgreeText s s') :
    (s.scan).1 = (s'.scan).1 ∧ AgreeText (s.scan).2 (s'.scan).2 := by
  have hpos := fun current => getPos_congr s.input h.lines current
  unfold scan
  rw [h.text.1, h.text.2, Bool.not_true, if_neg Bool.false_ne_true, if_neg Bool.false_ne_true,
    h.input, h.pNext, hpos]
  split_ifs
  · exact ⟨rfl, h⟩
  · exact ⟨rfl, h⟩
  · obtain ⟨htoken, hstate⟩ := scanBase_congr (skipBlanks_congr h)
    exact ⟨htoken.symm, hstate⟩

/-! ## What scanning keeps -/

/-- A token that a split left of another one: its begin moved by the number of splits, of which
fewer are left. -/
def Shifted (t t' : Token) : Prop :=
  ∃ k, t'.beginPos.column = t.beginPos.column + BitVec.ofNat 32 k ∧
    k + splitsLeft t'.kind ≤ splitsLeft t.kind ∧ (k = 0 → t' = t)

lemma Shifted.refl (t : Token) : Shifted t t :=
  ⟨0, by simp, by simp, fun _ => rfl⟩

lemma Shifted.trans {t t' t'' : Token} (h : Shifted t t') (h' : Shifted t' t'') :
    Shifted t t'' := by
  obtain ⟨k, hcolumn, hsplits, hsame⟩ := h
  obtain ⟨k', hcolumn', hsplits', hsame'⟩ := h'
  refine ⟨k + k', ?_, ?_, fun hzero => ?_⟩
  · rw [hcolumn', hcolumn, BitVec.ofNat_add, BitVec.add_assoc]
  · calc k + k' + splitsLeft t''.kind = k + (k' + splitsLeft t''.kind) := Nat.add_assoc _ _ _
      _ ≤ k + splitsLeft t'.kind := Nat.add_le_add_left hsplits' k
      _ ≤ splitsLeft t.kind := hsplits
  · obtain ⟨hk, hk'⟩ := Nat.add_eq_zero_iff.mp hzero
    rw [hsame' hk', hsame hk]

lemma shifted_rest {t : Token} {lkind rkind : TokenKind} {lval rval : String}
    (h : lookupAmbiTokenDeg t.kind = some (lkind, lval, rkind, rval)) :
    Shifted t (rest t rkind rval) := by
  refine ⟨1, rfl, ?_, fun h => absurd h Nat.one_ne_zero⟩
  rw [Nat.add_comm]
  exact (splitsLeft_of_lookup h).2

/-- No token can be split more than twice. -/
lemma splitsLeft_le (kind : TokenKind) : splitsLeft kind ≤ 2 := by
  unfold splitsLeft
  split <;> decide

/-- A token that moved begins elsewhere. -/
lemma Shifted.beginPos_ne {t t' : Token} (h : Shifted t t') (hne : t' ≠ t) :
    t'.beginPos ≠ t.beginPos := by
  obtain ⟨k, hcolumn, hsplits, hsame⟩ := h
  have hpos : k ≠ 0 := fun hzero => hne (hsame hzero)
  have hle : k ≤ 2 := (Nat.le_add_right _ _).trans (hsplits.trans (splitsLeft_le _))
  intro heq
  rw [heq] at hcolumn
  have hzero : BitVec.ofNat 32 k = 0 := BitVec.self_eq_add_right.mp hcolumn
  interval_cases k
  · exact hpos rfl
  · exact absurd hzero (by decide)
  · exact absurd hzero (by decide)

lemma Shifted.splitsLeft_le {t t' : Token} (h : Shifted t t') :
    splitsLeft t'.kind ≤ splitsLeft t.kind := by
  obtain ⟨k, -, hsplits, -⟩ := h
  exact (Nat.le_add_left _ _).trans hsplits

/-- What scanning keeps: the text and its scanner, the lines seen so far, and the tokens of the
vector before the current one; the others are only split. -/
structure Continues (s s' : Scanning) : Prop where
  input : s'.input = s.input
  scanner : s'.scanner = s.scanner
  enableScan : s'.enableScan = s.enableScan
  lines : s.cursor.lineOffsetsFromBase <+: s'.cursor.lineOffsetsFromBase
  pos : s.enableScan = false → s'.pos = s.pos
  curToken : s.curToken ≤ s'.curToken
  earlier : s'.tokens.take s.curToken = s.tokens.take s.curToken
  shifted : List.Forall₂ Shifted s.tokens s'.tokens

lemma forall₂_shifted_refl (tokens : List Token) : List.Forall₂ Shifted tokens tokens :=
  List.forall₂_same.mpr fun t _ => Shifted.refl t

lemma forall₂_shifted_trans {tokens tokens' tokens'' : List Token}
    (h : List.Forall₂ Shifted tokens tokens') (h' : List.Forall₂ Shifted tokens' tokens'') :
    List.Forall₂ Shifted tokens tokens'' := by
  induction h generalizing tokens'' with
  | nil => exact h'
  | cons hhead _ ih =>
    cases h' with
    | cons hhead' htail' => exact List.Forall₂.cons (hhead.trans hhead') (ih htail')

lemma Continues.refl (s : Scanning) : Continues s s :=
  ⟨rfl, rfl, rfl, List.prefix_rfl, fun _ => rfl, le_rfl, rfl, forall₂_shifted_refl _⟩

lemma Continues.trans {s s' s'' : Scanning} (h : Continues s s') (h' : Continues s' s'') :
    Continues s s'' where
  input := h'.input.trans h.input
  scanner := h'.scanner.trans h.scanner
  enableScan := h'.enableScan.trans h.enableScan
  lines := h.lines.trans h'.lines
  pos := fun hscan => (h'.pos (h.enableScan.trans hscan)).trans (h.pos hscan)
  curToken := h.curToken.trans h'.curToken
  earlier := by
    have hearlier := congrArg (List.take s.curToken) h'.earlier
    rw [List.take_take, List.take_take, Nat.min_eq_left h.curToken] at hearlier
    exact hearlier.trans h.earlier
  shifted := forall₂_shifted_trans h.shifted h'.shifted

lemma tryRegisterLineOffset_lines (input : LexerInput) {c c' : Cursor}
    (h : c'.lineOffsetsFromBase = c.lineOffsetsFromBase) :
    c.lineOffsetsFromBase <+: (c'.tryRegisterLineOffset input).lineOffsetsFromBase := by
  unfold Cursor.tryRegisterLineOffset
  rw [← h]
  dsimp only
  split_ifs
  · exact List.prefix_append _ _
  · exact List.prefix_rfl
  · exact List.prefix_append _ _
  · exact List.prefix_rfl

lemma readUTF8Char_lines (input : LexerInput) (c : Cursor) :
    c.lineOffsetsFromBase <+: (c.readUTF8Char input).lineOffsetsFromBase := by
  unfold Cursor.readUTF8Char
  dsimp only
  split
  · exact List.prefix_rfl
  · split
    · exact tryRegisterLineOffset_lines input rfl
    · exact List.prefix_rfl

/-- Moving the cursor of a text. -/
lemma continues_cursor (s : Scanning) (hscan : s.enableScan = true) (c : Cursor) (pos : Position)
    (hlines : s.cursor.lineOffsetsFromBase <+: c.lineOffsetsFromBase) :
    Continues s { s with cursor := c, pos := pos } :=
  ⟨rfl, rfl, rfl, hlines, fun h => Bool.noConfusion (hscan.symm.trans h), le_rfl, rfl,
    forall₂_shifted_refl _⟩

lemma scanBase_continues (s : Scanning) (hscan : s.enableScan = true) :
    Continues s (s.scanBase).2 := by
  have hlines : s.cursor.lineOffsetsFromBase <+: s.firstChar.lineOffsetsFromBase :=
    readUTF8Char_lines s.input { s.cursor with success := true }
  have hfirst := fun pos => s.continues_cursor hscan s.firstChar pos hlines
  unfold scanBase
  dsimp only
  split_ifs
  · exact hfirst _
  · exact hfirst _
  · exact hfirst _
  · exact s.continues_cursor hscan _ _ (hlines.trans (s.scanner.keepsLines _ _ _ _))

/-- Overwriting a token of the vector by one that moved. -/
lemma forall₂_shifted_set {tokens more : List Token} {i : ℕ} {t t' : Token}
    (hdrop : tokens.drop i = t :: more) (hshift : Shifted t t') :
    List.Forall₂ Shifted tokens (tokens.set i t') := by
  induction tokens generalizing i with
  | nil => exact absurd hdrop (by simp)
  | cons head tail ih =>
    cases i with
    | zero =>
      rw [List.drop_zero, List.cons.injEq] at hdrop
      rw [List.set_cons_zero, hdrop.1]
      exact List.Forall₂.cons hshift (forall₂_shifted_refl tail)
    | succ i =>
      rw [List.set_cons_succ]
      exact List.Forall₂.cons (Shifted.refl head) (ih hdrop)

lemma scanFromTokens_continues (s : Scanning) : Continues s (s.scanFromTokens).2 := by
  rcases s.scanFromTokens_cases with ⟨-, h⟩ | ⟨t, more, -, -, h, -⟩ |
    ⟨t, more, lkind, lval, rkind, rval, hpending, hdeg, h, -⟩
  all_goals rw [h]
  · exact Continues.refl s
  · exact ⟨rfl, rfl, rfl, List.prefix_rfl, fun _ => rfl, Nat.le_succ _, rfl,
      forall₂_shifted_refl _⟩
  · refine ⟨rfl, rfl, rfl, List.prefix_rfl, fun _ => rfl, le_rfl, ?_, ?_⟩
    · exact List.take_set_of_le le_rfl
    · exact forall₂_shifted_set hpending (shifted_rest (lookup_of_deg hdeg))

lemma scan_continues (s : Scanning) : Continues s (s.scan).2 := by
  unfold scan
  cases hscan : s.enableScan with
  | false =>
    rw [Bool.not_false, if_pos rfl]
    exact s.scanFromTokens_continues
  | true =>
    rw [Bool.not_true, if_neg Bool.false_ne_true]
    split_ifs
    · exact Continues.refl s
    · exact Continues.refl s
    · have hblanks : Continues s s.skipBlanks :=
        s.continues_cursor hscan _ _ List.prefix_rfl
      exact hblanks.trans (s.skipBlanks.scanBase_continues hscan)

lemma after_continues (n : ℕ) (s : Scanning) : Continues s (after scan n s) := by
  induction n generalizing s with
  | zero => exact Continues.refl s
  | succ n ih => exact s.scan_continues.trans (ih _)

/-! ## Splitting -/

lemma Shifted.antisymm {t t' : Token} (h : Shifted t t') (h' : Shifted t' t) : t' = t := by
  obtain ⟨k, -, hsplits, hsame⟩ := h
  have hback := h'.splitsLeft_le
  exact hsame (by omega)

lemma forall₂_shifted_antisymm {tokens tokens' : List Token}
    (h : List.Forall₂ Shifted tokens tokens') (h' : List.Forall₂ Shifted tokens' tokens) :
    tokens' = tokens := by
  induction h with
  | nil => rfl
  | cons hhead _ ih =>
    cases h' with
    | cons hhead' htail' => rw [hhead.antisymm hhead', ih htail']

/-- A token that was split is not restored by going on. -/
lemma Continues.tokens_eq {s s' s'' : Scanning} (h : Continues s s') (h' : Continues s' s'')
    (hsame : s''.tokens = s.tokens) : s'.tokens = s.tokens :=
  forall₂_shifted_antisymm h.shifted (hsame ▸ h'.shifted)

lemma scan_of_vector {s : Scanning} (hscan : s.enableScan = false) : s.scan = s.scanFromTokens := by
  unfold scan
  rw [hscan, Bool.not_false, if_pos rfl]

/-- The tokens that filling a queue takes from a vector, when none of them is split. -/
def consumed (f : Filling source) : List Token → ℕ → List Token
  | [], _ => []
  | _ :: _, 0 => []
  | t :: more, needed + 1 =>
    t :: if f.stop t then [] else consumed f more (if f.count t then needed else needed + 1)

/-- Reading one token and then filling: the vector changes when one of the tokens taken is split. -/
lemma tokens_reads_step (f : Filling source) (needed n : ℕ) {s : Scanning}
    (hscan : s.enableScan = false) {g : List Token → List Token} (hnil : g [] = [])
    (hnext : ∀ more, consumed f ((s.scan).1 :: more) (needed + 1) = (s.scan).1 :: g more)
    (ih : (after scan n (s.scan).2).tokens = (s.scan).2.tokens ↔
      ∀ t ∈ g (s.scan).2.pending, s.deg t = none) :
    (after scan (n + 1) s).tokens = s.tokens ↔
      ∀ t ∈ consumed f s.pending (needed + 1), s.deg t = none := by
  rw [after]
  rw [scan_of_vector hscan] at hnext ih ⊢
  rcases s.scanFromTokens_cases with ⟨hpending, h⟩ | ⟨t, more, hpending, hdeg, h, hmore⟩ |
    ⟨t, more, lkind, lval, rkind, rval, hpending, hdeg, h, hmore⟩
  · rw [h] at ih ⊢
    rw [hpending, hnil] at ih
    rw [hpending, consumed]
    exact ih
  · rw [h] at hnext ih ⊢
    rw [hmore] at ih
    rw [hpending, hnext more, List.forall_mem_cons]
    exact ih.trans ⟨fun hall => ⟨hdeg, hall⟩, fun hall => hall.2⟩
  · rw [h, hpending]
    refine iff_of_false (fun hsame => ?_) fun hall => ?_
    · have hcontinues := s.scanFromTokens_continues
      rw [h] at hcontinues
      have hset := hcontinues.tokens_eq (after_continues n _) hsame
      have hrest : rest t rkind rval :: more = t :: more := by
        rw [← hmore, ← hpending]
        exact congrArg (List.drop s.curToken) hset
      have hlt := (splitsLeft_of_lookup (lookup_of_deg hdeg)).2
      have hkind : rkind = t.kind := congrArg Token.kind (List.cons.inj hrest).1
      exact absurd hlt (hkind ▸ Nat.lt_irrefl _)
    · have hnone := hall t List.mem_cons_self
      rw [hdeg] at hnone
      exact absurd hnone (by simp)

lemma consumed_zero (f : Filling source) (tokens : List Token) : consumed f tokens 0 = [] := by
  cases tokens <;> rfl

lemma scan_split (s : Scanning) (hscan : s.enableScan = false) :
    (s.scan).2.splitAmbiguousToken = s.splitAmbiguousToken := by
  rw [scan_of_vector hscan]
  rcases s.scanFromTokens_cases with ⟨-, h⟩ | ⟨_, _, -, -, h, -⟩ | ⟨_, _, _, _, _, _, -, -, h, -⟩
  all_goals rw [h]

lemma scan_deg (s : Scanning) (hscan : s.enableScan = false) (t : Token) :
    (s.scan).2.deg t = s.deg t := by
  unfold deg
  rw [s.scan_split hscan]

/-- Filling the queue changes the vector when one of the tokens that it takes is split. -/
lemma tokens_reads (f : Filling source) (needed : ℕ) (s : Scanning) (hscan : s.enableScan = false) :
    (after scan (source.reads f needed s) s).tokens = s.tokens ↔
      ∀ t ∈ consumed f s.pending needed, s.deg t = none := by
  refine source.reads_rule
    (P := fun needed s n => s.enableScan = false → ((after scan n s).tokens = s.tokens ↔
      ∀ t ∈ consumed f s.pending needed, s.deg t = none)) ?_ ?_ ?_ ?_ needed s hscan
  · intro s _
    rw [consumed_zero]
    exact iff_of_true rfl fun t ht => absurd ht List.not_mem_nil
  · intro needed s hstop hscan
    have hstop : f.stop (s.scan).1 = true := hstop
    refine tokens_reads_step f needed 0 hscan (g := fun _ => []) rfl (fun more => ?_) ?_
    · rw [consumed, if_pos hstop]
    · exact iff_of_true rfl fun t ht => absurd ht List.not_mem_nil
  · intro needed s n hstop hcount ih hscan
    have hstop : f.stop (s.scan).1 = false := hstop
    have hcount : f.count (s.scan).1 = true := hcount
    refine tokens_reads_step f needed n hscan (g := fun more => consumed f more needed) rfl
      (fun more => ?_) ?_
    · rw [consumed, hstop, if_neg Bool.false_ne_true, if_pos hcount]
    · refine (ih ((s.scan_enableScan).trans hscan)).trans (forall₂_congr fun t _ => ?_)
      exact Eq.to_iff (congrArg (· = none) (s.scan_deg hscan t))
  · intro needed s n hstop hcount ih hscan
    have hstop : f.stop (s.scan).1 = false := hstop
    have hcount : f.count (s.scan).1 = false := hcount
    refine tokens_reads_step f needed n hscan (g := fun more => consumed f more (needed + 1)) rfl
      (fun more => ?_) ?_
    · rw [consumed, hstop, hcount, if_neg Bool.false_ne_true, if_neg Bool.false_ne_true]
    · refine (ih ((s.scan_enableScan).trans hscan)).trans (forall₂_congr fun t _ => ?_)
      exact Eq.to_iff (congrArg (· = none) (s.scan_deg hscan t))

/-! ## Vectors that differ -/

/-- What is compared of a token that is delivered. -/
def shown (t : Token) : TokenKind × List UInt8 × Position × Position :=
  (t.kind, t.value, t.beginPos, t.endPos)

/-- What a token of a vector delivers first, and what it leaves in its place. -/
def splitToken (s : Scanning) (t : Token) : Token × List Token :=
  match s.deg t with
  | none => (t, [])
  | some (lkind, lval, rkind, rval) =>
    (Token.make lkind (bytes lval) t.beginPos t.endPos, [rest t rkind rval])

lemma splitToken_beginPos (s : Scanning) (t : Token) : (s.splitToken t).1.beginPos = t.beginPos := by
  unfold splitToken
  split <;> rfl

lemma scan_splitToken {s : Scanning} (hscan : s.enableScan = false) {t : Token} {more : List Token}
    (h : s.pending = t :: more) :
    (s.scan).1 = (s.splitToken t).1 ∧ (s.scan).2.pending = (s.splitToken t).2 ++ more := by
  rw [scan_of_vector hscan]
  unfold splitToken
  rcases s.scanFromTokens_cases with ⟨hpending, -⟩ | ⟨t', more', hpending, hdeg, hs, hmore⟩ |
    ⟨t', more', lkind, lval, rkind, rval, hpending, hdeg, hs, hmore⟩
  · exact absurd (h.symm.trans hpending) (by simp)
  · obtain ⟨rfl, rfl⟩ := List.cons.inj (h.symm.trans hpending)
    rw [hdeg, hs, hmore]
    exact ⟨rfl, rfl⟩
  · obtain ⟨rfl, rfl⟩ := List.cons.inj (h.symm.trans hpending)
    rw [hdeg, hs, hmore]
    exact ⟨rfl, rfl⟩

lemma tokensLeft_splitToken (s : Scanning) (t : Token) (more : List Token) :
    tokensLeft ((s.splitToken t).2 ++ more) < tokensLeft (t :: more) := by
  have hpos : tokensLeft more < tokensLeft (t :: more) := by
    rw [tokensLeft_cons]
    exact Nat.lt_add_of_pos_left (Nat.lt_of_lt_of_le Nat.zero_lt_one (Nat.le_add_right _ _))
  unfold splitToken
  split
  · exact hpos
  · rename_i lkind lval rkind rval hdeg
    have hsplits := (splitsLeft_of_lookup (lookup_of_deg hdeg)).2
    rw [List.singleton_append, tokensLeft_cons, tokensLeft_cons]
    exact Nat.add_lt_add_right (Nat.add_lt_add_left hsplits 1) _

/-- A vector of which a token was split delivers other tokens. -/
lemma exists_shown_ne {s s' : Scanning} (hscan : s.enableScan = false)
    (hscan' : s'.enableScan = false) (hsplit : s'.splitAmbiguousToken = s.splitAmbiguousToken)
    (hshifted : List.Forall₂ Shifted s.pending s'.pending) (hne : s'.pending ≠ s.pending) :
    ∃ n, (taken scan n s').map shown ≠ (taken scan n s).map shown := by
  -- By induction on what is left up to the first token that differs.
  induction hleft : tokensLeft s.pending using Nat.strong_induction_on generalizing s s' with
  | _ left ih =>
    cases hpending : s.pending with
    | nil =>
      rw [hpending] at hshifted hne
      exact absurd (List.forall₂_nil_left_iff.mp hshifted) hne
    | cons t more =>
      rw [hpending] at hshifted hne
      obtain ⟨t', more', hhead, htail, hpending'⟩ := List.forall₂_cons_left_iff.mp hshifted
      obtain ⟨hfirst, hmore⟩ := scan_splitToken hscan hpending
      obtain ⟨hfirst', hmore'⟩ := scan_splitToken hscan' hpending'
      by_cases hsame : t' = t
      · have htoken : s'.splitToken t' = s.splitToken t := by
          unfold splitToken deg
          rw [hsplit, hsame]
        rw [htoken] at hfirst' hmore'
        rw [hpending', hsame] at hne
        obtain ⟨n, hn⟩ := ih (tokensLeft (s.scan).2.pending)
          (by
            rw [← hleft, hpending, hmore]
            exact s.tokensLeft_splitToken t more)
          ((s.scan_enableScan).trans hscan) ((s'.scan_enableScan).trans hscan')
          (by rw [scan_split _ hscan, scan_split _ hscan', hsplit])
          (by
            rw [hmore, hmore']
            exact List.rel_append (forall₂_shifted_refl _) htail)
          (fun heq => by
            rw [hmore, hmore'] at heq
            exact hne (congrArg (t :: ·) (List.append_cancel_left heq)))
          rfl
        refine ⟨n + 1, fun heq => hn ?_⟩
        rw [taken, taken, List.map_cons, List.map_cons] at heq
        exact (List.cons.inj heq).2
      · refine ⟨1, fun heq => ?_⟩
        have hone : ∀ s : Scanning, taken scan 1 s = [(s.scan).1] := fun _ => rfl
        rw [hone, hone, hfirst, hfirst', List.map_cons, List.map_cons] at heq
        have hbegin := congrArg (fun x => x.2.2.1) (List.cons.inj heq).1
        dsimp only [shown] at hbegin
        rw [splitToken_beginPos, splitToken_beginPos] at hbegin
        exact hhead.beginPos_ne hsame hbegin

/-- Two states of one vector that deliver the same tokens. -/
structure AgreeVector (s s' : Scanning) : Prop where
  vector : s.enableScan = false ∧ s'.enableScan = false
  split : s'.splitAmbiguousToken = s.splitAmbiguousToken
  tokens : s'.tokens = s.tokens
  curToken : s'.curToken = s.curToken
  pos : s'.pos = s.pos

lemma scan_congr_vector {s s' : Scanning} (h : AgreeVector s s') :
    (s.scan).1 = (s'.scan).1 ∧ AgreeVector (s.scan).2 (s'.scan).2 := by
  rw [scan_of_vector h.vector.1, scan_of_vector h.vector.2]
  unfold scanFromTokens
  rw [h.tokens, h.curToken, h.split, h.pos]
  split
  · exact ⟨rfl, h⟩
  · split
    · exact ⟨rfl, h.vector, rfl, rfl, rfl, rfl⟩
    · exact ⟨rfl, h.vector, rfl, rfl, rfl, rfl⟩

end Scanning

end Cangjie
