import CangjieCompiler.Lex.LexerImpl

/-!
# Looking ahead is invisible

The tokens that were delivered, but for comments, followed by those in the queue, are the first
tokens of the text that are no comments.  So looking ahead in any way changes nothing that is
delivered, and what is seen ahead is what is delivered next.
-/

namespace Cangjie.LexerImpl

open Scanning

/-! ## Runs -/

/-- The operations, of which those that look ahead skip comments. -/
inductive LookOp where
  | next
  | lookAhead (num : ℕ)
  | lookAheadSkipNL (num : ℕ)
  | reserveToken (num : ℕ) (skipNewline : Bool)
  | seeing (kinds : List TokenKind) (skipNewline : Bool)

/-- One operation: the tokens it delivers through the next-token function, and the lexer after it.
-/
def look (l : LexerImpl) : LookOp → List Token × LexerImpl
  | .next => ([(l.next).1], (l.next).2)
  | .lookAhead num => ([], (l.lookAhead num).2)
  | .lookAheadSkipNL num => ([], (l.lookAheadSkipNL num).2)
  | .reserveToken num skipNewline => ([], l.reserveToken num skipNewline true)
  | .seeing kinds skipNewline => ([], (l.seeing kinds skipNewline true).2)

/-- The tokens that a sequence of operations delivers, and the lexer after it. -/
def looks (l : LexerImpl) : List LookOp → List Token × LexerImpl
  | [] => ([], l)
  | op :: ops =>
    let (delivered, l) := l.look op
    let (rest, l) := l.looks ops
    (delivered ++ rest, l)

/-- The tokens that are no comments. -/
def withoutComments (tokens : List Token) : List Token :=
  tokens.filter fun token => decide (token.kind ≠ .COMMENT)

/-- The tokens that are no comments and, when these are skipped, no newlines. -/
def wanted (skipNewline : Bool) (tokens : List Token) : List Token :=
  (withoutComments tokens).filter fun token => !skipNewline || decide (token.kind ≠ .NL)

/-! ## The queue and the source -/

/-- Calling the next-token function only delivers the queue, and then what the source delivers. -/
lemma taken_next (l : LexerImpl) (n : ℕ) :
    taken next n l = l.lookAheadCache.take n ++
      taken scan (n - l.lookAheadCache.length) l.scanning := by
  induction n generalizing l with
  | zero => simp [taken]
  | succ n ih =>
    rw [taken, ih]
    unfold next
    cases hcache : l.lookAheadCache with
    | nil => simp [taken]
    | cons token rest => simp

/-- With an empty queue the next token comes from the source. -/
lemma next_of_empty {l : LexerImpl} (h : l.lookAheadCache = []) :
    l.next = ((l.scanning.scan).1, { l with scanning := (l.scanning.scan).2 }) := by
  unfold next
  rw [h]

lemma taken_next_of_empty {l : LexerImpl} (h : l.lookAheadCache = []) (n : ℕ) :
    taken next n l = taken scan n l.scanning := by
  rw [taken_next, h, List.take_nil, List.nil_append, List.length_nil, Nat.sub_zero]

/-- A lexer that has delivered some tokens of a source: with the queue they are, but for comments,
what the source delivers first. -/
structure Delivered (start : Scanning) (delivered : List Token) (l : LexerImpl) : Prop where
  noComments : ∀ token ∈ l.lookAheadCache, token.kind ≠ .COMMENT
  reads : ∃ n, l.scanning = after scan n start ∧
    withoutComments delivered ++ l.lookAheadCache = withoutComments (taken scan n start)

lemma mem_withoutComments {tokens : List Token} {token : Token}
    (h : token ∈ withoutComments tokens) : token.kind ≠ .COMMENT :=
  of_decide_eq_true (List.mem_filter.mp h).2

lemma withoutComments_append (tokens tokens' : List Token) :
    withoutComments (tokens ++ tokens') = withoutComments tokens ++ withoutComments tokens' :=
  List.filter_append tokens tokens'

/-- Filling the queue with all tokens but comments. -/
lemma fill_withoutComments (l : LexerImpl) (f : Filling source) (needed : ℕ)
    (hkeep : ∀ token, f.keep token = decide (token.kind ≠ .COMMENT)) :
    (l.fill f needed).scanning = after scan (source.reads f needed l.scanning) l.scanning ∧
      (l.fill f needed).lookAheadCache = l.lookAheadCache ++
        withoutComments (taken scan (source.reads f needed l.scanning) l.scanning) := by
  have hfill := source.fill_eq f needed l.scanning l.lookAheadCache
  have hfilter : f.keep = fun token => decide (token.kind ≠ .COMMENT) := funext hkeep
  unfold LexerImpl.fill
  rw [hfill, hfilter]
  exact ⟨rfl, rfl⟩

lemma Delivered.fill {start : Scanning} {delivered : List Token} {l : LexerImpl}
    (h : Delivered start delivered l) (f : Filling source) (needed : ℕ)
    (hkeep : ∀ token, f.keep token = decide (token.kind ≠ .COMMENT)) :
    Delivered start delivered (l.fill f needed) := by
  obtain ⟨hscanning, hcache⟩ := l.fill_withoutComments f needed hkeep
  obtain ⟨n, hstate, hreads⟩ := h.reads
  refine ⟨fun token hmem => ?_, n + source.reads f needed l.scanning, ?_, ?_⟩
  · rw [hcache] at hmem
    rcases List.mem_append.mp hmem with hmem | hmem
    · exact h.noComments token hmem
    · exact mem_withoutComments hmem
  · rw [hscanning, after_add, hstate]
  · rw [hcache, ← List.append_assoc, hreads, taken_add, withoutComments_append, hstate]

lemma Delivered.next {start : Scanning} {delivered : List Token} {l : LexerImpl}
    (h : Delivered start delivered l) :
    Delivered start (delivered ++ [(l.next).1]) (l.next).2 := by
  obtain ⟨n, hstate, hreads⟩ := h.reads
  unfold LexerImpl.next
  cases hcache : l.lookAheadCache with
  | nil =>
    rw [hcache, List.append_nil] at hreads
    refine ⟨fun token hmem => ?_, n + 1, ?_, ?_⟩
    · exact absurd hmem List.not_mem_nil
    · rw [after_add, ← hstate]
      rfl
    · dsimp only
      rw [List.append_nil, withoutComments_append, hreads, taken_add, withoutComments_append,
        ← hstate]
      rfl
  | cons token rest =>
    have htoken := h.noComments token (by rw [hcache]; exact List.mem_cons_self)
    have hsingle : withoutComments [token] = [token] := by
      unfold withoutComments
      rw [List.filter_cons_of_pos (by simpa using htoken), List.filter_nil]
    refine ⟨fun t hmem => h.noComments t (by rw [hcache]; exact List.mem_cons_of_mem _ hmem), n,
      hstate, ?_⟩
    dsimp only
    rw [withoutComments_append, hsingle, List.append_assoc, ← hreads, hcache]
    rfl

lemma Delivered.look {start : Scanning} {delivered : List Token} {l : LexerImpl}
    (h : Delivered start delivered l) (op : LookOp) :
    Delivered start (delivered ++ (l.look op).1) (l.look op).2 := by
  cases op with
  | next => exact h.next
  | lookAhead num =>
    have hfill := h.fill lookAheadFilling (num - l.lookAheadCache.length) fun _ => rfl
    exact (List.append_nil delivered).symm ▸ hfill
  | lookAheadSkipNL num =>
    have hfill := h.fill lookAheadSkipNLFilling
      (num - l.lookAheadCache.countP fun token => decide (token.kind ≠ .NL)) fun _ => rfl
    exact (List.append_nil delivered).symm ▸ hfill
  | reserveToken num skipNewline =>
    have hfill := h.fill (reserveFilling skipNewline true)
      (num - if skipNewline then l.lookAheadCache.countP fun token => decide (token.kind ≠ .NL)
        else l.lookAheadCache.length) fun _ => by simp [reserveFilling]
    exact (List.append_nil delivered).symm ▸ hfill
  | seeing kinds skipNewline =>
    have hfill := h.fill (reserveFilling skipNewline true)
      (kinds.length + 1 - if skipNewline then
        l.lookAheadCache.countP fun token => decide (token.kind ≠ .NL)
        else l.lookAheadCache.length) fun _ => by simp [reserveFilling]
    have hstate : (l.seeing kinds skipNewline true).2 =
        l.reserveToken (kinds.length + 1) skipNewline true := by
      unfold seeing
      dsimp only
      split <;> rfl
    unfold LexerImpl.look
    dsimp only
    rw [hstate, List.append_nil]
    exact hfill

/-- In every run the delivered tokens and the queue are what the source delivers first. -/
lemma Delivered.looks {start : Scanning} {delivered : List Token} {l : LexerImpl}
    (h : Delivered start delivered l) (ops : List LookOp) :
    Delivered start (delivered ++ (l.looks ops).1) (l.looks ops).2 := by
  induction ops generalizing delivered l with
  | nil =>
    rw [LexerImpl.looks, List.append_nil]
    exact h
  | cons op rest ih =>
    have hrest := ih (h.look op)
    rw [List.append_assoc] at hrest
    exact hrest

lemma delivered_ofText (scanner : TokenScanner) (input : LexerInput) (split : Bool) :
    Delivered (ofText scanner input split).scanning [] (ofText scanner input split) :=
  ⟨fun _ h => absurd h List.not_mem_nil, 0, rfl, rfl⟩

/-- What is delivered from now on continues what was delivered. -/
lemma Delivered.prefix_of_taken {start : Scanning} {delivered : List Token} {l : LexerImpl}
    (h : Delivered start delivered l) (m : ℕ) :
    ∃ n, withoutComments (delivered ++ taken LexerImpl.next m l) <+:
      withoutComments (taken scan n start) := by
  obtain ⟨n, hstate, hreads⟩ := h.reads
  have hcache : withoutComments l.lookAheadCache = l.lookAheadCache :=
    List.filter_eq_self.mpr fun token hmem => decide_eq_true (h.noComments token hmem)
  refine ⟨n + (m - l.lookAheadCache.length), ?_⟩
  rw [taken_next, withoutComments_append, withoutComments_append, taken_add, withoutComments_append,
    ← hreads, ← hstate, List.append_assoc]
  refine List.prefix_append_right_inj _ |>.mpr ?_
  by_cases hle : m ≤ l.lookAheadCache.length
  · rw [Nat.sub_eq_zero_of_le hle]
    have htake : withoutComments (l.lookAheadCache.take m) <+: withoutComments l.lookAheadCache :=
      (List.take_prefix m _).filter _
    rw [hcache] at htake
    simpa [taken, withoutComments] using htake
  · rw [List.take_of_length_le (Nat.le_of_not_le hle), hcache]
    all_goals exact List.prefix_rfl

/-! ## Seeing -/

lemma equalKinds_eq (kinds : List TokenKind) (cache : List Token)
    (h : kinds.length ≤ cache.length) :
    equalKinds kinds cache = some (decide (kinds <+: cache.map Token.kind)) := by
  induction kinds generalizing cache with
  | nil => simp [equalKinds]
  | cons kind kinds ih =>
    cases cache with
    | nil => exact absurd h (by simp)
    | cons token rest =>
      have hrest := ih rest (Nat.le_of_succ_le_succ h)
      rw [equalKinds, List.map_cons]
      by_cases hkind : kind = token.kind
      · rw [if_pos hkind, hrest]
        simp [hkind, List.cons_prefix_cons]
      · rw [if_neg hkind]
        simp [hkind, List.cons_prefix_cons]

lemma equalKindsSkipNL_eq (kinds : List TokenKind) (cache : List Token)
    (h : kinds.length ≤ (cache.filter fun token => decide (token.kind ≠ .NL)).length) :
    equalKindsSkipNL kinds cache = some (decide
      (kinds <+: (cache.filter fun token => decide (token.kind ≠ .NL)).map Token.kind)) := by
  induction cache generalizing kinds with
  | nil =>
    cases kinds with
    | nil => simp [equalKindsSkipNL]
    | cons kind kinds => exact absurd h (by simp)
  | cons token rest ih =>
    cases kinds with
    | nil => simp [equalKindsSkipNL]
    | cons kind kinds =>
      rw [equalKindsSkipNL]
      by_cases hnl : token.kind = .NL
      · have hfilter : (token :: rest).filter (fun token => decide (token.kind ≠ .NL)) =
            rest.filter fun token => decide (token.kind ≠ .NL) :=
          List.filter_cons_of_neg (by simp [hnl])
        rw [hfilter] at h ⊢
        rw [if_pos hnl, ih _ h]
      · have hfilter : (token :: rest).filter (fun token => decide (token.kind ≠ .NL)) =
            token :: rest.filter fun token => decide (token.kind ≠ .NL) :=
          List.filter_cons_of_pos (by simp [hnl])
        rw [hfilter] at h ⊢
        rw [if_neg hnl, List.map_cons]
        by_cases hkind : kind = token.kind
        · rw [if_neg (not_not.mpr hkind), ih kinds (Nat.le_of_succ_le_succ h)]
          simp [hkind, List.cons_prefix_cons]
        · rw [if_pos hkind]
          simp [hkind, List.cons_prefix_cons]

lemma wanted_append (skipNewline : Bool) (tokens tokens' : List Token) :
    wanted skipNewline (tokens ++ tokens') = wanted skipNewline tokens ++ wanted skipNewline tokens' := by
  unfold wanted
  rw [withoutComments_append, List.filter_append]

lemma wanted_withoutComments (skipNewline : Bool) (tokens : List Token) :
    wanted skipNewline (withoutComments tokens) = wanted skipNewline tokens := by
  unfold wanted withoutComments
  rw [List.filter_filter, List.filter_filter, List.filter_filter]
  congr 1
  funext token
  simp

/-- What reserving leaves in the queue: enough tokens, which come next. -/
lemma reserveToken_cache (l : LexerImpl) (hcomments : ∀ t ∈ l.lookAheadCache, t.kind ≠ .COMMENT)
    (num : ℕ) (skipNewline : Bool) :
    ∃ n, wanted skipNewline (l.reserveToken num skipNewline true).lookAheadCache =
        wanted skipNewline (taken next n l) ∧
      withoutComments (l.reserveToken num skipNewline true).lookAheadCache =
        (l.reserveToken num skipNewline true).lookAheadCache ∧
      num ≤ (wanted skipNewline (l.reserveToken num skipNewline true).lookAheadCache).length := by
  have hcache : withoutComments l.lookAheadCache = l.lookAheadCache :=
    List.filter_eq_self.mpr fun token hmem => decide_eq_true (hcomments token hmem)
  have hindex : (if skipNewline then l.lookAheadCache.countP fun token => decide (token.kind ≠ .NL)
      else l.lookAheadCache.length) = (wanted skipNewline l.lookAheadCache).length := by
    unfold wanted
    rw [hcache]
    cases skipNewline with
    | false => simp
    | true => simp [List.countP_eq_length_filter]
  have hreserve : l.reserveToken num skipNewline true =
      l.fill (reserveFilling skipNewline true)
        (num - (wanted skipNewline l.lookAheadCache).length) := by
    rw [← hindex]
    rfl
  generalize hneeded : num - (wanted skipNewline l.lookAheadCache).length = needed at hreserve
  obtain ⟨-, hafter⟩ := l.fill_withoutComments (reserveFilling skipNewline true) needed
    fun _ => by simp [reserveFilling]
  have hcount := source.countP_reads (f := reserveFilling skipNewline true) (fun _ => rfl) needed
    l.scanning
  generalize source.reads (reserveFilling skipNewline true) needed l.scanning = n at hafter hcount
  have hwanted : (wanted skipNewline (taken scan n l.scanning)).length = needed := by
    rw [← hcount, List.countP_eq_length_filter]
    unfold wanted withoutComments reserveFilling
    rw [List.filter_filter]
    congr 2
    funext token
    simp [Bool.and_comm]
  rw [hreserve, hafter]
  refine ⟨l.lookAheadCache.length + n, ?_, ?_, ?_⟩
  · rw [taken_next, List.take_of_length_le (Nat.le_add_right _ _), Nat.add_sub_cancel_left,
      wanted_append, wanted_append, wanted_withoutComments]
  · rw [withoutComments_append, hcache]
    unfold withoutComments
    rw [List.filter_filter]
    simp
  · rw [wanted_append, wanted_withoutComments, List.length_append, hwanted, ← hneeded]
    omega

/-- What is seen ahead is what is delivered next. -/
lemma seeing_iff (l : LexerImpl) (hcomments : ∀ t ∈ l.lookAheadCache, t.kind ≠ .COMMENT)
    (kinds : List TokenKind) (skipNewline : Bool) :
    ∃ seen, (l.seeing kinds skipNewline true).1 = some seen ∧
      (seen = true ↔ ∃ n, kinds <+: (wanted skipNewline (taken next n l)).map Token.kind) := by
  obtain ⟨n, hnext, hcache, hlength⟩ := l.reserveToken_cache hcomments (kinds.length + 1) skipNewline
  have henough := Nat.le_of_succ_le hlength
  refine ⟨decide (kinds <+: (wanted skipNewline (taken next n l)).map Token.kind), ?_, ?_⟩
  · rw [← hnext]
    unfold seeing
    dsimp only
    unfold wanted at henough ⊢
    rw [hcache] at henough ⊢
    cases skipNewline with
    | false =>
      simp only [Bool.not_false, Bool.true_or, List.filter_true] at henough ⊢
      rw [if_neg Bool.false_ne_true, equalKinds_eq kinds _ henough]
    | true =>
      simp only [Bool.not_true, Bool.false_or] at henough ⊢
      rw [if_pos trivial, equalKindsSkipNL_eq kinds _ henough]
  · rw [decide_eq_true_iff]
    refine ⟨fun h => ⟨n, h⟩, ?_⟩
    rintro ⟨m, h⟩
    have hmono : ∀ {i j : ℕ}, i ≤ j →
        (wanted skipNewline (taken next i l)).map Token.kind <+:
          (wanted skipNewline (taken next j l)).map Token.kind := fun hle =>
      (((taken_prefix_of_le next hle l).filter _).filter _).map _
    rcases Nat.le_total m n with hle | hle
    · exact h.trans (hmono hle)
    · refine List.prefix_of_prefix_length_le h (hmono hle) ?_
      rw [List.length_map, ← hnext]
      exact henough

/-! ## The end -/

/-- No character but the end of the text reads as the end. -/
lemma readUTF8CharFromMultiBytes_ne (text : List UInt8) (pNext : ℕ) (success : Bool) (byte1 : ℕ) :
    (readUTF8CharFromMultiBytes text pNext success byte1).ch ≠ -1 := by
  unfold readUTF8CharFromMultiBytes readTruncated readChar ERROR_UTF8
  dsimp only
  split_ifs <;> dsimp only <;> omega

lemma skipIllegal_ne (text : List UInt8) (fuel pCurrent : ℕ) (r : ReadChar) (h : r.ch ≠ -1) :
    (Cursor.skipIllegal text fuel pCurrent r).2.ch ≠ -1 := by
  induction fuel generalizing r with
  | zero => exact h
  | succ fuel ih =>
    unfold Cursor.skipIllegal
    split
    · dsimp only
      split
      · exact (by decide : ERROR_UTF8 ≠ -1)
      · exact ih _ (readUTF8CharFromMultiBytes_ne _ _ _ _)
    · exact h

lemma readUTF8Char_ne (input : LexerInput) (c : Cursor) (h : c.pNext < input.text.length) :
    (c.readUTF8Char input).currentChar ≠ -1 := by
  unfold Cursor.readUTF8Char
  dsimp only
  rw [if_neg (Nat.not_le.mpr h)]
  split
  · obtain ⟨-, -, hchar⟩ := tryRegisterLineOffset_pNext input _
    rw [hchar]
    dsimp only
    omega
  · exact skipIllegal_ne _ _ _ _ (readUTF8CharFromMultiBytes_ne _ _ _ _)

/-- The text is at its end. -/
def AtEnd (s : Scanning) : Prop := s.enableScan = true ∧ s.input.text.length ≤ s.cursor.pNext

lemma AtEnd.scan {s : Scanning} (h : AtEnd s) : (s.scan).1.kind = .END ∧ (s.scan).2 = s := by
  unfold Scanning.scan
  rw [h.1, Bool.not_true, if_neg Bool.false_ne_true]
  split_ifs
  · exact ⟨rfl, rfl⟩
  · exact ⟨rfl, rfl⟩
  · exact absurd h.2 ‹_›

/-- The end is delivered at the end of the text only. -/
lemma atEnd_of_scan {s : Scanning} (hscan : s.enableScan = true) (h : (s.scan).1.kind = .END) :
    AtEnd (s.scan).2 := by
  unfold Scanning.scan at h ⊢
  rw [hscan, Bool.not_true, if_neg Bool.false_ne_true] at h ⊢
  split_ifs at h ⊢ with hempty hend
  · exact ⟨hscan, hempty ▸ Nat.zero_le _⟩
  · exact ⟨hscan, hend⟩
  · have hchar : (s.skipBlanks.firstChar).currentChar = -1 := by
      by_contra hne
      unfold scanBase at h
      dsimp only at h
      rw [if_neg hne] at h
      have hnl : TokenKind.NL ≠ .END := by decide
      split_ifs at h
      · exact hnl h
      · exact hnl h
      · exact s.skipBlanks.scanner.notEnd _ _ _ _ h
    have hlength : s.skipBlanks.input.text.length ≤ s.skipBlanks.cursor.pNext := by
      by_contra hlt
      exact readUTF8Char_ne s.skipBlanks.input { s.skipBlanks.cursor with success := true }
        (Nat.not_le.mp hlt) hchar
    unfold scanBase
    dsimp only
    rw [if_pos hchar]
    refine ⟨hscan, ?_⟩
    dsimp only
    rw [(s.skipBlanks.firstChar_of_end hlength).2]
    exact hlength

/-- A lexer with an empty queue at the end of the text only delivers end tokens. -/
lemma next_of_atEnd {l : LexerImpl} (hcache : l.lookAheadCache = []) (hend : AtEnd l.scanning)
    (n : ℕ) : (next (after next n l)).1.kind = .END := by
  have hnext : l.next = ((l.scanning.scan).1, l) := by
    rw [next_of_empty hcache, hend.scan.2]
  induction n with
  | zero =>
    rw [after, hnext]
    exact hend.scan.1
  | succ n ih =>
    rw [after, hnext]
    exact ih

/-- Without looking ahead the queue stays empty. -/
lemma after_next_text {l : LexerImpl} (hcache : l.lookAheadCache = [])
    (hscan : l.scanning.enableScan = true) (n : ℕ) :
    (after next n l).lookAheadCache = [] ∧ (after next n l).scanning.enableScan = true := by
  induction n generalizing l with
  | zero => exact ⟨hcache, hscan⟩
  | succ n ih =>
    rw [after, next_of_empty hcache]
    exact ih hcache ((l.scanning.scan_enableScan).trans hscan)

/-! ## Looking ahead -/

/-- For every text and every sequence of operations: the tokens delivered so far and those delivered
from now on are, but for comments, a prefix of those that the next-token function alone delivers;
after an end token only end tokens follow there; and the kinds that are seen ahead are those of the
tokens that are delivered next. -/
theorem looking_ahead_invisible (scanner : TokenScanner) (input : LexerInput) (split : Bool)
    (ops : List LookOp) :
    (∀ m, ∃ n, withoutComments (((ofText scanner input split).looks ops).1 ++
        taken next m ((ofText scanner input split).looks ops).2) <+:
      withoutComments (taken next n (ofText scanner input split))) ∧
    (∀ n m, (next (after next n (ofText scanner input split))).1.kind = .END → n ≤ m →
      (next (after next m (ofText scanner input split))).1.kind = .END) ∧
    ∀ kinds skipNewline, ∃ seen,
      (((ofText scanner input split).looks ops).2.seeing kinds skipNewline true).1 = some seen ∧
        (seen = true ↔ ∃ n, kinds <+:
          (wanted skipNewline (taken next n ((ofText scanner input split).looks ops).2)).map
            Token.kind) := by
  have hdelivered : Delivered (ofText scanner input split).scanning
      ((ofText scanner input split).looks ops).1 ((ofText scanner input split).looks ops).2 :=
    (delivered_ofText scanner input split).looks ops
  refine ⟨fun m => ?_, fun n m hend hle => ?_, fun kinds skipNewline => ?_⟩
  · obtain ⟨n, hn⟩ := hdelivered.prefix_of_taken m
    rw [← taken_next_of_empty (l := ofText scanner input split) rfl] at hn
    exact ⟨n, hn⟩
  · obtain ⟨k, rfl⟩ := Nat.exists_eq_add_of_le hle
    obtain ⟨hcache, hscan⟩ := after_next_text (l := ofText scanner input split) rfl rfl n
    rw [after_add]
    generalize after next n (ofText scanner input split) = l at hend hcache hscan ⊢
    cases k with
    | zero => exact hend
    | succ k =>
      rw [next_of_empty hcache] at hend
      rw [after, next_of_empty hcache]
      exact next_of_atEnd (l := { l with scanning := (l.scanning.scan).2 }) hcache
        (atEnd_of_scan hscan hend) k
  · exact seeing_iff _ hdelivered.noComments kinds skipNewline

end Cangjie.LexerImpl
