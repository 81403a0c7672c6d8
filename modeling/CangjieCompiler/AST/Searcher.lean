import CangjieCompiler.Foundations.PrefixTree
import CangjieCompiler.AST.Position
import Mathlib

/-!
# Searching symbols by position

The index of a file's symbols is a prefix tree of their position strings.  A search for the
symbols behind or before a position walks down along the position's string, climbs back and
collects at every node the children on one side (`getIDsGreaterThanPos`,
`getIDsLessThanPos`, `getIDsWithinPosXByRange`).

The climb ends when it reaches the depth of the file's digits, before it has looked at the node of
the file itself.  The children of that node are the first digits of the line numbers, so that a
search only answers among the lines whose first digit is the position's; `searches_exact_iff` says
for which symbols and positions the answers are exact.
-/

namespace Cangjie

open OrderedMap PrefixTree

variable {σ : Type} [DecidableEq σ]

/-! ## The searches -/

/-- `std::map::lower_bound` as the entries from there on. -/
def lowerBound (c : Char) (next : List (Char × PrefixTree Char σ)) :
    List (Char × PrefixTree Char σ) :=
  next.dropWhile fun e => e.1 < c

/-- `std::map::upper_bound` as the entries from there on. -/
def upperBound (c : Char) (next : List (Char × PrefixTree Char σ)) :
    List (Char × PrefixTree Char σ) :=
  next.dropWhile fun e => e.1 ≤ c

/-- `Searcher::Union` with the symbols of every node of a range. -/
def unionRange (ids : Finset σ) (range : List (Char × PrefixTree Char σ)) : Finset σ :=
  range.foldl (fun ids e => ids ∪ e.2.ids) ids

/-- The index built by `Trie::Insert` of the position strings of symbols. -/
def posTrie (lim : PosLimits) (symbols : List σ) (pos : σ → Position) : PrefixTree Char σ :=
  build (symbols.map fun s => (posToStr lim (pos s), s))

/-- `PosSearchApi::FindCommonRootInPosTrie`: the node with its ancestors. -/
def findCommonRootInPosTrie (posTrie : PrefixTree Char σ) (pos : List Char) :
    List (PrefixTree Char σ) :=
  commonRoot pos posTrie []

/-- One round of the loop of `GetIDsGreaterThanPos`. -/
def getIDsGreaterThanPosOfDepth (posStr : List Char) (depth : ℕ) (n : PrefixTree Char σ)
    (ids : Finset σ) (isClose : Bool) : Finset σ × Bool :=
  let c := posStr.getD depth (Char.ofNat 0)
  let start := if isClose then lowerBound c n.next else upperBound c n.next
  (unionRange ids start, false)

/-- `PosSearchApi::GetIDsGreaterThanPos`. -/
def getIDsGreaterThanPos (lim : PosLimits) (posTrie : PrefixTree Char σ) (pos : Position)
    (isClose : Bool) : Finset σ :=
  let posStr := posToStr lim pos
  climb (getIDsGreaterThanPosOfDepth posStr) lim.maxDigitsFile lim.maxDigitsPostion
    (findCommonRootInPosTrie posTrie posStr) ∅ isClose

/-- `PosSearchApi::GetIDsLessThanPosOfDepth`. -/
def getIDsLessThanPosOfDepth (posStr : List Char) (depth : ℕ) (n : PrefixTree Char σ)
    (ids : Finset σ) (isClose : Bool) : Finset σ × Bool :=
  let c := posStr.getD depth (Char.ofNat 0)
  let before := n.next.takeWhile fun e => e.1 < c
  match lowerBound c n.next with
  | [] => (unionRange ids before, isClose)
  | e :: _ =>
    if isClose && e.1 == c then (unionRange ids (before ++ [e]), false)
    else (unionRange ids before, false)

/-- `PosSearchApi::GetIDsLessThanPos`. -/
def getIDsLessThanPos (lim : PosLimits) (posTrie : PrefixTree Char σ) (pos : Position)
    (isClose : Bool) : Finset σ :=
  let posStr := posToStr lim pos
  climb (getIDsLessThanPosOfDepth posStr) lim.maxDigitsFile lim.maxDigitsPostion
    (findCommonRootInPosTrie posTrie posStr) ∅ isClose

/-- `PosSearchApi::GetIDsWithinPosXByRange`. -/
def getIDsWithinPosXByRange (lim : PosLimits) (posTrie : PrefixTree Char σ)
    (startPos endPos : Position) (isLeftClose isRightClose : Bool) : Finset σ :=
  if endPos ≤ startPos then ∅
  else getIDsGreaterThanPos lim posTrie startPos isLeftClose ∩
    getIDsLessThanPos lim posTrie endPos isRightClose

/-! ## One node -/

theorem mem_unionRange {ids : Finset σ} {range : List (Char × PrefixTree Char σ)} {s : σ} :
    s ∈ unionRange ids range ↔ s ∈ ids ∨ ∃ e ∈ range, s ∈ e.2.ids := by
  induction range generalizing ids with
  | nil => simp [unionRange]
  | cons e range ih =>
    have hstep : unionRange ids (e :: range) = unionRange (ids ∪ e.2.ids) range := rfl
    rw [hstep, ih, Finset.mem_union]
    simp [or_assoc]

section OneNode

omit [DecidableEq σ]

variable {next : List (Char × PrefixTree Char σ)}

theorem mem_lowerBound {c : Char} (hs : next.Pairwise (fun a b => a.1 < b.1))
    (e : Char × PrefixTree Char σ) : e ∈ lowerBound c next ↔ e ∈ next ∧ c ≤ e.1 := by
  refine (mem_dropWhile_iff (p := fun l => decide (l < c)) hs ?_ e).trans ?_
  · intro a b hab hb
    exact decide_eq_true (hab.trans (of_decide_eq_true hb))
  · rw [decide_eq_false_iff_not, not_lt]

/-- The lower bound of a key that is present is its entry. -/
theorem eq_of_lowerBound_cons {c : Char} (hs : next.Pairwise (fun a b => a.1 < b.1))
    {e : Char × PrefixTree Char σ} {rest : List (Char × PrefixTree Char σ)}
    (h : lowerBound c next = e :: rest) {m : PrefixTree Char σ} (hm : (c, m) ∈ next) :
    e = (c, m) := by
  have hsorted : (e :: rest).Pairwise (fun a b => a.1 < b.1) := by
    rw [← h]
    exact hs.sublist (List.dropWhile_sublist _)
  have hmem : (c, m) ∈ e :: rest := by
    rw [← h]
    exact (mem_lowerBound hs _).mpr ⟨hm, le_rfl⟩
  have hle : c ≤ e.1 := ((mem_lowerBound hs e).mp (h ▸ List.mem_cons_self)).2
  rcases List.mem_cons.mp hmem with heq | hrest
  · exact heq.symm
  · exact absurd ((List.pairwise_cons.mp hsorted).1 _ hrest) (not_lt.mpr hle)

theorem mem_upperBound {c : Char} (hs : next.Pairwise (fun a b => a.1 < b.1))
    (e : Char × PrefixTree Char σ) : e ∈ upperBound c next ↔ e ∈ next ∧ c < e.1 := by
  refine (mem_dropWhile_iff (p := fun l => decide (l ≤ c)) hs ?_ e).trans ?_
  · intro a b hab hb
    exact decide_eq_true (hab.le.trans (of_decide_eq_true hb))
  · rw [decide_eq_false_iff_not, not_le]

theorem mem_before {c : Char} (hs : next.Pairwise (fun a b => a.1 < b.1))
    (e : Char × PrefixTree Char σ) :
    e ∈ next.takeWhile (fun e => e.1 < c) ↔ e ∈ next ∧ e.1 < c := by
  refine (mem_takeWhile_iff (p := fun l => decide (l < c)) hs ?_ e).trans ?_
  · intro a b hab hb
    exact decide_eq_true (hab.trans (of_decide_eq_true hb))
  · rw [decide_eq_true_iff]

theorem child?_iff {n : PrefixTree Char σ} (hs : n.next.Pairwise (fun a b => a.1 < b.1)) (l : Char)
    (m : PrefixTree Char σ) : n.child? l = some m ↔ (l, m) ∈ n.next :=
  lookup_eq_some_iff hs

end OneNode

/-- The loop of `GetIDsGreaterThanPos` takes the children behind the position's letter. -/
theorem visits_greater (posStr : List Char) :
    Visits (σ := σ) (getIDsGreaterThanPosOfDepth posStr) (fun d c => c < d) posStr where
  mem_fst := by
    intro depth n ids isClose c hs hc s
    have hletter : posStr.getD depth (Char.ofNat 0) = c := by
      rw [List.getD_eq_getElem?_getD, hc, Option.getD_some]
    rw [getIDsGreaterThanPosOfDepth, hletter, mem_unionRange]
    refine or_congr_right ?_
    cases isClose with
    | false =>
      simp only [Bool.false_eq_true, if_false, mem_upperBound hs, child?_iff hs, false_and,
        or_false]
      constructor
      · rintro ⟨e, ⟨he, hlt⟩, hse⟩
        exact ⟨e.1, e.2, he, hse, hlt⟩
      · rintro ⟨d, m, hm, hsm, hlt⟩
        exact ⟨(d, m), ⟨hm, hlt⟩, hsm⟩
    | true =>
      simp only [if_true, mem_lowerBound hs, child?_iff hs, true_and]
      constructor
      · rintro ⟨e, ⟨he, hle⟩, hse⟩
        exact ⟨e.1, e.2, he, hse, (lt_or_eq_of_le hle).imp_right Eq.symm⟩
      · rintro ⟨d, m, hm, hsm, hd⟩
        exact ⟨(d, m), ⟨hm, hd.elim le_of_lt fun h => h.ge⟩, hsm⟩
  snd := by
    intro depth n ids isClose c hs hc h
    cases h

/-- A node's children before the position's letter, and that letter while the bound is closed. -/
theorem visits_less (posStr : List Char) :
    Visits (σ := σ) (getIDsLessThanPosOfDepth posStr) (fun d c => d < c) posStr where
  mem_fst := by
    intro depth n ids isClose c hs hc s
    have hletter : posStr.getD depth (Char.ofNat 0) = c := by
      rw [List.getD_eq_getElem?_getD, hc, Option.getD_some]
    have hbefore : (∃ e ∈ n.next.takeWhile (fun e => e.1 < c), s ∈ e.2.ids) ↔
        ∃ d m, n.child? d = some m ∧ s ∈ m.ids ∧ d < c := by
      simp only [mem_before hs, child?_iff hs]
      constructor
      · rintro ⟨e, ⟨he, hlt⟩, hse⟩
        exact ⟨e.1, e.2, he, hse, hlt⟩
      · rintro ⟨d, m, hm, hsm, hlt⟩
        exact ⟨(d, m), ⟨hm, hlt⟩, hsm⟩
    have hopen : (∃ d m, n.child? d = some m ∧ s ∈ m.ids ∧ (d < c ∨ (isClose = true ∧ d = c))) ↔
        (∃ e ∈ n.next.takeWhile (fun e => e.1 < c), s ∈ e.2.ids) ∨
          (isClose = true ∧ ∃ m, n.child? c = some m ∧ s ∈ m.ids) := by
      rw [hbefore]
      constructor
      · rintro ⟨d, m, hm, hsm, hd | ⟨hclose, rfl⟩⟩
        · exact Or.inl ⟨d, m, hm, hsm, hd⟩
        · exact Or.inr ⟨hclose, m, hm, hsm⟩
      · rintro (⟨d, m, hm, hsm, hd⟩ | ⟨hclose, m, hm, hsm⟩)
        · exact ⟨d, m, hm, hsm, Or.inl hd⟩
        · exact ⟨c, m, hm, hsm, Or.inr ⟨hclose, rfl⟩⟩
    rw [getIDsLessThanPosOfDepth, hletter, hopen]
    cases hbound : lowerBound c n.next with
    | nil =>
      have habsent : ¬ ∃ m, n.child? c = some m ∧ s ∈ m.ids := by
        rintro ⟨m, hm, -⟩
        have hmem := (mem_lowerBound hs (c, m)).mpr ⟨(child?_iff hs c m).mp hm, le_rfl⟩
        rw [hbound] at hmem
        cases hmem
      simp only [mem_unionRange, habsent, and_false, or_false]
    | cons e rest =>
      by_cases hclosed : isClose = true ∧ e.1 = c
      · obtain ⟨rfl, rfl⟩ := hclosed
        have he : n.child? e.1 = some e.2 :=
          (child?_iff hs _ _).mpr ((mem_lowerBound hs e).mp (hbound ▸ List.mem_cons_self)).1
        simp [mem_unionRange, he, or_and_right, exists_or]
      · have hnot : ¬ (isClose = true ∧ ∃ m, n.child? c = some m ∧ s ∈ m.ids) := by
          rintro ⟨hclose, m, hm, -⟩
          have heq := eq_of_lowerBound_cons hs hbound ((child?_iff hs c m).mp hm)
          exact hclosed ⟨hclose, by rw [heq]⟩
        have hif : ¬ (isClose && e.1 == c) = true := by
          rw [Bool.and_eq_true, beq_iff_eq]
          exact hclosed
        simp only [if_neg hif, mem_unionRange, hnot, or_false]
  snd := by
    intro depth n ids isClose c hs hc h
    have hletter : posStr.getD depth (Char.ofNat 0) = c := by
      rw [List.getD_eq_getElem?_getD, hc, Option.getD_some]
    rw [getIDsLessThanPosOfDepth, hletter] at h
    cases hbound : lowerBound c n.next with
    | nil =>
      rw [hbound] at h
      refine ⟨h, fun d m hm => ?_⟩
      by_contra hle
      have hmem := (mem_lowerBound hs (d, m)).mpr ⟨(child?_iff hs d m).mp hm, not_lt.mp hle⟩
      rw [hbound] at hmem
      cases hmem
    | cons e rest =>
      rw [hbound] at h
      simp only at h
      split_ifs at h

/-! ## What the loops collect -/

/-- The string of a query, cut to the length of the strings in the index. -/
def searchKey (lim : PosLimits) (pos : Position) : List Char :=
  (posToStr lim pos).take lim.maxDigitsPostion

/-- A position's string starts with the file's digits and the first digit of the line that the
query's string starts with. -/
def SharesStart (lim : PosLimits) (query p : Position) : Prop :=
  (posToStr lim query).take (lim.maxDigitsFile + 1) <+: posToStr lim p

/-- A position's string lies behind the query's, or is the same one when the bound is closed. -/
def TextGreater (lim : PosLimits) (query : Position) (isClose : Bool) (p : Position) : Prop :=
  searchKey lim query < posToStr lim p ∨ (isClose = true ∧ posToStr lim p = searchKey lim query)

/-- A position's string lies before the query's, or is the same one when the bound is closed. -/
def TextLess (lim : PosLimits) (query : Position) (isClose : Bool) (p : Position) : Prop :=
  posToStr lim p < searchKey lim query ∨ (isClose = true ∧ posToStr lim p = searchKey lim query)

section Collected

variable {lim : PosLimits} (symbols : List σ) (pos : σ → { p : Position // lim.Within p })

omit [DecidableEq σ] in
/-- The answers of a climb in the index, by the positions of the symbols. -/
theorem answers_posTrie_iff {side : Char → Char → Prop} (query : Position) (isClose : Bool)
    (s : σ) :
    Answers lim.maxDigitsFile lim.maxDigitsPostion
        (symbols.map fun s => (posToStr lim (pos s).1, s)) side (posToStr lim query) isClose s ↔
      s ∈ symbols ∧ SharesStart lim query (pos s).1 ∧
        (Beyond side (posToStr lim query) (posToStr lim (pos s).1) ∨
          (isClose = true ∧ posToStr lim (pos s).1 = searchKey lim query)) := by
  constructor
  · rintro ⟨w, hw, hshare, hside⟩
    obtain ⟨s', hs', heq⟩ := List.mem_map.mp hw
    obtain ⟨rfl, rfl⟩ := Prod.mk.inj heq
    exact ⟨hs', hshare, hside⟩
  · rintro ⟨hs, hshare, hside⟩
    exact ⟨_, List.mem_map_of_mem hs, hshare, hside⟩

omit [DecidableEq σ] in
theorem length_of_mem_entries {e : List Char × σ}
    (he : e ∈ symbols.map fun s => (posToStr lim (pos s).1, s)) :
    e.1.length = lim.maxDigitsPostion := by
  obtain ⟨s, -, rfl⟩ := List.mem_map.mp he
  exact length_posToStr (pos s).2

theorem stop_lt_full (lim : PosLimits) : lim.maxDigitsFile + 1 < lim.maxDigitsPostion := by
  have hline := lim.five_le_line
  rw [PosLimits.maxDigitsPostion]
  omega

/-- What `GetIDsGreaterThanPos` returns. -/
theorem mem_getIDsGreaterThanPos (query : Position) (isClose : Bool) (s : σ) :
    s ∈ getIDsGreaterThanPos lim (posTrie lim symbols fun s => (pos s).1) query isClose ↔
      s ∈ symbols ∧ SharesStart lim query (pos s).1 ∧
        TextGreater lim query isClose (pos s).1 := by
  rw [getIDsGreaterThanPos, posTrie, findCommonRootInPosTrie,
    mem_climb (visits_greater _) (fun c => lt_irrefl c) (maxDigitsPostion_le_length query)
      (fun e => length_of_mem_entries symbols pos) (stop_lt_full lim), answers_posTrie_iff,
    beyond_greater_iff (by rw [length_posToStr (pos s).2]; exact maxDigitsPostion_le_length query),
    length_posToStr (pos s).2]
  rfl

/-- What `GetIDsLessThanPos` returns. -/
theorem mem_getIDsLessThanPos (query : Position) (isClose : Bool) (s : σ) :
    s ∈ getIDsLessThanPos lim (posTrie lim symbols fun s => (pos s).1) query isClose ↔
      s ∈ symbols ∧ SharesStart lim query (pos s).1 ∧ TextLess lim query isClose (pos s).1 := by
  rw [getIDsLessThanPos, posTrie, findCommonRootInPosTrie,
    mem_climb (visits_less _) (fun c => lt_irrefl c) (maxDigitsPostion_le_length query)
      (fun e => length_of_mem_entries symbols pos) (stop_lt_full lim), answers_posTrie_iff,
    beyond_less_iff (by rw [length_posToStr (pos s).2]; exact maxDigitsPostion_le_length query),
    length_posToStr (pos s).2]
  rfl

/-- What both loops return. -/
theorem mem_inter_searches (startPos endPos : Position) (isLeftClose isRightClose : Bool) (s : σ) :
    s ∈ getIDsGreaterThanPos lim (posTrie lim symbols fun s => (pos s).1) startPos isLeftClose ∩
        getIDsLessThanPos lim (posTrie lim symbols fun s => (pos s).1) endPos isRightClose ↔
      s ∈ symbols ∧ (SharesStart lim startPos (pos s).1 ∧ SharesStart lim endPos (pos s).1) ∧
        TextGreater lim startPos isLeftClose (pos s).1 ∧
        TextLess lim endPos isRightClose (pos s).1 := by
  rw [Finset.mem_inter, mem_getIDsGreaterThanPos, mem_getIDsLessThanPos]
  constructor
  · rintro ⟨⟨hs, hstart, hgreater⟩, -, hend, hless⟩
    exact ⟨hs, ⟨hstart, hend⟩, hgreater, hless⟩
  · rintro ⟨hs, ⟨hstart, hend⟩, hgreater, hless⟩
    exact ⟨⟨hs, hstart, hgreater⟩, hs, hend, hless⟩

end Collected

/-! ## Exactness -/

/-- The asked positions behind a query: of the same file, and equal to it when the bound is
closed. -/
def IsGreater (query : Position) (isClose : Bool) (p : Position) : Prop :=
  p.fileID = query.fileID ∧ (query < p ∨ (isClose = true ∧ p = query))

/-- The asked positions before a query. -/
def IsLess (query : Position) (isClose : Bool) (p : Position) : Prop :=
  p.fileID = query.fileID ∧ (p < query ∨ (isClose = true ∧ p = query))

/-- An answer holds the inserted symbols at the asked positions and no others. -/
def ExactAnswer (symbols : List σ) (pos : σ → Position) (answer : Finset σ)
    (asked : Position → Prop) : Prop :=
  ∀ s, s ∈ answer ↔ s ∈ symbols ∧ asked (pos s)

/-- The line numbers of two positions, filled up to the width of lines, start with one digit. -/
def SameLeadingDigit (lim : PosLimits) (p q : Position) : Prop :=
  (fillZero p.line.toInt lim.maxDigitsLine).head? = (fillZero q.line.toInt lim.maxDigitsLine).head?

/-- All asked symbols are on lines with the query's leading digit; and, should the query exceed the
limits, the strings that share its start are on the asked side when the positions are. -/
def WithinReach (lim : PosLimits) (symbols : List σ) (pos : σ → Position) (query : Position)
    (asked text : Position → Prop) : Prop :=
  (∀ s ∈ symbols, asked (pos s) → SameLeadingDigit lim query (pos s)) ∧
    (¬ lim.Within query → ∀ s ∈ symbols, SharesStart lim query (pos s) →
      (text (pos s) ↔ asked (pos s)))

variable {lim : PosLimits}

/-- In one file the start that a search needs is the leading digit of the line. -/
theorem sharesStart_iff_sameLeadingDigit {query p : Position} (hp : lim.Within p)
    (hfile : p.fileID = query.fileID) :
    SharesStart lim query p ↔ SameLeadingDigit lim query p := by
  have hlen : (fillZero query.fileID.toNat lim.maxDigitsFile).length = lim.maxDigitsFile := by
    rw [← hfile]
    exact length_fillZero lim.pos.1 hp.file
  have hnonempty : ∀ r : Position,
      ∃ d rest, fillZero r.line.toInt lim.maxDigitsLine = d :: rest := by
    intro r
    refine List.exists_cons_of_length_pos ?_
    exact lt_of_lt_of_le lim.pos.2.1 (length_le_fillZero _ _)
  obtain ⟨d, rest, hd⟩ := hnonempty query
  obtain ⟨d', rest', hd'⟩ := hnonempty p
  rw [SharesStart, SameLeadingDigit, posToStr, posToStr, hfile, hd, hd', List.append_assoc,
    List.append_assoc, List.take_append, hlen, List.take_of_length_le (by omega),
    Nat.add_sub_cancel_left, List.prefix_append_right_inj, List.cons_append, List.cons_append,
    List.take_succ_cons, List.take_zero, List.cons_prefix_cons, List.head?_cons, List.head?_cons,
    Option.some.injEq]
  exact and_iff_left (List.nil_prefix)

/-- A string that starts as the query's is the string of a position in the query's file. -/
theorem fileID_eq_of_sharesStart {query p : Position} (hq : lim.Within query)
    (hp : lim.Within p) (h : SharesStart lim query p) : p.fileID = query.fileID := by
  have hlenq : (fillZero query.fileID.toNat lim.maxDigitsFile).length = lim.maxDigitsFile :=
    length_fillZero lim.pos.1 hq.file
  have hlenp : (fillZero p.fileID.toNat lim.maxDigitsFile).length = lim.maxDigitsFile :=
    length_fillZero lim.pos.1 hp.file
  have hstart : fillZero query.fileID.toNat lim.maxDigitsFile <+: posToStr lim p := by
    refine List.IsPrefix.trans ?_ h
    rw [List.prefix_take_iff, posToStr, List.append_assoc]
    exact ⟨List.prefix_append _ _, by omega⟩
  rw [posToStr, List.append_assoc] at hstart
  have hsame := (List.prefix_of_prefix_length_le hstart (List.prefix_append _ _)
    (by rw [hlenq, hlenp])).eq_of_length (by rw [hlenq, hlenp])
  have hnat := (fillZero_inj lim.pos.1 hq.file hp.file).mp hsame
  exact BitVec.eq_of_toNat_eq (by exact_mod_cast hnat.symm)

/-- Within the limits a query's string is its own key. -/
theorem searchKey_eq {query : Position} (hq : lim.Within query) :
    searchKey lim query = posToStr lim query := by
  rw [searchKey, List.take_of_length_le (length_posToStr hq).le]

theorem textGreater_iff {query p : Position} (hq : lim.Within query) (hp : lim.Within p)
    (hfile : p.fileID = query.fileID) (isClose : Bool) :
    TextGreater lim query isClose p ↔ IsGreater query isClose p := by
  rw [TextGreater, IsGreater, searchKey_eq hq, posToStr_lt_posToStr_iff hq hp, posToStr_inj hp hq,
    hfile]
  simp

theorem textLess_iff {query p : Position} (hq : lim.Within query) (hp : lim.Within p)
    (hfile : p.fileID = query.fileID) (isClose : Bool) :
    TextLess lim query isClose p ↔ IsLess query isClose p := by
  rw [TextLess, IsLess, searchKey_eq hq, posToStr_lt_posToStr_iff hp hq, posToStr_inj hp hq, hfile]
  simp

section Exactness

variable (symbols : List σ) (pos : σ → { p : Position // lim.Within p })

omit [DecidableEq σ] in
/-- A search to one side is exact when its answers are within reach. -/
theorem exactAnswer_iff_withinReach {query : Position} {answer : Finset σ}
    {asked text : Position → Prop}
    (hans : ∀ s, s ∈ answer ↔ s ∈ symbols ∧ SharesStart lim query (pos s).1 ∧ text (pos s).1)
    (hfile : ∀ p, asked p → p.fileID = query.fileID)
    (htext : lim.Within query → ∀ p, lim.Within p → p.fileID = query.fileID →
      (text p ↔ asked p)) :
    ExactAnswer symbols (fun s => (pos s).1) answer asked ↔
      WithinReach lim symbols (fun s => (pos s).1) query asked text := by
  constructor
  · intro hexact
    refine ⟨fun s hs hasked => ?_, fun _ s hs hshare => ⟨fun ht => ?_, fun hasked => ?_⟩⟩
    · have hshare := ((hans s).mp ((hexact s).mpr ⟨hs, hasked⟩)).2.1
      exact (sharesStart_iff_sameLeadingDigit (pos s).2 (hfile _ hasked)).mp hshare
    · exact ((hexact s).mp ((hans s).mpr ⟨hs, hshare, ht⟩)).2
    · exact ((hans s).mp ((hexact s).mpr ⟨hs, hasked⟩)).2.2
  · rintro ⟨hdigit, houtside⟩ s
    have hboth : s ∈ symbols → SharesStart lim query (pos s).1 →
        (text (pos s).1 ↔ asked (pos s).1) := by
      intro hs hshare
      by_cases hq : lim.Within query
      · exact htext hq _ (pos s).2 (fileID_eq_of_sharesStart hq (pos s).2 hshare)
      · exact houtside hq s hs hshare
    rw [hans s]
    constructor
    · rintro ⟨hs, hshare, ht⟩
      exact ⟨hs, (hboth hs hshare).mp ht⟩
    · rintro ⟨hs, hasked⟩
      have hshare := (sharesStart_iff_sameLeadingDigit (pos s).2 (hfile _ hasked)).mpr
        (hdigit s hs hasked)
      exact ⟨hs, hshare, (hboth hs hshare).mpr hasked⟩

/-- The asked positions between two others. -/
def IsBetween (startPos endPos : Position) (isLeftClose isRightClose : Bool) (p : Position) :
    Prop :=
  IsGreater startPos isLeftClose p ∧ IsLess endPos isRightClose p

/-- The condition of an exact search between two positions: the two one-sided conditions on the
symbols between them, or nothing to find when the end does not lie behind the start. -/
def RangeWithinReach (lim : PosLimits) (symbols : List σ) (pos : σ → Position)
    (startPos endPos : Position) (isLeftClose isRightClose : Bool) : Prop :=
  if endPos ≤ startPos then
    isLeftClose = true → isRightClose = true → startPos = endPos → ∀ s ∈ symbols, pos s ≠ startPos
  else
    (∀ s ∈ symbols, IsBetween startPos endPos isLeftClose isRightClose (pos s) →
      SameLeadingDigit lim startPos (pos s) ∧ SameLeadingDigit lim endPos (pos s)) ∧
    (¬ (lim.Within startPos ∧ lim.Within endPos) → ∀ s ∈ symbols,
      SharesStart lim startPos (pos s) → SharesStart lim endPos (pos s) →
      (TextGreater lim startPos isLeftClose (pos s) ∧ TextLess lim endPos isRightClose (pos s) ↔
        IsBetween startPos endPos isLeftClose isRightClose (pos s)))

/-- Between a position and one that is not behind it lies at most that position. -/
theorem eq_of_isBetween {startPos endPos p : Position} {isLeftClose isRightClose : Bool}
    (hle : endPos ≤ startPos) (h : IsBetween startPos endPos isLeftClose isRightClose p) :
    isLeftClose = true ∧ isRightClose = true ∧ p = startPos ∧ p = endPos := by
  obtain ⟨⟨hfile, hleft⟩, ⟨hfile', hright⟩⟩ := h
  rw [Position.le_iff] at hle
  rw [Position.lt_iff, Position.eq_iff] at hleft hright
  rw [Position.eq_iff, Position.eq_iff]
  have hnat := congrArg BitVec.toNat hfile
  have hnat' := congrArg BitVec.toNat hfile'
  rcases hleft with hleft | ⟨hl, hleft⟩ <;> rcases hright with hright | ⟨hr, hright⟩
  · omega
  · omega
  · omega
  · exact ⟨hl, hr, hleft, hright⟩

omit [DecidableEq σ] in
/-- A search between two positions in order is exact when its answers are within reach. -/
theorem exactAnswer_iff_rangeWithinReach {startPos endPos : Position}
    {isLeftClose isRightClose : Bool} (hle : ¬ endPos ≤ startPos) {answer : Finset σ}
    (hans : ∀ s, s ∈ answer ↔ s ∈ symbols ∧
      (SharesStart lim startPos (pos s).1 ∧ SharesStart lim endPos (pos s).1) ∧
      TextGreater lim startPos isLeftClose (pos s).1 ∧
      TextLess lim endPos isRightClose (pos s).1) :
    ExactAnswer symbols (fun s => (pos s).1) answer
        (IsBetween startPos endPos isLeftClose isRightClose) ↔
      RangeWithinReach lim symbols (fun s => (pos s).1) startPos endPos isLeftClose
        isRightClose := by
  rw [RangeWithinReach, if_neg hle]
  constructor
  · intro hexact
    have hcollected : ∀ s ∈ symbols, IsBetween startPos endPos isLeftClose isRightClose (pos s).1 →
        (SharesStart lim startPos (pos s).1 ∧ SharesStart lim endPos (pos s).1) ∧
          TextGreater lim startPos isLeftClose (pos s).1 ∧
          TextLess lim endPos isRightClose (pos s).1 :=
      fun s hs hbetween => ((hans s).mp ((hexact s).mpr ⟨hs, hbetween⟩)).2
    refine ⟨fun s hs hbetween => ?_, fun _ s hs hstart hend => ⟨fun ht => ?_, fun h => ?_⟩⟩
    · obtain ⟨⟨hstart, hend⟩, -⟩ := hcollected s hs hbetween
      exact ⟨(sharesStart_iff_sameLeadingDigit (pos s).2 hbetween.1.1).mp hstart,
        (sharesStart_iff_sameLeadingDigit (pos s).2 hbetween.2.1).mp hend⟩
    · exact ((hexact s).mp ((hans s).mpr ⟨hs, ⟨hstart, hend⟩, ht⟩)).2
    · exact (hcollected s hs h).2
  · rintro ⟨hdigit, houtside⟩ s
    have hboth : s ∈ symbols → SharesStart lim startPos (pos s).1 →
        SharesStart lim endPos (pos s).1 →
        (TextGreater lim startPos isLeftClose (pos s).1 ∧
            TextLess lim endPos isRightClose (pos s).1 ↔
          IsBetween startPos endPos isLeftClose isRightClose (pos s).1) := by
      intro hs hstart hend
      by_cases hq : lim.Within startPos ∧ lim.Within endPos
      · have hfile := fileID_eq_of_sharesStart hq.1 (pos s).2 hstart
        have hfile' := fileID_eq_of_sharesStart hq.2 (pos s).2 hend
        rw [textGreater_iff hq.1 (pos s).2 hfile, textLess_iff hq.2 (pos s).2 hfile']
        exact Iff.rfl
      · exact houtside hq s hs hstart hend
    rw [hans s]
    constructor
    · rintro ⟨hs, ⟨hstart, hend⟩, ht⟩
      exact ⟨hs, (hboth hs hstart hend).mp ht⟩
    · rintro ⟨hs, hbetween⟩
      obtain ⟨hdigit1, hdigit2⟩ := hdigit s hs hbetween
      have hstart := (sharesStart_iff_sameLeadingDigit (pos s).2 hbetween.1.1).mpr hdigit1
      have hend := (sharesStart_iff_sameLeadingDigit (pos s).2 hbetween.2.1).mpr hdigit2
      exact ⟨hs, ⟨hstart, hend⟩, (hboth hs hstart hend).mpr hbetween⟩

/-- A search between two positions is exact when its answers are within reach. -/
theorem exactAnswer_range_iff (startPos endPos : Position) (isLeftClose isRightClose : Bool) :
    ExactAnswer symbols (fun s => (pos s).1)
        (getIDsWithinPosXByRange lim (posTrie lim symbols fun s => (pos s).1) startPos endPos
          isLeftClose isRightClose)
        (IsBetween startPos endPos isLeftClose isRightClose) ↔
      RangeWithinReach lim symbols (fun s => (pos s).1) startPos endPos isLeftClose
        isRightClose := by
  by_cases hle : endPos ≤ startPos
  · rw [getIDsWithinPosXByRange, RangeWithinReach, if_pos hle, if_pos hle]
    constructor
    · rintro hexact hl hr heq s hs hpos
      refine absurd ((hexact s).mpr ⟨hs, ?_⟩) (Finset.notMem_empty s)
      exact ⟨⟨congrArg _ hpos, Or.inr ⟨hl, hpos⟩⟩,
        ⟨congrArg _ (hpos.trans heq), Or.inr ⟨hr, hpos.trans heq⟩⟩⟩
    · intro hnone s
      refine iff_of_false (Finset.notMem_empty s) ?_
      rintro ⟨hs, hbetween⟩
      obtain ⟨hl, hr, hstart, hend⟩ := eq_of_isBetween hle hbetween
      exact hnone hl hr (hstart.symm.trans hend) s hs hstart
  · rw [getIDsWithinPosXByRange, if_neg hle]
    exact exactAnswer_iff_rangeWithinReach symbols pos hle
      (mem_inter_searches symbols pos startPos endPos isLeftClose isRightClose)

/-- The three searches are exact when the asked symbols lie on lines with the leading digit of the
query, and, for queries beyond the limits, when strings compare as positions do. -/
theorem searches_exact_iff :
    (∀ query isClose,
      ExactAnswer symbols (fun s => (pos s).1)
          (getIDsGreaterThanPos lim (posTrie lim symbols fun s => (pos s).1) query isClose)
          (IsGreater query isClose) ↔
        WithinReach lim symbols (fun s => (pos s).1) query (IsGreater query isClose)
          (TextGreater lim query isClose)) ∧
    (∀ query isClose,
      ExactAnswer symbols (fun s => (pos s).1)
          (getIDsLessThanPos lim (posTrie lim symbols fun s => (pos s).1) query isClose)
          (IsLess query isClose) ↔
        WithinReach lim symbols (fun s => (pos s).1) query (IsLess query isClose)
          (TextLess lim query isClose)) ∧
    (∀ startPos endPos isLeftClose isRightClose,
      ExactAnswer symbols (fun s => (pos s).1)
          (getIDsWithinPosXByRange lim (posTrie lim symbols fun s => (pos s).1) startPos endPos
            isLeftClose isRightClose)
          (IsBetween startPos endPos isLeftClose isRightClose) ↔
        RangeWithinReach lim symbols (fun s => (pos s).1) startPos endPos isLeftClose
          isRightClose) := by
  refine ⟨fun query isClose => ?_, fun query isClose => ?_, exactAnswer_range_iff symbols pos⟩
  · exact exactAnswer_iff_withinReach symbols pos
      (mem_getIDsGreaterThanPos symbols pos query isClose) (fun p hp => hp.1)
      fun hq p hp hfile => textGreater_iff hq hp hfile isClose
  · exact exactAnswer_iff_withinReach symbols pos
      (mem_getIDsLessThanPos symbols pos query isClose) (fun p hp => hp.1)
      fun hq p hp hfile => textLess_iff hq hp hfile isClose

end Exactness

/-! ## Lines of different leading digits -/

/-- Line 10000 of a file with the initial limits. -/
def lateLine : { p : Position // PosLimits.initial.Within p } :=
  ⟨⟨1, 10000, 1⟩, by
    refine ⟨?_, ?_, ?_⟩ <;> exact ⟨by decide, by decide⟩⟩

/-- The symbols behind line 5 do not include one on line 10000. -/
theorem not_exactAnswer_lateLine :
    ¬ ExactAnswer [()] (fun _ => lateLine.1)
      (getIDsGreaterThanPos .initial (posTrie .initial [()] fun _ => lateLine.1) ⟨1, 5, 1⟩ false)
      (IsGreater ⟨1, 5, 1⟩ false) := by
  intro hexact
  have hasked : IsGreater ⟨1, 5, 1⟩ false lateLine.1 := ⟨rfl, Or.inl (by decide)⟩
  have hreach := (exactAnswer_iff_withinReach [()] (fun _ => lateLine)
    (mem_getIDsGreaterThanPos [()] (fun _ => lateLine) _ _) (fun p hp => hp.1)
    fun hq p hp hfile => textGreater_iff hq hp hfile false).mp hexact
  have hdigit := hreach.1 () List.mem_cons_self hasked
  have h5 : fillZero 5 5 = fixedDigits 5 5 := fillZero_eq_fixedDigits (by decide) (by decide)
  have hlate : fillZero 10000 5 = fixedDigits 5 10000 :=
    fillZero_eq_fixedDigits (by decide) (by decide)
  have hheads : (fillZero 5 5).head? = (fillZero 10000 5).head? := hdigit
  rw [h5, hlate] at hheads
  exact absurd hheads (by decide)

end Cangjie
