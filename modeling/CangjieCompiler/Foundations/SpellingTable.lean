import Mathlib

/-!
# The longest spelling at the begin of a text

A table lists spellings.  A spelling at the begin of a text is the longest one exactly when the text
does not go on with an element that extends the spelling within the table.
-/

namespace SpellingTable

variable {α : Type} [DecidableEq α]

/-- The elements that come after a word in the spellings of a table. -/
def extensions (table : List (List α)) (word : List α) : List α :=
  table.filterMap fun s => if word <+: s then s[word.length]? else none

lemma mem_extensions {table : List (List α)} {word s : List α} {a : α} (hs : s ∈ table)
    (hbegin : word ++ [a] <+: s) : a ∈ extensions table word := by
  refine List.mem_filterMap.mpr ⟨s, hs, ?_⟩
  obtain ⟨rest, rfl⟩ := hbegin
  rw [List.append_assoc, if_pos (List.prefix_append _ _), List.getElem?_append_right le_rfl,
    Nat.sub_self]
  rfl

/-- A word is at least as long as all spellings at the begin of a text that begins with it and does
not extend it. -/
theorem length_le_of_extensions {table : List (List α)} {text word : List α}
    (hword : word <+: text) (hnext : ∀ a ∈ extensions table word, text[word.length]? ≠ some a)
    {s : List α} (hs : s ∈ table) (hbegin : s <+: text) : s.length ≤ word.length := by
  by_contra hlt
  obtain ⟨rest, rfl⟩ := List.prefix_of_prefix_length_le hword hbegin (Nat.not_le.mp hlt).le
  cases rest with
  | nil => exact hlt (by rw [List.append_nil])
  | cons a rest =>
    refine hnext a (mem_extensions hs ⟨rest, by rw [List.append_assoc]; rfl⟩) ?_
    obtain ⟨more, rfl⟩ := hbegin
    rw [List.append_assoc, List.getElem?_append_right le_rfl, Nat.sub_self]
    rfl

end SpellingTable
