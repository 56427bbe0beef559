import Mathlib.Data.List.DropRight
import Stencil.Text.Space

/-!
# Words and collapsed text

Collapsing keeps the words of a text (`words_collapsed`), so a collapsed text is collapsed already
(`collapsed_collapsed`), and blank text on either side of a text does not show in it
(`collapsed_append_of_blank_left`, `collapsed_append_of_blank_right`).
-/

namespace Stencil.Text

variable {c : Char} {cs before after word : List Char}

/-! ## Reading words -/

theorem words_eq (cs : List Char) :
    words cs =
      if (leadingWord cs).1.isEmpty then (leadingWord cs).2
      else (leadingWord cs).1 :: (leadingWord cs).2 :=
  rfl

theorem leadingWord_of_isSpace (cs : List Char) (hc : isSpace c = true) :
    leadingWord (c :: cs) = ([], words cs) := by
  simp only [leadingWord, words, hc, if_true]

theorem leadingWord_of_not_isSpace (cs : List Char) (hc : isSpace c = false) :
    leadingWord (c :: cs) = (c :: (leadingWord cs).1, (leadingWord cs).2) := by
  simp only [leadingWord, hc, Bool.false_eq_true, if_false]

@[simp]
theorem words_nil : words [] = [] :=
  rfl

theorem words_cons_of_isSpace (cs : List Char) (hc : isSpace c = true) :
    words (c :: cs) = words cs := by
  rw [words, leadingWord_of_isSpace cs hc]
  rfl

/-- Characters without white space among them, at least one. -/
def IsWord (word : List Char) : Prop :=
  word ≠ [] ∧ ∀ c ∈ word, isSpace c = false

/-- All later words are words, and the leading one is a word unless it is empty. -/
theorem isWord_of_leadingWord (cs : List Char) :
    (∀ c ∈ (leadingWord cs).1, isSpace c = false) ∧ ∀ word ∈ (leadingWord cs).2, IsWord word := by
  induction cs with
  | nil => simp [leadingWord]
  | cons c cs ih =>
      obtain ⟨hleading, hlater⟩ := ih
      cases hc : isSpace c with
      | false =>
          rw [leadingWord_of_not_isSpace cs hc]
          exact ⟨List.forall_mem_cons.mpr ⟨hc, hleading⟩, hlater⟩
      | true =>
          rw [leadingWord_of_isSpace cs hc]
          refine ⟨by simp, ?_⟩
          rw [words_eq]
          split
          · exact hlater
          · rename_i hne
            exact List.forall_mem_cons.mpr ⟨⟨by simpa using hne, hleading⟩, hlater⟩

theorem isWord_of_mem_words (hword : word ∈ words cs) : IsWord word := by
  obtain ⟨hleading, hlater⟩ := isWord_of_leadingWord cs
  rw [words_eq] at hword
  split at hword
  · exact hlater word hword
  · rename_i hne
    rcases List.mem_cons.mp hword with rfl | hword
    · exact ⟨by simpa using hne, hleading⟩
    · exact hlater word hword

theorem leadingWord_append (cs : List Char) (hword : ∀ c ∈ word, isSpace c = false) :
    leadingWord (word ++ cs) = (word ++ (leadingWord cs).1, (leadingWord cs).2) := by
  induction word with
  | nil => rfl
  | cons c word ih =>
      obtain ⟨hc, hword⟩ := List.forall_mem_cons.mp hword
      rw [List.cons_append, leadingWord_of_not_isSpace _ hc, ih hword]
      rfl

/-- A word before a space is the first word. -/
theorem words_word_append (cs : List Char) (hword : IsWord word) :
    words (word ++ ' ' :: cs) = word :: words cs := by
  have hempty : word.isEmpty = false := by simpa using hword.1
  have hspace : isSpace ' ' = true := rfl
  rw [words, leadingWord_append _ hword.2, leadingWord_of_isSpace cs hspace]
  simp only [List.append_nil, hempty, Bool.false_eq_true, if_false]

theorem words_word (hword : IsWord word) : words word = [word] := by
  have hempty : word.isEmpty = false := by simpa using hword.1
  have hleading := leadingWord_append [] hword.2
  rw [List.append_nil] at hleading
  rw [words, hleading]
  simp only [leadingWord, List.append_nil, hempty, Bool.false_eq_true, if_false]

/-! ## Collapsed text -/

theorem words_intercalate {parts : List (List Char)} (hwords : ∀ word ∈ parts, IsWord word) :
    words ([' '].intercalate parts) = parts := by
  induction parts with
  | nil => rfl
  | cons word later ih =>
      obtain ⟨hword, hlater⟩ := List.forall_mem_cons.mp hwords
      cases later with
      | nil => rw [List.intercalate_singleton, words_word hword]
      | cons second later =>
          rw [List.intercalate_cons_cons, List.append_assoc, List.singleton_append,
            words_word_append _ hword, ih hlater]

/-- Collapsing keeps the words. -/
theorem words_collapsed (cs : List Char) : words (collapsed cs) = words cs :=
  words_intercalate fun _ => isWord_of_mem_words

theorem collapsed_collapsed (cs : List Char) : collapsed (collapsed cs) = collapsed cs := by
  rw [collapsed, words_collapsed, collapsed]

/-- Only a text without words collapses to nothing. -/
theorem collapsed_eq_nil_iff : collapsed cs = [] ↔ words cs = [] := by
  refine ⟨fun hcollapsed => ?_, fun hwords => by rw [collapsed, hwords]; rfl⟩
  rw [← words_collapsed, hcollapsed, words_nil]

/-- A text without words is blank. -/
theorem isBlank_of_words_eq_nil (hwords : words cs = []) : isBlank cs = true := by
  induction cs with
  | nil => rfl
  | cons c cs ih =>
      cases hc : isSpace c with
      | true =>
          rw [words_cons_of_isSpace cs hc] at hwords
          rw [isBlank, List.all_cons, hc, Bool.true_and]
          exact ih hwords
      | false =>
          rw [words, leadingWord_of_not_isSpace cs hc] at hwords
          cases hwords

theorem isBlank_of_collapsed_eq_nil (hcollapsed : collapsed cs = []) : isBlank cs = true :=
  isBlank_of_words_eq_nil (collapsed_eq_nil_iff.mp hcollapsed)

theorem leadingWord_of_isBlank (hblank : isBlank cs = true) : leadingWord cs = ([], []) := by
  induction cs with
  | nil => rfl
  | cons c cs ih =>
      rw [isBlank, List.all_cons, Bool.and_eq_true] at hblank
      rw [leadingWord_of_isSpace cs hblank.1, words, ih hblank.2]
      rfl

/-- Blank text before a text does not show when it is collapsed. -/
theorem collapsed_append_of_blank_left (after : List Char) (hblank : isBlank before = true) :
    collapsed (before ++ after) = collapsed after := by
  have hwords : words (before ++ after) = words after := by
    induction before with
    | nil => rfl
    | cons c before ih =>
        rw [isBlank, List.all_cons, Bool.and_eq_true] at hblank
        rw [List.cons_append, words_cons_of_isSpace _ hblank.1, ih hblank.2]
  rw [collapsed, hwords, collapsed]

/-- Blank text after a text does not show when it is collapsed. -/
theorem collapsed_append_of_blank_right (before : List Char) (hblank : isBlank after = true) :
    collapsed (before ++ after) = collapsed before := by
  have hleading : leadingWord (before ++ after) = leadingWord before := by
    induction before with
    | nil => exact leadingWord_of_isBlank hblank
    | cons c before ih => rw [List.cons_append, leadingWord, ih, leadingWord]
  rw [collapsed, words, hleading, collapsed, words]

/-- A visible character at the beginning of a text shows. -/
theorem collapsed_cons_ne (cs : List Char) (hc : isSpace c = false) :
    collapsed (c :: cs) ≠ collapsed cs := by
  intro heq
  have hwords := congrArg words heq
  rw [words_collapsed, words_collapsed, words_eq, words_eq,
    leadingWord_of_not_isSpace cs hc] at hwords
  simp only [List.isEmpty_cons, Bool.false_eq_true, if_false] at hwords
  split at hwords
  · exact absurd (congrArg List.length hwords) (by simp)
  · exact absurd (congrArg List.length (List.cons.inj hwords).1) (by simp)

/-! ## Trimmed text -/

/-- What is trimmed at its end keeps its beginning. -/
theorem trimmedStart_trimmedEnd (hstart : trimmedStart cs = cs) :
    trimmedStart (trimmedEnd cs) = trimmedEnd cs := by
  have hbegins : trimmedEnd cs <+: cs := List.rdropWhile_prefix isSpace cs
  rw [trimmedStart, List.dropWhile_eq_self_iff] at hstart ⊢
  intro hpos
  have hlength : 0 < cs.length := Nat.lt_of_lt_of_le hpos hbegins.length_le
  rw [hbegins.getElem hpos]
  exact hstart hlength

theorem trimmed_trimmed (cs : List Char) : trimmed (trimmed cs) = trimmed cs := by
  have hstart : trimmedStart (trimmedStart cs) = trimmedStart cs :=
    List.dropWhile_idempotent isSpace cs
  have hend : trimmedEnd (trimmedEnd (trimmedStart cs)) = trimmedEnd (trimmedStart cs) :=
    List.rdropWhile_idempotent isSpace _
  rw [trimmed, trimmed, trimmedStart_trimmedEnd hstart, hend]

end Stencil.Text
