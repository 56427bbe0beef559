/-!
# Lines

A text is cut into lines at its line breaks.  A whole text is one in which every line is ended by a
line break; its lines and those of what comes behind it do not run into each other
(`Text.IsWhole.lines_append`).
-/

namespace Stencil

namespace Text

/-- The lines of a text.  The last one is what comes after the last line break. -/
def lines (cs : List Char) : List (List Char) :=
  cs.splitOn '\n'

/-- The lines that a line break ends. -/
def endedLines (cs : List Char) : List (List Char) :=
  (lines cs).dropLast

/-- A line break ends every line. -/
def IsWhole (cs : List Char) : Prop :=
  cs = [] ∨ ∃ before, cs = before ++ ['\n']

variable {cs as bs : List Char}

/-- A text is a line, or a line, a line break and a text. -/
theorem lines_induction
    {motive : List Char → Prop}
    (line : ∀ cs, '\n' ∉ cs → motive cs)
    (cons : ∀ cs rest, '\n' ∉ cs → motive rest → motive (cs ++ '\n' :: rest))
    (cs : List Char) : motive cs := by
  induction hlength : cs.length using Nat.strongRecOn generalizing cs with
  | ind n ih =>
      by_cases hmem : '\n' ∈ cs
      · obtain ⟨first, rest, rfl, hfirst⟩ := List.eq_append_cons_of_mem hmem
        refine cons first rest hfirst (ih rest.length ?_ rest rfl)
        rw [← hlength, List.length_append, List.length_cons]
        omega
      · exact line cs hmem

theorem lines_ne_nil (cs : List Char) : lines cs ≠ [] :=
  List.splitOn_ne_nil _ _

theorem lines_of_notMem (h : '\n' ∉ cs) : lines cs = [cs] :=
  List.splitOn_eq_singleton h

theorem lines_append_newline (as bs : List Char) :
    lines (as ++ '\n' :: bs) = lines as ++ lines bs := by
  simp only [lines, List.splitOn_eq_splitOnP]
  exact List.splitOnP_append_cons as bs rfl

theorem endedLines_of_notMem (h : '\n' ∉ cs) : endedLines cs = [] := by
  rw [endedLines, lines_of_notMem h]
  rfl

theorem endedLines_append_newline (as bs : List Char) :
    endedLines (as ++ '\n' :: bs) = lines as ++ endedLines bs := by
  rw [endedLines, lines_append_newline, List.dropLast_append_of_ne_nil (lines_ne_nil bs),
    endedLines]

theorem endedLines_ended (as : List Char) : endedLines (as ++ ['\n']) = lines as := by
  rw [endedLines_append_newline, endedLines_of_notMem List.not_mem_nil, List.append_nil]

/-- Characters other than line breaks become part of the last line. -/
theorem lines_append_of_notMem (as : List Char) (h : '\n' ∉ bs) :
    ∃ last, lines (as ++ bs) = endedLines as ++ [last ++ bs] := by
  induction as using lines_induction with
  | line cs hcs =>
      refine ⟨cs, ?_⟩
      rw [endedLines_of_notMem hcs, lines_of_notMem (by simp [hcs, h])]
      rfl
  | cons cs rest hcs ih =>
      obtain ⟨last, hlast⟩ := ih
      refine ⟨last, ?_⟩
      rw [List.append_assoc, List.cons_append, lines_append_newline, hlast,
        endedLines_append_newline, List.append_assoc]

theorem isWhole_newline : IsWhole ['\n'] :=
  Or.inr ⟨[], rfl⟩

namespace IsWhole

theorem lines_append (h : IsWhole as) (bs : List Char) :
    lines (as ++ bs) = endedLines as ++ lines bs := by
  obtain rfl | ⟨before, rfl⟩ := h
  · rw [endedLines_of_notMem List.not_mem_nil]
    rfl
  · rw [endedLines_ended, List.append_assoc]
    exact lines_append_newline before bs

theorem endedLines_append (h : IsWhole as) (bs : List Char) :
    endedLines (as ++ bs) = endedLines as ++ endedLines bs := by
  rw [endedLines, h.lines_append, List.dropLast_append_of_ne_nil (lines_ne_nil bs), endedLines,
    endedLines]

theorem append (has : IsWhole as) (hbs : IsWhole bs) : IsWhole (as ++ bs) := by
  obtain rfl | ⟨before, rfl⟩ := hbs
  · rwa [List.append_nil]
  · exact Or.inr ⟨as ++ before, (List.append_assoc ..).symm⟩

/-- Whole texts with empty lines between them. -/
theorem intercalate {parts : List (List Char)} (h : ∀ part ∈ parts, IsWhole part) :
    IsWhole (['\n'].intercalate parts) := by
  induction parts with
  | nil => exact Or.inl rfl
  | cons part parts ih =>
      rw [List.forall_mem_cons] at h
      cases parts with
      | nil => simpa using h.1
      | cons next parts =>
          rw [List.intercalate_cons_cons]
          exact (h.1.append isWhole_newline).append (ih h.2)

/-- A line that is not empty stands in one of the texts. -/
theorem mem_endedLines_intercalate
    {parts : List (List Char)} {line : List Char} (hline : line ≠ [])
    (h : ∀ part ∈ parts, IsWhole part) :
    line ∈ endedLines (['\n'].intercalate parts) ↔ ∃ part ∈ parts, line ∈ endedLines part := by
  induction parts with
  | nil => simp [endedLines_of_notMem]
  | cons part parts ih =>
      rw [List.forall_mem_cons] at h
      cases parts with
      | nil => simp
      | cons next parts =>
          have hbreak : endedLines ['\n'] = [[]] := endedLines_ended []
          rw [List.intercalate_cons_cons, (h.1.append isWhole_newline).endedLines_append,
            h.1.endedLines_append, hbreak, List.mem_append, ih h.2]
          simp [hline]

end IsWhole

end Text

end Stencil
