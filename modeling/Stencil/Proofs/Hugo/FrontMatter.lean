import Stencil.Hugo
import Stencil.Proofs.Toml.Lines

/-!
# Front matter between fences

The file of a page is cut at its fences, two lines of three plus signs: between them is the front
matter, and after the second one the body.  A text with line breaks is written on several lines, so
the text of a page may hold a fence of its own, and the file is then cut too early.  This is the
only way in which a page can come apart (`cut_pageFile_iff`).
-/

namespace Stencil

/-! ## Lines and texts -/

namespace Text

/-- The lines of a whole text, with their line breaks, are the text. -/
theorem IsWhole.flatMap_endedLines {cs : List Char} (h : IsWhole cs) :
    ((endedLines cs).flatMap fun line => line ++ ['\n']) = cs := by
  have hlines : ∀ cs, ((lines cs).flatMap fun line => line ++ ['\n']) = cs ++ ['\n'] := by
    intro cs
    induction cs using lines_induction with
    | line cs hcs => simp [lines_of_notMem hcs]
    | cons cs rest hcs ih => simp [lines_append_newline, lines_of_notMem hcs, ih]
  obtain rfl | ⟨before, rfl⟩ := h
  · rw [endedLines_of_notMem List.not_mem_nil]
    rfl
  · rw [endedLines_ended, hlines]

theorem intercalate_lines (cs : List Char) : ['\n'].intercalate (lines cs) = cs :=
  List.intercalate_splitOn '\n'

end Text

namespace Hugo

open Text Toml

/-- The line before the front matter, and after it. -/
def fence : List Char :=
  ['+', '+', '+']

theorem isBar_fence : IsBar fence :=
  ⟨by decide, by simp [fence]⟩

/-- Cut a content file into front matter and body.  The first line has to be a fence, and the front
matter ends at the next one. -/
def cut? (contents : String) : Option (String × String) :=
  match lines contents.toList with
  | [] => none
  | first :: rest =>
    if first = fence then
      match rest.dropWhile (· ≠ fence) with
      | [] => none
      | _ :: body =>
        some (.ofList ((rest.takeWhile (· ≠ fence)).flatMap fun line => line ++ ['\n']),
          .ofList (['\n'].intercalate body))
    else none

/-- A file is cut at the first fence after its first line. -/
theorem cut?_of_lines
    {contents : String} {before after : List (List Char)}
    (h : lines contents.toList = fence :: before ++ fence :: after) (hbefore : fence ∉ before) :
    cut? contents =
      some (.ofList (before.flatMap fun line => line ++ ['\n']),
        .ofList (['\n'].intercalate after)) := by
  have hall : ∀ line ∈ before, decide (line ≠ fence) = true := fun line hline =>
    decide_eq_true fun heq => hbefore (heq ▸ hline)
  have htake : (before ++ fence :: after).takeWhile (· ≠ fence) = before := by
    rw [List.takeWhile_append_of_pos hall, List.takeWhile_cons_of_neg (by simp), List.append_nil]
  have hdrop : (before ++ fence :: after).dropWhile (· ≠ fence) = fence :: after := by
    rw [List.dropWhile_append_of_pos hall, List.dropWhile_cons_of_neg (by simp)]
  rw [cut?, h, List.cons_append]
  simp only [if_pos, htake, hdrop]

/-- A file with whole front matter is cut where the front matter ends exactly if no line of it is a
fence. -/
theorem cut?_eq_iff
    {contents : String} {front : List Char} (body : String) (hfront : IsWhole front)
    (h : contents.toList = fence ++ '\n' :: (front ++ (fence ++ '\n' :: body.toList))) :
    cut? contents = some (.ofList front, body) ↔ fence ∉ endedLines front := by
  have hline : lines fence = [fence] := lines_of_notMem (by decide)
  have hlines :
      lines contents.toList = fence :: endedLines front ++ fence :: lines body.toList := by
    rw [h, lines_append_newline, hfront.lines_append, lines_append_newline, hline]
    rfl
  constructor
  · intro hcut hmem
    obtain ⟨before, after, hsplit, hbefore⟩ := List.eq_append_cons_of_mem hmem
    have hsooner : lines contents.toList =
        fence :: before ++ fence :: (after ++ fence :: lines body.toList) := by
      rw [hlines, hsplit]
      simp
    have hearly := cut?_of_lines hsooner hbefore
    have hsame : (before.flatMap fun line => line ++ ['\n']) = front := by
      rw [hearly, Option.some.injEq, Prod.mk.injEq] at hcut
      simpa using congrArg String.toList hcut.1
    have hwhole := hfront.flatMap_endedLines
    rw [hsplit, List.flatMap_append, hsame, List.flatMap_cons] at hwhole
    simp at hwhole
  · intro hnone
    rw [cut?_of_lines hlines hnone, hfront.flatMap_endedLines, intercalate_lines,
      String.ofList_toList]

/-- The file of a page is cut at the fences that were written around the front matter, and gives
back all of it and the body, exactly if no text of the front matter, at any depth, holds a line
`+++` that a line break ends. -/
theorem cut_pageFile_iff (page : Page) (collection : String) :
    cut? (pageFile page collection).contents =
        some (Record.tomlDocument (frontMatter collection page.data), Node.template page.content) ↔
      ∀ text ∈ Record.texts (frontMatter collection page.data), fence ∉ endedLines text.toList := by
  have hwhole := Record.isWhole_tomlDocument (frontMatter collection page.data)
  have hcontents : (pageFile page collection).contents.toList =
      fence ++ '\n' :: ((Record.tomlDocument (frontMatter collection page.data)).toList ++
        (fence ++ '\n' :: (Node.template page.content).toList)) := by
    simp [pageFile, fence]
  have hcut := cut?_eq_iff (Node.template page.content) hwhole hcontents
  rw [String.ofList_toList] at hcut
  rw [hcut, Record.mem_endedLines_tomlDocument isBar_fence]
  simp [Record.Holds]

/-- A text of three lines, the second of them a fence, is cut after its first line. -/
theorem not_cut_pageFile_of_fence :
    ¬∀ (page : Page) (collection : String),
      cut? (pageFile page collection).contents =
        some (Record.tomlDocument (frontMatter collection page.data),
          Node.template page.content) := by
  intro h
  let page : Page :=
    { pathname := "page.html", data := [("var1", .text "a\n+++\nb")], content := [], source := [] }
  have hcut : cut? (pageFile page "pages").contents =
      some ("layout = \"pages\"\nvar1 = \"\"\"\na\n", "b\"\"\"\n+++\n") := by
    decide
  exact absurd (hcut.symm.trans (h page "pages")) (by decide)

end Hugo

end Stencil
