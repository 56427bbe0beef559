import Mathlib.Logic.Basic
import Mathlib.Tactic.SplitIfs
import Stencil.Proofs.Text.Lines
import Stencil.Record.Toml

/-!
# Lines of a TOML document

A document consists of whole lines.  Keys, flags and headers have no line break of their own, but a
string with line breaks is written on several lines, and every line of it that a line break ends
stands in the document as it is, unless it holds characters that are written differently.  So a line
of plus signs is a line of the document exactly if it is such a line of one of the texts
(`Record.mem_endedLines_tomlDocument`).
-/

namespace Stencil

/-! ## Strings -/

namespace Toml

open Text

variable {cs line : List Char}

theorem hexDigit_ne_newline (n : Nat) : hexDigit n ≠ '\n' := by
  have hsmall : ∀ k < 16, hexDigit k ≠ '\n' := by decide
  rcases Nat.lt_or_ge n 16 with hlt | hge
  · exact hsmall n hlt
  · have hstar : Nat.digitChar n = '*' := by
      simp only [Nat.digitChar]
      repeat rw [if_neg (by omega)]
    rw [hexDigit, hstar]
    decide

/-- A character stands for itself, a line break only on several lines, or is written with a
backslash and no line break. -/
theorem basicChar_cases (multiline : Bool) (c : Char) :
    (basicChar multiline c = [c] ∧ (c = '\n' → multiline = true)) ∨
      ∃ rest, basicChar multiline c = '\\' :: rest ∧ '\n' ∉ rest := by
  fun_cases basicChar multiline c
  case case6 hmultiline => exact Or.inl ⟨rfl, fun _ => hmultiline⟩
  case case8 =>
    refine Or.inr ⟨_, rfl, ?_⟩
    simp [(hexDigit_ne_newline _).symm]
  case case9 hbreak _ => exact Or.inl ⟨rfl, fun h => absurd h hbreak⟩
  all_goals exact Or.inr ⟨_, rfl, by decide⟩

/-- Inside a basic string there are line breaks only where it has some on several lines. -/
theorem newline_notMem_basicChars
    {multiline : Bool} (allowed left : Nat) (h : multiline = true → '\n' ∉ cs) :
    '\n' ∉ basicChars multiline allowed left cs := by
  induction cs generalizing left with
  | nil => simp [basicChars]
  | cons c cs ih =>
      have hrest : ∀ left, '\n' ∉ basicChars multiline allowed left cs := fun left =>
        ih left fun hmultiline => List.not_mem_of_not_mem_cons (h hmultiline)
      rw [basicChars]
      split_ifs with hquote hleft
      · simp [hrest]
      · simp [hrest]
      · rw [List.mem_append, not_or]
        refine ⟨?_, hrest allowed⟩
        rcases basicChar_cases multiline c with ⟨hself, hbreak⟩ | ⟨rest, hescaped, hnone⟩
        · rw [hself, List.mem_singleton]
          rintro rfl
          exact h (hbreak rfl) List.mem_cons_self
        · simp [hescaped, hnone]

/-- A line break ends the line also where quotes are counted. -/
theorem basicChars_append_newline (allowed left : Nat) (cs rest : List Char) :
    basicChars true allowed left (cs ++ '\n' :: rest) =
      basicChars true allowed left cs ++ '\n' :: basicChars true allowed allowed rest := by
  induction cs generalizing left with
  | nil => rfl
  | cons c cs ih =>
      simp only [List.cons_append, basicChars, ih]
      split_ifs <;> simp

/-- A line of plus signs. -/
def IsBar (line : List Char) : Prop :=
  line ≠ [] ∧ ∀ c ∈ line, c = '+'

theorem IsBar.ne_of_mem (h : IsBar line) {c : Char} (hc : c ∈ cs) (hne : c ≠ '+') : cs ≠ line := by
  rintro rfl
  exact hne (h.2 c hc)

/-- Only a line of plus signs is written as one. -/
theorem basicChars_eq_iff (h : IsBar line) (allowed left : Nat) (cs : List Char) :
    basicChars true allowed left cs = line ↔ cs = line := by
  have hself : ∀ (cs : List Char) (left : Nat), (∀ c ∈ basicChars true allowed left cs, c = '+') →
      basicChars true allowed left cs = cs := by
    intro cs
    induction cs with
    | nil => exact fun _ _ => rfl
    | cons c cs ih =>
        intro left hall
        rw [basicChars] at hall ⊢
        split_ifs at hall ⊢ with hquote hleft
        · simp at hall
        · simp at hall
        · rw [List.forall_mem_append] at hall
          rcases basicChar_cases true c with ⟨hself, -⟩ | ⟨rest, hescaped, -⟩
          · rw [hself, ih allowed hall.2]
            rfl
          · simp [hescaped] at hall
  have hbar : ∀ (cs : List Char) (left : Nat), (∀ c ∈ cs, c = '+') →
      basicChars true allowed left cs = cs := by
    intro cs
    induction cs with
    | nil => exact fun _ _ => rfl
    | cons c cs ih =>
        intro left hall
        obtain ⟨rfl, hrest⟩ := List.forall_mem_cons.mp hall
        rw [basicChars, ih allowed hrest]
        rfl
  constructor
  · rintro rfl
    exact (hself cs left h.2).symm
  · rintro rfl
    exact hbar cs left h.2

/-- The lines of plus signs stand in a basic string on several lines as they are. -/
theorem mem_endedLines_basicChars (h : IsBar line) (allowed left : Nat) (cs : List Char) :
    line ∈ endedLines (basicChars true allowed left cs) ↔ line ∈ endedLines cs := by
  induction cs using lines_induction generalizing left with
  | line cs hcs =>
      rw [endedLines_of_notMem hcs,
        endedLines_of_notMem (newline_notMem_basicChars allowed left fun _ => hcs)]
  | cons cs rest hcs ih =>
      rw [basicChars_append_newline, endedLines_append_newline, endedLines_append_newline,
        lines_of_notMem hcs,
        lines_of_notMem (newline_notMem_basicChars allowed left fun _ => hcs), List.mem_append,
        List.mem_append, List.mem_singleton, List.mem_singleton, ih, eq_comm,
        basicChars_eq_iff h, eq_comm]

/-- A string without line breaks is written on one line. -/
theorem newline_notMem_stringChars (h : '\n' ∉ cs) : '\n' ∉ stringChars cs := by
  have hbreak : openingBreak cs = [] := by simp [openingBreak, h]
  have hbasic : ∀ multiline allowed left, '\n' ∉ basicChars multiline allowed left cs :=
    fun _ allowed left => newline_notMem_basicChars allowed left fun _ => h
  simp only [stringChars]
  split_ifs <;> simp [basic, literal, multilineBasic, multilineLiteral, hbreak, hbasic, h]

/-- A string with line breaks is written between three quotes or apostrophes, on lines of its
own. -/
theorem exists_stringChars (h : '\n' ∈ cs) :
    ∃ quotes inside, stringChars cs = quotes ++ '\n' :: inside ++ quotes ∧
      (quotes = ['"', '"', '"'] ∨ quotes = ['\'', '\'', '\'']) ∧
      (inside = cs ∨ inside = basicChars true 2 2 cs) := by
  have hbreak : openingBreak cs = ['\n'] := by simp [openingBreak, h]
  have hbasic : multilineBasic cs =
      ['"', '"', '"'] ++ '\n' :: basicChars true 2 2 cs ++ ['"', '"', '"'] := by
    simp [multilineBasic, hbreak]
  have hliteral : multilineLiteral cs = ['\'', '\'', '\''] ++ '\n' :: cs ++ ['\'', '\'', '\''] := by
    simp [multilineLiteral, hbreak]
  simp only [stringChars, List.contains_iff_mem.mpr h, Bool.not_true, Bool.and_false,
    Bool.false_and, Bool.false_eq_true, if_false]
  split_ifs
  · exact ⟨_, _, hbasic, Or.inl rfl, Or.inr rfl⟩
  · exact ⟨_, _, hliteral, Or.inr rfl, Or.inl rfl⟩
  · exact ⟨_, _, hbasic, Or.inl rfl, Or.inr rfl⟩

theorem newline_notMem_keyChars (cs : List Char) : '\n' ∉ keyChars cs := by
  have hbasic : '\n' ∉ basicChars false 0 0 cs := newline_notMem_basicChars 0 0 (by simp)
  simp only [keyChars]
  split_ifs with hbare _ hliteral
  · intro hmem
    have := List.all_eq_true.mp (Bool.and_eq_true_iff.mp hbare).2 _ hmem
    exact absurd this (by decide)
  · simp [basic, hbasic]
  · have hnone : '\n' ∉ cs := fun hmem => by
      have hcontrol : (cs.any fun c => isControl c || c == '\n') = true :=
        List.any_eq_true.mpr ⟨'\n', hmem, by decide⟩
      simp [hcontrol] at hliteral
    simp [literal, hnone]
  · simp [basic, hbasic]

/-! ## Assignments and headers -/

/-- The line of a flag or of an empty list. -/
theorem notMem_endedLines_assignment
    (h : IsBar line) (name : String) {value : String} (hvalue : '\n' ∉ value.toList) :
    line ∉ endedLines (assignment name value).toList := by
  have hkey := newline_notMem_keyChars name.toList
  have hnone : '\n' ∉ keyChars name.toList ++ [' ', '=', ' '] ++ value.toList := by
    simp [hkey, hvalue]
  have hchars : (assignment name value).toList =
      keyChars name.toList ++ [' ', '=', ' '] ++ value.toList ++ ['\n'] := by
    simp [assignment, writeKey]
  rw [hchars, endedLines_ended, lines_of_notMem hnone, List.mem_singleton]
  have hspace : ' ' ∈ keyChars name.toList ++ [' ', '=', ' '] ++ value.toList := by simp
  exact (h.ne_of_mem hspace (by decide)).symm

/-- The lines of a string. -/
theorem mem_endedLines_assignment (h : IsBar line) (name value : String) :
    line ∈ endedLines (assignment name (writeString value)).toList ↔
      line ∈ endedLines value.toList := by
  by_cases hbreak : '\n' ∈ value.toList
  · obtain ⟨quotes, inside, hvalue, hquotes, hinside⟩ := exists_stringChars hbreak
    have hkey := newline_notMem_keyChars name.toList
    have hquote : '\n' ∉ quotes ∧ ∃ c ∈ quotes, c ≠ '+' := by
      rcases hquotes with rfl | rfl <;> simp
    have hopening : '\n' ∉ keyChars name.toList ++ [' ', '=', ' '] ++ quotes := by
      simp [hkey, hquote.1]
    have hchars : (assignment name (writeString value)).toList =
        (keyChars name.toList ++ [' ', '=', ' '] ++ quotes) ++ '\n' :: (inside ++ quotes) ++
          ['\n'] := by
      simp [assignment, writeKey, writeString, hvalue]
    obtain ⟨last, hlast⟩ := lines_append_of_notMem inside hquote.1
    obtain ⟨c, hc, hne⟩ := hquote.2
    have hfirst : line ≠ keyChars name.toList ++ [' ', '=', ' '] ++ quotes :=
      (h.ne_of_mem (List.mem_append_right _ hc) hne).symm
    have hclosing : line ≠ last ++ quotes := (h.ne_of_mem (List.mem_append_right _ hc) hne).symm
    rw [hchars, endedLines_ended, lines_append_newline, lines_of_notMem hopening, hlast]
    simp only [List.mem_append, List.mem_singleton, hfirst, hclosing, false_or, or_false]
    rcases hinside with rfl | rfl
    · exact Iff.rfl
    · exact mem_endedLines_basicChars h 2 2 value.toList
  · rw [endedLines_of_notMem hbreak]
    simp only [List.not_mem_nil, iff_false]
    refine notMem_endedLines_assignment h name ?_
    rw [writeString, String.toList_ofList]
    exact newline_notMem_stringChars hbreak

theorem isWhole_assignment (name value : String) : IsWhole (assignment name value).toList :=
  Or.inr ⟨(writeKey name ++ " = " ++ value).toList, by simp [assignment]⟩

theorem isWhole_arrayHeader (path : List String) : IsWhole (arrayHeader path).toList :=
  Or.inr ⟨("[[" ++ ".".intercalate (path.map writeKey) ++ "]]").toList, by simp [arrayHeader]⟩

theorem newline_notMem_keys (path : List String) :
    '\n' ∉ (".".intercalate (path.map writeKey)).toList := by
  have hkey : ∀ key, '\n' ∉ (writeKey key).toList := fun key => by
    rw [writeKey, String.toList_ofList]
    exact newline_notMem_keyChars key.toList
  induction path with
  | nil => simp
  | cons key path ih =>
      cases path with
      | nil => simpa using hkey key
      | cons next path =>
          rw [List.map_cons] at ih
          rw [List.map_cons, List.map_cons, String.intercalate_cons_cons, String.toList_append,
            String.toList_append]
          simp only [List.mem_append, hkey key, ih, or_false, false_or]
          decide

theorem notMem_endedLines_arrayHeader (h : IsBar line) (path : List String) :
    line ∉ endedLines (arrayHeader path).toList := by
  have hkeys := newline_notMem_keys path
  rw [arrayHeader]
  generalize ".".intercalate (path.map writeKey) = keys at hkeys ⊢
  have hnone : '\n' ∉ '[' :: '[' :: keys.toList ++ [']', ']'] := by simp [hkeys]
  have hchars :
      ("[[" ++ keys ++ "]]\n").toList = '[' :: '[' :: keys.toList ++ [']', ']'] ++ ['\n'] := by
    simp
  rw [hchars, endedLines_ended, lines_of_notMem hnone, List.mem_singleton]
  exact (h.ne_of_mem List.mem_cons_self (by decide)).symm

end Toml

/-! ## Tables -/

mutual

/-- The texts of a value, at any depth. -/
def Value.texts : Value → List String
  | .flag _ => []
  | .text value => [value]
  | .list records => Record.textsOfList records

/-- The texts of a list of records, at any depth. -/
def Record.textsOfList : List (List (String × Value)) → List String
  | [] => []
  | record :: records => Record.texts record ++ Record.textsOfList records

/-- The texts of a record, at any depth. -/
def Record.texts : List (String × Value) → List String
  | [] => []
  | (_, value) :: entries => value.texts ++ Record.texts entries

end

namespace Record

open Text Toml

variable {line : List Char}

theorem tomlLines_cons (reference : String) (value : Value) (entries : List (String × Value)) :
    tomlLines ((reference, value) :: entries) =
      (tomlLine? reference value).getD "" ++ tomlLines entries := by
  simp only [tomlLines, List.filterMap_cons]
  cases tomlLine? reference value <;> simp

theorem isWhole_tomlLine (reference : String) (value : Value) :
    IsWhole ((tomlLine? reference value).getD "").toList := by
  cases value with
  | flag flag => cases flag <;> exact isWhole_assignment _ _
  | text value => exact isWhole_assignment _ _
  | list records =>
      cases records with
      | nil => exact isWhole_assignment _ _
      | cons _ _ => exact Or.inl rfl

theorem isWhole_tomlLines (entries : List (String × Value)) :
    IsWhole (tomlLines entries).toList := by
  induction entries with
  | nil => exact Or.inl rfl
  | cons entry entries ih =>
      rw [tomlLines_cons, String.toList_append]
      exact (isWhole_tomlLine entry.1 entry.2).append ih

/-- A line of plus signs among those of an entry is one of its text. -/
theorem mem_endedLines_tomlLine_iff (h : IsBar line) (reference : String) (value : Value) :
    line ∈ endedLines ((tomlLine? reference value).getD "").toList ↔
      ∃ text, value = .text text ∧ line ∈ endedLines text.toList := by
  cases value with
  | flag flag =>
      have hnone : ∀ value, '\n' ∉ value.toList →
          line ∉ endedLines (assignment reference value).toList :=
        fun value => notMem_endedLines_assignment h reference
      cases flag <;> simp [tomlLine?, hnone]
  | text value => simp [tomlLine?, mem_endedLines_assignment h]
  | list records =>
      cases records with
      | nil => simp [tomlLine?, notMem_endedLines_assignment h]
      | cons _ _ => simp [tomlLine?, endedLines_of_notMem]

theorem mem_endedLines_tomlLines_cons_iff
    (h : IsBar line) (reference : String) (value : Value) (entries : List (String × Value)) :
    line ∈ endedLines (tomlLines ((reference, value) :: entries)).toList ↔
      (∃ text, value = .text text ∧ line ∈ endedLines text.toList) ∨
        line ∈ endedLines (tomlLines entries).toList := by
  rw [tomlLines_cons, String.toList_append, (isWhole_tomlLine reference value).endedLines_append,
    List.mem_append, mem_endedLines_tomlLine_iff h]

/-! ## Sections -/

mutual

theorem isWhole_of_mem_tomlSections (path : List String) :
    ∀ (value : Value), ∀ part ∈ value.tomlSections path, IsWhole part.toList
  | .flag _, _, hpart => absurd hpart List.not_mem_nil
  | .text _, _, hpart => absurd hpart List.not_mem_nil
  | .list records, part, hpart => isWhole_of_mem_listSections path records part hpart

theorem isWhole_of_mem_listSections (path : List String) :
    ∀ (records : List (List (String × Value))), ∀ part ∈ listSections path records,
      IsWhole part.toList
  | [], _, hpart => absurd hpart List.not_mem_nil
  | record :: records, part, hpart => by
    rw [listSections, List.mem_cons, List.mem_append] at hpart
    rcases hpart with rfl | hinside | hlater
    · rw [String.toList_append]
      exact (isWhole_arrayHeader path).append (isWhole_tomlLines record)
    · exact isWhole_of_mem_entrySections path record part hinside
    · exact isWhole_of_mem_listSections path records part hlater

theorem isWhole_of_mem_entrySections (path : List String) :
    ∀ (entries : List (String × Value)), ∀ part ∈ entrySections path entries, IsWhole part.toList
  | [], _, hpart => absurd hpart List.not_mem_nil
  | (reference, value) :: entries, part, hpart => by
    rw [entrySections, List.mem_append] at hpart
    rcases hpart with hhere | hlater
    · exact isWhole_of_mem_tomlSections (path ++ [reference]) value part hhere
    · exact isWhole_of_mem_entrySections path entries part hlater

end

/-- A text of the list holds the line, and a line break ends it. -/
def Holds (line : List Char) (texts : List String) : Prop :=
  ∃ text ∈ texts, line ∈ endedLines text.toList

theorem holds_append {texts more : List String} :
    Holds line (texts ++ more) ↔ Holds line texts ∨ Holds line more := by
  simp only [Holds, List.mem_append, or_and_right, exists_or]

mutual

theorem holds_tomlSections_iff (h : IsBar line) (path : List String) :
    ∀ value : Value, (∃ text, value = .text text ∧ line ∈ endedLines text.toList) ∨
      Holds line (value.tomlSections path) ↔ Holds line value.texts
  | .flag _ => by simp [Holds, Value.tomlSections, Value.texts]
  | .text _ => by simp [Holds, Value.tomlSections, Value.texts]
  | .list records => by
    simpa [Value.tomlSections, Value.texts] using holds_listSections_iff h path records

theorem holds_listSections_iff (h : IsBar line) (path : List String) :
    ∀ records : List (List (String × Value)),
      Holds line (listSections path records) ↔ Holds line (textsOfList records)
  | [] => Iff.rfl
  | record :: records => by
    have hhead : Holds line [Toml.arrayHeader path ++ tomlLines record] ↔
        line ∈ endedLines (tomlLines record).toList := by
      simp [Holds, (isWhole_arrayHeader path).endedLines_append,
        notMem_endedLines_arrayHeader h path]
    rw [listSections, textsOfList, ← List.singleton_append, holds_append, holds_append,
      holds_append, hhead, ← or_assoc, holds_entrySections_iff h path record,
      holds_listSections_iff h path records]

theorem holds_entrySections_iff (h : IsBar line) (path : List String) :
    ∀ entries : List (String × Value), line ∈ endedLines (tomlLines entries).toList ∨
      Holds line (entrySections path entries) ↔ Holds line (texts entries)
  | [] => by simp [Holds, tomlLines, entrySections, texts, endedLines_of_notMem]
  | (reference, value) :: entries => by
    rw [mem_endedLines_tomlLines_cons_iff h, entrySections, texts, holds_append, holds_append,
      ← holds_tomlSections_iff h (path ++ [reference]) value,
      ← holds_entrySections_iff h path entries, or_or_or_comm]

end

/-! ## Documents -/

variable {entries : List (String × Value)}

/-- The parts of a document between which there are empty lines. -/
def documentParts (entries : List (String × Value)) : List String :=
  (if tomlLines entries = "" then [] else [tomlLines entries]) ++ entrySections [] entries

theorem toList_tomlDocument (entries : List (String × Value)) :
    (tomlDocument entries).toList =
      ['\n'].intercalate ((documentParts entries).map String.toList) :=
  String.toList_intercalate

theorem isWhole_of_mem_documentParts :
    ∀ part ∈ (documentParts entries).map String.toList, IsWhole part := by
  rw [List.forall_mem_map]
  intro part hpart
  rcases List.mem_append.mp hpart with hlines | hsection
  · split_ifs at hlines
    · exact absurd hlines List.not_mem_nil
    · rw [List.mem_singleton.mp hlines]
      exact isWhole_tomlLines entries
  · exact isWhole_of_mem_entrySections [] entries part hsection

theorem holds_documentParts_iff (h : IsBar line) :
    Holds line (documentParts entries) ↔ Holds line (texts entries) := by
  have hlines : Holds line (if tomlLines entries = "" then [] else [tomlLines entries]) ↔
      line ∈ endedLines (tomlLines entries).toList := by
    split_ifs with hempty <;> simp [Holds, hempty, endedLines_of_notMem]
  rw [documentParts, holds_append, hlines, holds_entrySections_iff h]

theorem isWhole_tomlDocument (entries : List (String × Value)) :
    IsWhole (tomlDocument entries).toList := by
  rw [toList_tomlDocument]
  exact IsWhole.intercalate isWhole_of_mem_documentParts

/-- A line of plus signs is a line of the document exactly if it is a line of one of the texts and
not its last one. -/
theorem mem_endedLines_tomlDocument (h : IsBar line) (entries : List (String × Value)) :
    line ∈ endedLines (tomlDocument entries).toList ↔ Holds line (texts entries) := by
  rw [toList_tomlDocument, IsWhole.mem_endedLines_intercalate h.1 isWhole_of_mem_documentParts,
    ← holds_documentParts_iff h]
  simp only [Holds, List.mem_map, exists_exists_and_eq_and]

end Record

end Stencil
