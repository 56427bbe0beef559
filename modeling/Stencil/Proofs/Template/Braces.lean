import Stencil.Proofs.Template.Characters

/-!
# Braces of a template

A site generator finds the actions of a template by their double braces.  Two braces in a row are
the beginning of an action, or the first of them is a brace of the markup (`bracesAfter_iff`).
Where the latter does not happen, reading a template gives exactly the actions that were written
(`readActions_chars`).  Markup is harmless in particular if its braces stay apart, and escaping
keeps them apart.
-/

namespace Stencil

namespace Template

/-! ## Braces -/

/-- Two opening braces come right after `before`. -/
def BracesAfter (cs before : List Char) : Prop :=
  ∃ after, cs = before ++ '{' :: '{' :: after

/-- An action begins right after `before`. -/
def OpensAfter (pieces : List Piece) (before : List Char) : Prop :=
  ∃ first instruction rest, pieces = first ++ .action instruction :: rest ∧ before = chars first

/-- A brace of the markup comes right after `before`, and another brace after it. -/
def StrayAfter (pieces : List Piece) (before : List Char) : Prop :=
  ∃ first text rest inside after, pieces = first ++ .markup text :: rest ∧
    text.toList = inside ++ '{' :: after ∧ before = chars first ++ inside ∧
    (after ++ chars rest).head? = some '{'

/-- There is no brace between the braces of the action. -/
def Action.IsPlain (instruction : Action) : Prop :=
  ∀ c ∈ instruction.body.toList, c ≠ '{' ∧ c ≠ '}'

/-- All actions among the pieces are plain. -/
def ArePlain (pieces : List Piece) : Prop :=
  ∀ instruction, .action instruction ∈ pieces → instruction.IsPlain

variable {pieces : List Piece} {piece : Piece} {before : List Char}

theorem OpensAfter.cons (piece : Piece) (h : OpensAfter pieces before) :
    OpensAfter (piece :: pieces) (piece.text.toList ++ before) := by
  obtain ⟨first, instruction, rest, rfl, rfl⟩ := h
  exact ⟨piece :: first, instruction, rest, rfl, rfl⟩

theorem StrayAfter.cons (piece : Piece) (h : StrayAfter pieces before) :
    StrayAfter (piece :: pieces) (piece.text.toList ++ before) := by
  obtain ⟨first, text, rest, inside, after, rfl, htext, rfl, hnext⟩ := h
  refine ⟨piece :: first, text, rest, inside, after, rfl, htext, ?_, hnext⟩
  rw [← List.append_assoc]
  rfl

theorem toList_text_action (instruction : Action) :
    instruction.text.toList =
      '{' :: '{' :: ' ' :: (instruction.body.toList ++ [' ', '}', '}']) := by
  simp [Action.text]

/-- The two braces of an action are its only ones. -/
theorem eq_nil_of_action_braces
    {instruction : Action} (hplain : instruction.IsPlain) {inside after : List Char}
    (hsplit : instruction.text.toList = inside ++ '{' :: after)
    (hnext : after.head? ≠ some ' ') : inside = [] := by
  rw [toList_text_action] at hsplit
  obtain _ | ⟨a, _ | ⟨b, inside⟩⟩ := inside
  · rfl
  · simp only [List.cons_append, List.nil_append, List.cons.injEq] at hsplit
    rw [← hsplit.2.2] at hnext
    exact absurd rfl hnext
  · simp only [List.cons_append, List.cons.injEq] at hsplit
    have hmem : '{' ∈ ' ' :: (instruction.body.toList ++ [' ', '}', '}']) := by
      rw [hsplit.2.2]
      simp
    have hbody : '{' ∈ instruction.body.toList := by simpa using hmem
    exact absurd rfl (hplain '{' hbody).1

/-- Two braces in a row begin an action, or the first of them is a brace of the markup. -/
theorem bracesAfter_iff (hplain : ArePlain pieces) :
    BracesAfter (chars pieces) before ↔ OpensAfter pieces before ∨ StrayAfter pieces before := by
  constructor
  · intro hbraces
    induction pieces generalizing before with
    | nil =>
        obtain ⟨after, hafter⟩ := hbraces
        simp at hafter
    | cons piece pieces ih =>
        have hrest : ArePlain pieces :=
          fun instruction hmem => hplain _ (List.mem_cons_of_mem _ hmem)
        obtain ⟨after, hafter⟩ := hbraces
        change piece.text.toList ++ chars pieces = _ at hafter
        obtain ⟨later, rfl, hchars⟩ | ⟨later, htext, hchars⟩ := List.append_eq_append_iff.mp hafter
        · -- the braces come after the first piece
          exact (ih hrest ⟨after, hchars⟩).imp (·.cons piece) (·.cons piece)
        · cases later with
          | nil =>
              have hbefore : before = piece.text.toList ++ [] := by simp [htext]
              rw [hbefore]
              have hbraces : BracesAfter (chars pieces) [] := ⟨after, hchars.symm⟩
              exact (ih hrest hbraces).imp (·.cons piece) (·.cons piece)
          | cons c later =>
              rw [List.cons_append] at hchars
              obtain ⟨rfl, hnext⟩ := List.cons.inj hchars
              cases piece with
              | markup text =>
                  have hstray : (later ++ chars pieces).head? = some '{' := by
                    rw [← hnext]
                    rfl
                  exact .inr ⟨[], text, pieces, before, later, rfl, htext, rfl, hstray⟩
              | action instruction =>
                  have hspace : later.head? ≠ some ' ' := by
                    cases later with
                    | nil => simp
                    | cons d later => simp [← (List.cons.inj hnext).1]
                  have hempty := eq_nil_of_action_braces (hplain _ List.mem_cons_self) htext hspace
                  exact .inl ⟨[], instruction, pieces, rfl, hempty⟩
  · rintro (⟨first, instruction, rest, rfl, rfl⟩ |
      ⟨first, text, rest, inside, after, rfl, htext, rfl, hnext⟩)
    · refine ⟨' ' :: (instruction.body.toList ++ [' ', '}', '}']) ++ chars rest, ?_⟩
      rw [chars_append, chars_action, toList_text_action]
      rfl
    · obtain ⟨later, hlater⟩ := List.head?_eq_some_iff.mp hnext
      refine ⟨later, ?_⟩
      rw [chars_append, chars_markup, htext]
      simp [hlater]

/-! ## Reading a template -/

/-- What stands between the braces of the actions of a text, read from left to right; nothing if
an action does not end.  The first argument holds what has been read of an action that has begun,
last character first. -/
def readActions : Option (List Char) → List Char → Option (List String)
  | none, [] => some []
  | some _, [] => none
  | none, '{' :: '{' :: cs => readActions (some []) cs
  | none, _ :: cs => readActions none cs
  | some inside, '}' :: '}' :: cs => (readActions none cs).map (.ofList inside.reverse :: ·)
  | some inside, c :: cs => readActions (some (c :: inside)) cs

/-- What is read of an action. -/
def Action.inside (instruction : Action) : String :=
  " " ++ instruction.body ++ " "

/-- Markup is skipped as long as no two braces come in a row. -/
theorem readActions_markup
    {text rest : List Char}
    (hclear : ∀ inside after, text = inside ++ '{' :: after →
      (after ++ rest).head? ≠ some '{') :
    readActions none (text ++ rest) = readActions none rest := by
  induction text with
  | nil => rfl
  | cons c text ih =>
      have htail := ih fun inside after heq => hclear (c :: inside) after (by rw [heq]; rfl)
      rw [List.cons_append, readActions.eq_4, htail]
      rintro cs rfl hnext
      exact hclear [] text rfl (by rw [hnext]; rfl)

/-- An action is read up to its closing braces. -/
theorem readActions_inside
    (seen : List Char) {body : List Char} (rest : List Char) (hbody : ∀ c ∈ body, c ≠ '}') :
    readActions (some seen) (body ++ '}' :: '}' :: rest) =
      (readActions none rest).map (.ofList (seen.reverse ++ body) :: ·) := by
  induction body generalizing seen with
  | nil => simp [readActions]
  | cons c body ih =>
      obtain ⟨hc, hbody⟩ := List.forall_mem_cons.mp hbody
      rw [List.cons_append, readActions.eq_6, ih (c :: seen) hbody]
      · simp
      · intro cs heq
        exact absurd heq hc

/-- The action of a piece. -/
def Piece.action? : Piece → Option Action
  | .markup _ => none
  | .action instruction => some instruction

@[simp]
theorem filterMap_action?_markup (text : String) (pieces : List Piece) :
    (.markup text :: pieces).filterMap Piece.action? = pieces.filterMap Piece.action? :=
  rfl

@[simp]
theorem filterMap_action?_action (instruction : Action) (pieces : List Piece) :
    (.action instruction :: pieces).filterMap Piece.action? =
      instruction :: pieces.filterMap Piece.action? :=
  rfl

/-- Reading gives exactly the actions that were written, if no brace of the markup comes before
another brace. -/
theorem readActions_chars
    (hplain : ArePlain pieces) (hclear : ∀ before, ¬StrayAfter pieces before) :
    readActions none (chars pieces) =
      some ((pieces.filterMap Piece.action?).map Action.inside) := by
  induction pieces with
  | nil => rfl
  | cons piece pieces ih =>
      have hrest := ih (fun instruction hmem => hplain _ (List.mem_cons_of_mem _ hmem))
        fun before hstray => hclear _ (hstray.cons piece)
      cases piece with
      | markup text =>
          rw [chars_markup, readActions_markup, hrest]
          · rfl
          · intro inside after htext hnext
            exact hclear _ ⟨[], text, pieces, inside, after, rfl, htext, rfl, hnext⟩
      | action instruction =>
          have hbody : ∀ c ∈ ' ' :: (instruction.body.toList ++ [' ']), c ≠ '}' := by
            have hinside := hplain instruction List.mem_cons_self
            simpa [or_imp, forall_and] using fun c hc => (hinside c hc).2
          have hread := readActions_inside [] (chars pieces) hbody
          have hinside : String.ofList (' ' :: (instruction.body.toList ++ [' '])) =
              instruction.inside := by
            rw [← String.toList_inj, String.toList_ofList]
            simp [Action.inside]
          rw [List.reverse_nil, List.nil_append, hinside, hrest] at hread
          rw [chars_action, toList_text_action]
          simpa [readActions, Piece.action?] using hread

/-! ## Braces that stay apart -/

/-- Every brace of a text is followed, within the text, by something other than a brace. -/
def bracesApart : List Char → Bool
  | [] => true
  | c :: cs => (c != '{' || cs.head?.any (· != '{')) && bracesApart cs

theorem bracesApart_of_notMem {cs : List Char} (hbrace : '{' ∉ cs) : bracesApart cs = true := by
  induction cs with
  | nil => rfl
  | cons c cs ih =>
      rw [List.mem_cons, not_or] at hbrace
      simp [bracesApart, Ne.symm hbrace.1, ih hbrace.2]

theorem bracesApart_append
    {before after : List Char} (hbefore : bracesApart before = true)
    (hafter : bracesApart after = true) : bracesApart (before ++ after) = true := by
  induction before with
  | nil => exact hafter
  | cons c before ih =>
      rw [bracesApart, Bool.and_eq_true] at hbefore
      rw [List.cons_append, bracesApart, ih hbefore.2, Bool.and_true]
      cases before with
      | nil =>
          have hne : c ≠ '{' := by simpa using hbefore.1
          simp [hne]
      | cons d before => simpa using hbefore.1

/-- What comes after a brace of such a text. -/
theorem head?_of_bracesApart
    {inside after : List Char} (hapart : bracesApart (inside ++ '{' :: after) = true) :
    ∃ c, after.head? = some c ∧ c ≠ '{' := by
  induction inside with
  | nil =>
      rw [List.nil_append, bracesApart, Bool.and_eq_true] at hapart
      simpa [Option.any_eq_true] using hapart.1
  | cons c inside ih =>
      rw [List.cons_append, bracesApart, Bool.and_eq_true] at hapart
      exact ih hapart.2

/-- Writing other characters in another way neither makes braces nor lets them meet. -/
theorem bracesApart_flatMap
    {escape : Char → List Char} (hbrace : escape '{' = ['{'])
    (hescape : ∀ c, c ≠ '{' → '{' ∉ escape c ∧ escape c ≠ [])
    {cs : List Char} (hapart : bracesApart cs = true) :
    bracesApart (cs.flatMap escape) = true := by
  induction cs with
  | nil => rfl
  | cons c cs ih =>
      rw [bracesApart, Bool.and_eq_true] at hapart
      have hrest := ih hapart.2
      rw [List.flatMap_cons]
      by_cases hc : c = '{'
      · subst hc
        obtain ⟨d, hd, hne⟩ : ∃ d, cs.head? = some d ∧ d ≠ '{' := by
          simpa [Option.any_eq_true] using hapart.1
        obtain ⟨later, rfl⟩ := List.head?_eq_some_iff.mp hd
        obtain ⟨hnotMem, hsome⟩ := hescape d hne
        obtain ⟨e, es, hes⟩ := List.exists_cons_of_ne_nil hsome
        have he : e ≠ '{' := fun h => hnotMem (by rw [hes, h]; exact List.mem_cons_self)
        rw [hbrace, List.singleton_append, bracesApart, hrest, Bool.and_true]
        simp [hes, he]
      · exact bracesApart_append (bracesApart_of_notMem (hescape c hc).1) hrest

theorem escapedTextChar_of_ne {c : Char} (hc : c ≠ '{') :
    '{' ∉ escapedTextChar c ∧ escapedTextChar c ≠ [] := by
  rw [escapedTextChar.eq_def]
  split
  · decide
  · decide
  · decide
  · simp [Ne.symm hc]

theorem escapedValueChar_of_ne {c : Char} (hc : c ≠ '{') :
    '{' ∉ escapedValueChar c ∧ escapedValueChar c ≠ [] := by
  rw [escapedValueChar.eq_def]
  split
  · decide
  · decide
  · exact escapedTextChar_of_ne hc

/-- In every piece of markup the braces are apart. -/
def MarkupApart (pieces : List Piece) : Prop :=
  ∀ text, .markup text ∈ pieces → bracesApart text.toList = true

@[simp]
theorem markupApart_nil : MarkupApart [] :=
  fun _ hmem => absurd hmem List.not_mem_nil

@[simp]
theorem markupApart_append {before after : List Piece} :
    MarkupApart (before ++ after) ↔ MarkupApart before ∧ MarkupApart after := by
  simp only [MarkupApart, List.mem_append, or_imp, forall_and]

@[simp]
theorem markupApart_markup {text : String} :
    MarkupApart (.markup text :: pieces) ↔ bracesApart text.toList = true ∧ MarkupApart pieces := by
  simp [MarkupApart, or_imp, forall_and]

@[simp]
theorem markupApart_action {instruction : Action} :
    MarkupApart (.action instruction :: pieces) ↔ MarkupApart pieces := by
  simp [MarkupApart]

/-- No brace of the markup meets another one if they are apart in every piece. -/
theorem not_strayAfter (hpieces : MarkupApart pieces) (before : List Char) :
    ¬StrayAfter pieces before := by
  rintro ⟨first, text, rest, inside, after, rfl, htext, -, hnext⟩
  have hapart := hpieces text (by simp)
  rw [htext] at hapart
  obtain ⟨c, hc, hne⟩ := head?_of_bracesApart hapart
  rw [List.head?_append, hc] at hnext
  exact hne (Option.some.inj hnext)

end Template

end Stencil
