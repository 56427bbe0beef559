import Stencil.Markup.Reader
import Stencil.Proofs.Markup.Canonical

/-!
# Tokens of written markup

Each construct of written markup is cut off whole, whatever comes after it: a doctype, a comment, a
start tag with its attributes, an end tag, a run of text and a reference.
-/

namespace Stencil.Markup

/-! ## Cutting at a character -/

theorem takeWhile_append_of_stop
    {p : Char → Bool} {before after : List Char}
    (hbefore : ∀ c ∈ before, p c = true) (hafter : ∀ c ∈ after.head?, p c = false) :
    (before ++ after).takeWhile p = before := by
  rw [List.takeWhile_append_of_pos hbefore]
  cases after with
  | nil => simp
  | cons c after => simp [hafter c rfl]

theorem dropWhile_append_of_stop
    {p : Char → Bool} {before after : List Char}
    (hbefore : ∀ c ∈ before, p c = true) (hafter : ∀ c ∈ after.head?, p c = false) :
    (before ++ after).dropWhile p = after := by
  rw [List.dropWhile_append_of_pos hbefore]
  cases after with
  | nil => rfl
  | cons c after => simp [hafter c rfl]

/-- Cut at a `>` when no earlier one ends the construct. -/
theorem cutWhen_append
    {ended : List Char → Bool} {seen body : List Char} (rest : List Char)
    (hend : ended (body.reverse ++ seen) = true)
    (hbody : ∀ before after, body = before ++ '>' :: after →
      ended (before.reverse ++ seen) = false) :
    cutWhen ended seen (body ++ '>' :: rest) = some (body.reverse ++ seen, rest) := by
  induction body generalizing seen with
  | nil => simp_all [cutWhen]
  | cons c body ih =>
      have hgo : ¬(c = '>' ∧ ended seen = true) := by
        rintro ⟨rfl, hseen⟩
        have hstop := hbody [] body rfl
        simp_all
      rw [List.cons_append, cutWhen, if_neg hgo, ih]
      · simp
      · simpa using hend
      · intro before after hsplit
        simpa using hbody (c :: before) after (by rw [hsplit]; rfl)

theorem cutBalanced_append
    {inside : List Char} (rest : List Char) (hinside : ∀ c ∈ inside, c ≠ '<' ∧ c ≠ '>') :
    cutBalanced 0 (inside ++ '>' :: rest) = some (inside, rest) := by
  induction inside with
  | nil => rfl
  | cons c inside ih =>
      have hc := hinside c List.mem_cons_self
      have hrest := ih fun d hd => hinside d (List.mem_cons_of_mem _ hd)
      rw [List.cons_append, cutBalanced.eq_3 _ _ _ (by simp [hc.2])]
      simp [hc.1, hc.2, hrest]

/-- A character that neither ends a tag nor begins a quoted value. -/
def isTagChar (c : Char) : Bool :=
  c != '>' && c != '"' && c != '\''

theorem cutTag_append
    {before : List Char} (rest : List Char) (hbefore : ∀ c ∈ before, isTagChar c = true) :
    cutTag none (before ++ rest) =
      (cutTag none rest).map fun (tag, later) => (before ++ tag, later) := by
  induction before with
  | nil => simp
  | cons c before ih =>
      have hc : c ≠ '>' ∧ c ≠ '"' ∧ c ≠ '\'' := by
        simpa [isTagChar, and_assoc] using hbefore c List.mem_cons_self
      have hrest := ih fun d hd => hbefore d (List.mem_cons_of_mem _ hd)
      rw [List.cons_append, cutTag.eq_3 _ _ (by simpa using hc.1)]
      simp [hc.2.1, hc.2.2, hrest, Function.comp_def]

theorem cutTag_quoted
    {value : List Char} (rest : List Char) (hvalue : '"' ∉ value) :
    cutTag (some '"') (value ++ '"' :: rest) =
      (cutTag none rest).map fun (tag, later) => (value ++ '"' :: tag, later) := by
  induction value with
  | nil => simp [cutTag]
  | cons c value ih =>
      rw [List.mem_cons, not_or] at hvalue
      rw [List.cons_append, cutTag, if_neg (Ne.symm hvalue.1), ih hvalue.2]
      simp [Function.comp_def]

/-! ## Plain names in tags -/

theorem isTagChar_of_isPlainChar {c : Char} (hc : isPlainChar c = true) : isTagChar c = true := by
  by_contra hne
  rw [isTagChar] at hne
  have hcases : c = '>' ∨ c = '"' ∨ c = '\'' := by grind
  rcases hcases with rfl | rfl | rfl <;> exact absurd hc (by decide)

theorem isTagSpace_of_isPlainChar
    {c : Char} (hc : isPlainChar c = true) : isTagSpace c = false := by
  by_contra hne
  rw [isTagSpace] at hne
  have hcases : c = ' ' ∨ c = '\t' ∨ c = '\r' ∨ c = '\n' := by grind
  rcases hcases with rfl | rfl | rfl | rfl <;> exact absurd hc (by decide)

theorem ne_slash_of_isPlainChar {c : Char} (hc : isPlainChar c = true) : c ≠ '/' := by
  rintro rfl
  exact absurd hc (by decide)

theorem smallName_toList {name : String} (hname : IsPlainName name) :
    smallName name.toList = name := by
  have hmap : name.toList.map Char.toLower = name.toList.map id :=
    List.map_congr_left fun c hc => toLower_of_isPlainChar (List.all_eq_true.mp hname.2 c hc)
  rw [smallName, hmap, List.map_id, String.ofList_toList]

/-! ## Written attributes -/

open Template

theorem quote_notMem_escaped (value : List Char) : '"' ∉ value.flatMap escapedValueChar := by
  intro hmem
  obtain ⟨c, -, hc⟩ := List.mem_flatMap.mp hmem
  by_cases hquote : c = '"'
  · subst hquote
    exact absurd hc (by decide)
  · rw [escapedValueChar.eq_def] at hc
    split at hc
    · exact absurd hc (by decide)
    · exact hquote rfl
    · rw [escapedTextChar.eq_def] at hc
      split at hc
      · exact absurd hc (by decide)
      · exact absurd hc (by decide)
      · exact absurd hc (by decide)
      · exact hquote (List.mem_singleton.mp hc).symm

/-- A tag that does not end in a slash is a start tag. -/
theorem tagToken_of_getLast?_ne
    {tag : List Char} (hlast : tag.getLast? ≠ some '/') :
    tagToken tag = .startTag (splitName tag).1 (splitName tag).2 := by
  rw [tagToken]
  split
  · rename_i inside h
    rw [← List.head?_reverse, h] at hlast
    exact absurd rfl hlast
  · rfl

/-- The attributes of a tag end where the tag ends. -/
theorem cutTag_markup
    {attrs : List Attribute} (rest : List Char) (hattrs : Attribute.Canonical attrs) :
    cutTag none (Attribute.markup attrs ++ '>' :: rest) = some (Attribute.markup attrs, rest) := by
  induction attrs with
  | nil => rfl
  | cons attr attrs ih =>
      obtain ⟨value, hvalue, hname, -, hattrs⟩ := hattrs.exists_static
      have hrest := ih hattrs
      have hchars : ∀ c ∈ ' ' :: attr.name.toList, isTagChar c = true := by
        rintro c (_ | ⟨_, hc⟩)
        · rfl
        · exact isTagChar_of_isPlainChar (List.all_eq_true.mp hname.2 c hc)
      have hcut : cutTag none
          (Attribute.valueMarkup value ++ (Attribute.markup attrs ++ '>' :: rest)) =
          some (Attribute.valueMarkup value ++ Attribute.markup attrs, rest) := by
        rw [Attribute.valueMarkup]
        split
        · exact hrest
        · have hquoted := cutTag_quoted (Attribute.markup attrs ++ '>' :: rest)
            (quote_notMem_escaped value.toList)
          simp [cutTag, hquoted, hrest]
      rw [hvalue, Attribute.markup_static]
      have := cutTag_append
        (Attribute.valueMarkup value ++ (Attribute.markup attrs ++ '>' :: rest)) hchars
      rw [hcut] at this
      simpa using this

theorem head?_markup {attrs : List Attribute} (hattrs : Attribute.Canonical attrs) :
    ∀ c ∈ (Attribute.markup attrs).head?, c = ' ' := by
  intro c hc
  cases attrs with
  | nil => simp [Attribute.markup] at hc
  | cons attr attrs =>
      obtain ⟨value, hvalue, -⟩ := hattrs.exists_static
      rw [hvalue, Attribute.markup_static] at hc
      exact (Option.some.inj hc).symm

theorem getLast?_ne_slash {name : String} (hname : IsPlainName name) :
    ∃ last, name.toList.getLast? = some last ∧ last ≠ '/' := by
  obtain ⟨c, cs, hchars, -, hplain⟩ := hname.exists_cons
  rw [hchars]
  obtain ⟨last, hlast⟩ := Option.ne_none_iff_exists'.mp (by simp : (c :: cs).getLast? ≠ none)
  exact ⟨last, hlast, ne_slash_of_isPlainChar (hplain last (List.mem_of_getLast? hlast))⟩

/-- Attributes end in a plain character or in a quote. -/
theorem getLast?_markup
    {attrs : List Attribute} {before : List Char} (hattrs : Attribute.Canonical attrs)
    (hbefore : before.getLast? ≠ some '/') :
    (before ++ Attribute.markup attrs).getLast? ≠ some '/' := by
  induction attrs generalizing before with
  | nil => simpa [Attribute.markup] using hbefore
  | cons attr attrs ih =>
      obtain ⟨value, hvalue, hname, -, hattrs⟩ := hattrs.exists_static
      obtain ⟨last, hlast, hne⟩ := getLast?_ne_slash hname
      have hattr : (before ++ ' ' :: (attr.name.toList ++ Attribute.valueMarkup value)).getLast? ≠
          some '/' := by
        by_cases hempty : value = ""
        · simpa [Attribute.valueMarkup, hempty, List.getLast?_append, List.getLast?_cons, hlast]
            using hne
        · simp [Attribute.valueMarkup, hempty, List.getLast?_append, List.getLast?_cons]
      have hrest := ih hattrs hattr
      rw [hvalue, Attribute.markup_static]
      simpa using hrest

/-! ## The constructs -/

theorem nextToken_of_construct
    {cs rest : List Char} {token : Token}
    (h : readConstruct ('<' :: cs) cs = .ok (token, rest)) :
    nextToken '<' cs = .ok (token, rest) := by
  rw [nextToken, readToken, if_pos rfl, h]

theorem nextToken_doctype
    {value : List Char} (rest : List Char)
    (hvalue : ∀ c ∈ value, c ≠ '<' ∧ c ≠ '>')
    (hhead : ∃ c, value.head? = some c ∧ isTagSpace c = false) :
    nextToken '<'
        ('!' :: 'D' :: 'O' :: 'C' :: 'T' :: 'Y' :: 'P' :: 'E' :: ' ' :: (value ++ '>' :: rest)) =
      .ok (.doctype value, rest) := by
  obtain ⟨c, hhead, hc⟩ := hhead
  obtain ⟨cs, rfl⟩ := List.head?_eq_some_iff.mp hhead
  have hinside : ∀ d ∈ 'O' :: 'C' :: 'T' :: 'Y' :: 'P' :: 'E' :: ' ' :: c :: cs,
      d ≠ '<' ∧ d ≠ '>' := by
    simpa using hvalue
  have hcut := cutBalanced_append rest hinside
  have hdrop : (' ' :: c :: cs).dropWhile isTagSpace = c :: cs := by
    simp [hc, show isTagSpace ' ' = true from rfl]
  apply nextToken_of_construct
  rw [readConstruct, readDeclaration]
  · simp only [List.cons_append] at hcut
    rw [if_pos (.inl rfl), List.cons_append, hcut]
    simp only [List.take_succ_cons, List.take_zero, List.drop_succ_cons, List.drop_zero, hdrop]
    rfl
  · simp
  · simp

/-- Before a `>` inside a written comment there are no two hyphens after the first two. -/
theorem endsComment_eq_false
    {before : List Char} (hbefore : ¬['-', '-'] <:+: before) :
    endsComment (before.reverse ++ [' ', '-', '-']) = false := by
  obtain ⟨seen, rfl⟩ : ∃ seen : List Char, before = seen.reverse :=
    ⟨before.reverse, before.reverse_reverse.symm⟩
  rw [List.reverse_reverse]
  match seen with
  | [] => rfl
  | [c] => simp [endsComment]
  | c :: d :: seen =>
      have hne : ¬(c = '-' ∧ d = '-') := by
        rintro ⟨rfl, rfl⟩
        exact hbefore ⟨seen.reverse, [], by simp⟩
      rw [List.cons_append, List.cons_append, endsComment.eq_def]
      split
      · rename_i heq
        simp only [List.cons.injEq] at heq
        exact absurd ⟨heq.1, heq.2.1⟩ hne
      · rfl

theorem nextToken_comment
    {value : List Char} (rest : List Char) (hvalue : ¬['-', '-'] <:+: value) :
    nextToken '<' ('!' :: '-' :: '-' :: ' ' :: (value ++ ' ' :: '-' :: '-' :: '>' :: rest)) =
      .ok (.comment (' ' :: (value ++ [' '])), rest) := by
  have hbody : ∀ before after,
      '-' :: ' ' :: (value ++ [' ', '-', '-']) = before ++ '>' :: after →
        endsComment (before.reverse ++ ['-']) = false := by
    intro before after hsplit
    obtain _ | ⟨a, _ | ⟨b, before⟩⟩ := before
    · simp at hsplit
    · simp at hsplit
    simp only [List.cons_append, List.cons.injEq] at hsplit
    obtain ⟨rfl, rfl, hsplit⟩ := hsplit
    have hprefix : before <+: value := by
      obtain ⟨mid, -, hrest⟩ | ⟨mid, hvalue, -⟩ := List.append_eq_append_iff.mp hsplit
      · have hmem : '>' ∈ [' ', '-', '-'] := by
          rw [hrest]
          simp
        exact absurd hmem (by decide)
      · exact ⟨mid, hvalue.symm⟩
    have hclear : ¬['-', '-'] <:+: before := fun h => hvalue (h.trans hprefix.isInfix)
    simpa using endsComment_eq_false hclear
  have hcut := cutWhen_append rest (by simp [endsComment]) hbody
  apply nextToken_of_construct
  rw [readConstruct, readDeclaration]
  simp only [List.cons_append, List.append_assoc, List.nil_append] at hcut
  rw [hcut]
  simp

/-- A written start tag is cut off whole, and its name and attributes come apart. -/
theorem nextToken_startTag
    {name : String} {attrs : List Attribute} (rest : List Char)
    (hname : IsPlainName name) (hattrs : Attribute.Canonical attrs) :
    nextToken '<' (name.toList ++ (Attribute.markup attrs ++ '>' :: rest)) =
      .ok (.startTag name.toList (Attribute.markup attrs), rest) := by
  have hplain := List.all_eq_true.mp hname.2
  have hcut : cutTag none (name.toList ++ (Attribute.markup attrs ++ '>' :: rest)) =
      some (name.toList ++ Attribute.markup attrs, rest) := by
    rw [cutTag_append _ fun c hc => isTagChar_of_isPlainChar (hplain c hc),
      cutTag_markup rest hattrs]
    rfl
  have htoken : tagToken (name.toList ++ Attribute.markup attrs) =
      .startTag name.toList (Attribute.markup attrs) := by
    obtain ⟨last, hlast, hne⟩ := getLast?_ne_slash hname
    have hstop : ∀ c ∈ (Attribute.markup attrs).head?, (!isTagSpace c) = false := by
      intro c hc
      rw [head?_markup hattrs c hc]
      rfl
    have hinside : ∀ c ∈ name.toList, (!isTagSpace c) = true := by
      intro c hc
      simp [isTagSpace_of_isPlainChar (hplain c hc)]
    rw [tagToken_of_getLast?_ne (getLast?_markup hattrs (by simpa [hlast] using hne)), splitName,
      takeWhile_append_of_stop hinside hstop, dropWhile_append_of_stop hinside hstop]
  obtain ⟨c, cs, hchars, hlower, -⟩ := hname.exists_cons
  apply nextToken_of_construct
  rw [hchars, List.cons_append] at hcut htoken ⊢
  rw [readConstruct]
  · rw [hcut, ← htoken]
    rfl
  all_goals
    intro later heq
    rw [(List.cons.inj heq).1] at hlower
    exact absurd hlower (by decide)

/-- A written end tag is cut off whole. -/
theorem nextToken_endTag
    {name : String} (rest : List Char) (hname : IsPlainName name) :
    nextToken '<' ('/' :: (name.toList ++ '>' :: rest)) = .ok (.endTag name.toList, rest) := by
  have hplain := List.all_eq_true.mp hname.2
  have hcut : cutTag none (name.toList ++ '>' :: rest) = some (name.toList, rest) := by
    rw [cutTag_append _ fun c hc => isTagChar_of_isPlainChar (hplain c hc)]
    simp [cutTag]
  have hend : endTagName name.toList = name.toList := by
    obtain ⟨last, hlast, -⟩ := getLast?_ne_slash hname
    obtain ⟨cs, hchars⟩ := List.getLast?_eq_some_iff.mp hlast
    have hspace : isTagSpace last = false :=
      isTagSpace_of_isPlainChar (hplain last (List.mem_of_getLast? hlast))
    rw [endTagName, hchars]
    simp [hspace]
  apply nextToken_of_construct
  rw [readConstruct, hcut]
  simp only [hend]

/-- Text runs to the next construct or reference. -/
theorem nextToken_text
    {c : Char} (cs : List Char) (hc : isTextChar c = true) :
    nextToken c cs = .ok (.text (c :: cs.takeWhile isTextChar), cs.dropWhile isTextChar) := by
  have hne : c ≠ '<' ∧ c ≠ '&' := by simpa [isTextChar] using hc
  rw [nextToken, readToken, if_neg hne.1, if_neg hne.2]

theorem nextToken_reference
    {name : List Char} (rest : List Char) (hname : ∀ c ∈ name, isReferenceChar c = true) :
    nextToken '&' (name ++ ';' :: rest) = .ok (.reference name, rest) := by
  have hstop : ∀ c ∈ (';' :: rest).head?, isReferenceChar c = false := by
    rintro c ⟨⟩
    rfl
  rw [nextToken, readToken, if_neg (by decide), if_pos rfl,
    dropWhile_append_of_stop hname hstop, takeWhile_append_of_stop hname hstop]
  rfl

end Stencil.Markup
