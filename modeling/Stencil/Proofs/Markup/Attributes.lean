import Mathlib.Data.List.DropRight
import Stencil.Proofs.Markup.Token

/-!
# Written attributes and references

Decoding undoes escaping (`unescape_escaped`), and the attributes of a written tag are read back as
they are (`attributes_markup`).
-/

namespace Stencil.Markup

open Template

/-! ## Escaping -/

/-- An escaped character is itself, or a reference that names it. -/
theorem escapedTextChar_cases (c : Char) :
    (c ≠ '<' ∧ c ≠ '&' ∧ escapedTextChar c = [c]) ∨
      ∃ name, escapedTextChar c = '&' :: (name ++ [';']) ∧
        (∀ d ∈ name, isReferenceChar d = true) ∧ referenced? name = some c := by
  by_cases hamp : c = '&'
  · subst hamp
    exact .inr ⟨['a', 'm', 'p'], rfl, List.all_eq_true.mp (by decide), rfl⟩
  by_cases hlt : c = '<'
  · subst hlt
    exact .inr ⟨['l', 't'], rfl, List.all_eq_true.mp (by decide), rfl⟩
  by_cases hgt : c = '>'
  · subst hgt
    exact .inr ⟨['g', 't'], rfl, List.all_eq_true.mp (by decide), rfl⟩
  · exact .inl ⟨hlt, hamp, escapedTextChar.eq_4 c hamp hlt hgt⟩

theorem escapedValueChar_cases (c : Char) :
    (c ≠ '&' ∧ escapedValueChar c = [c]) ∨
      ∃ name, escapedValueChar c = '&' :: (name ++ [';']) ∧
        (∀ d ∈ name, isReferenceChar d = true) ∧ referenced? name = some c := by
  by_cases hapos : c = '\''
  · subst hapos
    exact .inr ⟨['a', 'p', 'o', 's'], rfl, List.all_eq_true.mp (by decide), rfl⟩
  by_cases hquot : c = '"'
  · subst hquot
    exact .inr ⟨['q', 'u', 'o', 't'], rfl, List.all_eq_true.mp (by decide), rfl⟩
  · rw [escapedValueChar.eq_3 c hapos hquot]
    rcases escapedTextChar_cases c with ⟨-, hne, heq⟩ | hreference
    · exact .inl ⟨hne, heq⟩
    · exact .inr hreference

/-- The rest of a reference is read up to its semicolon. -/
theorem decodeReferences?_name
    (seen : List Char) {name : List Char} {c : Char} (rest : List Char)
    (hname : ∀ d ∈ name, isReferenceChar d = true)
    (hreferenced : referenced? (seen.reverse ++ name) = some c) :
    decodeReferences? (some seen) (name ++ ';' :: rest) =
      (decodeReferences? none rest).map (c :: ·) := by
  induction name generalizing seen with
  | nil =>
      rw [List.append_nil] at hreferenced
      rw [List.nil_append, decodeReferences?, hreferenced]
      rfl
  | cons d name ih =>
      obtain ⟨hd, hname⟩ := List.forall_mem_cons.mp hname
      have hne : d ≠ ';' ∧ d ≠ '&' := by
        simp only [isReferenceChar, Bool.and_eq_true, bne_iff_ne] at hd
        exact hd.1
      rw [List.cons_append, decodeReferences?.eq_7 _ _ _ hne.2 hne.1]
      apply ih _ hname
      simpa using hreferenced

/-- Decoding undoes escaping. -/
theorem unescape_escaped (value : List Char) :
    unescape (value.flatMap escapedValueChar) = value := by
  have hdecode : decodeReferences? none (value.flatMap escapedValueChar) = some value := by
    induction value with
    | nil => rfl
    | cons c value ih =>
        rw [List.flatMap_cons]
        rcases escapedValueChar_cases c with ⟨hne, heq⟩ | ⟨name, heq, hname, hreferenced⟩
        · rw [heq, List.singleton_append, decodeReferences?.eq_4 _ _ hne, ih]
          rfl
        · rw [heq, List.cons_append, List.append_assoc, List.singleton_append, decodeReferences?,
            decodeReferences?_name [] _ hname hreferenced, ih]
          rfl
  rw [unescape, hdecode]
  rfl

/-! ## Attributes -/

theorem rawAttributes_of_blank {cs : List Char} (hspace : cs.dropWhile isTagSpace = []) :
    rawAttributes cs = [] := by
  rw [rawAttributes]
  split
  · rfl
  · rename_i h
    rw [hspace] at h
    cases h

theorem rawAttributes_of_cons
    {cs rest : List Char} {c : Char} (hspace : cs.dropWhile isTagSpace = c :: rest) :
    rawAttributes cs =
      match readAttribute c rest with
      | none => []
      | some (attr, later) => attr :: rawAttributes later := by
  rw [rawAttributes]
  split
  · rename_i h
    rw [hspace] at h
    cases h
  · rename_i h
    rw [hspace] at h
    cases h
    split
    · rename_i h
      rw [h]
    · rename_i h
      rw [h]

/-- White space before attributes is skipped. -/
theorem rawAttributes_dropWhile (cs : List Char) :
    rawAttributes (cs.dropWhile isTagSpace) = rawAttributes cs := by
  have hidem := List.dropWhile_idempotent isTagSpace cs
  cases hspace : cs.dropWhile isTagSpace with
  | nil => rw [rawAttributes_of_blank hspace, rawAttributes_of_blank rfl]
  | cons c rest =>
      rw [hspace] at hidem
      rw [rawAttributes_of_cons hspace, rawAttributes_of_cons hidem]

theorem isNameChar_of_isPlainChar
    {c : Char} (hc : isPlainChar c = true) : isNameChar c = true := by
  have hspace := isTagSpace_of_isPlainChar hc
  have hne : c ≠ '=' := by
    rintro rfl
    exact absurd hc (by decide)
  simp [isNameChar, hspace, hne]

theorem readValue_quoted
    {value : List Char} (rest : List Char) (hvalue : '"' ∉ value) :
    readValue ('"' :: (value ++ '"' :: rest)) = some (value, rest) := by
  have hinside : ∀ c ∈ value, (c != '"') = true := by
    intro c hc
    simpa using fun h : c = '"' => hvalue (h ▸ hc)
  have hstop : ∀ c ∈ ('"' :: rest).head?, (c != '"') = false := by
    rintro c ⟨⟩
    rfl
  have hspace : isTagSpace '"' = false := rfl
  rw [readValue, List.dropWhile_cons, hspace, if_neg Bool.false_ne_true]
  simp only [true_or, if_true, dropWhile_append_of_stop hinside hstop,
    takeWhile_append_of_stop hinside hstop]

theorem dropWhile_markup_cons
    {attrs : List Attribute} {name : String} {c : Char} {cs : List Char} (value : String)
    (hchars : name.toList = c :: cs) (hc : isPlainChar c = true) :
    (Attribute.markup (.static name value :: attrs)).dropWhile isTagSpace =
      c :: (cs ++ (Attribute.valueMarkup value ++ Attribute.markup attrs)) := by
  have hblank : isTagSpace ' ' = true := rfl
  simp [Attribute.markup_static, hchars, hblank, isTagSpace_of_isPlainChar hc]

/-- No written attribute begins with an equals sign, so it is not taken for the value of the
attribute before it. -/
theorem dropWhile_markup_ne
    {attrs : List Attribute} (rest : List Char) (hattrs : Attribute.Canonical attrs) :
    (Attribute.markup attrs).dropWhile isTagSpace ≠ '=' :: rest := by
  cases attrs with
  | nil => simp [Attribute.markup]
  | cons attr attrs =>
      obtain ⟨value, hvalue, hname, -⟩ := hattrs.exists_static
      obtain ⟨c, cs, hchars, -, hplain⟩ := hname.exists_cons
      have hc := hplain c List.mem_cons_self
      rw [hvalue, dropWhile_markup_cons value hchars hc]
      intro heq
      rw [(List.cons.inj heq).1] at hc
      exact absurd hc (by decide)

/-- The first of the written attributes is read whole. -/
theorem rawAttributes_markup_cons
    {attrs : List Attribute} {name : String} (value : String)
    (hname : IsPlainName name) (hattrs : Attribute.Canonical attrs) :
    rawAttributes (Attribute.markup (.static name value :: attrs)) =
      (name.toList, value.toList.flatMap escapedValueChar) ::
        rawAttributes (Attribute.markup attrs) := by
  obtain ⟨c, cs, hchars, -, hplain⟩ := hname.exists_cons
  obtain ⟨hc, hcs⟩ := List.forall_mem_cons.mp hplain
  have hinside : ∀ d ∈ cs, isNameChar d = true := fun d hd => isNameChar_of_isPlainChar (hcs d hd)
  rw [rawAttributes_of_cons (dropWhile_markup_cons value hchars hc), hchars]
  by_cases hempty : value = ""
  · -- the next character is the space before the next attribute, if there is one
    have hstop : ∀ d ∈ (Attribute.markup attrs).head?, isNameChar d = false := by
      intro d hd
      rw [head?_markup hattrs d hd]
      rfl
    have hread : readAttribute c (cs ++ Attribute.markup attrs) =
        some ((c :: cs, []), (Attribute.markup attrs).dropWhile isTagSpace) := by
      rw [readAttribute, takeWhile_append_of_stop hinside hstop,
        dropWhile_append_of_stop hinside hstop]
      split
      · rename_i later heq
        exact absurd heq (dropWhile_markup_ne later hattrs)
      · rfl
    subst hempty
    rw [Attribute.valueMarkup, if_pos rfl, List.nil_append, hread]
    simp only [rawAttributes_dropWhile]
    rfl
  · have hstop : ∀ d ∈ (Attribute.valueMarkup value ++ Attribute.markup attrs).head?,
        isNameChar d = false := by
      rw [Attribute.valueMarkup, if_neg hempty]
      rintro d ⟨⟩
      rfl
    have hquoted := readValue_quoted (Attribute.markup attrs) (quote_notMem_escaped value.toList)
    rw [readAttribute, takeWhile_append_of_stop hinside hstop,
      dropWhile_append_of_stop hinside hstop, Attribute.valueMarkup, if_neg hempty]
    simp [isTagSpace, hquoted]

/-- The written attributes are read whole, one after another. -/
theorem map_rawAttributes_markup
    {attrs : List Attribute} (hattrs : Attribute.Canonical attrs) :
    (rawAttributes (Attribute.markup attrs)).map
      (fun (name, value) => .static (smallName name) (.ofList (unescape value))) = attrs := by
  induction attrs with
  | nil => rw [rawAttributes_of_blank rfl, List.map_nil]
  | cons attr attrs ih =>
      obtain ⟨value, hvalue, hname, -, hattrs⟩ := hattrs.exists_static
      rw [hvalue, rawAttributes_markup_cons value hname hattrs, List.map_cons, ih hattrs]
      simp only [smallName_toList hname, unescape_escaped, String.ofList_toList]

theorem firstOfEachName_eq_self
    {attrs : List Attribute} (hdistinct : (attrs.map Attribute.name).Nodup) :
    firstOfEachName attrs = attrs := by
  induction attrs with
  | nil => rfl
  | cons attr attrs ih =>
      obtain ⟨hnew, hdistinct⟩ := List.nodup_cons.mp hdistinct
      rw [firstOfEachName, ih hdistinct, List.filter_eq_self.mpr]
      intro other hother
      have hne : other.name ≠ attr.name := fun h => hnew (h ▸ List.mem_map_of_mem hother)
      simpa using hne

/-- The attributes of a written tag are read back as they are. -/
theorem attributes_markup
    {attrs : List Attribute} (hattrs : Attribute.Canonical attrs) :
    attributes (Attribute.markup attrs) = attrs := by
  rw [attributes, map_rawAttributes_markup hattrs, firstOfEachName_eq_self hattrs.1.2]

end Stencil.Markup
