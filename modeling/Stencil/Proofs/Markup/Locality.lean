import Stencil.Proofs.Markup.Token

/-!
# Tokens within a text

A token that ends inside a text is the same token whatever comes after the text, and a text that is
followed by a tag is cut the same way with and without what follows, as long as its tokens end in
it (`nextToken_within`).  Only a construct that does not end in the text looks at what follows.
-/

namespace Stencil.Markup

variable {cs rest later : List Char}

/-! ## Cutting -/

theorem cutTag_within {quote : Option Char} {tag : List Char} :
    cutTag quote (cs ++ rest) = some (tag, later ++ rest) ↔
      cutTag quote cs = some (tag, later) := by
  induction cs generalizing quote tag with
  | nil =>
      have hne : cutTag quote rest ≠ some (tag, later ++ rest) := fun h =>
        absurd (cutTag_length h) (by simp)
      simp [cutTag, hne]
  | cons c cs ih =>
      rw [List.cons_append]
      cases quote with
      | some quote => simp [cutTag, ih]
      | none =>
          by_cases hc : c = '>'
          · subst hc
            simp [cutTag]
          · rw [cutTag.eq_3 _ _ (by simpa using hc), cutTag.eq_3 _ _ (by simpa using hc)]
            simp [ih]

theorem cutWhen_within {ended : List Char → Bool} {seen before : List Char} :
    cutWhen ended seen (cs ++ rest) = some (before, later ++ rest) ↔
      cutWhen ended seen cs = some (before, later) := by
  induction cs generalizing seen with
  | nil =>
      have hne : cutWhen ended seen rest ≠ some (before, later ++ rest) := fun h =>
        absurd (cutWhen_length h) (by simp)
      simp [cutWhen, hne]
  | cons c cs ih =>
      rw [List.cons_append, cutWhen, cutWhen]
      split
      · simp
      · exact ih

theorem cutBalanced_within {depth : Nat} {inside : List Char} :
    cutBalanced depth (cs ++ rest) = some (inside, later ++ rest) ↔
      cutBalanced depth cs = some (inside, later) := by
  induction cs generalizing depth inside with
  | nil =>
      have hne : cutBalanced depth rest ≠ some (inside, later ++ rest) := fun h =>
        absurd (cutBalanced_length h) (by simp)
      simp [cutBalanced, hne]
  | cons c cs ih =>
      rw [List.cons_append]
      by_cases hc : depth = 0 ∧ c = '>'
      · obtain ⟨rfl, rfl⟩ := hc
        simp [cutBalanced]
      · rw [cutBalanced.eq_3 _ _ _ (by simpa using hc), cutBalanced.eq_3 _ _ _ (by simpa using hc)]
        simp [ih]

/-! ## Constructs -/

theorem readDeclaration_characterData_iff {start : List Char} {token : Token} :
    readDeclaration start ('[' :: cs) = .ok (token, later) ↔
      ∃ seen, cutWhen endsCharacterData [] cs = some (seen, later) ∧
        "CDATA[".toList.isPrefixOf seen.reverse = true ∧
        token = .characterData ((seen.drop 2).reverse.drop 6) := by
  rw [readDeclaration]
  split
  · simp_all
  · split <;> grind

theorem readDeclaration_comment_iff {start : List Char} {token : Token} :
    readDeclaration start ('-' :: cs) = .ok (token, later) ↔
      ∃ seen, cutWhen endsComment ['-'] cs = some (seen, later) ∧
        "--".toList.isPrefixOf seen.reverse = true ∧
        token = .comment ((seen.drop 2).reverse.drop 2) := by
  rw [readDeclaration]
  split
  · simp_all
  · split <;> grind

theorem readDeclaration_doctype_iff
    {start : List Char} {c : Char} {token : Token} (hbracket : c ≠ '[') (hhyphen : c ≠ '-') :
    readDeclaration start (c :: cs) = .ok (token, later) ↔
      (c = 'D' ∨ c = 'd') ∧ ∃ inside, cutBalanced 0 cs = some (inside, later) ∧
        (inside.take 6).map Char.toUpper = "OCTYPE".toList ∧
        (inside.drop 6).dropWhile isTagSpace ≠ [] ∧
        token = .doctype ((inside.drop 6).dropWhile isTagSpace) := by
  rw [readDeclaration.eq_3 _ _ _ (by simpa using hbracket) (by simpa using hhyphen)]
  split
  · rename_i hc
    simp only [hc, true_and]
    split
    · simp_all
    · split
      · split <;> grind
      · grind
  · simp_all

theorem readDeclaration_within {start start' : List Char} {token : Token}
    (hrest : ∀ c ∈ rest.head?, c = '<') :
    readDeclaration start (cs ++ rest) = .ok (token, later ++ rest) ↔
      readDeclaration start' cs = .ok (token, later) := by
  cases cs with
  | nil =>
      cases rest with
      | nil => simp [readDeclaration]
      | cons c rest =>
          obtain rfl := hrest c rfl
          simp [readDeclaration]
  | cons c cs =>
      rw [List.cons_append]
      by_cases hbracket : c = '['
      · subst hbracket
        simp only [readDeclaration_characterData_iff, cutWhen_within]
      by_cases hhyphen : c = '-'
      · subst hhyphen
        simp only [readDeclaration_comment_iff, cutWhen_within]
      · simp only [readDeclaration_doctype_iff hbracket hhyphen, cutBalanced_within]

theorem readInstruction_iff {start : List Char} {token : Token} :
    readInstruction start cs = .ok (token, later) ↔
      ∃ seen, cutWhen endsInstruction ['?'] cs = some (seen, later) ∧ 1 < seen.length ∧
        token = .instruction := by
  rw [readInstruction]
  split
  · simp_all
  · split <;> grind

theorem readConstruct_endTag_iff {start : List Char} {token : Token} :
    readConstruct start ('/' :: cs) = .ok (token, later) ↔
      ∃ tag, cutTag none cs = some (tag, later) ∧ token = .endTag (endTagName tag) := by
  rw [readConstruct]
  split <;> grind

theorem readConstruct_tag_iff
    {start : List Char} {token : Token}
    (hcs : ∀ c ∈ cs.head?, c ≠ '!' ∧ c ≠ '?' ∧ c ≠ '/') :
    readConstruct start cs = .ok (token, later) ↔
      ∃ tag, cutTag none cs = some (tag, later) ∧ token = tagToken tag := by
  rw [readConstruct.eq_4 _ _ (by rintro _ rfl; exact (hcs _ rfl).1 rfl)
    (by rintro _ rfl; exact (hcs _ rfl).2.1 rfl) (by rintro _ rfl; exact (hcs _ rfl).2.2 rfl)]
  split <;> grind

theorem readConstruct_within {start start' : List Char} {token : Token}
    (hrest : ∀ c ∈ rest.head?, c = '<') :
    readConstruct start (cs ++ rest) = .ok (token, later ++ rest) ↔
      readConstruct start' cs = .ok (token, later) := by
  cases cs with
  | nil =>
      have hne : readConstruct start rest ≠ .ok (token, later ++ rest) := fun h =>
        absurd (readConstruct_length h) (by simp)
      simpa [readConstruct, cutTag] using hne
  | cons c cs =>
      rw [List.cons_append]
      by_cases hdeclaration : c = '!'
      · subst hdeclaration
        exact readDeclaration_within hrest
      by_cases hinstruction : c = '?'
      · subst hinstruction
        simp only [readConstruct, readInstruction_iff, cutWhen_within]
      by_cases hend : c = '/'
      · subst hend
        simp only [readConstruct_endTag_iff, cutTag_within]
      · have hhead : ∀ d ∈ (c :: cs).head?, d ≠ '!' ∧ d ≠ '?' ∧ d ≠ '/' := by
          rintro d ⟨⟩
          exact ⟨hdeclaration, hinstruction, hend⟩
        rw [← List.cons_append, readConstruct_tag_iff hhead,
          readConstruct_tag_iff (by simpa using hhead)]
        simp only [cutTag_within]

/-! ## Tokens -/

theorem nextToken_eq_ok_iff {c : Char} {result : Token × List Char} :
    nextToken c cs = .ok result ↔ readToken c cs = .ok result := by
  rw [nextToken]
  cases readToken c cs <;> simp

theorem takeWhile_within {p : Char → Bool} (hrest : ∀ c ∈ rest.head?, p c = false) :
    (cs ++ rest).takeWhile p = cs.takeWhile p := by
  induction cs with
  | nil => exact takeWhile_append_of_stop (by simp) hrest
  | cons c cs ih => simp [List.takeWhile_cons, ih]

theorem dropWhile_within {p : Char → Bool} (hrest : ∀ c ∈ rest.head?, p c = false) :
    (cs ++ rest).dropWhile p = cs.dropWhile p ++ rest := by
  induction cs with
  | nil => exact dropWhile_append_of_stop (by simp) hrest
  | cons c cs ih =>
      rw [List.cons_append, List.dropWhile_cons, List.dropWhile_cons, ih]
      split <;> rfl

/-- A text before a tag is cut like the text alone, as long as its tokens end in it. -/
theorem nextToken_within
    {c : Char} {token : Token} (hrest : ∀ c ∈ rest.head?, c = '<') :
    nextToken c (cs ++ rest) = .ok (token, later ++ rest) ↔
      nextToken c cs = .ok (token, later) := by
  have htext : ∀ c ∈ rest.head?, isTextChar c = false := fun c hc => by rw [hrest c hc]; rfl
  have hreference : ∀ c ∈ rest.head?, isReferenceChar c = false := fun c hc => by
    rw [hrest c hc]; rfl
  rw [nextToken_eq_ok_iff, nextToken_eq_ok_iff, readToken, readToken]
  split
  · exact readConstruct_within hrest
  split
  · rw [takeWhile_within hreference, dropWhile_within hreference]
    cases cs.dropWhile isReferenceChar with
    | nil =>
        cases rest with
        | nil => simp
        | cons d rest =>
            obtain rfl := hrest d rfl
            simp
    | cons d ds =>
        by_cases hd : d = ';'
        · subst hd
          simp
        · simp [hd]
  · rw [takeWhile_within htext, dropWhile_within htext]
    simp

/-! ## What is left -/

theorem cutTag_suffix {quote : Option Char} {tag : List Char}
    (h : cutTag quote cs = some (tag, later)) : later <:+ cs := by
  fun_induction cutTag quote cs generalizing tag later with
  | case1 => cases h
  | case2 cs =>
      cases h
      exact List.suffix_cons _ _
  | case3 c cs _ ih | case4 quote c cs ih =>
      obtain ⟨⟨tag, later⟩, hcut, heq⟩ := Option.map_eq_some_iff.mp h
      cases heq
      exact (ih hcut).trans (List.suffix_cons _ _)

theorem cutWhen_suffix {ended : List Char → Bool} {seen before : List Char}
    (h : cutWhen ended seen cs = some (before, later)) : later <:+ cs := by
  induction cs generalizing seen with
  | nil => cases h
  | cons c cs ih =>
      rw [cutWhen] at h
      split at h
      · cases h
        exact List.suffix_cons _ _
      · exact (ih h).trans (List.suffix_cons _ _)

theorem cutBalanced_suffix {depth : Nat} {inside : List Char}
    (h : cutBalanced depth cs = some (inside, later)) : later <:+ cs := by
  fun_induction cutBalanced depth cs generalizing inside later with
  | case1 => cases h
  | case2 cs =>
      cases h
      exact List.suffix_cons _ _
  | case3 depth c cs =>
      rename_i ih
      obtain ⟨⟨inside, later⟩, hcut, heq⟩ := Option.map_eq_some_iff.mp h
      cases heq
      exact (ih hcut).trans (List.suffix_cons _ _)

theorem readDeclaration_spec {start : List Char} {token : Token}
    (h : readDeclaration start cs = .ok (token, later)) :
    later <:+ cs ∧ ∀ name, token ≠ .endTag name := by
  cases cs with
  | nil => cases h
  | cons c cs =>
      have hsuffix : later <:+ cs → later <:+ c :: cs := fun h => h.trans (List.suffix_cons c cs)
      by_cases hbracket : c = '['
      · subst hbracket
        obtain ⟨seen, hcut, -, rfl⟩ := readDeclaration_characterData_iff.mp h
        exact ⟨hsuffix (cutWhen_suffix hcut), by simp⟩
      by_cases hhyphen : c = '-'
      · subst hhyphen
        obtain ⟨seen, hcut, -, rfl⟩ := readDeclaration_comment_iff.mp h
        exact ⟨hsuffix (cutWhen_suffix hcut), by simp⟩
      · obtain ⟨-, inside, hcut, -, -, rfl⟩ := (readDeclaration_doctype_iff hbracket hhyphen).mp h
        exact ⟨hsuffix (cutBalanced_suffix hcut), by simp⟩

theorem tagToken_ne_endTag (tag name : List Char) : tagToken tag ≠ .endTag name := by
  rw [tagToken]
  split <;> simp

theorem readConstruct_spec {start : List Char} {token : Token}
    (h : readConstruct start cs = .ok (token, later)) :
    later <:+ cs ∧ ∀ name, token = .endTag name → cs.head? = some '/' := by
  by_cases hhead : ∀ c ∈ cs.head?, c ≠ '!' ∧ c ≠ '?' ∧ c ≠ '/'
  · obtain ⟨tag, hcut, rfl⟩ := (readConstruct_tag_iff hhead).mp h
    exact ⟨cutTag_suffix hcut, fun name heq => absurd heq (tagToken_ne_endTag tag name)⟩
  cases cs with
  | nil => simp at hhead
  | cons c cs =>
      have hsuffix : later <:+ cs → later <:+ c :: cs := fun h => h.trans (List.suffix_cons c cs)
      have hcases : c = '!' ∨ c = '?' ∨ c = '/' := by simpa [or_iff_not_imp_left] using hhead
      rcases hcases with rfl | rfl | rfl
      · obtain ⟨hlater, htoken⟩ := readDeclaration_spec h
        exact ⟨hsuffix hlater, fun name heq => absurd heq (htoken name)⟩
      · obtain ⟨seen, hcut, -, rfl⟩ := readInstruction_iff.mp h
        exact ⟨hsuffix (cutWhen_suffix hcut), by simp⟩
      · obtain ⟨tag, hcut, rfl⟩ := readConstruct_endTag_iff.mp h
        exact ⟨hsuffix (cutTag_suffix hcut), by simp⟩

/-- What is left after a token is an end of the text, and only `</` begins an end tag. -/
theorem nextToken_spec {c : Char} {token : Token} (h : nextToken c cs = .ok (token, later)) :
    later <:+ cs ∧ ∀ name, token = .endTag name → c = '<' ∧ cs.head? = some '/' := by
  rw [nextToken_eq_ok_iff, readToken] at h
  split at h
  · rename_i hc
    obtain ⟨hlater, hend⟩ := readConstruct_spec h
    exact ⟨hlater, fun name heq => ⟨hc, hend name heq⟩⟩
  split at h
  · split at h
    · rename_i after hdrop
      cases h
      have hsuffix : ';' :: later <:+ cs := hdrop ▸ List.dropWhile_suffix isReferenceChar
      exact ⟨(List.suffix_cons _ _).trans hsuffix, by simp⟩
    · cases h
  · cases h
    exact ⟨List.dropWhile_suffix isTextChar, by simp⟩

end Stencil.Markup
