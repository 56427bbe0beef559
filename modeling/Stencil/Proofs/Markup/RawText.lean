import Stencil.Proofs.Markup.Locality
import Stencil.Proofs.Markup.Mark
import Stencil.Proofs.Markup.RoundTrip

/-!
# The text of script and style elements

The end tag of a script or style element is looked for among the tokens of what comes after its
start tag.  `EndFound` is this search with one rule for every kind of token it meets.

So the text of such an element is kept as it is, but it is not any text without `</`.  It has to be
made up of tokens, and none of them may open an element of the same name
(`parse_rawText_iff`).
-/

namespace Stencil.Markup

variable {cs later body tag rest after : List Char}

/-! ## The search for the end tag -/

/-- The end tag of an element inside which `depth` elements of its name are open is found in a
text.  It stands at the beginning of `tag`, and `rest` comes after it. -/
inductive EndFound (name : List Char) : Nat → List Char → List Char → List Char → Prop
  | here {c : Char} {cs rest : List Char} (htoken : nextToken c cs = .ok (.endTag name, rest)) :
      EndFound name 0 (c :: cs) (c :: cs) rest
  | opened {depth : Nat} {c : Char} {cs attrs later tag rest : List Char}
      (htoken : nextToken c cs = .ok (.startTag name attrs, later))
      (hlater : EndFound name (depth + 1) later tag rest) : EndFound name depth (c :: cs) tag rest
  | closed {depth : Nat} {c : Char} {cs later tag rest : List Char}
      (htoken : nextToken c cs = .ok (.endTag name, later))
      (hlater : EndFound name depth later tag rest) : EndFound name (depth + 1) (c :: cs) tag rest
  | other {depth : Nat} {c : Char} {cs later tag rest : List Char} {token : Token}
      (htoken : nextToken c cs = .ok (token, later))
      (hopen : ∀ attrs, token ≠ .startTag name attrs) (hclose : token ≠ .endTag name)
      (hlater : EndFound name depth later tag rest) : EndFound name depth (c :: cs) tag rest

theorem findEnd_of_endFound {name : List Char} {depth : Nat}
    (h : EndFound name depth cs tag rest) : findEnd name depth cs = .ok (tag, rest) := by
  induction h with
  | here htoken => simp [findEnd_cons htoken]
  | opened htoken _ ih => simp [findEnd_cons htoken, ih]
  | closed htoken _ ih => simp [findEnd_cons htoken, ih]
  | @other depth c cs later tag rest token htoken hopen hclose _ ih =>
      rw [findEnd_cons htoken]
      cases token with
      | startTag inner attrs =>
          have hne : inner ≠ name := fun heq => hopen attrs (by rw [heq])
          simp [hne, ih]
      | endTag inner =>
          have hne : inner ≠ name := fun heq => hclose (by rw [heq])
          simp [hne, ih]
      | emptyTag | text | reference | characterData | comment | doctype | instruction => exact ih

theorem endFound_of_findEnd {name : List Char} {depth : Nat}
    (h : findEnd name depth cs = .ok (tag, rest)) : EndFound name depth cs tag rest := by
  fun_induction findEnd name depth cs with
  | case1 => cases h
  | case2 => cases h
  | case3 depth c cs inner attrs later htoken ih =>
      have hlater := ih h
      split at hlater
      · rename_i heq
        subst heq
        exact .opened htoken hlater
      · rename_i hne
        exact .other htoken (by simp [hne]) (by simp) hlater
  | case4 c cs later htoken =>
      cases h
      exact .here htoken
  | case5 depth c cs later hdepth htoken ih =>
      obtain ⟨depth, rfl⟩ := Nat.exists_eq_succ_of_ne_zero hdepth
      exact .closed htoken (ih h)
  | case6 depth c cs inner later htoken hne ih =>
      exact .other htoken (by simp) (by simp [hne]) (ih h)
  | case7 depth c cs token later hstart hend htoken ih =>
      exact .other htoken (fun attrs => hstart name attrs) (fun heq => hend name heq) (ih h)

theorem findEnd_eq_ok_iff {name : List Char} {depth : Nat} :
    findEnd name depth cs = .ok (tag, rest) ↔ EndFound name depth cs tag rest :=
  ⟨endFound_of_findEnd, findEnd_of_endFound⟩

/-- What is found is an end of the text, and it begins with the end tag. -/
theorem EndFound.spec {name : List Char} {depth : Nat} (h : EndFound name depth cs tag rest) :
    tag <:+ cs ∧ ∃ c inside, tag = c :: inside ∧ nextToken c inside = .ok (.endTag name, rest) := by
  induction h with
  | here htoken => exact ⟨List.suffix_rfl, _, _, rfl, htoken⟩
  | opened htoken _ ih | closed htoken _ ih =>
      exact ⟨ih.1.trans ((nextToken_spec htoken).1.trans (List.suffix_cons _ _)), ih.2⟩
  | other htoken _ _ _ ih =>
      exact ⟨ih.1.trans ((nextToken_spec htoken).1.trans (List.suffix_cons _ _)), ih.2⟩

/-- An end tag begins with `</`. -/
theorem EndFound.exists_cons {name : List Char} {depth : Nat}
    (h : EndFound name depth cs tag rest) : ∃ inside, tag = '<' :: '/' :: inside := by
  obtain ⟨-, c, inside, rfl, htoken⟩ := h.spec
  obtain ⟨rfl, hslash⟩ := (nextToken_spec htoken).2 name rfl
  obtain ⟨inside, rfl⟩ := List.head?_eq_some_iff.mp hslash
  exact ⟨inside, rfl⟩

/-! ## Bodies -/

/-- The text is made up of the tokens. -/
inductive Cuts : List Char → List Token → Prop
  | nil : Cuts [] []
  | cons {c : Char} {cs later : List Char} {token : Token} {tokens : List Token}
      (htoken : nextToken c cs = .ok (token, later)) (hlater : Cuts later tokens) :
      Cuts (c :: cs) (token :: tokens)

/-- The text is made up of tokens none of which opens an element of the name. -/
def SkippedOver (name body : List Char) : Prop :=
  ∃ tokens, Cuts body tokens ∧ ∀ attrs, .startTag name attrs ∉ tokens

theorem skippedOver_nil (name : List Char) : SkippedOver name [] :=
  ⟨[], .nil, by simp⟩

theorem skippedOver_cons_iff {name : List Char} {c : Char} {token : Token}
    (htoken : nextToken c cs = .ok (token, later)) :
    SkippedOver name (c :: cs) ↔
      (∀ attrs, token ≠ .startTag name attrs) ∧ SkippedOver name later := by
  constructor
  · rintro ⟨tokens, hcuts, hopen⟩
    cases hcuts with
    | cons hother hlater =>
        rw [htoken] at hother
        cases hother
        simp only [List.mem_cons, not_or] at hopen
        exact ⟨fun attrs heq => (hopen attrs).1 heq.symm, _, hlater, fun attrs => (hopen attrs).2⟩
  · rintro ⟨hne, tokens, hlater, hopen⟩
    refine ⟨token :: tokens, .cons htoken hlater, fun attrs hmem => ?_⟩
    rcases List.mem_cons.mp hmem with heq | hmem
    · exact hne attrs heq.symm
    · exact hopen attrs hmem

section Body

variable {name s : List Char}

/-- No end tag begins in a text without `</`. -/
theorem nextToken_ne_endTag
    {c : Char} {inner : List Char}
    (hrest : ∀ c ∈ rest.head?, c = '<') (hs : ¬['<', '/'] <:+: c :: cs) :
    nextToken c (cs ++ rest) ≠ .ok (.endTag inner, later) := by
  intro htoken
  obtain ⟨rfl, hslash⟩ := (nextToken_spec htoken).2 inner rfl
  cases cs with
  | nil =>
      have hlt := hrest '/' hslash
      exact absurd hlt (by decide)
  | cons d cs =>
      cases hslash
      exact hs ⟨[], cs, rfl⟩

/-- The search goes on behind a text that is skipped over. -/
theorem endFound_append
    (hrest : ∀ c ∈ rest.head?, c = '<') (hs : ¬['<', '/'] <:+: s)
    (hskip : SkippedOver name s) (h : EndFound name 0 rest tag after) :
    EndFound name 0 (s ++ rest) tag after := by
  obtain ⟨tokens, hcuts, hopen⟩ := hskip
  induction hcuts with
  | nil => exact h
  | @cons c cs later token tokens htoken hlater ih =>
      have hread := (nextToken_within hrest).mpr htoken
      have hsuffix : later <:+ c :: cs := (nextToken_spec htoken).1.trans (List.suffix_cons c cs)
      refine .other hread (fun attrs heq => hopen attrs (by simp [heq])) ?_ (ih ?_ ?_)
      · rintro rfl
        exact nextToken_ne_endTag hrest hs hread
      · exact fun hbegins => hs (hbegins.trans hsuffix.isInfix)
      · exact fun attrs hmem => hopen attrs (List.mem_cons_of_mem _ hmem)

/-- A token that ends before the rest is a token of the text. -/
theorem exists_of_nextToken {c : Char} {token : Token}
    (hrest : ∀ c ∈ rest.head?, c = '<') (htoken : nextToken c cs = .ok (token, later))
    (hcs : s ++ rest = c :: cs) (hlater : rest <:+ later) :
    ∃ inside left, s = c :: inside ∧ later = left ++ rest ∧ left <:+: s ∧
      nextToken c inside = .ok (token, left) := by
  obtain ⟨left, rfl⟩ := hlater
  cases s with
  | nil =>
      have hlength := nextToken_length htoken
      rw [← hcs, List.nil_append, List.length_append] at hlength
      omega
  | cons d inside =>
      obtain ⟨rfl, rfl⟩ := List.cons.inj hcs
      have hwithin := (nextToken_within hrest).mp htoken
      have hleft : left <:+ d :: inside := (nextToken_spec hwithin).1.trans (List.suffix_cons _ _)
      exact ⟨inside, left, rfl, rfl, hleft.isInfix, hwithin⟩

/-- When the search ends right behind a text, the text is skipped over. -/
theorem skippedOver_of_endFound {depth : Nat}
    (hrest : ∀ c ∈ rest.head?, c = '<') (hs : ¬['<', '/'] <:+: s)
    (h : EndFound name depth (s ++ rest) rest after) : depth = 0 ∧ SkippedOver name s := by
  generalize hcs : s ++ rest = cs at h
  generalize htag : rest = tag at h
  induction h generalizing s with
  | @here c cs after htoken =>
      obtain rfl : s = [] := by simpa [htag] using hcs
      exact ⟨rfl, skippedOver_nil name⟩
  | @opened depth c cs attrs later tag after htoken hlater ih =>
      obtain ⟨inside, left, rfl, rfl, hleft, -⟩ :=
        exists_of_nextToken hrest htoken hcs (htag ▸ hlater.spec.1)
      have hdepth := (ih (fun hbegins => hs (hbegins.trans hleft)) rfl htag).1
      exact absurd hdepth (Nat.succ_ne_zero depth)
  | @closed depth c cs later tag after htoken hlater ih =>
      obtain ⟨inside, left, rfl, rfl, -, hwithin⟩ :=
        exists_of_nextToken hrest htoken hcs (htag ▸ hlater.spec.1)
      exact absurd ((nextToken_within hrest).mpr hwithin) (nextToken_ne_endTag hrest hs)
  | @other depth c cs later tag after token htoken hopen hclose hlater ih =>
      obtain ⟨inside, left, rfl, rfl, hleft, hwithin⟩ :=
        exists_of_nextToken hrest htoken hcs (htag ▸ hlater.spec.1)
      obtain ⟨hdepth, hskip⟩ := ih (fun hbegins => hs (hbegins.trans hleft)) rfl htag
      exact ⟨hdepth, (skippedOver_cons_iff hwithin).mpr ⟨hopen, hskip⟩⟩

/-- The end tag is not found inside a text without `</`. -/
theorem exists_more_of_endFound {depth : Nat}
    (hrest : ∀ c ∈ rest.head?, c = '<') (hs : ¬['<', '/'] <:+: s)
    (h : EndFound name depth (s ++ rest) tag after) (htext : s ++ rest = body ++ tag) :
    ∃ more, body = s ++ more ∧ rest = more ++ tag := by
  rcases List.append_eq_append_iff.mp htext with ⟨more, hbody, hmore⟩ | ⟨more, hmore, htag⟩
  · exact ⟨more, hbody, hmore⟩
  obtain ⟨inside, hslash⟩ := h.exists_cons
  rw [hslash] at htag
  match more, htag with
  | [], htag => exact ⟨[], by simp [hmore], by simp [hslash, htag]⟩
  | [c], htag =>
      obtain ⟨rfl, rfl⟩ := List.cons.inj htag
      exact absurd (hrest '/' rfl) (by decide)
  | c :: d :: more, htag =>
      simp only [List.cons_append, List.cons.injEq] at htag
      obtain ⟨rfl, rfl, rfl⟩ := htag
      exact absurd ⟨body, more, by simp [hmore]⟩ hs

theorem rawChildren_append
    {more : List Char} (hmore : ∀ c ∈ more.head?, c = '<')
    (heq : rawChildren (s ++ more) = rawChildren s) : more = [] := by
  cases more with
  | nil => rfl
  | cons c more =>
      obtain rfl := hmore c rfl
      have hvisible : Text.isBlank (s ++ '<' :: more) = false := by
        simp [Text.isBlank, show Text.isSpace '<' = false from rfl]
      cases hblank : Text.isBlank s <;> simp [rawChildren, hvisible, hblank] at heq

end Body

/-! ## Elements -/

theorem isPlainName_of_isRawTextElement {name : String} (hraw : isRawTextElement name = true) :
    IsPlainName name := by
  have hall : ∀ name ∈ rawTextElements, IsPlainName name := by decide
  exact hall name (by simpa [isRawTextElement] using hraw)

/-- A script or style element at the beginning of markup has the text up to its end tag. -/
theorem parse_rawText
    {collapse : Bool} {name text : String} {tree : List Node}
    (hraw : isRawTextElement name = true) :
    parse collapse ("<" ++ name ++ ">" ++ text) = .ok tree ↔
      ∃ body tag rest events, text.toList = body ++ tag ∧
        EndFound name.toList 0 text.toList tag rest ∧ readEvents false rest = .ok events ∧
        tree = .element name [] (rawChildren body) :: Builder.build collapse events := by
  have hname := isPlainName_of_isRawTextElement hraw
  have hvoid := isVoidElement_of_isRawTextElement hraw
  have hcanonical : Attribute.Canonical [] := ⟨⟨by simp, by simp⟩, by simp⟩
  have htoken : nextToken '<' (name.toList ++ '>' :: text.toList) =
      .ok (.startTag name.toList [], text.toList) :=
    nextToken_startTag text.toList hname hcanonical
  have hattrs : attributes [] = [] := attributes_markup hcanonical
  have hread : readEvents false ('<' :: (name.toList ++ '>' :: text.toList)) = _ :=
    readEvents_cons htoken
  simp only [smallName_toList hname, hvoid, hraw, hattrs, Bool.false_eq_true, if_false,
    if_true] at hread
  have hmarkup : ("<" ++ name ++ ">" ++ text).toList =
      '<' :: (name.toList ++ '>' :: text.toList) := by
    simp
  rw [parse_eq_ok_iff, hmarkup, unmark_of_head?_ne (by simp), hread]
  constructor
  · rintro ⟨events, hevents, rfl⟩
    cases hfind : findEnd name.toList 0 text.toList with
    | error fault => simp [hfind] at hevents
    | ok found =>
        obtain ⟨tag, rest⟩ := found
        have hfound := findEnd_eq_ok_iff.mp hfind
        obtain ⟨body, hbody⟩ := hfound.spec.1
        cases hrest : readEvents false rest with
        | error fault => simp [hfind, hrest, Except.map] at hevents
        | ok inside =>
            refine ⟨body, tag, rest, inside, hbody.symm, hfound, hrest, ?_⟩
            rw [← hbody] at hfind hevents
            obtain rfl : .node (.element name [] (rawChildren body)) :: inside = events := by
              simpa [hfind, hrest, rawText, Except.map] using hevents
            exact Builder.build_node_cons _ _
  · rintro ⟨body, tag, rest, events, htext, hfound, hrest, rfl⟩
    refine ⟨.node (.element name [] (rawChildren body)) :: events, ?_, Builder.build_node_cons _ _⟩
    have hfind := findEnd_eq_ok_iff.mpr hfound
    rw [htext] at hfind ⊢
    simp [hfind, hrest, rawText, Except.map]

/-- The end tag of an element, and markup that comes after it. -/
def closing (name m : String) : List Char :=
  '<' :: '/' :: (name.toList ++ '>' :: m.toList)

theorem closing_head? (name m : String) : ∀ c ∈ (closing name m).head?, c = '<' := by
  rintro c ⟨⟩
  rfl

/-- A script or style element never ends inside a text without `</`.  It may end too late. -/
theorem parse_rawText_closing
    {collapse : Bool} {name s m : String} {tree : List Node}
    (hraw : isRawTextElement name = true) (hs : ¬['<', '/'] <:+: s.toList) :
    parse collapse ("<" ++ name ++ ">" ++ s ++ "</" ++ name ++ ">" ++ m) = .ok tree ↔
      ∃ more tag rest events, closing name m = more ++ tag ∧
        EndFound name.toList 0 (s.toList ++ closing name m) tag rest ∧
        readEvents false rest = .ok events ∧
        tree =
          .element name [] (rawChildren (s.toList ++ more)) :: Builder.build collapse events := by
  have hmarkup : "<" ++ name ++ ">" ++ s ++ "</" ++ name ++ ">" ++ m =
      "<" ++ name ++ ">" ++ (s ++ "</" ++ name ++ ">" ++ m) := by
    simp only [String.append_assoc]
  have htext : (s ++ "</" ++ name ++ ">" ++ m).toList = s.toList ++ closing name m := by
    simp [closing]
  rw [hmarkup, parse_rawText hraw, htext]
  constructor
  · rintro ⟨body, tag, rest, events, hbody, hfound, hrest, rfl⟩
    obtain ⟨more, rfl, hmore⟩ := exists_more_of_endFound (closing_head? name m) hs hfound hbody
    exact ⟨more, tag, rest, events, hmore, hfound, hrest, rfl⟩
  · rintro ⟨more, tag, rest, events, hmore, hfound, hrest, rfl⟩
    have htext : s.toList ++ closing name m = s.toList ++ more ++ tag := by
      rw [hmore, List.append_assoc]
    exact ⟨s.toList ++ more, tag, rest, events, htext, hfound, hrest, rfl⟩

/-- A script or style element has the text `s` without `</`, and what comes after it is read as it
is alone, exactly if `s` is made up of tokens that open no element of the name, and what comes
after the element does not begin with a byte order mark. -/
theorem parse_rawText_iff
    {collapse : Bool} {name s m : String} {nodes : List Node}
    (hraw : isRawTextElement name = true) (hs : ¬['<', '/'] <:+: s.toList)
    (hm : parse collapse m = .ok nodes) :
    parse collapse ("<" ++ name ++ ">" ++ s ++ "</" ++ name ++ ">" ++ m) =
        .ok (.element name [] (rawChildren s.toList) :: nodes) ↔
      SkippedOver name.toList s.toList ∧ m.toList.head? ≠ some '\uFEFF' := by
  have hclosing := closing_head? name m
  have htoken : nextToken '<' ('/' :: (name.toList ++ '>' :: m.toList)) =
      .ok (.endTag name.toList, m.toList) :=
    nextToken_endTag m.toList (isPlainName_of_isRawTextElement hraw)
  obtain ⟨events, hevents, rfl⟩ := parse_eq_ok_iff.mp hm
  rw [parse_rawText_closing hraw hs]
  constructor
  · rintro ⟨more, tag, rest, inside, hmore, hfound, hrest, htree⟩
    obtain ⟨hchildren, hnodes⟩ : rawChildren s.toList = rawChildren (s.toList ++ more) ∧
        Builder.build collapse events = Builder.build collapse inside := by simpa using htree
    have hhead : ∀ c ∈ more.head?, c = '<' := fun c hc =>
      hclosing c (by rw [hmore]; exact List.mem_head?_append_of_mem_head? hc)
    obtain rfl : more = [] := rawChildren_append hhead hchildren.symm
    obtain rfl : closing name m = tag := hmore
    refine ⟨(skippedOver_of_endFound hclosing hs hfound).2, fun hmark => ?_⟩
    obtain ⟨-, c, cs, hcs, hend⟩ := hfound.spec
    cases hcs
    rw [htoken] at hend
    cases hend
    obtain ⟨cs, hcs⟩ := List.head?_eq_some_iff.mp hmark
    rw [hcs] at hevents hrest
    exact build_kept_mark_ne hevents hrest hnodes.symm
  · rintro ⟨hskip, hmark⟩
    rw [unmark_of_head?_ne hmark] at hevents
    exact ⟨[], closing name m, m.toList, events, rfl,
      endFound_append hclosing hs hskip (.here htoken), hevents, by rw [List.append_nil]⟩

/-- A comparison that is closed by a `>` of its own. -/
theorem parse_rawText_iff_of_script :
    let s := "if (a<b) c>d;"
    let nodes : List Node := [.element "p" [] [.text "e"]]
    isRawTextElement "script" = true ∧ ¬['<', '/'] <:+: s.toList ∧
      parse true "<p>e</p>" = .ok nodes ∧
      parse true ("<" ++ "script" ++ ">" ++ s ++ "</" ++ "script" ++ ">" ++ "<p>e</p>") =
        .ok (.element "script" [] [.text s] :: nodes) := by
  intro s nodes
  have hs : ¬['<', '/'] <:+: s.toList := by decide
  have hm : parse true "<p>e</p>" = .ok nodes := by decide +kernel
  have hskip : SkippedOver "script".toList s.toList := by
    have hchars : s.toList = 'i' :: "f (a<b) c>d;".toList := by decide
    have htext : nextToken 'i' "f (a<b) c>d;".toList =
        .ok (.text "if (a".toList, '<' :: "b) c>d;".toList) := by decide +kernel
    have htag : nextToken '<' "b) c>d;".toList =
        .ok (.startTag "b)".toList " c".toList, 'd' :: ";".toList) := by decide +kernel
    have hend : nextToken 'd' ";".toList = .ok (.text "d;".toList, []) := by decide +kernel
    rw [hchars]
    exact ⟨_, .cons htext (.cons htag (.cons hend .nil)), by simp⟩
  have hchildren : rawChildren s.toList = [.text s] := by decide +kernel
  exact ⟨rfl, hs, hm, hchildren ▸ (parse_rawText_iff rfl hs hm).mpr ⟨hskip, by decide⟩⟩

/-- A comparison is taken for a start tag that the `>` of the end tag closes. -/
theorem not_parse_rawText_of_comparison :
    ¬∀ (name s m : String) (nodes : List Node), isRawTextElement name = true →
      ¬['<', '/'] <:+: s.toList → parse true m = .ok nodes →
        parse true ("<" ++ name ++ ">" ++ s ++ "</" ++ name ++ ">" ++ m) =
          .ok (.element name [] (rawChildren s.toList) :: nodes) := by
  intro h
  have hs : ¬['<', '/'] <:+: "if (a < b) {}".toList := by decide
  have hm : parse true "<p>c</p>" = .ok [.element "p" [] [.text "c"]] := by decide +kernel
  have hparse := h "script" "if (a < b) {}" "<p>c</p>" _ rfl hs hm
  obtain ⟨more, tag, rest, events, -, hfound, -⟩ := (parse_rawText_closing rfl hs).mp hparse
  have hunclosed : findEnd "script".toList 0
      ("if (a < b) {}".toList ++ closing "script" "<p>c</p>") = .error .unclosed := by
    decide +kernel
  rw [findEnd_eq_ok_iff.mpr hfound] at hunclosed
  cases hunclosed

end Stencil.Markup
