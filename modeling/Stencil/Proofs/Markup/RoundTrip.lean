import Stencil.Proofs.Markup.Attributes
import Stencil.Proofs.Markup.Builder

/-!
# Reading written markup back

A canonical tree is read back from its markup as it is (`parse_template`).  The markup of siblings
is read up to the markup that comes after them, and the events read spell the siblings; the only
thing asked of what comes after them is that it does not lengthen a text at their end.
-/

namespace Stencil

/-! ## White space around values -/

namespace Text

theorem isSpace_of_isTagSpace {c : Char} (hc : Markup.isTagSpace c = true) : isSpace c = true := by
  simp only [Markup.isTagSpace, Bool.or_eq_true, beq_iff_eq] at hc
  rcases hc with ((rfl | rfl) | rfl) | rfl <;> decide

theorem trimmed_toList {value : String} (htrim : trim value = value) :
    trimmed value.toList = value.toList := by
  have hchars := congrArg String.toList htrim
  rwa [trim, String.toList_ofList] at hchars

theorem collapsed_toList {value : String} (hcollapse : collapse value = value) :
    collapsed value.toList = value.toList := by
  have hchars := congrArg String.toList hcollapse
  rwa [collapse, String.toList_ofList] at hchars

theorem trimmed_length_le (cs : List Char) :
    (trimmed cs).length ≤ (cs.dropWhile isSpace).length := by
  rw [trimmed, trimmedEnd, List.length_reverse]
  exact (List.dropWhile_sublist _).length_le.trans_eq (List.length_reverse)

/-- A trimmed text does not begin with white space. -/
theorem isSpace_head_of_trimmed
    {c : Char} {cs : List Char} (htrim : trimmed (c :: cs) = c :: cs) : isSpace c = false := by
  by_contra hspace
  rw [Bool.not_eq_false] at hspace
  have hlength := trimmed_length_le (c :: cs)
  have hdrop := (List.dropWhile_sublist isSpace (l := cs)).length_le
  rw [htrim, List.dropWhile_cons, if_pos hspace, List.length_cons] at hlength
  omega

/-- One space on either side of a trimmed text is trimmed away again. -/
theorem trimmed_spaced
    {cs : List Char} (htrim : trimmed cs = cs) : trimmed (' ' :: (cs ++ [' '])) = cs := by
  cases cs with
  | nil => rfl
  | cons c cs =>
      have hc := isSpace_head_of_trimmed htrim
      have hblank : isSpace ' ' = true := rfl
      have hstart : trimmedStart (' ' :: (c :: cs ++ [' '])) = c :: cs ++ [' '] := by
        simp [trimmedStart, hblank, hc]
      have hend : trimmedEnd (c :: cs ++ [' ']) = trimmedEnd (c :: cs) := by
        simp [trimmedEnd, hblank]
      have hself : trimmedStart (c :: cs) = c :: cs := by
        simp [trimmedStart, hc]
      rw [trimmed, hself] at htrim
      rw [trimmed, hstart, hend, htrim]

end Text

namespace Markup

open Template

/-! ## Reading step by step -/

/-- Reading the markup `cs` gives the events and goes on with `rest`. -/
def Reads (cs : List Char) (events : List Event) (rest : List Char) : Prop :=
  readEvents false cs = (readEvents false rest).map (events ++ ·)

theorem Reads.refl (cs : List Char) : Reads cs [] cs := by
  rw [Reads]
  cases readEvents false cs <;> rfl

theorem Reads.trans
    {cs between rest : List Char} {before after : List Event}
    (h : Reads cs before between) (h' : Reads between after rest) :
    Reads cs (before ++ after) rest := by
  rw [Reads] at *
  rw [h, h']
  cases readEvents false rest with
  | error fault => rfl
  | ok events => simp [Except.map]

theorem readEvents_cons
    {marked : Bool} {c : Char} {cs later : List Char} {token : Token}
    (htoken : nextToken c cs = .ok (token, later)) :
    readEvents marked (c :: cs) =
      match token with
      | .startTag name attrs =>
        let small := smallName name
        if isVoidElement small then
          (readEvents marked later).map (.node (.element small (attributes attrs) []) :: ·)
        else if isRawTextElement small then
          match findEnd name 0 later with
          | .error fault => .error fault
          | .ok (tag, after) =>
            let text := rawText marked (name ++ attrs) (later.take (later.length - tag.length))
            (readEvents marked after).map
              (.node (.element small (attributes attrs) (rawChildren text)) :: ·)
        else (readEvents marked later).map (.opened small (attributes attrs) :: ·)
      | token => (readEvents marked later).map ((eventOf token).toList ++ ·) := by
  rw [readEvents]
  split
  · rename_i h
    rw [htoken] at h
    cases h
  · rename_i h
    rw [htoken] at h
    cases h
    dsimp only
    split
    · rfl
    · split
      · split
        · rename_i h
          rw [h]
        · rename_i h
          rw [h]
      · rfl
  · rename_i hstart h
    rw [htoken] at h
    cases h
    split
    · exact (hstart _ _ rfl).elim
    · rfl

section StartTag

variable {marked : Bool} {c : Char} {cs later name attrs : List Char}

theorem readEvents_void
    (htoken : nextToken c cs = .ok (.startTag name attrs, later))
    (hvoid : isVoidElement (smallName name) = true) :
    readEvents marked (c :: cs) =
      (readEvents marked later).map
        ([.node (.element (smallName name) (attributes attrs) [])] ++ ·) := by
  rw [readEvents_cons htoken]
  simp only [hvoid, if_true]
  rfl

theorem readEvents_opened
    (htoken : nextToken c cs = .ok (.startTag name attrs, later))
    (hvoid : isVoidElement (smallName name) = false)
    (hraw : isRawTextElement (smallName name) = false) :
    readEvents marked (c :: cs) =
      (readEvents marked later).map ([.opened (smallName name) (attributes attrs)] ++ ·) := by
  rw [readEvents_cons htoken]
  simp only [hvoid, hraw, Bool.false_eq_true, if_false]
  rfl

/-- A script or style element is complete with its end tag. -/
theorem readEvents_raw
    {tag after : List Char}
    (htoken : nextToken c cs = .ok (.startTag name attrs, later))
    (hvoid : isVoidElement (smallName name) = false)
    (hraw : isRawTextElement (smallName name) = true)
    (hfind : findEnd name 0 later = .ok (tag, after)) :
    readEvents marked (c :: cs) =
      (readEvents marked after).map ([.node (.element (smallName name) (attributes attrs)
        (rawChildren (rawText marked (name ++ attrs)
          (later.take (later.length - tag.length)))))] ++ ·) := by
  rw [readEvents_cons htoken]
  simp only [hvoid, hraw, hfind, Bool.false_eq_true, if_false, if_true]
  rfl

end StartTag

/-! ## Constructs -/

/-- Canonical attributes and a plain name come back from a start tag. -/
theorem reads_void
    {name : String} {attrs : List Attribute} (rest : List Char)
    (hvoid : isVoidElement name = true)
    (hname : IsPlainName name) (hattrs : Attribute.Canonical attrs) :
    Reads ('<' :: (name.toList ++ (Attribute.markup attrs ++ '>' :: rest)))
      [.node (.element name attrs [])] rest := by
  rw [← smallName_toList hname] at hvoid
  rw [Reads, readEvents_void (nextToken_startTag rest hname hattrs) hvoid, smallName_toList hname,
    attributes_markup hattrs]

theorem reads_opened
    {name : String} {attrs : List Attribute} (rest : List Char)
    (hvoid : isVoidElement name = false) (hraw : isRawTextElement name = false)
    (hname : IsPlainName name) (hattrs : Attribute.Canonical attrs) :
    Reads ('<' :: (name.toList ++ (Attribute.markup attrs ++ '>' :: rest)))
      [.opened name attrs] rest := by
  rw [← smallName_toList hname] at hvoid hraw
  rw [Reads, readEvents_opened (nextToken_startTag rest hname hattrs) hvoid hraw,
    smallName_toList hname, attributes_markup hattrs]

theorem reads_closed
    {name : String} (rest : List Char) (hname : IsPlainName name) :
    Reads ('<' :: '/' :: (name.toList ++ '>' :: rest)) [.closed name] rest := by
  rw [Reads, readEvents_cons (nextToken_endTag rest hname)]
  simp only [eventOf, smallName_toList hname, Option.toList]

theorem reads_doctype
    {value : String} (rest : List Char) (hne : value ≠ "") (htrim : Text.trim value = value)
    (hplain : ∀ c ∈ value.toList, c.isAlphanum = true ∨ c = ' ') :
    Reads ('<' :: '!' :: 'D' :: 'O' :: 'C' :: 'T' :: 'Y' :: 'P' :: 'E' :: ' ' ::
      (value.toList ++ '>' :: rest)) [.node (.doctype value)] rest := by
  have htrimmed := Text.trimmed_toList htrim
  have hinside : ∀ c ∈ value.toList, c ≠ '<' ∧ c ≠ '>' := by
    intro c hc
    constructor <;> (rintro rfl; exact absurd (hplain _ hc) (by decide))
  have hhead : ∃ c, value.toList.head? = some c ∧ isTagSpace c = false := by
    cases hchars : value.toList with
    | nil => exact absurd (String.toList_eq_nil_iff.mp hchars) hne
    | cons c cs =>
        rw [hchars] at htrimmed
        have hspace := Text.isSpace_head_of_trimmed htrimmed
        refine ⟨c, rfl, Bool.not_eq_true _ ▸ fun hc => ?_⟩
        rw [Text.isSpace_of_isTagSpace hc] at hspace
        cases hspace
  rw [Reads, readEvents_cons (nextToken_doctype rest hinside hhead)]
  simp only [eventOf, htrimmed, String.ofList_toList, Option.toList]

theorem reads_comment
    {value : String} (rest : List Char) (htrim : Text.trim value = value)
    (hplain : ¬['-', '-'] <:+: value.toList) :
    Reads ('<' :: '!' :: '-' :: '-' :: ' ' ::
      (value.toList ++ ' ' :: '-' :: '-' :: '>' :: rest)) [.node (.comment value)] rest := by
  rw [Reads, readEvents_cons (nextToken_comment rest hplain)]
  simp only [eventOf, Text.trimmed_spaced (Text.trimmed_toList htrim), String.ofList_toList,
    Option.toList]

/-! ## Text -/

/-- The text up to the next construct or reference is one event. -/
theorem reads_run (cs : List Char) :
    ∃ parts : List (List Char), parts.flatten = cs.takeWhile isTextChar ∧
      Reads cs (parts.map .text) (cs.dropWhile isTextChar) := by
  cases cs with
  | nil => exact ⟨[], rfl, Reads.refl _⟩
  | cons c cs =>
      by_cases hc : isTextChar c = true
      · refine ⟨[c :: cs.takeWhile isTextChar], by simp [hc], ?_⟩
        rw [List.dropWhile_cons, if_pos hc, Reads, readEvents_cons (nextToken_text cs hc)]
        rfl
      · exact ⟨[], by simp [hc], by simpa [hc] using Reads.refl _⟩

/-- A written reference is read as the character that it stands for. -/
theorem reads_reference
    {name : List Char} {c : Char} (rest : List Char)
    (hname : ∀ d ∈ name, isReferenceChar d = true) (hreferenced : referenced? name = some c) :
    Reads ('&' :: (name ++ ';' :: rest)) [.text [c]] rest := by
  have hdecode : unescape ('&' :: name ++ [';']) = [c] := by
    rw [unescape, List.cons_append, decodeReferences?,
      decodeReferences?_name [] [] hname hreferenced]
    rfl
  rw [Reads, readEvents_cons (nextToken_reference rest hname)]
  simp only [eventOf, hdecode, Option.toList]

/-- A written text comes back in parts.  What is read up to the first reference is the part that
a character before the text would be read together with. -/
theorem exists_parts_of_text
    (cs : List Char) {rest : List Char} (hrest : ∀ c ∈ rest.head?, c = '<') :
    ∃ parts : List (List Char),
      (cs.flatMap escapedTextChar ++ rest).takeWhile isTextChar ++ parts.flatten = cs ∧
        Reads ((cs.flatMap escapedTextChar ++ rest).dropWhile isTextChar)
          (parts.map .text) rest := by
  induction cs with
  | nil =>
      have hstop : ∀ c ∈ rest.head?, isTextChar c = false := by
        intro c hc
        rw [hrest c hc]
        rfl
      refine ⟨[], ?_, ?_⟩
      · have htake : ([] ++ rest).takeWhile isTextChar = [] :=
          takeWhile_append_of_stop (by simp) hstop
        exact congrArg (· ++ []) htake
      · rw [List.flatMap_nil, dropWhile_append_of_stop (by simp) hstop]
        exact Reads.refl rest
  | cons c cs ih =>
      obtain ⟨parts, hparts, hreads⟩ := ih
      rw [List.flatMap_cons, List.append_assoc]
      rcases escapedTextChar_cases c with ⟨hlt, hamp, heq⟩ | ⟨name, heq, hname, hreferenced⟩
      · have hc : isTextChar c = true := by simp [isTextChar, hlt, hamp]
        refine ⟨parts, ?_, ?_⟩
        · simpa [heq, hc] using hparts
        · simpa [heq, hc] using hreads
      · obtain ⟨run, hrun, hreadsRun⟩ := reads_run (cs.flatMap escapedTextChar ++ rest)
        have hamp : isTextChar '&' = false := rfl
        refine ⟨[c] :: (run ++ parts), ?_, ?_⟩
        · simp [heq, hamp, hrun, hparts]
        · have hreference := reads_reference (cs.flatMap escapedTextChar ++ rest) hname hreferenced
          simpa [heq, hamp] using hreference.trans (hreadsRun.trans hreads)

/-- A written text is read whole if a construct or nothing comes after it. -/
theorem reads_text
    (cs : List Char) {rest : List Char} (hrest : ∀ c ∈ rest.head?, c = '<') :
    ∃ parts : List (List Char), parts.flatten = cs ∧
      Reads (cs.flatMap escapedTextChar ++ rest) (parts.map .text) rest := by
  obtain ⟨parts, hparts, hreads⟩ := exists_parts_of_text cs hrest
  obtain ⟨run, hrun, hreadsRun⟩ := reads_run (cs.flatMap escapedTextChar ++ rest)
  refine ⟨run ++ parts, by rw [List.flatten_append, hrun, hparts], ?_⟩
  rw [List.map_append]
  exact hreadsRun.trans hreads

/-! ## Script and style elements -/

theorem findEnd_cons
    {name : List Char} {depth : Nat} {c : Char} {cs later : List Char} {token : Token}
    (htoken : nextToken c cs = .ok (token, later)) :
    findEnd name depth (c :: cs) =
      match token with
      | .startTag inner _ => findEnd name (if inner = name then depth + 1 else depth) later
      | .endTag inner =>
        if inner = name then
          if depth = 0 then .ok (c :: cs, later) else findEnd name (depth - 1) later
        else findEnd name depth later
      | _ => findEnd name depth later := by
  rw [findEnd]
  split
  · rename_i h
    rw [htoken] at h
    cases h
  · rename_i h
    rw [htoken] at h
    cases h
    rfl
  · rename_i h
    rw [htoken] at h
    cases h
    rfl
  · rename_i hstart hend h
    rw [htoken] at h
    cases h
    split
    · exact (hstart _ _ rfl).elim
    · exact (hend _ rfl).elim
    · rfl

/-- The end tag of a script or style element is found after a body without markup. -/
theorem findEnd_body
    {name : String} {body : List Char} (rest : List Char) (hname : IsPlainName name)
    (hbody : ∀ c ∈ body, isTextChar c = true) :
    findEnd name.toList 0 (body ++ '<' :: '/' :: (name.toList ++ '>' :: rest)) =
      .ok ('<' :: '/' :: (name.toList ++ '>' :: rest), rest) := by
  have hend : findEnd name.toList 0 ('<' :: '/' :: (name.toList ++ '>' :: rest)) =
      .ok ('<' :: '/' :: (name.toList ++ '>' :: rest), rest) := by
    simp [findEnd_cons (nextToken_endTag rest hname)]
  cases body with
  | nil => exact hend
  | cons c body =>
      obtain ⟨hc, hbody⟩ := List.forall_mem_cons.mp hbody
      have hstop : ∀ d ∈ ('<' :: '/' :: (name.toList ++ '>' :: rest)).head?,
          isTextChar d = false := by
        rintro d ⟨⟩
        rfl
      have htoken := nextToken_text (body ++ '<' :: '/' :: (name.toList ++ '>' :: rest)) hc
      rw [dropWhile_append_of_stop hbody hstop] at htoken
      rw [List.cons_append, findEnd_cons htoken, hend]

/-- The children of a script or style element are those that their own text stands for. -/
theorem rawChildren_of_isRawBody
    {children : List Node} (hbody : Node.IsRawBody children) :
    ∃ body, chars (Node.piecesList .page true children) = body ∧
      (∀ c ∈ body, isTextChar c = true) ∧ rawChildren body = children := by
  rcases hbody with rfl | ⟨value, rfl, hblank, hlt, hamp⟩
  · exact ⟨[], rfl, by simp, rfl⟩
  · refine ⟨value.toList, by simp [Node.piecesList, Node.pieces], ?_, ?_⟩
    · intro c hc
      have hne : c ≠ '<' ∧ c ≠ '&' := ⟨fun h => hlt (h ▸ hc), fun h => hamp (h ▸ hc)⟩
      simpa [isTextChar] using hne
    · rw [rawChildren, hblank, String.ofList_toList]
      rfl

theorem reads_raw
    {name : String} {attrs : List Attribute} {children : List Node} (rest : List Char)
    (hraw : isRawTextElement name = true)
    (hname : IsPlainName name) (hattrs : Attribute.Canonical attrs)
    (hbody : Node.IsRawBody children) :
    Reads ('<' :: (name.toList ++ (Attribute.markup attrs ++ '>' ::
        (chars (Node.piecesList .page true children) ++
          '<' :: '/' :: (name.toList ++ '>' :: rest)))))
      [.node (.element name attrs children)] rest := by
  obtain ⟨body, hchars, hplain, hchildren⟩ := rawChildren_of_isRawBody hbody
  have hvoid := isVoidElement_of_isRawTextElement hraw
  rw [← smallName_toList hname] at hraw hvoid
  rw [hchars, Reads, readEvents_raw (nextToken_startTag _ hname hattrs) hvoid hraw
    (findEnd_body rest hname hplain), smallName_toList hname, attributes_markup hattrs]
  simp only [List.length_append, Nat.add_sub_cancel, List.take_left, rawText, hchildren,
    Bool.false_eq_true, if_false]

/-! ## Trees -/

/-- The events of the markup of canonical siblings spell the siblings. -/
theorem exists_reads_markup
    {nodes : List Node} (h : Node.Canonical nodes)
    {rest : List Char} (hrest : ∀ c ∈ rest.head?, c = '<') :
    ∃ events, Spells true nodes events ∧ Reads (Node.markup nodes ++ rest) events rest := by
  induction h generalizing rest with
  | nil => exact ⟨[], .nil, Reads.refl rest⟩
  | @doctype value nodes hne htrim hplain _ ih =>
      obtain ⟨events, hspells, hreads⟩ := ih hrest
      refine ⟨_, .node (.doctype value) hspells, ?_⟩
      have hfirst := reads_doctype (Node.markup nodes ++ rest) hne htrim hplain
      simpa [Node.markup_doctype] using hfirst.trans hreads
  | @comment value nodes htrim hplain _ ih =>
      obtain ⟨events, hspells, hreads⟩ := ih hrest
      refine ⟨_, .node (.comment value) hspells, ?_⟩
      have hfirst := reads_comment (Node.markup nodes ++ rest) htrim hplain
      simpa [Node.markup_comment] using hfirst.trans hreads
  | @text value nodes hne hcollapse _ halone hnodes ih =>
      obtain ⟨events, hspells, hreads⟩ := ih hrest
      -- what comes after the text begins with a `<`, so the text ends there
      have hnext : ∀ c ∈ (Node.markup nodes ++ rest).head?, c = '<' := by
        rcases eq_or_ne nodes [] with rfl | hsome
        · exact hrest
        · obtain ⟨cs, hmarkup⟩ := hnodes.exists_cons_markup halone hsome
          rw [hmarkup]
          rintro c ⟨⟩
          rfl
      obtain ⟨parts, hparts, hfirst⟩ := reads_text value.toList hnext
      refine ⟨_, .text hne hparts (Text.collapsed_toList hcollapse) halone hspells, ?_⟩
      rw [Node.markup_text, List.append_assoc]
      exact hfirst.trans hreads
  | @void name attrs nodes hvoid hname hattrs _ ih =>
      obtain ⟨events, hspells, hreads⟩ := ih hrest
      refine ⟨_, .node (.element name attrs []) hspells, ?_⟩
      have hfirst := reads_void (Node.markup nodes ++ rest) hvoid hname hattrs
      simpa [Node.markup_void attrs [] nodes hvoid] using hfirst.trans hreads
  | @raw name attrs children nodes hraw hname hattrs hbody _ ih =>
      obtain ⟨events, hspells, hreads⟩ := ih hrest
      refine ⟨_, .node (.element name attrs children) hspells, ?_⟩
      have hfirst := reads_raw (Node.markup nodes ++ rest) hraw hname hattrs hbody
      have hvoid := isVoidElement_of_isRawTextElement hraw
      simpa [Node.markup_raw attrs children nodes hvoid hraw] using hfirst.trans hreads
  | @element name attrs children nodes hvoid hraw hname hattrs _ _ ihChildren ih =>
      obtain ⟨events, hspells, hreads⟩ := ih hrest
      let after := '<' :: '/' :: (name.toList ++ '>' :: (Node.markup nodes ++ rest))
      have hafter : ∀ c ∈ after.head?, c = '<' := by
        rintro c ⟨⟩
        rfl
      obtain ⟨inside, hinside, hreadsInside⟩ := ihChildren hafter
      refine ⟨_, .element name attrs hinside hspells, ?_⟩
      have hopened := reads_opened (Node.markup children ++ after) hvoid hraw hname hattrs
      have hclosed := reads_closed (Node.markup nodes ++ rest) hname
      simpa [Node.markup_element attrs children nodes hvoid hraw, after] using
        hopened.trans (hreadsInside.trans (hclosed.trans hreads))

/-- The markup of a canonical tree does not begin with a byte order mark. -/
theorem unmark_markup {tree : List Node} (h : Node.Canonical tree) :
    unmark (Node.markup tree) = (false, Node.markup tree) := by
  apply unmark.eq_2
  intro rest hmarked
  by_cases htext : ∃ value nodes, tree = .text value :: nodes
  · obtain ⟨value, nodes, rfl⟩ := htext
    cases h with
    | text hne _ hmark =>
        rw [Node.markup_text] at hmarked
        cases hchars : value.toList with
        | nil => exact absurd (String.toList_eq_nil_iff.mp hchars) hne
        | cons c cs =>
            rw [hchars, List.flatMap_cons] at hmarked
            rcases escapedTextChar_cases c with ⟨-, -, heq⟩ | ⟨name, heq, -⟩
            · rw [heq] at hmarked
              rw [hchars, (List.cons.inj hmarked).1] at hmark
              exact hmark List.mem_cons_self
            · rw [heq] at hmarked
              exact absurd (List.cons.inj hmarked).1 (by decide)
  · rcases eq_or_ne tree [] with rfl | hsome
    · cases hmarked
    · have halone : ∀ value nodes, tree ≠ .text value :: nodes :=
        fun value nodes heq => htext ⟨value, nodes, heq⟩
      obtain ⟨cs, hmarkup⟩ := h.exists_cons_markup halone hsome
      rw [hmarkup] at hmarked
      exact absurd (List.cons.inj hmarked).1 (by decide)

/-- A canonical tree is read back from its markup as it is. -/
theorem parse_template {tree : List Node} (h : Node.Canonical tree) :
    parse true (Node.template tree) = .ok tree := by
  have hend : ∀ c ∈ ([] : List Char).head?, c = '<' := by simp
  obtain ⟨events, hspells, hreads⟩ := exists_reads_markup h hend
  rw [List.append_nil, Reads, readEvents] at hreads
  rw [parse, Node.toList_template, unmark_markup h]
  simp only [hreads, Except.map, List.append_nil, build_of_spells hspells]

/-- A page with a doctype, a void element, a script, a comment, an empty attribute value, and
characters to escape in a value and in a text. -/
theorem parse_template_of_article :
    let tree : List Node := [
      .doctype "html",
      .element "html" [.static "lang" "en"] [
        .element "meta" [.static "charset" "utf-8"] [],
        .element "script" [.static "async" ""] [.text " let a = 1; "],
        .comment "menu - main",
        .element "h1" [.static "data-x" "a<b & \"c\" 'd'"] [.text "Fish & <chips>"],
        .element "p" [] [.text "1 > 0", .element "br" [] [], .text "end"]]]
    Node.Canonical tree ∧ parse true (Node.template tree) = .ok tree := by
  intro tree
  have hnotes : Node.Canonical
      [.element "p" [] [.text "1 > 0", .element "br" [] [], .text "end"]] := by
    refine .element (by decide) (by decide) (by decide) (by decide) ?_ .nil
    refine .text (by decide) (by decide) (by decide) (by simp) ?_
    refine .void (by decide) (by decide) (by decide) ?_
    exact .text (by decide) (by decide) (by decide) (by simp) .nil
  have htree : Node.Canonical tree := by
    refine .doctype (by decide) (by decide) (by simp) ?_
    refine .element (by decide) (by decide) (by decide) (by decide) ?_ .nil
    refine .void (by decide) (by decide) (by decide) ?_
    refine .raw (by decide) (by decide) (by decide) ?_ ?_
    · exact .inr ⟨_, rfl, by decide, by decide, by decide⟩
    refine .comment (by decide) (by decide) ?_
    refine .element (by decide) (by decide) (by decide) (by decide) ?_ hnotes
    exact .text (by decide) (by decide) (by decide) (by simp) .nil
  exact ⟨htree, parse_template htree⟩

end Markup

end Stencil
