import Stencil.Proofs.Collection.WellFormed
import Stencil.Proofs.Page.Values

/-!
# Where the values of pages come from

Every value that a page stores was found in a document with the pathname of the page, in the place
of a variable, an attribute or a conditional as its reference tells (`Page.Sourced`).  Every step of
an inference keeps this: comparing and merging read values from the source of the page, and what is
copied from one page to another stays under one pathname.

So the final pages store values of the right kind, under references of the layout
(`data_of_infer`), and if no two documents have the same pathname, every text that a page stores is
from its own document (`texts_of_infer`).
-/

namespace Stencil

/-- The page is that of one of the documents, and every value that it stores is supplied by one with
the same pathname. -/
structure Page.Sourced (documents : List Document) (page : Page) : Prop where
  document : page.document ∈ documents
  data : ∀ entry ∈ page.data, ∃ document ∈ documents, document.pathname = page.pathname ∧
    Node.Supplies document.tree entry.1 entry.2

/-- What is known so far has slots of inferred layouts and sourced pages. -/
structure Inference.Sourced (documents : List Document) (inference : Inference) : Prop where
  slots : Node.Everywhere Node.IsSlot inference.base.tree
  pages : ∀ page ∈ inference.pages, page.Sourced documents

section Sourced

variable {documents : List Document}

/-! ## Steps of a page -/

namespace Page

variable {page : Page} {layout : Layout}

/-- A page stays sourced if its new values are found in its source or were there before. -/
theorem Sourced.of_data {data : Record}
    (h : page.Sourced documents)
    (hconcrete : ∀ document ∈ documents, Node.Concrete document.tree)
    (hslots : Node.Everywhere Node.IsSlot layout.tree)
    (hdata : ∀ entry ∈ data,
      entry ∈ Finding.entries (page.findings layout) ∨ entry ∈ page.data) :
    Sourced documents { page with data } where
  document := h.document
  data := by
    intro entry hentry
    rcases hdata entry hentry with hfound | hstored
    · have hsource : Node.Concrete page.source := hconcrete page.document h.document
      exact ⟨page.document, h.document, rfl, supplies_of_mem_findings hslots hsource hfound⟩
    · exact h.data entry hstored

theorem Sourced.merge
    (h : page.Sourced documents)
    (hconcrete : ∀ document ∈ documents, Node.Concrete document.tree)
    (hslots : Node.Everywhere Node.IsSlot layout.tree) :
    (page.merge layout).Sourced documents :=
  h.of_data hconcrete hslots fun _ hentry => mem_data_merge hentry

theorem Sourced.project
    (h : page.Sourced documents)
    (hconcrete : ∀ document ∈ documents, Node.Concrete document.tree)
    (hslots : Node.Everywhere Node.IsSlot layout.tree) :
    (page.project layout).Sourced documents :=
  h.of_data hconcrete hslots fun _ hentry => (mem_data_project hentry).2

/-- Values are only copied between pages with one pathname. -/
theorem Sourced.addTo {pages : List Page}
    (h : page.Sourced documents) (hpages : ∀ known ∈ pages, known.Sourced documents) :
    ∀ known ∈ page.addTo pages, known.Sourced documents := by
  induction pages with
  | nil => exact List.forall_mem_singleton.mpr h
  | cons first pages ih =>
      obtain ⟨hfirst, hrest⟩ := List.forall_mem_cons.mp hpages
      by_cases hsame : first.pathname = page.pathname
      · have hfilled : Sourced documents { first with data := first.data.fill page.data } := by
          refine ⟨hfirst.document, ?_⟩
          intro entry hentry
          rcases Record.mem_or_mem_of_mem_fill hentry with hcopied | hstored
          · obtain ⟨document, hdocument, hpathname, hsupplies⟩ := h.data entry hcopied
            exact ⟨document, hdocument, hpathname.trans hsame.symm, hsupplies⟩
          · exact hfirst.data entry hstored
        rw [Page.addTo, if_pos hsame]
        exact List.forall_mem_cons.mpr ⟨hfilled, hrest⟩
      · rw [Page.addTo, if_neg hsame]
        exact List.forall_mem_cons.mpr ⟨hfirst, ih hrest⟩

end Page

/-- A comparison records what the sources of its pages supply. -/
theorem sourced_difference
    {anchor other : Document}
    (hconcrete : ∀ document ∈ documents, Node.Concrete document.tree)
    (hanchor : anchor ∈ documents) (hother : other ∈ documents) (side : Side) :
    ((anchor.difference other).page side).Sourced documents := by
  let compared := anchor.difference other
  have hdocument : (compared.page side).document ∈ documents := by
    cases side with
    | first => exact hanchor
    | second => exact hother
  refine ⟨hdocument, ?_⟩
  intro entry hentry
  have hlayout := difference_wellFormed (hconcrete anchor hanchor) (hconcrete other hother)
  have hfound : entry ∈ Finding.entries ((compared.page side).findings compared.layout) := by
    rw [findings_difference (hconcrete anchor hanchor) (hconcrete other hother)]
    rw [data_difference] at hentry
    exact Record.mem_of_mem_ofEntries hentry
  exact ⟨_, hdocument, rfl,
    Page.supplies_of_mem_findings hlayout.slots (hconcrete _ hdocument) hfound⟩

/-! ## Steps of an inference -/

namespace Inference

section Steps

variable {anchor other : Document}
  (hconcrete : ∀ document ∈ documents, Node.Concrete document.tree)
  (hanchor : anchor ∈ documents) (hother : other ∈ documents)

include hconcrete hanchor hother

theorem sourced_start : (start (anchor.difference other)).Sourced documents where
  slots := (Comparison.converges_compareTrees (hconcrete anchor hanchor)
    (hconcrete other hother)).everywhere_isSlot
  pages := by
    intro page hpage
    rcases List.mem_pair.mp hpage with rfl | rfl
    · exact sourced_difference hconcrete hanchor hother .first
    · exact sourced_difference hconcrete hanchor hother .second

theorem Sourced.add {inference : Inference} (h : inference.Sourced documents) :
    (inference.add (anchor.difference other)).Sourced documents := by
  have hnext := (sourced_start hconcrete hanchor hother).slots
  have hmerge : ∀ side, (((anchor.difference other).page side).merge inference.base).Sourced
      documents := fun side =>
    (sourced_difference hconcrete hanchor hother side).merge hconcrete h.slots
  constructor
  · exact (Node.merges_align _ _).everywhere Node.mergeClosed_isSlot h.slots hnext
  · have hknown : ∀ page ∈ inference.pages.map (·.merge (anchor.difference other).base),
        page.Sourced documents := by
      intro page hpage
      obtain ⟨known, hknown, rfl⟩ := List.mem_map.mp hpage
      exact (h.pages known hknown).merge hconcrete hnext
    exact (hmerge .second).addTo ((hmerge .first).addTo hknown)

end Steps

/-- Pages store only what documents with their pathnames supply, however many have been seen. -/
theorem sourced_after
    {anchor second : Document} {seen : List Document}
    (hconcrete : ∀ document ∈ documents, Node.Concrete document.tree)
    (hanchor : anchor ∈ documents) (hsecond : second ∈ documents)
    (hseen : ∀ document ∈ seen, document ∈ documents) :
    (after anchor second seen).Sourced documents := by
  induction seen using List.reverseRecOn with
  | nil => exact sourced_start hconcrete hanchor hsecond
  | append_singleton seen document ih =>
      obtain ⟨hknown, hdocument⟩ := List.forall_mem_append.mp hseen
      rw [after_concat]
      exact (ih hknown).add hconcrete hanchor (hdocument document List.mem_cons_self)

theorem sourced_finish_after
    {anchor second : Document} {seen : List Document}
    (hconcrete : ∀ document ∈ anchor :: second :: seen, Node.Concrete document.tree) :
    ∀ page ∈ (after anchor second seen).finish.pages, page.Sourced (anchor :: second :: seen) := by
  have hlayout := wellFormed_of_concrete hconcrete
  have hsourced : (after anchor second seen).Sourced (anchor :: second :: seen) :=
    sourced_after hconcrete (by simp) (by simp) (by simp +contextual)
  intro page hpage
  obtain ⟨known, hknown, rfl⟩ := exists_of_mem_pages hpage
  exact (hsourced.pages known hknown).project hconcrete hlayout.slots

end Inference

end Sourced

/-! ## The final pages -/

/-- The pages of two or more documents store values under references of the layout only: a text
under the reference of a variable or of a variable attribute, and a flag under that of a
conditional. -/
theorem data_of_infer
    {documents : List Document} (name : String)
    (hmany : 2 ≤ documents.length)
    (hconcrete : ∀ document ∈ documents, Node.Concrete document.tree) :
    ∃ collection, Collection.infer name documents = .ok collection ∧
      ∀ page ∈ collection.pages, ∀ reference value, (reference, value) ∈ page.data →
        reference ∈ collection.layout.references ∧
          (.var reference ∈ Node.preorderList collection.layout.tree →
            ∃ text, value = .text text) ∧
          (∀ attr, ⟨attr, .var reference⟩ ∈ Node.attributes collection.layout.tree →
            ∃ text, value = .text text) ∧
          ∀ child, .conditional reference child ∈ Node.preorderList collection.layout.tree →
            ∃ shows, value = .flag shows := by
  obtain _ | ⟨anchor, _ | ⟨second, rest⟩⟩ := documents
  · simp at hmany
  · simp at hmany
  · refine ⟨_, Collection.infer_eq_after name anchor second rest, ?_⟩
    intro page hpage reference value hentry
    have hslots := (Inference.wellFormed_of_concrete hconcrete).slots
    obtain ⟨document, -, -, hsupplies⟩ :=
      (Inference.sourced_finish_after hconcrete page hpage).data _ hentry
    obtain ⟨known, -, rfl⟩ := Inference.exists_of_mem_pages hpage
    refine ⟨(Page.mem_data_project hentry).1, ?_, ?_, ?_⟩
    · intro hvar
      cases hsupplies.of_names (hslots _ hvar) with
      | text => exact ⟨_, rfl⟩
    · intro attr hattr
      obtain ⟨node, hnode, hmem⟩ := List.mem_flatMap.mp hattr
      cases node with
      | element =>
          cases hsupplies.of_names ((hslots _ hnode).2 _ hmem) with
          | «attribute» => exact ⟨_, rfl⟩
      | _ => exact absurd hmem List.not_mem_nil
    · intro child hchild
      cases hsupplies.of_names (hslots _ hchild).1 with
      | presence shows => exact ⟨shows, rfl⟩

/-- Two documents have one pathname, and a page keeps a value that it found before the layout had
another slot for its paragraph. -/
theorem data_of_infer_of_one_pathname :
    let paragraph (style text : String) : Node := .element "p" [.static "class" style] [.text text]
    let anchor : Document := { pathname := "a.html", tree := [paragraph "x" "1"] }
    let second : Document :=
      { pathname := "b.html", tree := [.element "hr" [] [], paragraph "y" "2"] }
    let third : Document :=
      { pathname := "b.html", tree := [paragraph "x" "3", paragraph "z" "4"] }
    let documents := [anchor, second, third]
    let inferred := (Inference.after anchor second [third]).finish
    (2 ≤ documents.length ∧ ∀ document ∈ documents, Node.Concrete document.tree) ∧
      (∃ page ∈ inferred.pages, "var1" ∈ page.data.references ∧
        "var1" ∉ Finding.references (page.findings inferred.layout)) ∧
      ∃ collection, Collection.infer "pages" documents = .ok collection ∧
        ∀ page ∈ collection.pages, ∀ reference value, (reference, value) ∈ page.data →
          reference ∈ collection.layout.references ∧
            (.var reference ∈ Node.preorderList collection.layout.tree →
              ∃ text, value = .text text) ∧
            (∀ attr, ⟨attr, .var reference⟩ ∈ Node.attributes collection.layout.tree →
              ∃ text, value = .text text) ∧
            ∀ child, .conditional reference child ∈ Node.preorderList collection.layout.tree →
              ∃ shows, value = .flag shows := by
  intro paragraph anchor second third documents inferred
  have hmany : 2 ≤ documents.length := by decide
  have hconcrete : ∀ document ∈ documents, Node.Concrete document.tree := by decide
  exact ⟨⟨hmany, hconcrete⟩, by decide +kernel, data_of_infer "pages" hmany hconcrete⟩

/-- If no two documents have the same pathname, the pages are those of the documents, and every
value that a page stores is a flag, or a text or the value of an attribute of its own document. -/
theorem texts_of_infer
    {documents : List Document} (name : String)
    (hmany : 2 ≤ documents.length)
    (hpathnames : (documents.map Document.pathname).Nodup)
    (hconcrete : ∀ document ∈ documents, Node.Concrete document.tree) :
    ∃ collection, Collection.infer name documents = .ok collection ∧
      collection.pages.map Page.document = documents ∧
      ∀ page ∈ collection.pages, ∀ reference value, (reference, value) ∈ page.data →
        (∃ shows, value = .flag shows) ∨
          ∃ text, value = .text text ∧
            (.text text ∈ Node.preorderList page.source ∨
              ∃ attr, .static attr text ∈ Node.attributes page.source) := by
  obtain _ | ⟨anchor, _ | ⟨second, rest⟩⟩ := documents
  · simp at hmany
  · simp at hmany
  · refine ⟨_, Collection.infer_eq_after name anchor second rest,
      Inference.documents_finish_after hpathnames, ?_⟩
    intro page hpage reference value hentry
    have hsourced := Inference.sourced_finish_after hconcrete page hpage
    obtain ⟨document, hdocument, hpathname, role, -, hsupplies⟩ := hsourced.data _ hentry
    -- Its own document is the only one with the pathname of the page.
    obtain rfl : document = page.document :=
      List.inj_on_of_nodup_map hpathnames hdocument hsourced.document hpathname
    cases hsupplies with
    | presence shows => exact Or.inl ⟨shows, rfl⟩
    | text htext => exact Or.inr ⟨_, rfl, Or.inl htext⟩
    | «attribute» hattr => exact Or.inr ⟨_, rfl, Or.inr ⟨_, hattr⟩⟩

/-- The second page has a paragraph that lies in a new slot of the final layout. -/
theorem texts_of_infer_of_three_pages :
    let paragraph (style text : String) : Node := .element "p" [.static "class" style] [.text text]
    let documents : List Document :=
      [{ pathname := "a.html", tree := [paragraph "x" "1"] },
        { pathname := "b.html", tree := [.element "hr" [] [], paragraph "y" "2"] },
        { pathname := "c.html", tree := [paragraph "x" "3", paragraph "z" "4"] }]
    (2 ≤ documents.length ∧ (documents.map Document.pathname).Nodup ∧
        ∀ document ∈ documents, Node.Concrete document.tree) ∧
      ∃ collection, Collection.infer "pages" documents = .ok collection ∧
        collection.pages.map Page.document = documents ∧
        ∀ page ∈ collection.pages, ∀ reference value, (reference, value) ∈ page.data →
          (∃ shows, value = .flag shows) ∨
            ∃ text, value = .text text ∧
              (.text text ∈ Node.preorderList page.source ∨
                ∃ attr, .static attr text ∈ Node.attributes page.source) := by
  intro paragraph documents
  have hmany : 2 ≤ documents.length := by decide
  have hpathnames : (documents.map Document.pathname).Nodup := by decide
  have hconcrete : ∀ document ∈ documents, Node.Concrete document.tree := by decide
  exact ⟨⟨hmany, hpathnames, hconcrete⟩, texts_of_infer "pages" hmany hpathnames hconcrete⟩

end Stencil
