import Mathlib.Data.List.Induction
import Stencil.Collection

/-!
# The documents behind the pages

An inference only ever changes the values of its pages, never what was read from their documents.
The page of a document that is known already is merged into the known one, and the page of a new
document comes last; so the pages are those of the documents, in order (`documents_add`), after
every step and in the end (`Collection.pages_of_infer`).
-/

namespace Stencil

namespace Page

/-- The document that the page was read from. -/
def document (page : Page) : Document :=
  { pathname := page.pathname, tree := page.source, content := page.content }

theorem map_pathname_eq (pages : List Page) :
    pages.map pathname = (pages.map document).map Document.pathname := by
  rw [List.map_map]
  rfl

theorem documents_map_merge (pages : List Page) (base : Layout) :
    (pages.map (·.merge base)).map document = pages.map document := by
  rw [List.map_map]
  rfl

/-- Adding a page of a known document changes no document. -/
theorem documents_addTo_of_mem
    {page : Page} {pages : List Page}
    (hknown : page.pathname ∈ pages.map Page.pathname) :
    (page.addTo pages).map document = pages.map document := by
  induction pages with
  | nil => exact absurd hknown List.not_mem_nil
  | cons known pages ih =>
      by_cases hsame : known.pathname = page.pathname
      · rw [addTo, if_pos hsame]
        rfl
      · rw [addTo, if_neg hsame]
        rcases List.mem_cons.mp hknown with heq | hrest
        · exact absurd heq.symm hsame
        · rw [List.map_cons, List.map_cons, ih hrest]

/-- A page of a new document comes last. -/
theorem addTo_of_notMem
    {page : Page} {pages : List Page}
    (hnew : page.pathname ∉ pages.map Page.pathname) :
    page.addTo pages = pages ++ [page] := by
  induction pages with
  | nil => rfl
  | cons known pages ih =>
      rw [List.map_cons, List.mem_cons, not_or] at hnew
      rw [addTo, if_neg (Ne.symm hnew.1), ih hnew.2]
      rfl

/-- A page of the longer list has the document of the new page or that of a known one. -/
theorem exists_document_of_mem_addTo
    {page found : Page} {pages : List Page} (h : found ∈ page.addTo pages) :
    ∃ known ∈ page :: pages, found.document = known.document := by
  induction pages with
  | nil => exact ⟨found, h, rfl⟩
  | cons first pages ih =>
      by_cases hsame : first.pathname = page.pathname
      · rw [addTo, if_pos hsame] at h
        rcases List.mem_cons.mp h with rfl | hrest
        · exact ⟨first, by simp, rfl⟩
        · exact ⟨found, by simp [hrest], rfl⟩
      · rw [addTo, if_neg hsame] at h
        rcases List.mem_cons.mp h with rfl | hrest
        · exact ⟨found, by simp, rfl⟩
        · obtain ⟨known, hknown, heq⟩ := ih hrest
          refine ⟨known, ?_, heq⟩
          rcases List.mem_cons.mp hknown with rfl | hmem
          · exact List.mem_cons_self
          · simp [hmem]

end Page

namespace Inference

/-- Taking in one more document keeps those before it, if its pathname is new. -/
theorem documents_add
    {inference : Inference} {anchor document : Document} {known : List Document}
    (hpages : inference.pages.map Page.document = anchor :: known)
    (hnew : document.pathname ∉ (anchor :: known).map Document.pathname) :
    (inference.add (anchor.difference document)).pages.map Page.document =
      anchor :: known ++ [document] := by
  let next := anchor.difference document
  let merged := inference.pages.map (·.merge next.base)
  let anchorPage := next.anchor.merge inference.base
  let otherPage := next.other.merge inference.base
  have hmerged : merged.map Page.document = anchor :: known := by
    rw [Page.documents_map_merge, hpages]
  have hanchor : (anchorPage.addTo merged).map Page.document = anchor :: known := by
    rw [Page.documents_addTo_of_mem, hmerged]
    rw [Page.map_pathname_eq, hmerged]
    exact List.mem_cons_self
  have hother : otherPage.pathname ∉ (anchorPage.addTo merged).map Page.pathname := by
    rw [Page.map_pathname_eq, hanchor]
    exact hnew
  have hpages : (inference.add next).pages = otherPage.addTo (anchorPage.addTo merged) := rfl
  rw [hpages, Page.addTo_of_notMem hother, List.map_append, hanchor]
  rfl

/-! ## The run of an inference -/

/-- What is known once the second document and then the `seen` ones have been compared with the
anchor. -/
def after (anchor second : Document) (seen : List Document) : Inference :=
  (seen.map anchor.difference).foldl add (.start (anchor.difference second))

theorem after_concat (anchor second document : Document) (seen : List Document) :
    after anchor second (seen ++ [document]) =
      (after anchor second seen).add (anchor.difference document) := by
  rw [after, List.map_append, List.foldl_append]
  rfl

/-- The pages are those of the documents, in order. -/
theorem documents_after
    {anchor second : Document} {seen : List Document}
    (hpathnames : ((anchor :: second :: seen).map Document.pathname).Nodup) :
    (after anchor second seen).pages.map Page.document = anchor :: second :: seen := by
  induction seen using List.reverseRecOn with
  | nil => rfl
  | append_singleton seen document ih =>
      have hsplit : anchor :: second :: (seen ++ [document]) =
          (anchor :: second :: seen) ++ [document] := rfl
      rw [hsplit, List.map_append, List.nodup_append] at hpathnames
      have hnew : document.pathname ∉ (anchor :: second :: seen).map Document.pathname :=
        fun hmem => hpathnames.2.2 _ hmem _ List.mem_cons_self rfl
      rw [after_concat, documents_add (ih hpathnames.1) hnew]
      rfl

/-- Whatever the pathnames, every page is that of a document. -/
theorem document_mem_after
    {anchor second : Document} {seen : List Document} {page : Page}
    (h : page ∈ (after anchor second seen).pages) :
    page.document ∈ anchor :: second :: seen := by
  induction seen using List.reverseRecOn generalizing page with
  | nil =>
      rcases List.mem_cons.mp h with rfl | hsecond
      · exact List.mem_cons_self
      · obtain rfl := List.mem_singleton.mp hsecond
        exact List.mem_cons_of_mem _ List.mem_cons_self
  | append_singleton seen document ih =>
      have hknown : ∀ known ∈ (after anchor second seen).pages,
          known.document ∈ anchor :: second :: (seen ++ [document]) := by
        intro known hmem
        exact List.mem_append_left [document] (ih hmem)
      rw [after_concat] at h
      obtain ⟨other, hother, heq⟩ := Page.exists_document_of_mem_addTo h
      rw [heq]
      rcases List.mem_cons.mp hother with rfl | hmem
      · exact List.mem_append_right (anchor :: second :: seen) List.mem_cons_self
      obtain ⟨old, hold, heq⟩ := Page.exists_document_of_mem_addTo hmem
      rw [heq]
      rcases List.mem_cons.mp hold with rfl | hmem
      · exact List.mem_cons_self
      · obtain ⟨known, hmember, rfl⟩ := List.mem_map.mp hmem
        exact hknown known hmember

/-! ## The final pages -/

theorem exists_of_mem_pages
    {inference : Inference} {page : Page} (h : page ∈ inference.finish.pages) :
    ∃ known ∈ inference.pages, page = known.project inference.layout := by
  obtain ⟨known, hknown, rfl⟩ := List.mem_map.mp h
  exact ⟨known, hknown, rfl⟩

theorem documents_finish (inference : Inference) :
    inference.finish.pages.map Page.document = inference.pages.map Page.document := by
  rw [finish, List.map_map]
  rfl

theorem documents_finish_after
    {anchor second : Document} {seen : List Document}
    (hpathnames : ((anchor :: second :: seen).map Document.pathname).Nodup) :
    (after anchor second seen).finish.pages.map Page.document = anchor :: second :: seen := by
  rw [documents_finish, documents_after hpathnames]

end Inference

theorem Collection.infer_eq_after (name : String) (anchor second : Document)
    (rest : List Document) :
    infer name (anchor :: second :: rest) = .ok (Inference.after anchor second rest).finish :=
  rfl

/-- There is one page for every document, in order: the pages are those of the documents seen so
far after every step of the inference, and in the end. -/
theorem Collection.pages_of_infer
    (name : String) {documents : List Document}
    (hmany : 2 ≤ documents.length) (hpathnames : (documents.map Document.pathname).Nodup) :
    ∃ anchor second rest collection, documents = anchor :: second :: rest ∧
      infer name documents = .ok collection ∧
      (∀ seen, seen <+: rest →
        (Inference.after anchor second seen).pages.map Page.document = anchor :: second :: seen) ∧
      collection.pages.length = documents.length ∧
      ∀ (k : Nat) (hpage : k < collection.pages.length) (hdocument : k < documents.length),
        collection.pages[k].pathname = documents[k].pathname ∧
          collection.pages[k].content = documents[k].content ∧
          collection.pages[k].source = documents[k].tree := by
  obtain _ | ⟨anchor, _ | ⟨second, rest⟩⟩ := documents
  · exact absurd hmany (by simp)
  · exact absurd hmany (by simp)
  have hpages := Inference.documents_finish_after hpathnames
  refine ⟨anchor, second, rest, _, rfl, infer_eq_after name anchor second rest, ?_, ?_, ?_⟩
  · rintro seen ⟨later, rfl⟩
    apply Inference.documents_after
    exact hpathnames.sublist (((List.sublist_append_left seen later).cons_cons second).cons_cons
      anchor |>.map _)
  · rw [← hpages, List.length_map]
  · intro k hpage hdocument
    have hdocument : (Inference.after anchor second rest).finish.pages[k].document =
        (anchor :: second :: rest)[k] := by
      simp only [← hpages, List.getElem_map]
    rw [← hdocument]
    exact ⟨rfl, rfl, rfl⟩

theorem Collection.pages_of_infer_of_three_notes :
    let documents : List Document :=
      [{ pathname := "a.html", tree := [.element "p" [] [.text "one"], .content] },
        { pathname := "b.html", tree := [.content], content := [.text "body"] },
        { pathname := "c.html", tree := [.element "p" [] [.text "three"], .comment "end"] }]
    (2 ≤ documents.length ∧ (documents.map Document.pathname).Nodup) ∧
      ∃ anchor second rest collection, documents = anchor :: second :: rest ∧
        infer "notes" documents = .ok collection ∧
        (∀ seen, seen <+: rest →
          (Inference.after anchor second seen).pages.map Page.document =
            anchor :: second :: seen) ∧
        collection.pages.length = documents.length ∧
        ∀ (k : Nat) (hpage : k < collection.pages.length) (hdocument : k < documents.length),
          collection.pages[k].pathname = documents[k].pathname ∧
            collection.pages[k].content = documents[k].content ∧
            collection.pages[k].source = documents[k].tree := by
  intro documents
  have hmany : 2 ≤ documents.length := by decide
  have hpathnames : (documents.map Document.pathname).Nodup := by decide
  exact ⟨⟨hmany, hpathnames⟩, pages_of_infer "notes" hmany hpathnames⟩

end Stencil
