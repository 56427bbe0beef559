import Stencil.Proofs.Collection.Comparison
import Stencil.Proofs.Collection.Merging
import Stencil.Proofs.Collection.Pages

/-!
# Collections of documents of one shape

Documents that only differ in the values of texts and attributes have a layout that can be told in
advance: any of the trees, with a variable in place of every value that is not the same in all of
them (`Variation.among`).  The invariant of the inference is that after some documents both layouts
are the anchor marked by what varies among these documents (`Inference.Marks`).  In the end every
page has the values of its own document and gives it back (`infer_of_sameShape`), so the order of
the documents plays no part.
-/

namespace Stencil

open Comparison (Site varReference attrReference)

/-! ## What varies among documents -/

section Differ

variable {α β : Type} [DecidableEq β] {f : α → β} {a b : α} {as bs : List α}

/-- Two items of the list are told apart by `f`. -/
def differ (f : α → β) (as : List α) : Bool :=
  as.any fun a => as.any fun b => f a ≠ f b

theorem differ_eq_true_iff :
    differ f as = true ↔ ∃ a ∈ as, ∃ b ∈ as, f a ≠ f b := by
  simp [differ]

theorem differ_of_mem (ha : a ∈ as) (hb : b ∈ as) (hne : f a ≠ f b) : differ f as = true :=
  differ_eq_true_iff.mpr ⟨a, ha, b, hb, hne⟩

theorem differ_perm (h : as.Perm bs) : differ f as = differ f bs := by
  rw [Bool.eq_iff_iff, differ_eq_true_iff, differ_eq_true_iff]
  simp only [h.mem_iff]

theorem differ_pair : differ f [a, b] = decide (f a ≠ f b) := by
  rw [Bool.eq_iff_iff, differ_eq_true_iff, decide_eq_true_eq]
  constructor
  · rintro ⟨x, hx, y, hy, hne⟩ heq
    rcases List.mem_pair.mp hx with rfl | rfl <;> rcases List.mem_pair.mp hy with rfl | rfl
    · exact hne rfl
    · exact hne heq
    · exact hne heq.symm
    · exact hne rfl
  · intro hne
    exact ⟨a, by simp, b, by simp, hne⟩

/-- It is enough to compare a new item with the first one. -/
theorem differ_concat :
    differ f (a :: as ++ [b]) = (differ f (a :: as) || differ f [a, b]) := by
  rw [Bool.eq_iff_iff, Bool.or_eq_true, differ_pair, decide_eq_true_eq]
  constructor
  · intro h
    by_contra hsame
    rw [not_or, Bool.not_eq_true, not_not] at hsame
    obtain ⟨hsame, hlast⟩ := hsame
    have hfirst : ∀ x ∈ a :: as ++ [b], f a = f x := by
      intro x hx
      rcases List.mem_append.mp hx with hx | hx
      · by_contra hne
        exact absurd (differ_of_mem List.mem_cons_self hx hne) (by simp [hsame])
      · rw [List.mem_singleton.mp hx, hlast]
    obtain ⟨x, hx, y, hy, hne⟩ := differ_eq_true_iff.mp h
    exact hne ((hfirst x hx).symm.trans (hfirst y hy))
  · rintro (h | hne)
    · obtain ⟨x, hx, y, hy, hne⟩ := differ_eq_true_iff.mp h
      exact differ_of_mem (List.mem_append_left _ hx) (List.mem_append_left _ hy) hne
    · exact differ_of_mem (List.mem_append_left _ List.mem_cons_self)
        (List.mem_append_right _ List.mem_cons_self) hne

end Differ

/-- The texts and the attributes that are not the same in all of the documents. -/
def Variation.among (documents : List Document) : Variation where
  texts n := differ (fun document => (Node.texts document.tree)[n]?) documents
  attributes n :=
    differ (fun document => (Node.attributes document.tree)[n]?.map Attribute.value) documents

theorem Variation.among_perm {documents others : List Document} (h : documents.Perm others) :
    among documents = among others := by
  simp only [among, differ_perm h]

theorem Variation.among_concat (anchor document : Document) (known : List Document) :
    among (anchor :: known ++ [document]) =
      (among (anchor :: known)).union (among [anchor, document]) := by
  simp only [among, union, differ_concat]

/-! ## Documents of one shape -/

/-- The trees are concrete, without a body, and equal once the values of texts and attributes are
erased. -/
structure SameShape (documents : List Document) : Prop where
  concrete : ∀ document ∈ documents, Node.Concrete document.tree
  closed : ∀ document ∈ documents, .content ∉ Node.preorderList document.tree
  shape : ∀ a ∈ documents, ∀ b ∈ documents, Node.shapeList a.tree = Node.shapeList b.tree

section SameShape

variable {documents others : List Document} {a b : Document}

theorem SameShape.of_subset (h : SameShape documents) (hsubset : others ⊆ documents) :
    SameShape others where
  concrete document hdocument := h.concrete document (hsubset hdocument)
  closed document hdocument := h.closed document (hsubset hdocument)
  shape a ha b hb := h.shape a (hsubset ha) b (hsubset hb)

/-- All that differs between two of the documents varies. -/
theorem SameShape.covers (h : SameShape documents) (ha : a ∈ documents) (hb : b ∈ documents) :
    Node.Parallel (Variation.among documents).covers {} a.tree b.tree := by
  apply Node.Parallel.of_shapes (h.concrete a ha) (h.concrete b hb) (h.shape a ha b hb)
  · intro i v w hv hw hne
    rw [Nat.zero_add]
    apply differ_of_mem ha hb
    simpa only [hv, hw, ne_eq, Option.some.injEq] using hne
  · intro i x y hx hy v w hv hw hne
    rw [Nat.zero_add]
    apply differ_of_mem ha hb
    simpa only [hx, hy, Option.map_some, hv, hw, ne_eq, Option.some.injEq,
      AttributeValue.literal.injEq] using hne

/-- Between two documents exactly what differs varies. -/
theorem SameShape.matches_pair (h : SameShape [a, b]) :
    Node.Parallel (Variation.among [a, b]).matches {} a.tree b.tree := by
  have ha : a ∈ [a, b] := by simp
  have hb : b ∈ [a, b] := by simp
  apply Node.Parallel.of_shapes (h.concrete a ha) (h.concrete b hb) (h.shape a ha b hb)
  · intro i v w hv hw
    have hdiffer : (Variation.among [a, b]).texts i =
        decide ((Node.texts a.tree)[i]? ≠ (Node.texts b.tree)[i]?) :=
      differ_pair (f := fun document : Document => (Node.texts document.tree)[i]?)
    rw [Nat.zero_add]
    exact hdiffer.trans (by simp [hv, hw])
  · intro i x y hx hy v w hv hw
    have hdiffer : (Variation.among [a, b]).attributes i =
        decide ((Node.attributes a.tree)[i]?.map Attribute.value ≠
          (Node.attributes b.tree)[i]?.map Attribute.value) :=
      differ_pair
        (f := fun document : Document => (Node.attributes document.tree)[i]?.map Attribute.value)
    rw [Nat.zero_add]
    exact hdiffer.trans (by simp [hx, hy, hv, hw])

/-- Whichever document is marked, the outcome is the same. -/
theorem SameShape.markList_eq (h : SameShape documents) (ha : a ∈ documents) (hb : b ∈ documents) :
    Node.markList (Variation.among documents) {} a.tree =
      Node.markList (Variation.among documents) {} b.tree :=
  (h.covers ha hb).markList_eq

end SameShape

/-! ## The inference -/

/-- Both layouts are the anchor marked by what varies among the documents seen so far, the pages
are those of the documents, and there was nothing to warn about. -/
structure Inference.Marks (inference : Inference) (anchor : Document) (known : List Document) :
    Prop where
  documents : inference.pages.map Page.document = anchor :: known
  base : inference.base =
    ⟨Node.markList (Variation.among (anchor :: known)) {} anchor.tree⟩
  layout : inference.layout =
    ⟨Node.markList (Variation.among (anchor :: known)) {} anchor.tree⟩
  warnings : inference.warnings = []

/-- A comparison marks what differs between the two documents. -/
theorem SameShape.difference {anchor other : Document} (h : SameShape [anchor, other]) :
    (anchor.difference other).base =
        ⟨Node.markList (Variation.among [anchor, other]) {} anchor.tree⟩ ∧
      (anchor.difference other).layout =
        ⟨Node.markList (Variation.among [anchor, other]) {} anchor.tree⟩ ∧
      (anchor.difference other).warnings = [] := by
  have hanchor := h.concrete anchor (by simp)
  have hother := h.concrete other (by simp)
  obtain ⟨hvalue, hwarnings⟩ :=
    Comparison.compareTrees_of_parallel hanchor hother h.matches_pair
  have hbase : (anchor.difference other).base =
      ⟨Node.markList (Variation.among [anchor, other]) {} anchor.tree⟩ :=
    congrArg Layout.mk hvalue
  refine ⟨hbase, ?_, hwarnings⟩
  rw [difference_layout_eq_base hanchor hother, hbase]

theorem SameShape.marks_start {anchor second : Document} (h : SameShape [anchor, second]) :
    (Inference.start (anchor.difference second)).Marks anchor [second] := by
  obtain ⟨hbase, hlayout, hwarnings⟩ := h.difference
  exact ⟨rfl, hbase, hlayout, hwarnings⟩

/-- The invariant is kept by every further document. -/
theorem Inference.Marks.add
    {inference : Inference} {anchor document : Document} {known : List Document}
    (h : inference.Marks anchor known)
    (hshape : SameShape (anchor :: known ++ [document]))
    (hnew : document.pathname ∉ (anchor :: known).map Document.pathname) :
    (inference.add (anchor.difference document)).Marks anchor (known ++ [document]) := by
  have hpair : SameShape [anchor, document] := hshape.of_subset (by simp)
  have hanchor := hpair.concrete anchor (by simp)
  obtain ⟨hbase, hlayout, hwarnings⟩ := hpair.difference
  have hamong : Variation.among (anchor :: (known ++ [document])) =
      (Variation.among (anchor :: known)).union (Variation.among [anchor, document]) :=
    Variation.among_concat anchor document known
  have hmerge : ∀ first second : Layout,
      first = ⟨Node.markList (Variation.among (anchor :: known)) {} anchor.tree⟩ →
      second = ⟨Node.markList (Variation.among [anchor, document]) {} anchor.tree⟩ →
      first.merge second =
        ⟨⟨Node.markList (Variation.among (anchor :: (known ++ [document]))) {} anchor.tree⟩,
          []⟩ := by
    rintro _ _ rfl rfl
    rw [Layout.merge, Node.align_markList _ _ hanchor, hamong]
    rfl
  constructor
  · exact documents_add h.documents hnew
  · rw [Inference.add, hmerge _ _ h.base hbase]
  · rw [Inference.add, hmerge _ _ h.layout hlayout]
    exact Layout.normalized_markList _ hanchor
  · rw [Inference.add, hmerge _ _ h.layout hlayout, h.warnings, hwarnings]
    rfl

/-- The invariant of the whole inference. -/
theorem Inference.Marks.foldl
    {inference : Inference} {anchor : Document} {known rest : List Document}
    (h : inference.Marks anchor known)
    (hshape : SameShape (anchor :: known ++ rest))
    (hpathnames : ((anchor :: known ++ rest).map Document.pathname).Nodup) :
    ((rest.map anchor.difference).foldl Inference.add inference).Marks anchor (known ++ rest) := by
  induction rest generalizing inference known with
  | nil => simpa using h
  | cons document rest ih =>
      have hassoc : anchor :: known ++ document :: rest =
          anchor :: (known ++ [document]) ++ rest := by simp
      have hnew : document.pathname ∉ (anchor :: known).map Document.pathname := by
        rw [List.map_append, List.nodup_append] at hpathnames
        intro hmem
        exact hpathnames.2.2 _ hmem _ List.mem_cons_self rfl
      have hnext := h.add (hshape.of_subset (by simp)) hnew
      rw [hassoc] at hshape hpathnames
      have hrest := ih hnext hshape hpathnames
      rwa [List.append_assoc] at hrest

/-! ## The pages -/

/-- The page has exactly the values of its document that the layout asks for, and gives the
document back. -/
structure Page.Represents (page : Page) (layout : Layout) (document : Document) : Prop where
  origin : page.document = document
  references : ∀ reference, reference ∈ page.data.references ↔ reference ∈ layout.references
  texts : ∀ n value, (Node.texts document.tree)[n]? = some value →
    varReference (n + 1) ∈ layout.references →
      page.data.get? (varReference (n + 1)) = some (.text value)
  attributes : ∀ n name value,
    (Node.attributes document.tree)[n]? = some (Attribute.static name value) →
      attrReference (n + 1) ∈ layout.references →
        page.data.get? (attrReference (n + 1)) = some (.text value)
  rendered : page.render layout = document.tree

/-- A page projected onto its own marked tree has the marked values. -/
theorem Page.project_markList
    {page : Page} (v : Variation) (hconcrete : Node.Concrete page.source) :
    page.project ⟨Node.markList v {} page.source⟩ =
        page.document.page (.ofEntries (v.entries {} page.source)) ∧
      page.projectWarnings ⟨Node.markList v {} page.source⟩ = [] := by
  have hfindings : page.findings ⟨Node.markList v {} page.source⟩ =
      (v.entries {} page.source).map fun entry => .entry entry.1 entry.2 :=
    Node.projectList_markList v {} hconcrete
  have hentries : Finding.entries (page.findings ⟨Node.markList v {} page.source⟩) =
      v.entries {} page.source := by
    rw [hfindings, Finding.entries, List.filterMap_map]
    exact List.filterMap_some
  have hcomplete : ∀ reference ∈ (Layout.mk (Node.markList v {} page.source)).references,
      reference ∈ Finding.references (page.findings ⟨Node.markList v {} page.source⟩) := by
    intro reference hreference
    rw [Finding.references, hentries, Variation.entries, List.map_map]
    rwa [Layout.references, Node.referencesList_markList v {} hconcrete] at hreference
  constructor
  · rw [Page.project_of_complete hcomplete, Finding.record, hentries]
    rfl
  · rw [Page.projectWarnings, hfindings, Finding.mismatches, List.filterMap_map,
      List.map_eq_nil_iff, List.filterMap_eq_nil_iff]
    simp

/-- The page with the marked values represents its document. -/
theorem Variation.represents
    {document : Document} (v : Variation) (hconcrete : Node.Concrete document.tree)
    (hclosed : .content ∉ Node.preorderList document.tree) :
    (document.page (.ofEntries (v.entries {} document.tree))).Represents
      ⟨Node.markList v {} document.tree⟩ document := by
  have hreferences : (v.entries {} document.tree).map Prod.fst =
      (Layout.mk (Node.markList v {} document.tree)).references := by
    rw [entries, List.map_map, Layout.references, Node.referencesList_markList v {} hconcrete]
    rfl
  have hagrees : (Record.ofEntries (v.entries {} document.tree)).Agrees
      (v.entries {} document.tree) := by
    apply Record.agrees_ofEntries
    rw [hreferences]
    exact (Node.placedAt_markList v {} hconcrete).nodup
  -- Every reference of the layout is that of a place, and the place has a value in the tree.
  have hsite : ∀ site : Site,
      site.reference ∈ (Layout.mk (Node.markList v {} document.tree)).references →
        ∃ value, site.HasValue {} document.tree value ∧
          (Record.ofEntries (v.entries {} document.tree)).get? site.reference =
            some (.text value) := by
    intro site hmem
    rw [← hreferences, entries, List.map_map] at hmem
    obtain ⟨found, hfound, hreference⟩ := List.mem_map.mp hmem
    have hsame : found.1 = site := Site.reference_injective hreference
    refine ⟨found.2, hsame ▸ Node.hasValue_of_mem_markedList hconcrete hfound, ?_⟩
    exact hsame ▸ hagrees (entry found) (List.mem_map_of_mem hfound)
  constructor
  · rfl
  · intro reference
    rw [Record.mem_references_iff_contains, ← hreferences]
    exact Record.contains_ofEntries_iff
  · intro n value hvalue hmem
    obtain ⟨found, ⟨i, hi, hfound⟩, hstored⟩ := hsite (.text (n + 1)) hmem
    obtain rfl : n = i := by simpa using hi
    rwa [Option.some.inj (hvalue.symm.trans hfound)]
  · intro n name value hvalue hmem
    obtain ⟨found, ⟨_, i, hi, hfound⟩, hstored⟩ := hsite (.attribute (n + 1)) hmem
    obtain rfl : n = i := by simpa using hi
    have heq := congrArg Attribute.value (Option.some.inj (hvalue.symm.trans hfound))
    rwa [AttributeValue.literal.inj heq]
  · have hrendered := Node.renderList_markList document.content v {} hconcrete hagrees
    exact hrendered.trans (Node.expandList_of_notMem _ hclosed)

/-! ## The collection -/

/-- The collection that has the marked values on every page. -/
def Variation.collection (v : Variation) (documents : List Document) (tree : List Node) :
    Collection where
  pages := documents.map fun document => document.page (.ofEntries (v.entries {} document.tree))
  layout := ⟨Node.markList v {} tree⟩
  warnings := []

/-- At the end every page is projected onto its own marked tree, whichever document was the
anchor. -/
theorem Inference.Marks.finish_eq
    {inference : Inference} {anchor chosen : Document} {known : List Document}
    (h : inference.Marks anchor known) (hshape : SameShape (anchor :: known))
    (hchosen : chosen ∈ anchor :: known) :
    inference.finish =
      (Variation.among (anchor :: known)).collection (anchor :: known) chosen.tree := by
  let v := Variation.among (anchor :: known)
  have hlayout : inference.layout = ⟨Node.markList v {} chosen.tree⟩ := by
    rw [h.layout]
    exact congrArg Layout.mk (hshape.markList_eq List.mem_cons_self hchosen)
  have hpage : ∀ page ∈ inference.pages,
      page.project inference.layout =
          page.document.page (.ofEntries (v.entries {} page.document.tree)) ∧
        page.projectWarnings inference.layout = [] := by
    intro page hmem
    have hdocument : page.document ∈ anchor :: known := by
      rw [← h.documents]
      exact List.mem_map_of_mem hmem
    rw [hlayout, hshape.markList_eq hchosen hdocument]
    exact Page.project_markList v (hshape.concrete page.document hdocument)
  have hpages : inference.pages.map (·.project inference.layout) =
      (anchor :: known).map fun document =>
        document.page (.ofEntries (v.entries {} document.tree)) := by
    rw [← h.documents, List.map_map]
    exact List.map_congr_left fun page hmem => (hpage page hmem).1
  have hwarnings : inference.pages.flatMap (·.projectWarnings inference.layout) = [] :=
    List.flatMap_eq_nil_iff.mpr fun page hmem => (hpage page hmem).2
  rw [Inference.finish, hpages, hwarnings, hlayout, h.warnings]
  exact rfl

/-- The collection of documents of one shape, told in advance. -/
theorem SameShape.infer_eq
    {documents : List Document} {chosen : Document} (name : String)
    (hshape : SameShape documents) (hmany : 2 ≤ documents.length)
    (hpathnames : (documents.map Document.pathname).Nodup) (hchosen : chosen ∈ documents) :
    Collection.infer name documents =
      .ok ((Variation.among documents).collection documents chosen.tree) := by
  obtain _ | ⟨anchor, _ | ⟨second, rest⟩⟩ := documents
  · simp at hmany
  · simp at hmany
  · have hfirst : SameShape [anchor, second] := hshape.of_subset (by simp)
    have hmarks := hfirst.marks_start.foldl hshape hpathnames
    exact congrArg Except.ok (hmarks.finish_eq hshape hchosen)

theorem SameShape.forall₂_represents
    {documents : List Document} {chosen : Document}
    (hshape : SameShape documents) (hchosen : chosen ∈ documents) :
    let collection := (Variation.among documents).collection documents chosen.tree
    List.Forall₂ (fun page document => page.Represents collection.layout document)
      collection.pages documents := by
  apply List.forall₂_map_left_iff.mpr
  apply List.forall₂_same.mpr
  intro document hdocument
  have hlayout : ((Variation.among documents).collection documents chosen.tree).layout =
      ⟨Node.markList (Variation.among documents) {} document.tree⟩ :=
    congrArg Layout.mk (hshape.markList_eq hchosen hdocument)
  rw [hlayout]
  exact (Variation.among documents).represents (hshape.concrete document hdocument)
    (hshape.closed document hdocument)

/-- Documents of one shape always have a layout: any of their trees with a variable in place of
every value that is not the same in all of them.  Nothing is warned about, every page represents
its document, and the order of the documents plays no part. -/
theorem infer_of_sameShape
    {documents : List Document} (name : String)
    (hshape : SameShape documents) (hmany : 2 ≤ documents.length)
    (hpathnames : (documents.map Document.pathname).Nodup) :
    ∃ collection, Collection.infer name documents = .ok collection ∧
      (∀ document ∈ documents, collection.layout =
        ⟨Node.markList (Variation.among documents) {} document.tree⟩) ∧
      collection.warnings = [] ∧
      List.Forall₂ (fun page document => page.Represents collection.layout document)
        collection.pages documents ∧
      ∀ permuted : List Document, permuted.Perm documents →
        ∃ other, Collection.infer name permuted = .ok other ∧
          other.layout = collection.layout ∧ other.pages.Perm collection.pages := by
  obtain ⟨anchor, hanchor⟩ : ∃ anchor, anchor ∈ documents :=
    List.exists_mem_of_length_pos (by omega)
  refine ⟨_, hshape.infer_eq name hmany hpathnames hanchor, ?_, rfl,
    hshape.forall₂_represents hanchor, ?_⟩
  · intro document hdocument
    exact congrArg Layout.mk (hshape.markList_eq hanchor hdocument)
  · intro permuted hperm
    have hpermuted : SameShape permuted := hshape.of_subset hperm.subset
    have hlength : 2 ≤ permuted.length := hperm.length_eq ▸ hmany
    have hdistinct : (permuted.map Document.pathname).Nodup :=
      (hperm.map Document.pathname).nodup_iff.mpr hpathnames
    have hinfer := hpermuted.infer_eq name hlength hdistinct (hperm.mem_iff.mpr hanchor)
    rw [Variation.among_perm hperm] at hinfer
    exact ⟨_, hinfer, rfl, hperm.map _⟩

/-- Three articles with the same class, of which one has another title and one another style. -/
theorem infer_of_three_articles :
    let article (pathname style title : String) : Document :=
      { pathname := pathname
        tree :=
          [.doctype "html",
          .element "h1" [.static "class" "head", .static "style" style] [.text title],
          .comment "end"] }
    let documents := [article "a.html" "x" "One", article "b.html" "x" "Two",
      article "c.html" "y" "One"]
    SameShape documents ∧ 2 ≤ documents.length ∧ (documents.map Document.pathname).Nodup ∧
      ∃ collection, Collection.infer "articles" documents = .ok collection ∧
        (∀ document ∈ documents, collection.layout =
          ⟨Node.markList (Variation.among documents) {} document.tree⟩) ∧
        collection.warnings = [] ∧
        List.Forall₂ (fun page document => page.Represents collection.layout document)
          collection.pages documents ∧
        ∀ permuted : List Document, permuted.Perm documents →
          ∃ other, Collection.infer "articles" permuted = .ok other ∧
            other.layout = collection.layout ∧ other.pages.Perm collection.pages := by
  intro article documents
  have hshape : SameShape documents :=
    { concrete := by decide
      closed := by decide
      shape := by decide }
  have hmany : 2 ≤ documents.length := by decide
  have hpathnames : (documents.map Document.pathname).Nodup := by decide
  exact ⟨hshape, hmany, hpathnames, infer_of_sameShape "articles" hshape hmany hpathnames⟩

end Stencil
