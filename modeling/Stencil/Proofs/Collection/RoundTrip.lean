import Stencil.Proofs.Collection.Heredity
import Stencil.Proofs.Page.Restoring

/-!
# Which documents come back

The layout of three documents need not give all of them back.  A node that only some documents have
may be kept without a guard, so that other pages are rendered with it, and of two literal values of
an attribute only one is kept.  The first kind of loss is always reported: without attributes, a
document comes back exactly if every mismatch of its page is harmless (`render_infer_iff_of_bare`).
The second is not: if nothing is reported, a document comes back exactly if its page has no
attribute that projection overlooks (`resembles_infer_iff_of_silent`).
-/

namespace Stencil

/-! ## Documents without attributes -/

namespace Node

/-- An element without attributes, or a text. -/
def IsBare : Node → Prop
  | .element _ attrs _ => attrs = []
  | .text _ => True
  | .doctype _ | .comment _ | .var _ | .conditional .. | .content | .markdown _ | .loop .. => False

instance : DecidablePred IsBare
  | .element _ attrs _ => inferInstanceAs (Decidable (attrs = []))
  | .text _ => isTrue trivial
  | .doctype _ | .comment _ | .var _ | .conditional .. | .content | .markdown _ | .loop .. =>
    isFalse id

/-- The node is not an element with attributes. -/
def LacksAttributes : Node → Prop
  | .element _ attrs _ => attrs = []
  | _ => True

theorem isPlain_of_isBare {node : Node} (h : node.IsBare) : node.IsPlain := by
  cases node with
  | element name attrs children =>
      obtain rfl : attrs = [] := h
      exact ⟨by simp, List.nodup_nil⟩
  | text => trivial
  | _ => exact absurd h id

theorem lacksAttributes_of_isBare {node : Node} (h : node.IsBare) : node.LacksAttributes := by
  cases node with
  | element => exact h
  | _ => trivial

theorem hereditary_lacksAttributes : Hereditary LacksAttributes where
  element _ h hnames := by
    rw [LacksAttributes] at h
    subst h
    exact List.map_eq_nil_iff.mp (List.subset_nil.mp hnames)
  var _ := trivial
  conditional _ _ := trivial

theorem hereditary_closed : Hereditary fun node => node.kind ≠ .content where
  element _ _ _ := by simp [kind]
  var _ := by simp [kind]
  conditional _ _ := by simp [kind]

/-- Without attributes nothing can be overlooked. -/
theorem overlooked_of_lacksAttributes
    {slots : List Node} (hslots : Everywhere LacksAttributes slots) :
    (∀ slot ∈ slots, ∀ node, Everywhere LacksAttributes [node] → slot.overlooked node = []) ∧
      ∀ nodes, Everywhere LacksAttributes nodes → overlookedList slots nodes = [] := by
  -- A guard overlooks in a node what its child does, so the induction carries single slots too.
  have hcons : ∀ {slot : Node} {slots : List Node},
      (∀ node, Everywhere LacksAttributes [node] → slot.overlooked node = []) →
      ((∀ slot ∈ slots, ∀ node, Everywhere LacksAttributes [node] → slot.overlooked node = []) ∧
        ∀ nodes, Everywhere LacksAttributes nodes → overlookedList slots nodes = []) →
      (∀ other ∈ slot :: slots, ∀ node, Everywhere LacksAttributes [node] →
          other.overlooked node = []) ∧
        ∀ nodes, Everywhere LacksAttributes nodes → overlookedList (slot :: slots) nodes = [] := by
    intro slot slots hslot hrest
    refine ⟨List.forall_mem_cons.mpr ⟨hslot, hrest.1⟩, fun nodes hnodes => ?_⟩
    obtain ⟨passed, hpassed⟩ := divide_append slots nodes slot
    rw [← hpassed] at hnodes
    obtain ⟨htaken, hleft⟩ := everywhere_append.mp (everywhere_append.mp hnodes).2
    rw [overlookedList, hrest.2 _ hleft, List.append_nil, List.flatMap_eq_nil_iff]
    exact fun node hnode => hslot node (everywhere_singleton_of_mem htaken hnode)
  induction slots using Node.inductionOn with
  | nil => exact ⟨by simp, fun _ _ => rfl⟩
  | element name attrs children slots ihChildren ih =>
      obtain ⟨hattrs, hchildren, hrest⟩ := everywhere_element.mp hslots
      obtain rfl : attrs = [] := hattrs
      refine hcons (fun node hnode => ?_) (ih hrest)
      cases node with
      | element other concrete inner =>
          obtain ⟨hconcrete, hinner, -⟩ := everywhere_element.mp hnode
          obtain rfl : concrete = [] := hconcrete
          rw [overlooked, (ihChildren hchildren).2 inner hinner]
          rfl
      | _ => rfl
  | conditional reference child slots ihChild ih =>
      obtain ⟨-, hchild, hrest⟩ := everywhere_conditional.mp hslots
      exact hcons ((ihChild hchild).1 child List.mem_cons_self) (ih hrest)
  | loop reference template slots ihTemplate ih =>
      obtain ⟨-, htemplate, hrest⟩ := everywhere_loop.mp hslots
      exact hcons ((ihTemplate htemplate).1 template List.mem_cons_self) (ih hrest)
  | doctype _ _ ih | text _ _ ih | comment _ _ ih | var _ _ ih | content _ ih | markdown _ _ ih =>
      exact hcons (fun _ _ => rfl) (ih (everywhere_cons.mp hslots).2)

/-- What resembles a tree without attributes and comments is the tree itself. -/
theorem resembles_iff_eq_of_bare
    {nodes other : List Node} (hbare : Everywhere IsBare nodes) :
    Resembles nodes other ↔ other = nodes := by
  constructor
  · intro h
    induction h with
    | nil => rfl
    | same node _ ih => rw [ih (everywhere_cons.mp hbare).2]
    | comment value _ _ _ => exact absurd (everywhere_comment.mp hbare).1 id
    | element name hattrs _ _ ihChildren ih =>
        obtain ⟨hnone, hchildren, hrest⟩ := everywhere_element.mp hbare
        rw [IsBare] at hnone
        subst hnone
        rw [ihChildren hchildren, ih hrest, hattrs.nil_eq]
  · rintro rfl
    exact .refl _

end Node

/-! ## Pages of an inference -/

namespace Inference

variable {inference : Inference} {page : Page}

/-- Every mismatch of a page is reported in the end. -/
theorem mem_warnings_finish
    {mismatch : Mismatch} (hpage : page ∈ inference.finish.pages)
    (hmismatch : mismatch ∈ Finding.mismatches (page.findings inference.layout)) :
    .unmatchedNode page.pathname mismatch.message ∈ inference.finish.warnings := by
  obtain ⟨known, hknown, rfl⟩ := exists_of_mem_pages hpage
  refine List.mem_append_right _ (List.mem_flatMap.mpr ⟨known, hknown, ?_⟩)
  exact List.mem_map_of_mem hmismatch

/-- If nothing is reported, every page fits the layout. -/
theorem mismatches_of_silent
    (hpage : page ∈ inference.finish.pages) (hsilent : inference.finish.warnings = []) :
    Finding.mismatches (page.findings inference.layout) = [] := by
  apply List.eq_nil_iff_forall_not_mem.mpr
  intro mismatch hmismatch
  have hwarned := mem_warnings_finish hpage hmismatch
  rw [hsilent] at hwarned
  exact absurd hwarned List.not_mem_nil

section After

variable {anchor second : Document} {seen : List Document}

/-- Every page has the tree of a document as its source. -/
theorem exists_document_of_mem_pages
    (hpathnames : ((anchor :: second :: seen).map Document.pathname).Nodup)
    (hpage : page ∈ (after anchor second seen).finish.pages) :
    ∃ document ∈ anchor :: second :: seen, page.source = document.tree := by
  have hdocument : page.document ∈ (after anchor second seen).finish.pages.map Page.document :=
    List.mem_map_of_mem hpage
  rw [documents_finish_after hpathnames] at hdocument
  exact ⟨page.document, hdocument, rfl⟩

/-- A page comes back exactly if nothing was overlooked and every mismatch is harmless. -/
theorem resembles_after_iff
    (hpathnames : ((anchor :: second :: seen).map Document.pathname).Nodup)
    (hconcrete : ∀ document ∈ anchor :: second :: seen, Node.Concrete document.tree)
    (hclosed : ∀ document ∈ anchor :: second :: seen, .content ∉ Node.preorderList document.tree)
    (hpage : page ∈ (after anchor second seen).finish.pages) :
    Node.Resembles page.source (page.render (after anchor second seen).layout) ↔
      Node.Restored page.data (after anchor second seen).layout.tree page.source := by
  have hlayout := wellFormed_of_concrete hconcrete
  have hbody : Node.Everywhere (fun node => node.kind ≠ .content)
      (after anchor second seen).layout.tree := by
    refine inherits_after Node.hereditary_closed hconcrete fun document hdocument node hnode => ?_
    intro hkind
    cases node <;> simp [Node.kind] at hkind
    exact hclosed document hdocument hnode
  obtain ⟨document, hdocument, hsource⟩ := exists_document_of_mem_pages hpathnames hpage
  have hconcreteSource : Node.Concrete page.source := hsource ▸ hconcrete document hdocument
  obtain ⟨known, -, rfl⟩ := exists_of_mem_pages hpage
  exact known.resembles_render_iff (Node.everywhere_and.mpr ⟨hlayout.slots, hbody⟩)
    hlayout.references hconcreteSource

/-- Without attributes, a page comes back exactly if every mismatch is harmless. -/
theorem render_after_iff_of_bare
    (hpathnames : ((anchor :: second :: seen).map Document.pathname).Nodup)
    (hbare : ∀ document ∈ anchor :: second :: seen, Node.Everywhere Node.IsBare document.tree)
    (hpage : page ∈ (after anchor second seen).finish.pages) :
    page.render (after anchor second seen).layout = page.source ↔
      ∀ mismatch ∈ Finding.mismatches (page.findings (after anchor second seen).layout),
        mismatch.IsHarmless page.data := by
  have hconcrete : ∀ document ∈ anchor :: second :: seen, Node.Concrete document.tree :=
    fun document hdocument node hnode =>
      Node.isPlain_of_isBare (hbare document hdocument node hnode)
  have hclosed : ∀ document ∈ anchor :: second :: seen,
      .content ∉ Node.preorderList document.tree := fun document hdocument =>
    hbare document hdocument .content
  have hlacks : ∀ document ∈ anchor :: second :: seen,
      Node.Everywhere Node.LacksAttributes document.tree := fun document hdocument node hnode =>
    Node.lacksAttributes_of_isBare (hbare document hdocument node hnode)
  obtain ⟨document, hdocument, hsource⟩ := exists_document_of_mem_pages hpathnames hpage
  have hbareSource : Node.Everywhere Node.IsBare page.source := hsource ▸ hbare document hdocument
  have hlayout := inherits_after Node.hereditary_lacksAttributes hconcrete hlacks
  have hnone : Node.overlookedList (after anchor second seen).layout.tree page.source = [] :=
    (Node.overlooked_of_lacksAttributes hlayout).2 _ (hsource ▸ hlacks document hdocument)
  rw [← Node.resembles_iff_eq_of_bare hbareSource,
    resembles_after_iff hpathnames hconcrete hclosed hpage, Node.restored_iff]
  exact and_iff_left hnone

/-- A page that fits the layout comes back up to attributes and the values of comments. -/
theorem outlineList_render_after
    (hpathnames : ((anchor :: second :: seen).map Document.pathname).Nodup)
    (hconcrete : ∀ document ∈ anchor :: second :: seen, Node.Concrete document.tree)
    (hclosed : ∀ document ∈ anchor :: second :: seen, .content ∉ Node.preorderList document.tree)
    (hpage : page ∈ (after anchor second seen).finish.pages)
    (hfits : Finding.mismatches (page.findings (after anchor second seen).layout) = []) :
    Node.outlineList (page.render (after anchor second seen).layout) =
      Node.outlineList page.source := by
  have hlayout := wellFormed_of_concrete hconcrete
  obtain ⟨document, hdocument, hsource⟩ := exists_document_of_mem_pages hpathnames hpage
  obtain ⟨known, -, rfl⟩ := exists_of_mem_pages hpage
  have hknown : Node.Concrete known.source := by
    rw [show known.source = document.tree from hsource]
    exact hconcrete document hdocument
  have hbody : .content ∉ Node.preorderList known.source := by
    rw [show known.source = document.tree from hsource]
    exact hclosed document hdocument
  have houtline := known.outlineList_render_of_fits hlayout hknown hfits
  rwa [Node.expandList_of_notMem _ hbody] at houtline

end After

end Inference

/-! ## Round trips -/

/-- Documents without attributes always have a layout with a page for each of them, in order.  A
document comes back exactly if every mismatch of its page is a variable without a value, so a
document that does not come back is reported. -/
theorem render_infer_iff_of_bare
    {documents : List Document} (name : String)
    (hmany : 2 ≤ documents.length)
    (hpathnames : (documents.map Document.pathname).Nodup)
    (hbare : ∀ document ∈ documents, Node.Everywhere Node.IsBare document.tree) :
    ∃ collection, Collection.infer name documents = .ok collection ∧
      collection.pages.map Page.document = documents ∧
      ∀ page ∈ collection.pages,
        (page.render collection.layout = page.source ↔
          ∀ mismatch ∈ Finding.mismatches (page.findings collection.layout),
            mismatch.IsHarmless page.data) ∧
        (page.render collection.layout ≠ page.source → ∃ mismatch : Mismatch,
          .unmatchedNode page.pathname mismatch.message ∈ collection.warnings) := by
  obtain _ | ⟨anchor, _ | ⟨second, rest⟩⟩ := documents
  · simp at hmany
  · simp at hmany
  refine ⟨_, Collection.infer_eq_after name anchor second rest,
    Inference.documents_finish_after hpathnames, fun page hpage => ?_⟩
  have hiff := Inference.render_after_iff_of_bare hpathnames hbare hpage
  refine ⟨hiff, fun hlost => ?_⟩
  by_contra hsilent
  refine hlost (hiff.mpr fun mismatch hmismatch => ?_)
  exact absurd ⟨mismatch, Inference.mem_warnings_finish hpage hmismatch⟩ hsilent

/-- A note that grows by a paragraph in the middle, and one with another text. -/
theorem render_infer_iff_of_three_notes :
    let note (pathname : String) (paragraphs : List String) : Document :=
      { pathname := pathname
        tree := [.element "main" [] (paragraphs.map fun text => .element "p" [] [.text text])] }
    let documents := [note "a.html" ["1", "3"], note "b.html" ["1", "2", "3"], note "c.html" ["4"]]
    (2 ≤ documents.length ∧ (documents.map Document.pathname).Nodup ∧
        ∀ document ∈ documents, Node.Everywhere Node.IsBare document.tree) ∧
      ∃ collection, Collection.infer "notes" documents = .ok collection ∧
        collection.pages.map Page.document = documents ∧
        ∀ page ∈ collection.pages,
          (page.render collection.layout = page.source ↔
            ∀ mismatch ∈ Finding.mismatches (page.findings collection.layout),
              mismatch.IsHarmless page.data) ∧
          (page.render collection.layout ≠ page.source → ∃ mismatch : Mismatch,
            .unmatchedNode page.pathname mismatch.message ∈ collection.warnings) := by
  intro note documents
  have hmany : 2 ≤ documents.length := by decide
  have hpathnames : (documents.map Document.pathname).Nodup := by decide
  have hbare : ∀ document ∈ documents, Node.Everywhere Node.IsBare document.tree := by decide
  exact ⟨⟨hmany, hpathnames, hbare⟩, render_infer_iff_of_bare "notes" hmany hpathnames hbare⟩

/-- Not every document without attributes comes back.  The comparison with `q` guards the `p` of the
anchor and the comparison with `p p` does not; the merge takes them for different nodes and keeps
both, so the `p` without a guard is on every page. -/
theorem not_render_infer_of_bare :
    let note (pathname : String) (names : List String) : Document :=
      { pathname := pathname, tree := names.map fun name => .element name [] [] }
    let documents := [note "a.html" ["p"], note "b.html" ["q"], note "c.html" ["p", "p"]]
    (2 ≤ documents.length ∧ (documents.map Document.pathname).Nodup ∧
        ∀ document ∈ documents, Node.Everywhere Node.IsBare document.tree) ∧
      ∃ collection, Collection.infer "notes" documents = .ok collection ∧
        ¬∀ page ∈ collection.pages, page.render collection.layout = page.source := by
  intro note documents
  refine ⟨⟨by decide, by decide, by decide⟩, _, Collection.infer_eq_after "notes" _ _ _, ?_⟩
  decide

/-- If nothing is reported about documents without a body, they come back up to attributes, and
up to the order of attributes and the values of comments exactly if their pages have no attribute
that projection overlooks. -/
theorem resembles_infer_iff_of_silent
    {documents : List Document} (name : String)
    (hmany : 2 ≤ documents.length)
    (hpathnames : (documents.map Document.pathname).Nodup)
    (hconcrete : ∀ document ∈ documents, Node.Concrete document.tree)
    (hclosed : ∀ document ∈ documents, .content ∉ Node.preorderList document.tree) :
    ∃ collection, Collection.infer name documents = .ok collection ∧
      collection.pages.map Page.document = documents ∧
      (collection.warnings = [] → ∀ page ∈ collection.pages,
        Node.outlineList (page.render collection.layout) = Node.outlineList page.source ∧
          (Node.Resembles page.source (page.render collection.layout) ↔
            Node.overlookedList collection.layout.tree page.source = [])) := by
  obtain _ | ⟨anchor, _ | ⟨second, rest⟩⟩ := documents
  · simp at hmany
  · simp at hmany
  refine ⟨_, Collection.infer_eq_after name anchor second rest,
    Inference.documents_finish_after hpathnames, fun hsilent page hpage => ?_⟩
  have hfits := Inference.mismatches_of_silent hpage hsilent
  have hiff := Inference.resembles_after_iff hpathnames hconcrete hclosed hpage
  refine ⟨Inference.outlineList_render_after hpathnames hconcrete hclosed hpage hfits, ?_⟩
  refine hiff.trans ⟨Node.Restored.overlooked, fun hnone => ⟨fun mismatch hmismatch => ?_, hnone⟩⟩
  rw [← Page.findings, hfits] at hmismatch
  exact absurd hmismatch List.not_mem_nil

/-- Articles with attributes in another order, a value that varies, and a paragraph that one
lacks. -/
theorem resembles_infer_of_three_articles :
    let article (pathname : String) (attrs : List Attribute) (nodes : List Node) : Document :=
      { pathname := pathname, tree := [.doctype "html", .element "main" attrs nodes] }
    let paragraph (text : String) : Node := .element "p" [.static "class" "x"] [.text text]
    let documents := [
      article "a.html" [.static "id" "a", .static "lang" "en"] [paragraph "1", paragraph "2"],
      article "b.html" [.static "lang" "en", .static "id" "b"] [paragraph "3", paragraph "4"],
      article "c.html" [.static "id" "c", .static "lang" "en"] [paragraph "5"]]
    (2 ≤ documents.length ∧ (documents.map Document.pathname).Nodup ∧
        (∀ document ∈ documents, Node.Concrete document.tree) ∧
        ∀ document ∈ documents, .content ∉ Node.preorderList document.tree) ∧
      ∃ collection, Collection.infer "articles" documents = .ok collection ∧
        collection.warnings = [] ∧
        ∀ page ∈ collection.pages,
          Node.outlineList (page.render collection.layout) = Node.outlineList page.source ∧
            Node.Resembles page.source (page.render collection.layout) := by
  intro article paragraph documents
  have hmany : 2 ≤ documents.length := by decide
  have hpathnames : (documents.map Document.pathname).Nodup := by decide
  have hconcrete : ∀ document ∈ documents, Node.Concrete document.tree := by decide
  have hclosed : ∀ document ∈ documents, .content ∉ Node.preorderList document.tree := by decide
  obtain ⟨collection, hinfer, -, hsilent⟩ :=
    resembles_infer_iff_of_silent "articles" hmany hpathnames hconcrete hclosed
  have hcomputed : (Collection.infer "articles" documents).map (fun collection =>
      (collection.warnings, collection.pages.map fun page =>
        Node.overlookedList collection.layout.tree page.source)) = .ok ([], [[], [], []]) := by
    decide
  rw [hinfer] at hcomputed
  obtain ⟨hwarnings, hoverlooked⟩ := Prod.mk.inj (Except.ok.inj hcomputed)
  refine ⟨⟨hmany, hpathnames, hconcrete, hclosed⟩, collection, hinfer, hwarnings, ?_⟩
  intro page hpage
  obtain ⟨houtline, hiff⟩ := hsilent hwarnings page hpage
  refine ⟨houtline, hiff.mpr ?_⟩
  have hmem := List.mem_map_of_mem (f := fun page =>
    Node.overlookedList collection.layout.tree page.source) hpage
  rw [hoverlooked] at hmem
  simpa using hmem

/-- A document can be lost without a warning.  The element that the anchor lacks has one value in
the second document and another in the third; the merge keeps the last one, and the projection
does not compare literals. -/
theorem not_resembles_infer_of_silent :
    let note (pathname : String) (tree : List Node) : Document := ⟨pathname, tree, []⟩
    let paragraph (style : String) : Node := .element "p" [.static "class" style] []
    let documents :=
      [note "a.html" [], note "b.html" [paragraph "1"], note "c.html" [paragraph "2"]]
    (2 ≤ documents.length ∧ (documents.map Document.pathname).Nodup ∧
        (∀ document ∈ documents, Node.Concrete document.tree) ∧
        ∀ document ∈ documents, .content ∉ Node.preorderList document.tree) ∧
      ∃ collection, Collection.infer "notes" documents = .ok collection ∧
        collection.warnings = [] ∧
        ¬∀ page ∈ collection.pages,
          Node.Resembles page.source (page.render collection.layout) := by
  intro note paragraph documents
  let collection :=
    (Inference.after (note "a.html" []) (note "b.html" [paragraph "1"])
      [note "c.html" [paragraph "2"]]).finish
  refine ⟨⟨by decide, by decide, by decide, by decide⟩, collection,
    Collection.infer_eq_after "notes" _ _ _, by decide, fun hresembles => ?_⟩
  have hrendered : collection.pages.map (fun page => (page.source, page.render collection.layout)) =
      [([], []), ([paragraph "1"], [paragraph "2"]), ([paragraph "2"], [paragraph "2"])] := by
    decide
  have hmem : ([paragraph "1"], [paragraph "2"]) ∈
      collection.pages.map fun page => (page.source, page.render collection.layout) := by
    rw [hrendered]
    decide
  obtain ⟨page, hpage, heq⟩ := List.mem_map.mp hmem
  obtain ⟨hsource, hrender⟩ := Prod.mk.inj heq
  have hlost := hresembles page hpage
  rw [hsource, hrender, Node.resembles_element_iff] at hlost
  exact absurd hlost.1 (by decide)

end Stencil
