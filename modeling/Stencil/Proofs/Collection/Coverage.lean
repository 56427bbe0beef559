import Stencil.Proofs.Collection.WellFormed
import Stencil.Proofs.Layout.Coverage

/-!
# Inferred layouts cover their documents

The layout of a comparison covers both documents, and every later step merges and renames; so no
step takes away a slot that a document needs, and in the end the layout covers every tree that it
was inferred from (`covers_of_infer`).  On the way only dropped attributes are reported, so if no
such warning is left the slots of elements have the attribute names of the elements.
-/

namespace Stencil

/-! ## What is reported on the way -/

/-- Every warning is about a dropped attribute. -/
def OnlyDrops (warnings : List Warning) : Prop :=
  ∀ warning ∈ warnings, ∃ element name side, warning = .unresolvedAttribute element name side

section OnlyDrops

variable {found more : List Warning}

theorem onlyDrops_append : OnlyDrops (found ++ more) ↔ OnlyDrops found ∧ OnlyDrops more :=
  List.forall_mem_append

theorem OnlyDrops.eq_nil
    (h : OnlyDrops found)
    (hnone : ∀ element name side, Warning.unresolvedAttribute element name side ∉ found) :
    found = [] := by
  apply List.eq_nil_iff_forall_not_mem.mpr
  intro warning hwarning
  obtain ⟨element, name, side, rfl⟩ := h warning hwarning
  exact hnone element name side hwarning

theorem Attribute.onlyDrops_pairing (pairing : Pairing) (element : String) :
    OnlyDrops (pairing.warnings element) := by
  apply onlyDrops_append.mpr
  constructor
  · intro warning hwarning
    obtain ⟨⟨attr, partner⟩, -, rfl⟩ := List.mem_map.mp hwarning
    exact ⟨element, attr.name, .first, rfl⟩
  · intro warning hwarning
    obtain ⟨attr, -, rfl⟩ := List.mem_map.mp hwarning
    exact ⟨element, attr.name, .second, rfl⟩

theorem Node.Merges.onlyDrops
    {first second merged : List Node} (h : Merges first second merged found) :
    OnlyDrops found := by
  induction h with
  | nil => exact List.forall_mem_nil _
  | element _ _ _ _ ihInside ih =>
      exact onlyDrops_append.mpr
        ⟨onlyDrops_append.mpr ⟨Attribute.onlyDrops_pairing _ _, ihInside⟩, ih⟩
  | absorb _ _ _ ih | first _ _ ih | second _ _ ih => exact ih

end OnlyDrops

namespace Comparison

theorem Converges.onlyDrops
    {position : Position} {anchor other nodes : List Node} {notes : List Note}
    (h : Converges position anchor other nodes notes) :
    OnlyDrops (warnings notes) := by
  induction h with
  | nil => exact List.forall_mem_nil _
  | element _ _ hshared _ _ ihInside ih =>
      simp only [warnings_append, warnings_map_warning, hshared.warnings_eq_nil, List.nil_append]
      exact onlyDrops_append.mpr
        ⟨onlyDrops_append.mpr ⟨Attribute.onlyDrops_pairing _ _, ihInside⟩, ih⟩
  | keep _ _ ih | var _ _ ih | lone _ _ _ ih | extra _ _ _ ih => exact ih

end Comparison

/-! ## The run of an inference -/

theorem onlyDrops_difference
    {anchor other : Document}
    (hanchor : Node.Concrete anchor.tree) (hother : Node.Concrete other.tree) :
    OnlyDrops (anchor.difference other).warnings :=
  (Comparison.converges_compareTrees hanchor hother).onlyDrops

theorem covers_difference
    {exact : Bool} {anchor other : Document}
    (hanchor : Node.Concrete anchor.tree) (hother : Node.Concrete other.tree)
    (hkept : exact = true → (anchor.difference other).warnings = []) :
    Node.CoversList exact (anchor.difference other).layout.tree anchor.tree ∧
      Node.CoversList exact (anchor.difference other).layout.tree other.tree := by
  rw [difference_layout_eq_base hanchor hother]
  exact (Comparison.converges_compareTrees hanchor hother).covers hkept

/-- Taking in another layout keeps what is covered, and adds what the other covers. -/
theorem Layout.covers_merge
    {exact : Bool} {layout other : Layout}
    (h : layout.WellFormed) (hother : other.WellFormed)
    (hkept : exact = true → (layout.merge other).notes = []) :
    (∀ nodes, Node.CoversList exact layout.tree nodes →
        Node.CoversList exact (layout.merge other).value.normalized.tree nodes) ∧
      ∀ nodes, Node.CoversList exact other.tree nodes →
        Node.CoversList exact (layout.merge other).value.normalized.tree nodes := by
  have hmerges := Node.merges_align layout.tree other.tree
  have hrenames := renames_normalized (layout.merge other).value
  obtain ⟨hfirst, hsecond⟩ := hmerges.covers h.slots hother.slots hkept
  exact ⟨fun nodes h => hrenames.covers (hfirst nodes h),
    fun nodes h => hrenames.covers (hsecond nodes h)⟩

namespace Inference

section Run

variable {anchor second : Document} {seen : List Document}

theorem onlyDrops_after
    (hanchor : Node.Concrete anchor.tree) (hsecond : Node.Concrete second.tree)
    (hseen : ∀ document ∈ seen, Node.Concrete document.tree) :
    OnlyDrops (after anchor second seen).warnings := by
  induction seen using List.reverseRecOn with
  | nil => exact onlyDrops_difference hanchor hsecond
  | append_singleton seen document ih =>
      obtain ⟨hknown, hdocument⟩ := List.forall_mem_append.mp hseen
      rw [after_concat]
      have hnext := onlyDrops_difference hanchor (hdocument document (by simp))
      exact onlyDrops_append.mpr
        ⟨onlyDrops_append.mpr ⟨ih hknown, hnext⟩, (Node.merges_align _ _).onlyDrops⟩

/-- Whatever has been seen is covered. -/
theorem covers_after
    {exact : Bool}
    (hanchor : Node.Concrete anchor.tree) (hsecond : Node.Concrete second.tree)
    (hseen : ∀ document ∈ seen, Node.Concrete document.tree)
    (hkept : exact = true → (after anchor second seen).warnings = []) :
    ∀ document ∈ anchor :: second :: seen,
      Node.CoversList exact (after anchor second seen).layout.tree document.tree := by
  induction seen using List.reverseRecOn with
  | nil =>
      obtain ⟨hcoversAnchor, hcoversSecond⟩ := covers_difference hanchor hsecond hkept
      simpa [after] using ⟨hcoversAnchor, hcoversSecond⟩
  | append_singleton seen document ih =>
      obtain ⟨hknown, hdocument⟩ := List.forall_mem_append.mp hseen
      have hnew : Node.Concrete document.tree := hdocument document (by simp)
      rw [after_concat] at hkept ⊢
      simp only [add, List.append_eq_nil_iff] at hkept
      -- The merge keeps what is covered already; the comparison covers the new document.
      obtain ⟨hmergedFirst, hmergedSecond⟩ :=
        Layout.covers_merge (wellFormed_after hanchor hsecond hknown)
          (difference_wellFormed hanchor hnew) fun hexact => (hkept hexact).2
      have hcovers := ih hknown fun hexact => (hkept hexact).1.1
      have hlast := (covers_difference hanchor hnew fun hexact => (hkept hexact).1.2).2
      intro other hother
      rw [← List.cons_append, ← List.cons_append, List.mem_append, List.mem_singleton] at hother
      rcases hother with hother | rfl
      · exact hmergedFirst _ (hcovers other hother)
      · exact hmergedSecond _ hlast

end Run

end Inference

/-- Two or more documents always have a layout that covers them all.  If no attribute is reported as
dropped, the slots of elements have the attribute names of the elements that they are for. -/
theorem covers_of_infer
    {documents : List Document} (name : String)
    (hmany : 2 ≤ documents.length)
    (hconcrete : ∀ document ∈ documents, Node.Concrete document.tree) :
    ∃ collection, Collection.infer name documents = .ok collection ∧
      ∀ document ∈ documents,
        Node.CoversList false collection.layout.tree document.tree ∧
          ((∀ element attr side,
              Warning.unresolvedAttribute element attr side ∉ collection.warnings) →
            Node.CoversList true collection.layout.tree document.tree) := by
  obtain _ | ⟨anchor, _ | ⟨second, rest⟩⟩ := documents
  · simp at hmany
  · simp at hmany
  · obtain ⟨hanchor, hsecond, hrest⟩ := by simpa only [List.forall_mem_cons] using hconcrete
    refine ⟨_, Collection.infer_eq_after name anchor second rest, fun document hdocument => ?_⟩
    constructor
    · exact Inference.covers_after hanchor hsecond hrest (by simp) document hdocument
    · intro hnone
      have hkept : (Inference.after anchor second rest).warnings = [] := by
        apply (Inference.onlyDrops_after hanchor hsecond hrest).eq_nil
        exact fun element attr side hmem =>
          hnone element attr side (List.mem_append_left _ hmem)
      exact Inference.covers_after hanchor hsecond hrest (fun _ => hkept) document hdocument

/-- A list that grows and shrinks, with an attribute that varies. -/
theorem covers_of_infer_of_three_lists :
    let list (pathname style : String) (items : List Node) : Document :=
      { pathname := pathname, tree := [.element "ul" [.static "class" style] items] }
    let item (text : String) : Node := .element "li" [] [.text text]
    let documents := [list "a.html" "x" [item "1", .element "hr" [] []],
      list "b.html" "y" [item "1", item "2"], list "c.html" "x" [.text "none", item "1"]]
    (2 ≤ documents.length ∧ ∀ document ∈ documents, Node.Concrete document.tree) ∧
      ∃ collection, Collection.infer "lists" documents = .ok collection ∧
        ∀ document ∈ documents, Node.CoversList true collection.layout.tree document.tree := by
  intro list item documents
  have hmany : 2 ≤ documents.length := by decide
  have hconcrete : ∀ document ∈ documents, Node.Concrete document.tree := by decide
  obtain ⟨collection, hinfer, hcovers⟩ := covers_of_infer "lists" hmany hconcrete
  have hwarnings : collection.warnings = [] := by
    have hnone : (Collection.infer "lists" documents).map Collection.warnings = .ok [] := by decide
    rw [hinfer] at hnone
    exact Except.ok.inj hnone
  refine ⟨⟨hmany, hconcrete⟩, collection, hinfer, fun document hdocument => ?_⟩
  exact (hcovers document hdocument).2 (by simp [hwarnings])

end Stencil
