import Stencil.Proofs.Document.Projection

/-!
# Rendering what was compared

If a comparison dropped no attribute, both pages can be rendered back from the common tree
(`render_difference`).  The tree and the order of attributes are those of the anchor, so the other
document comes back up to the order of attributes, and with the comments of the anchor where both
have one.
-/

namespace Stencil

/-! ## Trees up to comments and the order of attributes -/

/-- The trees are equal up to the order of attributes inside an element and the values of
comments. -/
inductive Node.Resembles : List Node → List Node → Prop
  | nil : Resembles [] []
  | same (node : Node) {as bs : List Node} (hrest : Resembles as bs) :
      Resembles (node :: as) (node :: bs)
  | comment (value other : String) {as bs : List Node} (hrest : Resembles as bs) :
      Resembles (.comment value :: as) (.comment other :: bs)
  | element (name : String) {attrs other : List Attribute}
      {children otherChildren as bs : List Node}
      (hattrs : attrs.Perm other) (hchildren : Resembles children otherChildren)
      (hrest : Resembles as bs) :
      Resembles (.element name attrs children :: as) (.element name other otherChildren :: bs)

namespace Node

section Resembles

variable {a b : Node} {as bs : List Node}

theorem Resembles.refl (nodes : List Node) : Resembles nodes nodes := by
  induction nodes with
  | nil => exact .nil
  | cons node nodes ih => exact .same node ih

theorem Resembles.length_eq (h : Resembles as bs) : as.length = bs.length := by
  induction h with
  | nil => rfl
  | same _ _ ih | comment _ _ _ ih | element _ _ _ _ _ ih => exact congrArg (· + 1) ih

theorem resembles_cons_iff :
    Resembles (a :: as) (b :: bs) ↔ Resembles [a] [b] ∧ Resembles as bs := by
  constructor
  · rintro (_ | ⟨_, hrest⟩ | ⟨_, _, hrest⟩ | ⟨_, hattrs, hchildren, hrest⟩)
    · exact ⟨.refl [a], hrest⟩
    · exact ⟨.comment _ _ .nil, hrest⟩
    · exact ⟨.element _ hattrs hchildren .nil, hrest⟩
  · rintro ⟨_ | _ | _ | ⟨_, hattrs, hchildren, _⟩, hrest⟩
    · exact .same a hrest
    · exact .comment _ _ hrest
    · exact .element _ hattrs hchildren hrest

theorem resembles_element_iff
    {name : String} {attrs other : List Attribute} {children otherChildren : List Node} :
    Resembles [.element name attrs children] [.element name other otherChildren] ↔
      attrs.Perm other ∧ Resembles children otherChildren := by
  constructor
  · rintro (_ | _ | _ | ⟨_, hattrs, hchildren, _⟩)
    · exact ⟨List.Perm.refl _, .refl _⟩
    · exact ⟨hattrs, hchildren⟩
  · rintro ⟨hattrs, hchildren⟩
    exact .element name hattrs hchildren .nil

end Resembles

end Node

namespace Comparison

/-! ## Notes without warnings -/

@[simp] theorem warnings_append (notes more : List Note) :
    warnings (notes ++ more) = warnings notes ++ warnings more :=
  List.filterMap_append

@[simp] theorem warnings_map_warning (found : List Warning) :
    warnings (found.map .warning) = found := by
  simp [warnings]

/-- Taking the shared attributes is not what reports the dropped ones. -/
theorem Shares.warnings_eq_nil
    {n : Nat} {other attrs shared : List Attribute} {notes : List Note}
    (h : Shares other n attrs shared notes) :
    warnings notes = [] := by
  induction h with
  | nil => rfl
  | drop _ _ ih | keep _ _ ih | var _ _ _ ih => exact ih

@[simp] theorem noteEntries_placeholder
    (side : Side) (reference : String) (anchor other : Value) (notes : List Note) :
    noteEntries side (.placeholder reference anchor other :: notes) =
      (reference, side.pick anchor other) :: noteEntries side notes :=
  rfl

@[simp] theorem noteEntries_append (side : Side) (notes more : List Note) :
    noteEntries side (notes ++ more) = noteEntries side notes ++ noteEntries side more := by
  simp [noteEntries, Finding.entries]

/-- The scope holds every value that the notes record for the side. -/
def Holds (scope : Record) (side : Side) (notes : List Note) : Prop :=
  scope.Agrees (noteEntries side notes)

section Holds

variable {scope : Record} {side : Side} {notes more : List Note}

theorem holds_placeholder {reference : String} {anchor other : Value} :
    Holds scope side (.placeholder reference anchor other :: notes) ↔
      scope.get? reference = some (side.pick anchor other) ∧ Holds scope side notes := by
  simp [Holds]

theorem holds_append :
    Holds scope side (notes ++ more) ↔ Holds scope side notes ∧ Holds scope side more := by
  simp only [Holds, noteEntries_append, Record.agrees_append]

/-- The record of a side holds its values, as references are distinct. -/
theorem holds_ofEntries (hdistinct : (noteReferences notes).Nodup) :
    Holds (.ofEntries (noteEntries side notes)) side notes := by
  apply Record.agrees_ofEntries
  rwa [references_noteEntries]

end Holds

/-! ## Rendering one side -/

/-- The shared attributes are rendered to those of the side. -/
theorem Shares.filterMap_render?
    {other attrs shared : List Attribute} {n : Nat} {notes : List Note}
    {scope : Record} {side : Side}
    (h : Shares other n attrs shared notes) (hscope : Holds scope side notes) :
    shared.filterMap (Attribute.render? scope) =
      attrs.filterMap fun attr => (Attribute.named? other attr.name).map (side.pick attr) := by
  induction h with
  | nil => rfl
  | drop hnone _ ih => simpa [hnone] using ih hscope
  | @keep _ name value _ _ _ hsame _ ih =>
      have hpartner : Attribute.named? other (Attribute.static name value).name =
          some (.static name value) := hsame
      have hrender : Attribute.render? scope (.static name value) = some (.static name value) := rfl
      rw [List.filterMap_cons, List.filterMap_cons, hpartner, hrender, ih hscope]
      simp
  | @var n name v w _ _ _ hother _ _ ih =>
      obtain ⟨hvalue, hrest⟩ := holds_placeholder.mp hscope
      rw [side.pick_map Value.text] at hvalue
      have hpartner : Attribute.named? other (Attribute.static name v).name =
          some (.static name w) := hother
      have hrender : Attribute.render? scope ⟨name, .var (attrReference (n + 1))⟩ =
          some (.static name (side.pick v w)) := by
        simp [Attribute.render?, Record.text?, hvalue, Value.text?]
      rw [List.filterMap_cons, List.filterMap_cons, hpartner, hrender, ih hrest,
        Option.map_some, side.pick_map (Attribute.static name)]

/-- If nothing was dropped, the anchor gets its attributes back as they are. -/
theorem Shares.filterMap_render?_anchor
    {element : String} {other attrs shared : List Attribute} {n : Nat} {notes : List Note}
    {scope : Record}
    (h : Shares other n attrs shared notes)
    (hattrs : Attribute.Static attrs) (hother : Attribute.Static other)
    (hkept : (Attribute.pairing attrs other).warnings element = [])
    (hscope : Holds scope .first notes) :
    shared.filterMap (Attribute.render? scope) = attrs := by
  obtain ⟨hfound, -⟩ := (Attribute.warnings_pairing_eq_nil_iff hattrs.2 hother.2).mp hkept
  rw [h.filterMap_render? hscope]
  calc
    attrs.filterMap (fun attr => (Attribute.named? other attr.name).map (Side.first.pick attr)) =
        attrs.filterMap some := by
      apply List.filterMap_congr
      intro attr hattr
      obtain ⟨partner, hpartner⟩ := Option.isSome_iff_exists.mp (hfound attr hattr)
      rw [hpartner]
      rfl
    _ = attrs := List.filterMap_some

/-- If nothing was dropped, the other element gets its attributes back in another order. -/
theorem Shares.filterMap_render?_other
    {element : String} {other attrs shared : List Attribute} {n : Nat} {notes : List Note}
    {scope : Record}
    (h : Shares other n attrs shared notes)
    (hattrs : Attribute.Static attrs) (hother : Attribute.Static other)
    (hkept : (Attribute.pairing attrs other).warnings element = [])
    (hscope : Holds scope .second notes) :
    other.Perm (shared.filterMap (Attribute.render? scope)) := by
  have hpick : ∀ attr : Attribute, (Attribute.named? other attr.name).map (Side.second.pick attr) =
      Attribute.named? other attr.name := by
    intro attr
    cases Attribute.named? other attr.name <;> rfl
  rw [h.filterMap_render? hscope]
  simp only [hpick]
  exact (Attribute.partners_perm hattrs.2 hother.2 hkept).symm

/-- If nothing was dropped, the common tree with the values of the anchor is the anchor. -/
theorem Converges.renderList_anchor
    {position : Position} {anchor other nodes : List Node} {notes : List Note}
    {scope : Record} (content : List Node)
    (h : Converges position anchor other nodes notes)
    (hkept : warnings notes = []) (hscope : Holds scope .first notes) :
    Node.renderList content scope nodes = Node.expandList content anchor := by
  induction h with
  | nil => rfl
  | keep hkeeps _ ih =>
      rw [Node.renderList, Node.expandList, ih hkept hscope]
      cases hkeeps <;> rfl
  | var _ _ ih =>
      obtain ⟨hvalue, hrest⟩ := holds_placeholder.mp hscope
      rw [Node.renderList, Node.expandList, ih hkept hrest]
      simp [Node.render, Record.text?, hvalue, Value.text?, Node.expand, Side.pick]
  | element hattrs hother hshared _ _ ihInside ih =>
      simp only [warnings_append, warnings_map_warning, List.append_eq_nil_iff] at hkept
      simp only [holds_append] at hscope
      rw [Node.renderList, Node.expandList, Node.render, Node.expand,
        hshared.filterMap_render?_anchor hattrs hother hkept.1.1.2 hscope.1.1.1,
        ihInside hkept.1.2 hscope.1.2, ih hkept.2 hscope.2]
  | lone hconcrete _ _ ih =>
      obtain ⟨hvalue, hrest⟩ := holds_placeholder.mp hscope
      rw [Node.renderList, Node.expandList, ih hkept hrest, Node.render]
      simp [hvalue, Side.pick, Value.isTruthy, Node.render_of_concrete hconcrete]
  | extra _ _ _ ih =>
      obtain ⟨hvalue, hrest⟩ := holds_placeholder.mp hscope
      rw [Node.renderList, ih hkept hrest]
      simp [Node.render, hvalue, Side.pick, Value.isTruthy]

/-- If nothing was dropped, the common tree with the values of the other document resembles it. -/
theorem Converges.renderList_other
    {position : Position} {anchor other nodes : List Node} {notes : List Note}
    {scope : Record} (content : List Node)
    (h : Converges position anchor other nodes notes)
    (hkept : warnings notes = []) (hscope : Holds scope .second notes) :
    ∃ tree, Node.Resembles other tree ∧
      Node.renderList content scope nodes = Node.expandList content tree := by
  induction h with
  | nil => exact ⟨[], .nil, rfl⟩
  | keep hkeeps _ ih =>
      obtain ⟨tree, hresembles, hrender⟩ := ih hkept hscope
      cases hkeeps with
      | comment value other =>
          refine ⟨.comment value :: tree, .comment other value hresembles, ?_⟩
          rw [Node.renderList, Node.expandList, hrender]
          rfl
      | doctype | text | content =>
          refine ⟨_ :: tree, .same _ hresembles, ?_⟩
          rw [Node.renderList, Node.expandList, hrender]
          rfl
  | @var _ _ w _ _ _ _ _ _ ih =>
      obtain ⟨hvalue, hrest⟩ := holds_placeholder.mp hscope
      obtain ⟨tree, hresembles, hrender⟩ := ih hkept hrest
      refine ⟨.text w :: tree, .same _ hresembles, ?_⟩
      rw [Node.renderList, Node.expandList, hrender]
      simp [Node.render, Record.text?, hvalue, Value.text?, Node.expand, Side.pick]
  | element hattrs hother hshared _ _ ihInside ih =>
      simp only [warnings_append, warnings_map_warning, List.append_eq_nil_iff] at hkept
      simp only [holds_append] at hscope
      obtain ⟨children, hchildren, hinside⟩ := ihInside hkept.1.2 hscope.1.2
      obtain ⟨tree, hresembles, hrender⟩ := ih hkept.2 hscope.2
      have hperm := hshared.filterMap_render?_other hattrs hother hkept.1.1.2 hscope.1.1.1
      refine ⟨_ :: tree, .element _ hperm hchildren hresembles, ?_⟩
      rw [Node.renderList, Node.expandList, Node.render, Node.expand, hinside, hrender]
  | lone _ _ _ ih =>
      obtain ⟨hvalue, hrest⟩ := holds_placeholder.mp hscope
      obtain ⟨tree, hresembles, hrender⟩ := ih hkept hrest
      refine ⟨tree, hresembles, ?_⟩
      rw [Node.renderList, hrender]
      simp [Node.render, hvalue, Side.pick, Value.isTruthy]
  | extra hconcrete _ _ ih =>
      obtain ⟨hvalue, hrest⟩ := holds_placeholder.mp hscope
      obtain ⟨tree, hresembles, hrender⟩ := ih hkept hrest
      refine ⟨_ :: tree, .same _ hresembles, ?_⟩
      rw [Node.renderList, Node.expandList, hrender, Node.render]
      simp [hvalue, Side.pick, Value.isTruthy, Node.render_of_concrete hconcrete]

end Comparison

/-! ## Both pages come back -/

theorem holds_difference
    {anchor other : Document}
    (hanchor : Node.Concrete anchor.tree) (hother : Node.Concrete other.tree) (side : Side) :
    Comparison.Holds ((anchor.difference other).page side).data side
      (Comparison.compareTrees anchor.tree other.tree).notes := by
  rw [data_difference]
  apply Comparison.holds_ofEntries
  rw [← (Comparison.converges_compareTrees hanchor hother).referencesList_eq]
  exact Comparison.references_compareTrees_nodup hanchor hother

/-- If a comparison dropped nothing, the layout with the values of the anchor is the anchor, and
with the values of the other document it is that document, up to the order of attributes and the
values of comments.  In both, the body stands in place of every content node. -/
theorem render_difference
    {anchor other : Document}
    (hanchor : Node.Concrete anchor.tree) (hother : Node.Concrete other.tree)
    (hkept : (anchor.difference other).warnings = []) :
    let compared := anchor.difference other
    compared.anchor.render compared.layout = Node.expandList anchor.content anchor.tree ∧
      ∃ tree, Node.Resembles other.tree tree ∧
        compared.other.render compared.layout = Node.expandList other.content tree := by
  intro compared
  have hconverges := Comparison.converges_compareTrees hanchor hother
  have hlayout : compared.layout = compared.base := difference_layout_eq_base hanchor hother
  rw [hlayout]
  constructor
  · exact hconverges.renderList_anchor anchor.content hkept
      (holds_difference hanchor hother .first)
  · exact hconverges.renderList_other other.content hkept
      (holds_difference hanchor hother .second)

/-- Attributes in another order, another comment, a node on either side, and a body. -/
theorem render_difference_of_reordered_attributes :
    let anchor : Document :=
      { pathname := "a.html"
        tree := [.comment "one", .element "main" [.static "class" "x", .static "id" "m"]
          [.element "h1" [] [.text "A"], .content]]
        content := [.text "body"] }
    let other : Document :=
      { pathname := "b.html"
        tree := [.comment "two", .element "main" [.static "id" "m", .static "class" "y"]
          [.element "h1" [] [.text "B"]], .element "footer" [] []] }
    (Node.Concrete anchor.tree ∧ Node.Concrete other.tree ∧
      (anchor.difference other).warnings = []) ∧
      (anchor.difference other).anchor.render (anchor.difference other).layout =
        Node.expandList anchor.content anchor.tree ∧
      ∃ tree, Node.Resembles other.tree tree ∧
        (anchor.difference other).other.render (anchor.difference other).layout =
          Node.expandList other.content tree := by
  intro anchor other
  have hanchor : Node.Concrete anchor.tree := by decide
  have hother : Node.Concrete other.tree := by decide
  have hkept : (anchor.difference other).warnings = [] := by decide
  exact ⟨⟨hanchor, hother, hkept⟩, render_difference hanchor hother hkept⟩

end Stencil
