import Stencil.Proofs.Layout.Normal
import Stencil.Proofs.Page.Findings
import Stencil.Proofs.Record

/-!
# Layouts filled by a page

`Node.Filled` says, without reference to any record, what it means that a list of slots is filled
by a list of concrete nodes: every node is taken by one slot, in order, and every slot gives its
part of the filled tree.  A projection without warnings is such a filling, and rendering the
projected page gives the filled tree (`render_project`).  It follows that the values stored earlier
play no part: they are only looked up under conditionals that do not show.
-/

namespace Stencil

/-! ## Regular layouts -/

namespace Node

/-- The attribute names of an element are distinct. -/
def DistinctNames : Node → Prop
  | .element _ attrs _ => (attrs.map Attribute.name).Nodup
  | _ => True

instance : DecidablePred DistinctNames
  | .element _ attrs _ => inferInstanceAs (Decidable (attrs.map Attribute.name).Nodup)
  | .doctype _ | .text _ | .comment _ | .var _ | .conditional .. | .content | .markdown _
  | .loop .. => isTrue trivial

/-- The child of a conditional and the template of a loop are not conditionals. -/
def FlatGuard : Node → Prop
  | .conditional _ child => child.kind ≠ .conditional
  | .loop _ template => template.kind ≠ .conditional
  | _ => True

instance : DecidablePred FlatGuard
  | .conditional _ child => inferInstanceAs (Decidable (child.kind ≠ .conditional))
  | .loop _ template => inferInstanceAs (Decidable (template.kind ≠ .conditional))
  | .doctype _ | .element .. | .text _ | .comment _ | .var _ | .content | .markdown _ =>
    isTrue trivial

end Node

/-- References are distinct in every namespace, attribute names are distinct in every element, and
guards are not nested directly. -/
structure Layout.Regular (layout : Layout) : Prop extends layout.DistinctReferences where
  names : Node.Everywhere Node.DistinctNames layout.tree
  guards : Node.Everywhere Node.FlatGuard layout.tree

/-! ## The filled tree -/

namespace Attribute

/-- `FilledBy declared concrete filled`: the attributes of a layout element, filled by those of an
element of the page, become `filled`. -/
structure FilledBy (declared concrete filled : List Attribute) : Prop where
  /-- A placeholder has the presence and the value of the page's attribute. -/
  placeholders : ∀ attr ∈ declared, attr.value.isPlaceholder = true →
    ∀ value, static attr.name value ∈ filled ↔ static attr.name value ∈ concrete
  /-- A literal attribute is kept. -/
  literals : ∀ attr ∈ declared, attr.value.isPlaceholder = false → attr ∈ filled
  /-- Nothing else comes in, and the order is kept. -/
  order : (filled.map Attribute.name).Sublist (declared.map Attribute.name)

end Attribute

/-- `Filled content slots nodes filled`: the slots are filled by the concrete nodes, each taken by
one slot and in order, and become `filled` with the given body. -/
inductive Node.Filled (content : List Node) : List Node → List Node → List Node → Prop
  | nil : Filled content [] [] []
  | doctype (value : String) {slots nodes filled : List Node}
      (hrest : Filled content slots nodes filled) :
      Filled content (.doctype value :: slots) (.doctype value :: nodes) (.doctype value :: filled)
  | text (value : String) {slots nodes filled : List Node}
      (hrest : Filled content slots nodes filled) :
      Filled content (.text value :: slots) (.text value :: nodes) (.text value :: filled)
  | comment (value other : String) {slots nodes filled : List Node}
      (hrest : Filled content slots nodes filled) :
      Filled content (.comment value :: slots) (.comment other :: nodes) (.comment value :: filled)
  | content {slots nodes filled : List Node} (hrest : Filled content slots nodes filled) :
      Filled content (.content :: slots) (.content :: nodes) (content ++ filled)
  | var (reference value : String) {slots nodes filled : List Node}
      (hrest : Filled content slots nodes filled) :
      Filled content (.var reference :: slots) (.text value :: nodes) (.text value :: filled)
  | markdown (reference value : String) {slots nodes filled : List Node}
      (hrest : Filled content slots nodes filled) :
      Filled content (.markdown reference :: slots) (.text value :: nodes) (.text value :: filled)
  | element (name : String) {declared concrete rendered : List Attribute}
      {inner children merged slots nodes filled : List Node}
      (hattrs : Attribute.FilledBy declared concrete rendered)
      (hinside : Filled content inner children merged)
      (hrest : Filled content slots nodes filled) :
      Filled content (.element name declared inner :: slots)
        (.element name concrete children :: nodes) (.element name rendered merged :: filled)
  | absent (reference : String) (child : Node) {slots nodes filled : List Node}
      (hrest : Filled content slots nodes filled) :
      Filled content (.conditional reference child :: slots) nodes filled
  | present (reference : String) {child node : Node} {shown slots nodes filled : List Node}
      (hchild : Filled content [child] [node] shown)
      (hrest : Filled content slots nodes filled) :
      Filled content (.conditional reference child :: slots) (node :: nodes) (shown ++ filled)
  | finish (reference : String) (template : Node) {slots nodes filled : List Node}
      (hrest : Filled content slots nodes filled) :
      Filled content (.loop reference template :: slots) nodes filled
  | repeat (reference : String) {template node : Node} {shown slots nodes filled : List Node}
      (hitem : Filled content [template] [node] shown)
      (hrest : Filled content (.loop reference template :: slots) nodes filled) :
      Filled content (.loop reference template :: slots) (node :: nodes) (shown ++ filled)

/-! ## Outlines -/

namespace Node

mutual

/-- The node without attributes and comment values. -/
def outline : Node → Node
  | .element name _ children => .element name [] (outlineList children)
  | .comment _ => .comment ""
  | .conditional reference child => .conditional reference (outline child)
  | .loop reference template => .loop reference (outline template)
  | .doctype value => .doctype value
  | .text value => .text value
  | .var reference => .var reference
  | .content => .content
  | .markdown reference => .markdown reference

/-- The tree without attributes and comment values. -/
def outlineList : List Node → List Node
  | [] => []
  | node :: nodes => outline node :: outlineList nodes

end

theorem outlineList_append (nodes more : List Node) :
    outlineList (nodes ++ more) = outlineList nodes ++ outlineList more := by
  induction nodes with
  | nil => rfl
  | cons node nodes ih => exact congrArg (outline node :: ·) ih

/-- A filled tree has the outline of the concrete one, with the body put in. -/
theorem Filled.outlineList_eq
    {content slots nodes filled : List Node} (h : Filled content slots nodes filled) :
    outlineList filled = outlineList (expandList content nodes) := by
  induction h with
  | nil => rfl
  | doctype _ _ ih | text _ _ ih | var _ _ _ ih | markdown _ _ _ ih =>
      exact congrArg (_ :: ·) ih
  | comment _ _ _ ih => exact congrArg (Node.comment "" :: ·) ih
  | content _ ih => rw [expandList, expand, outlineList_append, outlineList_append, ih]
  | element name _ _ _ ihInside ih =>
      rw [expandList, expand, outlineList_append, outlineList, outline, ih, ihInside]
      rfl
  | absent _ _ _ ih | finish _ _ _ ih => exact ih
  | present _ _ _ ihChild ih | «repeat» _ _ _ ihChild ih =>
      rw [outlineList_append, ihChild, ih, ← outlineList_append]
      simp [expandList]

end Node

/-! ## Filled attributes -/

namespace Attribute

/-- The declared attributes, with the presence and the values of the concrete ones in place of
placeholders. -/
def fill (declared concrete : List Attribute) : List Attribute :=
  declared.filterMap fun attr =>
    if attr.value.isPlaceholder then (lastLiteral? concrete attr.name).map (static attr.name)
    else some attr

theorem filledBy_fill
    {declared concrete : List Attribute}
    (hnames : (declared.map Attribute.name).Nodup) (hconcrete : Static concrete) :
    FilledBy declared concrete (fill declared concrete) where
  placeholders := by
    intro attr hattr hplaceholder value
    rw [fill, List.mem_filterMap]
    constructor
    · rintro ⟨other, hother, hfilled⟩
      split_ifs at hfilled with hfill
      · obtain ⟨found, hfound, heq⟩ := Option.map_eq_some_iff.mp hfilled
        obtain ⟨hname, hvalue⟩ : other.name = attr.name ∧ found = value := by
          simpa [static] using heq
        exact (lastLiteral?_eq_some_iff hconcrete).mp (hname ▸ hvalue ▸ hfound)
      · have hname : other.name = attr.name := by
          rw [Option.some.inj hfilled]
          rfl
        exact absurd (eq_of_name_eq hnames hother hattr hname ▸ hplaceholder) hfill
    · intro hvalue
      exact ⟨attr, hattr, by
        rw [if_pos hplaceholder, (lastLiteral?_eq_some_iff hconcrete).mpr hvalue]
        rfl⟩
  literals := by
    intro attr hattr hliteral
    exact List.mem_filterMap.mpr ⟨attr, hattr, by simp [hliteral]⟩
  order := by
    clear hnames
    induction declared with
    | nil => exact List.Sublist.refl _
    | cons attr declared ih =>
        rw [fill, List.filterMap_cons, List.map_cons]
        split
        · exact ih.cons _
        · next filled hfilled =>
            have hname : filled.name = attr.name := by
              split_ifs at hfilled
              · obtain ⟨value, -, rfl⟩ := Option.map_eq_some_iff.mp hfilled
                rfl
              · rw [Option.some.inj hfilled]
            rw [List.map_cons, hname]
            exact ih.cons_cons _

/-- With the values found, the declared attributes are rendered as filled. -/
theorem filterMap_render?_of_fits
    {element : String} {declared concrete : List Attribute} {scope : Record}
    (hfits : Finding.mismatches (project element declared concrete) = [])
    (hscope : scope.Agrees (Finding.entries (project element declared concrete))) :
    declared.filterMap (render? scope) = fill declared concrete := by
  induction declared with
  | nil => rfl
  | cons attr declared ih =>
      obtain ⟨name, value⟩ := attr
      rw [fill, List.filterMap_cons, List.filterMap_cons]
      rw [project, List.filterMap_cons] at hfits hscope
      cases value with
      | literal value =>
          rw [ih hfits hscope]
          rfl
      | var reference =>
          cases hvalue : lastLiteral? concrete name with
          | none => simp [hvalue] at hfits
          | some value =>
              simp only [hvalue] at hfits hscope
              obtain ⟨hstored, hrest⟩ := Record.agrees_cons.mp hscope
              rw [ih hfits hrest]
              simp [render?, Record.text?, hstored, Value.text?, AttributeValue.isPlaceholder, fill]
      | conditional reference =>
          cases hvalue : lastLiteral? concrete name with
          | none =>
              simp only [hvalue] at hfits hscope
              obtain ⟨hstored, hrest⟩ := Record.agrees_cons.mp hscope
              rw [ih hfits hrest]
              simp [render?, Record.text?, hstored, Value.text?, AttributeValue.isPlaceholder, fill]
          | some value =>
              simp only [hvalue] at hfits hscope
              obtain ⟨hstored, hrest⟩ := Record.agrees_cons.mp hscope
              rw [ih hfits hrest]
              simp [render?, Record.text?, hstored, Value.text?, AttributeValue.isPlaceholder, fill]

end Attribute

/-! ## Projections without mismatches -/

namespace Node

/-- `Yields content slots nodes`: the nodes fill the slots, and every record that agrees with the
values found renders the slots as filled. -/
def Yields (content slots nodes : List Node) : Prop :=
  ∃ filled, Filled content slots nodes filled ∧
    ∀ scope : Record, scope.Agrees (Finding.entries (projectList slots nodes)) →
      renderList content scope slots = filled

/-- A slot that must be filled, given what it makes of the node it takes. -/
theorem yields_slot
    {content slots nodes : List Node} {slot : Node} (hslot : slot.isOptional = false)
    (hconcrete : Concrete nodes)
    (hfits : Finding.mismatches (projectList (slot :: slots) nodes) = [])
    (hnode : ∀ node, Takes slot node → Concrete [node] →
      Finding.mismatches (slot.project node) = [] →
      ∃ shown,
        (∀ rest filled, Filled content slots rest filled →
          Filled content (slot :: slots) (node :: rest) (shown ++ filled)) ∧
        ∀ scope : Record, scope.Agrees (Finding.entries (slot.project node)) →
          render content scope slot = shown)
    (hrest : ∀ rest, Concrete rest → Finding.mismatches (projectList slots rest) = [] →
      Yields content slots rest) :
    Yields content (slot :: slots) nodes := by
  obtain ⟨node, rest, rfl, haccepts, hfound⟩ := projectList_slot_of_fits hslot hfits
  rw [hfound, Finding.mismatches_append, List.append_eq_nil_iff] at hfits
  obtain ⟨hhead, htail⟩ := everywhere_cons.mp hconcrete
  have htakes : Takes slot node := by
    apply takes_of_accepts _ (isPlain_of_concrete_singleton hhead) haccepts
    cases slot <;> simp_all [kind, isOptional]
  obtain ⟨shown, hshown, hrender⟩ := hnode node htakes hhead hfits.1
  obtain ⟨filled, hfilled, hrenderRest⟩ := hrest rest htail hfits.2
  refine ⟨shown ++ filled, hshown rest filled hfilled, ?_⟩
  intro scope hscope
  rw [hfound, Finding.entries_append, Record.agrees_append] at hscope
  rw [renderList, hrender scope hscope.1, hrenderRest scope hscope.2]

/-- A node that fills a slot alone. -/
theorem yields_singleton
    {content : List Node} {slot node : Node}
    (hslot : slot.isOptional = false) (haccepts : accepts slot node = true)
    (h : Yields content [slot] [node]) :
    ∃ shown, Filled content [slot] [node] shown ∧
      ∀ scope : Record, scope.Agrees (Finding.entries (slot.project node)) →
        render content scope slot = shown := by
  obtain ⟨shown, hshown, hrender⟩ := h
  refine ⟨shown, hshown, fun scope hscope => ?_⟩
  rw [← hrender scope (by rwa [projectList_singleton hslot haccepts]), renderList, renderList,
    List.append_nil]

/-- The repetitions of a loop, given what its template makes of one node. -/
theorem filled_repetitions
    {content slots taken rest filled : List Node} {template : Node} (reference : String)
    (hnode : ∀ node ∈ taken, ∃ shown, Filled content [template] [node] shown ∧
      render content (Finding.record (template.project node)) template = shown)
    (hrest : Filled content (.loop reference template :: slots) rest filled) :
    Filled content (.loop reference template :: slots) (taken ++ rest)
      ((taken.flatMap fun node =>
        render content (Finding.record (template.project node)) template) ++ filled) := by
  induction taken with
  | nil => exact hrest
  | cons node taken ih =>
      obtain ⟨shown, hshown, hrender⟩ := hnode node List.mem_cons_self
      rw [List.flatMap_cons, hrender, List.append_assoc]
      exact .repeat reference hshown
        (ih fun other hother => hnode other (List.mem_cons_of_mem _ hother))

/-- A conditional, given what its child makes of one node and what the later slots make of the
rest. -/
theorem yields_conditional
    {content slots nodes : List Node} {reference : String} {child : Node}
    (hflat : child.kind ≠ .conditional) (hconcrete : Concrete nodes)
    (hfits : Finding.mismatches (projectList (.conditional reference child :: slots) nodes) = [])
    (hchild : ∀ node, Concrete [node] → Finding.mismatches (projectList [child] [node]) = [] →
      Yields content [child] [node])
    (hrest : ∀ rest, Concrete rest → Finding.mismatches (projectList slots rest) = [] →
      Yields content slots rest) :
    Yields content (.conditional reference child :: slots) nodes := by
  rcases projectList_conditional_cases reference child slots nodes with
    hskipped | ⟨node, rest, rfl, haccepts, htaken⟩
  · -- Nothing is taken: the stored flag hides the child.
    rw [hskipped, Finding.mismatches_entry] at hfits
    obtain ⟨filled, hfilled, hrender⟩ := hrest nodes hconcrete hfits
    refine ⟨filled, .absent reference child hfilled, ?_⟩
    intro scope hscope
    rw [hskipped, Finding.entries_entry, Record.agrees_cons] at hscope
    rw [renderList, hrender scope hscope.2, render, hscope.1]
    rfl
  · -- The next node is taken, so the child is a slot that must be filled.
    obtain ⟨hplain, hconcrete⟩ := everywhere_cons.mp hconcrete
    have htakes := takes_of_accepts hflat (isPlain_of_concrete_singleton hplain) haccepts
    have hslot := htakes.isOptional_eq_false
    rw [htaken, Finding.mismatches_append, Finding.mismatches_entry,
      List.append_eq_nil_iff] at hfits
    have hone : Finding.mismatches (projectList [child] [node]) = [] := by
      rw [projectList_singleton hslot haccepts, hfits.1]
    obtain ⟨shown, hshown, hrenderChild⟩ :=
      yields_singleton hslot haccepts (hchild node hplain hone)
    obtain ⟨filled, hfilled, hrender⟩ := hrest rest hconcrete hfits.2
    refine ⟨shown ++ filled, .present reference hshown hfilled, ?_⟩
    intro scope hscope
    rw [htaken, Finding.entries_append, Finding.entries_entry, Record.agrees_append,
      Record.agrees_cons] at hscope
    rw [renderList, hrender scope hscope.2.2, render, hscope.2.1, ← hrenderChild scope hscope.1]
    rfl

/-- A loop, given what its template makes of one node and what the later slots make of the rest.
Each repetition has a record of its own, in which the references are distinct. -/
theorem yields_loop
    {content slots nodes : List Node} {reference : String} {template : Node}
    (hflat : template.kind ≠ .conditional) (hdistinct : (references template).Nodup)
    (hconcrete : Concrete nodes)
    (hfits : Finding.mismatches (projectList (.loop reference template :: slots) nodes) = [])
    (htemplate : ∀ node, Concrete [node] →
      Finding.mismatches (projectList [template] [node]) = [] → Yields content [template] [node])
    (hrest : ∀ rest, Concrete rest → Finding.mismatches (projectList slots rest) = [] →
      Yields content slots rest) :
    Yields content (.loop reference template :: slots) nodes := by
  obtain ⟨taken, rest, rfl, htaken, hfound⟩ := projectList_loop_of_fits hfits
  rw [hfound, Finding.mismatches_entry] at hfits
  have hitems : ∀ node ∈ taken, ∃ shown, Filled content [template] [node] shown ∧
      render content (Finding.record (template.project node)) template = shown := by
    intro node hnode
    have hplain : Concrete [node] :=
      everywhere_singleton_of_mem hconcrete (List.mem_append_left rest hnode)
    obtain ⟨haccepts, hitem⟩ := htaken node hnode
    have htakes := takes_of_accepts hflat (isPlain_of_concrete_singleton hplain) haccepts
    have hslot := htakes.isOptional_eq_false
    have hone := projectList_singleton hslot haccepts
    have hyields : Yields content [template] [node] := by
      apply htemplate node hplain
      rw [hone, hitem]
    have hnodup : (Finding.references (projectList [template] [node])).Nodup := by
      apply references_projectList_nodup
      rwa [referencesList, referencesList, List.append_nil]
    obtain ⟨shown, hshown, hrender⟩ := yields_singleton hslot haccepts hyields
    refine ⟨shown, hshown, hrender _ (Record.agrees_ofEntries ?_)⟩
    rwa [hone] at hnodup
  obtain ⟨filled, hfilled, hrender⟩ := hrest rest (everywhere_append.mp hconcrete).2 hfits
  refine ⟨_, filled_repetitions reference hitems (.finish reference template hfilled), ?_⟩
  intro scope hscope
  rw [hfound, Finding.entries_entry, Record.agrees_cons] at hscope
  rw [renderList, hrender scope hscope.2, render, hscope.1]
  simp only [List.flatMap_map]

theorem render_var_of_stored
    {scope : Record} {reference value : String} (content : List Node)
    (hstored : scope.get? reference = some (.text value)) :
    render content scope (.var reference) = [.text value] := by
  simp [render, Record.text?, hstored, Value.text?]

/-- Distinct attribute names, no guard directly below a guard, distinct references in a template. -/
def IsRegular (node : Node) : Prop :=
  node.DistinctNames ∧ node.FlatGuard ∧ node.DistinctTemplate

/-- A projection without mismatches fills the slots. -/
theorem yields_of_fits
    (content : List Node) {slots nodes : List Node}
    (hregular : Everywhere IsRegular slots) (hconcrete : Concrete nodes)
    (hfits : Finding.mismatches (projectList slots nodes) = []) :
    Yields content slots nodes := by
  induction slots using Node.inductionOn generalizing nodes with
  | nil =>
      cases nodes with
      | nil => exact ⟨[], .nil, fun _ _ => rfl⟩
      | cons node nodes => simp [projectList, Finding.mismatches] at hfits
  | doctype value slots ih =>
      refine yields_slot rfl hconcrete hfits ?_ fun rest => ih (everywhere_cons.mp hregular).2
      rintro _ ⟨⟩ _ _
      exact ⟨[.doctype value], fun _ _ => .doctype value, fun _ _ => rfl⟩
  | text value slots ih =>
      refine yields_slot rfl hconcrete hfits ?_ fun rest => ih (everywhere_cons.mp hregular).2
      rintro _ ⟨⟩ _ _
      exact ⟨[.text value], fun _ _ => .text value, fun _ _ => rfl⟩
  | comment value slots ih =>
      refine yields_slot rfl hconcrete hfits ?_ fun rest => ih (everywhere_cons.mp hregular).2
      intro node htakes _ _
      cases htakes with
      | comment _ other =>
          exact ⟨[.comment value], fun _ _ => .comment value other, fun _ _ => rfl⟩
  | content slots ih =>
      refine yields_slot rfl hconcrete hfits ?_ fun rest => ih (everywhere_cons.mp hregular).2
      rintro _ ⟨⟩ _ _
      exact ⟨content, fun _ _ => .content, fun _ _ => rfl⟩
  | var reference slots ih =>
      refine yields_slot rfl hconcrete hfits ?_ fun rest => ih (everywhere_cons.mp hregular).2
      intro node htakes _ _
      cases htakes with
      | var _ value =>
          refine ⟨[.text value], fun _ _ => .var reference value, fun scope hscope => ?_⟩
          exact render_var_of_stored content (Record.agrees_cons.mp hscope).1
  | markdown reference slots ih =>
      refine yields_slot rfl hconcrete hfits ?_ fun rest => ih (everywhere_cons.mp hregular).2
      intro node htakes _ _
      cases htakes with
      | markdown _ value =>
          refine ⟨[.text value], fun _ _ => .markdown reference value, ?_⟩
          intro scope hscope
          have hstored : scope.get? reference = some (.text value) :=
            (Record.agrees_cons.mp hscope).1
          simp [render, Record.text?, hstored, Value.text?]
  | element name attrs children slots ihChildren ih =>
      obtain ⟨⟨hnames, -, -⟩, hregularInside, hregularRest⟩ := everywhere_element.mp hregular
      refine yields_slot rfl hconcrete hfits ?_ fun rest => ih hregularRest
      intro node htakes hplain hfound
      cases htakes with
      | element _ _ concrete _ inner =>
          obtain ⟨hstatic, hinner, -⟩ := everywhere_element.mp hplain
          rw [project, Finding.mismatches_append, List.append_eq_nil_iff] at hfound
          obtain ⟨merged, hmerged, hrender⟩ := ihChildren hregularInside hinner hfound.2
          have hattrs := Attribute.filledBy_fill hnames hstatic
          refine ⟨[.element name (Attribute.fill attrs concrete) merged],
            fun _ _ => .element name hattrs hmerged, ?_⟩
          intro scope hscope
          rw [project, Finding.entries_append, Record.agrees_append] at hscope
          rw [render, hrender scope hscope.2, Attribute.filterMap_render?_of_fits hfound.1 hscope.1]
  | conditional reference child slots ihChild ih =>
      obtain ⟨⟨-, hflat, -⟩, hchild, hrest⟩ := everywhere_conditional.mp hregular
      exact yields_conditional hflat hconcrete hfits (fun node => ihChild hchild)
        fun rest => ih hrest
  | loop reference template slots ihTemplate ih =>
      obtain ⟨⟨-, hflat, hdistinct⟩, htemplate, hrest⟩ := everywhere_loop.mp hregular
      exact yields_loop hflat hdistinct hconcrete hfits (fun node => ihTemplate htemplate)
        fun rest => ih hrest

end Node

/-! ## Rendering a projected page -/

/-- A projected page agrees with what was found, whatever it stored before. -/
theorem Page.agrees_project
    {layout : Layout} (hdistinct : layout.references.Nodup) (page : Page) :
    (page.project layout).data.Agrees (Finding.entries (page.findings layout)) :=
  (Record.agrees_ofEntries (Node.references_projectList_nodup hdistinct page.source)).fill

/-- A page that fits a layout fills it: the projected page is rendered to the filled tree, which is
the source of the page up to attributes and comments, and the data stored before play no part. -/
theorem render_project
    {layout : Layout} {page : Page}
    (hlayout : layout.Regular) (hsource : Node.Concrete page.source)
    (hfits : page.projectWarnings layout = []) :
    let rendered := (page.project layout).render layout
    Node.Filled page.content layout.tree page.source rendered ∧
      Node.outlineList rendered = Node.outlineList (Node.expandList page.content page.source) ∧
      ∀ data : Record, ({ page with data := data }.project layout).render layout = rendered := by
  intro rendered
  have hmismatches : Finding.mismatches (page.findings layout) = [] := List.map_eq_nil_iff.mp hfits
  have hregular : Node.Everywhere Node.IsRegular layout.tree := by
    intro node hnode
    exact ⟨hlayout.names node hnode, hlayout.guards node hnode, hlayout.templates node hnode⟩
  obtain ⟨filled, hfilled, hrender⟩ := Node.yields_of_fits page.content hregular hsource hmismatches
  have hrendered : ∀ data : Record,
      ({ page with data := data }.project layout).render layout = filled := fun data =>
    hrender _ ({ page with data := data }.agrees_project hlayout.page)
  have hself : rendered = filled := hrendered page.data
  rw [hself]
  exact ⟨hfilled, hfilled.outlineList_eq, hrendered⟩

/-- A list with repeated items and a heading that is only sometimes there. -/
theorem render_project_of_listing :
    let layout : Layout :=
      { tree :=
          [.conditional "heading" (.element "h1" [.static "class" "x", ⟨"id", .conditional "id"⟩]
            [.var "title"]),
          .element "ul" []
            [.loop "items" (.element "li" [⟨"class", .var "class"⟩] [.markdown "body"])],
          .content] }
    let page : Page :=
      { pathname := "a.html"
        data := [("id", .text "stale")]
        content := [.text "body"]
        source :=
          [.element "h1" [] [.text "List"],
          .element "ul" []
            [.element "li" [.static "class" "odd"] [.text "one"],
            .element "li" [.static "class" "even"] [.text "two"]],
          .content] }
    layout.Regular ∧ Node.Concrete page.source ∧ page.projectWarnings layout = [] ∧
      let rendered := (page.project layout).render layout
      Node.Filled page.content layout.tree page.source rendered ∧
        Node.outlineList rendered = Node.outlineList (Node.expandList page.content page.source) ∧
        ∀ data : Record, ({ page with data := data }.project layout).render layout = rendered := by
  intro layout page
  have hlayout : layout.Regular :=
    { page := by decide
      templates := by decide
      names := by decide
      guards := by decide }
  have hsource : Node.Concrete page.source := by decide
  have hfits : page.projectWarnings layout = [] := by decide
  exact ⟨hlayout, hsource, hfits, render_project hlayout hsource hfits⟩

end Stencil
