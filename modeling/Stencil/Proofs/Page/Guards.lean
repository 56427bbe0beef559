import Stencil.Proofs.Page.Filling
import Stencil.Proofs.Page.Values

/-!
# What a guard decides

A conditional node and a conditional attribute both show or do not show by the value stored under
their reference.  Rendering tests the value of a node for being truthy and the value of an attribute
for being a text, while a template tests every value for being truthy.  On a page that was projected
without warnings the two tests can differ in one case only: an attribute that the source has with an
empty value is rendered, and its value is not truthy (`agrees_iff_of_meets`).
-/

namespace Stencil

/-- What decides whether a part of a layout shows: a node by the reference of its conditional, or
the attribute of the given name. -/
inductive Guard where
  | node (reference : String)
  | attr (name reference : String)
  deriving DecidableEq, Repr

namespace Guard

/-- The reference of the deciding value. -/
def reference : Guard → String
  | .node reference | .attr _ reference => reference

/-- Rendering gives the guarded part: whatever the node is, it is rendered in place of its
conditional; the attribute is among those of its element. -/
def Emits (content : List Node) (scope : Record) : Guard → Prop
  | .node reference => ∀ child : Node,
      Node.render content scope (.conditional reference child) = Node.render content scope child
  | .attr name reference => ∃ value,
      Attribute.render? scope ⟨name, .conditional reference⟩ = some (.static name value)

/-- Rendering leaves the guarded part out. -/
def Omits (content : List Node) (scope : Record) : Guard → Prop
  | .node reference => ∀ child : Node,
      Node.render content scope (.conditional reference child) = []
  | .attr name reference => Attribute.render? scope ⟨name, .conditional reference⟩ = none

/-- The deciding value is there and truthy. -/
def IsTruthy (scope : Record) (guard : Guard) : Prop :=
  ∃ value, scope.get? guard.reference = some value ∧ value.isTruthy = true

/-- Rendering decides by the truth of the value. -/
structure Agrees (content : List Node) (scope : Record) (guard : Guard) : Prop where
  emitted : guard.Emits content scope → guard.IsTruthy scope
  omitted : guard.Omits content scope → ¬guard.IsTruthy scope

variable {content : List Node} {scope : Record} {name reference : String} {guard : Guard}

/-! ## Rendering a guard -/

theorem render_conditional_of_isTruthy (h : (Guard.node reference).IsTruthy scope) (child : Node) :
    Node.render content scope (.conditional reference child) = Node.render content scope child := by
  obtain ⟨value, hstored, htruthy⟩ := h
  change scope.get? reference = some value at hstored
  simp [Node.render, hstored, htruthy]

theorem render_conditional_of_not_isTruthy
    (h : ¬(Guard.node reference).IsTruthy scope) (child : Node) :
    Node.render content scope (.conditional reference child) = [] := by
  rw [Node.render]
  cases hstored : scope.get? reference with
  | none => rfl
  | some value =>
      have hfalsy : value.isTruthy = false :=
        eq_false_of_ne_true fun htruthy => h ⟨value, hstored, htruthy⟩
      simp [hfalsy]

theorem emits_node_iff :
    (Guard.node reference).Emits content scope ↔ (Guard.node reference).IsTruthy scope := by
  constructor
  · intro hemits
    by_contra hfalsy
    have hshown := hemits (.text "")
    rw [render_conditional_of_not_isTruthy hfalsy] at hshown
    exact absurd hshown (List.cons_ne_nil _ _).symm
  · exact render_conditional_of_isTruthy

theorem omits_node_iff :
    (Guard.node reference).Omits content scope ↔ ¬(Guard.node reference).IsTruthy scope := by
  constructor
  · intro homits htruthy
    have hhidden := homits (.text "")
    rw [render_conditional_of_isTruthy htruthy] at hhidden
    exact absurd hhidden (List.cons_ne_nil _ _)
  · exact render_conditional_of_not_isTruthy

theorem render?_conditional_eq_some_iff {attr : Attribute} :
    Attribute.render? scope ⟨name, .conditional reference⟩ = some attr ↔
      ∃ text, scope.get? reference = some (.text text) ∧ attr = .static name text := by
  have htext : ∀ text, scope.text? reference = some text ↔
      scope.get? reference = some (.text text) := by
    intro text
    rw [Record.text?]
    cases scope.get? reference with
    | none => simp
    | some value => cases value <;> simp [Value.text?]
  simp only [Attribute.render?, Option.map_eq_some_iff, htext, @eq_comm _ attr]

theorem emits_attr_iff :
    (Guard.attr name reference).Emits content scope ↔
      ∃ text, scope.get? reference = some (.text text) := by
  simp only [Emits, render?_conditional_eq_some_iff]
  constructor
  · rintro ⟨_, text, hstored, -⟩
    exact ⟨text, hstored⟩
  · rintro ⟨text, hstored⟩
    exact ⟨text, text, hstored, rfl⟩

theorem omits_attr_iff :
    (Guard.attr name reference).Omits content scope ↔
      ∀ text, scope.get? reference ≠ some (.text text) := by
  simp only [Omits, Option.eq_none_iff_forall_ne_some, ne_eq, render?_conditional_eq_some_iff]
  constructor
  · intro homits text hstored
    exact homits _ ⟨text, hstored, rfl⟩
  · rintro hnone _ ⟨text, hstored, -⟩
    exact hnone text hstored

/-- Every guarded part is either emitted or left out. -/
theorem omits_iff_not_emits : guard.Omits content scope ↔ ¬guard.Emits content scope := by
  cases guard with
  | node reference => rw [omits_node_iff, emits_node_iff]
  | attr name reference => rw [omits_attr_iff, emits_attr_iff, not_exists]

/-- The guards of nodes are decided by truth alone. -/
theorem agrees_node (content : List Node) (scope : Record) (reference : String) :
    (Guard.node reference).Agrees content scope :=
  ⟨emits_node_iff.mp, omits_node_iff.mp⟩

/-- An attribute with a text is emitted, whether or not the text is empty. -/
theorem agrees_attr_of_text {text : String} (hstored : scope.get? reference = some (.text text)) :
    (Guard.attr name reference).Agrees content scope ↔ text ≠ "" := by
  have hemits : (Guard.attr name reference).Emits content scope :=
    emits_attr_iff.mpr ⟨text, hstored⟩
  constructor
  · rintro ⟨hemitted, -⟩
    obtain ⟨value, hvalue, htruthy⟩ := hemitted hemits
    obtain rfl : .text text = value := Option.some.inj (hstored.symm.trans hvalue)
    simpa [Value.isTruthy] using htruthy
  · intro hne
    refine ⟨fun _ => ⟨_, hstored, by simpa [Value.isTruthy] using hne⟩, fun homits => ?_⟩
    exact absurd hemits (omits_iff_not_emits.mp homits)

/-- A flag that is not set neither shows the attribute nor is truthy. -/
theorem agrees_attr_of_flag (hstored : scope.get? reference = some (.flag false)) :
    (Guard.attr name reference).Agrees content scope := by
  constructor
  · intro hemits
    obtain ⟨text, htext⟩ := emits_attr_iff.mp hemits
    simp [hstored] at htext
  · rintro - ⟨value, hvalue, htruthy⟩
    obtain rfl : .flag false = value := Option.some.inj (hstored.symm.trans hvalue)
    contradiction

/-! ## What a projection stores -/

/-- The value stored for an attribute that the source has with a text, or does not have. -/
def presence : Option String → Value
  | none => .flag false
  | some text => .text text

/-- The deciding value was read from the tree: whether a node is there, or the attribute of an
element. -/
def IsReadFrom (source : List Node) (scope : Record) : Guard → Prop
  | .node reference => ∃ shows, scope.get? reference = some (.flag shows)
  | .attr name reference => ∃ tag attrs children,
      .element tag attrs children ∈ Node.preorderList source ∧
        scope.get? reference = some (presence (Attribute.lastLiteral? attrs name))

end Guard

namespace Node

/-- `Meets content scope slots inner guard`: filling the slots from the record `scope` comes upon
the guard, and looks its value up in the record `inner`.  What is below a conditional is reached
only if the conditional is emitted, and what is below a loop once for every record. -/
inductive Meets (content : List Node) : Record → List Node → Record → Guard → Prop
  | attr {scope : Record} {tag name reference : String} {attrs : List Attribute}
      {children slots : List Node} (hattr : ⟨name, .conditional reference⟩ ∈ attrs) :
      Meets content scope (.element tag attrs children :: slots) scope (.attr name reference)
  | inside {scope inner : Record} {tag : String} {attrs : List Attribute}
      {children slots : List Node} {guard : Guard}
      (hchildren : Meets content scope children inner guard) :
      Meets content scope (.element tag attrs children :: slots) inner guard
  | node {scope : Record} {reference : String} {child : Node} {slots : List Node} :
      Meets content scope (.conditional reference child :: slots) scope (.node reference)
  | shown {scope inner : Record} {reference : String} {child : Node} {slots : List Node}
      {guard : Guard} (hemits : (Guard.node reference).Emits content scope)
      (hchild : Meets content scope [child] inner guard) :
      Meets content scope (.conditional reference child :: slots) inner guard
  | item {scope record inner : Record} {records : List Record} {reference : String}
      {template : Node} {slots : List Node} {guard : Guard}
      (hstored : scope.get? reference = some (.list records)) (hrecord : record ∈ records)
      (htemplate : Meets content record [template] inner guard) :
      Meets content scope (.loop reference template :: slots) inner guard
  | later {scope inner : Record} {slot : Node} {slots : List Node} {guard : Guard}
      (hslots : Meets content scope slots inner guard) :
      Meets content scope (slot :: slots) inner guard

/-- The record holds what was found when the nodes, which stand in the source, filled the slots. -/
structure Stores (source slots nodes : List Node) (scope : Record) : Prop where
  concrete : Concrete nodes
  inSource : Everywhere (· ∈ preorderList source) nodes
  fits : Finding.mismatches (projectList slots nodes) = []
  agrees : scope.Agrees (Finding.entries (projectList slots nodes))

namespace Stores

variable {source slots nodes : List Node} {scope : Record} {slot : Node}

/-- A slot that must be filled was filled by one node. -/
theorem slot_cons (hslot : slot.isOptional = false)
    (h : Stores source (slot :: slots) nodes scope) :
    ∃ node rest, Takes slot node ∧ Stores source [slot] [node] scope ∧
      Stores source slots rest scope := by
  obtain ⟨hconcrete, hsource, hfits, hagrees⟩ := h
  obtain ⟨node, rest, rfl, haccepts, hfound⟩ := projectList_slot_of_fits hslot hfits
  obtain ⟨hplain, hconcrete⟩ := everywhere_cons.mp hconcrete
  obtain ⟨hhere, hsource⟩ := everywhere_cons.mp hsource
  rw [hfound, Finding.mismatches_append, List.append_eq_nil_iff] at hfits
  rw [hfound, Finding.entries_append, Record.agrees_append] at hagrees
  rw [← projectList_singleton hslot haccepts] at hfits hagrees
  have htakes : Takes slot node := by
    apply takes_of_accepts _ (isPlain_of_concrete_singleton hplain) haccepts
    cases slot <;> simp_all [kind, isOptional]
  exact ⟨node, rest, htakes, ⟨hplain, hhere, hfits.1, hagrees.1⟩,
    ⟨hconcrete, hsource, hfits.2, hagrees.2⟩⟩

/-- The attributes and the children of an element were read from an element of the source. -/
theorem element {tag : String} {attrs : List Attribute} {children : List Node} {node : Node}
    (htakes : Takes (.element tag attrs children) node)
    (h : Stores source [.element tag attrs children] [node] scope) :
    ∃ concrete inner, .element tag concrete inner ∈ preorderList source ∧
      scope.Agrees (Finding.entries (Attribute.project tag attrs concrete)) ∧
      Stores source children inner scope := by
  obtain ⟨hconcrete, hsource, hfits, hagrees⟩ := h
  cases htakes with
  | element _ _ concrete _ inner =>
      have haccepts : accepts (.element tag attrs children) (.element tag concrete inner) = true :=
        accepts_of_equivalent (by simp [equivalent, core, sameSlot])
      rw [projectList_singleton rfl haccepts] at hfits hagrees
      rw [project, Finding.mismatches_append, List.append_eq_nil_iff] at hfits
      rw [project, Finding.entries_append, Record.agrees_append] at hagrees
      obtain ⟨-, hinner, -⟩ := everywhere_element.mp hconcrete
      obtain ⟨hhere, hinside, -⟩ := everywhere_element.mp hsource
      exact ⟨concrete, inner, hhere, hagrees.1, ⟨hinner, hinside, hfits.2, hagrees.2⟩⟩

/-- A conditional stored whether it was filled. -/
theorem conditional {reference : String} {child : Node} (hflat : child.kind ≠ .conditional)
    (h : Stores source (.conditional reference child :: slots) nodes scope) :
    scope.get? reference = some (.flag false) ∧ Stores source slots nodes scope ∨
      ∃ node rest, scope.get? reference = some (.flag true) ∧ Stores source [child] [node] scope ∧
        Stores source slots rest scope := by
  obtain ⟨hconcrete, hsource, hfits, hagrees⟩ := h
  rcases projectList_conditional_cases reference child slots nodes with
    hskipped | ⟨node, rest, rfl, haccepts, htaken⟩
  · rw [hskipped, Finding.mismatches_entry] at hfits
    rw [hskipped, Finding.entries_entry, Record.agrees_cons] at hagrees
    exact Or.inl ⟨hagrees.1, ⟨hconcrete, hsource, hfits, hagrees.2⟩⟩
  · obtain ⟨hplain, hconcrete⟩ := everywhere_cons.mp hconcrete
    obtain ⟨hhere, hsource⟩ := everywhere_cons.mp hsource
    have htakes := takes_of_accepts hflat (isPlain_of_concrete_singleton hplain) haccepts
    rw [htaken, Finding.mismatches_append, Finding.mismatches_entry,
      List.append_eq_nil_iff] at hfits
    rw [htaken, Finding.entries_append, Finding.entries_entry, Record.agrees_append,
      Record.agrees_cons] at hagrees
    rw [← projectList_singleton htakes.isOptional_eq_false haccepts] at hfits hagrees
    exact Or.inr ⟨node, rest, hagrees.2.1, ⟨hplain, hhere, hfits.1, hagrees.1⟩,
      ⟨hconcrete, hsource, hfits.2, hagrees.2.2⟩⟩

/-- A loop stored a record of its own for every node that it took. -/
theorem loop {reference : String} {template : Node} (hflat : template.kind ≠ .conditional)
    (hdistinct : (references template).Nodup)
    (h : Stores source (.loop reference template :: slots) nodes scope) :
    ∃ records rest, scope.get? reference = some (.list records) ∧
      (∀ record ∈ records, ∃ node, Stores source [template] [node] record) ∧
      Stores source slots rest scope := by
  obtain ⟨hconcrete, hsource, hfits, hagrees⟩ := h
  obtain ⟨taken, rest, rfl, htaken, hfound⟩ := projectList_loop_of_fits hfits
  rw [hfound, Finding.mismatches_entry] at hfits
  rw [hfound, Finding.entries_entry, Record.agrees_cons] at hagrees
  refine ⟨_, rest, hagrees.1, fun record hrecord => ?_,
    ⟨(everywhere_append.mp hconcrete).2, (everywhere_append.mp hsource).2, hfits, hagrees.2⟩⟩
  obtain ⟨node, hnode, rfl⟩ := List.mem_map.mp hrecord
  obtain ⟨haccepts, hitem⟩ := htaken node hnode
  have hmem := List.mem_append_left rest hnode
  have hplain : Concrete [node] := everywhere_singleton_of_mem hconcrete hmem
  have htakes := takes_of_accepts hflat (isPlain_of_concrete_singleton hplain) haccepts
  have hone := projectList_singleton htakes.isOptional_eq_false haccepts
  have hnodup : (Finding.references (projectList [template] [node])).Nodup := by
    apply references_projectList_nodup
    rwa [referencesList, referencesList, List.append_nil]
  rw [hone] at hnodup
  refine ⟨node, hplain, everywhere_singleton_of_mem hsource hmem, by rw [hone, hitem], ?_⟩
  rw [hone]
  exact Record.agrees_ofEntries hnodup

end Stores

/-- The child of a conditional and the template of a loop are not conditionals, and the references
of a template are distinct. -/
def IsPlainGuard (node : Node) : Prop :=
  node.FlatGuard ∧ node.DistinctTemplate

/-- The later slots were filled as well. -/
theorem Stores.tail {source slots nodes : List Node} {scope : Record} {slot : Node}
    (hguards : Everywhere IsPlainGuard (slot :: slots))
    (h : Stores source (slot :: slots) nodes scope) :
    ∃ rest, Stores source slots rest scope := by
  cases slot with
  | conditional reference child =>
      obtain ⟨⟨hflat, -⟩, -⟩ := everywhere_conditional.mp hguards
      rcases h.conditional hflat with ⟨-, hrest⟩ | ⟨_, rest, -, -, hrest⟩
      · exact ⟨nodes, hrest⟩
      · exact ⟨rest, hrest⟩
  | loop reference template =>
      obtain ⟨⟨hflat, hdistinct⟩, -⟩ := everywhere_loop.mp hguards
      obtain ⟨_, rest, -, -, hrest⟩ := h.loop hflat hdistinct
      exact ⟨rest, hrest⟩
  | doctype _ | element _ _ _ | text _ | comment _ | var _ | content | markdown _ =>
      obtain ⟨_, rest, -, -, hrest⟩ := h.slot_cons rfl
      exact ⟨rest, hrest⟩

end Node

/-- A conditional attribute stores the literal of its name, or that there is none. -/
theorem Attribute.get?_of_agrees_project
    {scope : Record} {tag name reference : String} {attrs concrete : List Attribute}
    (hagrees : scope.Agrees (Finding.entries (project tag attrs concrete)))
    (hattr : ⟨name, .conditional reference⟩ ∈ attrs) :
    scope.get? reference = some (Guard.presence (lastLiteral? concrete name)) := by
  refine hagrees (reference, Guard.presence (lastLiteral? concrete name)) ?_
  refine List.mem_filterMap.mpr
    ⟨.entry reference (Guard.presence (lastLiteral? concrete name)), ?_, rfl⟩
  refine List.mem_filterMap.mpr ⟨_, hattr, ?_⟩
  cases lastLiteral? concrete name <;> rfl

namespace Node

/-- Every guard that rendering comes upon is decided by a value read from the source. -/
theorem isReadFrom_of_meets
    {content source slots nodes : List Node} {scope inner : Record} {guard : Guard}
    (hguards : Everywhere IsPlainGuard slots) (hstores : Stores source slots nodes scope)
    (hmeets : Meets content scope slots inner guard) :
    guard.IsReadFrom source inner := by
  induction hmeets generalizing nodes with
  | attr hattr =>
      obtain ⟨node, rest, htakes, hhere, -⟩ := hstores.slot_cons rfl
      obtain ⟨concrete, children, helement, hattrs, -⟩ := hhere.element htakes
      exact ⟨_, concrete, children, helement, Attribute.get?_of_agrees_project hattrs hattr⟩
  | inside _ ih =>
      obtain ⟨node, rest, htakes, hhere, -⟩ := hstores.slot_cons rfl
      obtain ⟨concrete, children, -, -, hchildren⟩ := hhere.element htakes
      exact ih (everywhere_element.mp hguards).2.1 hchildren
  | node =>
      obtain ⟨⟨hflat, -⟩, -⟩ := everywhere_conditional.mp hguards
      rcases hstores.conditional hflat with ⟨hstored, -⟩ | ⟨_, _, hstored, -⟩
      · exact ⟨false, hstored⟩
      · exact ⟨true, hstored⟩
  | shown hemits _ ih =>
      obtain ⟨⟨hflat, -⟩, hchild, -⟩ := everywhere_conditional.mp hguards
      rcases hstores.conditional hflat with ⟨hstored, -⟩ | ⟨_, _, -, hfilled, -⟩
      · -- A conditional that was not filled is not emitted.
        obtain ⟨value, hvalue, htruthy⟩ := Guard.emits_node_iff.mp hemits
        obtain rfl : .flag false = value := Option.some.inj (hstored.symm.trans hvalue)
        contradiction
      · exact ih hchild hfilled
  | item hstored hrecord _ ih =>
      obtain ⟨⟨hflat, hdistinct⟩, htemplate, -⟩ := everywhere_loop.mp hguards
      obtain ⟨records, _, hlist, hitems, -⟩ := hstores.loop hflat hdistinct
      have hsame := Option.some.inj (hstored.symm.trans hlist)
      obtain ⟨node, hitem⟩ := hitems _ (Value.list.inj hsame ▸ hrecord)
      exact ih htemplate hitem
  | later _ ih =>
      obtain ⟨rest, hrest⟩ := hstores.tail hguards
      exact ih (everywhere_cons.mp hguards).2 hrest

end Node

/-- On a page that was projected without warnings, every guard that rendering comes upon is decided
by a value read from the source, and rendering decides by its truth, except that it emits an
attribute with an empty value. -/
theorem agrees_iff_of_meets
    {layout : Layout} {page : Page} {scope : Record} {guard : Guard}
    (hdistinct : layout.DistinctReferences)
    (hguards : Node.Everywhere Node.FlatGuard layout.tree)
    (hsource : Node.Concrete page.source) (hfits : page.projectWarnings layout = [])
    (hmeets : Node.Meets page.content (page.project layout).data layout.tree scope guard) :
    guard.IsReadFrom page.source scope ∧
      (guard.Omits page.content scope ↔ ¬guard.Emits page.content scope) ∧
      (guard.Agrees page.content scope ↔ scope.get? guard.reference ≠ some (.text "")) := by
  have hstores : Node.Stores page.source layout.tree page.source (page.project layout).data :=
    ⟨hsource, fun _ hnode => hnode, List.map_eq_nil_iff.mp hfits,
      page.agrees_project hdistinct.page⟩
  have hplain : Node.Everywhere Node.IsPlainGuard layout.tree := fun node hnode =>
    ⟨hguards node hnode, hdistinct.templates node hnode⟩
  have hread := Node.isReadFrom_of_meets hplain hstores hmeets
  refine ⟨hread, Guard.omits_iff_not_emits, ?_⟩
  cases guard with
  | node reference =>
      obtain ⟨shows, hstored⟩ := hread
      change scope.get? reference = some (.flag shows) at hstored
      simp [Guard.agrees_node, Guard.reference, hstored]
  | attr name reference =>
      obtain ⟨tag, attrs, children, -, hstored⟩ := hread
      cases hliteral : Attribute.lastLiteral? attrs name with
      | none =>
          rw [hliteral] at hstored
          change scope.get? reference = some (.flag false) at hstored
          simp [Guard.agrees_attr_of_flag hstored, Guard.reference, hstored]
      | some text =>
          rw [hliteral] at hstored
          change scope.get? reference = some (.text text) at hstored
          simp [Guard.agrees_attr_of_text hstored, Guard.reference, hstored]

/-- A list that only some pages have, with items that are marked by an empty attribute or not at
all. -/
theorem agrees_iff_of_meets_item :
    let layout : Layout :=
      { tree :=
          [.conditional "show1" (.element "ul" []
            [.loop "loop1" (.element "li" [⟨"hidden", .conditional "attr1"⟩] [.var "var1"])])] }
    let page : Page :=
      { pathname := "a.html"
        data := []
        content := []
        source :=
          [.element "ul" []
            [.element "li" [] [.text "one"], .element "li" [.static "hidden" ""] [.text "two"]]] }
    let item : Record := [("attr1", .text ""), ("var1", .text "two")]
    let guard : Guard := .attr "hidden" "attr1"
    layout.DistinctReferences ∧ Node.Everywhere Node.FlatGuard layout.tree ∧
      Node.Concrete page.source ∧ page.projectWarnings layout = [] ∧
      Node.Meets page.content (page.project layout).data layout.tree item guard ∧
      guard.IsReadFrom page.source item ∧
        (guard.Omits page.content item ↔ ¬guard.Emits page.content item) ∧
        (guard.Agrees page.content item ↔ item.get? guard.reference ≠ some (.text "")) := by
  intro layout page item guard
  have hdistinct : layout.DistinctReferences := ⟨by decide, by decide⟩
  have hguards : Node.Everywhere Node.FlatGuard layout.tree := by decide
  have hsource : Node.Concrete page.source := by decide
  have hfits : page.projectWarnings layout = [] := by decide
  have hmeets : Node.Meets page.content (page.project layout).data layout.tree item guard := by
    have hshown : (Guard.node "show1").Emits page.content (page.project layout).data :=
      Guard.emits_node_iff.mpr ⟨.flag true, rfl, rfl⟩
    have hrecord : item ∈ [[("attr1", .flag false), ("var1", .text "one")], item] := by simp
    exact .shown hshown (.inside (.item rfl hrecord (.attr List.mem_cons_self)))
  exact ⟨hdistinct, hguards, hsource, hfits, hmeets,
    agrees_iff_of_meets hdistinct hguards hsource hfits hmeets⟩

/-- A switch that a page has without a value is rendered, and its value is not truthy. -/
theorem not_agrees_of_empty :
    ¬∀ (layout : Layout) (page : Page) (scope : Record) (guard : Guard),
      layout.DistinctReferences → Node.Everywhere Node.FlatGuard layout.tree →
        Node.Concrete page.source → page.projectWarnings layout = [] →
          Node.Meets page.content (page.project layout).data layout.tree scope guard →
            guard.Agrees page.content scope := by
  intro h
  let layout : Layout := { tree := [.element "input" [⟨"disabled", .conditional "attr1"⟩] []] }
  let page : Page :=
    { pathname := "page.html"
      data := []
      content := []
      source := [.element "input" [.static "disabled" ""] []] }
  have hstored : (page.project layout).data.get? "attr1" = some (.text "") := rfl
  have hagrees := h layout page (page.project layout).data (.attr "disabled" "attr1")
    ⟨by decide, by decide⟩ (by decide) (by decide) (by decide) (.attr List.mem_cons_self)
  exact (Guard.agrees_attr_of_text hstored).mp hagrees rfl

end Stencil
