import Stencil.Proofs.Document.Rendering
import Stencil.Proofs.Layout.WellFormed
import Stencil.Proofs.Page.Filling

/-!
# Pages that come back

A projection matches elements by name and reads only the attributes that vary, so it overlooks
attributes that a page has and its slot does not declare, and literal attributes that a slot has
and the page does not (`Node.overlookedList`).  This is all that escapes it: a projected page is
rendered to its source, up to the order of attributes and the values of comments, exactly if
nothing was overlooked and every mismatch is harmless (`Node.resembles_renderList_iff`).  The only
harmless mismatch is a variable without a value, which is rendered to nothing.
-/

namespace Stencil

/-! ## What a projection overlooks -/

/-- The mismatch leaves no trace in what is rendered: a variable without a value. -/
def Mismatch.IsHarmless (scope : Record) : Mismatch → Prop
  | .lacking (.var reference) => scope.text? reference = none
  | _ => False

/-- The literals that the page's element does not have, and the attributes of the page's element
that are not declared. -/
def Attribute.overlooked (declared concrete : List Attribute) : List Attribute :=
  (declared.filter fun attr => !attr.value.isPlaceholder && !concrete.contains attr) ++
    concrete.filter fun attr => attr.name ∉ declared.map Attribute.name

namespace Node

/-- The nodes that are left when those that do not fit the slot are passed over; `later` is the
number of slots after it. -/
def seek (slot : Node) (later : Nat) : List Node → List Node
  | [] => []
  | node :: nodes =>
    if !accepts slot node && later < nodes.length then seek slot later nodes else node :: nodes

/-- The next node, if there is one and it is taken, and the nodes that are left. -/
def takeNext (taken : Node → List Node → Bool) : List Node → List Node × List Node
  | [] => ([], [])
  | node :: nodes => if taken node nodes then ([node], nodes) else ([], node :: nodes)

/-- The nodes that a slot takes, given the slots after it, and the nodes that are left for those. -/
def divide (slots nodes : List Node) : Node → List Node × List Node
  | .conditional _ child =>
    takeNext (fun node rest => required slots ≤ rest.length && accepts child node) nodes
  | .loop _ template => takeRepetitions template (required slots) nodes
  | slot => takeNext (fun node _ => accepts slot node) (seek slot slots.length nodes)

mutual

/-- The attributes that a projection overlooks in a node taken by the slot. -/
def overlooked : Node → Node → List Attribute
  | .element _ attrs slots, .element _ concrete children =>
    Attribute.overlooked attrs concrete ++ overlookedList slots children
  | .conditional _ child, node => overlooked child node
  | .loop _ template, node => overlooked template node
  | _, _ => []

/-- The attributes that a projection of siblings overlooks. -/
def overlookedList : List Node → List Node → List Attribute
  | [], _ => []
  | slot :: slots, nodes =>
    (divide slots nodes slot).1.flatMap slot.overlooked ++
      overlookedList slots (divide slots nodes slot).2

end

end Node

/-! ## Attributes -/

namespace Attribute

variable {element : String} {declared concrete : List Attribute} {scope : Record}

theorem overlooked_eq_nil_iff :
    overlooked declared concrete = [] ↔
      (∀ attr ∈ declared, attr.value.isPlaceholder = false → attr ∈ concrete) ∧
        ∀ attr ∈ concrete, attr.name ∈ declared.map Attribute.name := by
  rw [overlooked, List.append_eq_nil_iff, List.filter_eq_nil_iff, List.filter_eq_nil_iff]
  simp

/-- Slots of inferred layouts render every attribute that they declare. -/
theorem names_filterMap_render?
    (scope : Record) (hslots : ∀ attr ∈ declared, attr.value.IsSlot) :
    (declared.filterMap (render? scope)).map Attribute.name = declared.map Attribute.name := by
  induction declared with
  | nil => rfl
  | cons attr declared ih =>
      obtain ⟨name, value⟩ := attr
      have hrest := ih fun other hother => hslots other (List.mem_cons_of_mem _ hother)
      cases value with
      | literal value | var reference => exact congrArg (name :: ·) hrest
      | conditional reference => exact absurd (hslots _ List.mem_cons_self) id

theorem mem_fill_iff
    (hnames : (declared.map Attribute.name).Nodup) (hconcrete : Static concrete)
    (hoverlooked : overlooked declared concrete = []) (attr : Attribute) :
    attr ∈ concrete ↔ attr ∈ fill declared concrete := by
  obtain ⟨hliterals, hdeclared⟩ := overlooked_eq_nil_iff.mp hoverlooked
  have hfilled := filledBy_fill hnames hconcrete
  constructor
  · intro hattr
    obtain ⟨value, hvalue⟩ := hconcrete.eq_static hattr
    obtain ⟨slot, hslot, hname⟩ := List.mem_map.mp (hdeclared attr hattr)
    cases hplaceholder : slot.value.isPlaceholder with
    | true =>
        rw [hvalue, ← hname] at hattr ⊢
        exact (hfilled.placeholders slot hslot hplaceholder value).mpr hattr
    | false =>
        have heq := eq_of_name_eq hconcrete.2 (hliterals slot hslot hplaceholder) hattr hname
        exact heq ▸ hfilled.literals slot hslot hplaceholder
  · intro hattr
    obtain ⟨slot, hslot, hfill⟩ := List.mem_filterMap.mp hattr
    split_ifs at hfill with hplaceholder
    · obtain ⟨value, hvalue, rfl⟩ := Option.map_eq_some_iff.mp hfill
      exact (lastLiteral?_eq_some_iff hconcrete).mp hvalue
    · rw [← Option.some.inj hfill]
      exact hliterals slot hslot (by simpa using hplaceholder)

theorem eq_missingAttribute_of_mem
    {mismatch : Mismatch}
    (h : mismatch ∈ Finding.mismatches (project element declared concrete)) :
    ∃ name, mismatch = .missingAttribute element name := by
  obtain ⟨finding, hfinding, hfound⟩ := List.mem_filterMap.mp h
  obtain ⟨⟨name, value⟩, -, hproject⟩ := List.mem_filterMap.mp hfinding
  cases value <;> cases hliteral : lastLiteral? concrete name <;> simp [hliteral] at hproject
  all_goals
    subst hproject
    simp at hfound
  exact ⟨name, hfound.symm⟩

/-- A missing attribute always leaves a trace. -/
theorem harmless_project_iff :
    (∀ mismatch ∈ Finding.mismatches (project element declared concrete),
        mismatch.IsHarmless scope) ↔
      Finding.mismatches (project element declared concrete) = [] := by
  constructor
  · intro h
    apply List.eq_nil_iff_forall_not_mem.mpr
    intro mismatch hmismatch
    obtain ⟨name, rfl⟩ := eq_missingAttribute_of_mem hmismatch
    exact h _ hmismatch
  · intro h
    simp [h]

/-- There is no mismatch if the element has attributes of all declared names. -/
theorem mismatches_project_of_named
    (hconcrete : Static concrete)
    (hnamed : ∀ attr ∈ declared, attr.name ∈ concrete.map Attribute.name) :
    Finding.mismatches (project element declared concrete) = [] := by
  induction declared with
  | nil => rfl
  | cons attr declared ih =>
      have hrest := ih fun other hother => hnamed other (List.mem_cons_of_mem _ hother)
      obtain ⟨name, slot⟩ := attr
      obtain ⟨found, hfound, hname⟩ := List.mem_map.mp (hnamed _ List.mem_cons_self)
      obtain ⟨value, hvalue⟩ := hconcrete.eq_static hfound
      have hliteral : lastLiteral? concrete name = some value :=
        (lastLiteral?_eq_some_iff hconcrete).mpr (by rwa [hvalue, hname] at hfound)
      rw [project, List.filterMap_cons]
      cases slot with
      | literal _ => exact hrest
      | var _ | conditional _ =>
          simp only [hliteral]
          exact hrest

/-- An element gets its attributes back exactly if the projection finds all of them. -/
theorem perm_filterMap_render?_iff
    (hslots : ∀ attr ∈ declared, attr.value.IsSlot)
    (hnames : (declared.map Attribute.name).Nodup) (hconcrete : Static concrete)
    (hscope : scope.Agrees (Finding.entries (project element declared concrete))) :
    concrete.Perm (declared.filterMap (render? scope)) ↔
      Finding.mismatches (project element declared concrete) = [] ∧
        overlooked declared concrete = [] := by
  have hrendered := names_filterMap_render? scope hslots
  constructor
  · intro hperm
    have hnamed : ∀ name, name ∈ concrete.map Attribute.name ↔
        name ∈ declared.map Attribute.name := by
      intro name
      rw [(hperm.map Attribute.name).mem_iff, hrendered]
    refine ⟨mismatches_project_of_named hconcrete fun attr hattr => ?_,
      overlooked_eq_nil_iff.mpr ⟨fun attr hattr hliteral => ?_, fun attr hattr => ?_⟩⟩
    · exact (hnamed attr.name).mpr (List.mem_map_of_mem hattr)
    · obtain ⟨value, hvalue⟩ := eq_static_of_not_isPlaceholder hliteral
      rw [hperm.mem_iff, List.mem_filterMap]
      exact ⟨attr, hattr, by rw [hvalue]; rfl⟩
    · exact (hnamed attr.name).mp (List.mem_map_of_mem hattr)
  · rintro ⟨hfits, hoverlooked⟩
    rw [filterMap_render?_of_fits hfits hscope] at hrendered ⊢
    refine (List.perm_ext_iff_of_nodup (hconcrete.2.of_map _) ?_).mpr ?_
    · exact List.Nodup.of_map Attribute.name (hrendered ▸ hnames)
    · exact mem_fill_iff hnames hconcrete hoverlooked

end Attribute

/-! ## The steps of a projection -/

namespace Node

section Steps

variable {slot : Node} {slots nodes : List Node}

theorem divide_of_not_isOptional (hslot : slot.isOptional = false) :
    divide slots nodes slot =
      takeNext (fun node _ => accepts slot node) (seek slot slots.length nodes) := by
  cases slot <;> first | rfl | simp [isOptional] at hslot

theorem divide_of_accepts
    {node : Node} (hslot : slot.isOptional = false) (haccepts : accepts slot node = true) :
    divide slots (node :: nodes) slot = ([node], nodes) := by
  rw [divide_of_not_isOptional hslot]
  simp [seek, takeNext, haccepts]

theorem seek_suffix (slot : Node) (later : Nat) (nodes : List Node) :
    seek slot later nodes <:+ nodes := by
  induction nodes with
  | nil => exact List.suffix_rfl
  | cons node nodes ih =>
      rw [seek]
      split_ifs
      · exact ih.trans (List.suffix_cons node nodes)
      · exact List.suffix_rfl

theorem takeNext_append (taken : Node → List Node → Bool) (nodes : List Node) :
    (takeNext taken nodes).1 ++ (takeNext taken nodes).2 = nodes := by
  cases nodes with
  | nil => rfl
  | cons node nodes =>
      rw [takeNext]
      split_ifs <;> rfl

/-- What is taken and what is left make up the nodes, apart from those passed over. -/
theorem divide_append (slots nodes : List Node) (slot : Node) :
    (divide slots nodes slot).1 ++ (divide slots nodes slot).2 <:+ nodes := by
  cases slot with
  | conditional reference child => exact ⟨[], takeNext_append _ _⟩
  | loop reference template => exact ⟨[], takeRepetitions_append _ _ _⟩
  | doctype _ | element _ _ _ | text _ | comment _ | var _ | content | markdown _ =>
      rw [divide_of_not_isOptional rfl, takeNext_append]
      exact seek_suffix _ _ _

/-- A slot that must be filled takes the next node, or the next node is surplus, or the slot stays
empty. -/
theorem projectList_slot_cases
    (slots nodes : List Node) (hslot : slot.isOptional = false) :
    (∃ node rest, nodes = node :: rest ∧ accepts slot node = true ∧
        projectList (slot :: slots) nodes = slot.project node ++ projectList slots rest ∧
        divide slots nodes slot = ([node], rest)) ∨
      (∃ node rest, nodes = node :: rest ∧ slots.length < rest.length ∧
        .surplus node ∈ Finding.mismatches (projectList (slot :: slots) nodes)) ∨
      (∀ node ∈ nodes.head?, accepts slot node = false) ∧
        projectList (slot :: slots) nodes = .mismatch (.lacking slot) :: projectList slots nodes ∧
        divide slots nodes slot = ([], nodes) := by
  rw [projectList_of_not_isOptional hslot]
  cases nodes with
  | nil => exact Or.inr (Or.inr ⟨by simp, rfl, divide_of_not_isOptional hslot⟩)
  | cons node rest =>
      rw [fillSlot]
      split_ifs with haccepts hsurplus
      · exact Or.inl ⟨node, rest, rfl, haccepts, rfl, divide_of_accepts hslot haccepts⟩
      · exact Or.inr (Or.inl ⟨node, rest, rfl, hsurplus, by simp⟩)
      · refine Or.inr (Or.inr ⟨by simpa using haccepts, rfl, ?_⟩)
        rw [divide_of_not_isOptional hslot]
        simp [seek, takeNext, haccepts, hsurplus]

/-- A conditional takes the next node or nothing. -/
theorem divide_conditional_cases
    (reference : String) (child : Node) (slots nodes : List Node) :
    (∃ node rest, nodes = node :: rest ∧ accepts child node = true ∧
        projectList (.conditional reference child :: slots) nodes =
          child.project node ++ .entry reference (.flag true) :: projectList slots rest ∧
        divide slots nodes (.conditional reference child) = ([node], rest)) ∨
      projectList (.conditional reference child :: slots) nodes =
          .entry reference (.flag false) :: projectList slots nodes ∧
        divide slots nodes (.conditional reference child) = ([], nodes) := by
  rw [projectList, divide]
  cases nodes with
  | nil => exact Or.inr ⟨rfl, rfl⟩
  | cons node rest =>
      rw [fillConditional, takeNext]
      split_ifs with htaken
      · exact Or.inl ⟨node, rest, rfl, (Bool.and_eq_true_iff.mp htaken).2, rfl, rfl⟩
      · exact Or.inr ⟨rfl, rfl⟩

end Steps

/-! ## Rendering what was projected -/

/-- Nodes that resemble each other are accepted by the same slots. -/
theorem Resembles.accepts_eq
    {a b : Node} {as bs : List Node} (slot : Node) (h : Resembles (a :: as) (b :: bs)) :
    accepts slot a = accepts slot b := by
  cases h with
  | same => rfl
  | comment | element =>
      simp only [accepts, equivalent, core, kind]
      cases slot.core <;> rfl

/-- A slot of an inferred layout that does not stand for the body. -/
def IsClosedSlot (slot : Node) : Prop :=
  slot.IsSlot ∧ slot.kind ≠ .content

/-- Nothing was overlooked, and every mismatch is harmless. -/
structure Restored (scope : Record) (slots nodes : List Node) : Prop where
  harmless : ∀ mismatch ∈ Finding.mismatches (projectList slots nodes), mismatch.IsHarmless scope
  overlooked : overlookedList slots nodes = []

section Restored

variable {content slots nodes : List Node} {scope : Record}

/-- Every slot is rendered to at most one node. -/
theorem length_renderList_le
    (content : List Node) (scope : Record) (hslots : Everywhere IsClosedSlot slots) :
    (renderList content scope slots).length ≤ slots.length := by
  have hcons : ∀ {slot : Node} {slots : List Node}, (render content scope slot).length ≤ 1 →
      (renderList content scope slots).length ≤ slots.length →
      (renderList content scope (slot :: slots)).length ≤ (slot :: slots).length := by
    intro slot slots hhead hrest
    rw [renderList, List.length_append, List.length_cons]
    omega
  induction slots using Node.inductionOn with
  | nil => exact Nat.le_refl 0
  | doctype _ _ ih | text _ _ ih | comment _ _ ih =>
      exact hcons (Nat.le_refl 1) (ih (everywhere_cons.mp hslots).2)
  | element _ _ _ _ _ ih => exact hcons (Nat.le_refl 1) (ih (everywhere_cons.mp hslots).2)
  | var reference _ ih =>
      refine hcons ?_ (ih (everywhere_cons.mp hslots).2)
      rw [render]
      cases scope.text? reference <;> simp
  | conditional reference child slots ihChild ih =>
      obtain ⟨-, hchild, hrest⟩ := everywhere_conditional.mp hslots
      have hinside : (render content scope child).length ≤ 1 := by
        simpa [renderList] using ihChild hchild
      refine hcons ?_ (ih hrest)
      rw [render]
      cases scope.get? reference with
      | none => exact Nat.zero_le 1
      | some value =>
          simp only
          split_ifs
          · exact hinside
          · exact Nat.zero_le 1
  | content _ _ => exact absurd rfl (everywhere_content.mp hslots).1.2
  | markdown _ _ _ => exact absurd (everywhere_markdown.mp hslots).1.1 id
  | loop _ _ _ _ _ => exact absurd (everywhere_loop.mp hslots).1.1 id

theorem restored_iff :
    Restored scope slots nodes ↔
      (∀ mismatch ∈ Finding.mismatches (projectList slots nodes), mismatch.IsHarmless scope) ∧
        overlookedList slots nodes = [] :=
  ⟨fun h => ⟨h.harmless, h.overlooked⟩, fun h => ⟨h.1, h.2⟩⟩

theorem restored_nil : Restored scope [] [] :=
  ⟨by simp [projectList, Finding.mismatches], rfl⟩

/-- If the first slot takes a node, it depends on what is found in this node and on the rest. -/
theorem restored_taken_iff
    {slot node : Node} {rest : List Node} {found : List Finding}
    (hfound : Finding.mismatches (projectList (slot :: slots) nodes) =
      Finding.mismatches found ++ Finding.mismatches (projectList slots rest))
    (hdivide : divide slots nodes slot = ([node], rest)) :
    Restored scope (slot :: slots) nodes ↔
      ((∀ mismatch ∈ Finding.mismatches found, mismatch.IsHarmless scope) ∧
        slot.overlooked node = []) ∧ Restored scope slots rest := by
  have hoverlooked : overlookedList (slot :: slots) nodes =
      slot.overlooked node ++ overlookedList slots rest := by
    rw [overlookedList, hdivide, List.flatMap_singleton]
  constructor
  · rintro ⟨hharmless, hnone⟩
    rw [hfound, List.forall_mem_append] at hharmless
    rw [hoverlooked, List.append_eq_nil_iff] at hnone
    exact ⟨⟨hharmless.1, hnone.1⟩, ⟨hharmless.2, hnone.2⟩⟩
  · rintro ⟨⟨hhead, hnode⟩, ⟨hharmless, hnone⟩⟩
    refine ⟨?_, ?_⟩
    · rw [hfound, List.forall_mem_append]
      exact ⟨hhead, hharmless⟩
    · rw [hoverlooked, hnode, hnone]
      rfl

/-- If the first slot takes nothing and that does no harm, it depends on the later slots. -/
theorem restored_skipped_iff
    {slot : Node}
    (hfound : (∀ mismatch ∈ Finding.mismatches (projectList (slot :: slots) nodes),
        mismatch.IsHarmless scope) ↔
      ∀ mismatch ∈ Finding.mismatches (projectList slots nodes), mismatch.IsHarmless scope)
    (hdivide : divide slots nodes slot = ([], nodes)) :
    Restored scope (slot :: slots) nodes ↔ Restored scope slots nodes := by
  have hoverlooked : overlookedList (slot :: slots) nodes = overlookedList slots nodes := by
    rw [overlookedList, hdivide]
    rfl
  constructor
  · rintro ⟨hharmless, hnone⟩
    exact ⟨hfound.mp hharmless, hoverlooked ▸ hnone⟩
  · rintro ⟨hharmless, hnone⟩
    exact ⟨hfound.mpr hharmless, hoverlooked ▸ hnone⟩

/-- A slot that took a node is rendered to one node. -/
theorem Takes.exists_render
    {slot node : Node} (h : Takes slot node) (content : List Node) (hclosed : slot.IsClosedSlot)
    (hscope : scope.Agrees (Finding.entries (slot.project node))) :
    ∃ shown, render content scope slot = [shown] := by
  cases h with
  | doctype | text | comment | element => exact ⟨_, rfl⟩
  | content => exact absurd rfl hclosed.2
  | markdown => exact absurd hclosed.1 id
  | var reference value =>
      exact ⟨.text value, render_var_of_stored content (Record.agrees_cons.mp hscope).1⟩

/-- A slot that stays empty is a variable without a value, or rendered to a node that it accepts. -/
theorem render_empty_cases
    {slot : Node} (content : List Node) (scope : Record) (hslot : slot.isOptional = false)
    (hclosed : slot.IsClosedSlot) :
    ((Mismatch.lacking slot).IsHarmless scope ∧ render content scope slot = []) ∨
      ¬(Mismatch.lacking slot).IsHarmless scope ∧
        ∃ shown, render content scope slot = [shown] ∧ accepts slot shown = true := by
  cases slot with
  | doctype value => exact Or.inr ⟨id, _, rfl, accepts_self _⟩
  | text value => exact Or.inr ⟨id, _, rfl, accepts_self _⟩
  | comment value => exact Or.inr ⟨id, _, rfl, accepts_self _⟩
  | element name attrs slots =>
      exact Or.inr ⟨id, _, rfl, by simp [accepts, equivalent, core, sameSlot]⟩
  | var reference =>
      rw [Mismatch.IsHarmless, render]
      cases scope.text? reference with
      | none => exact Or.inl ⟨rfl, rfl⟩
      | some value => exact Or.inr ⟨by simp, .text value, rfl, by simp [accepts, equivalent, core,
          sameSlot, kind]⟩
  | content => exact absurd rfl hclosed.2
  | markdown _ => exact absurd hclosed.1 id
  | conditional _ _ | loop _ _ => simp [isOptional] at hslot

/-- A slot that must be filled, given what it makes of the node it takes. -/
theorem resembles_slot_iff
    {slot : Node} (hslot : slot.isOptional = false)
    (hclosed : Everywhere IsClosedSlot (slot :: slots)) (hconcrete : Concrete nodes)
    (hscope : scope.Agrees (Finding.entries (projectList (slot :: slots) nodes)))
    (hnode : ∀ node shown, Takes slot node → Concrete [node] →
      scope.Agrees (Finding.entries (slot.project node)) → render content scope slot = [shown] →
      (Resembles [node] [shown] ↔
        (∀ mismatch ∈ Finding.mismatches (slot.project node), mismatch.IsHarmless scope) ∧
          slot.overlooked node = []))
    (hrest : ∀ rest, Concrete rest → scope.Agrees (Finding.entries (projectList slots rest)) →
      (Resembles rest (renderList content scope slots) ↔ Restored scope slots rest)) :
    Resembles nodes (renderList content scope (slot :: slots)) ↔
      Restored scope (slot :: slots) nodes := by
  obtain ⟨hhead, htail⟩ := everywhere_cons.mp hclosed
  have hself : slot.IsClosedSlot := everywhere_head hhead
  rcases projectList_slot_cases slots nodes hslot with
    ⟨node, rest, rfl, haccepts, hfound, hdivide⟩ | ⟨node, rest, rfl, hlength, hsurplus⟩ |
    ⟨hnone, hfound, hdivide⟩
  · -- The next node is taken.
    obtain ⟨hplain, hconcreteRest⟩ := everywhere_cons.mp hconcrete
    have htakes : Takes slot node := by
      apply takes_of_accepts _ (isPlain_of_concrete_singleton hplain) haccepts
      cases slot <;> simp_all [kind, isOptional]
    rw [hfound, Finding.entries_append, Record.agrees_append] at hscope
    obtain ⟨shown, hshown⟩ := htakes.exists_render content hself hscope.1
    rw [renderList, hshown, List.singleton_append, resembles_cons_iff,
      hnode node shown htakes hplain hscope.1 hshown, hrest rest hconcreteRest hscope.2]
    exact (restored_taken_iff (by rw [hfound, Finding.mismatches_append]) hdivide).symm
  · -- There are more nodes than slots, and every slot is rendered to one node at most.
    constructor
    · intro hresembles
      have hlengths := hresembles.length_eq
      have hle := length_renderList_le content scope hclosed
      simp only [List.length_cons] at hlengths hle
      omega
    · intro hrestored
      exact absurd (hrestored.harmless _ hsurplus) id
  · -- The slot stays empty.
    rw [hfound] at hscope
    rcases render_empty_cases content scope hslot hself with
      ⟨hharmless, hrender⟩ | ⟨hharmful, shown, hrender, hshown⟩
    · rw [renderList, hrender, List.nil_append, hrest nodes hconcrete hscope]
      refine (restored_skipped_iff ?_ hdivide).symm
      rw [hfound, Finding.mismatches_mismatch, List.forall_mem_cons]
      exact and_iff_right hharmless
    · rw [renderList, hrender, List.singleton_append]
      constructor
      · intro hresembles
        cases nodes with
        | nil => exact absurd hresembles.length_eq (by simp)
        | cons node rest =>
            have hsame := hresembles.accepts_eq slot
            rw [hnone node rfl, hshown] at hsame
            exact absurd hsame (by simp)
      · intro hrestored
        exact absurd (hrestored.harmless _ (by rw [hfound]; exact List.mem_cons_self)) hharmful

/-- A conditional, given what its child makes of one node and what the later slots make of the
rest. -/
theorem resembles_conditional_iff
    {reference : String} {child : Node}
    (hclosed : Everywhere IsClosedSlot (.conditional reference child :: slots))
    (hconcrete : Concrete nodes)
    (hscope : scope.Agrees
      (Finding.entries (projectList (.conditional reference child :: slots) nodes)))
    (hchild : ∀ node, Concrete [node] →
      scope.Agrees (Finding.entries (projectList [child] [node])) →
      (Resembles [node] (renderList content scope [child]) ↔ Restored scope [child] [node]))
    (hrest : ∀ rest, Concrete rest → scope.Agrees (Finding.entries (projectList slots rest)) →
      (Resembles rest (renderList content scope slots) ↔ Restored scope slots rest)) :
    Resembles nodes (renderList content scope (.conditional reference child :: slots)) ↔
      Restored scope (.conditional reference child :: slots) nodes := by
  obtain ⟨⟨⟨-, hflat⟩, -⟩, hinside, -⟩ := everywhere_conditional.mp hclosed
  rcases divide_conditional_cases reference child slots nodes with
    ⟨node, rest, rfl, haccepts, hfound, hdivide⟩ | ⟨hfound, hdivide⟩
  · -- The next node is taken, so the child is shown.
    obtain ⟨hplain, hconcreteRest⟩ := everywhere_cons.mp hconcrete
    have htakes := takes_of_accepts hflat (isPlain_of_concrete_singleton hplain) haccepts
    have hslot := htakes.isOptional_eq_false
    have hone := projectList_singleton hslot haccepts
    rw [hfound, Finding.entries_append, Finding.entries_entry, Record.agrees_append,
      Record.agrees_cons] at hscope
    obtain ⟨hscopeChild, hflag, hscopeRest⟩ := hscope
    have hself : child.IsClosedSlot := everywhere_head hinside
    obtain ⟨shown, hshown⟩ := htakes.exists_render content hself hscopeChild
    have hrender : render content scope (.conditional reference child) = [shown] := by
      rw [render, hflag, ← hshown]
      rfl
    have hsingle : Finding.mismatches (projectList [child] [node]) =
        Finding.mismatches (child.project node) ++ Finding.mismatches (projectList [] []) := by
      rw [hone]
      exact (List.append_nil _).symm
    have hchildIff := hchild node hplain (by rwa [hone])
    rw [renderList, renderList, List.append_nil, hshown,
      restored_taken_iff hsingle (divide_of_accepts hslot haccepts),
      and_iff_left restored_nil] at hchildIff
    rw [renderList, hrender, List.singleton_append, resembles_cons_iff, hchildIff,
      hrest rest hconcreteRest hscopeRest]
    refine (restored_taken_iff ?_ hdivide).symm
    rw [hfound, Finding.mismatches_append, Finding.mismatches_entry]
  · -- Nothing is taken: the stored flag hides the child.
    rw [hfound, Finding.entries_entry, Record.agrees_cons] at hscope
    have hrender : render content scope (.conditional reference child) = [] := by
      rw [render, hscope.1]
      rfl
    rw [renderList, hrender, List.nil_append, hrest nodes hconcrete hscope.2]
    refine (restored_skipped_iff ?_ hdivide).symm
    rw [hfound, Finding.mismatches_entry]

/-- The nodes come back, up to the order of attributes and the values of comments, exactly if
nothing was overlooked and every mismatch is harmless. -/
theorem resembles_renderList_iff
    (content : List Node)
    (hclosed : Everywhere IsClosedSlot slots) (hconcrete : Concrete nodes)
    (hscope : scope.Agrees (Finding.entries (projectList slots nodes))) :
    Resembles nodes (renderList content scope slots) ↔ Restored scope slots nodes := by
  induction slots using Node.inductionOn generalizing nodes with
  | nil =>
      cases nodes with
      | nil => exact iff_of_true .nil restored_nil
      | cons node nodes =>
          apply iff_of_false
          · exact fun h => absurd h.length_eq (by simp [renderList])
          · intro h
            exact h.harmless (.surplus node) (by simp [projectList, Finding.mismatches])
  | doctype value slots ih =>
      refine resembles_slot_iff rfl hclosed hconcrete hscope ?_ fun rest =>
        ih (everywhere_cons.mp hclosed).2
      rintro _ _ ⟨⟩ _ _ ⟨⟩
      exact iff_of_true (.refl _) ⟨by simp [project, Finding.mismatches], rfl⟩
  | text value slots ih =>
      refine resembles_slot_iff rfl hclosed hconcrete hscope ?_ fun rest =>
        ih (everywhere_cons.mp hclosed).2
      rintro _ _ ⟨⟩ _ _ ⟨⟩
      exact iff_of_true (.refl _) ⟨by simp [project, Finding.mismatches], rfl⟩
  | comment value slots ih =>
      refine resembles_slot_iff rfl hclosed hconcrete hscope ?_ fun rest =>
        ih (everywhere_cons.mp hclosed).2
      rintro _ _ htakes _ _ ⟨⟩
      cases htakes with
      | comment _ other =>
          exact iff_of_true (.comment other value .nil) ⟨by simp [project, Finding.mismatches], rfl⟩
  | var reference slots ih =>
      refine resembles_slot_iff rfl hclosed hconcrete hscope ?_ fun rest =>
        ih (everywhere_cons.mp hclosed).2
      intro node shown htakes _ hfound hshown
      cases htakes with
      | var _ value =>
          have hrender := render_var_of_stored content (Record.agrees_cons.mp hfound).1
          obtain rfl : shown = .text value := by simpa using hshown.symm.trans hrender
          exact iff_of_true (.refl _) ⟨by simp [project, Finding.mismatches], rfl⟩
  | element name attrs children slots ihChildren ih =>
      obtain ⟨⟨⟨hnames, hslots⟩, -⟩, hinside, hrest⟩ := everywhere_element.mp hclosed
      refine resembles_slot_iff rfl hclosed hconcrete hscope ?_ fun rest => ih hrest
      rintro _ _ htakes hplain hfound ⟨⟩
      cases htakes with
      | element _ _ concrete _ inner =>
          obtain ⟨hstatic, hinner, -⟩ := everywhere_element.mp hplain
          -- What was found in the attributes and in the children is stored side by side.
          rw [project, Finding.entries_append, Record.agrees_append] at hfound
          rw [resembles_element_iff, ihChildren hinside hinner hfound.2,
            Attribute.perm_filterMap_render?_iff hslots hnames hstatic hfound.1, project,
            Finding.mismatches_append, List.forall_mem_append, Attribute.harmless_project_iff,
            overlooked, List.append_eq_nil_iff, restored_iff]
          exact and_and_and_comm
  | conditional reference child slots ihChild ih =>
      obtain ⟨-, hchild, hrest⟩ := everywhere_conditional.mp hclosed
      exact resembles_conditional_iff hclosed hconcrete hscope (fun node => ihChild hchild)
        fun rest => ih hrest
  | content _ _ => exact absurd rfl (everywhere_content.mp hclosed).1.2
  | markdown _ _ _ => exact absurd (everywhere_markdown.mp hclosed).1.1 id
  | loop _ _ _ _ _ => exact absurd (everywhere_loop.mp hclosed).1.1 id

end Restored

end Node

/-! ## Projected pages -/

theorem Node.isRegular_of_isSlot {node : Node} (h : node.IsSlot) : node.IsRegular := by
  cases node with
  | element name attrs children => exact ⟨h.1, trivial, trivial⟩
  | conditional reference child => exact ⟨trivial, h.2, trivial⟩
  | markdown _ | loop _ _ => exact absurd h id
  | doctype _ | text _ | comment _ | var _ | content => exact ⟨trivial, trivial, trivial⟩

/-- A projected page that fits the layout has the outline of its source, with the body put in. -/
theorem Page.outlineList_render_of_fits
    {layout : Layout} (page : Page) (hlayout : layout.WellFormed)
    (hsource : Node.Concrete page.source)
    (hfits : Finding.mismatches (page.findings layout) = []) :
    Node.outlineList ((page.project layout).render layout) =
      Node.outlineList (Node.expandList page.content page.source) := by
  have hregular : Node.Everywhere Node.IsRegular layout.tree := fun node hnode =>
    Node.isRegular_of_isSlot (hlayout.slots node hnode)
  obtain ⟨filled, hfilled, hrender⟩ := Node.yields_of_fits page.content hregular hsource hfits
  have hrendered : (page.project layout).render layout = filled :=
    hrender _ (page.agrees_project hlayout.references)
  rw [hrendered, hfilled.outlineList_eq]

/-- A projected page comes back, up to the order of attributes and the values of comments, exactly
if nothing was overlooked and every mismatch is harmless. -/
theorem Page.resembles_render_iff
    {layout : Layout} (page : Page) (hclosed : Node.Everywhere Node.IsClosedSlot layout.tree)
    (hdistinct : layout.references.Nodup) (hsource : Node.Concrete page.source) :
    Node.Resembles page.source ((page.project layout).render layout) ↔
      Node.Restored (page.project layout).data layout.tree page.source :=
  Node.resembles_renderList_iff page.content hclosed hsource (page.agrees_project hdistinct)

end Stencil
