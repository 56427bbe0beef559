import Stencil.Proofs.Page.Filling

/-!
# Projecting a rendered layout

A tree that was rendered from a layout need not fit it.  A conditional takes the next node if its
child accepts it and enough nodes stay for the later slots, without regard to which of them these
nodes fit; so it may take a node that was rendered from a later slot.  This does not happen exactly
if the values are the earliest ones (`Node.EarliestList`): a conditional is hidden only if its child
does not accept the next node, or if no later conditional shows.

Such values are read back from what they are rendered to (`Node.isIn_projectList_iff`).  The values
found in a tree that fits and comes back are themselves the earliest ones for this tree, so a
rendered tree fits and comes back exactly if some values render it in this way
(`restored_iff_exists_earliest`).
-/

namespace Stencil

/-! ## Records that bind a layout -/

/-- The kinds of values. -/
inductive Value.Kind where
  | flag | text | list
  deriving DecidableEq, Repr

/-- The kind of a value. -/
def Value.kind : Value → Kind
  | .flag _ => .flag
  | .text _ => .text
  | .list _ => .list

namespace Record

/-- The record has a value of the kind under the reference. -/
def Has (record : Record) (kind : Value.Kind) (reference : String) : Prop :=
  (record.get? reference).map Value.kind = some kind

/-- The record has values of the same kinds as the entries. -/
def Admits (record : Record) (entries : List (String × Value)) : Prop :=
  ∀ entry ∈ entries, record.Has entry.2.kind entry.1

section Has

variable {record : Record} {entries : List (String × Value)} {kind : Value.Kind}
  {reference : String}

theorem Has.exists_text (h : record.Has .text reference) :
    ∃ value, record.get? reference = some (.text value) := by
  obtain ⟨value, hvalue, hkind⟩ := Option.map_eq_some_iff.mp h
  cases value with
  | text value => exact ⟨value, hvalue⟩
  | flag _ | list _ => simp [Value.kind] at hkind

theorem Has.exists_flag (h : record.Has .flag reference) :
    ∃ shows, record.get? reference = some (.flag shows) := by
  obtain ⟨value, hvalue, hkind⟩ := Option.map_eq_some_iff.mp h
  cases value with
  | flag shows => exact ⟨shows, hvalue⟩
  | text _ | list _ => simp [Value.kind] at hkind

/-- Storing values of the same kinds keeps the kinds. -/
theorem Has.extend
    (hdistinct : (entries.map Prod.fst).Nodup) (hkinds : record.Admits entries)
    (h : record.Has kind reference) :
    (record.extend entries).Has kind reference := by
  rcases get?_extend_cases record hdistinct reference with hkept | ⟨value, hentry, hfound⟩
  · rwa [Has, hkept]
  · have hkind : value.kind = kind := Option.some.inj ((hkinds _ hentry).symm.trans h)
    rw [Has, hfound, Option.map_some, hkind]

end Has

end Record

namespace Node

/-- A node other than the body, a Markdown text and a loop, without conditional attributes. -/
def IsSimple : Node → Prop
  | .element _ attrs _ => ∀ attr ∈ attrs, ∀ reference, attr.value ≠ .conditional reference
  | .doctype _ | .text _ | .comment _ | .var _ | .conditional .. => True
  | .content | .markdown _ | .loop .. => False

/-- The record has a text for a variable or a variable attribute, and a flag for a conditional. -/
def Binds (record : Record) : Node → Prop
  | .element _ attrs _ =>
    ∀ attr ∈ attrs, ∀ reference, attr.value = .var reference → record.Has .text reference
  | .var reference => record.Has .text reference
  | .conditional reference _ => record.Has .flag reference
  | .doctype _ | .text _ | .comment _ | .content | .markdown _ | .loop .. => True

/-- A simple node of a regular layout whose values the record has. -/
structure IsBound (record : Record) (node : Node) : Prop where
  simple : node.IsSimple
  names : node.DistinctNames
  guard : node.FlatGuard
  binds : node.Binds record

/-! ## Earliest values -/

section Earliest

variable (content : List Node) (scope : Record)

/-- The slot is a conditional that shows its child. -/
def shows : Node → Bool
  | .conditional reference _ => (scope.get? reference).any Value.isTruthy
  | _ => false

/-- Before the given slots, a conditional is hidden only if its child does not accept the next node
or if no later conditional shows. -/
def Excused (slots : List Node) : Node → Prop
  | .conditional reference child =>
    shows scope (.conditional reference child) = true ∨
      (∀ node ∈ (renderList content scope slots).head?, accepts child node = false) ∨
      ∀ later ∈ slots, shows scope later = false
  | _ => True

mutual

/-- Below the node, every hidden conditional among rendered siblings is excused. -/
def Earliest : Node → Prop
  | .element _ _ children => EarliestList children
  | .conditional reference child =>
    shows scope (.conditional reference child) = true → Earliest child
  | _ => True

/-- Every hidden conditional among the slots is excused, and so is every one among rendered siblings
below them. -/
def EarliestList : List Node → Prop
  | [] => True
  | slot :: slots => slot.Excused content scope slots ∧ Earliest slot ∧ EarliestList slots

end

end Earliest

section Rendering

variable {content slots : List Node} {slot : Node} {scope : Record}

theorem shows_of_flag {reference : String} {flag : Bool} {child : Node}
    (h : scope.get? reference = some (.flag flag)) :
    shows scope (.conditional reference child) = flag := by
  rw [shows, h]
  rfl

theorem earliestList_singleton :
    EarliestList content scope [slot] ↔ Earliest content scope slot := by
  have hexcused : slot.Excused content scope [] := by
    cases slot with
    | conditional reference child => exact Or.inr (Or.inr fun _ h => absurd h List.not_mem_nil)
    | _ => exact trivial
  simp [EarliestList, hexcused]

/-! ## Rendering simple slots -/

theorem IsBound.isOptional_child {reference : String} {child : Node}
    (h : Everywhere (IsBound scope) (.conditional reference child :: slots)) :
    child.isOptional = false := by
  obtain ⟨hself, hchild, -⟩ := everywhere_conditional.mp h
  have hguard := hself.guard
  have hsimple := (everywhere_head hchild).simple
  cases child <;> simp_all [isOptional, FlatGuard, IsSimple, kind]

/-- A slot that must be filled is rendered to one node, which it accepts. -/
theorem IsBound.exists_render
    (h : slot.IsBound scope) (hslot : slot.isOptional = false) (content : List Node) :
    ∃ node, render content scope slot = [node] ∧ accepts slot node = true := by
  cases slot with
  | doctype _ | text _ | comment _ => exact ⟨_, rfl, accepts_self _⟩
  | element name attrs children =>
      exact ⟨_, rfl, accepts_of_equivalent (by simp [equivalent, core, sameSlot])⟩
  | var reference =>
      obtain ⟨value, hvalue⟩ := Record.Has.exists_text h.binds
      exact ⟨.text value, render_var_of_stored content hvalue, rfl⟩
  | conditional _ _ => simp [isOptional] at hslot
  | content | markdown _ | loop _ _ => exact absurd h.simple id

theorem render_conditional_of_flag {reference : String} {flag : Bool}
    (h : scope.get? reference = some (.flag flag)) (content : List Node) (child : Node) :
    render content scope (.conditional reference child) =
      if flag then render content scope child else [] := by
  rw [render, h]
  rfl

/-- There is a node for every slot that must be filled and for every conditional that shows. -/
theorem length_renderList
    (content : List Node) (h : Everywhere (IsBound scope) slots) :
    (renderList content scope slots).length = required slots + slots.countP (shows scope) := by
  induction slots with
  | nil => rfl
  | cons slot slots ih =>
      obtain ⟨hhead, hrest⟩ := everywhere_cons.mp h
      have hself := everywhere_head hhead
      have hlength : (render content scope slot).length =
          (if slot.isOptional then 0 else 1) + if shows scope slot then 1 else 0 := by
        cases slot with
        | conditional reference child =>
            obtain ⟨flag, hflag⟩ := Record.Has.exists_flag hself.binds
            obtain ⟨-, hchild, -⟩ := everywhere_conditional.mp h
            obtain ⟨node, hnode, -⟩ :=
              (everywhere_head hchild).exists_render (IsBound.isOptional_child h) content
            rw [render_conditional_of_flag hflag, shows_of_flag hflag, hnode]
            cases flag <;> rfl
        | doctype _ | text _ | comment _ | var _ | element _ _ _ =>
            obtain ⟨node, hnode, -⟩ := hself.exists_render rfl content
            rw [hnode]
            rfl
        | content | markdown _ | loop _ _ => exact absurd hself.simple id
      rw [renderList, List.length_append, ih hrest, hlength, required_cons, List.countP_cons]
      omega

/-- No more nodes are rendered than must be taken exactly if no conditional shows. -/
theorem length_renderList_le_required_iff
    (content : List Node) (h : Everywhere (IsBound scope) slots) :
    (renderList content scope slots).length ≤ required slots ↔
      ∀ slot ∈ slots, shows scope slot = false := by
  have hnone : slots.countP (shows scope) = 0 ↔ ∀ slot ∈ slots, shows scope slot = false := by
    simp [List.countP_eq_zero]
  rw [length_renderList content h, ← hnone]
  omega

end Rendering

end Node

/-! ## Reading values back -/

/-- What was found is a value of the record. -/
def Finding.IsIn (record : Record) : Finding → Prop
  | .entry reference value => record.get? reference = some value
  | .mismatch _ => False

theorem Finding.forall_isIn_iff {record : Record} {findings : List Finding} :
    (∀ found ∈ findings, found.IsIn record) ↔
      mismatches findings = [] ∧ record.Agrees (entries findings) := by
  induction findings with
  | nil => simp [mismatches, entries, Record.Agrees]
  | cons finding findings ih =>
      rw [List.forall_mem_cons, ih]
      cases finding with
      | entry reference value =>
          rw [mismatches_entry, entries_entry, Record.agrees_cons]
          exact and_left_comm
      | mismatch found => simp [IsIn]

namespace Attribute

variable {scope : Record} {declared : List Attribute}

theorem exists_static_of_render?
    {attr filled : Attribute} (h : render? scope attr = some filled) :
    ∃ value, filled = static attr.name value := by
  obtain ⟨name, slot⟩ := attr
  cases slot with
  | literal _ | var _ => exact ⟨_, (Option.some.inj h).symm⟩
  | conditional _ =>
      obtain ⟨value, -, rfl⟩ := Option.map_eq_some_iff.mp h
      exact ⟨value, rfl⟩

theorem names_filterMap_render?_sublist (scope : Record) (declared : List Attribute) :
    ((declared.filterMap (render? scope)).map Attribute.name).Sublist
      (declared.map Attribute.name) := by
  induction declared with
  | nil => exact List.Sublist.refl _
  | cons attr declared ih =>
      rw [List.filterMap_cons, List.map_cons]
      cases hfilled : render? scope attr with
      | none => exact ih.cons _
      | some filled =>
          obtain ⟨value, rfl⟩ := exists_static_of_render? hfilled
          exact ih.cons_cons _

theorem static_filterMap_render? (scope : Record) (hnames : (declared.map Attribute.name).Nodup) :
    Static (declared.filterMap (render? scope)) := by
  refine ⟨fun filled hfilled => ?_, hnames.sublist (names_filterMap_render?_sublist scope _)⟩
  obtain ⟨attr, -, hattr⟩ := List.mem_filterMap.mp hfilled
  obtain ⟨value, rfl⟩ := exists_static_of_render? hattr
  rfl

/-- The values of attributes are read back from what they are rendered to. -/
theorem isIn_of_mem_project
    (element : String) (hnames : (declared.map Attribute.name).Nodup)
    (hsimple : ∀ attr ∈ declared, ∀ reference, attr.value ≠ .conditional reference)
    (hbinds : ∀ attr ∈ declared, ∀ reference, attr.value = .var reference →
      scope.Has .text reference) :
    ∀ found ∈ project element declared (declared.filterMap (render? scope)), found.IsIn scope := by
  intro found hfound
  obtain ⟨⟨name, slot⟩, hattr, hproject⟩ := List.mem_filterMap.mp hfound
  cases slot with
  | literal _ => simp at hproject
  | conditional reference => exact absurd rfl (hsimple _ hattr reference)
  | var reference =>
      obtain ⟨value, hvalue⟩ := (hbinds _ hattr reference rfl).exists_text
      have hrendered : static name value ∈ declared.filterMap (render? scope) :=
        List.mem_filterMap.mpr
          ⟨_, hattr, by simp [render?, Record.text?, hvalue, Value.text?]⟩
      have hlast := (lastLiteral?_eq_some_iff (static_filterMap_render? scope hnames)).mpr hrendered
      simp only [hlast, Option.some.injEq] at hproject
      obtain rfl := hproject
      exact hvalue

end Attribute

namespace Node

section Reading

variable {content slots nodes : List Node} {scope : Record}

/-- A tree rendered from simple slots is concrete. -/
theorem concrete_renderList
    (content : List Node) (h : Everywhere (IsBound scope) slots) :
    Concrete (renderList content scope slots) := by
  induction slots using Node.inductionOn with
  | nil => exact everywhere_nil
  | doctype _ _ ih | text _ _ ih | comment _ _ ih =>
      exact everywhere_cons.mpr ⟨everywhere_leaf rfl |>.mpr ⟨trivial, everywhere_nil⟩,
        ih (everywhere_cons.mp h).2⟩
  | var reference slots ih =>
      obtain ⟨hself, hrest⟩ := everywhere_var.mp h
      obtain ⟨value, hvalue⟩ := Record.Has.exists_text hself.binds
      rw [renderList, render_var_of_stored content hvalue]
      exact everywhere_text.mpr ⟨trivial, ih hrest⟩
  | element name attrs children slots ihChildren ih =>
      obtain ⟨hself, hchildren, hrest⟩ := everywhere_element.mp h
      exact everywhere_element.mpr
        ⟨Attribute.static_filterMap_render? scope hself.names, ihChildren hchildren, ih hrest⟩
  | conditional reference child slots ihChild ih =>
      obtain ⟨hself, hchild, hrest⟩ := everywhere_conditional.mp h
      obtain ⟨flag, hflag⟩ := Record.Has.exists_flag hself.binds
      rw [renderList, render_conditional_of_flag hflag]
      refine everywhere_append.mpr ⟨?_, ih hrest⟩
      cases flag with
      | false => exact everywhere_nil
      | true => simpa [renderList] using ihChild hchild
  | content _ _ => exact absurd (everywhere_content.mp h).1.simple id
  | markdown _ _ _ => exact absurd (everywhere_markdown.mp h).1.simple id
  | loop _ _ _ _ _ => exact absurd (everywhere_loop.mp h).1.simple id

/-- A slot that must be filled takes the node that it was rendered to. -/
theorem projectList_renderList_slot
    {slot node : Node} (hslot : slot.isOptional = false)
    (hrender : render content scope slot = [node]) (haccepts : accepts slot node = true) :
    projectList (slot :: slots) (renderList content scope (slot :: slots)) =
      slot.project node ++ projectList slots (renderList content scope slots) := by
  rw [renderList, hrender, List.singleton_append, projectList_cons_of_accepts hslot haccepts]

/-- A conditional takes nothing if no node is left over. -/
theorem projectList_conditional_of_le
    {reference : String} {child : Node} (h : nodes.length ≤ required slots) :
    projectList (.conditional reference child :: slots) nodes =
      .entry reference (.flag false) :: projectList slots nodes := by
  cases nodes with
  | nil => rw [projectList, fillConditional]
  | cons node nodes =>
      rw [List.length_cons] at h
      rw [projectList, fillConditional, if_neg (by simp; omega)]

/-- A hidden conditional that is excused takes nothing. -/
theorem projectList_conditional_of_excused
    {reference : String} {child : Node}
    (hslots : Everywhere (IsBound scope) slots)
    (hhidden : scope.get? reference = some (.flag false))
    (h : (Node.conditional reference child).Excused content scope slots) :
    projectList (.conditional reference child :: slots) (renderList content scope slots) =
      .entry reference (.flag false) :: projectList slots (renderList content scope slots) := by
  rcases h with hshows | hnext | hlater
  · rw [shows_of_flag hhidden] at hshows
    exact absurd hshows Bool.false_ne_true
  · exact projectList_conditional_of_not_accepts hnext
  · exact projectList_conditional_of_le
      ((length_renderList_le_required_iff content hslots).mpr hlater)

/-- A hidden conditional that is not excused takes a node of a later one. -/
theorem projectList_conditional_of_not_excused
    {reference : String} {child : Node}
    (hslots : Everywhere (IsBound scope) slots)
    (h : ¬(Node.conditional reference child).Excused content scope slots) :
    .entry reference (.flag true) ∈
      projectList (.conditional reference child :: slots) (renderList content scope slots) := by
  obtain ⟨-, hnext, hlater⟩ := by simpa only [Excused, not_or] using h
  rw [← length_renderList_le_required_iff content hslots] at hlater
  cases hnodes : renderList content scope slots with
  | nil => simp [hnodes] at hnext
  | cons node nodes =>
      rw [hnodes, List.length_cons] at hlater
      have haccepts : accepts child node = true := by simpa [hnodes] using hnext
      rw [projectList_conditional_of_accepts (by omega) haccepts]
      exact List.mem_append_right _ List.mem_cons_self

/-- A conditional, given what its child and the later slots read back. -/
theorem isIn_conditional_iff
    {reference : String} {child : Node}
    (h : Everywhere (IsBound scope) (.conditional reference child :: slots))
    (hchild : (∀ found ∈ projectList [child] (renderList content scope [child]),
      found.IsIn scope) ↔ EarliestList content scope [child])
    (hrest : (∀ found ∈ projectList slots (renderList content scope slots), found.IsIn scope) ↔
      EarliestList content scope slots) :
    (∀ found ∈ projectList (.conditional reference child :: slots)
        (renderList content scope (.conditional reference child :: slots)), found.IsIn scope) ↔
      EarliestList content scope (.conditional reference child :: slots) := by
  obtain ⟨hself, hinside, hslots⟩ := everywhere_conditional.mp h
  obtain ⟨flag, hflag⟩ := Record.Has.exists_flag hself.binds
  have hshows : shows scope (.conditional reference child) = flag := shows_of_flag hflag
  rw [EarliestList, Earliest]
  cases flag with
  | true =>
      -- The child is shown, so the conditional takes its node.
      have hslot := IsBound.isOptional_child h
      obtain ⟨node, hrender, haccepts⟩ := (everywhere_head hinside).exists_render hslot content
      have hspare : required slots ≤ (renderList content scope slots).length := by
        rw [length_renderList content hslots]
        exact Nat.le_add_right _ _
      have hexcused : (Node.conditional reference child).Excused content scope slots :=
        Or.inl hshows
      rw [renderList, renderList, List.append_nil, hrender, projectList_singleton hslot haccepts,
        earliestList_singleton] at hchild
      rw [renderList, render_conditional_of_flag hflag, if_pos rfl, hrender,
        List.singleton_append, projectList_conditional_of_accepts hspare haccepts,
        List.forall_mem_append, List.forall_mem_cons, hchild, hrest,
        and_iff_right (show Finding.IsIn scope (.entry reference (.flag true)) from hflag)]
      simp [hexcused, hshows]
  | false =>
      -- The child is hidden, so the conditional must take nothing.
      rw [renderList, render_conditional_of_flag hflag, if_neg Bool.false_ne_true, List.nil_append]
      by_cases hexcused : (Node.conditional reference child).Excused content scope slots
      · rw [projectList_conditional_of_excused hslots hflag hexcused, List.forall_mem_cons, hrest,
          and_iff_right (show Finding.IsIn scope (.entry reference (.flag false)) from hflag)]
        simp [hexcused, hshows]
      · refine iff_of_false (fun hfound => ?_) fun hearliest => hexcused hearliest.1
        have htaken : scope.get? reference = some (.flag true) :=
          hfound _ (projectList_conditional_of_not_excused hslots hexcused)
        exact absurd (hflag.symm.trans htaken) (by simp)

/-- Values are read back from what simple slots are rendered to exactly if they are the earliest
ones. -/
theorem isIn_projectList_iff
    (content : List Node) (h : Everywhere (IsBound scope) slots) :
    (∀ found ∈ projectList slots (renderList content scope slots), found.IsIn scope) ↔
      EarliestList content scope slots := by
  induction slots using Node.inductionOn with
  | nil => simp [projectList, renderList, EarliestList]
  | doctype _ slots ih | text _ slots ih | comment _ slots ih =>
      rw [projectList_renderList_slot rfl rfl (accepts_self _), List.forall_mem_append,
        ih (everywhere_cons.mp h).2]
      simp [project, EarliestList, Excused, Earliest]
  | var reference slots ih =>
      obtain ⟨hself, hrest⟩ := everywhere_var.mp h
      obtain ⟨value, hvalue⟩ := Record.Has.exists_text hself.binds
      rw [projectList_renderList_slot rfl (render_var_of_stored content hvalue) rfl,
        List.forall_mem_append, ih hrest]
      simp [project, EarliestList, Excused, Earliest, Finding.IsIn, hvalue]
  | element name attrs children slots ihChildren ih =>
      obtain ⟨hself, hchildren, hrest⟩ := everywhere_element.mp h
      have hattrs := Attribute.isIn_of_mem_project name hself.names hself.simple hself.binds
      rw [projectList_renderList_slot rfl rfl (accepts_of_equivalent (by simp [equivalent, core,
        sameSlot])), project, List.forall_mem_append, List.forall_mem_append,
        ihChildren hchildren, ih hrest, and_iff_right hattrs]
      simp [EarliestList, Excused, Earliest]
  | conditional reference child slots ihChild ih =>
      obtain ⟨-, hchild, hrest⟩ := everywhere_conditional.mp h
      exact isIn_conditional_iff h (ihChild hchild) (ih hrest)
  | content _ _ => exact absurd (everywhere_content.mp h).1.simple id
  | markdown _ _ _ => exact absurd (everywhere_markdown.mp h).1.simple id
  | loop _ _ _ _ _ => exact absurd (everywhere_loop.mp h).1.simple id

/-! ## Values of the same kinds -/

theorem admits_attributes
    (element : String) {attrs : List Attribute} (concrete : List Attribute)
    (hsimple : ∀ attr ∈ attrs, ∀ reference, attr.value ≠ .conditional reference)
    (hbinds : ∀ attr ∈ attrs, ∀ reference, attr.value = .var reference →
      scope.Has .text reference) :
    scope.Admits (Finding.entries (Attribute.project element attrs concrete)) := by
  intro entry hentry
  obtain ⟨finding, hfinding, hvalue⟩ := List.mem_filterMap.mp hentry
  obtain ⟨⟨name, slot⟩, hattr, hproject⟩ := List.mem_filterMap.mp hfinding
  cases slot with
  | literal _ => simp at hproject
  | conditional reference => exact absurd rfl (hsimple _ hattr reference)
  | var reference =>
      cases hlast : Attribute.lastLiteral? concrete name with
      | none =>
          simp only [hlast, Option.some.injEq] at hproject
          obtain rfl := hproject
          simp at hvalue
      | some value =>
          simp only [hlast, Option.some.injEq] at hproject
          obtain rfl := hproject
          obtain rfl := Option.some.inj hvalue
          exact hbinds _ hattr reference rfl

/-- A slot that must be filled, given what it finds in the node that it takes. -/
theorem admits_slot
    {slot : Node} (hslot : slot.isOptional = false)
    (hfits : Finding.mismatches (projectList (slot :: slots) nodes) = [])
    (hnode : ∀ node, Finding.mismatches (slot.project node) = [] →
      scope.Admits (Finding.entries (slot.project node)))
    (hrest : ∀ rest, Finding.mismatches (projectList slots rest) = [] →
      scope.Admits (Finding.entries (projectList slots rest))) :
    scope.Admits (Finding.entries (projectList (slot :: slots) nodes)) := by
  obtain ⟨node, rest, rfl, -, hfound⟩ := projectList_slot_of_fits hslot hfits
  rw [hfound, Finding.mismatches_append, List.append_eq_nil_iff] at hfits
  rw [hfound, Finding.entries_append, Record.Admits, List.forall_mem_append]
  exact ⟨hnode node hfits.1, hrest rest hfits.2⟩

/-- The values found in a tree that fits are of the kinds that the layout needs. -/
theorem admits_of_fits
    (h : Everywhere (IsBound scope) slots)
    (hfits : Finding.mismatches (projectList slots nodes) = []) :
    scope.Admits (Finding.entries (projectList slots nodes)) := by
  induction slots using Node.inductionOn generalizing nodes with
  | nil =>
      cases nodes with
      | nil => exact fun _ hentry => absurd hentry List.not_mem_nil
      | cons node nodes => simp [projectList, Finding.mismatches] at hfits
  | doctype _ slots ih | text _ slots ih | comment _ slots ih =>
      refine admits_slot rfl hfits ?_ fun rest => ih (everywhere_cons.mp h).2
      rintro node - entry hentry
      cases node <;> exact absurd hentry List.not_mem_nil
  | var reference slots ih =>
      obtain ⟨hself, hrest⟩ := everywhere_var.mp h
      refine admits_slot rfl hfits ?_ fun rest => ih hrest
      rintro node - entry hentry
      cases node with
      | text value =>
          obtain rfl := List.mem_singleton.mp hentry
          exact hself.binds
      | _ => exact absurd hentry List.not_mem_nil
  | element name attrs children slots ihChildren ih =>
      obtain ⟨hself, hchildren, hrest⟩ := everywhere_element.mp h
      refine admits_slot rfl hfits ?_ fun rest => ih hrest
      intro node hnode
      cases node with
      | element _ concrete inner =>
          rw [project, Finding.mismatches_append, List.append_eq_nil_iff] at hnode
          rw [project, Finding.entries_append, Record.Admits, List.forall_mem_append]
          exact ⟨admits_attributes name concrete hself.simple hself.binds,
            ihChildren hchildren hnode.2⟩
      | _ => exact fun _ hentry => absurd hentry List.not_mem_nil
  | conditional reference child slots ihChild ih =>
      obtain ⟨hself, hchild, hrest⟩ := everywhere_conditional.mp h
      rcases projectList_conditional_cases reference child slots nodes with
        hskipped | ⟨node, rest, rfl, haccepts, htaken⟩
      · rw [hskipped, Finding.mismatches_entry] at hfits
        rw [hskipped, Finding.entries_entry, Record.Admits, List.forall_mem_cons]
        exact ⟨hself.binds, ih hrest hfits⟩
      · have hone := projectList_singleton (IsBound.isOptional_child h) haccepts
        rw [htaken, Finding.mismatches_append, Finding.mismatches_entry,
          List.append_eq_nil_iff] at hfits
        rw [htaken, Finding.entries_append, Finding.entries_entry, Record.Admits,
          List.forall_mem_append, List.forall_mem_cons, ← hone]
        exact ⟨ihChild hchild (by rw [hone, hfits.1]), hself.binds, ih hrest hfits.2⟩
  | content _ _ => exact absurd (everywhere_content.mp h).1.simple id
  | markdown _ _ _ => exact absurd (everywhere_markdown.mp h).1.simple id
  | loop _ _ _ _ _ => exact absurd (everywhere_loop.mp h).1.simple id

end Reading

/-- Values of the same kinds bind the same nodes. -/
theorem Binds.extend
    {record : Record} {entries : List (String × Value)} {node : Node}
    (hdistinct : (entries.map Prod.fst).Nodup) (hkinds : record.Admits entries)
    (h : node.Binds record) :
    node.Binds (record.extend entries) := by
  cases node with
  | element name attrs children =>
      exact fun attr hattr reference hvalue =>
        (h attr hattr reference hvalue).extend hdistinct hkinds
  | var reference => exact Record.Has.extend hdistinct hkinds h
  | conditional reference child => exact Record.Has.extend hdistinct hkinds h
  | doctype _ | text _ | comment _ | content | markdown _ | loop _ _ => trivial

end Node

/-! ## Rendered pages -/

/-- A page that was rendered from a layout fits it and comes back exactly if its tree is also
rendered with the earliest values. -/
theorem restored_iff_exists_earliest
    {layout : Layout} {page : Page} {data : Record}
    (hlayout : layout.Regular) (hsimple : Node.Everywhere Node.IsSimple layout.tree)
    (hbinds : Node.Everywhere (Node.Binds data) layout.tree)
    (hsource : page.source = { page with data := data }.render layout) :
    page.projectWarnings layout = [] ∧ (page.project layout).render layout = page.source ↔
      ∃ earliest : Record, Node.Everywhere (Node.Binds earliest) layout.tree ∧
        { page with data := earliest }.render layout = page.source ∧
        Node.EarliestList page.content earliest layout.tree := by
  have hbound : ∀ {record : Record}, Node.Everywhere (Node.Binds record) layout.tree →
      Node.Everywhere (Node.IsBound record) layout.tree := fun hrecord node hnode =>
    ⟨hsimple node hnode, hlayout.names node hnode, hlayout.guards node hnode, hrecord node hnode⟩
  have hregular : Node.Everywhere Node.IsRegular layout.tree := fun node hnode =>
    ⟨hlayout.names node hnode, hlayout.guards node hnode, hlayout.templates node hnode⟩
  have hconcrete : Node.Concrete page.source :=
    hsource ▸ Node.concrete_renderList page.content (hbound hbinds)
  -- Whatever agrees with the values found renders the layout like the projected page.
  have hrender : Finding.mismatches (page.findings layout) = [] → ∀ record : Record,
      record.Agrees (Finding.entries (page.findings layout)) →
        { page with data := record }.render layout = (page.project layout).render layout := by
    intro hfits record hrecord
    obtain ⟨filled, -, hfilled⟩ :=
      Node.yields_of_fits page.content hregular hconcrete hfits
    exact (hfilled record hrecord).trans (hfilled _ (page.agrees_project hlayout.page)).symm
  rw [Page.projectWarnings, List.map_eq_nil_iff]
  constructor
  · rintro ⟨hfits, hrestored⟩
    have hdistinct := Node.references_projectList_nodup hlayout.page page.source
    have hkinds := Node.admits_of_fits (hbound hbinds) hfits
    have hagrees : (data.extend (Finding.entries (page.findings layout))).Agrees
        (Finding.entries (page.findings layout)) :=
      fun _ hentry => Record.get?_extend_of_mem hdistinct hentry
    have hearliest : Node.Everywhere
        (Node.Binds (data.extend (Finding.entries (page.findings layout)))) layout.tree :=
      fun node hnode => (hbinds node hnode).extend hdistinct hkinds
    have hsame := (hrender hfits _ hagrees).trans hrestored
    refine ⟨_, hearliest, hsame, ?_⟩
    apply (Node.isIn_projectList_iff page.content (hbound hearliest)).mp
    rw [Finding.forall_isIn_iff]
    rw [Page.render] at hsame
    rw [hsame]
    exact ⟨hfits, hagrees⟩
  · rintro ⟨earliest, hearliest, hsame, hlist⟩
    have hread := (Node.isIn_projectList_iff page.content (hbound hearliest)).mpr hlist
    rw [Page.render] at hsame
    rw [hsame, Finding.forall_isIn_iff] at hread
    exact ⟨hread.1, (hrender hread.1 earliest hread.2).symm.trans hsame⟩

/-- The first of two optional paragraphs is the one that shows, whichever was rendered. -/
theorem restored_of_optional_paragraphs :
    let p : Node := .element "p" [] []
    let layout : Layout :=
      { tree := [.conditional "show1" p, .conditional "show2" p,
          .element "h1" [⟨"id", .var "attr1"⟩] [.var "var1"]] }
    let page : Page :=
      { pathname := "page.html"
        data := []
        content := []
        source := [p, .element "h1" [.static "id" "top"] [.text "Hello"]] }
    let data : Record :=
      [("attr1", .text "top"), ("show1", .flag false), ("show2", .flag true),
        ("var1", .text "Hello")]
    (layout.Regular ∧ Node.Everywhere Node.IsSimple layout.tree ∧
        Node.Everywhere (Node.Binds data) layout.tree ∧
        page.source = { page with data := data }.render layout) ∧
      page.projectWarnings layout = [] ∧ (page.project layout).render layout = page.source := by
  intro p layout page data
  have hlayout : layout.Regular :=
    { page := by decide
      templates := by decide
      names := by decide
      guards := by decide }
  have hsimple : Node.Everywhere Node.IsSimple layout.tree := by
    simp [layout, p, Node.IsSimple]
  have hbinds : Node.Everywhere (Node.Binds data) layout.tree := by
    simp [layout, p, data, Node.Binds, Record.Has, Record.get?, Value.kind]
  have hsource : page.source = { page with data := data }.render layout := by decide
  let earliest : Record :=
    [("attr1", .text "top"), ("show1", .flag true), ("show2", .flag false),
      ("var1", .text "Hello")]
  have hearliest : Node.Everywhere (Node.Binds earliest) layout.tree := by
    simp [layout, p, earliest, Node.Binds, Record.Has, Record.get?, Value.kind]
  have hlist : Node.EarliestList page.content earliest layout.tree := by
    simp [layout, p, earliest, Node.EarliestList, Node.Earliest, Node.Excused, Node.shows,
      Record.get?, Value.isTruthy]
  exact ⟨⟨hlayout, hsimple, hbinds, hsource⟩,
    (restored_iff_exists_earliest hlayout hsimple hbinds hsource).mpr
      ⟨earliest, hearliest, by decide, hlist⟩⟩

/-- A conditional takes the node of the slot behind it, since a later node is left for this slot,
which does not accept it. -/
theorem not_restored_of_rendered :
    let p : Node := .element "p" [] []
    let q : Node := .element "q" [] []
    let layout : Layout := { tree := [.conditional "show1" p, p, .conditional "show2" q] }
    let page : Page := { pathname := "page.html", data := [], content := [], source := [p, q] }
    let data : Record := [("show1", .flag false), ("show2", .flag true)]
    (layout.Regular ∧ Node.Everywhere Node.IsSimple layout.tree ∧
        Node.Everywhere (Node.Binds data) layout.tree ∧
        page.source = { page with data := data }.render layout) ∧
      ¬(page.projectWarnings layout = [] ∧
        (page.project layout).render layout = page.source) := by
  intro p q layout page data
  refine ⟨⟨⟨⟨by decide, by decide⟩, by decide, by decide⟩, ?_, ?_, by decide⟩, by decide⟩
  · simp [layout, p, q, Node.IsSimple]
  · simp [layout, p, q, data, Node.Binds, Record.Has, Record.get?, Value.kind]

end Stencil
