import Stencil.Proofs.Document.Numbering
import Stencil.Proofs.Layout.WellFormed
import Stencil.Proofs.Page.Findings

/-!
# Where the values of a page come from

Projecting a document onto an inferred layout finds values of the right kind: for a variable a text
of the document, for a variable attribute the value of one of its attributes, and for a conditional
whether its node is there (`Node.supplies_of_mem_entries`).  The kind is told by the reference,
which belongs to the layout (`Node.mem_references_of_mem_entries`).
-/

namespace Stencil

/-- The values that a tree supplies for a role. -/
inductive Role.Supplies (source : List Node) : Role → Value → Prop
  | text {text : String} (h : .text text ∈ Node.preorderList source) :
      Supplies source .text (.text text)
  | attribute {name text : String} (h : .static name text ∈ Node.attributes source) :
      Supplies source .attribute (.text text)
  | presence (shows : Bool) : Supplies source .presence (.flag shows)

/-- The tree supplies the value for the role of the reference. -/
def Node.Supplies (source : List Node) (reference : String) (value : Value) : Prop :=
  ∃ role : Role, role.Names reference ∧ role.Supplies source value

theorem Node.Supplies.of_names
    {source : List Node} {reference : String} {value : Value} {role : Role}
    (h : Supplies source reference value) (hname : role.Names reference) :
    role.Supplies source value := by
  obtain ⟨found, hfound, hvalue⟩ := h
  obtain rfl : found = role := hfound.unique hname
  exact hvalue

/-! ## Values of a placeholder -/

theorem Attribute.exists_of_mem_entries
    {element : String} {attrs concrete : List Attribute} {entry : String × Value}
    (hslots : ∀ attr ∈ attrs, attr.value.IsSlot) (hconcrete : Static concrete)
    (hentry : entry ∈ Finding.entries (project element attrs concrete)) :
    Role.attribute.Names entry.1 ∧ ∃ name text, .static name text ∈ concrete ∧
      entry.2 = .text text := by
  obtain ⟨finding, hfinding, hvalue⟩ := List.mem_filterMap.mp hentry
  obtain ⟨⟨name, slot⟩, hattr, hfound⟩ := List.mem_filterMap.mp hfinding
  have hslot := hslots _ hattr
  cases slot with
  | literal _ => simp at hfound
  | conditional _ => exact absurd hslot id
  | var reference =>
      cases hlast : lastLiteral? concrete name with
      | none =>
          obtain rfl : .mismatch (.missingAttribute element name) = finding := by
            simpa [hlast] using hfound
          simp at hvalue
      | some text =>
          obtain rfl : .entry reference (.text text) = finding := by
            simpa [hlast] using hfound
          obtain rfl : (reference, .text text) = entry := Option.some.inj hvalue
          exact ⟨hslot, name, text, (lastLiteral?_eq_some_iff hconcrete).mp hlast, rfl⟩

namespace Node

section Entries

variable {slots nodes source : List Node} {entry : String × Value}

/-- What a slot that must be filled finds is in the node that it takes, and everything else is
found by the later slots in nodes that come later. -/
theorem mem_entries_fillSlot
    {slot : Node} {project : Node → List Finding} {later : Nat} {next : List Node → List Finding}
    (hentry : entry ∈ Finding.entries (fillSlot slot project later next nodes)) :
    (∃ node ∈ nodes, entry ∈ Finding.entries (project node)) ∨
      ∃ rest, rest <:+ nodes ∧ entry ∈ Finding.entries (next rest) := by
  induction nodes with
  | nil => exact Or.inr ⟨[], List.suffix_rfl, hentry⟩
  | cons node nodes ih =>
      rw [fillSlot] at hentry
      split_ifs at hentry
      · rw [Finding.entries_append, List.mem_append] at hentry
        rcases hentry with hhere | hlater
        · exact Or.inl ⟨node, List.mem_cons_self, hhere⟩
        · exact Or.inr ⟨nodes, List.suffix_cons _ _, hlater⟩
      · rcases ih hentry with ⟨other, hother, hhere⟩ | ⟨rest, hrest, hlater⟩
        · exact Or.inl ⟨other, List.mem_cons_of_mem _ hother, hhere⟩
        · exact Or.inr ⟨rest, hrest.trans (List.suffix_cons _ _), hlater⟩
      · exact Or.inr ⟨node :: nodes, List.suffix_rfl, hentry⟩

theorem everywhere_suffix {p : Node → Prop} {rest : List Node}
    (h : Everywhere p nodes) (hrest : rest <:+ nodes) : Everywhere p rest := by
  obtain ⟨before, rfl⟩ := hrest
  exact (everywhere_append.mp h).2

/-- Where a slot that must be filled finds only what the source supplies, and so do the later ones,
they do together. -/
theorem supplies_of_mem_entries_slot
    {slot : Node} (hslot : slot.isOptional = false)
    (hproject : ∀ node, Everywhere (· ∈ preorderList source) [node] →
      entry ∈ Finding.entries (slot.project node) → Supplies source entry.1 entry.2)
    (hrest : ∀ rest, Everywhere (· ∈ preorderList source) rest →
      entry ∈ Finding.entries (projectList slots rest) → Supplies source entry.1 entry.2)
    (hnodes : Everywhere (· ∈ preorderList source) nodes)
    (hentry : entry ∈ Finding.entries (projectList (slot :: slots) nodes)) :
    Supplies source entry.1 entry.2 := by
  rw [projectList_of_not_isOptional hslot] at hentry
  rcases mem_entries_fillSlot hentry with ⟨node, hnode, hhere⟩ | ⟨rest, hsuffix, hlater⟩
  · exact hproject node (everywhere_singleton_of_mem hnodes hnode) hhere
  · exact hrest rest (everywhere_suffix hnodes hsuffix) hlater

/-- Projection finds only values that the source supplies for the role of their reference. -/
theorem supplies_of_mem_entries
    (hslots : Everywhere IsSlot slots) (hsource : Concrete source)
    (hnodes : Everywhere (· ∈ preorderList source) nodes)
    (hentry : entry ∈ Finding.entries (projectList slots nodes)) :
    Supplies source entry.1 entry.2 := by
  induction slots using Node.inductionOn generalizing nodes with
  | nil =>
      rw [projectList, ← Function.comp_def Finding.mismatch, ← List.map_map,
        Finding.entries_map_mismatch] at hentry
      exact absurd hentry List.not_mem_nil
  | doctype value slots ih | text value slots ih | comment value slots ih | content slots ih =>
      have hrest := (everywhere_cons.mp hslots).2
      refine supplies_of_mem_entries_slot rfl ?_ (fun _ => ih hrest) hnodes hentry
      intro node _ hhere
      cases node <;> exact absurd hhere List.not_mem_nil
  | var reference slots ih =>
      obtain ⟨hname, hrest⟩ := everywhere_var.mp hslots
      refine supplies_of_mem_entries_slot rfl ?_ (fun _ => ih hrest) hnodes hentry
      intro node hnode hhere
      cases node with
      | text text =>
          obtain rfl := List.mem_singleton.mp hhere
          exact ⟨.text, hname, .text (everywhere_text.mp hnode).1⟩
      | _ => exact absurd hhere List.not_mem_nil
  | element name attrs children slots ihChildren ih =>
      obtain ⟨⟨-, hattrs⟩, hchildren, hrest⟩ := everywhere_element.mp hslots
      refine supplies_of_mem_entries_slot rfl ?_ (fun _ => ih hrest) hnodes hentry
      intro node hnode hhere
      cases node with
      | element other concrete inner =>
          obtain ⟨helement, hinner, -⟩ := everywhere_element.mp hnode
          rw [project, Finding.entries_append, List.mem_append] at hhere
          rcases hhere with hattr | hinside
          · obtain ⟨hname, attr, text, hmem, hvalue⟩ :=
              Attribute.exists_of_mem_entries hattrs (hsource _ helement) hattr
            rw [Supplies, hvalue]
            exact ⟨.attribute, hname, .attribute (mem_attributes helement hmem)⟩
          · exact ihChildren hchildren hinner hinside
      | _ => exact absurd hhere List.not_mem_nil
  | conditional reference child slots ihChild ih =>
      obtain ⟨⟨hname, hflat⟩, hchild, hrest⟩ := everywhere_conditional.mp hslots
      rcases projectList_conditional_cases reference child slots nodes with
        hskipped | ⟨node, rest, rfl, haccepts, htaken⟩
      · rw [hskipped, Finding.entries_entry] at hentry
        rcases List.mem_cons.mp hentry with rfl | hlater
        · exact ⟨.presence, hname, .presence false⟩
        · exact ih hrest hnodes hlater
      · obtain ⟨hnode, hafter⟩ := everywhere_cons.mp hnodes
        rw [htaken, Finding.entries_append, List.mem_append] at hentry
        rcases hentry with hhere | hentry
        · -- The child reads the node as it would alone.
          have hoptional : child.isOptional = false := by
            have hslot := everywhere_head hchild
            cases child <;> first | rfl | exact absurd rfl hflat | exact absurd hslot id
          rw [← projectList_singleton hoptional haccepts] at hhere
          exact ihChild hchild hnode hhere
        · rcases List.mem_cons.mp hentry with rfl | hlater
          · exact ⟨.presence, hname, .presence true⟩
          · exact ih hrest hafter hlater
  | markdown _ _ _ => exact absurd (everywhere_markdown.mp hslots).1 id
  | loop _ _ _ _ _ => exact absurd (everywhere_loop.mp hslots).1 id

/-- Projection finds values for references of the slots only. -/
theorem mem_references_of_mem_entries
    (hentry : entry ∈ Finding.entries (projectList slots nodes)) :
    entry.1 ∈ referencesList slots := by
  have hfound : entry.1 ∈ Finding.references (projectList slots nodes) :=
    List.mem_map_of_mem hentry
  have hcount := count_references_projectList entry.1 slots nodes
  exact List.count_pos_iff.mp (Nat.lt_of_lt_of_le (List.count_pos_iff.mpr hfound) hcount)

end Entries

end Node

/-! ## Values of a page -/

namespace Page

variable {page : Page} {layout : Layout} {entry : String × Value}

theorem supplies_of_mem_findings
    (hslots : Node.Everywhere Node.IsSlot layout.tree) (hsource : Node.Concrete page.source)
    (hentry : entry ∈ Finding.entries (page.findings layout)) :
    Node.Supplies page.source entry.1 entry.2 :=
  Node.supplies_of_mem_entries hslots hsource (fun _ hnode => hnode) hentry

/-- A merged page stores what was found in its source, or what it stored before. -/
theorem mem_data_merge (hentry : entry ∈ (page.merge layout).data) :
    entry ∈ Finding.entries (page.findings layout) ∨ entry ∈ page.data :=
  Record.mem_or_mem_of_mem_extend hentry

/-- A projected page stores, under references of the layout, what was found in its source, or what
it stored before. -/
theorem mem_data_project (hentry : entry ∈ (page.project layout).data) :
    entry.1 ∈ layout.references ∧
      (entry ∈ Finding.entries (page.findings layout) ∨ entry ∈ page.data) := by
  rcases Record.mem_or_mem_of_mem_fill hentry with hstored | hrecorded
  · obtain ⟨reference, hreference, hvalue⟩ := List.mem_filterMap.mp hstored
    obtain ⟨value, hget, rfl⟩ := Option.map_eq_some_iff.mp hvalue
    exact ⟨hreference, Or.inr (Record.mem_of_get? hget)⟩
  · have hfound := Record.mem_of_mem_ofEntries hrecorded
    exact ⟨Node.mem_references_of_mem_entries hfound, Or.inl hfound⟩

end Page

end Stencil
