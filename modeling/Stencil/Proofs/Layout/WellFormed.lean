import Stencil.Proofs.Attribute.Pairing
import Stencil.Proofs.Layout.Merge
import Stencil.Proofs.Layout.Renaming

/-!
# Well-formed layouts

An inference makes texts, attributes and presence vary, so its layouts have variables, variable
attributes and conditionals and no other placeholders, and the reference of each begins with a word
for its role (`Role.Names`).  A layout is well-formed if in addition attribute names and references
are distinct and no guard stands directly inside another.  Merging and renaming keep what a
well-formed layout asks of every slot (`Node.mergeClosed_isSlot`, `Node.Renames.everywhere_isSlot`);
distinct references are what normalization is for.
-/

namespace Stencil

/-! ## References by role -/

/-- What varies between pages under a reference. -/
inductive Role where
  | text | attribute | presence
  deriving DecidableEq, Repr

/-- The references of a role: a word and one number, or three for an insertion, and then any
further numbers. -/
inductive Role.Names : Role → String → Prop
  | var (n : Nat) : Names .text ("var" ++ toString n)
  | attr (n : Nat) : Names .attribute ("attr" ++ toString n)
  | shown (n : Nat) : Names .presence ("show" ++ toString n)
  | extra (parent i k : Nat) :
      Names .presence ("extra" ++ toString parent ++ "_" ++ toString i ++ "_" ++ toString k)
  | numbered {role : Role} {reference : String} (h : Names role reference) (n : Nat) :
      Names role (reference ++ "_" ++ toString n)

/-- The letters with which the references of a role begin. -/
def Role.initials : Role → List Char
  | .text => ['v']
  | .attribute => ['a']
  | .presence => ['s', 'e']

/-- A letter, and then letters, digits and underscores. -/
structure IsIdentifier (name : String) : Prop where
  head : ∃ c, name.toList.head? = some c ∧ c.isAlpha = true
  all : ∀ c ∈ name.toList, c.isAlphanum = true ∨ c = '_'

namespace Role.Names

variable {role : Role} {reference name : String}

theorem renamed (h : role.Names reference) (hname : Namespace.Renamed reference name) :
    role.Names name := by
  obtain rfl | ⟨n, -, rfl⟩ := hname
  · exact h
  · exact .numbered h n

theorem exists_initial (h : role.Names reference) :
    ∃ c ∈ role.initials, reference.toList.head? = some c := by
  induction h with
  | var n => exact ⟨'v', by simp [initials], by simp⟩
  | attr n => exact ⟨'a', by simp [initials], by simp⟩
  | shown n => exact ⟨'s', by simp [initials], by simp⟩
  | extra parent i k => exact ⟨'e', by simp [initials], by simp⟩
  | numbered _ n ih =>
      obtain ⟨c, hc, hhead⟩ := ih
      refine ⟨c, hc, ?_⟩
      rw [String.toList_append, String.toList_append, List.append_assoc, List.head?_append, hhead]
      rfl

/-- A reference tells its role. -/
theorem unique {other : Role} (h : role.Names reference) (hother : other.Names reference) :
    role = other := by
  have hdisjoint : ∀ a b : Role, ∀ c ∈ a.initials, c ∈ b.initials → a = b := by
    intro a b
    cases a <;> cases b <;> simp [initials]
  obtain ⟨c, hc, hhead⟩ := h.exists_initial
  obtain ⟨c', hc', hhead'⟩ := hother.exists_initial
  rw [hhead] at hhead'
  obtain rfl : c = c' := Option.some.inj hhead'
  exact hdisjoint role other c hc hc'

theorem exists_head (h : role.Names reference) :
    ∃ c, reference.toList.head? = some c ∧ c.isAlpha = true ∧ c ≠ 'l' := by
  have hletters : ∀ c ∈ role.initials, c.isAlpha = true ∧ c ≠ 'l' := by
    cases role <;> simp [initials]
  obtain ⟨c, hc, hhead⟩ := h.exists_initial
  exact ⟨c, hhead, hletters c hc⟩

theorem isAlphanum_of_mem_toString {n : Nat} {c : Char} (h : c ∈ (toString n).toList) :
    c.isAlphanum = true := by
  rw [Comparison.toList_toString] at h
  simp [Char.isAlphanum, Nat.isDigit_of_mem_toDigits (by decide) (by decide) h]

theorem all_isAlphanum (h : role.Names reference) :
    reference.toList.all (fun c => c.isAlphanum || c == '_') = true := by
  have hdigits : ∀ n : Nat, (toString n).toList.all (fun c => c.isAlphanum || c == '_') = true := by
    intro n
    apply List.all_eq_true.mpr
    intro c hc
    rw [isAlphanum_of_mem_toString hc]
    rfl
  induction h with
  | var n | attr n | shown n | extra parent i k =>
      simp only [String.toList_append, List.all_append, hdigits]
      rfl
  | numbered _ n ih =>
      simp only [String.toList_append, List.all_append, hdigits, ih]
      rfl

theorem isIdentifier (h : role.Names reference) : IsIdentifier reference where
  head := by
    obtain ⟨c, hhead, hc, -⟩ := h.exists_head
    exact ⟨c, hhead, hc⟩
  all := by
    simpa only [List.all_eq_true, Bool.or_eq_true, beq_iff_eq] using h.all_isAlphanum

/-- The key under which a page names its layout is not the reference of a placeholder. -/
theorem ne_layout (h : role.Names reference) : reference ≠ "layout" := by
  rintro rfl
  obtain ⟨c, hhead, -, hne⟩ := h.exists_head
  exact hne (Option.some.inj hhead).symm

end Role.Names

/-! ## Slots -/

/-- A literal, or a variable with the reference of an attribute. -/
def AttributeValue.IsSlot : AttributeValue → Prop
  | .literal _ => True
  | .var reference => Role.attribute.Names reference
  | .conditional _ => False

/-- A node of an inferred layout: literals, elements with distinct attribute names, variables, and
conditionals that are not nested directly. -/
def Node.IsSlot : Node → Prop
  | .doctype _ | .text _ | .comment _ | .content => True
  | .element _ attrs _ =>
    (attrs.map Attribute.name).Nodup ∧ ∀ attr ∈ attrs, attr.value.IsSlot
  | .var reference => Role.text.Names reference
  | .conditional reference child => Role.presence.Names reference ∧ child.kind ≠ .conditional
  | .markdown _ | .loop .. => False

/-- Every node of the layout is one that an inference makes, and all references are distinct. -/
structure Layout.WellFormed (layout : Layout) : Prop where
  slots : Node.Everywhere Node.IsSlot layout.tree
  references : layout.references.Nodup

namespace Node

theorem isSlot_of_isPlain {node : Node} (h : node.IsPlain) : node.IsSlot := by
  cases node with
  | element name attrs children =>
      refine ⟨h.2, fun attr hattr => ?_⟩
      obtain ⟨value, hvalue⟩ := h.eq_static hattr
      rw [hvalue]
      trivial
  | doctype _ | text _ | comment _ | content => trivial
  | _ => exact absurd h id

theorem everywhere_isSlot_of_concrete {nodes : List Node} (h : Concrete nodes) :
    Everywhere IsSlot nodes :=
  fun node hnode => isSlot_of_isPlain (h node hnode)

/-- Merging keeps what a layout asks of its slots. -/
theorem mergeClosed_isSlot : MergeClosed IsSlot where
  flat h := h.2
  conditional other h hother := ⟨h.1, hother⟩
  element merged h hother := by
    refine ⟨?_, ?_⟩
    · rw [Attribute.names_reconcile h.1 hother.1]
      exact h.1.filter _
    · intro attr hattr
      rcases Attribute.mem_of_mem_reconcile h.1 hother.1 hattr with hmem | hmem
      · exact h.2 attr hmem
      · exact hother.2 attr hmem

end Node

theorem AttributeValue.Renamed.isSlot {a b : AttributeValue} (h : a.Renamed b) (ha : a.IsSlot) :
    b.IsSlot := by
  cases h with
  | literal value => exact ha
  | var h => exact Role.Names.renamed ha h
  | conditional h => exact ha

theorem Attribute.Renames.isSlot
    {attrs renamed : List Attribute} (h : Renames attrs renamed)
    (hattrs : ∀ attr ∈ attrs, attr.value.IsSlot) :
    ∀ attr ∈ renamed, attr.value.IsSlot := by
  induction h with
  | nil => simp
  | cons hattr _ ih =>
      rintro attr (_ | ⟨_, hmem⟩)
      · exact hattr.2.isSlot (hattrs _ List.mem_cons_self)
      · exact ih (fun other hother => hattrs other (List.mem_cons_of_mem _ hother)) attr hmem

/-- Renaming keeps what a layout asks of its slots. -/
theorem Node.Renames.everywhere_isSlot
    {nodes renamed : List Node} (h : Renames nodes renamed) (hnodes : Everywhere IsSlot nodes) :
    Everywhere IsSlot renamed := by
  induction h with
  | nil => exact everywhere_nil
  | same node _ ih =>
      obtain ⟨hnode, hrest⟩ := everywhere_cons.mp hnodes
      exact everywhere_cons.mpr ⟨hnode, ih hrest⟩
  | element name hattrs _ _ ihChildren ih =>
      obtain ⟨⟨hnames, hslots⟩, hchildren, hrest⟩ := everywhere_element.mp hnodes
      refine everywhere_element.mpr ⟨⟨?_, hattrs.isSlot hslots⟩, ihChildren hchildren, ih hrest⟩
      rwa [hattrs.names_eq]
  | var hname _ ih =>
      obtain ⟨hvar, hrest⟩ := everywhere_var.mp hnodes
      exact everywhere_var.mpr ⟨Role.Names.renamed hvar hname, ih hrest⟩
  | markdown _ _ _ => exact absurd (everywhere_markdown.mp hnodes).1 id
  | conditional hname hchild _ ihChild ih =>
      obtain ⟨⟨hguard, hflat⟩, hinside, hrest⟩ := everywhere_conditional.mp hnodes
      refine everywhere_conditional.mpr
        ⟨⟨Role.Names.renamed hguard hname, ?_⟩, ihChild hinside, ih hrest⟩
      rwa [hchild.kind_eq]
  | loop _ _ _ _ _ => exact absurd (everywhere_loop.mp hnodes).1 id

/-! ## Well-formed layouts -/

/-- Every reference of a well-formed layout has a role. -/
theorem Node.exists_names_of_mem_referencesList
    {nodes : List Node} {reference : String}
    (hnodes : Everywhere IsSlot nodes) (h : reference ∈ referencesList nodes) :
    ∃ role : Role, role.Names reference := by
  induction nodes using Node.inductionOn with
  | nil => exact absurd h List.not_mem_nil
  | doctype _ _ ih | text _ _ ih | comment _ _ ih | content _ ih =>
      exact ih (everywhere_cons.mp hnodes).2 h
  | element name attrs children nodes ihChildren ih =>
      obtain ⟨⟨-, hattrs⟩, hchildren, hrest⟩ := everywhere_element.mp hnodes
      rw [referencesList, references, List.mem_append, List.mem_append] at h
      rcases h with (h | h) | h
      · obtain ⟨attr, hattr, hreference⟩ := List.mem_filterMap.mp h
        have hslot := hattrs attr hattr
        cases hvalue : attr.value with
        | literal value => simp [hvalue, AttributeValue.reference?] at hreference
        | var other =>
            rw [hvalue] at hslot hreference
            exact ⟨.attribute, Option.some.inj hreference ▸ hslot⟩
        | conditional other =>
            rw [hvalue] at hslot
            exact absurd hslot id
      · exact ihChildren hchildren h
      · exact ih hrest h
  | var other nodes ih =>
      obtain ⟨hvar, hrest⟩ := everywhere_var.mp hnodes
      rcases List.mem_cons.mp h with rfl | h
      · exact ⟨.text, hvar⟩
      · exact ih hrest h
  | conditional other child nodes ihChild ih =>
      obtain ⟨⟨hguard, -⟩, hchild, hrest⟩ := everywhere_conditional.mp hnodes
      rw [referencesList, references, List.cons_append, List.mem_cons, List.mem_append] at h
      rcases h with rfl | h | h
      · exact ⟨.presence, hguard⟩
      · exact ihChild hchild (by rwa [referencesList, referencesList, List.append_nil])
      · exact ih hrest h
  | markdown _ _ _ => exact absurd (everywhere_markdown.mp hnodes).1 id
  | loop _ _ _ _ _ => exact absurd (everywhere_loop.mp hnodes).1 id

namespace Layout

variable {layout other : Layout}

theorem WellFormed.exists_names (h : layout.WellFormed) {reference : String}
    (hreference : reference ∈ layout.references) :
    ∃ role : Role, role.Names reference :=
  Node.exists_names_of_mem_referencesList h.slots hreference

/-- The merge of two well-formed layouts, with new references, is well-formed. -/
theorem WellFormed.merge (h : layout.WellFormed) (hother : other.WellFormed) :
    (layout.merge other).value.normalized.WellFormed where
  slots := by
    have hmerged := (Node.merges_align layout.tree other.tree).everywhere Node.mergeClosed_isSlot
      h.slots hother.slots
    exact (renames_normalized (layout.merge other).value).everywhere_isSlot hmerged
  references := references_normalized_nodup _

end Layout

end Stencil
