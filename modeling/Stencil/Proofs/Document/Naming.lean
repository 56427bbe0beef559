import Stencil.Proofs.Document.Walk

/-!
# What the references of a comparison denote

The references of a comparison are made from positions in the anchor.  Wherever the walk through
the anchor and the common tree comes to a reference, it denotes the next anchor node, one of its
attributes, or an insertion before it (`Converges.exists_denotes`).  So the number in a reference is
that of a text, an attribute or a node of the anchor, and a reference that two comparisons with one
anchor have in common marks the same anchor node in both (`naming_difference`).
-/

namespace Stencil

namespace Comparison

/-! ## References at a position -/

/-- `Denotes values position as node site`: at the position, with the anchor siblings `as` ahead,
the common node has the reference of the site. -/
inductive Denotes (values : Record) : Position → List Node → Node → Site → Prop
  | text {position : Position} {value : String} {as : List Node}
      (hvalue : values.get? (varReference (position.before.texts + 1)) = some (.text value)) :
      Denotes values position (.text value :: as)
        (.var (varReference (position.before.texts + 1))) (.text (position.before.texts + 1))
  | attribute {position : Position} {n : Nat} {name attr value : String}
      {attrs shared : List Attribute} {children merged as : List Node}
      (hnumber : Numbered position.before.attrs attrs n (.static attr value))
      (hshared : ⟨attr, .var (attrReference n)⟩ ∈ shared)
      (hvalue : values.get? (attrReference n) = some (.text value)) :
      Denotes values position (.element name attrs children :: as) (.element name shared merged)
        (.attribute n)
  | node {position : Position} {a : Node} {as : List Node}
      (hvalue : values.get? (showReference (position.before.nodes + 1)) = some (.flag true)) :
      Denotes values position (a :: as)
        (.conditional (showReference (position.before.nodes + 1)) a)
        (.node (position.before.nodes + 1))
  | insertion {position : Position} {b : Node} {as : List Node}
      (hvalue : values.get?
        (extraReference position.parent position.child (position.insertions + 1)) =
          some (.flag false)) :
      Denotes values position as
        (.conditional (extraReference position.parent position.child (position.insertions + 1)) b)
        (.insertion position.parent position.child (position.insertions + 1))

/-- A reference among the shared attributes tells the number of an attribute of the anchor. -/
theorem Shares.exists_numbered
    {other attrs shared : List Attribute} {n : Nat} {notes : List Note}
    {values : Record} {reference : String}
    (h : Shares other n attrs shared notes) (hvalues : Holds values .first notes)
    (hreference : reference ∈ Attribute.references shared) :
    ∃ m attr value, reference = attrReference m ∧ Numbered n attrs m (.static attr value) ∧
      ⟨attr, .var reference⟩ ∈ shared ∧ values.get? reference = some (.text value) := by
  induction h with
  | nil => exact absurd hreference List.not_mem_nil
  | drop _ _ ih =>
      obtain ⟨m, attr, value, hname, hnumber, hshared, hvalue⟩ := ih hvalues hreference
      exact ⟨m, attr, value, hname, hnumber.tail, hshared, hvalue⟩
  | keep _ _ ih =>
      obtain ⟨m, attr, value, hname, hnumber, hshared, hvalue⟩ := ih hvalues hreference
      exact ⟨m, attr, value, hname, hnumber.tail, List.mem_cons_of_mem _ hshared, hvalue⟩
  | @var n name v _ _ _ _ _ _ _ ih =>
      obtain ⟨hstored, hlater⟩ := holds_placeholder.mp hvalues
      rcases List.mem_cons.mp hreference with hhere | hrest
      · subst hhere
        exact ⟨n + 1, name, v, rfl, .head, List.mem_cons_self, hstored⟩
      · obtain ⟨m, attr, value, hname, hnumber, hshared, hvalue⟩ := ih hlater hrest
        exact ⟨m, attr, value, hname, hnumber.tail, List.mem_cons_of_mem _ hshared, hvalue⟩

/-- Every reference of the next common node denotes something at the position. -/
theorem Converges.exists_denotes
    {position : Position} {as bs nodes : List Node} {node : Node} {notes : List Note}
    {values : Record} {reference : String}
    (h : Converges position as bs (node :: nodes) notes) (hvalues : Holds values .first notes)
    (hreference : reference ∈ node.ownReferences) :
    ∃ site : Site, site.reference = reference ∧ Denotes values position as node site := by
  cases h with
  | keep hkeeps _ => cases hkeeps <;> exact absurd hreference List.not_mem_nil
  | var =>
      obtain rfl := List.mem_singleton.mp hreference
      exact ⟨_, rfl, .text (holds_placeholder.mp hvalues).1⟩
  | element _ _ hshared _ _ =>
      have hbefore := (holds_append.mp (holds_append.mp hvalues).1).1
      obtain ⟨n, attr, value, rfl, hnumber, hmem, hvalue⟩ :=
        hshared.exists_numbered (holds_append.mp hbefore).1 hreference
      exact ⟨.attribute n, rfl, .attribute hnumber hmem hvalue⟩
  | lone =>
      obtain rfl := List.mem_singleton.mp hreference
      exact ⟨_, rfl, .node (holds_placeholder.mp hvalues).1⟩
  | extra =>
      obtain rfl := List.mem_singleton.mp hreference
      exact ⟨_, rfl, .insertion (holds_placeholder.mp hvalues).1⟩

/-! ## References that mark anchor nodes -/

/-- The reference is in the node that stands for the node `a` of the anchor, which has number
`n`. -/
def Marks (anchor common : List Node) (values : Record) (reference : String) (n : Nat) (a : Node) :
    Prop :=
  ∃ node, StandsFor anchor common values n a node ∧ reference ∈ node.ownReferences

/-- The number of the site is reached at the node `a` that comes after `before`. -/
def Site.IsAt (before : Ordinals) (a : Node) : Site → Prop
  | .text n => before.texts < n ∧ n ≤ before.texts + a.ownOrdinals.texts
  | .attribute n => before.attrs < n ∧ n ≤ before.attrs + a.ownOrdinals.attrs
  | .node n => before.nodes < n ∧ n ≤ before.nodes + a.ownOrdinals.nodes
  | .insertion .. => False

theorem Denotes.isAt
    {values : Record} {position : Position} {a node : Node} {as : List Node} {site : Site}
    (h : Denotes values position (a :: as) node site) (hkept : isInserted values node = false) :
    site.IsAt position.before a := by
  cases h with
  | text => exact ⟨Nat.lt_succ_self _, Nat.le_refl _⟩
  | «attribute» hnumber => exact hnumber.between
  | node =>
      have hone : a.ownOrdinals.nodes = 1 := by cases a <;> rfl
      rw [Site.IsAt, hone]
      exact ⟨Nat.lt_succ_self _, Nat.le_refl _⟩
  | insertion hvalue =>
      rw [isInserted_conditional hvalue] at hkept
      exact absurd hkept.symm Bool.false_ne_true

/-- A site is at one node only. -/
theorem Site.IsAt.unique
    {site : Site} {a a' : Node} {earlier earlier' later later' : List Node}
    (hlisting : earlier ++ a :: later = earlier' ++ a' :: later')
    (h : site.IsAt (.total earlier) a) (h' : site.IsAt (.total earlier') a') :
    earlier = earlier' ∧ a = a' := by
  cases site with
  | text n => exact Node.eq_of_number (·.ownOrdinals.texts) hlisting h h'
  | «attribute» n => exact Node.eq_of_number (·.ownOrdinals.attrs) hlisting h h'
  | node n => exact Node.eq_of_number (·.ownOrdinals.nodes) hlisting h h'
  | insertion => exact absurd h id

/-! ## Where placeholders stand -/

/-- The placeholder of the site stands where its reference tells: a variable has the text or
attribute of the anchor with the number in the reference, a node that the anchor has to itself
shows that node, and an insertion is among the siblings merged under the parent, with as many
anchor children and as many insertions since the last of them before it as the reference tells. -/
def Site.Placed (anchor common : List Node) (values : Record) : Site → Prop
  | .text n =>
    ∃ value, Numbered 0 (Node.texts anchor) n value ∧
      .var (varReference n) ∈ Node.preorderList common ∧
      values.get? (varReference n) = some (.text value)
  | .attribute n =>
    ∃ name value, Numbered 0 (Node.attributes anchor) n (.static name value) ∧
      ⟨name, .var (attrReference n)⟩ ∈ Node.attributes common ∧
      values.get? (attrReference n) = some (.text value)
  | .node n =>
    ∃ node, Numbered 0 (Node.preorderList anchor) n node ∧
      .conditional (showReference n) node ∈ Node.preorderList common ∧
      values.get? (showReference n) = some (.flag true)
  | .insertion parent child k =>
    ∃ passed node rest,
      Siblings anchor common values parent
        (passed ++ .conditional (extraReference parent child k) node :: rest) ∧
      passed.countP (!isInserted values ·) = child ∧
      (passed.rtakeWhile (isInserted values)).length + 1 = k ∧
      values.get? (extraReference parent child k) = some (.flag false)

theorem Denotes.placed
    {anchor common as nodes : List Node} {values : Record} {position : Position} {node : Node}
    {site : Site} (h : Denotes values position as node site)
    (hreach : Reaches anchor common values position as (node :: nodes)) :
    site.Placed anchor common values := by
  have hmem := hreach.mem_preorderList
  cases h with
  | text hvalue =>
      obtain ⟨earlier, later, hlisting, hbefore⟩ := hreach.exists_listing_cons
      have hnumber := Node.numbered_texts hlisting
      rw [← hbefore] at hnumber
      exact ⟨_, hnumber, hmem, hvalue⟩
  | «attribute» hown hshared hvalue =>
      obtain ⟨earlier, later, hlisting, hbefore⟩ := hreach.exists_listing_cons
      rw [hbefore] at hown
      have hnumber := Node.numbered_attributes hlisting hown
      exact ⟨_, _, hnumber, Node.mem_attributes hmem hshared, hvalue⟩
  | node hvalue =>
      obtain ⟨earlier, later, hlisting, hbefore⟩ := hreach.exists_listing_cons
      have hnumber := Node.numbered_preorderList hlisting
      rw [← hbefore] at hnumber
      exact ⟨_, hnumber, hmem, hvalue⟩
  | insertion hvalue =>
      obtain ⟨passed, hsiblings, hchild, hinsertions⟩ := hreach.exists_siblings
      exact ⟨passed, _, nodes, hsiblings, hchild, by rw [hinsertions], hvalue⟩

section Difference

variable {anchor common other : List Node} {values : Record} {notes : List Note}
  {reference : String}

/-- Every reference of the common tree denotes something where the walk comes to it. -/
theorem exists_denotes_of_mem
    (hstart : Converges {} anchor other common notes) (hvalues : Holds values .first notes)
    (hreference : reference ∈ Node.referencesList common) :
    ∃ position as node nodes site, Reaches anchor common values position as (node :: nodes) ∧
      reference ∈ node.ownReferences ∧ site.reference = reference ∧
      Denotes values position as node site := by
  obtain ⟨position, as, node, nodes, hreach, hown⟩ :=
    hstart.exists_reaches hvalues .start hreference
  obtain ⟨bs, later, hconverges, hholds⟩ := hreach.exists_converges hstart hvalues
  obtain ⟨site, hsite, hdenotes⟩ := hconverges.exists_denotes hholds hown
  exact ⟨position, as, node, nodes, site, hreach, hown, hsite, hdenotes⟩

/-- Every reference is that of a site, and its placeholder stands where it tells. -/
theorem exists_placed
    (hstart : Converges {} anchor other common notes) (hvalues : Holds values .first notes)
    (hreference : reference ∈ Node.referencesList common) :
    ∃ site : Site, site.reference = reference ∧ site.Placed anchor common values := by
  obtain ⟨position, as, node, nodes, site, hreach, -, hsite, hdenotes⟩ :=
    exists_denotes_of_mem hstart hvalues hreference
  exact ⟨site, hsite, hdenotes.placed hreach⟩

/-- A reference marks an anchor node at which its site is. -/
theorem Marks.exists_isAt {n : Nat} {a : Node}
    (hstart : Converges {} anchor other common notes) (hvalues : Holds values .first notes)
    (h : Marks anchor common values reference n a) :
    ∃ (site : Site) (earlier later : List Node), site.reference = reference ∧
      Node.preorderList anchor = earlier ++ a :: later ∧ n = earlier.length + 1 ∧
      site.IsAt (.total earlier) a := by
  obtain ⟨node, ⟨position, as, nodes, hreach, hkept, rfl⟩, hown⟩ := h
  obtain ⟨bs, rest, hconverges, hholds⟩ := hreach.exists_converges hstart hvalues
  obtain ⟨site, hsite, hdenotes⟩ := hconverges.exists_denotes hholds hown
  obtain ⟨earlier, later, hlisting, hbefore⟩ := hreach.exists_listing_cons
  have hat := hdenotes.isAt hkept
  rw [hbefore] at hat
  exact ⟨site, earlier, later, hsite, hlisting, by rw [hbefore, Ordinals.nodes_total], hat⟩

/-- A reference that is not that of an insertion marks an anchor node. -/
theorem exists_marks
    (hstart : Converges {} anchor other common notes) (hvalues : Holds values .first notes)
    (hreference : reference ∈ Node.referencesList common)
    (hplace : ∀ parent child k, reference ≠ extraReference parent child k) :
    ∃ n a, Marks anchor common values reference n a := by
  obtain ⟨position, as, node, nodes, site, hreach, hown, hsite, hdenotes⟩ :=
    exists_denotes_of_mem hstart hvalues hreference
  cases hdenotes with
  | text => exact ⟨_, _, _, ⟨_, _, nodes, hreach, rfl, rfl⟩, hown⟩
  | «attribute» => exact ⟨_, _, _, ⟨_, _, nodes, hreach, rfl, rfl⟩, hown⟩
  | node hvalue => exact ⟨_, _, _, ⟨_, _, nodes, hreach, isInserted_conditional hvalue, rfl⟩, hown⟩
  | insertion => exact absurd hsite.symm (hplace _ _ _)

/-- In two comparisons with one anchor a reference marks the same node of the anchor. -/
theorem Marks.unique
    {common' other' : List Node} {values' : Record} {notes' : List Note}
    {n n' : Nat} {a a' : Node}
    (hstart : Converges {} anchor other common notes) (hvalues : Holds values .first notes)
    (hstart' : Converges {} anchor other' common' notes') (hvalues' : Holds values' .first notes')
    (h : Marks anchor common values reference n a)
    (h' : Marks anchor common' values' reference n' a') :
    n = n' ∧ a = a' := by
  obtain ⟨site, earlier, later, hsite, hlisting, rfl, hat⟩ := h.exists_isAt hstart hvalues
  obtain ⟨site', earlier', later', hsite', hlisting', rfl, hat'⟩ := h'.exists_isAt hstart' hvalues'
  obtain rfl : site = site' := Site.reference_injective (hsite.trans hsite'.symm)
  -- The anchor is the same, so the two places are in one listing.
  rw [hlisting] at hlisting'
  obtain ⟨rfl, rfl⟩ := hat.unique hlisting' hat'
  exact ⟨rfl, rfl⟩

theorem Marks.iff_eq {m n : Nat} {a b : Node}
    (hstart : Converges {} anchor other common notes) (hvalues : Holds values .first notes)
    (h : Marks anchor common values reference n a) :
    Marks anchor common values reference m b ↔ m = n ∧ b = a := by
  constructor
  · intro h'
    exact h'.unique hstart hvalues hstart hvalues h
  · rintro ⟨rfl, rfl⟩
    exact h

end Difference

end Comparison

section Naming

open Comparison

/-- The reference marks the `n`-th node `a` of the anchor in a comparison. -/
def Difference.Marks (compared : Difference) (anchor : Document) (reference : String) (n : Nat)
    (a : Node) : Prop :=
  Comparison.Marks anchor.tree compared.base.tree compared.anchor.data reference n a

/-- Every reference of a comparison tells a place of the anchor, and its placeholder stands there.
A reference other than that of an insertion marks one node of the anchor, the same in every
comparison with this anchor. -/
theorem naming_difference
    {anchor other another : Document}
    (hanchor : Node.Concrete anchor.tree) (hother : Node.Concrete other.tree)
    (hanother : Node.Concrete another.tree) :
    let compared := anchor.difference other
    let compared' := anchor.difference another
    (∀ reference ∈ compared.base.references, ∃ site : Site, site.reference = reference) ∧
      (∀ site : Site, site.reference ∈ compared.base.references →
        site.Placed anchor.tree compared.base.tree compared.anchor.data) ∧
      ∀ reference, reference ∈ compared.base.references →
        reference ∈ compared'.base.references →
        (∀ parent child k, reference ≠ extraReference parent child k) →
        ∃ n a, Numbered 0 (Node.preorderList anchor.tree) n a ∧
          ∀ m b, (compared.Marks anchor reference m b ↔ m = n ∧ b = a) ∧
            (compared'.Marks anchor reference m b ↔ m = n ∧ b = a) := by
  intro compared compared'
  have hconverges := converges_compareTrees hanchor hother
  have hholds := holds_difference hanchor hother .first
  have hconverges' := converges_compareTrees hanchor hanother
  have hholds' := holds_difference hanchor hanother .first
  refine ⟨?_, ?_, ?_⟩
  · intro reference hreference
    obtain ⟨site, hsite, -⟩ := exists_placed hconverges hholds hreference
    exact ⟨site, hsite⟩
  · intro site hreference
    obtain ⟨site', hsite, hplaced⟩ := exists_placed hconverges hholds hreference
    obtain rfl : site' = site := Site.reference_injective hsite
    exact hplaced
  · intro reference hreference hreference' hplace
    obtain ⟨n, a, hmarks⟩ := exists_marks hconverges hholds hreference hplace
    obtain ⟨n', a', hmarks'⟩ := exists_marks hconverges' hholds' hreference' hplace
    obtain ⟨rfl, rfl⟩ := hmarks.unique hconverges hholds hconverges' hholds' hmarks'
    have hnumber : Numbered 0 (Node.preorderList anchor.tree) n a := by
      obtain ⟨node, hstands, -⟩ := hmarks
      exact hstands.numbered
    refine ⟨n, a, hnumber, ?_⟩
    intro m b
    exact ⟨hmarks.iff_eq hconverges hholds, hmarks'.iff_eq hconverges' hholds'⟩

/-- One menu compared with two others: an attribute and a text that differ from both, insertions
below an item and at the end, and a node that one of them lacks. -/
theorem naming_difference_of_menus :
    let item (text : String) : Node := .element "li" [] [.text text]
    let anchor : Document :=
      { pathname := "a.html"
        tree := [.element "ul" [.static "class" "x", .static "id" "menu"] [item "1", item "2"],
          .text "same", .element "hr" [] []] }
    let other : Document :=
      { pathname := "b.html"
        tree := [.element "ul" [.static "id" "list", .static "class" "x"]
          [item "1", item "3", item "4", item "5"], .text "same"] }
    let another : Document :=
      { pathname := "c.html"
        tree := [.element "ul" [.static "class" "x", .static "id" "last"] [item "6", item "7"],
          .text "same", .element "hr" [] [], .comment "end"] }
    let compared := anchor.difference other
    let compared' := anchor.difference another
    (Node.Concrete anchor.tree ∧ Node.Concrete other.tree ∧ Node.Concrete another.tree) ∧
      compared.base.references = ["attr2", "var2", "extra1_2_1", "extra1_2_2", "show7"] ∧
      compared'.base.references = ["attr2", "var1", "var2", "extra0_3_1"] ∧
      (∀ reference ∈ compared.base.references, ∃ site : Site, site.reference = reference) ∧
      (∀ site : Site, site.reference ∈ compared.base.references →
        site.Placed anchor.tree compared.base.tree compared.anchor.data) ∧
      ∀ reference, reference ∈ compared.base.references →
        reference ∈ compared'.base.references →
        (∀ parent child k, reference ≠ extraReference parent child k) →
        ∃ n a, Numbered 0 (Node.preorderList anchor.tree) n a ∧
          ∀ m b, (compared.Marks anchor reference m b ↔ m = n ∧ b = a) ∧
            (compared'.Marks anchor reference m b ↔ m = n ∧ b = a) := by
  intro item anchor other another compared compared'
  have hanchor : Node.Concrete anchor.tree := by decide
  have hother : Node.Concrete other.tree := by decide
  have hanother : Node.Concrete another.tree := by decide
  exact ⟨⟨hanchor, hother, hanother⟩, by decide +kernel, by decide +kernel,
    naming_difference hanchor hother hanother⟩

end Naming

end Stencil
