import Stencil.Proofs.Document.Convergence
import Stencil.Proofs.Layout.Absorption

/-!
# A tree aligned with itself

Neither use of the alignment finds anything to do where both trees are the same: the merge keeps the
tree and warns of nothing, and the comparison also introduces no placeholder, so both pages store
nothing (`aligned_with_itself`).  This holds for trees of every kind of node; all that is asked is
that no element has two attributes of one name, of which a pairing would drop one.

The pass pairs every node with itself, since sharing a slot is reflexive through any guards.  What
remains is that a node is compared with itself to no effect, by induction on the siblings.
-/

namespace Stencil

namespace Comparison

/-! ## Attributes -/

theorem comparePair_self (n : Nat) (attr : Attribute) : comparePair n attr attr = ⟨attr, []⟩ := by
  obtain ⟨name, value⟩ := attr
  cases value with
  | literal value => exact if_pos rfl
  | var reference | conditional reference => rfl

theorem sharedAttributes_of_present
    {other attrs : List Attribute} (n : Nat)
    (hpresent : ∀ attr ∈ attrs, Attribute.named? other attr.name = some attr) :
    sharedAttributes other n attrs = ⟨attrs, []⟩ := by
  induction attrs generalizing n with
  | nil => rfl
  | cons attr attrs ih =>
      have hrest := ih (n + 1) fun attr hattr => hpresent attr (List.mem_cons_of_mem _ hattr)
      rw [sharedAttributes, hpresent attr List.mem_cons_self, hrest]
      simp only [comparePair_self, List.append_nil]

/-- Attributes with distinct names are compared with themselves to no effect. -/
theorem compareAttributes_self
    {attrs : List Attribute} (hattrs : (attrs.map Attribute.name).Nodup) (element : String)
    (before : Nat) :
    compareAttributes element before attrs attrs = ⟨attrs, []⟩ := by
  have hpresent : ∀ attr ∈ attrs, Attribute.named? attrs attr.name = some attr :=
    fun attr hattr => (Attribute.named?_eq_some_iff hattrs).mpr ⟨hattr, rfl⟩
  have hwarnings : (Attribute.pairing attrs attrs).warnings element = [] :=
    congrArg Noted.notes (Attribute.reconcile_self hattrs)
  rw [compareAttributes_eq hattrs hattrs, sharedAttributes_of_present before hpresent, hwarnings]
  rfl

/-! ## Siblings -/

theorem corresponds_self (node : Node) : corresponds node node = true := by
  simp [corresponds, Node.equivalent_refl]

/-- The siblings are compared with themselves to no effect, wherever they stand. -/
def ComparesItself (nodes : List Node) : Prop :=
  ∀ (position : Position) (passed : Nat), resolveFrom position passed nodes nodes = ⟨nodes, []⟩

/-- A node is compared with itself to no effect if its children are. -/
theorem compare_self
    {node : Node} (before : Ordinals)
    (hbelow : ∀ name attrs children, node = .element name attrs children →
      (attrs.map Attribute.name).Nodup ∧ ComparesItself children) :
    compare before node node = ⟨node, []⟩ := by
  cases node with
  | text value => exact if_pos rfl
  | element name attrs children =>
      obtain ⟨hattrs, hchildren⟩ := hbelow name attrs children rfl
      have hsiblings : compareSiblings (before.nodes + 1)
          (comparables (before.add ⟨1, 0, attrs.length⟩) children) children = ⟨children, []⟩ :=
        hchildren ⟨before.nodes + 1, before.add ⟨1, 0, attrs.length⟩, 0, 0⟩ 0
      rw [compare, compareAttributes_self hattrs]
      simp only [hsiblings]
      rfl
  | doctype _ | comment _ | var _ | conditional _ _ | content | markdown _ | loop _ _ =>
      simp [compare, pure]

/-- A node is paired with itself, so its siblings are compared with themselves as well. -/
theorem comparesItself_cons
    {node : Node} {nodes : List Node}
    (hbelow : ∀ name attrs children, node = .element name attrs children →
      (attrs.map Attribute.name).Nodup ∧ ComparesItself children)
    (ih : ComparesItself nodes) :
    ComparesItself (node :: nodes) := by
  intro position passed
  rw [resolveFrom_pair (corresponds_self node), compare_self position.before hbelow, ih]
  rfl

theorem comparesItself_of_distinctNames
    {nodes : List Node} (h : Node.Everywhere Node.DistinctNames nodes) : ComparesItself nodes := by
  induction nodes using Node.inductionOn with
  | nil => exact fun _ _ => rfl
  | element name attrs children nodes ihChildren ih =>
      obtain ⟨hattrs, hchildren, hnodes⟩ := Node.everywhere_element.mp h
      refine comparesItself_cons ?_ (ih hnodes)
      rintro _ _ _ ⟨⟩
      exact ⟨hattrs, ihChildren hchildren⟩
  | doctype _ _ ih | text _ _ ih | comment _ _ ih | var _ _ ih | conditional _ _ _ _ ih
  | content _ ih | markdown _ _ ih | loop _ _ _ _ ih =>
      exact comparesItself_cons (by simp) (ih (Node.everywhere_cons.mp h).2)

/-- A tree is compared with itself to no effect. -/
theorem compareTrees_self
    {tree : List Node} (htree : Node.Everywhere Node.DistinctNames tree) :
    compareTrees tree tree = ⟨tree, []⟩ :=
  comparesItself_of_distinctNames htree {} 0

end Comparison

/-! ## Both uses of the alignment -/

/-- Where both trees are the same, the merge keeps the tree and warns of nothing, and the comparison
of two documents keeps it too, stores nothing for either page and warns of nothing. -/
theorem aligned_with_itself
    {tree : List Node} (htree : Node.Everywhere Node.DistinctNames tree) :
    Node.align tree tree = { value := tree, notes := [] } ∧
      ∀ anchor other : Document, anchor.tree = tree → other.tree = tree →
        let difference := anchor.difference other
        difference.base.tree = tree ∧ difference.anchor.data = [] ∧ difference.other.data = [] ∧
          difference.warnings = [] := by
  refine ⟨(Node.merges_self htree).eq_alignFrom {}, ?_⟩
  intro anchor other hanchor hother difference
  have hcompared : Comparison.compareTrees anchor.tree other.tree = ⟨tree, []⟩ := by
    rw [hanchor, hother, Comparison.compareTrees_self htree]
  simp only [difference, Document.difference]
  rw [hcompared]
  exact ⟨rfl, rfl, rfl, rfl⟩

/-- A layout with nested guards, a loop and every kind of placeholder. -/
theorem aligned_with_itself_of_listing :
    let tree : List Node :=
      [.doctype "html",
        .conditional "show1" (.conditional "extra0_1_1"
          (.element "h1" [.static "class" "x", ⟨"id", .var "attr2"⟩] [.text "List", .var "var1"])),
        .element "ul" [⟨"lang", .conditional "lang"⟩]
          [.loop "items" (.element "li" [] [.markdown "body"]), .comment "end"],
        .content]
    let document : Document := { pathname := "a.html", tree }
    let other : Document := { pathname := "b.html", tree, content := [.text "body"] }
    Node.Everywhere Node.DistinctNames tree ∧
      Node.align tree tree = { value := tree, notes := [] } ∧
      (document.difference other).base.tree = tree ∧
      (document.difference other).anchor.data = [] ∧
      (document.difference other).other.data = [] ∧
      (document.difference other).warnings = [] := by
  intro tree document other
  have htree : Node.Everywhere Node.DistinctNames tree := by decide
  obtain ⟨hmerge, hdifference⟩ := aligned_with_itself htree
  exact ⟨htree, hmerge, hdifference document other rfl rfl⟩

end Stencil
