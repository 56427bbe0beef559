import Stencil.Alignment
import Stencil.Attribute.Pairing
import Stencil.Document
import Stencil.Layout.Normal
import Stencil.Node.Slot
import Stencil.Page

/-!
# Comparing two documents

Comparing a document, the anchor, with another one gives a layout for both.  Texts at
corresponding places become variables where they differ, attribute values likewise, and a node
that only one document has becomes a conditional.  Both pages record their own value for every
placeholder.

The references tell the place in the anchor, so that comparing several documents with one anchor
gives the same name to the same place:

* `var` and the number of the text in the anchor;
* `attr` and the number of the attribute in the anchor;
* `show` and the number of the node in the anchor that the other document lacks;
* `extra`, the number of the parent in the anchor, the number of anchor children before the place,
  and the number of the insertion at that place.

Nodes, texts and attributes are numbered from one in document order.
-/

namespace Stencil

/-- How many nodes, texts and attributes come before a place in document order. -/
structure Ordinals where
  nodes : Nat := 0
  texts : Nat := 0
  attrs : Nat := 0
  deriving DecidableEq, Repr, Inhabited

/-- Count on from a place. -/
def Ordinals.add (a b : Ordinals) : Ordinals :=
  ⟨a.nodes + b.nodes, a.texts + b.texts, a.attrs + b.attrs⟩

mutual

/-- The numbers of nodes, texts and attributes at and below a node. -/
def Node.ordinals : Node → Ordinals
  | .element _ attrs children => Ordinals.add ⟨1, 0, attrs.length⟩ (Node.ordinalsList children)
  | .conditional _ child => Ordinals.add ⟨1, 0, 0⟩ child.ordinals
  | .loop _ template => Ordinals.add ⟨1, 0, 0⟩ template.ordinals
  | .text _ => ⟨1, 1, 0⟩
  | .doctype _ | .comment _ | .var _ | .content | .markdown _ => ⟨1, 0, 0⟩

/-- The numbers of nodes, texts and attributes of a tree. -/
def Node.ordinalsList : List Node → Ordinals
  | [] => {}
  | node :: nodes => node.ordinals.add (Node.ordinalsList nodes)

end

namespace Comparison

/-- What a comparison notes: the two values of a new placeholder, or a warning. -/
inductive Note where
  | placeholder (reference : String) (anchor other : Value)
  | warning (found : Warning)
  deriving Repr, Inhabited

/-- Replace a difference by a placeholder. -/
def introduce (reference : String) (anchor other : Value) (result : α) : Noted Note α :=
  ⟨result, [.placeholder reference anchor other]⟩

/-! ## References -/

/-- The reference of the `n`-th text. -/
def varReference (n : Nat) : String :=
  "var" ++ toString n

/-- The reference of the `n`-th attribute. -/
def attrReference (n : Nat) : String :=
  "attr" ++ toString n

/-- The reference of the `n`-th node, which the other document lacks. -/
def showReference (n : Nat) : String :=
  "show" ++ toString n

/-- The reference of the `k`-th insertion before child `i` of node `parent`. -/
def extraReference (parent i k : Nat) : String :=
  "extra" ++ toString parent ++ "_" ++ toString i ++ "_" ++ toString k

/-! ## Attributes -/

/-- The attribute that a pair becomes; the anchor's attribute has number `n`. -/
def comparePair (n : Nat) (anchor other : Attribute) : Noted Note Attribute :=
  match anchor, other with
  | ⟨name, .literal a⟩, ⟨_, .literal b⟩ =>
    if a = b then pure anchor
    else introduce (attrReference n) (.text a) (.text b) ⟨name, .var (attrReference n)⟩
  | anchor, _ => pure anchor

/-- The attributes that two matched elements share; `before` attributes of the anchor come before
those of the element. -/
def compareAttributes (element : String) (before : Nat) (anchor other : List Attribute) :
    Noted Note (List Attribute) :=
  let pairing := Attribute.pairing anchor other
  let merged : Noted Note (List (Option Attribute)) :=
    .all <| pairing.partners.mapIdx fun i (attr, partner) =>
      match partner with
      | none => pure none
      | some partner => (comparePair (before + i + 1) attr partner).map some
  { value := merged.value.filterMap id
    notes := merged.notes ++ (pairing.warnings element).map .warning }

/-! ## Nodes -/

/-- Two nodes have corresponding places: texts always do, other nodes if they may share a slot. -/
def corresponds (anchor other : Node) : Bool :=
  (anchor.kind == .text && other.kind == .text) || Node.equivalent anchor other

/-- A node of the anchor, with what comes before it, ready to be compared with a counterpart. -/
structure Comparable where
  node : Node
  before : Ordinals
  compareWith : Node → Noted Note Node

/-- What the steps of an alignment become under the parent with the given number.  `insertions` is
the number of insertions made so far at the current place of the anchor. -/
def resolveSteps (parent : Nat) :
    Nat → List (Alignment.Step Comparable Node) → Noted Note (List Node)
  | _, [] => pure []
  | _, .pair anchor other :: steps => do
    let node ← anchor.compareWith other
    let nodes ← resolveSteps parent 0 steps
    return node :: nodes
  | _, .first anchor _ :: steps => do
    let reference := showReference (anchor.before.nodes + 1)
    let node ←
      introduce reference (.flag true) (.flag false) (Node.conditional reference anchor.node)
    let nodes ← resolveSteps parent 0 steps
    return node :: nodes
  | insertions, .second other cursor :: steps => do
    let reference := extraReference parent cursor.first (insertions + 1)
    let node ← introduce reference (.flag false) (.flag true) (Node.conditional reference other)
    let nodes ← resolveSteps parent (insertions + 1) steps
    return node :: nodes

/-- The siblings that two lists become under the parent with the given number. -/
def compareSiblings (parent : Nat) (anchor : List Comparable) (other : List Node) :
    Noted Note (List Node) :=
  resolveSteps parent 0 (Alignment.steps (fun a b => corresponds a.node b) anchor other)

mutual

/-- The node that a node of the anchor and its counterpart become. -/
def compare (before : Ordinals) : Node → Node → Noted Note Node
  | .text a, .text b =>
    if a = b then pure (.text a)
    else
      let reference := varReference (before.texts + 1)
      introduce reference (.text a) (.text b) (.var reference)
  | .element name attrs children, .element _ otherAttrs otherChildren => do
    let attrs' ← compareAttributes name before.attrs attrs otherAttrs
    let inside := before.add ⟨1, 0, attrs.length⟩
    let children ←
      compareSiblings (before.nodes + 1) (comparables inside children) otherChildren
    return .element name attrs' children
  | anchor, _ => pure anchor

/-- Every node of a list of anchor siblings, ready to be compared. -/
def comparables (before : Ordinals) : List Node → List Comparable
  | [] => []
  | node :: nodes =>
    ⟨node, before, compare before node⟩ :: comparables (before.add node.ordinals) nodes

end

/-- The tree that two trees become. -/
def compareTrees (anchor other : List Node) : Noted Note (List Node) :=
  compareSiblings 0 (comparables {} anchor) other

/-! ## Notes as records -/

/-- The values of the anchor. -/
def anchorRecord (notes : List Note) : Record :=
  .ofEntries <| notes.filterMap fun
    | .placeholder reference anchor _ => some (reference, anchor)
    | .warning _ => none

/-- The values of the other document. -/
def otherRecord (notes : List Note) : Record :=
  .ofEntries <| notes.filterMap fun
    | .placeholder reference _ other => some (reference, other)
    | .warning _ => none

/-- The warnings among the notes. -/
def warnings (notes : List Note) : List Warning :=
  notes.filterMap fun
    | .placeholder .. => none
    | .warning found => some found

end Comparison

/-- The outcome of comparing two documents. -/
structure Difference where
  /-- The common tree with references that tell places in the anchor. -/
  base : Layout
  /-- The base with unique references. -/
  layout : Layout
  anchor : Page
  other : Page
  warnings : List Warning
  deriving Repr, Inhabited

/-- The page of a document with the given values. -/
def Document.page (document : Document) (data : Record) : Page :=
  { pathname := document.pathname, data, content := document.content, source := document.tree }

/-- Compare a document with another one. -/
def Document.difference (anchor other : Document) : Difference :=
  let compared := Comparison.compareTrees anchor.tree other.tree
  let base : Layout := ⟨compared.value⟩
  { base
    layout := base.normalized
    anchor := anchor.page (Comparison.anchorRecord compared.notes)
    other := other.page (Comparison.otherRecord compared.notes)
    warnings := Comparison.warnings compared.notes }

end Stencil
