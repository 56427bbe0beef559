import Stencil.Node.Description
import Stencil.Node.Slot
import Stencil.Page
import Stencil.Warning

/-!
# Projection

Projection matches a layout against a concrete tree and collects the values of the placeholders.
The slots of a sibling list are filled from left to right in one pass.  A conditional or a loop
takes a node only if enough nodes stay for the later slots that must be filled.  Whatever does not
fit is reported, and the pass goes on.

Every page can be merged with a layout under construction (`Page.merge`), where mismatches are to
be expected, and be projected onto the final one (`Page.project`), where they are warnings.
-/

namespace Stencil

/-- A place where a page and a layout do not fit. -/
inductive Mismatch where
  /-- A node of the page that no slot took. -/
  | surplus (node : Node)
  /-- A slot that must be filled and stayed empty. -/
  | lacking (slot : Node)
  /-- A variable attribute that the page's element does not have. -/
  | missingAttribute (element name : String)
  deriving DecidableEq, Repr, Inhabited

/-- The text shown to the user. -/
def Mismatch.message : Mismatch → String
  | .surplus node => node.describe ++ " has no slot in the layout"
  | .lacking slot => "layout expects " ++ slot.describe ++ " which the page lacks"
  | .missingAttribute element name =>
    "attribute `" ++ name ++ "` on <" ++ element ++ "> is missing from the page"

/-- What projection finds out, in the order in which it does. -/
inductive Finding where
  | entry (reference : String) (value : Value)
  | mismatch (found : Mismatch)
  deriving Repr, Inhabited

namespace Finding

/-- The values among the findings. -/
def entries (findings : List Finding) : List (String × Value) :=
  findings.filterMap fun
    | .entry reference value => some (reference, value)
    | .mismatch _ => none

/-- The record of the values found; the last value of a reference stands. -/
def record (findings : List Finding) : Record :=
  .ofEntries (entries findings)

/-- The mismatches among the findings. -/
def mismatches (findings : List Finding) : List Mismatch :=
  findings.filterMap fun
    | .entry .. => none
    | .mismatch found => some found

end Finding

/-- The value of the last literal attribute called `name`. -/
def Attribute.lastLiteral? (attrs : List Attribute) (name : String) : Option String :=
  Attribute.literal? attrs.reverse name

/-- Values of the placeholder attributes of an element. -/
def Attribute.project (element : String) (attrs concrete : List Attribute) : List Finding :=
  attrs.filterMap fun attr =>
    match attr.value, lastLiteral? concrete attr.name with
    | .literal _, _ => none
    | .var reference, some value => some (.entry reference (.text value))
    | .var _, none => some (.mismatch (.missingAttribute element attr.name))
    | .conditional reference, some value => some (.entry reference (.text value))
    | .conditional reference, none => some (.entry reference (.flag false))

namespace Node

/-- A slot can take a concrete node. -/
def accepts (slot concrete : Node) : Bool :=
  (slot.kind == .markdown && concrete.kind == .text) || equivalent slot concrete

/-- The number of nodes that a list of slots needs at least. -/
def required (slots : List Node) : Nat :=
  slots.countP fun slot => !slot.isOptional

/-- Fill a slot that must be filled.  `project` reads a node through the slot, `later` is the
number of slots after it and `next` continues with them.  A node that does not fit is passed over
if there are more nodes than slots; otherwise the slot stays empty. -/
def fillSlot (slot : Node) (project : Node → List Finding) (later : Nat)
    (next : List Node → List Finding) : List Node → List Finding
  | [] => .mismatch (.lacking slot) :: next []
  | node :: nodes =>
    if accepts slot node then project node ++ next nodes
    else if later < nodes.length then
      .mismatch (.surplus node) :: fillSlot slot project later next nodes
    else .mismatch (.lacking slot) :: next (node :: nodes)

/-- Offer the next node to a conditional; `needed` nodes must stay for later slots. -/
def fillConditional (reference : String) (child : Node) (project : Node → List Finding)
    (needed : Nat) (next : List Node → List Finding) : List Node → List Finding
  | [] => .entry reference (.flag false) :: next []
  | node :: nodes =>
    if needed ≤ nodes.length && accepts child node then
      project node ++ .entry reference (.flag true) :: next nodes
    else .entry reference (.flag false) :: next (node :: nodes)

/-- The nodes that the repetitions of a loop take, and the nodes after them; `needed` nodes must
stay for later slots. -/
def takeRepetitions (template : Node) (needed : Nat) : List Node → List Node × List Node
  | [] => ([], [])
  | node :: nodes =>
    if needed ≤ nodes.length && accepts template node then
      let (taken, rest) := takeRepetitions template needed nodes
      (node :: taken, rest)
    else ([], node :: nodes)

/-- Offer the next nodes to a loop. -/
def fillLoop (reference : String) (template : Node) (project : Node → List Finding)
    (needed : Nat) (next : List Node → List Finding) (concrete : List Node) : List Finding :=
  let (taken, rest) := takeRepetitions template needed concrete
  let found := taken.map project
  found.flatMap (fun findings => (Finding.mismatches findings).map .mismatch) ++
    .entry reference (.list (found.map Finding.record)) :: next rest

mutual

/-- Read a concrete node through the slot that takes it. -/
def project : Node → Node → List Finding
  | .var reference, .text value | .markdown reference, .text value =>
    [.entry reference (.text value)]
  | .element name attrs slots, .element _ concreteAttrs children =>
    Attribute.project name attrs concreteAttrs ++ projectList slots children
  | _, _ => []

/-- Read a list of concrete siblings through a list of slots. -/
def projectList : List Node → List Node → List Finding
  | [], concrete => concrete.map fun node => .mismatch (.surplus node)
  | .conditional reference child :: slots, concrete =>
    fillConditional reference child child.project (required slots) (projectList slots) concrete
  | .loop reference template :: slots, concrete =>
    fillLoop reference template template.project (required slots) (projectList slots) concrete
  | slot :: slots, concrete =>
    fillSlot slot slot.project slots.length (projectList slots) concrete

end

end Node

namespace Page

/-- What the source of the page tells about the placeholders of a layout. -/
def findings (page : Page) (layout : Layout) : List Finding :=
  Node.projectList layout.tree page.source

/-- The page with the values for the placeholders of `base` taken from its source; values stored
under other references stay. -/
def merge (page : Page) (base : Layout) : Page :=
  { page with data := page.data.extend (Finding.entries (page.findings base)) }

/-- The values that `page` stores under references of the layout. -/
def storedEntries (page : Page) (layout : Layout) : List (String × Value) :=
  layout.references.filterMap fun reference =>
    (page.data.get? reference).map fun value => (reference, value)

/-- The page with exactly the values for the final layout.  A value that the source does not
supply is the one stored so far, if there is one. -/
def project (page : Page) (layout : Layout) : Page :=
  { page with
    data := (Finding.record (page.findings layout)).fill (page.storedEntries layout) }

/-- The places where the page and the layout do not fit, as warnings. -/
def projectWarnings (page : Page) (layout : Layout) : List Warning :=
  (Finding.mismatches (page.findings layout)).map fun mismatch =>
    .unmatchedNode page.pathname mismatch.message

end Page

end Stencil
