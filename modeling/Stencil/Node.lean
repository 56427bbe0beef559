/-!
# Layout trees

The tree that both documents and layouts are made of.  A document consists of doctypes, elements,
texts and comments; a layout also holds placeholders, each with a reference under which every page
stores its own value.

The main operations are the listing of all nodes in document order (`Node.preorder`) and the
decomposition of a node into its guards, the references of the conditionals around it, and its
core, the node inside them.
-/

namespace Stencil

/-- What an attribute is bound to: a literal value, a value every page supplies, or a value a page
may also leave out. -/
inductive AttributeValue where
  | literal (value : String)
  | var (reference : String)
  | conditional (reference : String)
  deriving DecidableEq, Repr, Inhabited

namespace AttributeValue

/-- A literal value gives way to any other when two layouts are merged. -/
def isPlaceholder : AttributeValue → Bool
  | .literal _ => false
  | .var _ | .conditional _ => true

/-- The reference of a placeholder. -/
def reference? : AttributeValue → Option String
  | .literal _ => none
  | .var reference | .conditional reference => some reference

/-- The text of a literal. -/
def literal? : AttributeValue → Option String
  | .literal value => some value
  | .var _ | .conditional _ => none

end AttributeValue

/-- An attribute of an element. -/
structure Attribute where
  name : String
  value : AttributeValue
  deriving DecidableEq, Repr, Inhabited

namespace Attribute

/-- An attribute with a literal value. -/
def static (name value : String) : Attribute :=
  ⟨name, .literal value⟩

/-- The value of the first literal attribute called `name`. -/
def literal? (attrs : List Attribute) (name : String) : Option String :=
  attrs.findSome? fun attr => if attr.name = name then attr.value.literal? else none

end Attribute

/-- A node of a document or of a layout. -/
inductive Node where
  | doctype (value : String)
  | element (name : String) (attrs : List Attribute) (children : List Node)
  | text (value : String)
  | comment (value : String)
  /-- A text that differs between pages. -/
  | var (reference : String)
  /-- A node that only some pages have. -/
  | conditional (reference : String) (child : Node)
  /-- The place of the page body. -/
  | content
  /-- A text that differs between pages and is written in Markdown. -/
  | markdown (reference : String)
  /-- A node repeated once for every record of a list. -/
  | loop (reference : String) (template : Node)
  deriving Repr, Inhabited

namespace Node

/-! ## Decidable equality -/

mutual

/-- Structural equality as a check. -/
def same : Node → Node → Bool
  | .doctype a, .doctype b => a == b
  | .element m as cs, .element n bs ds => m == n && as == bs && sameList cs ds
  | .text a, .text b => a == b
  | .comment a, .comment b => a == b
  | .var a, .var b => a == b
  | .conditional a c, .conditional b d => a == b && same c d
  | .content, .content => true
  | .markdown a, .markdown b => a == b
  | .loop a c, .loop b d => a == b && same c d
  | _, _ => false

/-- Structural equality of node lists as a check. -/
def sameList : List Node → List Node → Bool
  | [], [] => true
  | a :: as, b :: bs => same a b && sameList as bs
  | _, _ => false

end

mutual

theorem same_iff : ∀ a b : Node, same a b = true ↔ a = b
  | .doctype _, b => by cases b <;> simp [same]
  | .element _ _ cs, b => by cases b <;> simp [same, sameList_iff cs, and_assoc]
  | .text _, b => by cases b <;> simp [same]
  | .comment _, b => by cases b <;> simp [same]
  | .var _, b => by cases b <;> simp [same]
  | .conditional _ c, b => by cases b <;> simp [same, same_iff c]
  | .content, b => by cases b <;> simp [same]
  | .markdown _, b => by cases b <;> simp [same]
  | .loop _ c, b => by cases b <;> simp [same, same_iff c]

theorem sameList_iff : ∀ as bs : List Node, sameList as bs = true ↔ as = bs
  | [], bs => by cases bs <;> simp [sameList]
  | a :: as, bs => by cases bs <;> simp [sameList, same_iff a, sameList_iff as]

end

instance : DecidableEq Node :=
  fun a b => decidable_of_iff (same a b = true) (same_iff a b)

/-! ## Kinds -/

/-- The nine kinds of node. -/
inductive Kind where
  | doctype | element | text | comment | var | conditional | content | markdown | loop
  deriving DecidableEq, Repr, Inhabited

/-- The name of a kind, as diagnostics and the written form of a node spell it. -/
def Kind.label : Kind → String
  | .doctype => "doctype"
  | .element => "element"
  | .text => "text"
  | .comment => "comment"
  | .var => "variable"
  | .conditional => "conditional"
  | .content => "content"
  | .markdown => "markdown-variable"
  | .loop => "loop"

/-- The kind of a node. -/
def kind : Node → Kind
  | .doctype _ => .doctype
  | .element .. => .element
  | .text _ => .text
  | .comment _ => .comment
  | .var _ => .var
  | .conditional .. => .conditional
  | .content => .content
  | .markdown _ => .markdown
  | .loop .. => .loop

/-- Variables and conditionals take in the literal node they are merged with. -/
def isPlaceholder : Node → Bool
  | .var _ | .conditional .. => true
  | _ => false

/-- A slot that a page may leave empty: a conditional or a loop. -/
def isOptional : Node → Bool
  | .conditional .. | .loop .. => true
  | _ => false

/-! ## Guards and core -/

/-- The references of the conditionals around the core, outermost first. -/
def guards : Node → List String
  | .conditional reference child => reference :: child.guards
  | _ => []

/-- The node inside all enclosing conditionals. -/
def core : Node → Node
  | .conditional _ child => child.core
  | node => node

/-- The node inside the outermost conditional, if there is one. -/
def peel : Node → Node
  | .conditional _ child => child
  | node => node

/-- Put conditionals around a node, the first reference outermost. -/
def guarded (references : List String) (node : Node) : Node :=
  references.foldr conditional node

/-- A node is its core inside its guards. -/
theorem guarded_core : ∀ node : Node, guarded node.guards node.core = node
  | .conditional reference child => by
    simp only [guards, core, guarded, List.foldr_cons]
    exact congrArg (conditional reference) (guarded_core child)
  | .doctype _ | .element .. | .text _ | .comment _ | .var _ | .content | .markdown _
  | .loop .. => rfl

/-! ## Document order -/

mutual

/-- The node and everything below it in document order.  The child of a conditional and the
template of a loop come right after their wrapper. -/
def preorder : Node → List Node
  | .element name attrs children => .element name attrs children :: preorderList children
  | .conditional reference child => .conditional reference child :: preorder child
  | .loop reference template => .loop reference template :: preorder template
  | node => [node]

/-- All nodes of a tree in document order. -/
def preorderList : List Node → List Node
  | [] => []
  | node :: nodes => preorder node ++ preorderList nodes

end

end Node

/-! ## Element classes -/

/-- Elements that have neither children nor an end tag. -/
def voidElements : List String :=
  ["area", "base", "br", "col", "embed", "hr", "img", "input", "link", "meta", "param", "source",
    "track", "wbr"]

/-- Elements whose text is read and written verbatim. -/
def rawTextElements : List String :=
  ["script", "style"]

/-- The element has neither children nor an end tag. -/
def isVoidElement (name : String) : Bool :=
  voidElements.contains name

/-- The text of the element is read and written verbatim. -/
def isRawTextElement (name : String) : Bool :=
  rawTextElements.contains name

end Stencil
