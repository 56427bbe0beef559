import Stencil.Layout

/-!
# Unique references

Normalization gives every placeholder a reference of its own.  In document order the first
placeholder with a reference keeps it; a later one gets the first of `_2`, `_3` and so on appended
that makes it new.  The template of a loop is a namespace of its own.
-/

namespace Stencil

/-- The references in use. -/
abbrev Namespace := List String

namespace Namespace

/-- A reference with a number appended. -/
def numbered (reference : String) (n : Nat) : String :=
  reference ++ "_" ++ toString n

/-- The first unused reference among those numbered from `n` on; `tries` numbers are tried. -/
def freshFrom (used : Namespace) (reference : String) (n : Nat) : Nat → String
  | 0 => numbered reference n
  | tries + 1 =>
    if used.contains (numbered reference n) then freshFrom used reference (n + 1) tries
    else numbered reference n

/-- The reference itself if it is unused, otherwise the first unused one numbered from two on.
Among one more number than there are references in use, one is always unused. -/
def fresh (used : Namespace) (reference : String) : String :=
  if used.contains reference then freshFrom used reference 2 used.length else reference

/-- Reserve a reference: the name to use, and the references then in use. -/
def reserve (used : Namespace) (reference : String) : String × Namespace :=
  let name := used.fresh reference
  (name, name :: used)

end Namespace

/-- Reserve the references of an attribute list. -/
def Attribute.rename (used : Namespace) : List Attribute → List Attribute × Namespace
  | [] => ([], used)
  | ⟨name, .literal value⟩ :: attrs =>
    let (attrs, used) := rename used attrs
    (⟨name, .literal value⟩ :: attrs, used)
  | ⟨name, .var reference⟩ :: attrs =>
    let (reference, used) := used.reserve reference
    let (attrs, used) := rename used attrs
    (⟨name, .var reference⟩ :: attrs, used)
  | ⟨name, .conditional reference⟩ :: attrs =>
    let (reference, used) := used.reserve reference
    let (attrs, used) := rename used attrs
    (⟨name, .conditional reference⟩ :: attrs, used)

namespace Node

mutual

/-- Reserve the references at and below a node. -/
def rename (used : Namespace) : Node → Node × Namespace
  | .element name attrs children =>
    let (attrs, used) := Attribute.rename used attrs
    let (children, used) := renameList used children
    (.element name attrs children, used)
  | .var reference =>
    let (reference, used) := used.reserve reference
    (.var reference, used)
  | .markdown reference =>
    let (reference, used) := used.reserve reference
    (.markdown reference, used)
  | .conditional reference child =>
    let (reference, used) := used.reserve reference
    let (child, used) := rename used child
    (.conditional reference child, used)
  | .loop reference template =>
    let (reference, used) := used.reserve reference
    (.loop reference (rename [] template).1, used)
  | .doctype value => (.doctype value, used)
  | .text value => (.text value, used)
  | .comment value => (.comment value, used)
  | .content => (.content, used)

/-- Reserve the references of a tree in document order. -/
def renameList (used : Namespace) : List Node → List Node × Namespace
  | [] => ([], used)
  | node :: nodes =>
    let (node, used) := rename used node
    let (nodes, used) := renameList used nodes
    (node :: nodes, used)

end

end Node

namespace Layout

/-- The layout with a reference of its own for every placeholder. -/
def normalized (layout : Layout) : Layout :=
  ⟨(Node.renameList [] layout.tree).1⟩

end Layout

end Stencil
