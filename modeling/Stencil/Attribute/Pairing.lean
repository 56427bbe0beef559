import Stencil.Node
import Stencil.Noted
import Stencil.Warning

/-!
# Pairing attributes by name

The attributes of two matched elements are paired by name, in the order of the first list.  An
attribute without a partner is dropped with a warning.
-/

namespace Stencil.Attribute

/-- The attributes of the first list with their partners, and what remains of the second list. -/
structure Pairing where
  partners : List (Attribute × Option Attribute)
  leftover : List Attribute
  deriving Repr, Inhabited

/-- Pair by name.  A name stands for its last attribute in the second list, and is used up by its
first attribute in the first list. -/
def pairing : List Attribute → List Attribute → Pairing
  | [], second => ⟨[], second⟩
  | attr :: first, second =>
    let (named, others) := second.partition (·.name = attr.name)
    let rest := pairing first others
    { rest with partners := (attr, named.getLast?) :: rest.partners }

/-- The warning that an attribute was dropped. -/
def dropped (element : String) (side : Side) (attr : Attribute) : Warning :=
  .unresolvedAttribute element attr.name side

/-- The warnings about all attributes without a partner. -/
def Pairing.warnings (element : String) (pairing : Pairing) : List Warning :=
  ((pairing.partners.filter (·.2.isNone)).map fun (attr, _) => dropped element .first attr) ++
    pairing.leftover.map (dropped element .second)

/-- The attribute that a pair becomes in a merged layout: the first one if it is a placeholder,
otherwise the second. -/
def reconcilePair (first second : Attribute) : Attribute :=
  if first.value.isPlaceholder then first else second

/-- The attributes that two matched elements share, with warnings about all others. -/
def reconcile (element : String) (first second : List Attribute) : Noted Warning (List Attribute) :=
  let pairing := pairing first second
  { value := pairing.partners.filterMap fun (attr, partner) => partner.map (reconcilePair attr)
    notes := pairing.warnings element }

end Stencil.Attribute
