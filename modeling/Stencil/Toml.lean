import Stencil.Decimal.Binary64

/-!
# TOML values

The values of a TOML document.  Tables keep their entries in order.
-/

namespace Stencil

/-- A TOML value.  A date or time is kept as its text. -/
inductive Toml where
  | string (value : String)
  | integer (value : Int)
  | float (value : Binary64)
  | boolean (value : Bool)
  | datetime (text : String)
  | array (items : List Toml)
  | table (entries : List (String × Toml))
  deriving Repr, Inhabited

end Stencil
