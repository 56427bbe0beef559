import Stencil.Collection
import Stencil.Document.Reader
import Stencil.FileTree.Action
import Stencil.Settings.Reader
import Stencil.Settings.Resolution

/-!
# Failures of a run

Everything that can keep a run from its end.
-/

namespace Stencil

/-- Why a run fails. -/
inductive Failure where
  /-- The settings file cannot be read. -/
  | settingsUnread (path : String)
  | settings (error : SettingsError)
  | invalid (fault : SettingsFault)
  | selector (error : Selector.ParseError)
  /-- A document cannot be read. -/
  | unread (path : String)
  /-- A document is not markup; `position` is where, in bytes. -/
  | malformed (pathname : String) (position : Nat)
  | insufficient (error : InsufficientInput)
  | unclearable (directory : String)
  | uncreatable (directory : String)
  | unwritable (path : String)
  /-- A static file cannot be copied. -/
  | uncopied
  | system (error : SystemError)
  deriving Repr, Inhabited

/-- The text shown to the user. -/
def Failure.message : Failure → String
  | .settingsUnread path => "IO error when reading `" ++ path ++ "`"
  | .settings error => error.message
  | .invalid fault => fault.message
  | .selector error => error.message
  | .unread path => "Failed to read " ++ path
  | .malformed pathname _ => Document.parseFailure pathname
  | .insufficient error => error.message
  | .unclearable directory => "Failed to clear output directory: " ++ directory
  | .uncreatable directory => "Failed to create output directory: " ++ directory
  | .unwritable path => "Failed to write " ++ path
  | .uncopied => "Export failed"
  | .system error => error.message

end Stencil
