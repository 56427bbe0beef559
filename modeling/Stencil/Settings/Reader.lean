import Stencil.Settings
import Stencil.Text.Quoted
import Stencil.Toml.Reader

/-!
# Reading settings

Settings are read from a TOML document.  Every section is a group of named fields; a field that is
missing has its default, and the first entry that does not fit is reported.  A group may also be
given as an array, its fields in order.
-/

namespace Stencil

/-- Why a TOML value does not fit. -/
inductive SettingsMismatch where
  | unknownField (name : String) (expected : List String)
  | unknownVariant (name : String) (expected : List String)
  | invalidType (found : Toml) (wanted : String)
  /-- A choice that is neither a name nor a table with a name and nothing in it. -/
  | invalidChoice
  deriving Repr, Inhabited

/-- Why a settings file cannot be read. -/
inductive SettingsError where
  | malformed
  | mismatch (found : SettingsMismatch)
  deriving Repr, Inhabited

namespace SettingsMismatch

/-- What a message calls a value. -/
def describe : Toml → String
  | .string value => "string " ++ Text.quoted value
  | .integer value => "integer `" ++ toString value ++ "`"
  | .float value => "floating point `" ++ value.text ++ "`"
  | .boolean value => "boolean `" ++ (if value then "true" else "false") ++ "`"
  | .datetime _ | .table _ => "map"
  | .array _ => "sequence"

/-- The names that were expected, as a message lists them. -/
def listed (names : List String) : String :=
  let quoted := names.map fun name => "`" ++ name ++ "`"
  match quoted with
  | [name] => name
  | names => "one of " ++ ", ".intercalate names

/-- The detail that a message shows. -/
def detail? : SettingsMismatch → Option String
  | .unknownField name expected =>
    some ("unknown field `" ++ name ++ "`, expected " ++ listed expected)
  | .unknownVariant name expected =>
    some ("unknown variant `" ++ name ++ "`, expected " ++ listed expected)
  | .invalidType found wanted =>
    some ("invalid type: " ++ describe found ++ ", expected " ++ wanted)
  | .invalidChoice => none

end SettingsMismatch

namespace SettingsError

/-- The text shown to the user. -/
def message (_ : SettingsError) : String :=
  "Config file parsing error"

/-- What exactly does not fit, where that can be told. -/
def detail? : SettingsError → Option String
  | .malformed => none
  | .mismatch found => found.detail?

end SettingsError

namespace Settings

open SettingsMismatch

/-- A reader of TOML values. -/
abbrev Decoder (α : Type) := Toml → Except SettingsMismatch α

/-- Read a string; `wanted` is what a message calls it. -/
def decodeString (wanted : String) : Decoder String
  | .string value => .ok value
  | found => .error (.invalidType found wanted)

/-- Read a text. -/
def decodeText : Decoder String :=
  decodeString "a string"

/-- Read a path. -/
def decodePath : Decoder String :=
  decodeString "path string"

/-- Read a boolean. -/
def decodeBoolean : Decoder Bool
  | .boolean value => .ok value
  | found => .error (.invalidType found "a boolean")

/-- Read a list of texts. -/
def decodeTexts : Decoder (List String)
  | .array items => items.mapM decodeText
  | found => .error (.invalidType found "a sequence")

/-- A field of a group: its name, and how a value is read into it. -/
abbrev Field (α : Type) := String × (Toml → α → Except SettingsMismatch α)

/-- A field that is read by a decoder and then stored. -/
def fieldOf (name : String) (decode : Decoder β) (store : β → α → α) : Field α :=
  (name, fun value group => (decode value).map (store · group))

/-- The name of the only entry of the table that a date or time is taken for. -/
def datetimeField : String :=
  "$__toml_private_datetime"

/-- Read a group of fields; `name` is what a message calls it. -/
def decodeGroup (name : String) (fields : List (Field α)) (default : α) : Decoder α
  | .table entries =>
    entries.foldlM
      (fun group (key, value) =>
        match fields.lookup key with
        | none => .error (.unknownField key (fields.map Prod.fst))
        | some store => store value group)
      default
  | .array items =>
    (fields.zip items).foldlM (fun group ((_, store), value) => store value group) default
  | .datetime _ => .error (.unknownField datetimeField (fields.map Prod.fst))
  | found => .error (.invalidType found ("struct " ++ name))

/-- Read a choice among named values: a name, or a table with one name and nothing in it. -/
def decodeChoice (choices : List (String × α)) (value : Toml) : Except SettingsMismatch α :=
  let find (name : String) : Except SettingsMismatch α :=
    match choices.lookup name with
    | some choice => .ok choice
    | none => .error (.unknownVariant name (choices.map Prod.fst))
  match value with
  | .string name => find name
  | .table [(name, inside)] =>
    match find name, inside with
    | .error mismatch, _ => .error mismatch
    | .ok choice, .table [] | .ok choice, .array [] => .ok choice
    | .ok _, _ => .error .invalidChoice
  | _ => .error .invalidChoice

/-- Put an entry into a list in ascending order of keys, in place of the one under its key. -/
def insertSorted (key : String) (value : α) : List (String × α) → List (String × α)
  | [] => [(key, value)]
  | (name, old) :: rest =>
    if key = name then (key, value) :: rest
    else if key < name then (key, value) :: (name, old) :: rest
    else (name, old) :: insertSorted key value rest

/-- Read a table with entries of one kind, into ascending order of keys. -/
def decodeMap (decode : Decoder α) : Decoder (List (String × α))
  | .table entries =>
    entries.foldlM (fun map (key, value) => do return insertSorted key (← decode value) map) []
  | .datetime text => do return [(datetimeField, ← decode (.string text))]
  | found => .error (.invalidType found "a map")

/-- Read the build section. -/
def decodeBuild : Decoder BuildSettings :=
  decodeGroup "BuildConfig"
    [fieldOf "root" decodePath fun value group => { group with root := some value },
      fieldOf "source" decodePath fun value group => { group with source := value },
      fieldOf "output" decodePath fun value group => { group with output := value },
      fieldOf "clean" decodeBoolean fun value group => { group with clean := value },
      fieldOf "trim_whitespace" decodeBoolean fun value group =>
        { group with trimWhitespace := value }]
    {}

/-- Read the section of a collection. -/
def decodeCollection : Decoder CollectionSettings :=
  decodeGroup "CollectionConfig"
    [fieldOf "sub_path" decodeText fun value group => { group with subPath := value },
      fieldOf "only" decodeTexts fun value group => { group with only := some value },
      fieldOf "include" decodeTexts fun value group => { group with included := value },
      fieldOf "exclude" decodeTexts fun value group => { group with excluded := value },
      fieldOf "content" decodeText fun value group => { group with content := some value }]
    {}

/-- Read the section of the generated site. -/
def decodeSite : Decoder SiteSettings :=
  decodeGroup "ExportConfig"
    [fieldOf "engine" (decodeChoice [(Engine.hugo.label, Engine.hugo)]) fun value group =>
        { group with engine := value },
      fieldOf "base_url" decodeText fun value group => { group with baseUrl := value },
      fieldOf "title" decodeText fun value group => { group with title := value }]
    {}

/-- Read all settings. -/
def decode : Decoder Settings :=
  decodeGroup "SiteConfig"
    [fieldOf "build" decodeBuild fun value group => { group with build := value },
      fieldOf "collections" (decodeMap decodeCollection) fun value group =>
        { group with collections := value },
      fieldOf "export" decodeSite fun value group => { group with site := value }]
    {}

/-- Read a settings file. -/
def parse (text : String) : Except SettingsError Settings :=
  match Toml.parse? text with
  | none => .error .malformed
  | some document => (decode document).mapError .mismatch

end Settings

end Stencil
