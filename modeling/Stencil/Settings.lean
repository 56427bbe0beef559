import Stencil.Selector

/-!
# Settings

What a settings file can say: where documents are read from and written to, which documents belong
to which collection, and what the generated site is called.
-/

namespace Stencil

/-- Where documents are read from and written to, and how they are read. -/
structure BuildSettings where
  /-- The directory that all other paths count from. -/
  root : Option String := none
  source : String := "site"
  output : String := "hugo"
  /-- Empty the output directory first. -/
  clean : Bool := false
  /-- Collapse white space in text and drop blank text. -/
  trimWhitespace : Bool := true
  deriving DecidableEq, Repr, Inhabited

/-- Which documents a collection has, and where their body is. -/
structure CollectionSettings where
  /-- What the pathnames of the collection begin with. -/
  subPath : String := ""
  /-- Exactly these pathnames, whatever the other rules say. -/
  only : Option (List String) := none
  /-- Pathnames that belong to the collection in any case. -/
  included : List String := []
  /-- Pathnames that do not belong to it though they begin like it. -/
  excluded : List String := []
  /-- The selector of the body. -/
  content : Option String := none
  deriving DecidableEq, Repr, Inhabited

/-- The site generators that projects can be written for. -/
inductive Engine where
  | hugo
  deriving DecidableEq, Repr, Inhabited

/-- The name of a generator. -/
def Engine.label : Engine → String
  | .hugo => "hugo"

/-- What the settings of the generated site are. -/
structure SiteSettings where
  engine : Engine := .hugo
  baseUrl : String := "/"
  title : String := ""
  deriving DecidableEq, Repr, Inhabited

/-- All settings; the collections are in ascending order of their keys. -/
structure Settings where
  build : BuildSettings := {}
  collections : List (String × CollectionSettings) := []
  site : SiteSettings := {}
  deriving DecidableEq, Repr, Inhabited

namespace CollectionSettings

/-- The pathname is one of an HTML file. -/
def isHtml (pathname : String) : Bool :=
  ".html".toList.isSuffixOf pathname.toList || ".htm".toList.isSuffixOf pathname.toList

/-- The pathname is one that the rules of the collection name. -/
def names (settings : CollectionSettings) (pathname : String) : Bool :=
  match settings.only with
  | some only => only.contains pathname
  | none =>
    settings.included.contains pathname ||
      (!settings.excluded.contains pathname &&
        settings.subPath.toList.isPrefixOf pathname.toList)

/-- The file belongs to the collection. -/
def selects (settings : CollectionSettings) (pathname : String) : Bool :=
  isHtml pathname && settings.names pathname

/-- The selector of the body, if there is one. -/
def selector (settings : CollectionSettings) : Except Selector.ParseError (Option Selector) :=
  match settings.content with
  | none => .ok none
  | some text => (Selector.parse text).map some

end CollectionSettings

namespace Settings

/-- The root directory if none is set, the current one. -/
def currentRoot : String :=
  "./"

/-- The root directory, the current one unless it is set. -/
def root (settings : Settings) : String :=
  settings.build.root.getD currentRoot

/-- The key of the collection that takes all documents if none is set up. -/
def defaultKey : String :=
  "pages"

/-- The collections to build, in ascending order of their keys. -/
def effectiveCollections (settings : Settings) : List (String × CollectionSettings) :=
  if settings.collections.isEmpty then [(defaultKey, {})] else settings.collections

end Settings

end Stencil
