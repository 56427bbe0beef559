import Stencil.Page
import Stencil.Record.Toml
import Stencil.Template

/-!
# Hugo projects

A collection becomes part of a Hugo project: its layout a template under `layouts`, every page a
file under `content` with its values as TOML front matter and its body after it.  Static files go
under `static`, and the settings of the site are in `config.toml`.
-/

namespace Stencil.Hugo

/-- A file of the project; the pathname counts from the root of the project. -/
structure File where
  pathname : String
  contents : String
  deriving DecidableEq, Repr, Inhabited

/-- The directory of files that the generator copies as they are. -/
def staticDirectory : String :=
  "static"

/-- The collection whose pages lie directly under `content`. -/
def rootCollection : String :=
  "pages"

/-- The settings of the site.  An empty title is left out. -/
def configFile (baseUrl title : String) : File :=
  { pathname := "config.toml"
    contents :=
      Toml.assignment "baseURL" (Toml.writeString baseUrl) ++
        if title = "" then "" else Toml.assignment "title" (Toml.writeString title) }

/-- The template of a collection. -/
def layoutFile (layout : Layout) (collection : String) : File :=
  { pathname := "layouts/_default/" ++ collection ++ ".html"
    contents := Node.template layout.tree }

/-- The entries of the front matter: the name of the template, then the values of the page.  A
value called `layout` takes the place of the name. -/
def frontMatter (collection : String) (data : Record) : List (String × Value) :=
  ("layout", (data.get? "layout").getD (.text collection)) :: data.filter (·.1 != "layout")

/-- The file of a page. -/
def pageFile (page : Page) (collection : String) : File :=
  { pathname :=
      "content/" ++ (if collection = rootCollection then "" else collection ++ "/") ++ page.pathname
    contents :=
      "+++\n" ++ Record.tomlDocument (frontMatter collection page.data) ++ "+++\n" ++
        Node.template page.content }

end Stencil.Hugo
