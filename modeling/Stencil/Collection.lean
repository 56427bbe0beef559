import Stencil.Document.Difference
import Stencil.Layout.Merge
import Stencil.Page.Projection

/-!
# Collections

A collection is a list of documents with one layout.  The first document is the anchor: every
other one is compared with it, and the outcomes are merged in order.  Two layouts are kept on the
way: the base, whose references tell places in the anchor, and the layout, whose references are
unique.  In the end every page is projected onto the layout.
-/

namespace Stencil

/-- The layout of a collection with its pages, and the warnings met on the way. -/
structure Collection where
  pages : List Page
  layout : Layout
  warnings : List Warning
  deriving Repr, Inhabited

/-- A collection has too few documents: at least two are needed. -/
structure InsufficientInput where
  collection : String
  found : Nat
  deriving DecidableEq, Repr, Inhabited

/-- The text shown to the user. -/
def InsufficientInput.message (error : InsufficientInput) : String :=
  "collection `" ++ error.collection ++ "` needs at least 2 html files to infer a layout, found " ++
    toString error.found

namespace Page

/-- Add a page to a list: at the end, or, if its pathname is there already, by giving the first
such page the values that it lacks. -/
def addTo (page : Page) : List Page → List Page
  | [] => [page]
  | known :: pages =>
    if known.pathname = page.pathname then { known with data := known.data.fill page.data } :: pages
    else known :: addTo page pages

/-- Add the pages of the second list to the first. -/
def union (pages more : List Page) : List Page :=
  more.foldl (fun pages page => page.addTo pages) pages

end Page

/-- What is known after some documents have been compared with the anchor. -/
structure Inference where
  base : Layout
  layout : Layout
  pages : List Page
  warnings : List Warning
  deriving Repr, Inhabited

namespace Inference

/-- Begin with the comparison of the first two documents. -/
def start (difference : Difference) : Inference :=
  { base := difference.base
    layout := difference.layout
    pages := [difference.anchor, difference.other]
    warnings := difference.warnings }

/-- Take in the comparison of one more document.  Attributes lost in the base are lost in the
layout as well, where they are reported. -/
def add (inference : Inference) (next : Difference) : Inference :=
  let layout := inference.layout.merge next.layout
  { base := (inference.base.merge next.base).value
    layout := layout.value.normalized
    pages :=
      Page.union (inference.pages.map (·.merge next.base))
        ([next.anchor, next.other].map (·.merge inference.base))
    warnings := inference.warnings ++ next.warnings ++ layout.notes }

/-- Project every page onto the layout. -/
def finish (inference : Inference) : Collection :=
  { pages := inference.pages.map (·.project inference.layout)
    layout := inference.layout
    warnings :=
      inference.warnings ++ inference.pages.flatMap (·.projectWarnings inference.layout) }

end Inference

namespace Collection

/-- Infer the layout of a list of documents. -/
def infer (name : String) : List Document → Except InsufficientInput Collection
  | anchor :: second :: rest =>
    let compared := rest.map anchor.difference
    .ok (compared.foldl Inference.add (.start (anchor.difference second))).finish
  | documents => .error ⟨name, documents.length⟩

end Collection

end Stencil
