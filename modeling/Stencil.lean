import Stencil.Main
import Stencil.Page.Rendering
import Stencil.Alignment.Policy
import Stencil.Warning.Tally
import Stencil.Terminal.Progress
import Stencil.Proofs.Record
import Stencil.Proofs.Attribute.Pairing
import Stencil.Proofs.Document.Site
import Stencil.Proofs.Document.Convergence
import Stencil.Proofs.Document.References
import Stencil.Proofs.Document.Numbering
import Stencil.Proofs.Document.Projection
import Stencil.Proofs.Document.Rendering
import Stencil.Proofs.Document.Recording
import Stencil.Proofs.Document.Walk
import Stencil.Proofs.Document.Naming
import Stencil.Proofs.Document.Itself
import Stencil.Proofs.Page.Account
import Stencil.Proofs.Page.Earliest
import Stencil.Proofs.Page.Findings
import Stencil.Proofs.Page.Values
import Stencil.Proofs.Collection.Variation
import Stencil.Proofs.Collection.Merging
import Stencil.Proofs.Collection.Shape
import Stencil.Proofs.Collection.Comparison
import Stencil.Proofs.Collection.Pages
import Stencil.Proofs.Collection.SameShape
import Stencil.Proofs.Layout.Renaming
import Stencil.Proofs.Collection.WellFormed
import Stencil.Proofs.Layout.Coverage
import Stencil.Proofs.Collection.Coverage
import Stencil.Proofs.Page.Restoring
import Stencil.Proofs.Collection.Heredity
import Stencil.Proofs.Collection.RoundTrip
import Stencil.Proofs.Collection.Provenance
import Stencil.Proofs.Template.Characters
import Stencil.Proofs.Markup.Canonical
import Stencil.Proofs.Markup.Token
import Stencil.Proofs.Markup.Attributes
import Stencil.Proofs.Markup.Builder
import Stencil.Proofs.Markup.RoundTrip
import Stencil.Proofs.Template.Actions
import Stencil.Proofs.FileTree
import Stencil.Proofs.Path
import Stencil.Proofs.FileTree.Action
import Stencil.Proofs.Source
import Stencil.Proofs.Hugo.Project
import Stencil.Proofs.Run.Sources
import Stencil.Proofs.FileTree.Writing
import Stencil.Proofs.Hugo.Writing
import Stencil.Proofs.Hugo.Pathnames
import Stencil.Proofs.Alignment
import Stencil.Proofs.Alignment.Path
import Stencil.Proofs.Layout.Absorption
import Stencil.Proofs.Run.Obstacle
import Stencil.Proofs.Layout.Counting
import Stencil.Proofs.Layout.Uniqueness
import Stencil.Proofs.Attribute.Agreement
import Stencil.Proofs.Layout.Slots
import Stencil.Proofs.Layout.Stability
import Stencil.Proofs.Text.Words
import Stencil.Proofs.Text.Lines
import Stencil.Proofs.Toml.Lines
import Stencil.Proofs.Hugo.FrontMatter
import Stencil.Proofs.Document.Extraction
import Stencil.Proofs.Markup.Outline
import Stencil.Proofs.Markup.Siblings
import Stencil.Proofs.Markup.Ignored
import Stencil.Proofs.Markup.Regular
import Stencil.Proofs.Markup.Locality
import Stencil.Proofs.Markup.Mark
import Stencil.Proofs.Markup.RawText
import Stencil.Proofs.Record.Json
import Stencil.Proofs.Node.Json
import Stencil.Proofs.Page.Guards
import Stencil.Proofs.Warning.Report
import Stencil.Proofs.Json
