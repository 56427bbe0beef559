import Stencil.Warning

/-!
# Reports of warnings

The same attribute is dropped once per merge and a page can have many unmatched nodes, so a report
has one line per topic.  A line shows the first warning of its topic and how many follow it; the
lines stand in the order of these first warnings.
-/

namespace Stencil.Warning

/-- What makes two warnings share a line: the attribute that was dropped, or the page. -/
inductive Topic where
  | attribute (element name : String) (side : Side)
  | page (pathname : String)
  deriving DecidableEq, Repr, Inhabited

/-- The topic of a warning. -/
def topic : Warning → Topic
  | .unresolvedAttribute element name side => .attribute element name side
  | .unmatchedNode pathname _ => .page pathname

/-- The warnings on one topic: the first one, and the number of further ones. -/
structure Group where
  first : Warning
  more : Nat := 0
  deriving DecidableEq, Repr, Inhabited

namespace Group

/-- The number of warnings. -/
def size (group : Group) : Nat :=
  group.more + 1

/-- What is added to the first warning: dropped attributes are counted in all, unmatched nodes
only beyond the first. -/
def remark (group : Group) : String :=
  if group.more = 0 then ""
  else
    match group.first with
    | .unresolvedAttribute .. => " (" ++ toString group.size ++ " times)"
    | .unmatchedNode .. => " (+" ++ toString group.more ++ " more)"

/-- The line of a group. -/
def line (group : Group) : String :=
  group.first.message ++ group.remark

/-- Count a warning: in the group of its topic, or in a new group at the end. -/
def count (warning : Warning) : List Group → List Group
  | [] => [{ first := warning }]
  | group :: groups =>
    if group.first.topic = warning.topic then { group with more := group.more + 1 } :: groups
    else group :: count warning groups

end Group

/-- The groups of a list of warnings, in the order of their first warnings. -/
def groups (warnings : List Warning) : List Group :=
  warnings.foldl (fun groups warning => Group.count warning groups) []

/-- The lines that account for a list of warnings. -/
def summary (warnings : List Warning) : List String :=
  (groups warnings).map Group.line

/-- The messages that report the warnings of a collection: the summary and the total.  Without
warnings there is nothing to report. -/
def report (collection : String) (warnings : List Warning) : List String :=
  if warnings.isEmpty then []
  else
    (summary warnings ++ [toString warnings.length ++ " warnings"]).map (collection ++ ": " ++ ·)

end Stencil.Warning
