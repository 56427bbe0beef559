import Stencil.Warning.Report

/-!
# Counting with an index

The groups of a list of warnings, found without a search: beside the groups stands an index with the
place of every topic met so far, and one pass grows both.  Nothing in the data keeps them in step,
and a place without a group is a failure.
-/

namespace Stencil.Warning

/-- The groups so far, and the places of their topics. -/
structure Tally where
  groups : List Group := []
  places : List (Topic × Nat) := []
  deriving DecidableEq, Repr, Inhabited

namespace Tally

/-- The place that the index has for a topic. -/
def place? (tally : Tally) (topic : Topic) : Option Nat :=
  tally.places.lookup topic

/-- Open a group at the end. -/
def opened (tally : Tally) (warning : Warning) : Tally where
  groups := tally.groups ++ [{ first := warning }]
  places := (warning.topic, tally.groups.length) :: tally.places

/-- Count one more warning in the group at a place. -/
def enlarged? (tally : Tally) (place : Nat) : Option Tally := do
  let group ← tally.groups[place]?
  return { tally with groups := tally.groups.set place { group with more := group.more + 1 } }

/-- Count a warning: in the group at the place of its topic, or in a new group. -/
def count? (tally : Tally) (warning : Warning) : Option Tally :=
  match tally.place? warning.topic with
  | some place => tally.enlarged? place
  | none => some (tally.opened warning)

/-- Count the warnings of a list. -/
def ofWarnings? (warnings : List Warning) : Option Tally :=
  warnings.foldlM count? {}

/-- The lines that account for a list of warnings. -/
def summary? (warnings : List Warning) : Option (List String) :=
  (ofWarnings? warnings).map fun tally => tally.groups.map Group.line

end Tally

end Stencil.Warning
