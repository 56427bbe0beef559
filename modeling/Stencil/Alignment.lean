/-!
# Alignment of two sibling lists

One pass over two lists, without backtracking.  Where the heads correspond they are paired.  Where
they do not, the list with strictly more left gives up its head alone, and on a tie the second
list does.  The trade-off keeps the pass linear and its result predictable.

The result is a list of steps, one for every pair and every lone item.  What a step turns into is
up to the caller: the layout merge, the comparison of documents and tracing all read the same
steps.
-/

namespace Stencil.Alignment

/-- How many items of either list have been passed. -/
structure Cursor where
  first : Nat := 0
  second : Nat := 0
  deriving DecidableEq, Repr, Inhabited

namespace Cursor

/-- The position after one more item of the first list. -/
def nextFirst (cursor : Cursor) : Cursor :=
  { cursor with first := cursor.first + 1 }

/-- The position after one more item of the second list. -/
def nextSecond (cursor : Cursor) : Cursor :=
  { cursor with second := cursor.second + 1 }

/-- The position after one more item of both lists. -/
def nextBoth (cursor : Cursor) : Cursor :=
  ⟨cursor.first + 1, cursor.second + 1⟩

end Cursor

/-- A step of the pass: a pair of corresponding items, or a lone item with the position at which
it was met. -/
inductive Step (α β : Type) where
  | pair (a : α) (b : β)
  | first (a : α) (cursor : Cursor)
  | second (b : β) (cursor : Cursor)
  deriving Repr

/-- The rest of the second list when the first is used up. -/
def secondsFrom : Cursor → List β → List (Step α β)
  | _, [] => []
  | cursor, b :: bs => .second b cursor :: secondsFrom cursor.nextSecond bs

/-- Pass over the second list until `a`, which has `left` items after it, is paired or given up
alone; `next` continues with the items after `a`. -/
def passTo (corresponds : α → β → Bool) (a : α) (left : Nat)
    (next : Cursor → List β → List (Step α β)) : Cursor → List β → List (Step α β)
  | cursor, [] => .first a cursor :: next cursor.nextFirst []
  | cursor, b :: bs =>
    if corresponds a b then .pair a b :: next cursor.nextBoth bs
    else if bs.length < left then .first a cursor :: next cursor.nextFirst (b :: bs)
    else .second b cursor :: passTo corresponds a left next cursor.nextSecond bs

/-- The steps from a position onwards. -/
def stepsFrom (corresponds : α → β → Bool) :
    List α → Cursor → List β → List (Step α β)
  | [], cursor, bs => secondsFrom cursor bs
  | a :: as, cursor, bs => passTo corresponds a as.length (stepsFrom corresponds as) cursor bs

/-- The steps of the whole pass. -/
def steps (corresponds : α → β → Bool) (as : List α) (bs : List β) : List (Step α β) :=
  stepsFrom corresponds as {} bs

/-! ## The pass as a case distinction on the heads -/

variable {corresponds : α → β → Bool} {cursor : Cursor}

theorem stepsFrom_nil (bs : List β) :
    stepsFrom corresponds [] cursor bs = secondsFrom cursor bs :=
  rfl

theorem stepsFrom_cons_nil (a : α) (as : List α) :
    stepsFrom corresponds (a :: as) cursor [] =
      .first a cursor :: stepsFrom corresponds as cursor.nextFirst [] :=
  rfl

theorem stepsFrom_cons_cons (a : α) (as : List α) (b : β) (bs : List β) :
    stepsFrom corresponds (a :: as) cursor (b :: bs) =
      if corresponds a b then .pair a b :: stepsFrom corresponds as cursor.nextBoth bs
      else if bs.length < as.length then
        .first a cursor :: stepsFrom corresponds as cursor.nextFirst (b :: bs)
      else .second b cursor :: stepsFrom corresponds (a :: as) cursor.nextSecond bs :=
  rfl

end Stencil.Alignment
