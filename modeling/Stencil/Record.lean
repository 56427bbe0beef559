/-!
# Records of placeholder values

A page stores one value under the reference of every placeholder: whether a conditional shows, the
text of a variable, or one record for every repetition of a loop.  Records are kept in the order
of their keys, so that equal contents are equal records.
-/

namespace Stencil

/-- A value stored under the reference of a placeholder. -/
inductive Value where
  /-- The presence of a conditional node or attribute. -/
  | flag (value : Bool)
  | text (value : String)
  /-- One record for every repetition of a loop template. -/
  | list (records : List (List (String × Value)))
  deriving Repr, Inhabited

/-- Values by reference, in ascending order of the references. -/
abbrev Record := List (String × Value)

namespace Value

/-- The text of a text value. -/
def text? : Value → Option String
  | .text value => some value
  | _ => none

/-- A conditional guarded by this value shows. -/
def isTruthy : Value → Bool
  | .flag value => value
  | .text value => value != ""
  | .list records => !records.isEmpty

end Value

namespace Record

/-- The value stored under a reference. -/
def get? : Record → String → Option Value
  | [], _ => none
  | (key, stored) :: rest, reference => if key = reference then some stored else get? rest reference

/-- The record has a value under the reference. -/
def contains (record : Record) (reference : String) : Bool :=
  (record.get? reference).isSome

/-- Store a value under a reference, in place of the value already there. -/
def insert (reference : String) (value : Value) : Record → Record
  | [] => [(reference, value)]
  | (key, stored) :: rest =>
    if reference = key then (reference, value) :: rest
    else if reference < key then (reference, value) :: (key, stored) :: rest
    else (key, stored) :: insert reference value rest

/-- Store a value under a reference that has none yet. -/
def insertNew (reference : String) (value : Value) (record : Record) : Record :=
  if record.contains reference then record else record.insert reference value

/-- Store every entry in turn, so that the last entry of a reference stands. -/
def extend (record : Record) (entries : List (String × Value)) : Record :=
  entries.foldl (fun record (reference, value) => record.insert reference value) record

/-- Add the entries whose references the record lacks. -/
def fill (record : Record) (entries : List (String × Value)) : Record :=
  entries.foldl (fun record (reference, value) => record.insertNew reference value) record

/-- The record of a list of entries; the last entry of a reference stands. -/
def ofEntries (entries : List (String × Value)) : Record :=
  extend [] entries

/-- The references that have a value, in ascending order. -/
def references (record : Record) : List String :=
  record.map Prod.fst

theorem get?_insert (record : Record) (reference other : String) (value : Value) :
    (record.insert reference value).get? other =
      if reference = other then some value else record.get? other := by
  induction record with
  | nil => simp [insert, get?]
  | cons entry rest ih =>
    obtain ⟨key, stored⟩ := entry
    by_cases hk : reference = key
    · subst hk
      by_cases h : reference = other <;> simp [insert, get?, h]
    · by_cases hl : reference < key
      · simp [insert, get?, hk, hl]
      · rw [insert, if_neg hk, if_neg hl, get?, ih]
        by_cases h : reference = other
        · subst h
          simp [Ne.symm hk]
        · simp [get?, h]

end Record

end Stencil
