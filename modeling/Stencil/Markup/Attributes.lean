import Stencil.Markup.Entity
import Stencil.Markup.Token
import Stencil.Node
import Stencil.Text.Space

/-!
# Attributes of a tag

The text after the name of a tag is a list of attributes.  A value stands in quotes or ends at
white space; an attribute without a value has the empty one.  Names are made small, and of
attributes of one name the first stands.
-/

namespace Stencil.Markup

/-- A character of an attribute's name, its first character apart. -/
def isNameChar (c : Char) : Bool :=
  c != '=' && !isTagSpace c

/-- Read the value after an `=`: the value and the text after it.  A quote that is not closed, or
no value at all, ends the attributes. -/
def readValue (cs : List Char) : Option (List Char × List Char) :=
  match cs.dropWhile isTagSpace with
  | [] => none
  | c :: value =>
    if c = '"' ∨ c = '\'' then
      match value.dropWhile (· != c) with
      | [] => none
      | _ :: rest => some (value.takeWhile (· != c), rest)
    else some (c :: value.takeWhile (!isTagSpace ·), value.dropWhile (!isTagSpace ·))

/-- Read the attribute whose name begins with `c`: its name, its value and the text after it. -/
def readAttribute (c : Char) (cs : List Char) : Option ((List Char × List Char) × List Char) :=
  let name := c :: cs.takeWhile isNameChar
  match (cs.dropWhile isNameChar).dropWhile isTagSpace with
  | '=' :: rest => (readValue rest).map fun (value, rest) => ((name, value), rest)
  | rest => some ((name, []), rest)

theorem dropWhile_length (p : Char → Bool) (cs : List Char) :
    (cs.dropWhile p).length ≤ cs.length :=
  (List.dropWhile_sublist p).length_le

theorem readValue_length {cs value rest : List Char} (h : readValue cs = some (value, rest)) :
    rest.length < cs.length := by
  have hs := dropWhile_length isTagSpace cs
  rw [readValue] at h
  split at h
  · cases h
  · rename_i c text heq
    rw [heq, List.length_cons] at hs
    split at h
    · split at h
      · cases h
      · rename_i q after hq
        have hv := dropWhile_length (· != c) text
        rw [hq, List.length_cons] at hv
        cases h
        omega
    · cases h
      have hv := dropWhile_length (!isTagSpace ·) text
      omega

/-- An attribute takes up at least one character. -/
theorem readAttribute_length {c : Char} {cs rest : List Char} {attr : List Char × List Char}
    (h : readAttribute c cs = some (attr, rest)) : rest.length < (c :: cs).length := by
  have hn := dropWhile_length isNameChar cs
  have hs := dropWhile_length isTagSpace (cs.dropWhile isNameChar)
  rw [readAttribute] at h
  split at h
  · rename_i after heq
    rw [heq, List.length_cons] at hs
    obtain ⟨⟨value, later⟩, hv, he⟩ := Option.map_eq_some_iff.1 h
    cases he
    have := readValue_length hv
    simp only [List.length_cons]
    omega
  · cases h
    simp only [List.length_cons]
    omega

/-- Names and values of the attributes as written. -/
def rawAttributes (cs : List Char) : List (List Char × List Char) :=
  match _h : cs.dropWhile isTagSpace with
  | [] => []
  | c :: rest =>
    match _ha : readAttribute c rest with
    | none => []
    | some (attr, later) => attr :: rawAttributes later
termination_by cs.length
decreasing_by
  have := readAttribute_length _ha
  have := dropWhile_length isTagSpace cs
  rw [_h] at this
  omega

/-- Keep the first attribute of every name. -/
def firstOfEachName : List Attribute → List Attribute
  | [] => []
  | attr :: attrs => attr :: (firstOfEachName attrs).filter (·.name != attr.name)

/-- A name as elements and attributes have it. -/
def smallName (name : List Char) : String :=
  .ofList (name.map Char.toLower)

/-- The attributes of a tag. -/
def attributes (cs : List Char) : List Attribute :=
  firstOfEachName <| (rawAttributes cs).map fun (name, value) =>
    .static (smallName name) (.ofList (unescape value))

end Stencil.Markup
