import Stencil.Node.Json

/-!
# Documents

A tagged value has its fields beside the tag by name or after it by position (`Json.Given`), and
they are nested less deep than the value (`Json.Given.nesting_lt`).  What a document is read as does
not depend on its reader, only whether it is read at all (`Json.Reader.read?_eq_some_iff`).
-/

namespace Stencil

namespace Json

/-! ## Nesting -/

section Nesting

variable {json item value : Json} {items : List Json} {fields : List (String × Json)}
  {key : String} {depth : Nat}

theorem itemNesting_le_iff : itemNesting items ≤ depth ↔ ∀ item ∈ items, item.nesting ≤ depth := by
  induction items with
  | nil => simp [itemNesting]
  | cons item items ih => rw [itemNesting, Nat.max_le, ih, List.forall_mem_cons]

theorem fieldNesting_le_iff :
    fieldNesting fields ≤ depth ↔ ∀ field ∈ fields, field.2.nesting ≤ depth := by
  induction fields with
  | nil => simp [fieldNesting]
  | cons field fields ih => rw [fieldNesting, Nat.max_le, ih, List.forall_mem_cons]

theorem nesting_lt_of_mem (hitem : item ∈ items) : item.nesting < (array items).nesting := by
  have hle := itemNesting_le_iff.mp (Nat.le_refl _) item hitem
  rw [nesting]
  omega

theorem nesting_lt_of_lookup (hlookup : fields.lookup key = some value) :
    value.nesting < (object fields).nesting := by
  have hmem : (key, value) ∈ fields := by
    obtain ⟨before, after, rfl, -⟩ := List.lookup_eq_some_iff.mp hlookup
    simp
  have hle := fieldNesting_le_iff.mp (Nat.le_refl _) (key, value) hmem
  rw [nesting]
  exact Nat.lt_succ_of_le hle

theorem IsWithin.mono {limit : Option Nat} (h : json.IsWithin limit)
    (hle : value.nesting ≤ json.nesting) : value.IsWithin limit :=
  fun depth hdepth => Nat.le_trans hle (h depth hdepth)

end Nesting

/-! ## Readers -/

namespace Reader

variable {α : Type} {reader : Reader} {ofJson? : Json → Option α} {json : Json} {result : α}
  {limit : Option Nat}

theorem read?_eq_some_iff :
    reader.read? ofJson? json = some result ↔
      reader.accepts json = true ∧ ofJson? json = some result := by
  rw [read?]
  split <;> simp [*]

/-- Up to its limit a reader reads all there is to read. -/
theorem read?_of_isWithin
    (hreader : reader.AcceptsUpTo limit) (hresult : ofJson? json = some result)
    (hjson : json.IsWithin limit) : reader.read? ofJson? json = some result :=
  read?_eq_some_iff.mpr ⟨hreader json hjson, hresult⟩

theorem acceptsUpTo_upTo (limit : Nat) : (upTo limit).AcceptsUpTo (some limit) :=
  fun _ hjson => decide_eq_true (hjson limit rfl)

end Reader

/-! ## Tagged values -/

variable {α : Type}

theorem string?_eq_some {json : Json} {text : String} :
    json.string? = some text ↔ json = .string text := by
  cases json <;> simp [string?]

/-- The tag of a value that stands alone is a name. -/
theorem outermost?_eq_some_iff {read? : Json → Option α} {json : Json} {result : α} :
    outermost? read? json = some result ↔
      (∃ name, json.tag? = some (.string name)) ∧ read? json = some result := by
  rw [outermost?]
  split
  · rename_i name htag
    simp [htag]
  · rename_i hunnamed
    constructor
    · intro hread
      contradiction
    · rintro ⟨⟨name, htag⟩, -⟩
      exact (hunnamed name htag).elim

/-- The items of a list that may be left out. -/
def listed? : Option Json → Option (List Json)
  | none => some []
  | some json => json.items?

/-- `Given names fieldNames json choice field`: the value has the tag of the choice, and `field`
finds its other fields.  An object has them by name, none of them twice; an array has them after the
tag, by position, and has no more of them than the choice. -/
inductive Given (names : List (String × α)) (fieldNames : α → List String) :
    Json → α → (String → Option Json) → Prop
  | named {fields : List (String × Json)} {choice : α}
      (htag : (fields.lookup "type").bind (choice? names) = some choice)
      (hsingle : areSingle ("type" :: fieldNames choice) fields = true) :
      Given names fieldNames (.object fields) choice fun name => fields.lookup name
  | positional {tag : Json} {items : List Json} {choice : α}
      (htag : tag.choice? names = some choice)
      (hcount : items.length ≤ (fieldNames choice).length) :
      Given names fieldNames (.array (tag :: items)) choice fun name =>
        items[(fieldNames choice).idxOf name]?

/-- A tag stands for an entry of the list. -/
theorem mem_of_choice? {names : List (String × α)} {tag : Json} {choice : α}
    (hchoice : tag.choice? names = some choice) :
    choice ∈ names.map Prod.snd := by
  cases tag with
  | string name =>
      obtain ⟨before, after, rfl, -⟩ := List.lookup_eq_some_iff.mp hchoice
      simp
  | number text =>
      simp only [choice?, Option.bind_eq_bind, Option.bind_eq_some_iff] at hchoice
      obtain ⟨position, -, entry, hentry, hsnd⟩ := hchoice
      exact List.mem_map.mpr ⟨entry, List.mem_of_getElem? hentry, Option.some.inj hsnd⟩
  | null | bool _ | array _ | object _ => simp [choice?] at hchoice

namespace Given

variable {names : List (String × α)} {fieldNames : α → List String} {json value : Json}
  {choice : α} {field : String → Option Json} {name : String} {items written : List Json}

theorem mem (hgiven : Given names fieldNames json choice field) : choice ∈ names.map Prod.snd := by
  cases hgiven with
  | named htag hsingle =>
      obtain ⟨tag, -, htag⟩ := Option.bind_eq_some_iff.mp htag
      exact mem_of_choice? htag
  | positional htag hcount => exact mem_of_choice? htag

theorem nesting_pos (hgiven : Given names fieldNames json choice field) : 0 < json.nesting := by
  cases hgiven with
  | named htag hsingle => exact Nat.succ_pos _
  | positional htag hcount => exact Nat.succ_pos _

/-- A field is nested less deep than the value that has it. -/
theorem nesting_lt
    (hgiven : Given names fieldNames json choice field) (hfield : field name = some value) :
    value.nesting < json.nesting := by
  cases hgiven with
  | named htag hsingle => exact nesting_lt_of_lookup hfield
  | positional htag hcount =>
      exact nesting_lt_of_mem (List.mem_cons_of_mem _ (List.mem_of_getElem? hfield))

/-- What is at most one level deeper than a list of the value, and empty where that is, is nested
no deeper than the value. -/
theorem nesting_array_le
    (hgiven : Given names fieldNames json choice field) (hitems : listed? (field name) = some items)
    (hempty : items = [] → written = [])
    (hwritten : (array written).nesting ≤ (array items).nesting + 1) :
    (array written).nesting ≤ json.nesting := by
  cases hfield : field name with
  | none =>
      obtain rfl : [] = items := by simpa [hfield, listed?] using hitems
      rw [hempty rfl]
      exact hgiven.nesting_pos
  | some list =>
      have hlt := hgiven.nesting_lt hfield
      obtain rfl : list = array items := by
        rw [hfield] at hitems
        cases list with
        | array known => exact congrArg array (Option.some.inj hitems)
        | null | bool _ | number _ | string _ | object _ => contradiction
      omega

end Given

end Json

end Stencil
