import Mathlib.Data.String.Basic
import Stencil.Record.Json
import Stencil.Proofs.Json
import Stencil.Proofs.Record

/-!
# Reading values back

A record keeps its references in ascending order, and so do the records of its loops
(`Record.IsOrdered`).  Everything that is read is ordered so (`Value.isOrdered_of_ofJson?`), and an
ordered value is read back from its written form (`Value.ofJson?_toJson`), which is nested no deeper
than what was read (`Value.nesting_toJson_le`).

No tag says which of the three shapes a value has.  Reading takes the first of them that fits
(`Value.ofJson?_eq_findSome?`), and at most one does (`Value.ofJson?_of_reading`).
-/

namespace Stencil

/-! ## Ordered records -/

mutual

/-- All records of the value are in ascending order of their references. -/
def Value.IsOrdered : Value → Prop
  | .flag _ | .text _ => True
  | .list records => Record.AreOrdered records

/-- All records of the list are in ascending order of their references. -/
def Record.AreOrdered : List (List (String × Value)) → Prop
  | [] => True
  | record :: records => Record.IsOrdered record ∧ Record.AreOrdered records

/-- The record and all records inside it are in ascending order of their references. -/
def Record.IsOrdered : List (String × Value) → Prop
  | [] => True
  | (reference, value) :: rest =>
    (∀ entry ∈ rest, reference < entry.1) ∧ value.IsOrdered ∧ Record.IsOrdered rest

end

namespace Record

variable {record : Record} {reference : String} {value : Value}

theorem get?_of_lt (hfirst : ∀ entry ∈ record, reference < entry.1) :
    record.get? reference = none := by
  by_contra hstored
  obtain ⟨value, hvalue⟩ := Option.ne_none_iff_exists'.mp hstored
  exact lt_irrefl reference (hfirst _ (mem_of_get? hvalue))

/-- A reference before all others comes first. -/
theorem insertNew_of_lt (hfirst : ∀ entry ∈ record, reference < entry.1) :
    record.insertNew reference value = (reference, value) :: record := by
  have hnew : record.contains reference = false := by
    simp [contains, get?_of_lt hfirst]
  rw [insertNew, hnew, if_neg Bool.false_ne_true]
  cases record with
  | nil => rfl
  | cons entry rest =>
      have hlt := hfirst entry List.mem_cons_self
      rw [insert, if_neg hlt.ne, if_pos hlt]

theorem isOrdered_insert (hvalue : value.IsOrdered) (hrecord : IsOrdered record) :
    IsOrdered (record.insert reference value) := by
  induction record with
  | nil => exact ⟨fun _ hentry => absurd hentry List.not_mem_nil, hvalue, hrecord⟩
  | cons entry rest ih =>
      obtain ⟨key, stored⟩ := entry
      obtain ⟨hfirst, hstored, hrest⟩ := hrecord
      rw [insert]
      split_ifs with heq hlt
      · exact ⟨heq ▸ hfirst, hvalue, hrest⟩
      · refine ⟨?_, hvalue, hfirst, hstored, hrest⟩
        rintro other (_ | ⟨_, hother⟩)
        · exact hlt
        · exact hlt.trans (hfirst other hother)
      · refine ⟨fun other hother => ?_, hstored, ih hrest⟩
        rcases eq_or_mem_of_mem_insert hother with rfl | hbefore
        · exact lt_of_le_of_ne (not_lt.mp hlt) (Ne.symm heq)
        · exact hfirst other hbefore

theorem isOrdered_insertNew (hvalue : value.IsOrdered) (hrecord : IsOrdered record) :
    IsOrdered (record.insertNew reference value) := by
  rw [insertNew]
  split_ifs
  · exact hrecord
  · exact isOrdered_insert hvalue hrecord

end Record

/-! ## Round trips -/

mutual

/-- Reading a value undoes writing it. -/
theorem Value.ofJson?_toJson :
    ∀ value : Value, value.IsOrdered → Value.ofJson? value.toJson = some value
  | .flag _, _ => rfl
  | .text _, _ => rfl
  | .list records, hordered => by
      rw [Value.toJson, Value.ofJson?, Record.listOfJson?_listToJson records hordered]
      rfl

theorem Record.listOfJson?_listToJson :
    ∀ records : List (List (String × Value)), Record.AreOrdered records →
      Record.listOfJson? (Record.listToJson records) = some records
  | [], _ => rfl
  | record :: records, hordered => by
      rw [Record.listToJson, Record.listOfJson?, Record.ofFields?_fieldsToJson record hordered.1,
        Record.listOfJson?_listToJson records hordered.2]
      rfl

theorem Record.ofFields?_fieldsToJson :
    ∀ record : List (String × Value), Record.IsOrdered record →
      Record.ofFields? (Record.fieldsToJson record) = some record
  | [], _ => rfl
  | (reference, value) :: rest, hordered => by
      obtain ⟨hfirst, hvalue, hrest⟩ := hordered
      rw [Record.fieldsToJson, Record.ofFields?, Value.ofJson?_toJson value hvalue,
        Record.ofFields?_fieldsToJson rest hrest]
      exact congrArg some (Record.insertNew_of_lt hfirst)

end

mutual

/-- What is read is ordered, whatever the order of the fields. -/
theorem Value.isOrdered_of_ofJson? :
    ∀ {json : Json} {value : Value}, Value.ofJson? json = some value → value.IsOrdered
  | .bool _, _, hread => by
      obtain rfl := Option.some.inj hread
      trivial
  | .string _, _, hread => by
      obtain rfl := Option.some.inj hread
      trivial
  | .array items, _, hread => by
      rw [Value.ofJson?, Option.map_eq_some_iff] at hread
      obtain ⟨records, hrecords, rfl⟩ := hread
      exact Record.areOrdered_of_listOfJson? hrecords
  | .null, _, hread | .number _, _, hread | .object _, _, hread => by
      contradiction

theorem Record.areOrdered_of_listOfJson? :
    ∀ {items : List Json} {records : List Record},
      Record.listOfJson? items = some records → Record.AreOrdered records
  | [], _, hread => by
      obtain rfl := Option.some.inj hread
      trivial
  | .object fields :: items, _, hread => by
      simp only [Record.listOfJson?, Option.bind_eq_bind, Option.bind_eq_some_iff] at hread
      obtain ⟨record, hrecord, records, hrecords, hlist⟩ := hread
      obtain rfl := Option.some.inj hlist
      exact ⟨Record.isOrdered_of_ofFields? hrecord, Record.areOrdered_of_listOfJson? hrecords⟩
  | .null :: _, _, hread | .bool _ :: _, _, hread | .number _ :: _, _, hread
  | .string _ :: _, _, hread | .array _ :: _, _, hread => by
      contradiction

theorem Record.isOrdered_of_ofFields? :
    ∀ {fields : List (String × Json)} {record : Record},
      Record.ofFields? fields = some record → Record.IsOrdered record
  | [], _, hread => by
      obtain rfl := Option.some.inj hread
      trivial
  | (reference, json) :: fields, _, hread => by
      simp only [Record.ofFields?, Option.bind_eq_bind, Option.bind_eq_some_iff] at hread
      obtain ⟨value, hvalue, rest, hrest, hrecord⟩ := hread
      obtain rfl := Option.some.inj hrecord
      exact Record.isOrdered_insertNew (Value.isOrdered_of_ofJson? hvalue)
        (Record.isOrdered_of_ofFields? hrest)

end

/-! ## Nesting -/

theorem Record.eq_or_mem_of_mem_insertNew
    {record : Record} {reference : String} {value : Value} {entry : String × Value}
    (h : entry ∈ record.insertNew reference value) :
    entry = (reference, value) ∨ entry ∈ record := by
  rw [insertNew] at h
  split_ifs at h
  · exact .inr h
  · exact eq_or_mem_of_mem_insert h

theorem Record.fieldNesting_fieldsToJson_le_iff {record : Record} {depth : Nat} :
    Json.fieldNesting (Record.fieldsToJson record) ≤ depth ↔
      ∀ entry ∈ record, entry.2.toJson.nesting ≤ depth := by
  induction record with
  | nil => simp [Record.fieldsToJson, Json.fieldNesting]
  | cons entry record ih =>
      rw [Record.fieldsToJson, Json.fieldNesting, Nat.max_le, ih, List.forall_mem_cons]

mutual

/-- A value that was read is nested no deeper when it is written again. -/
theorem Value.nesting_toJson_le :
    ∀ {json : Json} {value : Value}, Value.ofJson? json = some value →
      value.toJson.nesting ≤ json.nesting
  | .bool _, _, hread => by
      obtain rfl := Option.some.inj hread
      exact Nat.le_refl _
  | .string _, _, hread => by
      obtain rfl := Option.some.inj hread
      exact Nat.le_refl _
  | .array items, _, hread => by
      rw [Value.ofJson?, Option.map_eq_some_iff] at hread
      obtain ⟨records, hrecords, rfl⟩ := hread
      exact Nat.succ_le_succ (Record.itemNesting_listToJson_le hrecords)
  | .null, _, hread | .number _, _, hread | .object _, _, hread => by
      contradiction

theorem Record.itemNesting_listToJson_le :
    ∀ {items : List Json} {records : List Record}, Record.listOfJson? items = some records →
      Json.itemNesting (Record.listToJson records) ≤ Json.itemNesting items
  | [], _, hread => by
      obtain rfl := Option.some.inj hread
      exact Nat.le_refl _
  | .object fields :: items, _, hread => by
      simp only [Record.listOfJson?, Option.bind_eq_bind, Option.bind_eq_some_iff] at hread
      obtain ⟨record, hrecord, records, hrecords, hlist⟩ := hread
      obtain rfl := Option.some.inj hlist
      have hfirst := Record.fieldNesting_fieldsToJson_le hrecord
      have hrest := Record.itemNesting_listToJson_le hrecords
      rw [Record.listToJson, Json.itemNesting, Json.itemNesting, Json.nesting, Json.nesting]
      omega
  | .null :: _, _, hread | .bool _ :: _, _, hread | .number _ :: _, _, hread
  | .string _ :: _, _, hread | .array _ :: _, _, hread => by
      contradiction

theorem Record.fieldNesting_fieldsToJson_le :
    ∀ {fields : List (String × Json)} {record : Record}, Record.ofFields? fields = some record →
      Json.fieldNesting (Record.fieldsToJson record) ≤ Json.fieldNesting fields
  | [], _, hread => by
      obtain rfl := Option.some.inj hread
      exact Nat.le_refl _
  | (reference, json) :: fields, _, hread => by
      simp only [Record.ofFields?, Option.bind_eq_bind, Option.bind_eq_some_iff] at hread
      obtain ⟨value, hvalue, rest, hrest, hrecord⟩ := hread
      obtain rfl := Option.some.inj hrecord
      have hfirst := Value.nesting_toJson_le hvalue
      have hothers := Record.fieldNesting_fieldsToJson_le hrest
      rw [Json.fieldNesting, Record.fieldNesting_fieldsToJson_le_iff]
      intro entry hentry
      rcases Record.eq_or_mem_of_mem_insertNew hentry with rfl | hbefore
      · exact Nat.le_trans hfirst (Nat.le_max_left _ _)
      · have hentryLe := Record.fieldNesting_fieldsToJson_le_iff.mp hothers entry hbefore
        exact Nat.le_trans hentryLe (Nat.le_max_right _ _)

end

/-! ## The three shapes -/

namespace Value

/-- The ways to read a value, in the order in which they are tried. -/
def readings : List (Json → Option Value) :=
  [fun
      | .bool value => some (.flag value)
      | _ => none,
    fun json => json.string?.map .text,
    fun json => (json.items?.bind Record.listOfJson?).map .list]

variable {json : Json} {value : Value}

/-- A value is read in the first way that fits. -/
theorem ofJson?_eq_findSome? (json : Json) :
    ofJson? json = readings.findSome? fun read => read json := by
  cases json with
  | array items =>
      cases hitems : Record.listOfJson? items <;>
        simp [ofJson?, readings, Json.string?, Json.items?, hitems]
  | null | bool _ | number _ | string _ | object _ => rfl

/-- No two ways fit the same value. -/
theorem ofJson?_of_reading {read : Json → Option Value}
    (hread : read ∈ readings) (hvalue : read json = some value) :
    ofJson? json = some value := by
  simp only [readings, List.mem_cons, List.not_mem_nil, or_false] at hread
  obtain rfl | rfl | rfl := hread
  · cases json with
    | bool flag => exact hvalue
    | null | number _ | string _ | array _ | object _ => contradiction
  · cases json with
    | string text => exact hvalue
    | null | bool _ | number _ | array _ | object _ => contradiction
  · cases json with
    | array items => exact hvalue
    | null | bool _ | number _ | string _ | object _ => contradiction

end Value

end Stencil
