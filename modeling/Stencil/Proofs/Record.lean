import Mathlib.Data.List.Nodup
import Stencil.Record

/-!
# Looking up what was stored

A record is built from a list of entries, one after the other, and is only ever read through
`Record.get?`.  The statements below say what a lookup gives back: with distinct references every
entry is found, a reference without an entry is absent, and filling in entries whose references are
known changes nothing.
-/

namespace Stencil.Record

variable {record : Record} {entries : List (String × Value)} {reference : String} {value : Value}

theorem extend_cons (record : Record) (entry : String × Value) (entries : List (String × Value)) :
    record.extend (entry :: entries) = (record.insert entry.1 entry.2).extend entries :=
  rfl

theorem fill_cons (record : Record) (entry : String × Value) (entries : List (String × Value)) :
    record.fill (entry :: entries) = (record.insertNew entry.1 entry.2).fill entries :=
  rfl

theorem insertNew_of_contains
    (hpresent : record.contains reference = true) :
    record.insertNew reference value = record :=
  if_pos hpresent

theorem get?_insertNew_of_get? {other : String} {stored : Value}
    (hvalue : record.get? reference = some value) :
    (record.insertNew other stored).get? reference = some value := by
  by_cases hother : record.contains other = true
  · rw [insertNew_of_contains hother, hvalue]
  · have hne : other ≠ reference := by
      rintro rfl
      exact hother (by simp [contains, hvalue])
    have hnew : record.insertNew other stored = record.insert other stored :=
      if_neg hother
    rw [hnew, get?_insert, if_neg hne, hvalue]

theorem get?_extend_of_notMem
    (hreference : reference ∉ entries.map Prod.fst) :
    (record.extend entries).get? reference = record.get? reference := by
  induction entries generalizing record with
  | nil => rfl
  | cons entry entries ih =>
      simp only [List.map_cons, List.mem_cons, not_or] at hreference
      rw [extend_cons, ih hreference.2, get?_insert, if_neg (Ne.symm hreference.1)]

theorem get?_extend_of_mem
    (hdistinct : (entries.map Prod.fst).Nodup)
    (hentry : (reference, value) ∈ entries) :
    (record.extend entries).get? reference = some value := by
  induction entries generalizing record with
  | nil => exact absurd hentry List.not_mem_nil
  | cons entry entries ih =>
      rw [List.map_cons, List.nodup_cons] at hdistinct
      rw [extend_cons]
      rcases List.mem_cons.mp hentry with rfl | hrest
      · rw [get?_extend_of_notMem hdistinct.1, get?_insert, if_pos rfl]
      · exact ih hdistinct.2 hrest

/-- A lookup gives what was stored before, or one of the entries. -/
theorem get?_extend_cases
    (record : Record) (hdistinct : (entries.map Prod.fst).Nodup) (reference : String) :
    (record.extend entries).get? reference = record.get? reference ∨
      ∃ value, (reference, value) ∈ entries ∧
        (record.extend entries).get? reference = some value := by
  by_cases hreference : reference ∈ entries.map Prod.fst
  · obtain ⟨⟨_, value⟩, hentry, rfl⟩ := List.mem_map.mp hreference
    exact Or.inr ⟨value, hentry, get?_extend_of_mem hdistinct hentry⟩
  · exact Or.inl (get?_extend_of_notMem hreference)

/-- Entries with distinct references are all found. -/
theorem get?_ofEntries_of_mem
    (hdistinct : (entries.map Prod.fst).Nodup)
    (hentry : (reference, value) ∈ entries) :
    (ofEntries entries).get? reference = some value :=
  get?_extend_of_mem hdistinct hentry

/-! ## Agreeing with a list of entries -/

/-- A lookup gives every entry. -/
def Agrees (record : Record) (entries : List (String × Value)) : Prop :=
  ∀ entry ∈ entries, record.get? entry.1 = some entry.2

@[simp] theorem agrees_cons {entry : String × Value} :
    record.Agrees (entry :: entries) ↔
      record.get? entry.1 = some entry.2 ∧ record.Agrees entries := by
  simp [Agrees]

@[simp] theorem agrees_append {more : List (String × Value)} :
    record.Agrees (entries ++ more) ↔ record.Agrees entries ∧ record.Agrees more := by
  simp only [Agrees, List.mem_append, or_imp, forall_and]

theorem agrees_ofEntries (hdistinct : (entries.map Prod.fst).Nodup) :
    (ofEntries entries).Agrees entries :=
  fun _ hentry => get?_ofEntries_of_mem hdistinct hentry

/-! ## Which references are present -/

theorem contains_insert (record : Record) (reference other : String) (value : Value) :
    (record.insert reference value).contains other =
      (decide (reference = other) || record.contains other) := by
  rw [contains, get?_insert, contains]
  by_cases h : reference = other <;> simp [h]

theorem contains_extend_iff :
    (record.extend entries).contains reference = true ↔
      record.contains reference = true ∨ reference ∈ entries.map Prod.fst := by
  induction entries generalizing record with
  | nil => simp [extend]
  | cons entry entries ih =>
      rw [extend_cons, ih, contains_insert]
      simp only [Bool.or_eq_true, decide_eq_true_eq, List.map_cons, List.mem_cons]
      constructor
      · rintro ((rfl | h) | h)
        · exact Or.inr (Or.inl rfl)
        · exact Or.inl h
        · exact Or.inr (Or.inr h)
      · rintro (h | rfl | h)
        · exact Or.inl (Or.inr h)
        · exact Or.inl (Or.inl rfl)
        · exact Or.inr h

theorem contains_ofEntries_iff :
    (ofEntries entries).contains reference = true ↔ reference ∈ entries.map Prod.fst := by
  rw [ofEntries, contains_extend_iff]
  simp [contains, get?]

theorem mem_references_iff_contains :
    reference ∈ record.references ↔ record.contains reference = true := by
  induction record with
  | nil => simp [references, contains, get?]
  | cons entry rest ih =>
      obtain ⟨key, stored⟩ := entry
      by_cases h : key = reference
      · simp [references, contains, get?, h]
      · rw [references, contains] at ih
        simpa [references, contains, get?, h, Ne.symm h] using ih

/-! ## Filling up -/

/-- A reference that is present keeps its value when a record is filled up. -/
theorem get?_fill_of_get?
    (hvalue : record.get? reference = some value) :
    (record.fill entries).get? reference = some value := by
  induction entries generalizing record with
  | nil => exact hvalue
  | cons entry entries ih =>
      rw [fill_cons]
      exact ih (get?_insertNew_of_get? hvalue)

theorem Agrees.fill {more : List (String × Value)} (h : record.Agrees entries) :
    (record.fill more).Agrees entries :=
  fun entry hentry => get?_fill_of_get? (h entry hentry)

/-- Filling in references that are all present changes nothing. -/
theorem fill_eq_self
    (hpresent : ∀ entry ∈ entries, record.contains entry.1 = true) :
    record.fill entries = record := by
  induction entries with
  | nil => rfl
  | cons entry entries ih =>
      rw [fill_cons, insertNew_of_contains (hpresent entry List.mem_cons_self)]
      exact ih fun other hother => hpresent other (List.mem_cons_of_mem _ hother)

/-! ## Where a value comes from -/

theorem mem_of_get? (h : record.get? reference = some value) : (reference, value) ∈ record := by
  induction record with
  | nil => simp [get?] at h
  | cons entry rest ih =>
      obtain ⟨key, stored⟩ := entry
      rw [get?] at h
      by_cases hkey : key = reference
      · rw [if_pos hkey] at h
        obtain rfl : stored = value := Option.some.inj h
        exact hkey ▸ List.mem_cons_self
      · rw [if_neg hkey] at h
        exact List.mem_cons_of_mem _ (ih h)

section Source

variable {entry : String × Value}

theorem eq_or_mem_of_mem_insert (h : entry ∈ record.insert reference value) :
    entry = (reference, value) ∨ entry ∈ record := by
  induction record with
  | nil => exact Or.inl (List.mem_singleton.mp h)
  | cons first rest ih =>
      rw [insert] at h
      split_ifs at h
      · exact (List.mem_cons.mp h).imp_right (List.mem_cons_of_mem first)
      · exact List.mem_cons.mp h
      · rcases List.mem_cons.mp h with hfirst | hlater
        · exact Or.inr (hfirst ▸ List.mem_cons_self)
        · exact (ih hlater).imp_right (List.mem_cons_of_mem first)

/-- What a record holds after storing entries is one of them, or was there before. -/
theorem mem_or_mem_of_mem_extend (h : entry ∈ record.extend entries) :
    entry ∈ entries ∨ entry ∈ record := by
  induction entries generalizing record with
  | nil => exact Or.inr h
  | cons first entries ih =>
      rw [extend_cons] at h
      rcases ih h with hlater | hstored
      · exact Or.inl (List.mem_cons_of_mem _ hlater)
      · rcases eq_or_mem_of_mem_insert hstored with hfirst | hbefore
        · exact Or.inl (hfirst ▸ List.mem_cons_self)
        · exact Or.inr hbefore

theorem mem_of_mem_ofEntries (h : entry ∈ ofEntries entries) : entry ∈ entries := by
  rcases mem_or_mem_of_mem_extend h with hentry | hnone
  · exact hentry
  · exact absurd hnone List.not_mem_nil

/-- What a record holds after filling up is one of the entries, or was there before. -/
theorem mem_or_mem_of_mem_fill (h : entry ∈ record.fill entries) :
    entry ∈ entries ∨ entry ∈ record := by
  induction entries generalizing record with
  | nil => exact Or.inr h
  | cons first entries ih =>
      rw [fill_cons] at h
      rcases ih h with hlater | hstored
      · exact Or.inl (List.mem_cons_of_mem _ hlater)
      · by_cases hknown : record.contains first.1 = true
        · rw [insertNew_of_contains hknown] at hstored
          exact Or.inr hstored
        · rw [insertNew, if_neg hknown] at hstored
          rcases eq_or_mem_of_mem_insert hstored with hfirst | hbefore
          · exact Or.inl (hfirst ▸ List.mem_cons_self)
          · exact Or.inr hbefore

end Source

/-! ## Keys -/

/-- A new reference becomes one more key. -/
theorem references_insert_perm (hnew : record.contains reference = false) :
    (record.insert reference value).references.Perm (reference :: record.references) := by
  induction record with
  | nil => exact List.Perm.refl _
  | cons entry rest ih =>
      obtain ⟨key, stored⟩ := entry
      have hne : key ≠ reference := by
        rintro rfl
        simp [contains, get?] at hnew
      have hrest : contains rest reference = false := by
        simpa [contains, get?, hne] using hnew
      rw [insert, if_neg (Ne.symm hne)]
      split_ifs
      · exact List.Perm.refl _
      · exact ((ih hrest).cons key).trans (List.Perm.swap reference key _)

theorem references_extend_perm
    (hdistinct : (entries.map Prod.fst).Nodup)
    (hnew : ∀ entry ∈ entries, record.contains entry.1 = false) :
    (record.extend entries).references.Perm (entries.map Prod.fst ++ record.references) := by
  induction entries generalizing record with
  | nil => exact List.Perm.refl _
  | cons entry entries ih =>
      rw [List.map_cons, List.nodup_cons] at hdistinct
      rw [List.forall_mem_cons] at hnew
      have hlater :
          ∀ other ∈ entries, (record.insert entry.1 entry.2).contains other.1 = false := by
        intro other hother
        have hne : entry.1 ≠ other.1 := fun h =>
          hdistinct.1 (h ▸ List.mem_map_of_mem hother)
        simp [contains_insert, hne, hnew.2 other hother]
      rw [extend_cons]
      refine (ih hdistinct.2 hlater).trans ?_
      refine ((references_insert_perm hnew.1).append_left _).trans ?_
      exact List.perm_middle

/-- Entries with distinct references are stored under exactly these. -/
theorem references_ofEntries_perm (hdistinct : (entries.map Prod.fst).Nodup) :
    (ofEntries entries).references.Perm (entries.map Prod.fst) := by
  have h : (extend [] entries).references.Perm (entries.map Prod.fst ++ references []) :=
    references_extend_perm hdistinct fun _ _ => rfl
  rwa [references, references, List.map_nil, List.append_nil] at h

end Stencil.Record
