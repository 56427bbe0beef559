import Mathlib.Data.List.Count
import Stencil.Proofs.Attribute.Reconciliation
import Stencil.Proofs.Document.Rendering

/-!
# Reconciling and comparing attributes agree

The merge of layouts and the comparison of documents both take the attributes of two elements
together.  With distinct names on either side they keep the same names and report the same warnings
(`attributes_agree`): an attribute is kept if the other element has one of its name, and otherwise
it is reported once.  Only the values differ: a merge lets a literal give way to the second list,
and a comparison turns two different literals into a variable that is numbered by the place of the
attribute in the anchor, whether or not attributes before it were dropped.
-/

namespace Stencil

open Attribute Comparison

/-! ## Names and warnings -/

namespace Attribute

/-- The names that both lists have, in the order of the first. -/
def sharedNames (first second : List Attribute) : List String :=
  (first.map Attribute.name).filter fun name => name ∈ second.map Attribute.name

/-- The warnings about the attributes whose names the other list lacks, those of the first list
first. -/
def lostWarnings (element : String) (first second : List Attribute) : List Warning :=
  (first.filter fun attr => attr.name ∉ second.map Attribute.name).map (dropped element .first) ++
    (second.filter fun attr => attr.name ∉ first.map Attribute.name).map (dropped element .second)

section Count

variable {element : String} {first second attrs : List Attribute} {attr : Attribute}

theorem count_dropped (attrs : List Attribute) (side : Side) (attr : Attribute) :
    (attrs.map (dropped element side)).count (dropped element side attr) =
      (attrs.map Attribute.name).count attr.name := by
  have hinjective :
      Function.Injective fun name => Warning.unresolvedAttribute element name side := by
    intro name other h
    exact (Warning.unresolvedAttribute.inj h).2.1
  rw [← List.count_map_of_injective _ _ hinjective, List.map_map]
  rfl

theorem count_dropped_of_ne {side other : Side} (h : other ≠ side) (attrs : List Attribute) :
    (attrs.map (dropped element other)).count (dropped element side attr) = 0 := by
  rw [List.count_eq_zero]
  intro hmem
  obtain ⟨found, -, heq⟩ := List.mem_map.mp hmem
  exact h (Warning.unresolvedAttribute.inj heq).2.2

theorem count_filter_eq_ite (p : String → Bool) (names : List String) (name : String) :
    (names.filter p).count name = if p name then names.count name else 0 := by
  split_ifs with h
  · exact List.count_filter h
  · rw [List.count_eq_zero]
    exact fun hmem => h (List.mem_filter.mp hmem).2

/-- The warnings about one side count the attributes of a name that the other side lacks. -/
theorem count_lost (side : Side) (names : List String) (attrs : List Attribute) (attr : Attribute) :
    ((attrs.filter fun attr => attr.name ∉ names).map (dropped element side)).count
        (dropped element side attr) =
      if attr.name ∉ names then (attrs.map Attribute.name).count attr.name else 0 := by
  have hmap : (attrs.filter fun attr => attr.name ∉ names).map Attribute.name =
      (attrs.map Attribute.name).filter fun name => name ∉ names := by
    rw [List.filter_map]
    rfl
  rw [count_dropped, hmap, count_filter_eq_ite]
  simp only [decide_eq_true_eq]

/-- An attribute of the first list is either kept or reported, and only once. -/
theorem count_first
    (second : List Attribute) (hfirst : (first.map Attribute.name).Nodup) (hattr : attr ∈ first) :
    (sharedNames first second).count attr.name +
      (lostWarnings element first second).count (dropped element .first attr) = 1 := by
  have hone := List.count_eq_one_of_mem hfirst (List.mem_map_of_mem hattr)
  rw [sharedNames, lostWarnings, List.count_append, count_lost, count_dropped_of_ne (by simp),
    count_filter_eq_ite, hone]
  by_cases h : attr.name ∈ second.map Attribute.name <;> simp only [h] <;> rfl

/-- An attribute of the second list is either kept or reported, and only once. -/
theorem count_second
    (hfirst : (first.map Attribute.name).Nodup) (hsecond : (second.map Attribute.name).Nodup)
    (hattr : attr ∈ second) :
    (sharedNames first second).count attr.name +
      (lostWarnings element first second).count (dropped element .second attr) = 1 := by
  have hmem : attr.name ∈ second.map Attribute.name := List.mem_map_of_mem hattr
  have hone := List.count_eq_one_of_mem hsecond hmem
  rw [sharedNames, lostWarnings, List.count_append, count_lost, count_dropped_of_ne (by simp),
    count_filter_eq_ite, if_pos (decide_eq_true hmem), hone]
  by_cases h : attr.name ∈ first.map Attribute.name
  · rw [List.count_eq_one_of_mem hfirst h, if_neg (not_not.mpr h)]
  · rw [List.count_eq_zero.mpr h, if_pos h]

end Count

end Attribute

/-! ## The comparison -/

namespace Comparison

variable {other attrs : List Attribute} {a b : Attribute}

theorem comparePair_value (n : Nat) (a b : Attribute) :
    (comparePair n a b).value =
      if a.value.isPlaceholder = false ∧ b.value.isPlaceholder = false ∧ a.value ≠ b.value then
        ⟨a.name, .var (attrReference n)⟩
      else a := by
  obtain ⟨name, value⟩ := a
  obtain ⟨otherName, otherValue⟩ := b
  cases value with
  | literal v =>
      cases otherValue with
      | literal w =>
          by_cases h : v = w <;>
            simp [comparePair, AttributeValue.isPlaceholder, introduce, pure, h]
      | var reference | conditional reference =>
          simp [comparePair, AttributeValue.isPlaceholder, pure]
  | var reference | conditional reference =>
      simp [comparePair, AttributeValue.isPlaceholder, pure]

theorem name_comparePair (n : Nat) (a b : Attribute) : (comparePair n a b).value.name = a.name := by
  rw [comparePair_value]
  split_ifs <;> rfl

theorem warnings_comparePair (n : Nat) (a b : Attribute) :
    warnings (comparePair n a b).notes = [] := by
  obtain ⟨name, value⟩ := a
  obtain ⟨otherName, otherValue⟩ := b
  cases value with
  | literal v =>
      cases otherValue with
      | literal w =>
          simp only [comparePair]
          split_ifs <;> rfl
      | var reference | conditional reference => rfl
  | var reference | conditional reference => rfl

theorem names_sharedAttributes (other attrs : List Attribute) (n : Nat) :
    (sharedAttributes other n attrs).value.map Attribute.name = sharedNames attrs other := by
  induction attrs generalizing n with
  | nil => rfl
  | cons attr attrs ih =>
      rw [sharedAttributes, sharedNames, List.map_cons, List.filter_cons]
      cases hpartner : named? other attr.name with
      | none =>
          rw [if_neg (by simpa using notMem_names_of_named? hpartner)]
          exact ih (n + 1)
      | some partner =>
          rw [if_pos (by simpa using mem_names_of_named? hpartner), List.map_cons,
            name_comparePair, ih]
          rfl

theorem warnings_sharedAttributes (other attrs : List Attribute) (n : Nat) :
    warnings (sharedAttributes other n attrs).notes = [] := by
  induction attrs generalizing n with
  | nil => rfl
  | cons attr attrs ih =>
      rw [sharedAttributes]
      cases named? other attr.name with
      | none => exact ih (n + 1)
      | some partner => simp only [warnings_append, warnings_comparePair, ih, List.append_nil]

/-- The attribute at place `i` is compared under the number of this place, whatever becomes of the
attributes before it. -/
theorem named?_sharedAttributes
    {n i : Nat} (hattrs : (attrs.map Attribute.name).Nodup) (ha : attrs[i]? = some a)
    (hb : named? other a.name = some b) :
    named? (sharedAttributes other n attrs).value a.name =
      some (comparePair (n + i + 1) a b).value := by
  induction attrs generalizing n i with
  | nil => simp at ha
  | cons attr attrs ih =>
      rw [List.map_cons, List.nodup_cons] at hattrs
      rw [sharedAttributes]
      cases i with
      | zero =>
          obtain rfl : attr = a := by simpa using ha
          simp only [hb]
          simp [named?, name_comparePair]
      | succ i =>
          rw [List.getElem?_cons_succ] at ha
          have hne : attr.name ≠ a.name := fun h =>
            hattrs.1 (h ▸ List.mem_map_of_mem (List.mem_of_getElem? ha))
          have hrest := ih (n := n + 1) hattrs.2 ha
          rw [Nat.add_right_comm n 1 i] at hrest
          cases named? other attr.name with
          | none => exact hrest
          | some partner =>
              rw [named?, List.find?_cons_of_neg (by simpa [name_comparePair] using hne)]
              exact hrest

end Comparison

/-! ## The agreement -/

/-- Reconciling and comparing attributes keep the names that both lists have, in the order of the
first, and report all others, those of the first list before those of the second; every attribute of
either list is kept or reported, once.  A reconciled attribute is the first one if that is a
placeholder, otherwise the second.  A compared attribute is the first one, unless both are literals
with different values: then it is a variable with the number of the place of the first one. -/
theorem attributes_agree
    (element : String) (before : Nat) (first second : List Attribute)
    (hfirst : (first.map Attribute.name).Nodup) (hsecond : (second.map Attribute.name).Nodup) :
    let merged := reconcile element first second
    let compared := compareAttributes element before first second
    let names := sharedNames first second
    let lost := lostWarnings element first second
    (merged.value.map Attribute.name = names ∧ compared.value.map Attribute.name = names) ∧
      (merged.notes = lost ∧ warnings compared.notes = lost) ∧
      (∀ attr ∈ first, names.count attr.name + lost.count (dropped element .first attr) = 1) ∧
      (∀ attr ∈ second, names.count attr.name + lost.count (dropped element .second attr) = 1) ∧
      ∀ i a b, first[i]? = some a → b ∈ second → b.name = a.name →
        named? merged.value a.name = some (if a.value.isPlaceholder then a else b) ∧
          named? compared.value a.name =
            some (if a.value.isPlaceholder = false ∧ b.value.isPlaceholder = false ∧
                a.value ≠ b.value then
              ⟨a.name, .var (attrReference (before + i + 1))⟩
            else a) := by
  intro merged compared names lost
  have hcompared : compared = compareAttributes element before first second := rfl
  rw [compareAttributes_eq hfirst hsecond] at hcompared
  have hnotes : merged.notes = lost := notes_reconcile hfirst hsecond element
  refine ⟨⟨names_reconcile hfirst hsecond, ?_⟩, ⟨hnotes, ?_⟩, fun attr => count_first second hfirst,
    fun attr => count_second hfirst hsecond, ?_⟩
  · rw [hcompared]
    exact names_sharedAttributes second first before
  · rw [hcompared, warnings_append, warnings_sharedAttributes, warnings_map_warning]
    exact hnotes
  · intro i a b ha hb hname
    have hpartner : named? second a.name = some b := (named?_eq_some_iff hsecond).mpr ⟨hb, hname⟩
    constructor
    · rw [named?_reconcile hfirst hsecond (List.mem_of_getElem? ha), hpartner]
      rfl
    · rw [hcompared, named?_sharedAttributes hfirst ha hpartner, comparePair_value]

/-- The attributes of an image after three others: the second one differs, the third is dropped, and
the fourth, which differs as well, keeps its number all the same. -/
theorem attributes_agree_of_images :
    let first : List Attribute :=
      [.static "alt" "a", .static "src" "a.png", .static "width" "10", .static "id" "one"]
    let second : List Attribute :=
      [.static "height" "5", .static "id" "two", .static "src" "b.png", .static "alt" "a"]
    let lost : List Warning :=
      [.unresolvedAttribute "img" "width" .first, .unresolvedAttribute "img" "height" .second]
    (first.map Attribute.name).Nodup ∧ (second.map Attribute.name).Nodup ∧
      first[3]? = some (.static "id" "one") ∧
      (reconcile "img" first second).notes = lost ∧
      warnings (compareAttributes "img" 3 first second).notes = lost ∧
      named? (reconcile "img" first second).value "id" = some (.static "id" "two") ∧
      named? (compareAttributes "img" 3 first second).value "id" = some ⟨"id", .var "attr7"⟩ := by
  intro first second lost
  have hfirst : (first.map Attribute.name).Nodup := by decide
  have hsecond : (second.map Attribute.name).Nodup := by decide
  have hlast : first[3]? = some (.static "id" "one") := rfl
  obtain ⟨-, ⟨hmerged, hcompared⟩, -, -, hkept⟩ :=
    attributes_agree "img" 3 first second hfirst hsecond
  obtain ⟨hmergedId, hcomparedId⟩ :=
    hkept 3 (.static "id" "one") (.static "id" "two") hlast (by decide) rfl
  exact ⟨hfirst, hsecond, hlast, hmerged, hcompared, hmergedId, hcomparedId⟩

end Stencil
