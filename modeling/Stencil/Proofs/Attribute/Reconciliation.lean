import Stencil.Proofs.Attribute.Pairing

/-!
# Reconciling attributes again

Reconciled attributes have taken in both lists: either list taken in once more changes nothing, and
warns only about the attributes of that list that were lost before (`reconcile_right`,
`reconcile_left`).  Names have to be distinct, since a name stands for one attribute of each list.
-/

namespace Stencil

/-- The warning is about an attribute that only the element of this side has. -/
def Warning.isAbout (side : Side) : Warning → Bool
  | .unresolvedAttribute _ _ found => found == side
  | .unmatchedNode .. => false

namespace Attribute

variable {element : String} {first second attrs : List Attribute} {attr a b : Attribute}

theorem name_reconcilePair (h : b.name = a.name) : (reconcilePair a b).name = a.name := by
  rw [reconcilePair]
  split_ifs
  · rfl
  · exact h

theorem reconcilePair_self (a : Attribute) : reconcilePair a a = a :=
  ite_self a

/-- A reconciled attribute stays the same if its second part is taken in once more. -/
theorem reconcilePair_right (a b : Attribute) :
    reconcilePair (reconcilePair a b) b = reconcilePair a b := by
  by_cases h : a.value.isPlaceholder = true
  · rw [reconcilePair, reconcilePair, if_pos h, if_pos h]
  · have hsecond : reconcilePair a b = b := if_neg h
    rw [hsecond, reconcilePair_self]

/-- A reconciled attribute stays the same if its first part takes it in once more. -/
theorem reconcilePair_left (a b : Attribute) :
    reconcilePair a (reconcilePair a b) = reconcilePair a b := by
  by_cases h : a.value.isPlaceholder = true
  · rw [reconcilePair, if_pos h, reconcilePair, if_pos h]
  · rw [reconcilePair, if_neg h]

section Reconciled

variable (hfirst : (first.map Attribute.name).Nodup) (hsecond : (second.map Attribute.name).Nodup)

include hfirst hsecond

theorem nodup_names_reconcile (element : String) :
    ((reconcile element first second).value.map Attribute.name).Nodup := by
  rw [names_reconcile hfirst hsecond]
  exact hfirst.filter _

theorem mem_names_reconcile (element name : String) :
    name ∈ (reconcile element first second).value.map Attribute.name ↔
      name ∈ first.map Attribute.name ∧ name ∈ second.map Attribute.name := by
  rw [names_reconcile hfirst hsecond, List.mem_filter, decide_eq_true_eq]

/-- A reconciled attribute is made from the attributes of its name. -/
theorem mem_reconcile_iff :
    attr ∈ (reconcile element first second).value ↔
      ∃ a ∈ first, ∃ b, named? second a.name = some b ∧ reconcilePair a b = attr := by
  rw [reconcile_eq hfirst hsecond, List.mem_filterMap]
  simp only [Option.map_eq_some_iff]

theorem named?_reconcile (hattr : a ∈ first) :
    named? (reconcile element first second).value a.name =
      (named? second a.name).map (reconcilePair a) := by
  cases hpartner : named? second a.name with
  | some b =>
      have hname := name_of_named? hpartner
      refine (named?_eq_some_iff (nodup_names_reconcile hfirst hsecond element)).mpr ⟨?_, ?_⟩
      · exact (mem_reconcile_iff hfirst hsecond).mpr ⟨a, hattr, b, hpartner, rfl⟩
      · exact name_reconcilePair hname
  | none =>
      rw [Option.map_none, ← Option.not_isSome_iff_eq_none, named?_isSome_iff,
        mem_names_reconcile hfirst hsecond, ← @named?_isSome_iff second, hpartner]
      simp

/-- The warnings are about the attributes whose names the other list lacks. -/
theorem notes_reconcile (element : String) :
    (reconcile element first second).notes =
      (first.filter fun attr => attr.name ∉ second.map Attribute.name).map
          (dropped element .first) ++
        (second.filter fun attr => attr.name ∉ first.map Attribute.name).map
          (dropped element .second) := by
  have hlacking : ∀ attr : Attribute, (named? second attr.name).isNone =
      decide (attr.name ∉ second.map Attribute.name) := by
    intro attr
    rw [Bool.eq_iff_iff, decide_eq_true_eq, ← named?_isSome_iff, Option.isNone_iff_eq_none,
      Option.not_isSome_iff_eq_none]
  rw [reconcile, pairing_eq hfirst hsecond, Pairing.warnings]
  simp only [List.filter_map, List.map_map, Function.comp_def, hlacking]

end Reconciled

theorem filter_lacking_eq_nil
    {names : List String} (h : ∀ attr ∈ attrs, attr.name ∈ names) :
    attrs.filter (fun attr => attr.name ∉ names) = [] := by
  apply List.filter_eq_nil_iff.mpr
  intro attr hattr
  simpa using h attr hattr

theorem filter_dropped_self (side : Side) :
    (attrs.map (dropped element side)).filter (·.isAbout side) =
      attrs.map (dropped element side) := by
  apply List.filter_eq_self.mpr
  intro warning hwarning
  obtain ⟨attr, -, rfl⟩ := List.mem_map.mp hwarning
  simp [dropped, Warning.isAbout]

theorem filter_dropped_of_ne {side other : Side} (h : other ≠ side) :
    (attrs.map (dropped element other)).filter (·.isAbout side) = [] := by
  apply List.filter_eq_nil_iff.mpr
  intro warning hwarning
  obtain ⟨attr, -, rfl⟩ := List.mem_map.mp hwarning
  simpa [dropped, Warning.isAbout] using h

/-- The warnings about one side are those about the attributes whose names the other side lacks. -/
theorem filter_notes_reconcile
    (hfirst : (first.map Attribute.name).Nodup) (hsecond : (second.map Attribute.name).Nodup) :
    (reconcile element first second).notes.filter (·.isAbout .first) =
        (first.filter fun attr => attr.name ∉ second.map Attribute.name).map
          (dropped element .first) ∧
      (reconcile element first second).notes.filter (·.isAbout .second) =
        (second.filter fun attr => attr.name ∉ first.map Attribute.name).map
          (dropped element .second) := by
  rw [notes_reconcile hfirst hsecond, List.filter_append, List.filter_append, filter_dropped_self,
    filter_dropped_self, filter_dropped_of_ne (by simp), filter_dropped_of_ne (by simp),
    List.append_nil, List.nil_append]
  exact ⟨rfl, rfl⟩

/-- Reconciled attributes take in the second list once more. -/
theorem reconcile_right
    (hfirst : (first.map Attribute.name).Nodup) (hsecond : (second.map Attribute.name).Nodup) :
    reconcile element (reconcile element first second).value second =
      { value := (reconcile element first second).value
        notes := (reconcile element first second).notes.filter (·.isAbout .second) } := by
  have hnames := mem_names_reconcile hfirst hsecond element
  have hmerged := nodup_names_reconcile hfirst hsecond element
  have hvalue : (reconcile element (reconcile element first second).value second).value =
      (reconcile element first second).value := by
    rw [reconcile_eq hmerged hsecond]
    refine Eq.trans (List.filterMap_congr ?_) List.filterMap_some
    intro attr hattr
    obtain ⟨a, -, b, hpartner, rfl⟩ := (mem_reconcile_iff hfirst hsecond).mp hattr
    rw [name_reconcilePair (name_of_named? hpartner), hpartner, Option.map_some,
      reconcilePair_right]
  have hnone : (reconcile element first second).value.filter
      (fun attr => attr.name ∉ second.map Attribute.name) = [] :=
    filter_lacking_eq_nil fun attr hattr => ((hnames attr.name).mp (List.mem_map_of_mem hattr)).2
  have hlost : second.filter (fun attr =>
        attr.name ∉ (reconcile element first second).value.map Attribute.name) =
      second.filter fun attr => attr.name ∉ first.map Attribute.name := by
    apply List.filter_congr
    intro attr hattr
    simp only [hnames, List.mem_map_of_mem hattr, and_true]
  have hnotes := notes_reconcile hmerged hsecond element
  rw [hnone, hlost, List.map_nil, List.nil_append,
    ← (filter_notes_reconcile hfirst hsecond).2] at hnotes
  exact Noted.ext hvalue hnotes

/-- Reconciled attributes are taken in once more by the first list. -/
theorem reconcile_left
    (hfirst : (first.map Attribute.name).Nodup) (hsecond : (second.map Attribute.name).Nodup) :
    reconcile element first (reconcile element first second).value =
      { value := (reconcile element first second).value
        notes := (reconcile element first second).notes.filter (·.isAbout .first) } := by
  have hnames := mem_names_reconcile hfirst hsecond element
  have hmerged := nodup_names_reconcile hfirst hsecond element
  have hvalue : (reconcile element first (reconcile element first second).value).value =
      (reconcile element first second).value := by
    refine (reconcile_eq hfirst hmerged).trans (Eq.trans ?_ (reconcile_eq hfirst hsecond).symm)
    apply List.filterMap_congr
    intro attr hattr
    rw [named?_reconcile hfirst hsecond hattr, Option.map_map]
    exact Option.map_congr fun b _ => reconcilePair_left attr b
  have hnone : (reconcile element first second).value.filter
      (fun attr => attr.name ∉ first.map Attribute.name) = [] :=
    filter_lacking_eq_nil fun attr hattr => ((hnames attr.name).mp (List.mem_map_of_mem hattr)).1
  have hlost : first.filter (fun attr =>
        attr.name ∉ (reconcile element first second).value.map Attribute.name) =
      first.filter fun attr => attr.name ∉ second.map Attribute.name := by
    apply List.filter_congr
    intro attr hattr
    simp only [hnames, List.mem_map_of_mem hattr, true_and]
  have hnotes := notes_reconcile hfirst hmerged element
  rw [hnone, hlost, List.map_nil, List.append_nil,
    ← (filter_notes_reconcile hfirst hsecond).1] at hnotes
  exact Noted.ext hvalue hnotes

/-- Attributes are reconciled with themselves without a loss. -/
theorem reconcile_self (hattrs : (attrs.map Attribute.name).Nodup) :
    reconcile element attrs attrs = ⟨attrs, []⟩ := by
  have hvalue : (reconcile element attrs attrs).value = attrs := by
    rw [reconcile_eq hattrs hattrs]
    refine Eq.trans (List.filterMap_congr ?_) List.filterMap_some
    intro attr hattr
    rw [(named?_eq_some_iff hattrs).mpr ⟨hattr, rfl⟩, Option.map_some, reconcilePair_self]
  have hnone : attrs.filter (fun attr => attr.name ∉ attrs.map Attribute.name) = [] :=
    filter_lacking_eq_nil fun _ hattr => List.mem_map_of_mem hattr
  have hnotes := notes_reconcile hattrs hattrs element
  rw [hnone, List.map_nil, List.nil_append] at hnotes
  exact Noted.ext hvalue hnotes

end Attribute

end Stencil
