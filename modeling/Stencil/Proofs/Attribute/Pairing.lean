import Mathlib.Data.List.Perm.Basic
import Stencil.Attribute.Pairing
import Stencil.Page.Projection
import Stencil.Proofs.Node.Concrete

/-!
# Pairing attributes with distinct names

With distinct names on both sides a pairing has a closed form (`pairing_eq`): every attribute of
the first list gets the attribute of its name in the second list, and the attributes of the second
list whose names the first lacks are left over.  So nothing is dropped exactly if both lists have
the same names (`warnings_pairing_eq_nil_iff`).
-/

namespace Stencil.Attribute

/-! ## Attributes by name -/

/-- The first attribute of a name. -/
def named? (attrs : List Attribute) (name : String) : Option Attribute :=
  attrs.find? (·.name = name)

variable {attrs first second : List Attribute} {attr : Attribute} {name value : String}

theorem name_of_named? (h : named? attrs name = some attr) : attr.name = name := by
  simpa using List.find?_some h

theorem mem_of_named? (h : named? attrs name = some attr) : attr ∈ attrs :=
  List.mem_of_find?_eq_some h

theorem named?_isSome_iff : (named? attrs name).isSome ↔ name ∈ attrs.map Attribute.name := by
  rw [named?, List.find?_isSome]
  simp

theorem mem_names_of_named? (h : named? attrs name = some attr) :
    name ∈ attrs.map Attribute.name := by
  rw [← named?_isSome_iff, h]
  rfl

theorem notMem_names_of_named? (h : named? attrs name = none) :
    name ∉ attrs.map Attribute.name := by
  rw [← named?_isSome_iff, h]
  exact Bool.false_ne_true

theorem named?_eq_some_iff
    (hdistinct : (attrs.map Attribute.name).Nodup) :
    named? attrs name = some attr ↔ attr ∈ attrs ∧ attr.name = name := by
  constructor
  · intro h
    exact ⟨mem_of_named? h, name_of_named? h⟩
  · rintro ⟨hattr, rfl⟩
    have hsome : (named? attrs attr.name).isSome :=
      named?_isSome_iff.mpr (List.mem_map_of_mem hattr)
    obtain ⟨found, hfound⟩ := Option.isSome_iff_exists.mp hsome
    rw [hfound, eq_of_name_eq hdistinct (mem_of_named? hfound) hattr (name_of_named? hfound)]

theorem named?_filter_of_ne
    {other : String} (hne : other ≠ name) :
    named? (attrs.filter fun attr => ¬attr.name = name) other = named? attrs other := by
  rw [named?, named?, List.find?_filter]
  congr 1
  funext attr
  by_cases h : attr.name = other
  · simp [h, hne]
  · simp [h]

/-- The last attribute of a name is the only one if names are distinct. -/
theorem getLast?_filter_name
    (hdistinct : (attrs.map Attribute.name).Nodup) :
    (attrs.filter fun attr => attr.name = name).getLast? = named? attrs name := by
  induction attrs with
  | nil => rfl
  | cons attr attrs ih =>
      rw [List.map_cons, List.nodup_cons] at hdistinct
      by_cases h : attr.name = name
      · have hnone : attrs.filter (fun other => other.name = name) = [] := by
          apply List.filter_eq_nil_iff.mpr
          intro other hother hname
          rw [decide_eq_true_eq, ← h] at hname
          exact hdistinct.1 (hname ▸ List.mem_map_of_mem hother)
        simp [named?, h, hnone]
      · simpa [named?, h] using ih hdistinct.2

/-! ## The closed form of a pairing -/

theorem pairing_eq
    (hfirst : (first.map Attribute.name).Nodup)
    (hsecond : (second.map Attribute.name).Nodup) :
    pairing first second =
      { partners := first.map fun attr => (attr, named? second attr.name)
        leftover := second.filter fun attr => attr.name ∉ first.map Attribute.name } := by
  induction first generalizing second with
  | nil => simp [pairing]
  | cons attr first ih =>
      rw [List.map_cons, List.nodup_cons] at hfirst
      have hothers : ((second.filter fun other => ¬other.name = attr.name).map
          Attribute.name).Nodup :=
        hsecond.sublist (List.filter_sublist.map _)
      have hpartners : first.map (fun other =>
            (other, named? (second.filter fun other => ¬other.name = attr.name) other.name)) =
          first.map fun other => (other, named? second other.name) := by
        apply List.map_congr_left
        intro other hother
        have hne : other.name ≠ attr.name := fun h =>
          hfirst.1 (h ▸ List.mem_map_of_mem hother)
        rw [named?_filter_of_ne hne]
      simp only [pairing, List.partition_eq_filter_filter, Function.comp_def, ← decide_not]
      rw [ih hfirst.2 hothers, getLast?_filter_name hsecond]
      simp only [hpartners, List.map_cons, List.filter_filter, Pairing.mk.injEq, true_and]
      apply List.filter_congr
      intro other _
      by_cases h : other.name = attr.name <;> simp [h]

/-- Lists with the same names in the same order are paired position by position. -/
theorem pairing_of_names_eq
    (hnames : first.map Attribute.name = second.map Attribute.name)
    (hdistinct : (first.map Attribute.name).Nodup) :
    pairing first second = ⟨first.zip (second.map some), []⟩ := by
  induction first generalizing second with
  | nil =>
      have : second = [] := by simpa using hnames.symm
      rw [this]
      rfl
  | cons attr first ih =>
      cases second with
      | nil => simp at hnames
      | cons partner second =>
          simp only [List.map_cons, List.cons.injEq] at hnames
          rw [List.map_cons, List.nodup_cons] at hdistinct
          have hothers : ∀ other ∈ second, ¬other.name = attr.name := by
            intro other hother hname
            apply hdistinct.1
            rw [hnames.2, ← hname]
            exact List.mem_map_of_mem hother
          have hnamed : second.filter (·.name = attr.name) = [] := by
            apply List.filter_eq_nil_iff.mpr
            simpa using hothers
          have hrest : second.filter (fun other => !decide (other.name = attr.name)) = second := by
            apply List.filter_eq_self.mpr
            simpa using hothers
          have hpartition :
              (partner :: second).partition (·.name = attr.name) = ([partner], second) := by
            rw [List.partition_eq_filter_filter]
            simp [← hnames.1, hnamed, hrest, Function.comp_def]
          rw [pairing, hpartition]
          simp [ih hnames.2 hdistinct.2]

/-! ## When nothing is dropped -/

theorem warnings_pairing_eq_nil_iff
    {element : String}
    (hfirst : (first.map Attribute.name).Nodup)
    (hsecond : (second.map Attribute.name).Nodup) :
    (pairing first second).warnings element = [] ↔
      (∀ attr ∈ first, (named? second attr.name).isSome) ∧
        ∀ attr ∈ second, attr.name ∈ first.map Attribute.name := by
  rw [pairing_eq hfirst hsecond, Pairing.warnings, List.append_eq_nil_iff, List.map_eq_nil_iff,
    List.map_eq_nil_iff, List.filter_eq_nil_iff, List.filter_eq_nil_iff]
  simp [Option.isSome_iff_ne_none]

/-- If nothing is dropped, both lists have the same names. -/
theorem mem_names_iff_of_kept
    {element : String} (name : String)
    (hfirst : (first.map Attribute.name).Nodup)
    (hsecond : (second.map Attribute.name).Nodup)
    (hkept : (pairing first second).warnings element = []) :
    name ∈ first.map Attribute.name ↔ name ∈ second.map Attribute.name := by
  obtain ⟨hfound, hnames⟩ := (warnings_pairing_eq_nil_iff hfirst hsecond).mp hkept
  constructor
  · intro hname
    obtain ⟨attr, hattr, rfl⟩ := List.mem_map.mp hname
    exact named?_isSome_iff.mp (hfound attr hattr)
  · intro hname
    obtain ⟨attr, hattr, rfl⟩ := List.mem_map.mp hname
    exact hnames attr hattr

/-- If nothing is dropped, the partners are the whole second list in another order. -/
theorem partners_perm
    {element : String}
    (hfirst : (first.map Attribute.name).Nodup)
    (hsecond : (second.map Attribute.name).Nodup)
    (hkept : (pairing first second).warnings element = []) :
    (first.filterMap fun attr => named? second attr.name).Perm second := by
  obtain ⟨-, hnames⟩ := (warnings_pairing_eq_nil_iff hfirst hsecond).mp hkept
  have hinj : ∀ a a' b, b ∈ named? second a → b ∈ named? second a' → a = a' := by
    intro a a' b ha ha'
    rw [← name_of_named? ha, ← name_of_named? ha']
  have hdistinct : (first.filterMap fun attr => named? second attr.name).Nodup := by
    have h := hfirst.filterMap hinj
    rwa [List.filterMap_map] at h
  apply (List.perm_ext_iff_of_nodup hdistinct (hsecond.of_map _)).mpr
  intro attr
  rw [List.mem_filterMap]
  constructor
  · rintro ⟨other, -, hpartner⟩
    exact mem_of_named? hpartner
  · intro hattr
    obtain ⟨other, hother, hname⟩ := List.mem_map.mp (hnames attr hattr)
    exact ⟨other, hother, (named?_eq_some_iff hsecond).mpr ⟨hattr, hname.symm⟩⟩

/-! ## Reconciled attributes -/

theorem reconcile_eq
    {element : String}
    (hfirst : (first.map Attribute.name).Nodup)
    (hsecond : (second.map Attribute.name).Nodup) :
    (reconcile element first second).value =
      first.filterMap fun attr => (named? second attr.name).map (reconcilePair attr) := by
  rw [reconcile, pairing_eq hfirst hsecond, List.filterMap_map]
  rfl

/-- A reconciled attribute is one of either list. -/
theorem mem_of_mem_reconcile
    {element : String}
    (hfirst : (first.map Attribute.name).Nodup)
    (hsecond : (second.map Attribute.name).Nodup)
    (hattr : attr ∈ (reconcile element first second).value) :
    attr ∈ first ∨ attr ∈ second := by
  rw [reconcile_eq hfirst hsecond] at hattr
  obtain ⟨a, ha, hpair⟩ := List.mem_filterMap.mp hattr
  obtain ⟨b, hb, rfl⟩ := Option.map_eq_some_iff.mp hpair
  rw [reconcilePair]
  split_ifs
  · exact Or.inl ha
  · exact Or.inr (mem_of_named? hb)

/-- The names that both lists have are kept, in the order of the first. -/
theorem names_reconcile
    {element : String}
    (hfirst : (first.map Attribute.name).Nodup)
    (hsecond : (second.map Attribute.name).Nodup) :
    (reconcile element first second).value.map Attribute.name =
      (first.map Attribute.name).filter fun name => name ∈ second.map Attribute.name := by
  rw [reconcile_eq hfirst hsecond]
  clear hfirst
  induction first with
  | nil => rfl
  | cons attr first ih =>
      rw [List.filterMap_cons, List.map_cons, List.filter_cons]
      cases hpartner : named? second attr.name with
      | none =>
          rw [if_neg (by simpa using notMem_names_of_named? hpartner)]
          exact ih
      | some partner =>
          have hname : (reconcilePair attr partner).name = attr.name := by
            rw [reconcilePair]
            split_ifs
            · rfl
            · exact name_of_named? hpartner
          rw [if_pos (by simpa using mem_names_of_named? hpartner), ← ih]
          exact congrArg (· :: _) hname

/-- If nothing is dropped, the reconciled names are those of either list. -/
theorem mem_names_reconcile_iff
    {element : String} (name : String)
    (hfirst : (first.map Attribute.name).Nodup)
    (hsecond : (second.map Attribute.name).Nodup)
    (hkept : (reconcile element first second).notes = []) :
    (name ∈ (reconcile element first second).value.map Attribute.name ↔
        name ∈ first.map Attribute.name) ∧
      (name ∈ (reconcile element first second).value.map Attribute.name ↔
        name ∈ second.map Attribute.name) := by
  have hnames := mem_names_iff_of_kept name hfirst hsecond hkept
  rw [names_reconcile hfirst hsecond, List.mem_filter, decide_eq_true_eq, hnames]
  simp only [and_self]

/-! ## Literal values by name -/

theorem literal?_eq_some_iff
    (hstatic : Static attrs) :
    literal? attrs name = some value ↔ static name value ∈ attrs := by
  rw [literal?, List.findSome?_eq_some_iff]
  constructor
  · rintro ⟨before, attr, after, rfl, hattr, -⟩
    obtain ⟨found, hfound⟩ :=
      hstatic.eq_static (List.mem_append_right _ List.mem_cons_self)
    rw [hfound] at hattr ⊢
    by_cases hname : attr.name = name
    · simp [static, hname, AttributeValue.literal?] at hattr
      simp [hname, hattr]
    · simp [static, hname] at hattr
  · intro hmem
    obtain ⟨before, after, rfl⟩ := List.append_of_mem hmem
    refine ⟨before, static name value, after, rfl, by simp [static, AttributeValue.literal?], ?_⟩
    intro other hother
    have hne : other.name ≠ name := by
      have hdistinct := hstatic.2
      rw [List.map_append, List.nodup_append] at hdistinct
      exact hdistinct.2.2 _ (List.mem_map_of_mem hother) name (by simp [static])
    simp [hne]

theorem lastLiteral?_eq_some_iff
    (hstatic : Static attrs) :
    lastLiteral? attrs name = some value ↔ static name value ∈ attrs := by
  have hreverse : Static attrs.reverse := by
    constructor
    · intro attr hattr
      exact hstatic.1 attr (List.mem_reverse.mp hattr)
    · rw [List.map_reverse]
      exact List.nodup_reverse.mpr hstatic.2
  rw [lastLiteral?, literal?_eq_some_iff hreverse, List.mem_reverse]

end Stencil.Attribute
