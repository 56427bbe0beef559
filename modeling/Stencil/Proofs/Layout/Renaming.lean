import Mathlib.Data.List.Perm.Subperm
import Stencil.Proofs.Document.Site
import Stencil.Proofs.Layout.Normal

/-!
# Layouts with new references

Normalization changes nothing but references, and a reference is either kept or gets a number
appended (`Node.renames_renameList`).  The name found for it is always unused: more numbers are
tried than there are references in use (`Namespace.fresh_notMem`).  So the references of a
normalized layout are distinct, whatever the layout was (`Layout.references_normalized_nodup`).
-/

namespace Stencil

/-! ## Unused names -/

namespace Namespace

theorem numbered_injective (reference : String) : Function.Injective (numbered reference) := by
  intro m n h
  have hchars := congrArg String.toList h
  simp only [numbered, String.toList_append, Comparison.toList_toString] at hchars
  exact Comparison.toDigits_injective (List.append_cancel_left hchars)

/-- The search gives up on a number only if the name with it is in use. -/
theorem numbered_mem_of_freshFrom_mem
    {used : Namespace} {reference : String} {n tries : Nat}
    (h : freshFrom used reference n tries ∈ used) :
    ∀ k ≤ tries, numbered reference (n + k) ∈ used := by
  induction tries generalizing n with
  | zero =>
      intro k hk
      obtain rfl : k = 0 := Nat.le_zero.mp hk
      exact h
  | succ tries ih =>
      rw [freshFrom] at h
      split_ifs at h with htaken
      · intro k hk
        cases k with
        | zero => exact List.contains_iff_mem.mp htaken
        | succ k =>
            have hlater := ih h k (by omega)
            rwa [Nat.add_assoc, Nat.add_comm 1 k] at hlater
      · exact absurd (List.contains_iff_mem.mpr h) htaken

/-- The name that the search ends on is unused. -/
theorem freshFrom_notMem (used : Namespace) (reference : String) (n : Nat) :
    freshFrom used reference n used.length ∉ used := by
  intro hmem
  -- If the search failed, one name more than there are in use would be in use.
  let names := (List.range (used.length + 1)).map fun k => numbered reference (n + k)
  have hdistinct : names.Nodup := by
    apply List.nodup_range.map
    intro j k h
    exact Nat.add_left_cancel (numbered_injective reference h)
  have hused : names ⊆ used := by
    intro name hname
    obtain ⟨k, hk, rfl⟩ := List.mem_map.mp hname
    exact numbered_mem_of_freshFrom_mem hmem k (Nat.lt_succ_iff.mp (List.mem_range.mp hk))
  have hlength := (List.subperm_of_subset hdistinct hused).length_le
  simp only [names, List.length_map, List.length_range] at hlength
  omega

/-- The name found for a reference is unused. -/
theorem fresh_notMem (used : Namespace) (reference : String) : used.fresh reference ∉ used := by
  rw [fresh]
  split_ifs with htaken
  · exact freshFrom_notMem used reference 2
  · exact fun hmem => htaken (List.contains_iff_mem.mpr hmem)

/-- The name is the reference itself, or the reference with a number from two on. -/
def Renamed (reference name : String) : Prop :=
  name = reference ∨ ∃ n, 2 ≤ n ∧ name = numbered reference n

theorem exists_freshFrom_eq (used : Namespace) (reference : String) (n tries : Nat) :
    ∃ k, n ≤ k ∧ freshFrom used reference n tries = numbered reference k := by
  induction tries generalizing n with
  | zero => exact ⟨n, Nat.le_refl n, rfl⟩
  | succ tries ih =>
      rw [freshFrom]
      split_ifs
      · obtain ⟨k, hk, heq⟩ := ih (n + 1)
        exact ⟨k, by omega, heq⟩
      · exact ⟨n, Nat.le_refl n, rfl⟩

theorem renamed_fresh (used : Namespace) (reference : String) :
    Renamed reference (used.fresh reference) := by
  rw [fresh]
  split_ifs
  · exact Or.inr (exists_freshFrom_eq used reference 2 used.length)
  · exact Or.inl rfl

/-- The references are distinct, were not in use before, and are in use afterwards. -/
structure Reserves (used : Namespace) (references : List String) (later : Namespace) : Prop where
  unused : used.Unused references
  later_eq : later = references.reverse ++ used

theorem Reserves.nil (used : Namespace) : used.Reserves [] used :=
  ⟨⟨List.nodup_nil, by simp⟩, rfl⟩

theorem Reserves.reserve (used : Namespace) (reference : String) :
    used.Reserves [(used.reserve reference).1] (used.reserve reference).2 :=
  ⟨⟨List.nodup_singleton _, by simpa [Namespace.reserve] using fresh_notMem used reference⟩, rfl⟩

theorem Reserves.append
    {used middle later : Namespace} {references more : List String}
    (h : used.Reserves references middle) (hmore : middle.Reserves more later) :
    used.Reserves (references ++ more) later := by
  obtain ⟨hunused, rfl⟩ := h
  obtain ⟨hmoreUnused, rfl⟩ := hmore
  refine ⟨unused_append.mpr ⟨hunused, hmoreUnused⟩, ?_⟩
  rw [List.reverse_append, List.append_assoc]

end Namespace

/-! ## Attributes -/

/-- The values are equal up to a renamed reference. -/
inductive AttributeValue.Renamed : AttributeValue → AttributeValue → Prop
  | literal (value : String) : Renamed (.literal value) (.literal value)
  | var {reference name : String} (h : Namespace.Renamed reference name) :
      Renamed (.var reference) (.var name)
  | conditional {reference name : String} (h : Namespace.Renamed reference name) :
      Renamed (.conditional reference) (.conditional name)

namespace Attribute

/-- The attributes have the same names, and values equal up to renamed references. -/
abbrev Renames (attrs renamed : List Attribute) : Prop :=
  List.Forall₂ (fun a b => a.name = b.name ∧ a.value.Renamed b.value) attrs renamed

theorem renames_rename (used : Namespace) (attrs : List Attribute) :
    Renames attrs (rename used attrs).1 := by
  induction attrs generalizing used with
  | nil => exact .nil
  | cons attr attrs ih =>
      obtain ⟨name, value⟩ := attr
      cases value with
      | literal value => exact .cons ⟨rfl, .literal value⟩ (ih _)
      | var reference => exact .cons ⟨rfl, .var (Namespace.renamed_fresh used reference)⟩ (ih _)
      | conditional reference =>
          exact .cons ⟨rfl, .conditional (Namespace.renamed_fresh used reference)⟩ (ih _)

theorem reserves_rename (used : Namespace) (attrs : List Attribute) :
    used.Reserves (references (rename used attrs).1) (rename used attrs).2 := by
  induction attrs generalizing used with
  | nil => exact .nil used
  | cons attr attrs ih =>
      obtain ⟨name, value⟩ := attr
      cases value with
      | literal value => exact ih used
      | var reference | conditional reference =>
          exact (Namespace.Reserves.reserve used reference).append (ih _)

theorem Renames.names_eq {attrs renamed : List Attribute} (h : Renames attrs renamed) :
    renamed.map Attribute.name = attrs.map Attribute.name := by
  induction h with
  | nil => rfl
  | cons hattr _ ih => rw [List.map_cons, List.map_cons, hattr.1, ih]

end Attribute

/-! ## Trees -/

namespace Node

/-- The trees are equal up to renamed references. -/
inductive Renames : List Node → List Node → Prop
  | nil : Renames [] []
  | same (node : Node) {nodes renamed : List Node} (hrest : Renames nodes renamed) :
      Renames (node :: nodes) (node :: renamed)
  | element (name : String) {attrs attrs' : List Attribute}
      {children children' nodes renamed : List Node}
      (hattrs : Attribute.Renames attrs attrs') (hchildren : Renames children children')
      (hrest : Renames nodes renamed) :
      Renames (.element name attrs children :: nodes) (.element name attrs' children' :: renamed)
  | var {reference name : String} {nodes renamed : List Node}
      (h : Namespace.Renamed reference name) (hrest : Renames nodes renamed) :
      Renames (.var reference :: nodes) (.var name :: renamed)
  | markdown {reference name : String} {nodes renamed : List Node}
      (h : Namespace.Renamed reference name) (hrest : Renames nodes renamed) :
      Renames (.markdown reference :: nodes) (.markdown name :: renamed)
  | conditional {reference name : String} {child child' : Node} {nodes renamed : List Node}
      (h : Namespace.Renamed reference name) (hchild : Renames [child] [child'])
      (hrest : Renames nodes renamed) :
      Renames (.conditional reference child :: nodes) (.conditional name child' :: renamed)
  | loop {reference name : String} {template template' : Node} {nodes renamed : List Node}
      (h : Namespace.Renamed reference name) (htemplate : Renames [template] [template'])
      (hrest : Renames nodes renamed) :
      Renames (.loop reference template :: nodes) (.loop name template' :: renamed)

theorem renames_renameList (used : Namespace) (nodes : List Node) :
    Renames nodes (renameList used nodes).1 := by
  induction nodes using Node.inductionOn generalizing used with
  | nil => exact .nil
  | doctype value nodes ih | text value nodes ih | comment value nodes ih | content nodes ih =>
      exact .same _ (ih _)
  | element name attrs children nodes ihChildren ih =>
      exact .element name (Attribute.renames_rename used attrs) (ihChildren _) (ih _)
  | var reference nodes ih => exact .var (Namespace.renamed_fresh used reference) (ih _)
  | markdown reference nodes ih => exact .markdown (Namespace.renamed_fresh used reference) (ih _)
  | conditional reference child nodes ihChild ih =>
      exact .conditional (Namespace.renamed_fresh used reference) (ihChild _) (ih _)
  | loop reference template nodes ihTemplate ih =>
      exact .loop (Namespace.renamed_fresh used reference) (ihTemplate _) (ih _)

theorem reserves_renameList (used : Namespace) (nodes : List Node) :
    used.Reserves (referencesList (renameList used nodes).1) (renameList used nodes).2 := by
  induction nodes using Node.inductionOn generalizing used with
  | nil => exact .nil used
  | doctype value nodes ih | text value nodes ih | comment value nodes ih | content nodes ih =>
      exact ih used
  | element name attrs children nodes ihChildren ih =>
      exact ((Attribute.reserves_rename used attrs).append (ihChildren _)).append (ih _)
  | var reference nodes ih | markdown reference nodes ih | loop reference _ nodes _ ih =>
      exact (Namespace.Reserves.reserve used reference).append (ih _)
  | conditional reference child nodes ihChild ih =>
      have hchild := ihChild (used.reserve reference).2
      simp only [renameList, referencesList, List.append_nil] at hchild
      exact ((Namespace.Reserves.reserve used reference).append hchild).append (ih _)

theorem Renames.kind_eq {node node' : Node} {nodes renamed : List Node}
    (h : Renames (node :: nodes) (node' :: renamed)) :
    node'.kind = node.kind := by
  cases h <;> rfl

end Node

namespace Layout

theorem renames_normalized (layout : Layout) : Node.Renames layout.tree layout.normalized.tree :=
  Node.renames_renameList [] layout.tree

/-- The references of a normalized layout are distinct. -/
theorem references_normalized_nodup (layout : Layout) : layout.normalized.references.Nodup :=
  (Node.reserves_renameList [] layout.tree).unused.1

end Layout

end Stencil
