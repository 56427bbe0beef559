import Stencil.Proofs.Document.Rendering

/-!
# What a comparison records

Both pages of a comparison record a value for every reference of the common tree and for nothing
else, and the two values differ: where the documents agree there is no placeholder
(`references_difference`).
-/

namespace Stencil

namespace Comparison

/-! ## The documents differ at every placeholder -/

/-- The two values of every placeholder differ. -/
def Distinguishes (notes : List Note) : Prop :=
  ∀ reference a b, .placeholder reference a b ∈ notes → a ≠ b

theorem distinguishes_placeholder
    {reference : String} {a b : Value} {notes : List Note} (hne : a ≠ b)
    (h : Distinguishes notes) :
    Distinguishes (.placeholder reference a b :: notes) := by
  intro other c d hnote
  rcases List.mem_cons.mp hnote with heq | hlater
  · obtain ⟨-, rfl, rfl⟩ := Note.placeholder.inj heq
    exact hne
  · exact h other c d hlater

theorem distinguishes_append
    {notes more : List Note} (h : Distinguishes notes) (hmore : Distinguishes more) :
    Distinguishes (notes ++ more) := by
  intro reference a b hnote
  rcases List.mem_append.mp hnote with hnote | hnote
  · exact h reference a b hnote
  · exact hmore reference a b hnote

theorem distinguishes_warnings (warnings : List Warning) :
    Distinguishes (warnings.map .warning) := by
  intro reference a b hnote
  simp at hnote

theorem Shares.distinguishes
    {n : Nat} {other attrs shared : List Attribute} {notes : List Note}
    (h : Shares other n attrs shared notes) :
    Distinguishes notes := by
  induction h with
  | nil => exact fun _ _ _ hnote => absurd hnote List.not_mem_nil
  | drop _ _ ih | keep _ _ ih => exact ih
  | var _ hne _ ih => exact distinguishes_placeholder (fun h => hne (Value.text.inj h)) ih

/-- A placeholder is only introduced for two values that differ. -/
theorem Converges.distinguishes
    {position : Position} {anchor other nodes : List Node} {notes : List Note}
    (h : Converges position anchor other nodes notes) :
    Distinguishes notes := by
  induction h with
  | nil => exact fun _ _ _ hnote => absurd hnote List.not_mem_nil
  | keep _ _ ih => exact ih
  | var hne _ ih => exact distinguishes_placeholder (fun h => hne (Value.text.inj h)) ih
  | element _ _ hshared _ _ ihInside ih =>
      refine distinguishes_append (distinguishes_append ?_ ihInside) ih
      exact distinguishes_append hshared.distinguishes (distinguishes_warnings _)
  | lone _ _ _ ih | extra _ _ _ ih => exact distinguishes_placeholder (by simp) ih

/-! ## Notes by reference -/

theorem exists_of_mem_noteReferences
    {notes : List Note} {reference : String} (h : reference ∈ noteReferences notes) :
    ∃ a b, .placeholder reference a b ∈ notes := by
  obtain ⟨note, hnote, hreference⟩ := List.mem_filterMap.mp h
  cases note with
  | placeholder other a b =>
      obtain rfl : other = reference := Option.some.inj hreference
      exact ⟨a, b, hnote⟩
  | warning found => simp [Note.reference?] at hreference

theorem mem_noteEntries
    {notes : List Note} {reference : String} {a b : Value} (side : Side)
    (h : .placeholder reference a b ∈ notes) :
    (reference, side.pick a b) ∈ noteEntries side notes := by
  have hfinding : .entry reference (side.pick a b) ∈ findings side notes :=
    List.mem_filterMap.mpr ⟨_, h, rfl⟩
  exact List.mem_filterMap.mpr ⟨_, hfinding, rfl⟩

end Comparison

/-! ## The two records -/

section Difference

variable {anchor other : Document}

/-- The keys of either page are the references of the common tree. -/
theorem references_data_difference
    (hanchor : Node.Concrete anchor.tree) (hother : Node.Concrete other.tree) (side : Side) :
    ((anchor.difference other).page side).data.references.Perm
      (anchor.difference other).base.references := by
  have hdistinct := Comparison.references_compareTrees_nodup hanchor hother
  have hconverges := Comparison.converges_compareTrees hanchor hother
  have hkeys := Comparison.references_noteEntries side
    (Comparison.compareTrees anchor.tree other.tree).notes
  rw [hconverges.referencesList_eq, ← hkeys] at hdistinct
  rw [data_difference]
  have hperm := Record.references_ofEntries_perm hdistinct
  rw [hkeys, ← hconverges.referencesList_eq] at hperm
  exact hperm

/-- The two pages have different values under every reference. -/
theorem values_difference
    (hanchor : Node.Concrete anchor.tree) (hother : Node.Concrete other.tree) {reference : String}
    (hreference : reference ∈ (anchor.difference other).base.references) :
    ∃ a b, (anchor.difference other).anchor.data.get? reference = some a ∧
      (anchor.difference other).other.data.get? reference = some b ∧ a ≠ b := by
  have hconverges := Comparison.converges_compareTrees hanchor hother
  have hnoted : reference ∈ Comparison.noteReferences
      (Comparison.compareTrees anchor.tree other.tree).notes := by
    rw [← hconverges.referencesList_eq]
    exact hreference
  obtain ⟨a, b, hnote⟩ := Comparison.exists_of_mem_noteReferences hnoted
  have hstored : ∀ side : Side, ((anchor.difference other).page side).data.get? reference =
      some (side.pick a b) := fun side =>
    holds_difference hanchor hother side _ (Comparison.mem_noteEntries side hnote)
  exact ⟨a, b, hstored .first, hstored .second, hconverges.distinguishes reference a b hnote⟩

end Difference

/-- The references of a comparison are distinct, so that its layout is its base; either page stores
exactly one value under each of them; and the two values are never the same. -/
theorem references_difference
    {anchor other : Document}
    (hanchor : Node.Concrete anchor.tree) (hother : Node.Concrete other.tree) :
    let compared := anchor.difference other
    compared.base.references.Nodup ∧ compared.layout = compared.base ∧
      (∀ page ∈ [compared.anchor, compared.other],
        page.data.references.Perm compared.base.references) ∧
      ∀ reference ∈ compared.base.references, ∃ a b,
        compared.anchor.data.get? reference = some a ∧
          compared.other.data.get? reference = some b ∧ a ≠ b := by
  intro compared
  refine ⟨(difference_distinctReferences hanchor hother).page,
    difference_layout_eq_base hanchor hother, ?_, ?_⟩
  · intro page hpage
    rcases List.mem_pair.mp hpage with rfl | rfl
    · exact references_data_difference hanchor hother .first
    · exact references_data_difference hanchor hother .second
  · intro reference hreference
    exact values_difference hanchor hother hreference

/-- A text and an attribute that differ, an insertion after equal items, and an item that is
gone. -/
theorem references_difference_of_menus :
    let item (text : String) : Node := .element "li" [] [.text text]
    let anchor : Document :=
      { pathname := "a.html"
        tree := [.element "ul" [.static "class" "x", .static "id" "menu"] [item "1", item "2"],
          .text "same", .element "hr" [] []] }
    let other : Document :=
      { pathname := "b.html"
        tree := [.element "ul" [.static "id" "list", .static "class" "x"]
          [item "1", item "3", item "4"], .text "same"] }
    let compared := anchor.difference other
    Node.Concrete anchor.tree ∧ Node.Concrete other.tree ∧
      compared.base.references.Nodup ∧ compared.layout = compared.base ∧
      (∀ page ∈ [compared.anchor, compared.other],
        page.data.references.Perm compared.base.references) ∧
      ∀ reference ∈ compared.base.references, ∃ a b,
        compared.anchor.data.get? reference = some a ∧
          compared.other.data.get? reference = some b ∧ a ≠ b := by
  intro item anchor other
  have hanchor : Node.Concrete anchor.tree := by decide
  have hother : Node.Concrete other.tree := by decide
  exact ⟨hanchor, hother, references_difference hanchor hother⟩

end Stencil
