import Stencil.Proofs.Layout.Absorption

/-!
# The slot of a merged node

Sharing a slot is a matter of cores: it is reflexive and symmetric, and guards around either node
change nothing (`equivalent_guarded`).  It is not transitive, since two different texts share a slot
with a variable but not with each other.

Two nodes of one slot are merged into a node of the same slot.  It has guards if one of the two has
any (`mergedGuards_eq_nil_iff`), and below them it is a variable if one of the two is
(`exists_merge_eq`).
-/

namespace Stencil.Node

/-! ## Guards and slots -/

theorem equivalent_guarded (outer inner : List String) (a b : Node) :
    equivalent (guarded outer a) (guarded inner b) = equivalent a b := by
  rw [equivalent, core_guarded, core_guarded, equivalent]

theorem guards_eq_nil_iff (node : Node) : node.guards = [] ↔ node.kind ≠ .conditional := by
  constructor
  · rintro h hkind
    cases node <;> simp [kind] at hkind
    exact List.cons_ne_nil _ _ h
  · exact guards_eq_nil

section Merge

variable {a b : Node}

theorem mergedGuards_eq_nil_iff (a b : Node) :
    mergedGuards a b = [] ↔ a.guards = [] ∧ b.guards = [] := by
  rw [mergedGuards, List.append_eq_nil_iff]
  refine and_congr_right fun h => ?_
  rw [h]
  rfl

/-- The merge of two nodes without children is a variable if one of them is. -/
theorem kind_absorb_eq_var_iff (a b : Node) :
    (absorb a b).kind = .var ↔ a.kind = .var ∨ b.kind = .var := by
  rw [absorb]
  split_ifs with ha hb <;> simp [*]

/-- What two nodes of one slot are merged into, guards put aside: a node that shares the slot with
both and is a variable exactly if one of them is. -/
theorem exists_merge_eq (hshare : equivalent a b = true) :
    ∃ node : Node, (a.merge b).value = guarded (mergedGuards a b) node ∧
      node.kind ≠ .conditional ∧ sameSlot node a.core = true ∧ sameSlot node b.core = true ∧
      (node.kind = .var ↔ a.core.kind = .var ∨ b.core.kind = .var) := by
  by_cases hleaf : a.core.kind ≠ .element
  · refine ⟨absorb a.core b.core, ?_, kind_absorb_core a b, ?_, sameSlot_absorb_right hshare,
      kind_absorb_eq_var_iff _ _⟩
    · rw [merge_leaves hleaf]
    · rw [sameSlot_comm]
      exact sameSlot_absorb_left hshare
  · obtain ⟨name, attrs, children, ha⟩ := exists_eq_element (not_not.mp hleaf)
    obtain ⟨otherAttrs, otherChildren, hb⟩ := core_eq_element_of_equivalent hshare ha
    refine ⟨_, congrArg Noted.value (merge_elements ha hb), ?_⟩
    rw [ha, hb]
    simp [kind, sameSlot]

end Merge

/-- Sharing a slot is reflexive and symmetric, and guards do not matter for it.  Two nodes of one
slot are merged into a node of that slot, which is guarded exactly if one of the two is, and is a
variable under its guards exactly if one of the two is. -/
theorem merge_keeps_slot :
    (∀ node, equivalent node node = true) ∧
      (∀ a b, equivalent a b = equivalent b a) ∧
      (∀ outer inner a b, equivalent (guarded outer a) (guarded inner b) = equivalent a b) ∧
      ∀ a b, equivalent a b = true →
        equivalent (a.merge b).value a = true ∧ equivalent (a.merge b).value b = true ∧
          ((a.merge b).value.kind = .conditional ↔
            a.kind = .conditional ∨ b.kind = .conditional) ∧
          ((a.merge b).value.core.kind = .var ↔ a.core.kind = .var ∨ b.core.kind = .var) := by
  refine ⟨equivalent_refl, equivalent_comm, equivalent_guarded, ?_⟩
  intro a b hshare
  obtain ⟨node, hmerge, hkind, hfirst, hsecond, hvar⟩ := exists_merge_eq hshare
  obtain ⟨hguards, hcore⟩ := guarded_parts (mergedGuards a b) hkind
  rw [← hmerge] at hguards hcore
  have hguarded : (a.merge b).value.kind ≠ .conditional ↔
      a.kind ≠ .conditional ∧ b.kind ≠ .conditional := by
    rw [← guards_eq_nil_iff, hguards, mergedGuards_eq_nil_iff, guards_eq_nil_iff,
      guards_eq_nil_iff]
  refine ⟨?_, ?_, ?_, ?_⟩
  · rwa [equivalent, hcore]
  · rwa [equivalent, hcore]
  · rw [← not_iff_not, not_or]
    exact hguarded
  · rwa [hcore]

/-- A text with two guards and a variable with three become the variable with the first two guards
and the third of the other node. -/
theorem merge_keeps_slot_of_guarded_text :
    let a : Node := .conditional "show1" (.conditional "show2" (.text "one"))
    let b : Node :=
      .conditional "extra0_0_1" (.conditional "show3" (.conditional "show4" (.var "var1")))
    let merged : Node :=
      .conditional "show1" (.conditional "show2" (.conditional "show4" (.var "var1")))
    equivalent a b = true ∧ (a.merge b).value = merged ∧ equivalent merged a = true ∧
      equivalent merged b = true ∧ merged.kind = .conditional ∧ merged.core.kind = .var := by
  intro a b merged
  have hshare : equivalent a b = true := by decide
  have hmerged : (a.merge b).value = merged := by decide
  obtain ⟨hfirst, hsecond, hguarded, hvar⟩ := merge_keeps_slot.2.2.2 a b hshare
  rw [hmerged] at hfirst hsecond hguarded hvar
  exact ⟨hshare, hmerged, hfirst, hsecond, hguarded.mpr (Or.inl rfl), hvar.mpr (Or.inr rfl)⟩

end Stencil.Node
