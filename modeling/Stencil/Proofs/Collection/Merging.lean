import Stencil.Proofs.Attribute.Pairing
import Stencil.Proofs.Collection.Variation
import Stencil.Proofs.Layout.Merge

/-!
# Merging marked trees

Two marked versions of one tree are merged sibling by sibling, since the heads always share a slot,
and nothing is lost: the merge is the tree with everything marked that is marked in either of them
(`align_markList`).
-/

namespace Stencil

/-! ## Marked trees -/

/-- Attributes marked twice are paired with themselves. -/
theorem Attribute.reconcilePairs_mark
    {attrs : List Attribute} (v w : Variation) (n : Nat)
    (hliteral : ∀ attr ∈ attrs, attr.value.isPlaceholder = false) :
    (((mark v n attrs).zip ((mark w n attrs).map some)).filterMap fun (attr, partner) =>
      partner.map (reconcilePair attr)) = mark (v.union w) n attrs := by
  induction attrs generalizing n with
  | nil => rfl
  | cons attr attrs ih =>
      have hrest := ih (n + 1) fun other hother => hliteral other (List.mem_cons_of_mem _ hother)
      have hattr := hliteral attr List.mem_cons_self
      have hvar : ∀ reference, (AttributeValue.var reference).isPlaceholder = true := fun _ => rfl
      rw [mark, mark, mark, List.map_cons, List.zip_cons_cons, List.filterMap_cons, hrest]
      cases hv : v.attributes n <;> cases hw : w.attributes n <;>
        simp [Variation.union, hv, hw, reconcilePair, hattr, hvar]

/-- Marked attributes are merged without a loss. -/
theorem Attribute.reconcile_mark
    {attrs : List Attribute} (element : String) (v w : Variation) (n : Nat)
    (hstatic : Static attrs) :
    reconcile element (mark v n attrs) (mark w n attrs) = ⟨mark (v.union w) n attrs, []⟩ := by
  have hnames : (mark v n attrs).map Attribute.name = (mark w n attrs).map Attribute.name := by
    rw [names_mark, names_mark]
  have hdistinct : ∀ u : Variation, ((mark u n attrs).map Attribute.name).Nodup := by
    intro u
    rw [names_mark]
    exact hstatic.2
  have hkept : (pairing (mark v n attrs) (mark w n attrs)).warnings element = [] := by
    refine (warnings_pairing_eq_nil_iff (hdistinct v) (hdistinct w)).mpr ⟨?_, ?_⟩
    · intro attr hattr
      exact named?_isSome_iff.mpr (hnames ▸ List.mem_map_of_mem hattr)
    · intro attr hattr
      exact hnames ▸ List.mem_map_of_mem hattr
  rw [reconcile, hkept, pairing_of_names_eq hnames (hdistinct v),
    reconcilePairs_mark v w n hstatic.1]

namespace Node

theorem equivalent_mark
    {node : Node} (v w : Variation) (before : Ordinals) (hplain : node.IsPlain) :
    equivalent (node.mark v before) (node.mark w before) = true := by
  cases node with
  | text value =>
      rw [mark, mark]
      split_ifs <;> simp [equivalent, core, sameSlot]
  | element name attrs children => simp [mark, equivalent, core, sameSlot]
  | doctype _ | comment _ | content => exact equivalent_refl _
  | _ => exact absurd hplain id

/-- The merge of two marked versions of a node is the node with both marked. -/
def MergesMarked (node : Node) : Prop :=
  ∀ (v w : Variation) (before : Ordinals),
    (node.mark v before).merge (node.mark w before) = ⟨node.mark (v.union w) before, []⟩

theorem mergesMarked_text (value : String) : MergesMarked (.text value) := by
  intro v w before
  cases hv : v.texts before.texts <;> cases hw : w.texts before.texts <;>
    simp [mark, Variation.union, hv, hw, merge, absorb, core, guards, guarded, kind] <;> rfl

theorem mergesMarked_element
    {name : String} {attrs : List Attribute} {children : List Node}
    (hattrs : Attribute.Static attrs)
    (hchildren : ∀ (v w : Variation) (before : Ordinals),
      align (markList v before children) (markList w before children) =
        ⟨markList (v.union w) before children, []⟩) :
    MergesMarked (.element name attrs children) := by
  intro v w before
  have hinside := hchildren v w (before.add ⟨1, 0, attrs.length⟩)
  rw [align] at hinside
  rw [mark, mark, mark, merge]
  simp only [core, guards, guarded, List.foldr_nil, Attribute.reconcile_mark name v w _ hattrs,
    hinside]
  rfl

/-- What holds of the first sibling and of the later ones holds of all. -/
theorem alignFrom_markList_cons
    {node : Node} {nodes : List Node} {v w : Variation} {before : Ordinals}
    {cursor : Alignment.Cursor}
    (hplain : node.IsPlain) (hnode : MergesMarked node)
    (hrest : alignFrom cursor.nextBoth (markList v (before.add node.ordinals) nodes)
        (markList w (before.add node.ordinals) nodes) =
      ⟨markList (v.union w) (before.add node.ordinals) nodes, []⟩) :
    alignFrom cursor (markList v before (node :: nodes)) (markList w before (node :: nodes)) =
      ⟨markList (v.union w) before (node :: nodes), []⟩ := by
  rw [markList, markList, alignFrom_pair (equivalent_mark v w before hplain), hrest,
    hnode v w before, markList]
  rfl

theorem alignFrom_markList
    {nodes : List Node} (v w : Variation) (before : Ordinals) (cursor : Alignment.Cursor)
    (hconcrete : Concrete nodes) :
    alignFrom cursor (markList v before nodes) (markList w before nodes) =
      ⟨markList (v.union w) before nodes, []⟩ := by
  induction hconcrete using Concrete.inductionOn generalizing v w before cursor with
  | nil => rfl
  | doctype _ _ _ _ ih | comment _ _ _ _ ih | content _ _ _ ih =>
      exact alignFrom_markList_cons trivial (fun _ _ _ => rfl) (ih v w _ _)
  | text value _ _ _ ih =>
      exact alignFrom_markList_cons trivial (mergesMarked_text value) (ih v w _ _)
  | element name attrs children _ _ hattrs _ ihChildren _ ih =>
      exact alignFrom_markList_cons hattrs
        (mergesMarked_element hattrs fun v w before => ihChildren v w before {}) (ih v w _ _)

/-- Two marked versions of one tree are merged without a loss. -/
theorem align_markList
    {nodes : List Node} (v w : Variation) (hconcrete : Concrete nodes) :
    align (markList v {} nodes) (markList w {} nodes) = ⟨markList (v.union w) {} nodes, []⟩ :=
  alignFrom_markList v w {} {} hconcrete

end Node

end Stencil
