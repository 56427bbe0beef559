import Stencil.Proofs.Collection.Shape
import Stencil.Proofs.Document.Rendering

/-!
# Comparing trees of the same shape

Comparing two trees of the same shape pairs every node with its counterpart, so the common tree is
the anchor with a variable wherever the two values differ, and there is nothing to warn about
(`compareTrees_of_parallel`).
-/

namespace Stencil.Comparison

theorem Shares.eq_mark
    {v : Variation} {n : Nat} {other attrs shared partners : List Attribute} {notes : List Note}
    (h : Shares other n attrs shared notes)
    (hparallel : Attribute.Parallel v.matches n attrs partners)
    (hpartners : ∀ attr ∈ partners, Attribute.named? other attr.name = some attr) :
    shared = Attribute.mark v n attrs := by
  induction hparallel generalizing shared notes with
  | nil =>
      cases h
      rfl
  | @cons n a b _ _ name hvalues _ ih =>
      have hpartner : Attribute.named? other name = some (.static name b) :=
        hpartners (.static name b) List.mem_cons_self
      have hvaries : v.attributes n = decide (a ≠ b) := hvalues
      have hlater := fun attr hattr => hpartners attr (List.mem_cons_of_mem _ hattr)
      rw [Attribute.mark, hvaries]
      cases h with
      | drop hnone _ => exact absurd (hnone.symm.trans hpartner) (by simp)
      | keep hsame hrest =>
          have heq : a = b := by
            simpa [Attribute.static] using hsame.symm.trans hpartner
          rw [ih hrest hlater]
          simp [heq]
      | @var _ _ _ w _ _ _ hother hne hrest =>
          have heq : w = b := by
            simpa [Attribute.static] using hother.symm.trans hpartner
          rw [ih hrest hlater]
          simp [heq ▸ hne, Attribute.static]

/-- With the same names on both sides nothing is dropped. -/
theorem warnings_pairing_of_parallel
    {c : Criterion} {n : Nat} {attrs other : List Attribute} (element : String)
    (hattrs : Attribute.Static attrs) (hother : Attribute.Static other)
    (h : Attribute.Parallel c n attrs other) :
    (Attribute.pairing attrs other).warnings element = [] := by
  have hnames := h.names_eq
  refine (Attribute.warnings_pairing_eq_nil_iff hattrs.2 hother.2).mpr ⟨?_, ?_⟩
  · intro attr hattr
    exact Attribute.named?_isSome_iff.mpr (hnames ▸ List.mem_map_of_mem hattr)
  · intro attr hattr
    exact hnames ▸ List.mem_map_of_mem hattr

/-- The heads of parallel trees correspond. -/
theorem corresponds_of_parallel
    {c : Criterion} {before : Ordinals} {a b : Node} {as bs : List Node}
    (h : Node.Parallel c before (a :: as) (b :: bs)) :
    corresponds a b = true := by
  cases h <;> simp [corresponds, Node.equivalent, Node.core, Node.sameSlot, Node.kind]

/-- A comparison of parallel trees marks where they differ and warns of nothing. -/
theorem Converges.eq_markList
    {v : Variation} {position : Position} {anchor other nodes : List Node} {notes : List Note}
    (h : Converges position anchor other nodes notes)
    (hparallel : Node.Parallel v.matches position.before anchor other) :
    nodes = Node.markList v position.before anchor ∧ warnings notes = [] := by
  induction h with
  | nil => exact ⟨rfl, rfl⟩
  | @keep position _ _ _ _ _ _ hkeeps _ ih =>
      cases hkeeps with
      | doctype value =>
          cases hparallel with
          | doctype _ hrest =>
              obtain ⟨hnodes, hnotes⟩ := ih hrest
              exact ⟨congrArg (_ :: ·) hnodes, hnotes⟩
      | comment value other =>
          cases hparallel with
          | comment _ hrest =>
              obtain ⟨hnodes, hnotes⟩ := ih hrest
              exact ⟨congrArg (_ :: ·) hnodes, hnotes⟩
      | content =>
          cases hparallel with
          | content hrest =>
              obtain ⟨hnodes, hnotes⟩ := ih hrest
              exact ⟨congrArg (_ :: ·) hnodes, hnotes⟩
      | text value =>
          cases hparallel with
          | text hvalues hrest =>
              obtain ⟨hnodes, hnotes⟩ := ih hrest
              have hsame : v.texts position.before.texts = false := by
                have hvaries : v.texts position.before.texts = decide (value ≠ value) := hvalues
                simpa using hvaries
              rw [Node.markList, Node.mark, hsame]
              exact ⟨congrArg (_ :: ·) hnodes, hnotes⟩
  | @var position a b _ _ _ _ hne _ ih =>
      cases hparallel with
      | text hvalues hrest =>
          obtain ⟨hnodes, hnotes⟩ := ih hrest
          have hvaries : v.texts position.before.texts = decide (a ≠ b) := hvalues
          rw [Node.markList, Node.mark, hvaries, if_pos (decide_eq_true hne)]
          exact ⟨congrArg (_ :: ·) hnodes, hnotes⟩
  | @element position name attrs otherAttrs _ _ _ _ _ _ _ _ _ _ hattrs hother hshared _ _
      ihInside ih =>
      cases hparallel with
      | element _ hpairs hinside hrest =>
          obtain ⟨hmerged, hinner⟩ := ihInside hinside
          obtain ⟨hnodes, hnotes⟩ := ih hrest
          have hmarked := hshared.eq_mark hpairs fun attr hattr =>
            (Attribute.named?_eq_some_iff hother.2).mpr ⟨hattr, rfl⟩
          refine ⟨?_, ?_⟩
          · rw [hmarked, hmerged, hnodes]
            rfl
          · rw [warnings_append, warnings_append, warnings_append, warnings_map_warning,
              hshared.warnings_eq_nil, warnings_pairing_of_parallel name hattrs hother hpairs,
              hinner, hnotes]
            rfl
  | @lone _ _ _ bs _ _ _ hlone _ _ =>
      cases bs with
      | nil => cases hparallel
      | cons b _ =>
          exact absurd (corresponds_of_parallel hparallel) (by simp [hlone b rfl])
  | @extra _ _ as _ _ _ _ hlone _ _ =>
      cases as with
      | nil => cases hparallel
      | cons a _ =>
          exact absurd (corresponds_of_parallel hparallel) (by simp [hlone a rfl])

/-- The common tree of two trees of the same shape marks exactly the places where they differ. -/
theorem compareTrees_of_parallel
    {v : Variation} {anchor other : List Node}
    (hanchor : Node.Concrete anchor) (hother : Node.Concrete other)
    (hparallel : Node.Parallel v.matches {} anchor other) :
    (compareTrees anchor other).value = Node.markList v {} anchor ∧
      warnings (compareTrees anchor other).notes = [] :=
  (converges_compareTrees hanchor hother).eq_markList hparallel

end Stencil.Comparison
